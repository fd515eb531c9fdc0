import HeMem.Pebs
import HeMem.Lib.Transition

/-!
# The policy of `policies/lru.c`

The build with `ALLOC_LRU` and without `LRU_SWAP`: two lists of pages in use for each tier, one of
pages written lately, and the free ones.  What the kernel says of a page's accessed and dirty bits
is an argument of the scan that asks for them.
-/

namespace HeMem

open Hoare Function

/-- The eight lists of `lru.c`. -/
inductive LruList
  | activeList
  | inactiveList
  | nvmActiveList
  | nvmInactiveList
  | writtenList
  | nvmWrittenList
  | dramFreeList
  | nvmFreeList
  deriving DecidableEq

namespace LruList

/-- Whether a list is one of DRAM. -/
def dram : LruList → Bool
  | activeList | inactiveList | writtenList | dramFreeList => true
  | nvmActiveList | nvmInactiveList | nvmWrittenList | nvmFreeList => false

def free : LruList → Bool
  | dramFreeList | nvmFreeList => true
  | _ => false

end LruList

def lruFreeList (dram : Bool) : LruList := if dram then .dramFreeList else .nvmFreeList

def maxVas : ℕ := 1000000

def kswapdMigrateRate : UInt64 := 50 * 1024 * 1024 * 1024

def hememAccessedFlag : UInt64 := 0x20

def hememDirtyFlag : UInt64 := 0x40

/-- The assertions of `lru.c`, those of `fifo.c` and `hemem.c` included. -/
inductive LruAbort
  | fifo (a : FifoAbort)
  | hemem (a : Abort)
  /-- `vanum < MAX_VAS` -/
  | vanum
  /-- `hemem_get_bits` and `hemem_clear_bits`: `page_flags.va % HUGEPAGE_SIZE == 0` -/
  | bitsAlign
  /-- `lru_kswapd`: `!(np->present)` -/
  | kswapdPresent
  /-- `lru_kswapd`: `np != NULL` -/
  | kswapdNp
  /-- `lru_allocate_page`: `page->in_dram`, or its negation for the other tier -/
  | allocInDram
  /-- `lru_allocate_page`: `!page->present` -/
  | allocPresent
  /-- `lru_allocate_page`: `!"Out of memory"` -/
  | outOfMemory
  /-- `lru_remove_page`: `list != NULL` -/
  | removeList
  /-- `shrink_caches` takes nothing off a list that counts entries -/
  | nullPage
  /-- `lru_allocate_page` with `LRU_SWAP` has found no page to move down, and reads from it -/
  | nullVictim
  | diverges
  deriving DecidableEq

structure LruState where
  fifo : Heap LruList PageId
  /-- the state of `hemem.c` and the page structs; nothing here uses the globals of `pebs.c` -/
  hemem : State
  /-- `page->written` -/
  written : PageId → Bool
  /-- `page->naccesses` -/
  naccesses : PageId → UInt64
  /-- `vas`, up to `vanum` -/
  vas : List UInt64

abbrev LruState.page (s : LruState) : PageId → HememPage := s.hemem.page

abbrev LruM := StateT LruState (Except LruAbort)

/-- A list operation, taken under the list's lock. -/
def onLists {α : Type} (m : FifoM LruList PageId α) : LruM α := fun s =>
  match m s.fifo with
  | .ok (a, h) => .ok (a, { s with fifo := h })
  | .error e => .error (.fifo e)

/-- A call into `hemem.c`, or an access to a page struct. -/
def onHemem {α : Type} (m : M α) : LruM α := fun s =>
  match m s.hemem with
  | .ok (a, h) => .ok (a, { s with hemem := h })
  | .error e => .error (.hemem e)

section Scan

/-- `hemem_get_bits`, for a kernel that answers with `bits`. -/
def hememGetBits (bits : PageId → UInt64) (page : PageId) : LruM UInt64 := do
  check (((← get).page page).va % hugepageSize = 0) .bitsAlign
  return bits page

def accessed (bits : UInt64) : Bool := bits &&& hememAccessedFlag = hememAccessedFlag

def dirty (bits : UInt64) : Bool := bits &&& hememDirtyFlag = hememDirtyFlag

def setWritten (page : PageId) (b : Bool) : LruM Unit :=
  modify fun s => { s with written := update s.written page b }

def setNaccesses (page : PageId) (n : UInt64) : LruM Unit :=
  modify fun s => { s with naccesses := update s.naccesses page n }

/-- `vas[vanum++] = page->va`, with its assertion. -/
def recordVa (page : PageId) : LruM Unit := do
  check ((← get).vas.length < maxVas) .vanum
  modify fun s => { s with vas := s.vas ++ [(s.page page).va] }

variable (bits : PageId → UInt64) (active inactive written : LruList)

/-- The body of the loop of `shrink_caches`. -/
def shrinkPage (page : PageId) : LruM Unit := do
  let b ← hememGetBits bits page
  if accessed b then
    if dirty b then
      setWritten page true
      recordVa page
      onLists (enqueueFifo written page)
    else
      setWritten page false
      recordVa page
      onLists (enqueueFifo active page)
  else
    setNaccesses page 0
    onLists (enqueueFifo inactive page)

/-- The loop of `shrink_caches`, with `nr_pages` turns to go. -/
def shrinkLoop : ℕ → LruM Unit
  | 0 => return
  | nrPages + 1 => do
    if ((← get).fifo.list active).numentries > 0 then
      match ← onLists (dequeueFifo active) with
      | none => throw .nullPage
      | some page =>
        shrinkPage bits active inactive written page
        shrinkLoop nrPages

def shrinkCaches : LruM Unit := do
  shrinkLoop bits active inactive written ((← get).fifo.list active).numentries

/-- The loop of `expand_caches` and `check_writes` over a list, with a bound on its turns. -/
def scanLoop (list : LruList) (body : PageId → LruM Unit) : ℕ → LruM Unit
  | 0 => return
  | nrPages + 1 => do
    match ← onLists (dequeueFifo list) with
    | none => return
    | some page =>
      body page
      scanLoop list body nrPages

/-- The body of the loop of `expand_caches`. -/
def expandPage (page : PageId) : LruM Unit := do
  let b ← hememGetBits bits page
  if accessed b then
    if dirty b then
      setWritten page true
      onLists (enqueueFifo written page)
    else
      setWritten page false
      let n := (← get).naccesses page
      if n ≥ 4 then
        setNaccesses page 0
        onLists (enqueueFifo active page)
      else
        setNaccesses page (n + 1)
        recordVa page
        onLists (enqueueFifo inactive page)
  else
    setNaccesses page 0
    onLists (enqueueFifo inactive page)

def expandCaches : LruM Unit := do
  scanLoop inactive (expandPage bits active inactive written)
    ((← get).fifo.list inactive).numentries

/-- The body of the loop of `check_writes`. -/
def checkPage (page : PageId) : LruM Unit := do
  let b ← hememGetBits bits page
  if accessed b then
    if dirty b then
      setWritten page true
      recordVa page
      onLists (enqueueFifo written page)
    else
      setWritten page false
      onLists (enqueueFifo active page)
  else
    onLists (enqueueFifo inactive page)

def checkWrites : LruM Unit := do
  scanLoop written (checkPage bits active inactive written) ((← get).fifo.list written).numentries

/-- `hemem_clear_bits` for each address noted: its assertion, the rest is the kernel's. -/
def clearBits : List UInt64 → LruM Unit
  | [] => return
  | va :: vas => do
    check (va % hugepageSize = 0) .bitsAlign
    clearBits vas

/-- What the kernel answers in the six loops of a scan. -/
structure ScanBits where
  check : Bool → PageId → UInt64
  shrink : Bool → PageId → UInt64
  expand : Bool → PageId → UInt64

/-- One scan of `lru_kscand`. -/
def lruKscand (bits : ScanBits) : LruM Unit := do
  modify ({ · with vas := [] })
  checkWrites (bits.check true) .activeList .inactiveList .writtenList
  checkWrites (bits.check false) .nvmActiveList .nvmInactiveList .nvmWrittenList
  shrinkCaches (bits.shrink true) .activeList .inactiveList .writtenList
  shrinkCaches (bits.shrink false) .nvmActiveList .nvmInactiveList .nvmWrittenList
  expandCaches (bits.expand true) .activeList .inactiveList .writtenList
  expandCaches (bits.expand false) .nvmActiveList .nvmInactiveList .nvmWrittenList
  clearBits (← get).vas

end Scan

section Kswapd

variable (cfg : Config)

/-- `lru_migrate_up` for `up`, else `lru_migrate_down`. -/
def lruMigrate (up : Bool) (page : PageId) (offset : UInt64) : M Unit := do
  modifyPage page ({ · with migrating := true })
  hememWpPage page true
  (if up then hememMigrateUp cfg else hememMigrateDown cfg) page offset
  modifyPage page ({ · with migrating := false })

def lruMigrateUp : PageId → UInt64 → M Unit := lruMigrate cfg true

def lruMigrateDown : PageId → UInt64 → M Unit := lruMigrate cfg false

/-- Moves `page` to the frame of the free page `np` and leaves its own to `np`. -/
def lruSwapFrames (up : Bool) (page np : PageId) : M Unit := do
  let oldOffset := (← getPage page).devdaxOffset
  let newOffset := (← getPage np).devdaxOffset
  (if up then lruMigrateUp cfg else lruMigrateDown cfg) page newOffset
  modifyPage np ({ · with devdaxOffset := oldOffset, inDram := !up, present := false })

/-- The same, and the two pages go to their lists. -/
def lruExchange (up : Bool) (page np : PageId) : LruM Unit := do
  onHemem (lruSwapFrames cfg up page np)
  onLists (enqueueFifo (if up then .activeList else .nvmInactiveList) page)
  onLists (enqueueFifo (lruFreeList !up) np)

/-- How a turn of the migration loop ends: with the bytes migrated so far, with nothing in NVM to
move up, or with all of DRAM active (`goto out`). -/
inductive LruTurn
  | next (migratedBytes : UInt64)
  | done
  | out
  deriving DecidableEq

/-- The remaining tries for the NVM page `p`, taken off `from`. -/
def kswapdTries (source : LruList) (p : PageId) (migratedBytes : UInt64) : ℕ → LruM LruTurn
  | 0 => return .next migratedBytes
  | tries + 1 => do
    match ← onLists (dequeueFifo .dramFreeList) with
    | some np =>
      check (((← get).page np).present = false) .kswapdPresent
      lruExchange cfg true p np
      return .next (migratedBytes + ptToPagesize ((← get).page p).pt)
    | none =>
      match ← onLists (dequeueFifo .inactiveList) with
      | none =>
        onLists (enqueueFifo source p)
        return .out
      | some cp =>
        match ← onLists (dequeueFifo .nvmFreeList) with
        | none => throw .kswapdNp
        | some np =>
          check (((← get).page np).present = false) .kswapdPresent
          lruExchange cfg false cp np
          kswapdTries source p migratedBytes tries

/-- One turn of the migration loop. -/
def kswapdTurn (migratedBytes : UInt64) : LruM LruTurn := do
  match ← onLists (dequeueFifo .nvmWrittenList) with
  | some p => kswapdTries cfg .nvmWrittenList p migratedBytes 2
  | none =>
    match ← onLists (dequeueFifo .nvmActiveList) with
    | some p => kswapdTries cfg .nvmActiveList p migratedBytes 2
    | none => return .done

/-- The migration loop. -/
def kswapdLoop : ℕ → UInt64 → LruM Unit
  | 0, _ => throw .diverges
  | fuel + 1, migratedBytes => do
    if migratedBytes < kswapdMigrateRate then
      match ← kswapdTurn cfg migratedBytes with
      | .next bytes => kswapdLoop fuel bytes
      | .done => return
      | .out => return

/-- One migration pass of `lru_kswapd`. -/
def lruKswapd : LruM Unit := do
  let s ← get
  kswapdLoop cfg
    ((s.fifo.list .nvmWrittenList).numentries + (s.fifo.list .nvmActiveList).numentries + 1) 0

end Kswapd

section Allocation

/-- `lru_allocate_page`, which `lru_pagefault` calls under the lock. -/
def lruAllocatePage : LruM PageId := do
  match ← onLists (dequeueFifo .dramFreeList) with
  | some page =>
    check (((← get).page page).inDram = true) .allocInDram
    check (((← get).page page).present = false) .allocPresent
    onHemem (modifyPage page ({ · with present := true }))
    onLists (enqueueFifo .activeList page)
    return page
  | none =>
    match ← onLists (dequeueFifo .nvmFreeList) with
    | some page =>
      check (((← get).page page).inDram = false) .allocInDram
      check (((← get).page page).present = false) .allocPresent
      onHemem (modifyPage page ({ · with present := true }))
      onLists (enqueueFifo .nvmActiveList page)
      return page
    | none => throw .outOfMemory

def lruRemovePage (page : PageId) : LruM Unit := do
  match (← get).fifo.listOf page with
  | none => throw .removeList
  | some list =>
    onLists (pageListRemovePage list page)
    onHemem (modifyPage page ({ · with present := false }))
    onLists (enqueueFifo (lruFreeList ((← get).page page).inDram) page)

/-- The loop of `lru_init` over the frames of one tier, `first` the number of its first page
struct. -/
def lruInitFrames (cfg : Config) (dram : Bool) (first : PageId) : ℕ → LruM Unit
  | 0 => return
  | n + 1 => do
    lruInitFrames cfg dram first n
    onHemem (modifyPage (first + n) fun _ =>
      { devdaxOffset := UInt64.ofNat n * pageSize + cfg.offset dram, inDram := dram })
    onLists (enqueueFifo (lruFreeList dram) (first + n))

def lruInit (cfg : Config) : LruM Unit := do
  lruInitFrames cfg true 0 (cfg.count true)
  lruInitFrames cfg false (cfg.count true) (cfg.count false)

/-- The state before `lru_init`. -/
def LruState.blank (kernel : Kernel) : LruState where
  fifo := Heap.empty
  hemem := State.blank kernel
  written _ := false
  naccesses _ := 0
  vas := []

end Allocation

section Runs

/-- The three functions that go over a list of one tier. -/
inductive Sweep
  | checkWrites
  | shrinkCaches
  | expandCaches

/-- One of them on the lists of a tier, as `lru_kscand` calls it. -/
def Sweep.run (dram : Bool) (bits : PageId → UInt64) (k : Sweep) : LruM Unit :=
  let active := if dram then .activeList else .nvmActiveList
  let inactive := if dram then .inactiveList else .nvmInactiveList
  let written := if dram then .writtenList else .nvmWrittenList
  match k with
  | checkWrites => HeMem.checkWrites bits active inactive written
  | shrinkCaches => HeMem.shrinkCaches bits active inactive written
  | expandCaches => HeMem.expandCaches bits active inactive written

/-- What the rest of HeMem does with the policy, each taken as one atomic step; a scan may be taken
as a whole or as its `vanum = 0` and its loops. -/
inductive LruOp
  | allocate
  | assign (page : PageId) (va : UInt64)
  | remove (page : PageId)
  | scan (bits : ScanBits)
  | startScan
  | sweep (k : Sweep) (dram : Bool) (bits : PageId → UInt64)
  | pass

namespace LruOp

variable (cfg : Config) (s : LruState)

def run : LruOp → LruM Unit
  | allocate => do
    let _ ← lruAllocatePage
  | assign page va => onHemem (modifyPage page ({ · with va := va }))
  | remove page => lruRemovePage page
  | scan bits => lruKscand bits
  | startScan => modify ({ · with vas := [] })
  | sweep k dram bits => k.run dram bits
  | pass => lruKswapd cfg

/-- As for `Op.Legal`. -/
def Legal : LruOp → Prop
  | assign page va => page < cfg.pages ∧ va ≠ 0 ∧ va % hugepageSize = 0
  | remove page => page < cfg.pages ∧ (s.page page).present = true
  | _ => True

instance : DecidablePred (Legal cfg s) := fun op => by
  cases op <;> unfold Legal <;> infer_instance

end LruOp

def LruOp.next (cfg : Config) (s : LruState) (op : LruOp) : Option LruState :=
  (op.run cfg s).toOption.map (·.2)

/-- `lru_init`, then operations that do not abort. -/
def lruPolicy (cfg : Config) (kernel : Kernel) : System LruState LruOp where
  init s := lruInit cfg (LruState.blank kernel) = .ok ((), s)
  step s op s' := op.run cfg s = .ok ((), s')

end Runs

/-- The pass fails no assertion but that a page which is given out has its address, and then it
leaves the pages of NVM in use on lists of NVM. -/
def LruState.PassEnds (cfg : Config) (s : LruState) : Prop :=
  (∀ e, lruKswapd cfg s = .error e → e = .hemem .wpVa ∧
    ∃ p < cfg.pages, (s.page p).present = true ∧ (s.page p).va = 0) ∧
  ∀ t, lruKswapd cfg s = .ok ((), t) → ∀ p < cfg.pages, (t.page p).present = true →
    (t.page p).inDram = false → ∃ q, q.dram = false ∧ q.free = false ∧ p ∈ t.fifo.contents q

/-- Neither tier has a free page, a page of DRAM is inactive, and one of NVM is to move up. -/
def LruState.Starved (s : LruState) : Prop :=
  s.fifo.contents .dramFreeList = [] ∧ s.fifo.contents .nvmFreeList = [] ∧
    s.fifo.contents .inactiveList ≠ [] ∧
      (s.fifo.contents .nvmWrittenList ≠ [] ∨ s.fifo.contents .nvmActiveList ≠ [])

instance LruState.decidableStarved (s : LruState) : Decidable s.Starved := by
  unfold LruState.Starved
  infer_instance

end HeMem

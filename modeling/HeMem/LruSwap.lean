import HeMem.Scan

/-!
# `lru_allocate_page` of the build with `LRU_SWAP`

Where DRAM has no free page, this build moves an inactive page of DRAM down; if there is none, it
first takes the pages found not accessed off the active list.
-/

namespace HeMem

open Hoare Function

variable (cfg : Config) (bits : PageId → UInt64)

/-- Moves the last inactive page of DRAM to a free frame of NVM, if there is one. -/
def swapDown : LruM Unit := do
  let cp ← onLists (dequeueFifo .inactiveList)
  match ← onLists (dequeueFifo .nvmFreeList) with
  | none => return
  | some page =>
    match cp with
    | none => throw .nullVictim
    | some cp => lruExchange cfg false cp page

/-- The loop of `lru_allocate_page`. -/
def lruSwapTries : ℕ → LruM PageId
  | 0 => throw .outOfMemory
  | tries + 1 => do
    match ← onLists (dequeueFifo .dramFreeList) with
    | some page =>
      check (((← get).page page).inDram = true) .allocInDram
      check (((← get).page page).present = false) .allocPresent
      onHemem (modifyPage page ({ · with present := true }))
      onLists (enqueueFifo .activeList page)
      return page
    | none =>
      if ((← get).fifo.list .inactiveList).numentries = 0 then
        shrinkCaches bits .activeList .inactiveList .writtenList
      swapDown cfg
      lruSwapTries tries

/-- `lru_allocate_page` with `LRU_SWAP`, for a kernel that answers with `bits`. -/
def lruSwapAllocatePage : LruM PageId := lruSwapTries cfg bits 2

/-- The operations of this build: another allocation, the rest as without `LRU_SWAP`. -/
inductive SwapOp
  | allocate (bits : PageId → UInt64)
  | other (op : LruOp)

namespace SwapOp

def run : SwapOp → LruM Unit
  | allocate bits => do
    let _ ← lruSwapAllocatePage cfg bits
  | other op => op.run cfg

def Legal (s : LruState) : SwapOp → Prop
  | allocate _ => True
  | other .allocate => False
  | other op => op.Legal cfg s

instance (s : LruState) : DecidablePred (Legal cfg s)
  | allocate _ => instDecidableTrue
  | other .allocate => instDecidableFalse
  | other (.assign page va) => LruOp.instDecidablePredLegal cfg s (.assign page va)
  | other (.remove page) => LruOp.instDecidablePredLegal cfg s (.remove page)
  | other (.scan bits) => LruOp.instDecidablePredLegal cfg s (.scan bits)
  | other .startScan => LruOp.instDecidablePredLegal cfg s .startScan
  | other (.sweep k dram bits) => LruOp.instDecidablePredLegal cfg s (.sweep k dram bits)
  | other .pass => LruOp.instDecidablePredLegal cfg s .pass

def next (s : LruState) (op : SwapOp) : Option LruState := (op.run cfg s).toOption.map (·.2)

end SwapOp

/-- `lru_init`, then operations that do not abort. -/
def swapPolicy (kernel : Kernel) : System LruState SwapOp where
  init s := lruInit cfg (LruState.blank kernel) = .ok ((), s)
  step s op s' := op.run cfg s = .ok ((), s')

namespace LruState

variable (s : LruState)

/-- The page to be moved down: the last inactive one or, if there is none, the last active one that
has not been accessed. -/
def victim : Option PageId :=
  if s.fifo.contents .inactiveList = [] then
    (s.fifo.contents .activeList).reverse.find? fun p => !accessed (bits p)
  else (s.fifo.contents .inactiveList).getLast?

/-- There is a page to be moved down, it has been given its address, and if the active list has to
be gone through, `vas` has room for the pages on it that have been accessed. -/
def CanSwap : Prop :=
  (∃ cp, s.victim bits = some cp ∧ (s.page cp).va ≠ 0) ∧
    (s.fifo.contents .inactiveList = [] →
      ((s.fifo.contents .activeList).filter fun p => accessed (bits p)).length ≤
        maxVas - s.vas.length)

/-- The allocation returns a page of DRAM that is present, and each other page is on one list. -/
def Swaps : Prop := ∃ page t, lruSwapAllocatePage cfg bits s = .ok (page, t) ∧
  (t.page page).inDram = true ∧ (t.page page).present = true ∧
  ∀ p < cfg.pages, p ≠ page → ∃ q, ∀ q', (t.fifo.contents q').count p = if q' = q then 1 else 0

end LruState

end HeMem

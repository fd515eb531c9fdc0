import HeMem.Migrate

/-!
# The policy of `pebs.c`

The sampler, one pass of the policy thread, the two allocators and the removal of a page.  Loops
that run until a list or a ring is empty take the number of elements as their bound: a turn more
than that is `Abort.diverges`.
-/

namespace HeMem

open Hoare Function

section Requests

def State.requestRing (s : State) (hot : Bool) : RingBuf PageId :=
  if hot then s.hotRing else s.coldRing

def State.setRequestRing (s : State) (hot : Bool) (r : RingBuf PageId) : State :=
  if hot then { s with hotRing := r } else { s with coldRing := r }

/-- `make_hot_request` for `hot`, else `make_cold_request`. -/
def makeRequest (hot : Bool) (page : PageId) : M Unit := do
  modifyPage page ({ · with ringPresent := true })
  modify fun s => s.setRequestRing hot (ringBufPut (s.requestRing hot) page)

def makeHotRequest : PageId → M Unit := makeRequest true

def makeColdRequest : PageId → M Unit := makeRequest false

/-- The requests `pebs_scan_thread` makes for a page it has just counted a sample of. -/
def sampleRequest (page : PageId) : M Unit := do
  let p ← getPage page
  if p.reads ≥ hotReadThreshold then
    if !p.hot && !p.ringPresent then
      makeHotRequest page
  else if p.reads < hotReadThreshold then
    if p.hot && !p.ringPresent then
      makeColdRequest page

/-- The body of `pebs_scan_thread` for a sample of type `j` on a page it has found. -/
def samplePage (j : PbufType) (page : PageId) : M Unit := do
  if (← getPage page).va ≠ 0 then
    modifyPage page fun p => { p with
      accesses := update p.accesses j (p.accesses j + 1)
      totAccesses := update p.totAccesses j (p.totAccesses j + 1) }
    sampleRequest page
    let clock := (← get).globalClock
    modifyPage page fun p => { p with
      accesses := fun i => p.accesses i >>> (clock - p.localClock)
      localClock := clock }
    if (← getPage page).accesses j > pebsCoolingThreshold then
      modify fun s => { s with
        globalClock := s.globalClock + 1, needCoolDram := true, needCoolNvm := true }

/-- What `pebs_scan_thread` does with a sample of type `j` at address `addr`. -/
def pebsScanSample (addr : UInt64) (j : PbufType) : M Unit := do
  if addr ≠ 0 then
    match ← findPage (addr &&& hugePfnMask) with
    | some page => samplePage j page
    | none => return

end Requests

section Policy

/-- `make_hot` for `hot`, else `make_cold`. -/
def setHot (hot : Bool) (page : PageId) : M Unit := do
  let p ← getPage page
  let list := fun hot => if hot then hotList p.inDram else coldList p.inDram
  check (p.va ≠ 0) (if hot then .makeHotVa else .makeColdVa)
  if p.hot = hot then
    check ((← getList page) = some (list hot)) (if hot then .makeHotList else .makeColdList)
  else
    check ((← getList page) = some (list !hot)) (if hot then .makeHotList else .makeColdList)
    onFifo (pageListRemovePage (list !hot) page)
    modifyPage page ({ · with hot := hot })
    onFifo (enqueueFifo (list hot) page)

def makeHot : PageId → M Unit := setHot true

def makeCold : PageId → M Unit := setHot false

/-- `cur_cool_in_dram` or `cur_cool_in_nvm` -/
def State.cur (s : State) (dram : Bool) : Option PageId :=
  if dram then s.curCoolInDram else s.curCoolInNvm

def State.setCur (s : State) (dram : Bool) (c : Option PageId) : State :=
  if dram then { s with curCoolInDram := c } else { s with curCoolInNvm := c }

/-- One of the two conditionals of `update_current_cool_page`. -/
def updateCursor (dram : Bool) (page : PageId) : M Unit := do
  if some page = (← get).cur dram then
    check ((← getList page) = some (hotList dram)) .coolCursor
    let next ← onFifo (nextPage (hotList dram) (some page))
    modify (·.setCur dram next)

/-- Moves each cursor that points at `page` on to the next page of its list. -/
def updateCurrentCoolPage (page : PageId) : M Unit := do
  updateCursor true page
  updateCursor false page

/-- The body of the loop over the free-page ring. -/
def drainPage (page : PageId) : M Unit := do
  match ← getList page with
  | none => throw .drainList
  | some list =>
    updateCurrentCoolPage page
    onFifo (pageListRemovePage list page)
    let p ← getPage page
    onFifo (enqueueFifo (freeList p.inDram) page)

/-- `ring_buf_get(free_page_ring)` -/
def takeFree : M (Option PageId) := do
  let (page, ring) := ringBufGet (← get).freePageRing
  modify ({ · with freePageRing := ring })
  return page

/-- The loop over the free-page ring. -/
def drainFreePageRing : ℕ → M Unit
  | 0 => throw .diverges
  | fuel + 1 => do
    match ← takeFree with
    | none => return
    | some page =>
      drainPage page
      drainFreePageRing fuel

/-- The body of the loop over a request ring: whether the request counts. -/
def serveRequest (hot : Bool) (page : PageId) : M Bool := do
  let p ← getPage page
  if !p.present then
    check ((← getList page) = some (freeList p.inDram)) .requestList
    return false
  else
    updateCurrentCoolPage page
    modifyPage page ({ · with ringPresent := false })
    (if hot then makeHot else makeCold) page
    return true

/-- `ring_buf_get(hot_ring)` or `ring_buf_get(cold_ring)` -/
def takeRequest (hot : Bool) : M (Option PageId) := do
  let (page, ring) := ringBufGet ((← get).requestRing hot)
  modify (·.setRequestRing hot ring)
  return page

/-- The loop over a request ring, with `reqs` requests counted so far. -/
def serveRequests (hot : Bool) (threshold : ℕ) : ℕ → ℕ → M Unit
  | 0, _ => throw .diverges
  | fuel + 1, reqs => do
    if reqs < threshold then
      match ← takeRequest hot with
      | none => return
      | some page =>
        let counted ← serveRequest hot page
        serveRequests hot threshold fuel (if counted then reqs + 1 else reqs)

/-- `pebs_migrate_up` for `up`, else `pebs_migrate_down`, which skips an enforced page. -/
def pebsMigrate (cfg : Config) (up : Bool) (page : PageId) (offset : UInt64) : M Unit := do
  if !up && (← getPage page).enforced then
    return
  modifyPage page ({ · with migrating := true })
  hememWpPage page true
  (if up then hememMigrateUp cfg else hememMigrateDown cfg) page offset
  modifyPage page ({ · with migrating := false })

def pebsMigrateUp (cfg : Config) : PageId → UInt64 → M Unit := pebsMigrate cfg true

def pebsMigrateDown (cfg : Config) : PageId → UInt64 → M Unit := pebsMigrate cfg false

/-- Moves `page` to the frame of the free page `np` and leaves its own to `np`. -/
def exchange (cfg : Config) (up : Bool) (page np : PageId) : M Unit := do
  let oldOffset := (← getPage page).devdaxOffset
  let newOffset := (← getPage np).devdaxOffset
  (if up then pebsMigrateUp cfg else pebsMigrateDown cfg) page newOffset
  modifyPage np fun p => HememPage.clearCounters
    { p with devdaxOffset := oldOffset, inDram := !up, present := false, hot := false }
  onFifo (enqueueFifo (if up then .dramHot else .nvmCold) page)
  onFifo (enqueueFifo (freeList !up) np)

/-- The search for a cold DRAM page to move down. -/
def coldVictim : ℕ → M (Option PageId)
  | 0 => throw .diverges
  | fuel + 1 => do
    match ← onFifo (dequeueFifo .dramCold) with
    | none => return none
    | some cp => if (← getPage cp).enforced then coldVictim fuel else return some cp

/-- Pages on a list, the bound of a loop that takes them off. -/
def listLength (q : ListId) : M ℕ := return ((← get).fifo.list q).numentries

/-- How a turn of the migration loop ends: with the bytes migrated so far, with nothing in NVM
hot, or with all of DRAM hot (`goto out`). -/
inductive Turn
  | next (migratedBytes : UInt64)
  | bail
  | out
  deriving DecidableEq

/-- The remaining tries for the hot NVM page `p`. -/
def migrateTries (cfg : Config) (p : PageId) (migratedBytes : UInt64) : ℕ → M Turn
  | 0 => return .next migratedBytes
  | tries + 1 => do
    match ← onFifo (dequeueFifo .dramFree) with
    | some np =>
      check ((← getPage np).present = false) .policyPresent
      exchange cfg true p np
      return .next (migratedBytes + ptToPagesize (← getPage p).pt)
    | none =>
      match ← coldVictim ((← listLength .dramCold) + 1) with
      | none =>
        onFifo (enqueueFifo .nvmHot p)
        return .out
      | some cp =>
        match ← onFifo (dequeueFifo .nvmFree) with
        | none => throw .policyNp
        | some np =>
          check ((← getPage np).present = false) .policyPresent
          exchange cfg false cp np
          migrateTries cfg p migratedBytes tries

/-- One turn of the migration loop. -/
def migrateTurn (cfg : Config) (migratedBytes : UInt64) : M Turn := do
  match ← onFifo (dequeueFifo .nvmHot) with
  | none => return .bail
  | some p =>
    if some p = (← get).cur false then
      modify fun s => s.setCur false (s.fifo.list .nvmHot).first
    if (← getPage p).reads < hotReadThreshold then
      modifyPage p ({ · with hot := false })
      onFifo (enqueueFifo .nvmCold p)
      return .next migratedBytes
    else
      migrateTries cfg p migratedBytes 2

/-- The migration loop: whether the pass goes on to cooling. -/
def migrateLoop (cfg : Config) : ℕ → UInt64 → M Bool
  | 0, _ => throw .diverges
  | fuel + 1, migratedBytes => do
    if migratedBytes < pebsKswapdMigrateRate then
      match ← migrateTurn cfg migratedBytes with
      | .next bytes => migrateLoop cfg fuel bytes
      | .bail => return true
      | .out => return false
    else
      return true

/-- The body of the loop of `partial_cool` for the page `p` it has come to: the new cursor. -/
def coolPage (hot cold : ListId) (dram : Bool) (p : PageId) : M (Option PageId) := do
  check ((← getPage p).inDram = dram) .coolInDram
  let clock := (← get).globalClock
  modifyPage p fun q =>
    let tmpAccesses := fun j => q.accesses j >>> (clock - q.localClock)
    if tmpAccesses .dramread + tmpAccesses .nvmread < hotReadThreshold then
      { q with hot := false }
    else q
  if dram && (← get).startDramPage = some p then
    modify ({ · with startDramPage := none, needCoolDram := false })
  if !dram && (← get).startNvmPage = some p then
    modify ({ · with startNvmPage := none, needCoolNvm := false })
  if !(← getPage p).hot then
    let current := ((← get).fifo.node p).next
    onFifo (pageListRemovePage hot p)
    onFifo (enqueueFifo cold p)
    return current
  else
    return some p

/-- The loop of `partial_cool`. -/
def coolLoop (hot cold : ListId) (dram : Bool) : ℕ → Option PageId → M (Option PageId)
  | 0, current => return current
  | turns + 1, current => do
    match ← onFifo (nextPage hot current) with
    | none => return current
    | some p => coolLoop hot cold dram turns (← coolPage hot cold dram p)

/-- `partial_cool` of the `COOL_IN_PLACE` build. -/
def partialCool (hot cold : ListId) (dram : Bool) (current : Option PageId) :
    M (Option PageId) := do
  if dram && !(← get).needCoolDram then
    return current
  if !dram && !(← get).needCoolNvm then
    return current
  if (← get).startDramPage = none ∧ dram then
    modify fun s => { s with startDramPage := (s.fifo.list hot).last }
  if (← get).startNvmPage = none ∧ !dram then
    modify fun s => { s with startNvmPage := (s.fifo.list hot).last }
  coolLoop hot cold dram coolingPages current

/-- A pass of `pebs_policy_thread` up to its migration loop. -/
def beforeMigration : M Unit := do
  drainFreePageRing ((← get).freePageRing.count + 1)
  serveRequests true hotRingReqsThreshold ((← get).hotRing.count + 1) 0
  serveRequests false coldRingReqsThreshold ((← get).coldRing.count + 1) 0

/-- A pass of `pebs_policy_thread` from the end of its migration loop. -/
def coolBoth : M Unit := do
  let current ← partialCool .dramHot .dramCold true ((← get).cur true)
  modify (·.setCur true current)
  let current ← partialCool .nvmHot .nvmCold false ((← get).cur false)
  modify (·.setCur false current)

/-- One pass of `pebs_policy_thread`. -/
def pebsPolicyPass (cfg : Config) : M Unit := do
  beforeMigration
  if ← migrateLoop cfg ((← listLength .nvmHot) + 1) 0 then
    coolBoth

end Policy

section Allocation

def pebsAllocatePage : M PageId := do
  match ← onFifo (dequeueFifo .dramFree) with
  | some page =>
    check ((← getPage page).inDram = true) .allocInDram
    check ((← getPage page).present = false) .allocPresent
    modifyPage page ({ · with present := true })
    onFifo (enqueueFifo .dramCold page)
    return page
  | none =>
    match ← onFifo (dequeueFifo .nvmFree) with
    | some page =>
      check ((← getPage page).inDram = false) .allocInDram
      check ((← getPage page).present = false) .allocPresent
      modifyPage page ({ · with present := true })
      onFifo (enqueueFifo .nvmCold page)
      return page
    | none => throw .outOfMemory

/-- The part the hinted allocator goes through before and again after it has moved a cold page
down: it takes a free DRAM page if there is one. -/
def hintedTakeFree : M (Option PageId) := do
  match ← onFifo (dequeueFifo .dramFree) with
  | none => return none
  | some page =>
    check ((← getPage page).inDram = true) .hintedInDram
    check ((← getPage page).present = false) .hintedPresent
    let persistence := (← get).userHintPersistence
    modifyPage page ({ · with present := true, enforced := decide (persistence = 1) })
    if (← get).userHintPriority = 1 then
      onFifo (enqueueFifo .dramHot page)
    else
      onFifo (enqueueFifo .dramCold page)
    modify ({ · with userHintTier := -1, userHintPriority := -1 })
    return some page

def userHintedDramPebsAllocatePage (cfg : Config) : M PageId := do
  match ← hintedTakeFree with
  | some page => return page
  | none =>
    let coldPage ← coldVictim ((← listLength .dramCold) + 1)
    let freeNvmPage ← onFifo (dequeueFifo .nvmFree)
    match coldPage, freeNvmPage with
    | some coldPage, some freeNvmPage =>
      exchange cfg false coldPage freeNvmPage
      match ← hintedTakeFree with
      | some page => return page
      | none => throw .outOfMemory
    | _, _ => throw .outOfMemory

def pebsPagefault (cfg : Config) : M PageId := do
  if (← get).userHintTier = 0 then
    userHintedDramPebsAllocatePage cfg
  else
    pebsAllocatePage

def pebsRemovePage (page : PageId) : M Unit := do
  if ringBufFull (← get).freePageRing then
    throw .waits
  modify fun s => { s with freePageRing := ringBufPut s.freePageRing page }
  modifyPage page fun p => HememPage.clearCounters { p with present := false, hot := false }

/-- The loop of `pebs_init` over the frames of one tier, `first` the number of its first page
struct. -/
def initFrames (cfg : Config) (dram : Bool) (first : PageId) : ℕ → M Unit
  | 0 => return
  | n + 1 => do
    initFrames cfg dram first n
    modifyPage (first + n) fun _ =>
      { devdaxOffset := UInt64.ofNat n * pageSize + cfg.offset dram, inDram := dram }
    onFifo (enqueueFifo (freeList dram) (first + n))

def initRing : M (RingBuf PageId) :=
  match ringBufInit (fun _ => 0) ringCapacity with
  | some r => return r
  | none => throw .ringInit

def pebsInit (cfg : Config) : M Unit := do
  initFrames cfg true 0 (cfg.count true)
  initFrames cfg false (cfg.count true) (cfg.count false)
  let ring ← initRing
  modify ({ · with hotRing := ring })
  let ring ← initRing
  modify ({ · with coldRing := ring })
  let ring ← initRing
  modify ({ · with freePageRing := ring })

/-- The state before `pebs_init`: all globals zero but the hints, as `interpose.c` sets them. -/
def State.blank (kernel : Kernel) : State where
  fifo := Heap.empty
  page _ := {}
  hotRing := ⟨fun _ => 0, 0, 0, 0⟩
  coldRing := ⟨fun _ => 0, 0, 0, 0⟩
  freePageRing := ⟨fun _ => 0, 0, 0, 0⟩
  globalClock := 0
  needCoolDram := false
  needCoolNvm := false
  startDramPage := none
  startNvmPage := none
  curCoolInDram := none
  curCoolInNvm := none
  userHintTier := -1
  userHintPersistence := 0
  userHintPriority := 0
  pages _ := none
  memAllocated := 0
  memMmaped := 0
  kernel := kernel
  calls := []

end Allocation

end HeMem

import HeMem.Lib.Custody
import HeMem.Lib.Transition
import HeMem.View

/-!
# `pebs_remove_page` beside the free-page ring's drain

Threads remove pages and take page faults while the policy thread drains the free-page ring.  In
`pebs_remove_page` the `ring_buf_put` and each write to the struct is a step; everywhere else a list
operation is, together with what comes before it since the last one.  The rest of a pass of the
policy thread is not part of this system.
-/

namespace HeMem

open Hoare Function

/-- A counter of a page: one of `tot_accesses` or of `accesses`. -/
structure Counter where
  total : Bool
  type : PbufType
  deriving DecidableEq

/-- The counters in the order in which `pebs_remove_page` zeroes them. -/
def allCounters : List Counter :=
  [⟨false, .dramread⟩, ⟨true, .dramread⟩, ⟨false, .nvmread⟩, ⟨true, .nvmread⟩]

def HememPage.zero (p : HememPage) (c : Counter) : HememPage :=
  if c.total then { p with totAccesses := update p.totAccesses c.type 0 }
  else { p with accesses := update p.accesses c.type 0 }

/-- Where a thread stands in `pebs_remove_page` or in `pebs_pagefault`. -/
inductive ThreadPhase
  | idle
  /-- before `ring_buf_put` -/
  | put (page : PageId)
  /-- before `page->present = false` -/
  | setPresent (page : PageId)
  /-- before `page->hot = false` -/
  | setHot (page : PageId)
  /-- with the counters still to be zeroed -/
  | zero (page : PageId) (left : List Counter)
  /-- in `pebs_allocate_page`, before `dequeue_fifo(&dram_free_list)` -/
  | takeDram
  /-- before `dequeue_fifo(&nvm_free_list)` -/
  | takeNvm
  /-- before the assertions and `enqueue_fifo` -/
  | enlist (dram : Bool) (page : PageId)
  /-- in `user_hinted_dram_pebs_allocate_page`, before `dequeue_fifo(&dram_free_list)` -/
  | hintedTake (retry : Bool)
  /-- before the assertions and `enqueue_fifo` -/
  | hintedEnlist (page : PageId)
  /-- before `dequeue_fifo(&dram_cold_list)` -/
  | victim
  /-- before `dequeue_fifo(&nvm_free_list)` -/
  | hintedNvm (coldPage : Option PageId)
  /-- before `pebs_migrate_down` and `enqueue_fifo(&nvm_cold_list, cold_page)` -/
  | demote (coldPage freeNvmPage : PageId)
  /-- before `enqueue_fifo(&dram_free_list, free_nvm_page)` -/
  | release (freeNvmPage : PageId)
  deriving DecidableEq

/-- Where the policy thread stands in its loop over the free-page ring. -/
inductive DrainPhase
  | head
  /-- before `page_list_remove_page` -/
  | unlist (page : PageId)
  /-- before `enqueue_fifo` -/
  | free (page : PageId)
  deriving DecidableEq

namespace ThreadPhase

/-- The free pages that a thread has in its hands. -/
def spares : ThreadPhase → List PageId
  | enlist _ p | hintedEnlist p | release p | demote _ p => [p]
  | _ => []

/-- The page that a thread has taken to move it down. -/
def cold : ThreadPhase → Option PageId
  | hintedNvm c => c
  | demote c _ => some c
  | _ => none

/-- The page that a thread is about to hand out. -/
def enlists : ThreadPhase → Option PageId
  | enlist _ p | hintedEnlist p => some p
  | _ => none

end ThreadPhase

section Program

/-- `ring_buf_put(free_page_ring, page)`, once there is room. -/
def putFree (page : PageId) : M Unit := do
  if ringBufFull (← get).freePageRing then
    throw .waits
  modify fun s => { s with freePageRing := ringBufPut s.freePageRing page }

/-- The body of the loop over the free-page ring up to `page_list_remove_page`. -/
def unlistPage (page : PageId) : M Unit := do
  match ← getList page with
  | none => throw .drainList
  | some list =>
    updateCurrentCoolPage page
    onFifo (pageListRemovePage list page)

def freePage (page : PageId) : M Unit := do
  let p ← getPage page
  onFifo (enqueueFifo (freeList p.inDram) page)

/-- What `pebs_allocate_page` does with a page that it has taken. -/
def allocate (dram : Bool) (page : PageId) : M Unit := do
  check ((← getPage page).inDram = dram) .allocInDram
  check ((← getPage page).present = false) .allocPresent
  modifyPage page ({ · with present := true })
  onFifo (enqueueFifo (coldList dram) page)

/-- What `user_hinted_dram_pebs_allocate_page` does with a page that it has taken. -/
def hintedAllocate (page : PageId) : M Unit := do
  check ((← getPage page).inDram = true) .hintedInDram
  check ((← getPage page).present = false) .hintedPresent
  let persistence := (← get).userHintPersistence
  modifyPage page ({ · with present := true, enforced := decide (persistence = 1) })
  let priority := (← get).userHintPriority
  onFifo (enqueueFifo (if priority = 1 then .dramHot else .dramCold) page)
  modify ({ · with userHintTier := -1, userHintPriority := -1 })

def demotePage (cfg : Config) (coldPage freeNvmPage : PageId) : M Unit := do
  let oldOffset := (← getPage coldPage).devdaxOffset
  let newOffset := (← getPage freeNvmPage).devdaxOffset
  pebsMigrateDown cfg coldPage newOffset
  modifyPage freeNvmPage fun p => HememPage.clearCounters
    { p with devdaxOffset := oldOffset, inDram := true, present := false, hot := false }
  onFifo (enqueueFifo .nvmCold coldPage)

end Program

structure RemoveRace (T : Type) where
  state : State
  policy : DrainPhase
  thread : T → ThreadPhase
  /-- `pebs_pagefault` has returned it, and no removal has begun since -/
  returned : PageId → Bool

variable {T : Type} [DecidableEq T]

namespace RemoveRace

variable (cfg : Config) (s : RemoveRace T) (t : T)

def goes (r : ThreadPhase) : RemoveRace T := { s with thread := update s.thread t r }

/-- A thread goes on where `m` leaves it, if it fails no assertion and need not wait. -/
def threadDoes {α : Type} (m : M α) (k : α → State → Option ThreadPhase) : Option (RemoveRace T) :=
  (m s.state).toOption.bind fun r =>
    (k r.1 r.2).map fun q => ({ s with state := r.2 } : RemoveRace T).goes t q

/-- `pebs_pagefault` returns with a page. -/
def returns (m : M Unit) (page : PageId) : Option (RemoveRace T) :=
  (m s.state).toOption.map fun r =>
    { s with state := r.2, thread := update s.thread t .idle,
             returned := update s.returned page true }

def threadStep : Option (RemoveRace T) :=
  match s.thread t with
  | .idle => none
  | .put p => s.threadDoes t (putFree p) fun _ _ => some (.setPresent p)
  | .setPresent p => s.threadDoes t (modifyPage p ({ · with present := false })) fun _ _ =>
      some (.setHot p)
  | .setHot p => s.threadDoes t (modifyPage p ({ · with hot := false })) fun _ _ =>
      some (.zero p allCounters)
  | .zero _ [] => some (s.goes t .idle)
  | .zero p (c :: left) => s.threadDoes t (modifyPage p (·.zero c)) fun _ _ => some (.zero p left)
  | .takeDram => s.threadDoes t (onFifo (dequeueFifo .dramFree)) fun
      | none, _ => some .takeNvm
      | some p, _ => some (.enlist true p)
  | .takeNvm => s.threadDoes t (onFifo (dequeueFifo .nvmFree)) fun r _ => r.map (.enlist false)
  | .enlist dram p => s.returns t (allocate dram p) p
  | .hintedTake retry => s.threadDoes t (onFifo (dequeueFifo .dramFree)) fun
      | none, _ => if retry then none else some .victim
      | some p, _ => some (.hintedEnlist p)
  | .hintedEnlist p => s.returns t (hintedAllocate p) p
  | .victim => s.threadDoes t (onFifo (dequeueFifo .dramCold)) fun
      | none, _ => some (.hintedNvm none)
      | some c, u => some (if (u.page c).enforced then .victim else .hintedNvm (some c))
  | .hintedNvm c => s.threadDoes t (onFifo (dequeueFifo .nvmFree)) fun r _ =>
      c.bind fun c => r.map (.demote c)
  | .demote c np => s.threadDoes t (demotePage cfg c np) fun _ _ => some (.release np)
  | .release np => s.threadDoes t (onFifo (enqueueFifo .dramFree np)) fun _ _ =>
      some (.hintedTake true)

/-- The policy thread goes on where `m` leaves it, if it fails no assertion. -/
def policyDoes {α : Type} (m : M α) (k : α → DrainPhase) : Option (RemoveRace T) :=
  (m s.state).toOption.map fun r => { s with state := r.2, policy := k r.1 }

def policyStep : Option (RemoveRace T) :=
  match s.policy with
  | .head => s.policyDoes takeFree fun
      | none => .head
      | some p => .unlist p
  | .unlist p => s.policyDoes (unlistPage p) fun _ => .free p
  | .free p => s.policyDoes (freePage p) fun _ => .head

end RemoveRace

inductive RemoveAct (T : Type)
  /-- a thread calls `pebs_remove_page` -/
  | remove (t : T) (page : PageId)
  /-- a thread calls `pebs_pagefault` -/
  | pagefault (t : T)
  | thread (t : T)
  | policy
  /-- the application sets hints -/
  | hint (tier persistence priority : ℤ)

namespace RemoveAct

variable (cfg : Config) (s : RemoveRace T)

def next : RemoveAct T → Option (RemoveRace T)
  | remove t p =>
    if s.thread t = .idle then
      some { s with thread := update s.thread t (.put p), returned := update s.returned p false }
    else none
  | pagefault t =>
    if s.thread t = .idle then
      some (s.goes t (if s.state.userHintTier = 0 then .hintedTake false else .takeDram))
    else none
  | thread t => s.threadStep cfg t
  | policy => s.policyStep
  | hint tier persistence priority => some { s with state := { s.state with
      userHintTier := tier, userHintPersistence := persistence, userHintPriority := priority } }

/-- A page that is removed has been handed out, and is removed once. -/
def Legal : RemoveAct T → Prop
  | remove _ p => s.returned p = true
  | _ => True

instance : (a : RemoveAct T) → Decidable (a.Legal s)
  | remove _ p => inferInstanceAs (Decidable (s.returned p = true))
  | pagefault _ => .isTrue trivial
  | thread _ => .isTrue trivial
  | policy => .isTrue trivial
  | hint _ _ _ => .isTrue trivial

end RemoveAct

namespace RemoveRace

variable (s : RemoveRace T)

/-- A removal of `p` has yet to write what the page does not already have. -/
def Unwritten (p : PageId) : Prop :=
  ∃ t, s.thread t = .setPresent p ∨ s.thread t = .setHot p ∧ (s.state.page p).hot = true

/-- A page is put on a free list only when its removal has written `present` and `hot`. -/
def Careful : RemoveAct T → Prop
  | .policy => ∀ p, s.policy = .free p → ¬ s.Unwritten p
  | _ => True

/-- Free pages are neither present nor hot, nor are those about to be handed out, and pages that
have been handed out are present. -/
structure Apart : Prop where
  free : ∀ p dram, s.state.fifo.listOf p = some (freeList dram) →
    (s.state.page p).present = false ∧ (s.state.page p).hot = false
  handed : ∀ t p, (s.thread t).enlists = some p → (s.state.page p).present = false
  returned : ∀ p, s.returned p = true → (s.state.page p).present = true

/-- No thread has begun, no page waits in the free-page ring, and the pages that are not free have
been handed out. -/
structure Starts : Prop where
  good : s.state.fifo.Wf ∧ s.state.freePageRing.Wf
  ring : s.state.freePageRing.entries = []
  free : ∀ p dram, s.state.fifo.listOf p = some (freeList dram) →
    (s.state.page p).present = false ∧ (s.state.page p).hot = false
  returned : ∀ p, s.returned p = true ↔
    ∃ q, s.state.fifo.listOf p = some q ∧ q.kind ≠ .free
  present : ∀ p, s.returned p = true → (s.state.page p).present = true
  policy : s.policy = .head
  thread : ∀ t, s.thread t = .idle

end RemoveRace

/-- The policy thread in its loop over the free-page ring, and any number of other threads. -/
def removeRace (T : Type) [DecidableEq T] (cfg : Config) : System (RemoveRace T) (RemoveAct T) where
  init s := s.Starts
  step s a s' := a.next cfg s = some s'

end HeMem

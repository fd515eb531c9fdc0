import HeMem.Lib.Transition
import HeMem.Pebs

/-!
# The migration loop beside `pebs_allocate_page`

The policy thread goes through its migration loop while other threads allocate, taking turns at the
grain of list operations: what a thread does with the pages it has in its hands goes with the list
operation after it.  The rest of a pass is not part of this system.
-/

namespace HeMem

open Hoare Function

/-- Where the policy thread stands, with the bytes migrated so far and the tries left after this
one. -/
inductive MigratePhase
  /-- at the head of the loop -/
  | next (migratedBytes : UInt64)
  /-- with a page just taken off `nvm_hot_list` -/
  | judge (p : PageId) (migratedBytes : UInt64)
  /-- at the head of the loop over tries -/
  | attempt (p : PageId) (migratedBytes : UInt64) (tries : ℕ)
  /-- before `pebs_migrate_up` and `enqueue_fifo(&dram_hot_list, p)` -/
  | moveUp (p np : PageId) (migratedBytes : UInt64)
  /-- before `enqueue_fifo(&nvm_free_list, np)` -/
  | freeNvm (p np : PageId) (migratedBytes : UInt64)
  /-- before `dequeue_fifo(&dram_cold_list)` -/
  | victim (p : PageId) (migratedBytes : UInt64) (tries : ℕ)
  /-- before `enqueue_fifo(&nvm_hot_list, p)` -/
  | putBack (p : PageId)
  /-- before `dequeue_fifo(&nvm_free_list)` -/
  | takeNvm (p cp : PageId) (migratedBytes : UInt64) (tries : ℕ)
  /-- before `pebs_migrate_down` and `enqueue_fifo(&nvm_cold_list, cp)` -/
  | moveDown (p cp np : PageId) (migratedBytes : UInt64) (tries : ℕ)
  /-- before `enqueue_fifo(&dram_free_list, np)` -/
  | freeDram (p np : PageId) (migratedBytes : UInt64) (tries : ℕ)
  /-- past the loop -/
  | out
  deriving DecidableEq

/-- Where a thread stands in `pebs_allocate_page`. -/
inductive AllocPhase
  | idle
  /-- before `dequeue_fifo(&dram_free_list)` -/
  | takeDram
  /-- before `dequeue_fifo(&nvm_free_list)` -/
  | takeNvm
  /-- before `enqueue_fifo` -/
  | put (dram : Bool) (page : PageId)
  deriving DecidableEq

/-- The pages that the policy thread has in its hands. -/
def MigratePhase.held : MigratePhase → List PageId
  | next _ | out => []
  | judge p _ | attempt p _ _ | victim p _ _ | putBack p => [p]
  | freeNvm _ np _ => [np]
  | moveUp p np _ | freeDram p np _ _ => [np, p]
  | takeNvm p cp _ _ => [cp, p]
  | moveDown p cp np _ _ => [np, cp, p]

/-- The policy thread is about to search for a cold DRAM page, with no try left after this one. -/
def MigratePhase.lastSearch : MigratePhase → Bool
  | victim _ _ 0 => true
  | _ => false

/-- The page that an allocating thread has in its hands. -/
def AllocPhase.page : AllocPhase → Option PageId
  | put _ p => some p
  | _ => none

section Program

/-- What the migration loop does with a page before its tries: whether it goes on to them. -/
def judgePage (p : PageId) : M Bool := do
  if some p = (← get).cur false then
    modify fun s => s.setCur false (s.fifo.list .nvmHot).first
  if (← getPage p).reads < hotReadThreshold then
    modifyPage p ({ · with hot := false })
    onFifo (enqueueFifo .nvmCold p)
    return false
  else
    return true

/-- Migrates `page` to the frame of `np` and puts it on its new list. -/
def moveFrame (cfg : Config) (up : Bool) (page np : PageId) : M Unit := do
  check ((← getPage np).present = false) .policyPresent
  let oldOffset := (← getPage page).devdaxOffset
  let newOffset := (← getPage np).devdaxOffset
  (if up then pebsMigrateUp cfg else pebsMigrateDown cfg) page newOffset
  modifyPage np fun p => HememPage.clearCounters
    { p with devdaxOffset := oldOffset, inDram := !up, present := false, hot := false }
  onFifo (enqueueFifo (if up then .dramHot else .nvmCold) page)

/-- What `pebs_allocate_page` does with a page it has taken. -/
def handOut (dram : Bool) (page : PageId) : M Unit := do
  check ((← getPage page).inDram = dram) .allocInDram
  check ((← getPage page).present = false) .allocPresent
  modifyPage page ({ · with present := true })
  onFifo (enqueueFifo (coldList dram) page)

end Program

structure MigrateRace (T : Type) where
  state : State
  policy : MigratePhase
  allocator : T → AllocPhase

variable {T : Type} [DecidableEq T]

namespace MigrateRace

variable (cfg : Config) (s : MigrateRace T) (t : T)

/-- The policy thread goes on where `m` leaves it, if it fails no assertion. -/
def policyDoes {α : Type} (m : M α) (k : State → α → Option MigratePhase) :
    Option (MigrateRace T) :=
  (m s.state).toOption.bind fun r => (k r.2 r.1).map fun q => { s with state := r.2, policy := q }

def policyStep : Option (MigrateRace T) :=
  match s.policy with
  | .next bytes =>
    if bytes < pebsKswapdMigrateRate then
      s.policyDoes (onFifo (dequeueFifo .nvmHot)) fun _ r => match r with
        | none => some .out
        | some p => some (.judge p bytes)
    else some { s with policy := .out }
  | .judge p bytes => s.policyDoes (judgePage p) fun _ tries =>
      some (if tries then .attempt p bytes 2 else .next bytes)
  | .attempt _ bytes 0 => some { s with policy := .next bytes }
  | .attempt p bytes (tries + 1) => s.policyDoes (onFifo (dequeueFifo .dramFree)) fun _ r =>
      match r with
      | none => some (.victim p bytes tries)
      | some np => some (.moveUp p np bytes)
  | .moveUp p np bytes => s.policyDoes (moveFrame cfg true p np) fun _ _ =>
      some (.freeNvm p np bytes)
  | .freeNvm p np bytes => s.policyDoes (onFifo (enqueueFifo .nvmFree np)) fun u _ =>
      some (.next (bytes + ptToPagesize (u.page p).pt))
  | .victim p bytes tries => s.policyDoes (onFifo (dequeueFifo .dramCold)) fun u r =>
      match r with
      | none => some (.putBack p)
      | some cp => some
          (if (u.page cp).enforced then .victim p bytes tries else .takeNvm p cp bytes tries)
  | .putBack p => s.policyDoes (onFifo (enqueueFifo .nvmHot p)) fun _ _ => some .out
  | .takeNvm p cp bytes tries => s.policyDoes (onFifo (dequeueFifo .nvmFree)) fun _ r =>
      r.map fun np => .moveDown p cp np bytes tries
  | .moveDown p cp np bytes tries => s.policyDoes (moveFrame cfg false cp np) fun _ _ =>
      some (.freeDram p np bytes tries)
  | .freeDram p np bytes tries => s.policyDoes (onFifo (enqueueFifo .dramFree np)) fun _ _ =>
      some (.attempt p bytes tries)
  | .out => some { s with policy := .next 0 }

/-- An allocating thread goes on where `m` leaves it, if it fails no assertion. -/
def allocatorDoes {α : Type} (m : M α) (k : α → Option AllocPhase) : Option (MigrateRace T) :=
  (m s.state).toOption.bind fun r => (k r.1).map fun q =>
    { s with state := r.2, allocator := update s.allocator t q }

def allocatorStep : Option (MigrateRace T) :=
  match s.allocator t with
  | .idle => some { s with allocator := update s.allocator t .takeDram }
  | .takeDram => s.allocatorDoes t (onFifo (dequeueFifo .dramFree)) fun r => match r with
      | none => some .takeNvm
      | some p => some (.put true p)
  | .takeNvm => s.allocatorDoes t (onFifo (dequeueFifo .nvmFree)) fun r => r.map (.put false)
  | .put dram p => s.allocatorDoes t (handOut dram p) fun _ => some .idle

end MigrateRace

inductive MigrateAct (T : Type)
  | policy
  | allocator (t : T)

namespace MigrateAct

variable (cfg : Config) (s : MigrateRace T)

def next : MigrateAct T → Option (MigrateRace T)
  | policy => s.policyStep cfg
  | allocator t => s.allocatorStep t

/-- A search for a cold DRAM page with no try left after it finds none. -/
def Spares : MigrateAct T → Prop
  | policy => s.policy.lastSearch = true → (s.state.fifo.list .dramCold).last = none
  | allocator _ => True

instance : DecidablePred (Spares s) := fun a => by
  cases a <;> unfold Spares <;> infer_instance

end MigrateAct

namespace MigrateRace

variable (n : ℕ) (s : MigrateRace T)

/-- All pages are on lists, none is enforced, and no thread has begun. -/
structure Starts : Prop where
  wf : s.state.fifo.Wf
  listed : ∀ p < n, s.state.fifo.listOf p ≠ none
  plain : ∀ p, (s.state.page p).enforced = false
  policy : s.policy = .next 0
  allocator : ∀ t, s.allocator t = .idle

/-- When the policy thread starts the next page, each page is on exactly one list and in no hands,
or on none and in the hands of exactly one allocating thread. -/
def Accounted : Prop :=
  ∀ bytes, s.policy = .next bytes → ∀ p < n,
    (∃ q, ∀ q', (s.state.fifo.contents q').count p = if q' = q then 1 else 0) ∧
        (∀ t, (s.allocator t).page ≠ some p) ∨
      (∀ q, (s.state.fifo.contents q).count p = 0) ∧
        ∃ t, ∀ t', (s.allocator t').page = some p ↔ t' = t

end MigrateRace

/-- The policy thread in its migration loop and any number of allocating threads. -/
def migrateRace (T : Type) [DecidableEq T] (cfg : Config) :
    System (MigrateRace T) (MigrateAct T) where
  init s := s.Starts cfg.pages
  step s a s' := a.next cfg s = some s'

end HeMem

import HeMem.Lru
import Mathlib.Data.Fintype.Basic

/-!
# `lru_remove_page` beside `lru_kscand`

The threads take turns at the grain of list operations; the test of `active->numentries` in
`shrink_caches` goes with the `dequeue_fifo` after it.  A remover waits for `in_kscand` to be clear,
takes `global_lock`, and goes on; the scanner takes no lock.
-/

namespace HeMem

open Hoare Function

/-- Where a thread stands in `lru_remove_page`. -/
inductive RemovePhase
  | idle
  /-- in `while (in_kscand)` -/
  | wait (page : PageId)
  | lock (page : PageId)
  /-- before `list = page->list` -/
  | readList (page : PageId)
  /-- before `page_list_remove_page(list, page)` -/
  | remove (page : PageId) (list : LruList)
  /-- before `page->present = false` and `enqueue_fifo` -/
  | enqueue (page : PageId)
  | unlock (page : PageId)
  /-- `assert(list != NULL)` has failed -/
  | failed (page : PageId)
  deriving DecidableEq

namespace RemovePhase

/-- The page the thread removes. -/
def page : RemovePhase → Option PageId
  | idle => none
  | wait p | lock p | readList p | remove p _ | enqueue p | unlock p | failed p => some p

/-- The page whose list the thread is about to read. -/
def reading : RemovePhase → Option PageId
  | readList p => some p
  | _ => none

/-- The page the thread is about to take off the list it has read. -/
def removing : RemovePhase → Option PageId
  | remove p _ => some p
  | _ => none

end RemovePhase

/-- The lists `lru_kscand` passes to its loops for a tier. -/
def activeOf (dram : Bool) : LruList := if dram then .activeList else .nvmActiveList

def inactiveOf (dram : Bool) : LruList := if dram then .inactiveList else .nvmInactiveList

def writtenOf (dram : Bool) : LruList := if dram then .writtenList else .nvmWrittenList

namespace Sweep

/-- The list a loop goes over. -/
def source (dram : Bool) : Sweep → LruList
  | checkWrites => writtenOf dram
  | shrinkCaches => activeOf dram
  | expandCaches => inactiveOf dram

/-- The body of a loop for the page it has taken off its list. -/
def body (dram : Bool) (bits : PageId → UInt64) (page : PageId) : Sweep → LruM Unit
  | checkWrites => checkPage bits (activeOf dram) (inactiveOf dram) (writtenOf dram) page
  | shrinkCaches => shrinkPage bits (activeOf dram) (inactiveOf dram) (writtenOf dram) page
  | expandCaches => expandPage bits (activeOf dram) (inactiveOf dram) (writtenOf dram) page

@[simp] theorem free_source {dram : Bool} (k : Sweep) : (k.source dram).free = false := by
  cases k <;> cases dram <;> rfl

end Sweep

/-- The loops of a scan, in their order. -/
def scanLoops : List (Sweep × Bool) :=
  [(.checkWrites, true), (.checkWrites, false), (.shrinkCaches, true), (.shrinkCaches, false),
    (.expandCaches, true), (.expandCaches, false)]

/-- Where the scanner stands, with the loops left to do and the turns left in this one. -/
inductive ScanPhase
  | idle
  | loops (rest : List (Sweep × Bool))
  /-- before `dequeue_fifo` -/
  | turn (k : Sweep) (dram : Bool) (rest : List (Sweep × Bool)) (nrPages : ℕ)
  /-- before the `enqueue_fifo` of the page in hand -/
  | hold (k : Sweep) (dram : Bool) (rest : List (Sweep × Bool)) (nrPages : ℕ) (page : PageId)

/-- The page in the scanner's hands. -/
def ScanPhase.page : ScanPhase → Option PageId
  | hold _ _ _ _ p => some p
  | _ => none

structure LruRace (T : Type) where
  lru : LruState
  inKscand : Bool
  globalLock : Option T
  scan : ScanPhase
  remover : T → RemovePhase

variable {T : Type} [DecidableEq T]

namespace LruRace

variable (s : LruRace T) (t : T)

def goto (q : RemovePhase) : LruRace T := { s with remover := update s.remover t q }

/-- The lists after `m`, if it fails no assertion. -/
def after {α : Type} (m : LruM α) : Option (α × LruRace T) :=
  (m s.lru).toOption.map fun r => (r.1, { s with lru := r.2 })

/-- The next step of a remover. -/
def removeStep : Option (LruRace T) :=
  match s.remover t with
  | .idle => none
  | .wait p => if s.inKscand then none else some (s.goto t (.lock p))
  | .lock p =>
    if s.globalLock = none then
      some ({ s with globalLock := some t }.goto t (.readList p))
    else none
  | .readList p =>
    match s.lru.fifo.listOf p with
    | none => some (s.goto t (.failed p))
    | some list => some (s.goto t (.remove p list))
  | .remove p list =>
    (s.after (onLists (pageListRemovePage list p))).map fun r => r.2.goto t (.enqueue p)
  | .enqueue p =>
    (s.after do
      onHemem (modifyPage p ({ · with present := false }))
      onLists (enqueueFifo (lruFreeList ((← get).page p).inDram) p)).map fun r =>
        r.2.goto t (.unlock p)
  | .unlock _ => some ({ s with globalLock := none }.goto t .idle)
  | .failed _ => none

/-- The next step of the scanner, for a kernel that answers with `bits`. -/
def scanStep (bits : PageId → UInt64) : Option (LruRace T) :=
  match s.scan with
  | .idle =>
    some { s with inKscand := true, lru := { s.lru with vas := [] }, scan := .loops scanLoops }
  | .loops [] => some { s with inKscand := false, scan := .idle }
  | .loops ((k, dram) :: rest) =>
    some { s with scan := .turn k dram rest (s.lru.fifo.list (k.source dram)).numentries }
  | .turn _ _ rest 0 => some { s with scan := .loops rest }
  | .turn k dram rest (n + 1) =>
    (s.after (onLists (dequeueFifo (k.source dram)))).map fun r =>
      match r.1 with
      | none => { r.2 with scan := .loops rest }
      | some page => { r.2 with scan := .hold k dram rest n page }
  | .hold k dram rest n page =>
    (s.after (k.body dram bits page)).map fun r => { r.2 with scan := .turn k dram rest n }

/-- The page that the scanner takes off its list next. -/
def takes : Option PageId :=
  match s.scan with
  | .turn k dram _ (_ + 1) => (s.lru.fifo.list (k.source dram)).last
  | _ => none

end LruRace

/-- A thread calls `lru_remove_page` or takes its next step in it, or the scanner takes one. -/
inductive RaceAct (T : Type)
  | call (t : T) (page : PageId)
  | remover (t : T)
  | scanner (bits : PageId → UInt64)

namespace RaceAct

variable (cfg : Config) (s : LruRace T)

def next : RaceAct T → Option (LruRace T)
  | call t page => if s.remover t = .idle then some (s.goto t (.wait page)) else none
  | remover t => s.removeStep t
  | scanner bits => s.scanStep bits

/-- Only a present page is removed, and by one thread. -/
def Legal : RaceAct T → Prop
  | call _ page => page < cfg.pages ∧ (s.lru.page page).present = true ∧
      ∀ t, (s.remover t).page ≠ some page
  | _ => True

/-- A remover reads `page->list` while the scanner does not hold the page, and the scanner takes no
page off its list between that and `page_list_remove_page`. -/
def Clear : RaceAct T → Prop
  | call _ _ => True
  | remover t => ∀ p ∈ (s.remover t).reading, s.scan.page ≠ some p
  | scanner _ => ∀ p ∈ s.takes, ∀ t, (s.remover t).removing ≠ some p

instance decidableLegal [Fintype T] : DecidablePred (Legal cfg s) := fun a => by
  cases a <;> unfold Legal <;> infer_instance

instance decidableClear [Fintype T] : DecidablePred (Clear s) := fun a => by
  cases a <;> unfold Clear <;> infer_instance

end RaceAct

/-- No remover has failed its assertion, a remover passes `page_list_remove_page` the list the page
is on, and a page whose removal ends is on its free list only. -/
def LruRace.Safe (s : LruRace T) : Prop :=
  ∀ t, match s.remover t with
    | .failed _ => False
    | .remove p list => s.lru.fifo.listOf p = some list
    | .unlock p => ∀ q, (s.lru.fifo.contents q).count p =
        if q = lruFreeList (s.lru.page p).inDram then 1 else 0
    | _ => True

/-- No removal is under way and the scanner sleeps. -/
def LruRace.start (lru : LruState) : LruRace T := ⟨lru, false, none, .idle, fun _ => .idle⟩

/-- Any number of removers and the scanner, from any state that the policy reaches. -/
def lruRace (T : Type) [DecidableEq T] (cfg : Config) (kernel : Kernel) :
    System (LruRace T) (RaceAct T) where
  init s := ∃ lru, (lruPolicy cfg kernel).Reach (LruOp.Legal cfg) lru ∧ s = LruRace.start lru
  step s a s' := a.next s = some s'

end HeMem

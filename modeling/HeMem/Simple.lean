import HeMem.Fifo
import HeMem.Lib.Custody
import HeMem.Lib.Transition
import HeMem.Types
import Mathlib.Data.Fintype.Card

/-!
# The policy of `simple.c`

Pages come off the free list of DRAM, or else off that of NVM, and go back to it.  Any number of
threads are in `simple_pagefault` and `simple_remove_page` at once.  Each list operation, each access
to a page struct and each access to `fastmem` or `slowmem` is a step: of these only the list
operations take a lock.
-/

namespace HeMem

open Hoare Function

/-- The assertions of `simple_pagefault`. -/
inductive SimpleAbort
  | fifo (a : FifoAbort)
  /-- `!page->present` -/
  | present
  /-- `slowmem < nvmsize` -/
  | full
  /-- `page != NULL` -/
  | noPage
  deriving DecidableEq

structure SimpleState where
  /-- `dram_free` for true, and `nvm_free` -/
  fifo : Heap Bool PageId
  page : PageId → HememPage
  /-- `fastmem` for true, and `slowmem` -/
  mem : Bool → UInt64

/-- Where a thread stands in `simple_remove_page` or in `simple_pagefault`. -/
inductive SimplePhase
  | idle
  /-- before `page->in_dram` is read and `page->present` is cleared -/
  | clear (page : PageId)
  /-- before `enqueue_fifo` -/
  | put (dram : Bool) (page : PageId)
  /-- before `dequeue_fifo(&dram_free)` -/
  | takeDram
  /-- before `assert(slowmem < nvmsize)` -/
  | checkSlow
  /-- before `dequeue_fifo(&nvm_free)` -/
  | takeNvm
  /-- before `assert(!page->present)` and `page->present = true` -/
  | claim (dram : Bool) (page : PageId)
  /-- before the counter of the tier is read, with the page to return if it is to go up -/
  | load (dram : Bool) (page : Option PageId)
  /-- before the counter is written, with what has been read -/
  | store (dram : Bool) (page : Option PageId) (mem : UInt64)
  | failed (a : SimpleAbort)
  deriving DecidableEq

namespace SimplePhase

/-- The page that a thread has in its hands. -/
def page : SimplePhase → Option PageId
  | clear p | put _ p | claim _ p => some p
  | load _ p | store _ p _ => p
  | _ => none

/-- The tier whose counter a thread is about to read. -/
def reads : SimplePhase → Option Bool
  | load dram _ => some dram
  | _ => none

/-- The tier whose counter a thread has read and not yet written. -/
def updates : SimplePhase → Option Bool
  | store dram _ _ => some dram
  | _ => none

end SimplePhase

section Init

variable (cfg : Config)

abbrev SimpleM := StateT SimpleState (Except SimpleAbort)

/-- A list operation, taken under the list's lock. -/
def onSimple {α : Type} (m : FifoM Bool PageId α) : SimpleM α := fun s =>
  match m s.fifo with
  | .ok (a, h) => .ok (a, { s with fifo := h })
  | .error e => .error (.fifo e)

/-- The loop of `simple_init` over the frames of one tier, `first` the number of its first page
struct. -/
def simpleFrames (dram : Bool) (first : PageId) : ℕ → SimpleM Unit
  | 0 => return
  | n + 1 => do
    simpleFrames dram first n
    let page : HememPage :=
      { devdaxOffset := UInt64.ofNat n * pageSize + cfg.offset dram, inDram := dram }
    modify fun s => { s with page := update s.page (first + n) page }
    onSimple (enqueueFifo dram (first + n))

def simpleInit : SimpleM Unit := do
  simpleFrames cfg true 0 (cfg.count true)
  simpleFrames cfg false (cfg.count true) (cfg.count false)

/-- The globals before `simple_init`. -/
def SimpleState.blank : SimpleState := ⟨Heap.empty, fun _ => {}, fun _ => 0⟩

end Init

structure SimpleRace (T : Type) where
  state : SimpleState
  thread : T → SimplePhase
  /-- `simple_pagefault` has returned it, and no removal has begun since -/
  returned : PageId → Bool

variable {T : Type} [DecidableEq T]

namespace SimpleRace

variable (cfg : Config) (s : SimpleRace T) (t : T)

def goes (r : SimplePhase) : SimpleRace T := { s with thread := update s.thread t r }

/-- A thread takes a list operation and goes on with what it gives. -/
def onList {α : Type} (m : FifoM Bool PageId α) (k : α → SimplePhase) : SimpleRace T :=
  match m s.state.fifo with
  | .ok (a, h) => ({ s with state := { s.state with fifo := h } } : SimpleRace T).goes t (k a)
  | .error e => s.goes t (.failed (.fifo e))

def setPresent (page : PageId) (present : Bool) : SimpleRace T := { s with state := { s.state with
  page := update s.state.page page { s.state.page page with present := present } } }

def setMem (dram : Bool) (mem : UInt64) : SimpleRace T :=
  { s with state := { s.state with mem := update s.state.mem dram mem } }

/-- A call returns, `simple_pagefault` with a page. -/
def returns : Option PageId → SimpleRace T
  | none => s.goes t .idle
  | some page => { s.goes t .idle with returned := update s.returned page true }

def threadStep : Option (SimpleRace T) :=
  match s.thread t with
  | .idle | .failed _ => none
  | .clear p => some ((s.setPresent p false).goes t (.put (s.state.page p).inDram p))
  | .put dram p => some (s.onList t (enqueueFifo dram p) fun _ => .load dram none)
  | .takeDram => some (s.onList t (dequeueFifo true) fun
      | none => .checkSlow
      | some p => .claim true p)
  | .checkSlow => some (s.goes t
      (if s.state.mem false < cfg.size false then .takeNvm else .failed .full))
  | .takeNvm => some (s.onList t (dequeueFifo false) fun
      | none => .failed .noPage
      | some p => .claim false p)
  | .claim dram p => some (if (s.state.page p).present then s.goes t (.failed .present)
      else (s.setPresent p true).goes t (.load dram (some p)))
  | .load dram p => some (s.goes t (.store dram p (s.state.mem dram)))
  | .store dram p mem => some ((s.setMem dram
      (if p.isSome then mem + pageSize else mem - pageSize)).returns t p)

end SimpleRace

inductive SimpleAct (T : Type)
  /-- a thread calls `simple_remove_page` -/
  | remove (t : T) (page : PageId)
  /-- a thread calls `simple_pagefault` -/
  | pagefault (t : T)
  | thread (t : T)

namespace SimpleAct

variable (cfg : Config) (s : SimpleRace T)

def next : SimpleAct T → Option (SimpleRace T)
  | remove t p =>
    if s.thread t = .idle then
      some { s with thread := update s.thread t (.clear p), returned := update s.returned p false }
    else none
  | pagefault t => if s.thread t = .idle then some (s.goes t .takeDram) else none
  | thread t => s.threadStep cfg t

/-- A page that is removed has been handed out, and is removed once. -/
def Legal : SimpleAct T → Prop
  | remove _ p => s.returned p = true
  | _ => True

instance : (a : SimpleAct T) → Decidable (a.Legal s)
  | remove _ p => inferInstanceAs (Decidable (s.returned p = true))
  | pagefault _ => .isTrue trivial
  | thread _ => .isTrue trivial

/-- No counter is read while another thread has yet to write it. -/
def Apart : SimpleAct T → Prop
  | thread t => ∀ dram, (s.thread t).reads = some dram → ∀ t', (s.thread t').updates ≠ some dram
  | _ => True

instance [Fintype T] : (a : SimpleAct T) → Decidable (a.Apart s)
  | remove _ _ => .isTrue trivial
  | pagefault _ => .isTrue trivial
  | thread t => inferInstanceAs (Decidable (∀ dram, (s.thread t).reads = some dram →
      ∀ t', (s.thread t').updates ≠ some dram))

end SimpleAct

/-- `simple_init`, then any number of threads. -/
def simpleRace (T : Type) [DecidableEq T] (cfg : Config) : System (SimpleRace T) (SimpleAct T) where
  init s := simpleInit cfg SimpleState.blank = .ok ((), s.state) ∧ (∀ t, s.thread t = .idle) ∧
    ∀ p, s.returned p = false
  step s a s' := a.next cfg s = some s'

namespace SimpleRace

variable (cfg : Config) (s : SimpleRace T)

/-- Where a page is unless a thread has it: on a free list or handed out. -/
def place (p : PageId) : Option (Option Bool) :=
  if s.returned p then some none else (s.state.fifo.listOf p).map some

/-- Each page is on the free list of its tier, handed out or in the hands of one thread, and no two
name one frame.  Free pages are not present, pages handed out are. -/
structure Kept : Prop where
  custody : Custody s.place (fun t => (s.thread t).page.toList) (· < cfg.pages)
  frames : Set.InjOn (fun p => (s.state.page p).frame) {p | p < cfg.pages}
  free : ∀ p dram, s.state.fifo.listOf p = some dram →
    s.returned p = false ∧ (s.state.page p).present = false ∧ (s.state.page p).inDram = dram
  returned : ∀ p, s.returned p = true → (s.state.page p).present = true

/-- The pages of a tier that have been handed out. -/
def out (dram : Bool) : Finset ℕ := (Finset.range cfg.pages).filter fun p =>
  s.returned p = true ∧ (s.state.page p).inDram = dram

/-- A thread is removing a page that the counter of its tier still counts. -/
def removes (dram : Bool) : SimplePhase → Bool
  | .clear p => (s.state.page p).inDram == dram
  | .put d _ | .load d none | .store d none _ => d == dram
  | _ => false

variable [Fintype T]

def removers (dram : Bool) : Finset T :=
  Finset.univ.filter fun t => s.removes dram (s.thread t) = true

/-- How many pages the counter of a tier should count. -/
def owed (dram : Bool) : ℕ := (s.out cfg dram).card + (s.removers dram).card

end SimpleRace

end HeMem

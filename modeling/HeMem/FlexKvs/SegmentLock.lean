import Mathlib.Tactic.Simps.Basic
import HeMem.Lib.Transition

/-!
# `segment_alloc` and `segment_free`, one access at a time

The free list of segments and the count of those handed out so far, under a spin lock that
`pthread_spin_unlock` opens whoever holds it.  A thread is in one of the phases of the two
functions; what it does next is a function of the phase.
-/

namespace FlexKvs

open Function

/-- Where a thread stands in `segment_alloc` or `segment_free`. -/
inductive SegPhase
  /-- in neither function -/
  | idle
  /-- before `if (free_segments != NULL)`, without the lock -/
  | checkFree
  | lockFree
  /-- before `if (free_segments != NULL)`, with the lock -/
  | readFree
  /-- before `h = free_segments` -/
  | takeFree
  /-- before `free_segments = h->next` -/
  | popFree (h : Option ℕ)
  | unlockFree (h : Option ℕ)
  /-- before `i = seg_alloced`, without the lock -/
  | checkAlloced
  /-- before the `pthread_spin_unlock` of the first exit -/
  | unlockEarly
  | lockAlloced
  /-- before `i = seg_alloced`, with the lock -/
  | readAlloced
  | unlockFull
  /-- before `seg_alloced++` reads -/
  | increment (i : ℕ)
  /-- before `seg_alloced++` writes -/
  | store (i n : ℕ)
  | unlockNew (i : ℕ)
  /-- before `mprotect` and `malloc` -/
  | fresh (i : ℕ)
  /-- at `init_h`, about to return the segment -/
  | init (h : ℕ)
  /-- in `segment_free`, before the lock -/
  | lockBack (h : ℕ)
  /-- before `h->next = free_segments` -/
  | linkBack (h : ℕ)
  /-- before `free_segments = h` -/
  | putBack (h : ℕ)
  | unlockBack
  deriving DecidableEq

variable {T : Type} [DecidableEq T]

/-- What the threads share, a segment being its number, and where each thread stands. -/
structure SegLock (T : Type) where
  freeSegments : Option ℕ
  /-- `h->next` -/
  next : ℕ → Option ℕ
  segAlloced : ℕ
  /-- the thread that took the lock, while nobody has released it -/
  holder : Option T
  /-- the segments returned and not given back since -/
  owned : ℕ → Bool
  phase : T → SegPhase

namespace SegLock

variable (s : SegLock T) (t : T)

@[simps]
def goto (q : SegPhase) : SegLock T := { s with phase := update s.phase t q }

def lock (q : SegPhase) : Option (SegLock T) :=
  if s.holder = none then some ({ s with holder := some t }.goto t q) else none

@[simps!]
def unlock (q : SegPhase) : SegLock T := { s with holder := none }.goto t q

/-- The next step of thread `t`; `ok` is whether `mprotect` and `malloc` succeed. -/
def go (segmaxnum : ℕ) (ok : Bool) : Option (SegLock T) :=
  match s.phase t with
  | .idle => none
  | .checkFree => some (s.goto t (if s.freeSegments.isSome then .lockFree else .checkAlloced))
  | .lockFree => s.lock t .readFree
  | .readFree => some (s.goto t (if s.freeSegments.isSome then .takeFree else .unlockFree none))
  | .takeFree => some (s.goto t (.popFree s.freeSegments))
  | .popFree none => none
  | .popFree (some h) =>
    some ({ s with freeSegments := s.next h }.goto t (.unlockFree (some h)))
  | .unlockFree none => some (s.unlock t .checkAlloced)
  | .unlockFree (some h) => some (s.unlock t (.init h))
  | .checkAlloced =>
    some (s.goto t (if s.segAlloced ≥ segmaxnum then .unlockEarly else .lockAlloced))
  | .unlockEarly => some (s.unlock t .idle)
  | .lockAlloced => s.lock t .readAlloced
  | .readAlloced =>
    some (s.goto t (if s.segAlloced ≥ segmaxnum then .unlockFull else .increment s.segAlloced))
  | .unlockFull => some (s.unlock t .idle)
  | .increment i => some (s.goto t (.store i (s.segAlloced + 1)))
  | .store i n => some ({ s with segAlloced := n }.goto t (.unlockNew i))
  | .unlockNew i => some (s.unlock t (.fresh i))
  | .fresh i => some (s.goto t (if ok then .init i else .idle))
  | .init h => some ({ s with owned := update s.owned h true }.goto t .idle)
  | .lockBack h => s.lock t (.linkBack h)
  | .linkBack h =>
    some ({ s with next := update s.next h s.freeSegments }.goto t (.putBack h))
  | .putBack h => some ({ s with freeSegments := some h }.goto t .unlockBack)
  | .unlockBack => some (s.unlock t .idle)

/-- The thread is about to release the lock. -/
def Unlocks : Prop :=
  match s.phase t with
  | .unlockFree _ | .unlockEarly | .unlockFull | .unlockNew _ | .unlockBack => True
  | _ => False

/-- Who releases the lock holds it, and a segment about to be returned is nobody's. -/
def OneOwner : Prop :=
  (∀ t, s.Unlocks t → s.holder = some t) ∧ ∀ t h, s.phase t = .init h → s.owned h = false

end SegLock

/-- A thread calls `segment_alloc`, or `segment_free` on a segment that was returned and not given
back since, or takes its next step. -/
inductive SegAct (T : Type)
  | alloc (t : T)
  | free (t : T) (h : ℕ)
  | go (t : T) (ok : Bool)

namespace SegAct

variable (segmaxnum : ℕ) (s : SegLock T)

def next : SegAct T → Option (SegLock T)
  | alloc t => if s.phase t = .idle then some (s.goto t .checkFree) else none
  | free t h =>
    if s.phase t = .idle ∧ s.owned h = true then
      some ({ s with owned := update s.owned h false }.goto t (.lockBack h))
    else none
  | go t ok => s.go t segmaxnum ok

/-- The step is not the check without the lock finding all segments handed out. -/
def FindsRoom : SegAct T → Prop
  | go t _ => s.phase t = .checkAlloced → s.segAlloced < segmaxnum
  | _ => True

instance : DecidablePred (FindsRoom segmaxnum s) := fun a => by
  cases a <;> unfold FindsRoom <;> infer_instance

end SegAct

def SegLock.initial : SegLock T := ⟨none, fun _ => none, 0, none, fun _ => false, fun _ => .idle⟩

/-- Any number of threads that allocate and free segments. -/
def segLock (T : Type) [DecidableEq T] (segmaxnum : ℕ) : System (SegLock T) (SegAct T) where
  init s := s = .initial
  step s a s' := a.next segmaxnum s = some s'

end FlexKvs

import HeMem.Lib.Barrier
import HeMem.Lib.Transition

/-!
# Copying with several threads

`hemem_parallel_memcpy` and `hemem_parallel_memset` of the build without `USE_DMA`.  Callers hand
their arguments to the copy threads in `pmemcpy` and meet them at a barrier before and after the
copy.  Each access to `pmemcpy`, each byte copied, each barrier entered or left is a step.
-/

namespace HeMem

open Function

/-- `MAX_COPY_THREADS` -/
def maxCopyThreads : ℕ := 4

/-- A call of `hemem_parallel_memcpy`, or of `hemem_parallel_memset` if there is no `src`; the byte
to set is not looked at. -/
structure CopyCall where
  dst : ℕ
  src : Option ℕ
  length : ℕ
  deriving DecidableEq

/-- `struct pmemcpy` but for the lock and the barrier. -/
structure Pmemcpy where
  writeZeros : Bool
  dst : ℕ
  src : ℕ
  length : ℕ

/-- Where a copy thread stands in its loop. -/
inductive CopyPhase
  | wait
  /-- in the first `pthread_barrier_wait` -/
  | waiting
  | readLength
  /-- before `pmemcpy.dst` is read -/
  | readDst (chunkSize : ℕ)
  | readZeros (chunkSize dst : ℕ)
  | readSrc (chunkSize dst : ℕ)
  /-- in `memcpy`, or in `memset` if there is no `src`, with `done` bytes written -/
  | copy (chunkSize dst : ℕ) (src : Option ℕ) (done : ℕ)
  | done
  /-- in the second `pthread_barrier_wait` -/
  | leaving
  deriving DecidableEq

inductive CallerPhase
  | idle
  | lock (c : CopyCall)
  /-- before `pmemcpy.dst = dst` -/
  | setDst (c : CopyCall)
  | setSrc (c : CopyCall)
  | setLength (c : CopyCall)
  | setZeros (c : CopyCall)
  | start (c : CopyCall)
  /-- in the first `pthread_barrier_wait` -/
  | starting (c : CopyCall)
  | finish (c : CopyCall)
  /-- in the second `pthread_barrier_wait` -/
  | finishing (c : CopyCall)
  | unlock (c : CopyCall)
  deriving DecidableEq

namespace CopyCall

variable (n : ℕ) (c : CopyCall)

/-- The part of a copy thread. -/
def chunkSize : ℕ := c.length / n

/-- The byte to be written at offset `i`, by what memory has been before. -/
def byte (mem : ℕ → UInt8) (i : ℕ) : UInt8 := c.src.elim 0 fun src => mem (src + i)

/-- What memory is once `n` threads have copied their parts. -/
def applied (mem : ℕ → UInt8) (a : ℕ) : UInt8 :=
  if c.dst ≤ a ∧ a < c.dst + n * c.chunkSize n then c.byte mem (a - c.dst) else mem a

/-- Source and destination do not overlap. -/
def Apart : Prop := ∀ src, c.src = some src → src + c.length ≤ c.dst ∨ c.dst + c.length ≤ src

/-- An address that the call reads or writes. -/
def Uses (a : ℕ) : Prop :=
  c.dst ≤ a ∧ a < c.dst + c.length ∨ ∃ src, c.src = some src ∧ src ≤ a ∧ a < src + c.length

end CopyCall

/-- The call that a thread makes. -/
def CallerPhase.call : CallerPhase → Option CopyCall
  | idle => none
  | lock c | setDst c | setSrc c | setLength c | setZeros c | start c | starting c | finish c
  | finishing c | unlock c => some c

/-- Any threads may call; `n` threads copy. -/
structure CopyRace (T : Type) (n : ℕ) where
  mem : ℕ → UInt8
  pmemcpy : Pmemcpy
  /-- `pmemcpy.lock` -/
  lock : Option T
  /-- `pmemcpy.barrier`, for the copy threads and the caller that holds the lock -/
  barrier : Barrier (Option (Fin n))
  worker : Fin n → CopyPhase
  caller : T → CallerPhase
  /-- memory, had each call copied at once when it returned -/
  expected : ℕ → UInt8

variable {T : Type} [DecidableEq T] {n : ℕ}

namespace CopyRace

variable (s : CopyRace T n)

def setWorker (w : Fin n) (p : CopyPhase) : CopyRace T n :=
  { s with worker := update s.worker w p }

def setCaller (t : T) (p : CallerPhase) : CopyRace T n :=
  { s with caller := update s.caller t p }

/-- `pthread_barrier_wait(&pmemcpy.barrier)` is entered. -/
def enters (p : Option (Fin n)) : CopyRace T n :=
  { s with barrier := s.barrier.arrive p (n + 1) }

/-- It is left. -/
def leaves (p : Option (Fin n)) : Option (CopyRace T n) :=
  (s.barrier.leave p).map fun b => { s with barrier := b }

/-- A step of `hemem_parallel_memcpy_thread`. -/
def workerStep (w : Fin n) : Option (CopyRace T n) :=
  match s.worker w with
  | .wait => some ((s.enters (some w)).setWorker w .waiting)
  | .waiting => (s.leaves (some w)).map (·.setWorker w .readLength)
  | .readLength => some (s.setWorker w (.readDst (s.pmemcpy.length / n)))
  | .readDst chunk => some (s.setWorker w (.readZeros chunk (s.pmemcpy.dst + w * chunk)))
  | .readZeros chunk dst => some (s.setWorker w
      (if s.pmemcpy.writeZeros then .copy chunk dst none 0 else .readSrc chunk dst))
  | .readSrc chunk dst =>
    some (s.setWorker w (.copy chunk dst (some (s.pmemcpy.src + w * chunk)) 0))
  | .copy chunk dst src i =>
    if i < chunk then
      let b := src.elim 0 fun src => s.mem (src + i)
      some ({ s with mem := update s.mem (dst + i) b }.setWorker w (.copy chunk dst src (i + 1)))
    else some (s.setWorker w .done)
  | .done => some ((s.enters (some w)).setWorker w .leaving)
  | .leaving => (s.leaves (some w)).map (·.setWorker w .wait)

/-- A step of `hemem_parallel_memcpy` or `hemem_parallel_memset`. -/
def callerStep (t : T) : Option (CopyRace T n) :=
  match s.caller t with
  | .idle => none
  | .lock c => if s.lock = none then some ({ s with lock := some t }.setCaller t (.setDst c)) else none
  | .setDst c => some ({ s with pmemcpy := { s.pmemcpy with dst := c.dst } }.setCaller t
      (if c.src.isSome then .setSrc c else .setLength c))
  | .setSrc c => some ({ s with pmemcpy := { s.pmemcpy with src := c.src.getD 0 } }.setCaller t
      (.setLength c))
  | .setLength c => some ({ s with pmemcpy := { s.pmemcpy with length := c.length } }.setCaller t
      (.setZeros c))
  | .setZeros c => some ({ s with pmemcpy := { s.pmemcpy with writeZeros := c.src.isNone } }.setCaller
      t (.start c))
  | .start c => some ((s.enters none).setCaller t (.starting c))
  | .starting c => (s.leaves none).map (·.setCaller t (.finish c))
  | .finish c => some ((s.enters none).setCaller t (.finishing c))
  | .finishing c => (s.leaves none).map (·.setCaller t (.unlock c))
  | .unlock c => some ({ s with lock := none, expected := c.applied n s.expected }.setCaller t .idle)

/-- The call whose thread holds the lock. -/
def current : Option CopyCall := s.lock.bind fun t => (s.caller t).call

end CopyRace

inductive CopyAct (T : Type) (n : ℕ)
  | call (t : T) (c : CopyCall)
  | caller (t : T)
  | worker (w : Fin n)
  /-- any thread writes a byte -/
  | write (a : ℕ) (b : UInt8)
  deriving DecidableEq

namespace CopyAct

variable (s : CopyRace T n)

def next : CopyAct T n → Option (CopyRace T n)
  | call t c => if s.caller t = .idle then some (s.setCaller t (.lock c)) else none
  | caller t => s.callerStep t
  | worker w => s.workerStep w
  | write a b => some { s with mem := update s.mem a b, expected := update s.expected a b }

/-- Calls copy between ranges that do not overlap, and what a call uses is left alone. -/
def Legal : CopyAct T n → Prop
  | call _ c => c.Apart
  | write a _ => ∀ c, s.current = some c → ¬ c.Uses a
  | _ => True

end CopyAct

namespace CopyRace

/-- `hemem_init` has made the lock, the barrier and the threads. -/
structure Starts (s : CopyRace T n) : Prop where
  lock : s.lock = none
  barrier : s.barrier = .start
  worker : ∀ w, s.worker w = .wait
  caller : ∀ t, s.caller t = .idle
  expected : s.expected = s.mem

/-- Memory is as if each call had copied at once: outside the destination of the call that holds
the lock at any time, and everywhere when a call is about to return. -/
structure Atomic (s : CopyRace T n) : Prop where
  others : ∀ a, (∀ c, s.current = some c → ¬ (c.dst ≤ a ∧ a < c.dst + c.length)) →
    s.mem a = s.expected a
  returns : ∀ t c, s.caller t = .unlock c → s.mem = c.applied n s.expected

end CopyRace

def copyRace (T : Type) [DecidableEq T] (n : ℕ) : System (CopyRace T n) (CopyAct T n) where
  init s := s.Starts
  step s a s' := a.next s = some s'

end HeMem

import Mathlib.Data.Fintype.Basic
import HeMem.Lib.Transition
import HeMem.Migrate

/-!
# Writes beside migrations

Application threads write to one tracked page while the policy thread migrates it and the fault
thread handles write-protect faults.  What the policy thread and the fault thread do with the struct,
the mapping and the messages is a step each, a write is a step, and the copying goes on in pieces of
any size and order.  Of the kernel it is assumed that the protection blocks every later write through
the mapping, that the new mapping comes at once and is not protected, and that a wake reaches all who
wait for the page, who then try again.
-/

namespace HeMem

open Function

def maxUffdMsgs : ℕ := 1

/-- What a write makes of the contents of the page: values `V` at places `L`. -/
abbrev PageWrite (L V : Type) := (L → V) → L → V

/-- Where the policy thread stands in `pebs_migrate_up` or `pebs_migrate_down`. -/
inductive MigratingPhase (L : Type)
  | idle
  /-- before `hemem_wp_page` -/
  | protect (up : Bool) (newOffset : UInt64)
  /-- before the assertions of `hemem_migrate_up` or `hemem_migrate_down` -/
  | start (up : Bool) (newOffset : UInt64)
  /-- in `hemem_parallel_memcpy` or `UFFDIO_DMA_COPY`, with the places copied so far -/
  | copy (up : Bool) (newOffset : UInt64) (old : Device × UInt64) (done : L → Bool)
  /-- before `libc_mmap` -/
  | remap (up : Bool) (newOffset : UInt64)
  /-- before `page->devdax_offset = ...` -/
  | setOffset (up : Bool) (newOffset : UInt64)
  /-- before `page->in_dram = ...` -/
  | setTier (up : Bool)
  /-- before `page->migrating = false` -/
  | clear

/-- Where the fault thread stands in `handle_fault` with a message. -/
inductive FaultPhase
  /-- before `find_page` -/
  | find
  /-- in `while (page->migrating)` -/
  | wait
  /-- before `UFFDIO_WAKE` -/
  | wake

structure WriteFault (T L V : Type) where
  page : HememPage
  /-- the frame that the page's address is mapped to -/
  mapped : Device × UInt64
  wp : Bool := false
  data : Device × UInt64 → L → V
  policy : MigratingPhase L := .idle
  /-- the writes that each thread has still to make -/
  todo : T → List (PageWrite L V)
  /-- it waits in a fault -/
  blocked : T → Bool := fun _ => false
  /-- faults that have not been read -/
  messages : List T := []
  /-- those that the fault thread has read and not handled -/
  msg : List T := []
  fault : FaultPhase := .find
  /-- the writes made, in their order -/
  applied : List (T × PageWrite L V) := []

inductive WriteAct (L : Type) (T : Type)
  /-- a thread comes to its next write -/
  | write (t : T)
  /-- `pebs_migrate_up`, or else `pebs_migrate_down`, to the frame at an offset -/
  | migrate (up : Bool) (newOffset : UInt64)
  /-- some places are copied -/
  | copy (piece : L → Bool)
  | policy
  | read
  | fault

namespace WriteFault

variable {T L V : Type} (cfg : Config) (s : WriteFault T L V)

def write [DecidableEq T] (t : T) : Option (WriteFault T L V) :=
  match s.todo t, s.blocked t with
  | w :: rest, false =>
    if s.wp then some { s with
      blocked := update s.blocked t true
      messages := s.messages ++ [t] }
    else some { s with
      data := update s.data s.mapped (w (s.data s.mapped))
      todo := update s.todo t rest
      applied := s.applied ++ [(t, w)] }
  | _, _ => none

/-- The frame of a tier at an offset. -/
def frameAt (dram : Bool) (offset : UInt64) : Device × UInt64 := (deviceOf dram, offset)

/-- A page that is enforced is not moved down. -/
def migrate (up : Bool) (newOffset : UInt64) : Option (WriteFault T L V) :=
  match s.policy with
  | .idle => if up = false ∧ s.page.enforced = true then some s else some { s with
      page := { s.page with migrating := true }
      policy := .protect up newOffset }
  | _ => none

def copyPiece (piece : L → Bool) : Option (WriteFault T L V) :=
  match s.policy with
  | .copy up newOffset old done => some { s with
      data := update s.data (frameAt up newOffset) fun l =>
        if piece l then s.data old l else s.data (frameAt up newOffset) l
      policy := .copy up newOffset old fun l => done l || piece l }
  | _ => none

/-- The next step of the policy thread, if it fails no assertion. -/
def policyStep [Fintype L] : Option (WriteFault T L V) :=
  match s.policy with
  | .idle => none
  | .protect up newOffset =>
    if s.page.va ≠ 0 ∧ s.page.va % hugepageSize = 0 then
      some { s with wp := true, policy := .start up newOffset }
    else none
  | .start up newOffset =>
    if s.page.inDram = !up ∧
        cfg.InRange (!up) s.page.devdaxOffset (ptToPagesize s.page.pt) ∧
        cfg.InRange up newOffset (ptToPagesize s.page.pt) then
      some { s with policy := .copy up newOffset (frameAt (!up) s.page.devdaxOffset) fun _ => false }
    else none
  | .copy up newOffset _ done =>
    if ∀ l, done l = true then some { s with policy := .remap up newOffset } else none
  | .remap up newOffset => some { s with
      mapped := frameAt up newOffset
      wp := false
      policy := .setOffset up newOffset }
  | .setOffset up newOffset =>
    if s.page.va % hugepageSize = 0 then some { s with
      page := { s.page with devdaxOffset := newOffset }
      policy := .setTier up }
    else none
  | .setTier up => some { s with page := { s.page with inDram := up }, policy := .clear }
  | .clear => some { s with page := { s.page with migrating := false }, policy := .idle }

def read : Option (WriteFault T L V) :=
  match s.msg with
  | [] => some { s with
      msg := s.messages.take maxUffdMsgs
      messages := s.messages.drop maxUffdMsgs }
  | _ :: _ => none

/-- The next step of the fault thread with the messages it has read.  The page is tracked. -/
def faultStep : Option (WriteFault T L V) :=
  match s.msg, s.fault with
  | [], _ => none
  | _ :: _, .find => some { s with fault := .wait }
  | _ :: _, .wait => if s.page.migrating then none else some { s with fault := .wake }
  | _ :: rest, .wake => some { s with
      blocked := fun _ => false
      messages := []
      msg := rest
      fault := .find }

end WriteFault

namespace WriteAct

variable {T L V : Type} [DecidableEq T] [Fintype L] (cfg : Config) (s : WriteFault T L V)

def next : WriteAct L T → Option (WriteFault T L V)
  | write t => s.write t
  | migrate up newOffset => s.migrate up newOffset
  | copy piece => s.copyPiece piece
  | policy => s.policyStep cfg
  | read => s.read
  | fault => s.faultStep

/-- A page is migrated to a frame of the other tier. -/
def Legal : WriteAct L T → Prop
  | migrate up newOffset =>
    s.page.inDram = !up ∧ cfg.InRange up newOffset (ptToPagesize s.page.pt)
  | _ => True

instance : DecidablePred (Legal (L := L) cfg s)
  | migrate _ _ => inferInstanceAs (Decidable (_ ∧ _))
  | write _ | copy _ | policy | read | fault => instDecidableTrue

end WriteAct

namespace WriteFault

variable {T L V : Type} [DecidableEq T] (cfg : Config) (data : L → V)
  (program : T → List (PageWrite L V)) (s : WriteFault T L V)

/-- The page is mapped to the frame its struct names, and no thread has begun. -/
structure Starts : Prop where
  va : s.page.va ≠ 0
  align : s.page.va % hugepageSize = 0
  range : cfg.InRange s.page.inDram s.page.devdaxOffset (ptToPagesize s.page.pt)
  migrating : s.page.migrating = false
  mapped : s.mapped = s.page.frame
  wp : s.wp = false
  data : s.data s.mapped = data
  policy : s.policy = .idle
  todo : s.todo = program
  blocked : s.blocked = fun _ => false
  messages : s.messages = []
  msg : s.msg = []
  fault : s.fault = .find
  applied : s.applied = []

/-- The writes that a thread has made, in their order. -/
def appliedBy (t : T) : List (PageWrite L V) := (s.applied.filter (·.1 = t)).map Prod.snd

/-- What the page holds when it has held `data` and the writes were made. -/
def replay (data : L → V) (l : List (T × PageWrite L V)) : L → V :=
  l.foldl (fun d w => w.2 d) data

end WriteFault

variable {T L V : Type} [DecidableEq T] [Fintype L]

def writeFault (cfg : Config) (data : L → V) (program : T → List (PageWrite L V)) :
    System (WriteFault T L V) (WriteAct L T) where
  init := WriteFault.Starts cfg data program
  step s a s' := a.next cfg s = some s'

/-- The threads go on, and no other migration begins. -/
inductive WriteFault.Continues (cfg : Config) : WriteFault T L V → WriteFault T L V → Prop
  | refl {s : WriteFault T L V} : s.Continues cfg s
  | step {s t u : WriteFault T L V} {a : WriteAct L T} (hs : a.next cfg s = some t)
      (ha : ∀ up newOffset, a ≠ .migrate up newOffset) (h : t.Continues cfg u) : s.Continues cfg u

end HeMem

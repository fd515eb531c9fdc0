import HeMem.Lib.Transition
import HeMem.View

/-!
# Runs of the policy

What the rest of HeMem does with the policy, each taken as one atomic step: the application sets
its hints, a fault takes a page, `hemem.c` gives a page its address or hands it back, the sampler
counts an access, and the policy thread makes a pass.
-/

namespace HeMem

inductive Op
  | hint (tier persistence priority : ℤ)
  | allocate
  | fault
  | assign (page : PageId) (va : UInt64)
  | remove (page : PageId)
  | sample (j : PbufType) (page : PageId)
  | pass

namespace Op

variable (cfg : Config) (s : State)

def run : Op → M Unit
  | hint tier persistence priority => modify ({ · with
      userHintTier := tier, userHintPersistence := persistence, userHintPriority := priority })
  | allocate => do
    let _ ← pebsAllocatePage
  | fault => do
    let _ ← pebsPagefault cfg
  | assign page va => modifyPage page ({ · with va := va })
  | remove page => pebsRemovePage page
  | sample j page => samplePage j page
  | pass => pebsPolicyPass cfg

/-- Pages are structs that `pebs_init` made, an address is one `hemem.c` asserts it to be, and
only a present page is removed. -/
def Legal : Op → Prop
  | assign page va => page < cfg.pages ∧ va ≠ 0 ∧ va % hugepageSize = 0
  | sample _ page => page < cfg.pages
  | remove page => page < cfg.pages ∧ (s.page page).present = true
  | _ => True

instance : DecidablePred (Legal cfg s) := fun op => by
  cases op <;> unfold Legal <;> infer_instance

/-- An operation of a program that gives no hints. -/
def Plain : Op → Prop
  | hint _ _ _ | fault => False
  | _ => True

/-- The step is no fault hinted for DRAM. -/
def Unhinted : Op → Prop
  | fault => s.userHintTier ≠ 0
  | _ => True

/-- No victim search of this step meets an enforced page. -/
def MeetsNone : Op → Prop
  | fault => ¬ s.FaultMeets
  | pass => s.PassMeetsNone cfg
  | _ => True

/-- The step is no persistent hint. -/
def Flexible : Op → Prop
  | hint _ persistence _ => persistence ≠ 1
  | _ => True

/-- The step is no fault that takes a page hinted for DRAM as hot. -/
def NoHotFault : Op → Prop
  | fault => ¬ s.HotFault
  | _ => True

/-- The step moves down no page that is no longer present. -/
def NoStale : Op → Prop
  | fault => ¬ s.FaultStale
  | _ => True

/-- The step takes no request of a page that is no longer present. -/
def NoDrop : Op → Prop
  | pass => s.view.TakesPresent
  | _ => True

/-- The step puts no request on a full ring. -/
def NoOverflow : Op → Prop
  | sample j page => ∀ hot ∈ s.sampleRequests j page, ringBufFull (s.requestRing hot) = false
  | _ => True

instance : DecidablePred Flexible := fun op => by
  cases op <;> unfold Flexible <;> infer_instance

instance : DecidablePred Plain := fun op => by
  cases op <;> unfold Plain <;> infer_instance

instance : DecidablePred (NoHotFault s) := fun op => by
  cases op <;> unfold NoHotFault <;> infer_instance

instance : DecidablePred (NoDrop s) := fun op => by
  cases op <;> unfold NoDrop <;> infer_instance

instance : DecidablePred (NoOverflow s) := fun op => by
  cases op <;> unfold NoOverflow <;> infer_instance

end Op

def Op.next (cfg : Config) (s : State) (op : Op) : Option State :=
  (op.run cfg s).toOption.map (·.2)

/-- `pebs_init`, then operations that do not abort. -/
def policy (cfg : Config) (kernel : Kernel) : System State Op where
  init s := pebsInit cfg (State.blank kernel) = .ok ((), s)
  step s op s' := op.run cfg s = .ok ((), s')

section Events

/-- An operation, or a request the sampler makes apart from a sample. -/
inductive Event
  | op (op : Op)
  | request (hot : Bool) (page : PageId)

variable (cfg : Config)

def Event.run : Event → M Unit
  | op o => o.run cfg
  | request hot page => makeRequest hot page

/-- Only pages that have an address are requested. -/
def Event.Legal (s : State) : Event → Prop
  | op o => o.Legal cfg s
  | request _ page => page < cfg.pages ∧ (s.page page).va ≠ 0

/-- Events that do not abort, from one of the states of `init` on. -/
def events (init : State → Prop) : System State Event where
  init := init
  step s e s' := e.run cfg s = .ok ((), s')

end Events

section Marks

/-- The state of the policy and, of each page, whether the fault that gave it out last was hinted
for DRAM and persistent. -/
structure Marked where
  state : State
  mark : PageId → Bool

namespace Op

variable (cfg : Config) (s : State)

/-- The page the step gives out. -/
def grants : Op → Option PageId
  | allocate => (pebsAllocatePage s).toOption.map (·.1)
  | fault => (pebsPagefault cfg s).toOption.map (·.1)
  | _ => none

/-- The step is a fault hinted for DRAM and persistent. -/
def persists : Op → Bool
  | fault => s.userHintTier = 0 && s.userHintPersistence = 1
  | _ => false

def marks (mark : PageId → Bool) (op : Op) : PageId → Bool :=
  match op.grants cfg s with
  | some p => Function.update mark p (op.persists s)
  | none => mark

/-- The step is no allocation without a hint that takes a page with an old mark. -/
def TakesUnmarked : Op → Prop
  | allocate => ∀ p ∈ s.freePages.head?, (s.page p).enforced = false
  | fault => s.userHintTier ≠ 0 → ∀ p ∈ s.freePages.head?, (s.page p).enforced = false
  | _ => True

instance : DecidablePred (TakesUnmarked s) := fun op => by
  cases op <;> unfold TakesUnmarked <;> infer_instance

end Op

/-- The policy's runs with their marks. -/
def marking (cfg : Config) (kernel : Kernel) : System Marked Op where
  init m := pebsInit cfg (State.blank kernel) = .ok ((), m.state) ∧ m.mark = fun _ => false
  step m op m' := op.run cfg m.state = .ok ((), m'.state) ∧ m'.mark = op.marks cfg m.state m.mark

def Marked.next (cfg : Config) (m : Marked) (op : Op) : Option Marked :=
  (op.run cfg m.state).toOption.map fun r => ⟨r.2, op.marks cfg m.state m.mark⟩

end Marks

/-- Runs the operations in turn, each of them legal. -/
def execute (cfg : Config) : List Op → State → Option State
  | [], s => some s
  | op :: ops, s =>
    if op.Legal cfg s then
      match op.run cfg s with
      | .ok ((), s') => execute cfg ops s'
      | .error _ => none
    else none

/-- `pebs_init`, then the operations. -/
def boot (cfg : Config) (kernel : Kernel) (ops : List Op) : Option State :=
  match pebsInit cfg (State.blank kernel) with
  | .ok ((), s) => execute cfg ops s
  | .error _ => none

/-- No mapping, and zeros on the devices. -/
def Kernel.fresh : Kernel := ⟨fun _ => none, fun _ _ => 0⟩

end HeMem

import HeMem.Mmap
import HeMem.View

/-!
# Missing page faults

`handle_fault` takes one message after another, rounds its address down to the page and hands it to
`handle_missing_fault`, whose look at the tracked pages is commented out.  The kernel may send any
number of messages for a page before the first is served; between messages the application maps and
unmaps regions, addresses are sampled and the policy makes its passes.
-/

namespace HeMem

section Messages

/-- The `page_boundry` that `handle_fault` makes of a `fault_addr`. -/
def faultBoundry (faultAddr : UInt64) : UInt64 := faultAddr &&& ~~~(pageSize - 1)

/-- `handle_fault`, on a message of a missing page. -/
def handleFault (cfg : Config) (faultAddr : UInt64) : M Unit :=
  handleMissingFault cfg (faultBoundry faultAddr)

/-- A bound on the addresses of a process. -/
def taskSize : ℕ := 2 ^ 56

inductive FaultOp
  | message (faultAddr : UInt64)
  | mmap (length offset p : UInt64)
  | munmap (addr length : UInt64) (unmaps : Bool)
  | sample (addr : UInt64) (j : PbufType)
  | pass
  deriving DecidableEq

namespace FaultOp

variable (cfg : Config) (s t : State)

def run : FaultOp → M Unit
  | message faultAddr => handleFault cfg faultAddr
  | mmap length offset p => do
    let _ ← hememMmap cfg length offset p
  | munmap addr length unmaps => hememMunmap addr length unmaps
  | sample addr j => pebsScanSample addr j
  | pass => pebsPolicyPass cfg

/-- What the kernel sees to: regions lie in the address space of a process, and only whole base
pages are unmapped. -/
def Legal : FaultOp → Prop
  | mmap length _ p => p.toNat + (pageRoundUp length).toNat ≤ taskSize
  | munmap addr length unmaps => unmaps = true →
      addr % basepageSize = 0 ∧ addr.toNat + length.toNat ≤ taskSize
  | _ => True

/-- A message is for a page that `find_page` does not know, and a new region lies where nothing is
mapped. -/
def Fresh : FaultOp → Prop
  | message faultAddr => s.pages (faultBoundry faultAddr) = none
  | mmap length _ p => ∀ x, x - p < pageRoundUp length → s.kernel.mapping x = none
  | _ => True

def next (op : FaultOp) : Option State := (op.run cfg s).toOption.map (·.2)

end FaultOp

/-- The page tracked at `b` is still tracked there, and keeps its frame. -/
def State.KeepsFrame (s t : State) (b : UInt64) : Prop :=
  ∀ p, s.pages b = some p → t.pages b = some p ∧ (t.page p).frame = (s.page p).frame

/-- What an operation other than a pass of the policy does to the pages tracked.  A message takes
one page and leaves those tracked as they are mapped; so does a new region.  The pages tracked
after unmapping were tracked before. -/
def FaultOp.Keeps (s t : State) : FaultOp → Prop
  | message faultAddr =>
    (∃ p, s.freePages = p :: t.freePages ∧
      t.pages = Function.update s.pages (faultBoundry faultAddr) (some p)) ∧
    ∀ x, s.pages (x &&& hugePfnMask) ≠ none →
      s.KeepsFrame t (x &&& hugePfnMask) ∧ t.kernel.mapping x = s.kernel.mapping x
  | mmap _ _ _ => ∀ x, s.pages (x &&& hugePfnMask) ≠ none →
      s.KeepsFrame t (x &&& hugePfnMask) ∧ t.kernel.mapping x = s.kernel.mapping x
  | munmap addr length _ => ∀ x, t.pages (x &&& hugePfnMask) ≠ none →
      t.KeepsFrame s (x &&& hugePfnMask) ∧
        (¬ x - addr < length → t.kernel.mapping x = s.kernel.mapping x)
  | _ => True

/-- `hemem_init`, then operations that do not abort. -/
def faults (cfg : Config) (kernel : Kernel) : System State FaultOp where
  init s := hememInit cfg (State.blank kernel) = .ok ((), s)
  step s op s' := op.run cfg s = .ok ((), s')

end Messages

end HeMem

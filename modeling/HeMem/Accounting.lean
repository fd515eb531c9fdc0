import HeMem.Faults
import HeMem.Unmap

/-!
# How much memory HeMem says it manages

`mem_allocated` grows by each page that is mapped, and `mem_mmaped` is set to the length of the
region last mapped; both shrink by each page that `hemem_munmap` finds.
-/

namespace HeMem

/-- The size of all the pages tracked, the dummy page apart. -/
def State.trackedSize (cfg : Config) (s : State) : ℕ :=
  (((List.range cfg.pages).filter fun p => s.pages (s.page p).va = some p).map
    fun p => (ptToPagesize (s.page p).pt).toNat).sum

/-- Both sizes are the size of the pages tracked. -/
structure State.Accounted (cfg : Config) (s : State) : Prop where
  allocated : s.memAllocated.toNat = s.trackedSize cfg
  mmaped : s.memMmaped.toNat = s.trackedSize cfg

/-- Neither subtraction of `hemem_munmap` goes below zero. -/
def State.Subtracts (s : State) (addr length : UInt64) : Prop :=
  ∀ b t page, MunmapHead (addr + length) addr s b t → b < addr + length → t.pages b = some page →
    ptToPagesize (t.page page).pt ≤ t.memAllocated ∧ ptToPagesize (t.page page).pt ≤ t.memMmaped

namespace Call

/-- Regions lie where the kernel has room for them, whole pages are unmapped, away from address zero,
and no page is mapped otherwise. -/
def OfRegions : Call → Prop
  | mmap length _ p => p.toNat + (pageRoundUp length).toNat ≤ taskSize
  | munmap addr length _ => addr ≠ 0 ∧ addr % hugepageSize = 0 ∧ length % hugepageSize = 0 ∧
      addr.toNat + length.toNat < 2 ^ 64
  | populate _ _ | missingFault _ => False
  | _ => True

instance : DecidablePred OfRegions
  | mmap length _ p => inferInstanceAs (Decidable (p.toNat + (pageRoundUp length).toNat ≤ taskSize))
  | munmap addr length _ => inferInstanceAs (Decidable (addr ≠ 0 ∧ addr % hugepageSize = 0 ∧
      length % hugepageSize = 0 ∧ addr.toNat + length.toNat < 2 ^ 64))
  | populate _ _ | missingFault _ => isFalse id
  | hint _ _ _ | sample _ _ | pass | write _ _ => isTrue trivial

/-- A region is mapped only while no page of the application is tracked. -/
def Alone (s : State) : Call → Prop
  | mmap _ _ _ => ∀ a, a ≠ 0 → s.pages a = none
  | _ => True

end Call

end HeMem

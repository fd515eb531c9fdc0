import HeMem.Pebs

/-!
# What a pass migrates

The migration loop of `pebs_policy_thread` as a plan over three sequences: the hot pages of NVM, the
free frames of DRAM and the cold pages of DRAM.
-/

namespace HeMem

/-- `PEBS_KSWAPD_MIGRATE_RATE` in huge pages -/
def pagesPerPass : ℕ := 5120

/-- Whether the page moves up, and the page. -/
def MigrateCall.move (c : MigrateCall) : Bool × PageId := (c.up, c.page)

/-- The risers take the free frames of DRAM first, and after them each the frame of a victim, which
goes down before. -/
def migrations : ℕ → List PageId → List PageId → List (Bool × PageId)
  | room + 1, p :: risers, victims => (true, p) :: migrations room risers victims
  | 0, p :: risers, c :: victims => (false, c) :: (true, p) :: migrations 0 risers victims
  | 0, _ :: _, [] => []
  | _, [], _ => []

namespace State

variable (s : State)

/-- The pages of NVM hot that are still read enough, in the order in which the loop takes them. -/
def risers : List PageId :=
  (s.fifo.contents .nvmHot).reverse.filter fun p => decide (hotReadThreshold ≤ (s.page p).reads)

/-- The pages of DRAM cold that a victim search stops at, in the order in which it comes to them. -/
def victims : List PageId := (s.fifo.contents .dramCold).reverse.filter fun p => !(s.page p).enforced

/-- How many frames of DRAM are free. -/
def room : ℕ := (s.fifo.contents .dramFree).length

/-- The migrations so far, the latest first. -/
def moves : List (Bool × PageId) := s.calls.map MigrateCall.move

end State

end HeMem

import HeMem.Run
import HeMem.Sweep

/-!
# The decay shifts

The counters of a page are decayed by a shift, in the sampler and in the loop of `partial_cool`.
`Op.shifts` are the counts of the shifts that an operation makes, in turn.  Beside the state,
`behind` counts for each page struct the cooling events since a sample last set its clock.
-/

namespace HeMem

open Function

section Counts

/-- `global_clock - page->local_clock` -/
def State.decay (s : State) (page : PageId) : UInt64 := s.globalClock - (s.page page).localClock

/-- The shifts of the loop of `partial_cool`. -/
def coolShifts (hot cold : ListId) (dram : Bool) : ℕ → Option PageId → State → List UInt64
  | 0, _, _ => []
  | turns + 1, current, s =>
    match onFifo (nextPage hot current) s with
    | .ok (some p, s) =>
      if (s.page p).inDram = dram then
        s.decay p :: match coolPage hot cold dram p s with
          | .ok (current, s) => coolShifts hot cold dram turns current s
          | .error _ => []
      else []
    | _ => []

/-- The shifts of a call of `partial_cool` for a tier. -/
def State.sweepShifts (s : State) (dram : Bool) : List UInt64 :=
  if s.needCool dram then
    coolShifts (hotList dram) (coldList dram) dram coolingPages (s.cur dram)
      (s.begun (hotList dram) dram)
  else []

/-- A pass of `pebs_policy_thread` up to the cooling: whether it comes to it. -/
def beforeCooling (cfg : Config) : M Bool := do
  beforeMigration
  migrateLoop cfg ((← listLength .nvmHot) + 1) 0

/-- The shifts of the two calls at the end of a pass. -/
def State.passShifts (s : State) : List UInt64 :=
  s.sweepShifts true ++
    match coolCall true s with
    | .ok (_, t) => t.sweepShifts false
    | .error _ => []

def Op.shifts (cfg : Config) (s : State) : Op → List UInt64
  | sample _ page => if (s.page page).va ≠ 0 then [s.decay page] else []
  | pass =>
    match beforeCooling cfg s with
    | .ok (true, t) => t.passShifts
    | _ => []
  | _ => []

end Counts

section Runs

structure Clocked where
  state : State
  /-- the cooling events since the clock of each page was set -/
  behind : PageId → ℕ

/-- A sample sets the clock of its page, and is a cooling event if it leaves a count above the
threshold. -/
def Op.behind (s s' : State) (behind : PageId → ℕ) : Op → PageId → ℕ
  | sample j page =>
    if (s.page page).va = 0 then behind
    else if (s'.page page).accesses j > pebsCoolingThreshold then
      fun p => update behind page 0 p + 1
    else update behind page 0
  | _ => behind

/-- The policy's runs, with the cooling events counted. -/
def clocked (cfg : Config) (kernel : Kernel) : System Clocked Op where
  init m := pebsInit cfg (State.blank kernel) = .ok ((), m.state) ∧ m.behind = fun _ => 0
  step m op m' := op.run cfg m.state = .ok ((), m'.state) ∧
    m'.behind = op.behind m.state m'.state m.behind

/-- In terms of the clocks, fewer than 64 cooling events since the clock of the page was set. -/
def Clocked.Recent (m : Clocked) (page : PageId) : Prop := m.behind page % 2 ^ 64 < 64

/-- The pages that a call of `partial_cool` for the tier is to come to are recent. -/
def Clocked.Sweeps (m : Clocked) (dram : Bool) (s : State) : Prop :=
  s.needCool dram = true → ∀ p ∈ (s.ahead dram).take coolingPages, m.Recent p

/-- The page sampled, or the pages that come under a sweep, are recent. -/
def Op.Timely (cfg : Config) (m : Clocked) : Op → Prop
  | sample _ page => (m.state.page page).va ≠ 0 → m.Recent page
  | pass => ∀ s, beforeCooling cfg m.state = .ok (true, s) →
      m.Sweeps true s ∧ ∀ t, coolCall true s = .ok ((), t) → m.Sweeps false t
  | _ => True

end Runs

end HeMem

import HeMem.Shifts

/-!
# The access counters

A counter that a sample leaves above the threshold makes the sample a cooling event, and stays
above it until the next sample of its page.  Beside the clocks, a run counts all its cooling events.
-/

namespace HeMem

section Events

/-- Whether an operation from `s` to `s'` is a cooling event. -/
def Op.events (s s' : State) : Op → ℕ
  | sample j page =>
    if (s.page page).va ≠ 0 ∧ (s'.page page).accesses j > pebsCoolingThreshold then 1 else 0
  | _ => 0

structure Cooled extends Clocked where
  events : ℕ

/-- The policy's runs, with all cooling events counted. -/
def cooled (cfg : Config) (kernel : Kernel) : System Cooled Op where
  init m := (clocked cfg kernel).init m.toClocked ∧ m.events = 0
  step m op m' := (clocked cfg kernel).step m.toClocked op m'.toClocked ∧
    m'.events = m.events + op.events m.state m'.state

/-- A page that is sampled was sampled fewer than 64 cooling events ago. -/
def Op.Prompt (m : Cooled) : Op → Prop
  | sample _ page => (m.state.page page).va ≠ 0 → m.behind page < 64
  | _ => True

end Events

/-- No counter is above the threshold by more than one, and where one is, a cooling event has come
since its page was sampled. -/
structure Cooled.Bounded (m : Cooled) : Prop where
  le : ∀ p j, (m.state.page p).accesses j ≤ pebsCoolingThreshold + 1
  passed : ∀ p j, (m.state.page p).accesses j = pebsCoolingThreshold + 1 → 0 < m.behind p

end HeMem

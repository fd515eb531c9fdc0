import HeMem.Lib.Transition
import HeMem.View

/-!
# Lazy and eager cooling

The sampler decays the counters of a page when it samples it, by as many halvings as there have been
cooling events since.  The eager scheme it stands for halves the counters of every page at each
cooling event: `count` is what that scheme counts, beside the state of the program.
-/

namespace HeMem

open Function

structure Tally where
  state : State
  count : PageId → PbufType → ℕ
  /-- the cooling events since the clock of each page was set -/
  behind : PageId → ℕ

inductive Tick
  | sample (j : PbufType) (page : PageId)
  | cool

namespace Tally

variable (m : Tally)

/-- The eager counters of `page` after a sample of type `j`. -/
def counted (j : PbufType) (page : PageId) : PbufType → ℕ :=
  update (m.count page) j (m.count page j + 1)

/-- A cooling event in the eager scheme. -/
def cool : Tally :=
  { m with count := fun p i => m.count p i / 2, behind := fun p => m.behind p + 1 }

/-- A sample in the eager scheme; it is a cooling event too if the program makes it one. -/
def sample (j : PbufType) (page : PageId) (s : State) : Tally :=
  let m' : Tally := ⟨s, update m.count page (m.counted j page), update m.behind page 0⟩
  if s.globalClock = m.state.globalClock then m' else m'.cool

/-- Since the clock of `page` was set, fewer cooling events than the counters have bits. -/
def Recent (page : PageId) : Prop := m.behind page < 64

/-- The sample is counted and judged as if the counters had been decayed before. -/
def InStep (j : PbufType) (page : PageId) : Prop :=
  let a := fun i => ((m.state.page page).accesses i).toNat
  let k := 2 ^ m.behind page
  k ∣ a j + 1 ∧ ((m.state.page page).ringPresent = true ∨
    (hotReadThreshold.toNat ≤ a .dramread + a .nvmread + 1 ↔
      hotReadThreshold.toNat ≤ a .dramread / k + a .nvmread / k + 1))

instance (page : PageId) : Decidable (m.Recent page) := by
  unfold Recent
  infer_instance

instance (j : PbufType) (page : PageId) : Decidable (m.InStep j page) := by
  unfold InStep
  infer_instance

/-- After the sample the page has the eager counters, and the request is what these call for. -/
def Agrees (j : PbufType) (page : PageId) (s : State) : Prop :=
  let c := m.counted j page
  (∀ i, ((s.page page).accesses i).toNat = c i) ∧
    ∀ hot, s.requestRing hot =
      if (m.state.page page).request (UInt64.ofNat (c .dramread + c .nvmread)) = some hot then
        ringBufPut (m.state.requestRing hot) page
      else m.state.requestRing hot

/-- Fresh pages, all at one address, and empty rings. -/
def fresh (clock : UInt64) : Tally where
  state := { State.blank ⟨fun _ => none, fun _ _ => 0⟩ with
    page := fun _ => { va := hugepageSize }
    hotRing := ⟨fun _ => 0, 0, 0, 2⟩
    coldRing := ⟨fun _ => 0, 0, 0, 2⟩
    globalClock := clock }
  count _ _ := 0
  behind _ := clock.toNat

end Tally

/-- Samples of pages that have an address, and cooling events, from fresh pages on. -/
def cooling : System Tally Tick where
  init m := (∀ hot, (m.state.requestRing hot).Wf) ∧
    (∀ p i, (m.state.page p).accesses i = 0 ∧ m.count p i = 0) ∧
    ∀ p, m.behind p = (m.state.globalClock - (m.state.page p).localClock).toNat
  step m t m' := match t with
    | .sample j page => (m.state.page page).va ≠ 0 ∧
        ∃ s, samplePage j page m.state = .ok ((), s) ∧ m' = m.sample j page s
    | .cool => m' = { m.cool with state := { m.state with
        globalClock := m.state.globalClock + 1 } }

def Tick.next (m : Tally) : Tick → Option Tally
  | sample j page =>
    if (m.state.page page).va ≠ 0 then
      (samplePage j page m.state).toOption.map fun r => m.sample j page r.2
    else none
  | cool => some { m.cool with state := { m.state with globalClock := m.state.globalClock + 1 } }

/-- Samples come within the counters' bits and in step. -/
def Tick.InStep (m : Tally) : Tick → Prop
  | sample j page => m.Recent page ∧ m.InStep j page
  | cool => True

instance (m : Tally) : DecidablePred (Tick.InStep m) := fun t => by
  cases t <;> unfold Tick.InStep <;> infer_instance

end HeMem

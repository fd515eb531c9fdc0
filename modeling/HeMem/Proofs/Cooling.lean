import Mathlib.Algebra.Order.Ring.Nat
import HeMem.Cooling
import HeMem.Proofs.Sample

/-!
# When lazy cooling equals eager cooling

The sampler adds one before it decays, so the sample it counts is decayed with what was counted
before it.  The two schemes agree on a sample only if that makes no difference.
-/

namespace HeMem

open Hoare Function

variable {m m' : Tally} {s : State} {p x : PageId} {j : PbufType} {hot : Bool}

section Arithmetic

/-- Adding one before or after `n` halvings. -/
theorem succ_div_eq_iff {a k : ℕ} : (a + 1) / k = a / k + 1 ↔ k ∣ a + 1 := by
  rw [Nat.succ_div]
  split_ifs with h
  · simp [h]
  · simp [h]

/-- Shifting by fewer places than a counter has bits is halving. -/
theorem toNat_shiftRight_ofNat {a : UInt64} {n : ℕ} (hn : n < 64) :
    (a >>> UInt64.ofNat n).toNat = a.toNat / 2 ^ n := by
  rw [UInt64.toNat_shiftRight, UInt64.toNat_ofNat', Nat.mod_mod_of_dvd _ (by decide),
    Nat.mod_eq_of_lt hn, Nat.shiftRight_eq_div_pow]

end Arithmetic

section Counters

/-- The stored counters are the eager ones, not yet decayed. -/
structure Lagging (m : Tally) : Prop where
  ring : ∀ hot, (m.state.requestRing hot).Wf
  clock : ∀ p, m.state.globalClock - (m.state.page p).localClock = UInt64.ofNat (m.behind p)
  count : ∀ p i, m.count p i = ((m.state.page p).accesses i).toNat / 2 ^ m.behind p
  stored : ∀ p i, ((m.state.page p).accesses i).toNat ≤ 25

theorem Lagging.init (h : cooling.init m) : Lagging m where
  ring := h.1
  clock p := by rw [h.2.2, UInt64.ofNat_toNat]
  count p i := by simp [h.2.1 p i]
  stored p i := by simp [h.2.1 p i]

theorem Lagging.cool (h : Lagging m) {m' : Tally} (hm : m' = { m.cool with state :=
    { m.state with globalClock := m.state.globalClock + 1 } }) : Lagging m' := by
  subst hm
  refine ⟨h.ring, fun p => ?_, fun p i => ?_, h.stored⟩
  · have hp := h.clock p
    simp only [Tally.cool, UInt64.ofNat_add]
    rw [← hp]
    grind
  · simp only [Tally.cool, h.count, pow_succ, Nat.div_div_eq_div_mul]

/-- A count far from the end of its range gains one. -/
theorem toNat_counted {P : HememPage} (hb : (P.accesses j).toNat ≤ 25) (i : PbufType) :
    ((P.counted j).accesses i).toNat =
      update (fun i => (P.accesses i).toNat) j ((P.accesses j).toNat + 1) i := by
  simp only [HememPage.counted, update_apply]
  split_ifs
  · rw [UInt64.toNat_add]
    simp only [UInt64.reduceToNat]
    omega
  · rfl

theorem Handled.toNat_accesses (h : Lagging m) (hr : m.Recent p) (hh : Handled m.state j p s)
    (i : PbufType) : ((s.page p).accesses i).toNat =
      update (fun i => ((m.state.page p).accesses i).toNat) j
        (((m.state.page p).accesses j).toNat + 1) i / 2 ^ m.behind p := by
  rw [hh.accesses, h.clock, toNat_shiftRight_ofNat hr, toNat_counted (h.stored p j)]

theorem counted_apply (h : Lagging m) (i : PbufType) : m.counted j p i =
    update (fun i => ((m.state.page p).accesses i).toNat / 2 ^ m.behind p) j
      (((m.state.page p).accesses j).toNat / 2 ^ m.behind p + 1) i := by
  simp only [Tally.counted, update_apply, h.count]

/-- The sampled page gets the eager counters if what the sampler adds is not decayed away. -/
theorem accesses_eq_counted_iff (h : Lagging m) (hr : m.Recent p) (hh : Handled m.state j p s) :
    (∀ i, ((s.page p).accesses i).toNat = m.counted j p i) ↔
      2 ^ m.behind p ∣ ((m.state.page p).accesses j).toNat + 1 := by
  rw [← succ_div_eq_iff]
  simp only [hh.toNat_accesses h hr, counted_apply h, update_apply]
  refine ⟨fun hi => ?_, fun hj i => ?_⟩
  · simpa using hi j
  · split_ifs
    · exact hj
    · rfl

end Counters

section Judgement

theorem request_eq_iff {P : HememPage} {a b : UInt64} : P.request a = P.request b ↔
    P.ringPresent = true ∨ (hotReadThreshold ≤ a ↔ hotReadThreshold ≤ b) := by
  unfold HememPage.request
  cases hr : P.ringPresent <;> cases P.hot <;> by_cases ha : hotReadThreshold ≤ a <;>
    by_cases hb : hotReadThreshold ≤ b <;> simp [ha, hb]

/-- A ring is not left as it was by a put. -/
theorem ringBufPut_ne {r : RingBuf PageId} (hr : r.Wf) : ringBufPut r p ≠ r := by
  intro h
  have hw : (ringBufPut r p).head = r.wrap r.head := by
    unfold ringBufPut advancePointer
    dsimp only
    split <;> rfl
  rw [h] at hw
  have hc := hr.capacity
  have hh := hr.head
  unfold RingBuf.wrap at hw
  split at hw <;> omega

theorem requests_eq_iff (h : Lagging m) {a b : Option Bool} :
    (∀ hot, (if a = some hot then ringBufPut (m.state.requestRing hot) p
      else m.state.requestRing hot) = if b = some hot then ringBufPut (m.state.requestRing hot) p
      else m.state.requestRing hot) ↔ a = b := by
  refine ⟨fun hi => Option.ext fun hot => ?_, fun hab hot => by rw [hab]⟩
  have hne := ringBufPut_ne (p := p) (h.ring hot)
  have hot' := hi hot
  by_cases ha : a = some hot <;> by_cases hb : b = some hot
  · simp [ha, hb]
  · rw [if_pos ha, if_neg hb] at hot'
    exact absurd hot' hne
  · rw [if_neg ha, if_pos hb] at hot'
    exact absurd hot'.symm hne
  · simp [ha, hb]

theorem sampleRequests_of_va (hva : (s.page p).va ≠ 0) :
    s.sampleRequests j p = (s.page p).request ((s.page p).counted j).reads := if_neg hva

theorem threshold_le_iff {a : UInt64} : hotReadThreshold ≤ a ↔ hotReadThreshold.toNat ≤ a.toNat :=
  Iff.rfl

/-- The reads the sampler judges. -/
theorem toNat_reads_counted (h : Lagging m) : ((m.state.page p).counted j).reads.toNat =
    ((m.state.page p).accesses .dramread).toNat + ((m.state.page p).accesses .nvmread).toNat +
      1 := by
  have hd := h.stored p .dramread
  have hn := h.stored p .nvmread
  rw [HememPage.reads, UInt64.toNat_add, toNat_counted (h.stored p j),
    toNat_counted (h.stored p j)]
  cases j <;> simp only [update_self, ne_eq, reduceCtorEq, not_false_eq_true, update_of_ne] <;>
    omega

/-- The reads the eager scheme judges. -/
theorem counted_reads (h : Lagging m) :
    (UInt64.ofNat (m.counted j p .dramread + m.counted j p .nvmread)).toNat =
      ((m.state.page p).accesses .dramread).toNat / 2 ^ m.behind p +
        ((m.state.page p).accesses .nvmread).toNat / 2 ^ m.behind p + 1 := by
  have hd : ((m.state.page p).accesses .dramread).toNat / 2 ^ m.behind p ≤ 25 :=
    (Nat.div_le_self _ _).trans (h.stored p .dramread)
  have hn : ((m.state.page p).accesses .nvmread).toNat / 2 ^ m.behind p ≤ 25 :=
    (Nat.div_le_self _ _).trans (h.stored p .nvmread)
  rw [UInt64.toNat_ofNat', counted_apply h, counted_apply h]
  cases j
  all_goals
    simp only [update_apply, reduceCtorEq, if_true, if_false]
    generalize ((m.state.page p).accesses .dramread).toNat / 2 ^ m.behind p = d at hd ⊢
    generalize ((m.state.page p).accesses .nvmread).toNat / 2 ^ m.behind p = n at hn ⊢
    omega

end Judgement

section Schemes

/-- The counters after a sample, before the cooling event it may be. -/
theorem Lagging.sampled (h : Lagging m) (hb : ∀ i, m.count p i ≤ 24) (hh : Handled m.state j p s)
    (hc : ∀ i, ((s.page p).accesses i).toNat = m.counted j p i) :
    Lagging ⟨{ s with globalClock := m.state.globalClock },
      update m.count p (m.counted j p), update m.behind p 0⟩ where
  ring hot := by
    change (s.requestRing hot).Wf
    rw [hh.ring]
    split
    · exact (h.ring hot).put.1
    · exact h.ring hot
  clock x := by
    rcases eq_or_ne x p with rfl | hx
    · simp [hh.localClock]
    · simp only [update_of_ne hx, hh.other x hx, h.clock]
  count x i := by
    rcases eq_or_ne x p with rfl | hx
    · simp [hc]
    · simp only [update_of_ne hx, hh.other x hx, h.count]
  stored x i := by
    rcases eq_or_ne x p with rfl | hx
    · have hi := hb i
      simp only [hc, Tally.counted, update_apply]
      split_ifs with hj
      · rw [← hj]
        omega
      · omega
    · simp only [hh.other x hx]
      exact h.stored x i

/-- What holds of the two schemes all along. -/
structure Bounded (m : Tally) : Prop extends Lagging m where
  bound : ∀ p i, m.count p i ≤ 24

theorem Bounded.init (h : cooling.init m) : Bounded m where
  toLagging := .init h
  bound p i := by simp [h.2.1 p i]

theorem Bounded.cool (h : Bounded m) {m' : Tally} (hm : m' = { m.cool with state :=
    { m.state with globalClock := m.state.globalClock + 1 } }) : Bounded m' where
  toLagging := h.toLagging.cool hm
  bound p i := by
    subst hm
    exact (Nat.div_le_self _ _).trans (h.bound p i)

/-- A sample that the eager scheme agrees with keeps the two schemes together. -/
theorem Bounded.sample (h : Bounded m) (hr : m.Recent p) (hh : Handled m.state j p s)
    (hs : m.InStep j p) : Bounded (m.sample j p s) := by
  have hc := (accesses_eq_counted_iff h.toLagging hr hh).2 hs.1
  have hl := h.toLagging.sampled (h.bound p) hh hc
  have hb : ∀ x i, (x = p → i ≠ j) → update m.count p (m.counted j p) x i ≤ 24 := by
    intro x i hx
    have hi := h.bound x i
    rcases eq_or_ne x p with rfl | hne
    · simpa [Tally.counted, update_of_ne (hx rfl)] using hi
    · simpa [update_of_ne hne] using hi
  have hclock := hh.globalClock
  split at hclock
  · rename_i hgt
    have hne : s.globalClock ≠ m.state.globalClock := by
      rw [hclock]
      grind
    have he : m.sample j p s = _ := if_neg hne
    rw [he]
    have hl' := hl.cool rfl
    refine ⟨⟨hl'.ring, fun x => ?_, hl'.count, hl'.stored⟩, fun x i => ?_⟩
    · change s.globalClock - (s.page x).localClock = _
      rw [hclock]
      exact hl'.clock x
    have hx : update m.count p (m.counted j p) x i ≤ 25 :=
      (hl.count x i).trans_le ((Nat.div_le_self _ _).trans (hl.stored x i))
    change update m.count p (m.counted j p) x i / 2 ≤ 24
    omega
  · rename_i hle
    have he : m.sample j p s = _ := if_pos hclock
    rw [he]
    refine ⟨⟨hl.ring, fun x => ?_, hl.count, hl.stored⟩, fun x i => ?_⟩
    · change s.globalClock - (s.page x).localClock = _
      rw [hclock]
      exact hl.clock x
    · by_cases hx : x = p ∧ i = j
      · obtain ⟨rfl, rfl⟩ := hx
        have hi : ((s.page x).accesses i).toNat ≤ 24 := UInt64.not_lt.1 hle
        simpa [hc] using hi
      · exact hb x i fun hxp hij => hx ⟨hxp, hij⟩

theorem fresh_init (clock : UInt64) : cooling.init (Tally.fresh clock) where
  left hot := by cases hot <;> exact ⟨le_rfl, Nat.two_pos, Nat.two_pos⟩
  right := ⟨fun _ _ => ⟨rfl, rfl⟩, fun _ => by simp [Tally.fresh]⟩

theorem cooling_bounded (h : cooling.Reach Tick.InStep m) : Bounded m := by
  refine h.invariant (fun _ => Bounded.init) fun m t m' hm hC hs => ?_
  cases t with
  | sample j p =>
    obtain ⟨hva, s, hrun, rfl⟩ := hs
    exact hm.sample hC.1 ((samplePage_handled hva).ok hrun) hC.2
  | cool => exact hm.cool hs

/-- Along a run in step with the eager scheme, a sample is counted and judged as there exactly if
it is in step with it too. -/
theorem lazy_cooling_exact (h : cooling.Reach Tick.InStep m) (hva : (m.state.page p).va ≠ 0)
    (hr : m.Recent p) (hs : samplePage j p m.state = .ok ((), s)) :
    m.Agrees j p s ↔ m.InStep j p := by
  have hl := (cooling_bounded h).toLagging
  have hh := (samplePage_handled hva).ok hs
  unfold Tally.Agrees Tally.InStep
  refine and_congr (accesses_eq_counted_iff hl hr hh) ?_
  simp only [hh.ring]
  rw [requests_eq_iff hl, sampleRequests_of_va hva, request_eq_iff, threshold_le_iff,
    threshold_le_iff, toNat_reads_counted hl, counted_reads hl]

theorem Tick.next_step {m m' : Tally} {t : Tick} (h : t.next m = some m') :
    cooling.step m t m' := by
  cases t with
  | sample j page =>
    simp only [Tick.next] at h
    split at h
    · rename_i hva
      obtain ⟨⟨⟨⟩, s⟩, hs, rfl⟩ := Option.map_eq_some_iff.1 h
      exact ⟨hva, s, toOption_eq_some.1 hs, rfl⟩
    · cases h
  | cool => exact (Option.some.inj h).symm

/-- Samples of two pages with two cooling events between them, then samples of page 0 up to the
cooling event that its 25th count is, and one more. -/
theorem lazy_cooling_exact_third : ∃ m s, cooling.Reach Tick.InStep m ∧ m.state.globalClock = 3 ∧
    (m.state.page 0).accesses .dramread = 25 ∧ m.count 0 .dramread = 12 ∧
      samplePage .dramread 0 m.state = .ok ((), s) ∧ m.Agrees .dramread 0 s := by
  obtain ⟨m, hm, hP⟩ := System.drive_reach (S := cooling) Tick.next Tick.InStep
    (fun _ _ _ => Tick.next_step) (fun _ _ => id) (fresh_init 0)
    (List.replicate 3 (.sample .dramread 0) ++
      [.sample .nvmread 1, .cool, .sample .nvmread 1, .cool] ++
      List.replicate 25 (.sample .dramread 0))
    (fun m => decide ((m.state.page 0).va ≠ 0 ∧ m.Recent 0 ∧ m.InStep .dramread 0) &&
      decide (m.state.globalClock = 3 ∧ (m.state.page 0).accesses .dramread = 25 ∧
        m.count 0 .dramread = 12)) (by decide +kernel)
  simp only [Bool.and_eq_true, decide_eq_true_eq] at hP
  obtain ⟨⟨hva, hr, hin⟩, hclock, ha, hc⟩ := hP
  obtain ⟨⟨⟩, s, hs, -⟩ := (samplePage_handled (j := .dramread) hva).returns
  exact ⟨m, s, hm, hclock, ha, hc, hs, (lazy_cooling_exact hm hva hr hs).2 hin⟩

/-- A cooling event after its allocation decays the first sample of a page to nothing. -/
theorem first_sample_lost : ∃ m s, cooling.init m ∧ (m.state.page 0).va ≠ 0 ∧
    samplePage .dramread 0 m.state = .ok ((), s) ∧ ¬ m.Agrees .dramread 0 s := by
  obtain ⟨⟨⟩, s, hs, hh⟩ := (samplePage_handled (s := (Tally.fresh 1).state) (p := 0)
    (j := .dramread) (by decide)).returns
  refine ⟨_, s, fresh_init 1, by decide, hs, fun h => ?_⟩
  have hj := h.1 .dramread
  rw [hh.accesses] at hj
  exact absurd hj (by decide)

end Schemes

end HeMem

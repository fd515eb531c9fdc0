import HeMem.Counters
import HeMem.Proofs.Cooling
import HeMem.Proofs.Shifts

/-!
# The access counters are bounded

Between two samples of a page its counters stay or are cleared.  A sample that finds a counter one
above the threshold comes after a cooling event, so it halves the counter at least.
-/

namespace HeMem

open Hoare Function

variable {cfg : Config} {kernel : Kernel} {A : Allow} {m m' : Cooled} {s t : State} {op : Op}
  {v w : View} {p : PageId} {j : PbufType} {n : UInt64}

section Between

/-- The counters of a page are the ones it had, or clear. -/
def KeptOrClear (P Q : HememPage) : Prop := Q.accesses = P.accesses ∨ Q.accesses = fun _ => 0

theorem KeptOrClear.refl {P : HememPage} : KeptOrClear P P := .inl rfl

theorem KeptOrClear.trans {P Q R : HememPage} (h : KeptOrClear P Q) (h' : KeptOrClear Q R) : KeptOrClear P R := by
  rcases h' with h' | h'
  · exact h.imp h'.trans h'.trans
  · exact .inr h'

theorem keeps_update {f : PageId → HememPage} {x : PageId} {P : HememPage}
    (h : KeptOrClear (f x) P) (p : PageId) : KeptOrClear (f p) (update f x P p) := by
  rw [update_apply]
  split
  · rename_i hp
    subst hp
    exact h
  · exact .refl

theorem keeps_edit {x : PageId} {P : HememPage} (hw : w.page = update v.page x P)
    (h : KeptOrClear (v.page x) P) (p : PageId) : KeptOrClear (v.page p) (w.page p) :=
  hw ▸ keeps_update h p

/-- The page that moves keeps its counters, and those of the free page are cleared. -/
theorem keeps_exchange (up : Bool) (x np p : PageId) :
    KeptOrClear (v.page p) ((v.exchange up x np).page p) :=
  (keeps_update (f := v.page) (P := { v.page x with
    devdaxOffset := (v.page np).devdaxOffset, inDram := up, migrating := false }) (.inl rfl) p).trans
      (keeps_update (.inr rfl) p)

theorem Move.keeps (hm : Move A v w) (p : PageId) : KeptOrClear (v.page p) (w.page p) := by
  cases hm with
  | cursor | drain | stale | skip => exact .refl
  | serve hot hr hp hc hl => exact keeps_edit rfl (by exact .inl rfl) p
  | coolNvm hl hc => exact keeps_edit rfl (by exact .inl rfl) p
  | promote => exact keeps_exchange true _ _ p
  | demote => exact keeps_exchange false _ _ p
  | cool => exact keeps_edit rfl (by exact .inl rfl) p

theorem Moves.keeps (hm : Moves A v w) (p : PageId) : KeptOrClear (v.page p) (w.page p) :=
  hm.invariant (I := fun w => KeptOrClear (v.page p) (w.page p)) .refl fun _ _ h hm => h.trans (hm.keeps p)

/-- What is no sample leaves the counters of each page, or clears them. -/
theorem Effect.keeps (he : Effect A v op w) (hop : ∀ j p, op ≠ .sample j p) (p : PageId) :
    KeptOrClear (v.page p) (w.page p) := by
  cases he with
  | hint => exact .refl
  | allocate => exact keeps_edit rfl (by exact .inl rfl) p
  | fault hf =>
    obtain ⟨v₁, hm, ⟨dram, rfl, -, rfl⟩ | ⟨-, q, e, -, -, rfl⟩⟩ := hf
    · exact keeps_edit rfl (by exact .inl rfl) p
    · exact (hm.keeps p).trans (keeps_edit rfl (by exact .inl rfl) p)
  | assign => exact keeps_edit rfl (by exact .inl rfl) p
  | remove => exact keeps_edit rfl (by exact .inr rfl) p
  | sample j hs => exact absurd rfl (hop j _)
  | pass hm => exact hm.keeps p

end Between

section Samples

/-- The counters of a page sampled in time, as numbers. -/
theorem Handled.toNat_counter (h : Handled s j p t) {b : ℕ} (hd : s.decay p = UInt64.ofNat b)
    (hb : b < 64) (hj : ((s.page p).accesses j).toNat ≤ 25) (i : PbufType) :
    ((t.page p).accesses i).toNat =
      update (fun i => ((s.page p).accesses i).toNat) j (((s.page p).accesses j).toNat + 1) i /
        2 ^ b := by
  rw [h.accesses, ← State.decay, hd, toNat_shiftRight_ofNat hb, toNat_counted hj]

theorem le_twentyFive : n ≤ pebsCoolingThreshold + 1 ↔ n.toNat ≤ 25 := UInt64.le_iff_toNat_le

theorem eq_twentyFive : n = pebsCoolingThreshold + 1 ↔ n.toNat = 25 := UInt64.toNat_inj.symm

theorem gt_twentyFour : n > pebsCoolingThreshold ↔ 24 < n.toNat := UInt64.lt_iff_toNat_lt

/-- After a sample in time only the counter of its type can be above the threshold. -/
theorem Cooled.Bounded.counter (h : m.Bounded) (hr : m.behind p < 64)
    (hd : m.state.decay p = UInt64.ofNat (m.behind p)) (hh : Handled m.state j p t)
    (i : PbufType) : ((t.page p).accesses i).toNat ≤ 25 ∧
      (((t.page p).accesses i).toNat = 25 → i = j) := by
  have hle : ∀ i, ((m.state.page p).accesses i).toNat ≤ 25 := fun i => le_twentyFive.1 (h.le p i)
  rw [hh.toNat_counter hd hr (hle j)]
  have hcount : update (fun i => ((m.state.page p).accesses i).toNat) j
      (((m.state.page p).accesses j).toNat + 1) i ≤ if i = j then 26 else 25 := by
    rw [update_apply]
    split
    · exact Nat.succ_le_succ (hle j)
    · exact hle i
  rcases Nat.eq_zero_or_pos (m.behind p) with h0 | hpos
  · have hlt : ∀ i, ((m.state.page p).accesses i).toNat ≤ 24 := fun i => by
      have hne : ((m.state.page p).accesses i).toNat ≠ 25 := fun he => by
        have hp := h.passed p i (eq_twentyFive.2 he)
        omega
      have := hle i
      omega
    rw [h0, pow_zero, Nat.div_one, update_apply]
    split
    · rename_i hi
      exact ⟨Nat.succ_le_succ (hlt j), fun _ => hi⟩
    · have := hlt i
      exact ⟨by omega, fun he => absurd he (by omega)⟩
  · have h2 : 2 ≤ 2 ^ m.behind p := Nat.le_self_pow hpos.ne' 2
    have hdiv := (Nat.div_le_div_left h2 Nat.two_pos).trans (Nat.div_le_div_right hcount)
    have h13 : (if i = j then 26 else 25) / 2 ≤ 13 := by split <;> decide
    exact ⟨by omega, fun he => absurd he (by omega)⟩

theorem sampled_page (hva : (s.page p).va ≠ 0) (hrun : samplePage j p s = .ok ((), t)) :
    Handled s j p t := (samplePage_handled hva).ok hrun

end Samples

section Runs

/-- What the runs keep whose samples come in time. -/
structure Cooled.Inv (m : Cooled) : Prop extends m.Bounded where
  counted : m.Counted
  clock : m.state.globalClock = UInt64.ofNat m.events
  behind : ∀ p, m.behind p ≤ m.events

theorem Cooled.Inv.init (h : (cooled cfg kernel).init m) : m.Inv := by
  obtain ⟨hc, he⟩ := h
  have hzero : ∀ p j, (m.state.page p).accesses j = 0 := fun (p : ℕ) j => by
    obtain ⟨-, hv⟩ := pebsInit_sat.ok hc.1
    change (m.state.view.page p).accesses j = 0
    rw [hv]
    dsimp only [View.initial, initPage]
    split_ifs <;> rfl
  refine ⟨⟨fun p j => ?_, fun p j hp => ?_⟩, .init hc, ?_, fun p => ?_⟩
  · rw [hzero]
    exact UInt64.zero_le
  · rw [hzero] at hp
    exact absurd hp (by decide)
  · rw [globalClock_initial hc.1, he]
    rfl
  · rw [hc.2]
    exact Nat.zero_le _

theorem Cooled.Inv.sample (h : m.Inv) (hva : (m.state.page p).va ≠ 0) (hr : m.behind p < 64)
    (hs : (cooled cfg kernel).step m (.sample j p) m') : m'.Inv := by
  obtain ⟨hstep, he⟩ := hs
  have hb := hstep.2
  have hh := sampled_page hva hstep.1
  have hcount := h.toBounded.counter hr (h.counted p) hh
  have hclock := hh.globalClock
  simp only [Op.events, hva, ne_eq, not_false_eq_true, true_and] at he
  simp only [Op.behind, hva, if_false] at hb
  have hother : ∀ x, x ≠ p → m.behind x ≤ m'.behind x := fun x hx => by
    rw [hb]
    split
    · exact Nat.le_succ_of_le (update_of_ne hx 0 m.behind).ge
    · exact (update_of_ne hx 0 m.behind).ge
  have hreset : ∀ x, update m.behind p 0 x ≤ m.events := fun x => by
    rw [update_apply]
    split
    · exact Nat.zero_le _
    · exact h.behind x
  refine ⟨⟨fun x i => ?_, fun x i hx => ?_⟩, h.counted.step hstep, ?_, fun x => ?_⟩
  · rcases eq_or_ne x p with rfl | hx
    · exact le_twentyFive.2 (hcount i).1
    · rw [hh.other x hx]
      exact h.le x i
  · rcases eq_or_ne x p with rfl | hne
    · have hi := eq_twentyFive.1 hx
      obtain rfl := (hcount i).2 hi
      have hgt : (m'.state.page x).accesses i > pebsCoolingThreshold :=
        gt_twentyFour.2 (by omega)
      rw [hb, if_pos hgt]
      exact Nat.succ_pos _
    · rw [hh.other x hne] at hx
      exact (h.passed x i hx).trans_le (hother x hne)
  · rw [hclock, he, h.clock]
    split
    · rw [UInt64.ofNat_add]
      rfl
    · rfl
  · rw [hb, he]
    split
    · exact Nat.succ_le_succ (hreset x)
    · exact hreset x

/-- What is no sample of a page that has an address leaves the clocks, and clears counters or leaves
them. -/
theorem Cooled.Inv.keeps (h : m.Inv) (hs : (cooled cfg kernel).step m op m')
    (hk : ∀ p, KeptOrClear (m.state.page p) (m'.state.page p))
    (hc : m'.state.globalClock = m.state.globalClock) (hb : m'.behind = m.behind)
    (he : m'.events = m.events) : m'.Inv := by
  refine ⟨⟨fun p j => ?_, fun p j hp => ?_⟩, h.counted.step hs.1, ?_, fun p => ?_⟩
  · rcases hk p with hp | hp
    · rw [hp]
      exact h.le p j
    · rw [hp]
      exact UInt64.zero_le
  · rw [hb]
    rcases hk p with hk | hk
    · rw [hk] at hp
      exact h.passed p j hp
    · rw [hk] at hp
      exact absurd (show (0 : UInt64) = pebsCoolingThreshold + 1 from hp) (by decide)
  · rw [hc, he]
    exact h.clock
  · rw [hb, he]
    exact h.behind p

theorem Cooled.Inv.step (h : m.Inv) (hr : (policy cfg kernel).Reach (Op.Legal cfg) m.state)
    (hl : op.Legal cfg m.state) (hp : op.Prompt m) (hs : (cooled cfg kernel).step m op m') :
    m'.Inv := by
  obtain ⟨hg, -⟩ := reach_all hr
  have heff := ((Op.run_effect hg hl.within).ok hs.1.1).2
  have hother : (∀ j p, op ≠ .sample j p) → m'.behind = m.behind → m'.events = m.events →
      m'.Inv := fun hop hb he => by
    refine h.keeps hs (heff.keeps hop) ?_ hb he
    exact congrArg Prod.fst ((Op.run_clocks hop m.state).ok hs.1.1)
  cases op with
  | sample j p =>
    by_cases hva : (m.state.page p).va = 0
    · have hsame : m'.state = m.state := (samplePage_of_va hva).ok hs.1.1
      refine h.keeps hs (fun x => ?_) (by rw [hsame]) ?_ ?_
      · rw [hsame]
        exact .refl
      · rw [hs.1.2, Op.behind, if_pos hva]
      · rw [hs.2, Op.events, if_neg fun hn => hn.1 hva]
        rfl
    · exact h.sample hva (hp hva) hs
  | _ => exact hother (by simp) hs.1.2 hs.2

/-- A counter one above the threshold is behind the global clock, as long as that one does not
wrap. -/
theorem Cooled.Inv.localClock_lt (h : m.Inv) (he : m.events < 2 ^ 64)
    (hp : (m.state.page p).accesses j = pebsCoolingThreshold + 1) :
    (m.state.page p).localClock < m.state.globalClock := by
  have hpos := h.passed p j hp
  have hle := h.behind p
  have hd : m.state.globalClock - (m.state.page p).localClock = UInt64.ofNat (m.behind p) :=
    h.counted p
  have hlocal : (m.state.page p).localClock =
      UInt64.ofNat m.events - UInt64.ofNat (m.behind p) := by
    rw [← hd, ← h.clock]
    grind
  have hn : (UInt64.ofNat m.events).toNat = m.events := UInt64.toNat_ofNat_of_lt' he
  have hb : (UInt64.ofNat (m.behind p)).toNat = m.behind p :=
    UInt64.toNat_ofNat_of_lt' (hle.trans_lt he)
  rw [hlocal, h.clock, UInt64.lt_iff_toNat_lt, UInt64.toNat_sub_of_le, hn, hb]
  · omega
  · rw [UInt64.le_iff_toNat_le, hn, hb]
    exact hle

/-- While samples of a page come within 64 cooling events, its counters stay bounded. -/
theorem accesses_bounded
    (h : (cooled cfg kernel).Reach (fun m op => op.Legal cfg m.state ∧ op.Prompt m) m) :
    m.Bounded ∧ (m.events < 2 ^ 64 → ∀ p j,
      (m.state.page p).accesses j = pebsCoolingThreshold + 1 →
        (m.state.page p).localClock < m.state.globalClock) := by
  have hi : (policy cfg kernel).Reach (Op.Legal cfg) m.state ∧ m.Inv := by
    refine h.invariant (I := fun m => (policy cfg kernel).Reach (Op.Legal cfg) m.state ∧ m.Inv)
      (fun m hm => ?_) fun m op m' hm hl hs => ?_
    · exact ⟨.init hm.1.1, .init hm⟩
    · exact ⟨hm.1.step hl.1 hs.1.1, hm.2.step hm.1 hl.1 hl.2 hs⟩
  exact ⟨hi.2.toBounded, fun he p j hp => hi.2.localClock_lt he hp⟩

theorem cooled_policy
    (h : (cooled cfg kernel).Reach (fun m op => op.Legal cfg m.state ∧ op.Prompt m) m) :
    (policy cfg kernel).Reach (Op.Legal cfg) m.state := by
  induction h with
  | init hi => exact .init hi.1.1
  | step _ hl hs ih => exact ih.step hl.1 hs.1.1

section Paced

/-- Page 0 has been sampled in time, and its count, how far its clock is behind and the global clock
are these. -/
structure Paced (x : UInt64 × UInt64 × UInt64) (m : Cooled) : Prop where
  reach : (cooled fourFrames Kernel.fresh).Reach
    (fun m op => op.Legal fourFrames m.state ∧ op.Prompt m) m
  va : (m.state.page 0).va ≠ 0
  count : (m.state.page 0).accesses .dramread = x.1
  decay : m.state.decay 0 = x.2.1
  behind : m.behind 0 ≤ 1
  clock : m.state.globalClock = x.2.2

theorem Paced.beat {x : UInt64 × UInt64 × UInt64} (h : Paced x m) :
    ∃ m', Paced (beat x) m' := by
  obtain ⟨t, ht, hh, hva, hcount, hdecay, hclock⟩ :=
    samplePage_beat (reach_all (cooled_policy h.reach)).1 h.va h.count h.decay h.clock
  let op : Op := .sample .dramread 0
  have hl : op.Legal fourFrames m.state ∧ op.Prompt m :=
    ⟨show 0 < fourFrames.pages by decide, fun _ => h.behind.trans_lt (by decide)⟩
  refine ⟨⟨⟨t, op.behind m.state t m.behind⟩, m.events + op.events m.state t⟩,
    h.reach.step hl ⟨⟨ht, rfl⟩, rfl⟩, ?_, hcount, hdecay, ?_, hclock⟩
  · rw [hva]
    exact h.va
  · change Op.behind m.state t m.behind (.sample .dramread 0) 0 ≤ 1
    simp only [Op.behind, h.va, if_false]
    split <;> simp

theorem Paced.iterate {x : UInt64 × UInt64 × UInt64} (h : Paced x m) :
    ∀ n : ℕ, ∃ m', Paced (HeMem.beat^[n] x) m'
  | 0 => ⟨m, h⟩
  | n + 1 => by
    obtain ⟨m', hm⟩ := h.iterate n
    rw [Function.iterate_succ_apply']
    exact hm.beat

/-- A run without samples has no cooling events. -/
theorem unsampled_cooled
    (h : (policy cfg kernel).Reach (fun s op => op.Legal cfg s ∧ ∀ j p, op ≠ .sample j p) s) :
    (cooled cfg kernel).Reach (fun m op => op.Legal cfg m.state ∧ op.Prompt m)
      ⟨⟨s, fun _ => 0⟩, 0⟩ := by
  induction h with
  | init hi => exact .init ⟨⟨hi, rfl⟩, rfl⟩
  | @step s t op _ hl hs ih =>
    cases op with
    | sample j p => exact absurd rfl (hl.2 j p)
    | _ => exact ih.step ⟨hl.1, trivial⟩ ⟨⟨hs, rfl⟩, rfl⟩

theorem paced_start : ∃ m, Paced (0, 0, 0) m := by
  obtain ⟨s, hs, hP⟩ := boot_reach fourFrames Kernel.fresh
    (C := fun s op => op.Legal fourFrames s ∧ ∀ j p, op ≠ .sample j p)
    [.allocate, .assign 0 hugepageSize]
    (fun s => decide ((s.page 0).va ≠ 0 ∧ (s.page 0).accesses .dramread = 0 ∧ s.decay 0 = 0 ∧
      s.globalClock = 0))
    (fun op ho s hl => ⟨hl, by rintro j p rfl; simp at ho⟩) (by decide +kernel)
  obtain ⟨hva, hcount, hdecay, hclock⟩ := of_decide_eq_true hP
  exact ⟨_, unsampled_cooled hs, hva, hcount, hdecay, Nat.zero_le _, hclock⟩

end Paced

/-- After 25 samples the counter is one above the threshold. -/
theorem accesses_bounded_first : ∃ m : Cooled, m.Bounded ∧
    (m.state.page 0).accesses .dramread = pebsCoolingThreshold + 1 := by
  obtain ⟨m, hm⟩ := paced_start
  obtain ⟨m', hm'⟩ := hm.iterate (13 * 0 + 25)
  rw [beat_events 0] at hm'
  exact ⟨m', (accesses_bounded hm'.reach).1, hm'.count⟩

/-- After 2 ^ 64 cooling events the global clock is at zero again. -/
theorem local_clock_not_behind : ∃ m : Cooled,
    (cooled fourFrames Kernel.fresh).Reach
      (fun m op => op.Legal fourFrames m.state ∧ op.Prompt m) m ∧
    (m.state.page 0).accesses .dramread = pebsCoolingThreshold + 1 ∧
    ¬ (m.state.page 0).localClock < m.state.globalClock := by
  obtain ⟨m, hm⟩ := paced_start
  obtain ⟨k, hk⟩ : ∃ k : ℕ, k + 1 = 2 ^ 64 := ⟨2 ^ 64 - 1, rfl⟩
  obtain ⟨m', hm'⟩ := hm.iterate (13 * k + 25)
  rw [beat_events k, hk] at hm'
  have hzero : m'.state.globalClock = 0 := hm'.clock
  refine ⟨m', hm'.reach, hm'.count, ?_⟩
  rw [hzero]
  exact UInt64.not_lt_zero

end Runs

end HeMem

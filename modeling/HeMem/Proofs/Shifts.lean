import HeMem.Proofs.Lists
import HeMem.Proofs.Sample
import HeMem.Proofs.Sweep
import HeMem.Shifts

/-!
# When the decay shifts are defined

Only a sample sets the clock of a page, and only a sample is a cooling event.  So along every run
the count of a shift is the number of cooling events since the last sample of the page struct, up
to the width of the clocks, and nothing bounds that: neither handing the struct out anew nor a
cooling sweep brings its clock up to date.
-/

namespace HeMem

open Hoare Function

variable {cfg : Config} {kernel : Kernel} {m m' : Clocked} {s t u : State} {op : Op} {p : PageId}
  {j : PbufType} {dram : Bool} {ahead behind cold : List PageId} {current : Option PageId}

section Clocks

/-- All clocks. -/
def State.clocks (s : State) : UInt64 × (PageId → UInt64) :=
  (s.globalClock, fun p => (s.page p).localClock)

theorem calm_clocks : Calm State.clocks where
  fifo _ _ := rfl
  page s p P hP := by
    unfold State.clocks
    refine Prod.ext rfl (funext fun x => ?_)
    rcases eq_or_ne x p with rfl | hx
    · simp [hP]
    · simp [update_of_ne hx]
  kernel _ _ := rfl
  calls _ _ := rfl
  request _ hot _ := by cases hot <;> rfl
  free _ _ := rfl
  cur _ dram _ := by cases dram <;> rfl
  startDram _ _ _ := rfl
  startNvm _ _ _ := rfl

theorem State.decay_of_clocks (h : t.clocks = s.clocks) (p : PageId) : t.decay p = s.decay p := by
  have h1 : t.globalClock = s.globalClock := congrArg Prod.fst h
  have h2 : (t.page p).localClock = (s.page p).localClock := congrFun (congrArg Prod.snd h) p
  unfold State.decay
  rw [h1, h2]

theorem samplePage_of_va (hva : (s.page p).va = 0) :
    Sat (samplePage j p) (fun _ t => t = s) (fun _ => False) s := by
  unfold samplePage
  rw [sat_getPage, sat_ite]
  exact ⟨fun h => absurd hva h, fun _ => rfl⟩

/-- What is no sample leaves the clocks alone. -/
theorem Op.run_clocks (hop : ∀ j p, op ≠ .sample j p) : Frames State.clocks (op.run cfg) := by
  cases op with
  | hint tier persistence priority => exact fun _ => rfl
  | allocate => exact calm_clocks.pebsAllocatePage.bind fun _ => frames_pure
  | fault => exact (calm_clocks.pebsPagefault fun _ => rfl).bind fun _ => frames_pure
  | assign page va => exact fun s => calm_clocks.page s page _ rfl
  | remove page => exact calm_clocks.pebsRemovePage
  | sample j page => exact absurd rfl (hop j page)
  | pass => exact calm_clocks.pebsPolicyPass

/-- The clock of every page is behind by the cooling events since it was set. -/
def Clocked.Counted (m : Clocked) : Prop := ∀ p, m.state.decay p = UInt64.ofNat (m.behind p)

theorem globalClock_initial (h : pebsInit cfg (State.blank kernel) = .ok ((), s)) :
    s.globalClock = 0 := by
  have hcalm : Calm State.globalClock :=
    ⟨fun _ _ => rfl, fun _ _ _ _ => rfl, fun _ _ => rfl, fun _ _ => rfl,
      fun _ hot _ => by cases hot <;> rfl, fun _ _ => rfl, fun _ dram _ => by cases dram <;> rfl,
      fun _ _ _ => rfl, fun _ _ _ => rfl⟩
  exact (hcalm.pebsInit (fun _ _ => rfl) (State.blank kernel)).ok h

theorem Clocked.Counted.init (h : (clocked cfg kernel).init m) : m.Counted := by
  intro (p : ℕ)
  obtain ⟨-, hv⟩ := pebsInit_sat.ok h.1
  have hp : (m.state.page p).localClock = 0 := by
    change (m.state.view.page p).localClock = 0
    rw [hv]
    dsimp only [View.initial, initPage]
    split_ifs <;> rfl
  unfold State.decay
  rw [globalClock_initial h.1, hp, h.2, UInt64.sub_self]
  rfl

theorem Clocked.Counted.step (h : m.Counted) (hs : (clocked cfg kernel).step m op m') :
    m'.Counted := by
  obtain ⟨hrun, hb⟩ := hs
  intro p
  rw [hb]
  cases op with
  | sample j page =>
    by_cases hva : (m.state.page page).va = 0
    · have he : m'.state = m.state := (samplePage_of_va hva).ok hrun
      rw [Op.behind, if_pos hva, he]
      exact h p
    have hh := (samplePage_handled hva).ok hrun
    -- the difference of the clocks before the cooling event that the sample may be
    have hset : m.state.globalClock - (m'.state.page p).localClock =
        UInt64.ofNat (update m.behind page 0 p) := by
      rcases eq_or_ne p page with rfl | hp
      · rw [hh.localClock, update_self]
        simp
      · rw [hh.other p hp, update_of_ne hp]
        exact h p
    unfold State.decay
    rw [Op.behind, if_neg hva, hh.globalClock]
    split
    · rw [UInt64.ofNat_add, ← hset]
      grind
    · exact hset
  | _ =>
    have hc : m'.state.clocks = m.state.clocks := (Op.run_clocks (by simp) m.state).ok hrun
    rw [State.decay_of_clocks hc]
    exact h p

end Clocks

section Sweeps

theorem Standing.decay (h : Standing s dram ahead behind cold current t) (p : PageId) :
    t.decay p = s.decay p := by
  unfold State.decay
  rw [h.clock, (h.reads p).2]

/-- The loop shifts once for each page that it comes to. -/
theorem Standing.coolShifts : ∀ {turns : ℕ} {ahead behind cold : List PageId}
    {current : Option PageId} {t : State}, Standing s dram ahead behind cold current t →
      coolShifts (hotList dram) (coldList dram) dram turns current t =
        (ahead.take turns).map s.decay
  | 0, _, _, _, _, _, _ => rfl
  | turns + 1, ahead, behind, cold, current, t, h => by
    obtain ⟨r, f, hn, rfl, hr⟩ := h.nextPage.returns
    have hnext : onFifo (HeMem.nextPage (hotList dram) current) t = .ok (r, t) := by
      unfold onFifo
      rw [hn]
    unfold HeMem.coolShifts
    rw [hnext]
    rcases ahead with _ | ⟨p, ahead⟩
    · obtain rfl : r = none := hr
      rfl
    obtain rfl : r = some p := hr
    obtain ⟨c, u, hc, hu⟩ := h.coolPage.returns
    obtain ⟨behind', cold', hs, -⟩ := hu.standing
    dsimp only
    rw [if_pos (h.inDram p (by simp)), hc, List.take_succ_cons, List.map_cons, h.decay]
    exact congrArg _ hs.coolShifts

theorem State.Sweepable.shifts (h : s.Sweepable dram) :
    s.sweepShifts dram = ((s.ahead dram).take coolingPages).map s.decay := by
  obtain ⟨behind, hs⟩ := h.standing
  obtain ⟨hf, hp, hc⟩ := @State.begun_steady s dram (hotList dram)
  unfold State.sweepShifts
  rw [if_pos h.need]
  exact (hs.congr hf hp hc).coolShifts

end Sweeps

section Runs

theorem toNat_lt_iff {n : ℕ} : UInt64.ofNat n < 64 ↔ n % 2 ^ 64 < 64 := by
  rw [UInt64.lt_iff_toNat_lt, UInt64.toNat_ofNat']
  rfl

/-- Where the clocks are behind as counted, the shifts of a sweep are defined if the pages it comes
to are recent. -/
theorem sweep_defined_iff (hc : ∀ p, s.decay p = UInt64.ofNat (m.behind p)) (hg : s.Good)
    (hI : Inv cfg.pages Allow.legal s.view) :
    (∀ n ∈ s.sweepShifts dram, n < 64) ↔ m.Sweeps dram s := by
  unfold Clocked.Sweeps Clocked.Recent
  rcases hn : s.needCool dram
  · simp [State.sweepShifts, hn]
  · have hs : s.Sweepable dram :=
      ⟨hg.fifo, hn, fun c hcur => hg.fifo.mem_contents.2 (hI.cursor dram c hcur), fun p hp => ?_⟩
    · rw [hs.shifts]
      simp only [List.forall_mem_map, hc, toNat_lt_iff, forall_const]
    · have ht := hI.tier p _ (hg.fifo.mem_contents.1 hp)
      rwa [dram_hotList] at ht

theorem calm_beforeCooling : Frames State.clocks (beforeCooling cfg) :=
  calm_clocks.beforeMigration.bind fun _ => frames_listLength.bind fun _ =>
    calm_clocks.migrateLoop

theorem calm_coolCall : Frames State.clocks (coolCall dram) :=
  frames_get.bind fun _ => calm_clocks.partialCool.bind fun _ _ => calm_clocks.cur _ _ _

theorem clocked_policy (h : (clocked cfg kernel).Reach (fun m op => op.Legal cfg m.state) m) :
    (policy cfg kernel).Reach (Op.Legal cfg) m.state := by
  induction h with
  | init hi => exact .init hi.1
  | step _ hl hs ih => exact ih.step hl hs.1

theorem clocked_counted {C : Clocked → Op → Prop} (h : (clocked cfg kernel).Reach C m) :
    m.Counted :=
  h.invariant (fun _ => .init) fun _ _ _ hm _ hs => hm.step hs

/-- At every step of every run, the shifts are defined if and only if the pages they are for are
recent. -/
theorem decay_defined_iff (h : (clocked cfg kernel).Reach (fun m op => op.Legal cfg m.state) m) :
    (∀ n ∈ op.shifts cfg m.state, n < 64) ↔ op.Timely cfg m := by
  have hcount := clocked_counted h
  obtain ⟨hg, hI⟩ := reach_all (clocked_policy h)
  cases op with
  | sample j page =>
    by_cases hva : (m.state.page page).va = 0
    · simp [Op.shifts, Op.Timely, hva]
    · simp [Op.shifts, Op.Timely, hva, hcount page, Clocked.Recent, toNat_lt_iff]
  | pass =>
    unfold Op.shifts Op.Timely
    rcases hb : beforeCooling cfg m.state with e | ⟨b, s⟩
    · simp
    cases b
    · simp
    have hbefore : Sat (beforeCooling cfg) _ _ m.state :=
      migration_sat (A := Allow.legal) hg (.inl trivial) (.inl trivial)
    obtain ⟨hg₁, hm₁, -⟩ := hbefore.ok hb
    have hI₁ := inv_kept.moves hI hm₁
    have hc₁ := State.decay_of_clocks ((calm_beforeCooling m.state).ok hb)
    have hfirst := @sweep_defined_iff cfg m s true (fun p => (hc₁ p).trans (hcount p)) hg₁ hI₁
    simp only [Except.ok.injEq, Prod.mk.injEq, true_and, forall_eq']
    unfold State.passShifts
    rw [← hfirst, List.forall_mem_append]
    refine and_congr_right' ?_
    rcases hcool : coolCall true s with e | ⟨⟨⟩, t⟩
    · simp
    have hcall : Sat (coolCall true) _ _ s := (partialCool_call_spec cfg Allow.legal true).at hg₁ rfl
    obtain ⟨hg₂, hm₂⟩ := hcall.ok hcool
    have hc₂ := State.decay_of_clocks ((calm_coolCall s).ok hcool)
    simp only [Except.ok.injEq, Prod.mk.injEq, true_and, forall_eq']
    exact sweep_defined_iff (fun p => (hc₂ p).trans ((hc₁ p).trans (hcount p))) hg₂
      (inv_kept.moves hI₁ hm₂)
  | _ => simp [Op.shifts, Op.Timely]

end Runs

section Unbounded

/-- A count of a page, how far its clock is behind and the global clock, after one more sample of
the page. -/
def beat (x : UInt64 × UInt64 × UInt64) : UInt64 × UInt64 × UInt64 :=
  let count := (x.1 + 1) >>> x.2.1
  if count > pebsCoolingThreshold then (count, 1, x.2.2 + 1) else (count, 0, x.2.2)

/-- In a reachable state pages 0 and 1 have addresses, and page 1 has not been sampled. -/
structure Beating (x : UInt64 × UInt64 × UInt64) (s : State) : Prop where
  reach : (policy fourFrames Kernel.fresh).Reach (Op.Legal fourFrames) s
  va : (s.page 0).va ≠ 0 ∧ (s.page 1).va ≠ 0
  count : (s.page 0).accesses .dramread = x.1
  decay : s.decay 0 = x.2.1
  clock : s.globalClock = x.2.2
  other : (s.page 1).localClock = 0

/-- One more sample of page 0. -/
theorem samplePage_beat {x : UInt64 × UInt64 × UInt64} (hg : s.Good) (hva : (s.page 0).va ≠ 0)
    (hc : (s.page 0).accesses .dramread = x.1) (hd : s.decay 0 = x.2.1)
    (hclock : s.globalClock = x.2.2) :
    ∃ t, samplePage .dramread 0 s = .ok ((), t) ∧ Handled s .dramread 0 t ∧
      (∀ p, (t.page p).va = (s.page p).va) ∧ (t.page 0).accesses .dramread = (beat x).1 ∧
      t.decay 0 = (beat x).2.1 ∧ t.globalClock = (beat x).2.2 := by
  obtain ⟨⟨⟩, t, ht, hh, -, hs⟩ := ((samplePage_handled (j := .dramread) hva).and
    (samplePage_spec.at hg rfl)).returns
  have hva' : ∀ p, (t.page p).va = (s.page p).va := fun p => by
    change (t.view.page p).va = (s.view.page p).va
    rcases hs with he | ⟨-, hot, l, c, r, a, n, -, he⟩
    · rw [he]
    · rw [he, View.edit_page, update_apply]
      split
      · rename_i hp
        subst hp
        rfl
      · rfl
  have hcount : (t.page 0).accesses .dramread = (x.1 + 1) >>> x.2.1 := by
    rw [hh.accesses, HememPage.counted, ← hc, ← hd]
    simp [State.decay]
  have hnow := hh.globalClock
  rw [hcount, hclock] at hnow
  refine ⟨t, ht, hh, hva', ?_, ?_, ?_⟩
  · rw [hcount]
    unfold HeMem.beat
    dsimp only
    split <;> rfl
  · unfold State.decay HeMem.beat
    rw [hnow, hh.localClock, hclock]
    dsimp only
    split <;> grind
  · rw [hnow]
    unfold HeMem.beat
    dsimp only
    split <;> rfl

theorem Beating.beat {x : UInt64 × UInt64 × UInt64} (h : Beating x s) :
    ∃ t, Beating (beat x) t := by
  obtain ⟨t, ht, hh, hva, hcount, hdecay, hclock⟩ :=
    samplePage_beat (reach_all h.reach).1 h.va.1 h.count h.decay h.clock
  have hl : Op.Legal fourFrames s (.sample .dramread 0) := show 0 < fourFrames.pages by decide
  refine ⟨t, h.reach.step hl ht, ?_, hcount, hdecay, hclock,
    (hh.other 1 (by decide)).symm ▸ h.other⟩
  rw [hva, hva]
  exact h.va

theorem Beating.iterate {x : UInt64 × UInt64 × UInt64} (h : Beating x s) :
    ∀ n : ℕ, ∃ t, Beating (HeMem.beat^[n] x) t
  | 0 => ⟨s, h⟩
  | n + 1 => by
    obtain ⟨t, ht⟩ := h.iterate n
    rw [Function.iterate_succ_apply']
    exact ht.beat

/-- Where the global clock starts makes no difference. -/
theorem iterate_beat_add (x : UInt64 × UInt64 × UInt64) (clock : UInt64) : ∀ n : ℕ,
    HeMem.beat^[n] (x.1, x.2.1, clock + x.2.2) = ((HeMem.beat^[n] x).1, (HeMem.beat^[n] x).2.1,
      clock + (HeMem.beat^[n] x).2.2)
  | 0 => rfl
  | n + 1 => by
    simp only [Function.iterate_succ_apply', iterate_beat_add x clock n]
    unfold HeMem.beat
    dsimp only
    split
    · rw [UInt64.add_assoc]
    · rfl

/-- From one cooling event to the next it takes 13 samples. -/
theorem beat_cycle (clock : UInt64) : HeMem.beat^[13] (25, 1, clock) = (25, 1, clock + 1) := by
  have hcycle : HeMem.beat^[13] (25, 1, 0) = (25, 1, 1) := by decide +kernel
  have h := iterate_beat_add (25, 1, 0) clock 13
  rwa [hcycle, UInt64.add_zero] at h

theorem beat_events : ∀ k : ℕ, HeMem.beat^[13 * k + 25] (0, 0, 0) = (25, 1, UInt64.ofNat (k + 1))
  | 0 => by decide +kernel
  | k + 1 => by
    rw [Nat.mul_succ, Nat.add_right_comm, Nat.add_comm, Function.iterate_add_apply, beat_events k,
      beat_cycle, ← UInt64.ofNat_one, ← UInt64.ofNat_add]

theorem policy_clocked {C : State → Op → Prop} (h : (policy cfg kernel).Reach C s) :
    ∃ m, (clocked cfg kernel).Reach (fun m op => C m.state op) m ∧ m.state = s := by
  induction h with
  | init hi => exact ⟨⟨_, fun _ => 0⟩, .init ⟨hi, rfl⟩, rfl⟩
  | @step _ s op _ hl hs ih =>
    obtain ⟨m, hm, rfl⟩ := ih
    exact ⟨⟨s, op.behind m.state s m.behind⟩, hm.step hl ⟨hs, rfl⟩, rfl⟩

/-- Two pages are allocated and given addresses. -/
theorem beating_start : ∃ s, Beating (0, 0, 0) s := by
  obtain ⟨s, hs, hP⟩ := boot_reach fourFrames Kernel.fresh (C := Op.Legal fourFrames)
    [.allocate, .assign 0 hugepageSize, .allocate, .assign 1 (2 * hugepageSize)]
    (fun s => decide ((s.page 0).va ≠ 0 ∧ (s.page 1).va ≠ 0) &&
      decide ((s.page 0).accesses .dramread = 0 ∧ s.decay 0 = 0 ∧ s.globalClock = 0 ∧
        (s.page 1).localClock = 0)) (fun _ _ _ h => h) (by decide +kernel)
  simp only [Bool.and_eq_true, decide_eq_true_eq] at hP
  obtain ⟨hva, h1, h2, h3, h4⟩ := hP
  exact ⟨s, hs, hva, h1, h2, h3, h4⟩

/-- The first sample of a page after the 63 cooling events that the samples of another have made. -/
theorem decay_defined_first : ∃ m : Clocked,
    (clocked fourFrames Kernel.fresh).Reach (fun m op => op.Legal fourFrames m.state) m ∧
      m.state.globalClock = 63 ∧ (Op.sample .dramread 1).shifts fourFrames m.state = [63] ∧
        ∀ n ∈ (Op.sample .dramread 1).shifts fourFrames m.state, n < 64 := by
  obtain ⟨s, hs⟩ := beating_start
  obtain ⟨t, ht⟩ := hs.iterate (13 * 62 + 25)
  rw [beat_events 62] at ht
  obtain ⟨m, hm, rfl⟩ := policy_clocked ht.reach
  have hd : m.state.decay 1 = 63 := by
    rw [State.decay, ht.clock, ht.other]
    decide
  refine ⟨m, hm, ht.clock, by rw [Op.shifts, if_pos ht.va.2, hd],
    (decay_defined_iff hm).2 fun _ => ?_⟩
  have hb := clocked_counted hm 1
  rw [hd] at hb
  unfold Clocked.Recent
  rw [← toNat_lt_iff, ← hb]
  decide

/-- While one page is sampled 844 times there are 64 cooling events, and then comes the first sample
of another. -/
theorem decay_undefined : ∃ m : Clocked,
    (clocked fourFrames Kernel.fresh).Reach (fun m op => op.Legal fourFrames m.state) m ∧
      (Op.sample .dramread 1).Legal fourFrames m.state ∧
        ¬ ∀ n ∈ (Op.sample .dramread 1).shifts fourFrames m.state, n < 64 := by
  obtain ⟨s, hs⟩ := beating_start
  obtain ⟨t, ht⟩ := hs.iterate (13 * 63 + 25)
  rw [beat_events 63] at ht
  obtain ⟨m, hm, rfl⟩ := policy_clocked ht.reach
  refine ⟨m, hm, show 1 < fourFrames.pages by decide, fun hn => absurd (hn 64 ?_) (by decide)⟩
  rw [Op.shifts, if_pos ht.va.2, State.decay, ht.clock, ht.other]
  decide

end Unbounded

end HeMem

import HeMem.Unmap
import HeMem.Proofs.Interpose
import Mathlib.Data.Finset.Card
import Mathlib.Data.Nat.Find

/-!
# What `hemem_munmap` takes, and whether it ends

A loop that returns has taken every page that starts in the range, and nothing has come back.  It
has gone a base page for each hole and a huge page for each page, and pages are all different: so a
loop that has been round the address space has taken more turns than the range has base pages.
-/

namespace HeMem

open Hoare Function

variable {cfg : Config} {kernel : Kernel} {s t : State} {m : Memory} {v w : View} {p q : PageId}
  {a b c addr length stop : UInt64} {turns : ℕ}

section Turns

theorem pebsRemovePage_eq : pebsRemovePage p s = if ringBufFull s.freePageRing then .error .waits else
    .ok ((), { s with
      freePageRing := ringBufPut s.freePageRing p
      page := update s.page p
        (HememPage.clearCounters { s.page p with present := false, hot := false }) }) := by
  unfold pebsRemovePage
  change (if ringBufFull s.freePageRing then _ else _ : M Unit) s = _
  split <;> rfl

theorem munmapPage_eq : munmapPage p s = if ringBufFull s.freePageRing then .error .waits else
    .ok (ptToPagesize (s.page p).pt, s.drop p) := by
  have hremove : removePage p s = .ok ((), { s with pages := update s.pages (s.page p).va none }) :=
    rfl
  rw [munmapPage, bind_of_ok hremove]
  have hfree := pebsRemovePage_eq (p := p)
    (s := { s with pages := update s.pages (s.page p).va none })
  split
  · rename_i hb
    rw [if_pos hb] at hfree
    rw [bind_of_error hfree]
  · rename_i hb
    rw [if_neg hb] at hfree
    rw [bind_of_ok hfree]
    dsimp only [getPage]
    refine congrArg Except.ok ?_
    simp [State.drop, HememPage.clearCounters]

theorem munmapLoop_done (ha : ¬ a < stop) : munmapLoop stop (turns + 1) a s = .ok ((), s) := by
  rw [munmapLoop, if_neg ha]
  rfl

theorem munmapLoop_hole (ha : a < stop) (hp : s.pages a = none) :
    munmapLoop stop (turns + 1) a s = munmapLoop stop turns (a + basepageSize) s := by
  have hfind : findPage a s = .ok (none, s) := by
    rw [← hp]
    rfl
  rw [munmapLoop, if_pos ha, bind_of_ok hfind]

theorem munmapLoop_page (ha : a < stop) (hp : s.pages a = some p)
    (hpt : (s.page p).pt = .hugep) : munmapLoop stop (turns + 1) a s =
      if ringBufFull s.freePageRing then .error .waits
      else munmapLoop stop turns (a + hugepageSize) (s.drop p) := by
  have hfind : findPage a s = .ok (some p, s) := by
    rw [← hp]
    rfl
  rw [munmapLoop, if_pos ha, bind_of_ok hfind]
  have hpage := munmapPage_eq (p := p) (s := s)
  split
  · rename_i hb
    rw [if_pos hb] at hpage
    exact bind_of_error hpage
  · rename_i hb
    rw [if_neg hb, hpt] at hpage
    exact bind_of_ok hpage

theorem State.Sound.drop_pages (hs : s.Sound) (hp : s.pages a = some p) :
    (s.drop p).pages = update s.pages a none := by
  rw [State.drop, (hs a p hp).1]

theorem State.Sound.drop (hs : s.Sound) (hp : s.pages a = some p) : (s.drop p).Sound := by
  intro c q hq
  rw [hs.drop_pages hp, update_apply] at hq
  split at hq
  · cases hq
  · obtain ⟨hva, hal, hpt⟩ := hs c q hq
    rcases eq_or_ne q p with rfl | hne
    · simpa [State.drop, HememPage.clearCounters] using ⟨hva, hal, hpt⟩
    · simpa [State.drop, hne] using ⟨hva, hal, hpt⟩

/-- What holds of each page boundary of a loop that returns, from the last one backwards; `k` counts
the turns that are left. -/
theorem State.Sound.returned {P : ℕ → UInt64 → State → Prop} (hdone : ∀ a, ¬ a < stop → P 0 a t)
    (hhole : ∀ k a s, s.Sound → a < stop → s.pages a = none → P k (a + basepageSize) s →
      P (k + 1) a s)
    (hpage : ∀ k a s p, s.Sound → a < stop → s.pages a = some p →
      P k (a + hugepageSize) (s.drop p) → P (k + 1) a s) :
    ∀ {turns : ℕ} {a : UInt64} {s : State}, s.Sound → munmapLoop stop turns a s = .ok ((), t) →
      ∃ k < turns, P k a s
  | 0, _, _, _, hr => nomatch hr
  | turns + 1, a, s, hs, hr => by
    by_cases ha : a < stop
    · rcases hp : s.pages a with _ | p
      · rw [munmapLoop_hole ha hp] at hr
        obtain ⟨k, hk, hP⟩ := State.Sound.returned hdone hhole hpage hs hr
        exact ⟨k + 1, by omega, hhole k a s hs ha hp hP⟩
      · rw [munmapLoop_page ha hp (hs a p hp).2.2] at hr
        split at hr
        · cases hr
        · obtain ⟨k, hk, hP⟩ := State.Sound.returned hdone hhole hpage (hs.drop hp) hr
          exact ⟨k + 1, by omega, hpage k a s p hs ha hp hP⟩
    · rw [munmapLoop_done ha] at hr
      cases hr
      exact ⟨0, by omega, hdone a ha⟩

/-- Where each turn leads on, a turn is needed for each base page at most. -/
theorem munmapLoop_ends {I : UInt64 → State → Prop} (hsound : ∀ a s, I a s → s.Sound)
    (hhole : ∀ a s, I a s → a < stop → s.pages a = none →
      I (a + basepageSize) s ∧ a.toNat + 2 ^ 12 ≤ (a + basepageSize).toNat)
    (hpage : ∀ a s p, I a s → a < stop → s.pages a = some p → ringBufFull s.freePageRing = false →
      I (a + hugepageSize) (s.drop p) ∧ a.toNat + 2 ^ 12 ≤ (a + hugepageSize).toNat) :
    ∀ {turns k : ℕ} {a : UInt64} {s : State}, I a s → stop.toNat ≤ a.toNat + 2 ^ 12 * k → k < turns →
      Sat (munmapLoop stop turns a) (fun _ t => ∃ b, ¬ b < stop ∧ I b t) (· = .waits) s
  | 0, _, _, _, _, _, hk => absurd hk (Nat.not_lt_zero _)
  | turns + 1, k, a, s, hI, hle, hk => by
    by_cases ha : a < stop
    · have hlt := UInt64.lt_iff_toNat_lt.1 ha
      obtain ⟨n, rfl⟩ : ∃ n, k = n + 1 := Nat.exists_eq_succ_of_ne_zero (by rintro rfl; omega)
      have next : ∀ {b : UInt64} {t : State}, I b t ∧ a.toNat + 2 ^ 12 ≤ b.toNat →
          Sat (munmapLoop stop turns b) (fun _ t => ∃ b, ¬ b < stop ∧ I b t) (· = .waits) t :=
        fun ⟨hb, hab⟩ => munmapLoop_ends hsound hhole hpage hb (k := n) (by omega) (by omega)
      rcases hp : s.pages a with _ | p
      · have h := next (hhole a s hI ha hp)
        unfold Sat at h ⊢
        rwa [munmapLoop_hole ha hp]
      · unfold Sat
        rw [munmapLoop_page ha hp (hsound a s hI a p hp).2.2]
        rcases hb : ringBufFull s.freePageRing with _ | _
        · have h := next (hpage a s p hI ha hp hb)
          unfold Sat at h
          simpa using h
        · rfl
    · unfold Sat
      rw [munmapLoop_done ha]
      exact ⟨a, ha, hI⟩

end Turns

section Reached

/-- The pages given out are those tracked, whatever the run goes through. -/
def View.Kept (cfg : Config) (v : View) : Prop :=
  Inv cfg.pages Allow.any v ∧ Tracked cfg.pages v ∧ v.Huge

theorem kept_kept : CallKept cfg (View.Kept cfg) where
  move h hm := ⟨h.1.move hm, h.2.1.move h.1 hm, h.2.2.move hm⟩
  populate h hf hn ha hal := ⟨(inv_kept.faulted h.1 hf).populate ha hal, h.2.1.faulted h.1 hf hn ha,
    (@huge_kept cfg).populate h.2.2 hf hn ha hal⟩
  release h hp := ⟨h.1.release h.2.1 trivial hp, h.2.1.release hp,
    (@huge_kept cfg).release h.2.2 hp⟩
  sampled h hp hs := ⟨h.1.sampled h.2.1 hp hs, h.2.1.sampled hs,
    (@huge_kept cfg).sampled h.2.2 hp hs⟩
  kernel k h := by
    obtain ⟨⟨h1, h2, h3, h4, h5, h6, h7, h8, h9, h10, h11, h12, h13, h14⟩, ⟨g1, g2, g3⟩, hh⟩ := h
    exact ⟨⟨h1, h2, h3, h4, h5, h6, h7, h8, h9, h10, h11, h12, h13, h14⟩, ⟨g1, g2, g3⟩, hh⟩
  priority n h := by
    obtain ⟨⟨h1, h2, h3, h4, h5, h6, h7, h8, h9, h10, h11, h12, h13, h14⟩, ⟨g1, g2, g3⟩, hh⟩ := h
    exact ⟨⟨h1, h2, h3, h4, h5, h6, h7, h8, h9, h10, h11, h12, h13, h14⟩, ⟨g1, g2, g3⟩, hh⟩

theorem kept_initial (hm : hememInit cfg (State.blank kernel) = .ok ((), s)) :
    Holds (View.Kept cfg) s := by
  obtain ⟨hg, hv⟩ := hememInit_sat.ok hm
  refine ⟨hg, ?_⟩
  have hI : Inv cfg.pages Allow.any _ := inv_initial kernel
  obtain ⟨h1, h2, h3, h4, h5, h6, h7, h8, h9, h10, h11, h12, h13, h14⟩ := hI
  rw [hv]
  exact ⟨⟨h1, h2, h3, h4, h5, h6, h7, h8, h9, h10, h11, h12, h13, h14⟩, tracked_initial,
    (framed_initial cfg kernel).pt⟩

theorem View.Kept.sound (h : (s.view).Kept cfg) : s.Sound := fun a p hp => by
  have hva : (s.page p).va = a := h.2.1.va a p hp
  exact ⟨hva, hva ▸ h.1.align p, h.2.2 p⟩

theorem hemem_kept {C : Memory → Call → Prop} (h : (hemem cfg kernel).Reach C m) :
    Holds (View.Kept cfg) m.state :=
  kept_kept.reach (S := hemem cfg kernel) (fun _ hm => kept_initial hm.1) (fun _ _ _ hs => hs.1) h

/-- Every state of a run is sound. -/
theorem hemem_sound {C : Memory → Call → Prop} (h : (hemem cfg kernel).Reach C m) :
    m.state.Good ∧ m.state.Sound :=
  ⟨(hemem_kept h).1, (hemem_kept h).2.sound⟩

end Reached

section Failing

/-- The page boundary after `k` holes. -/
def holes (a : UInt64) (k : ℕ) : UInt64 := a + UInt64.ofNat k * basepageSize

theorem holes_zero : holes a 0 = a := by
  simp [holes]

theorem holes_succ {k : ℕ} : holes (a + basepageSize) k = holes a (k + 1) := by
  unfold holes
  rw [← UInt64.toNat_inj]
  simp only [UInt64.toNat_add, UInt64.toNat_mul, UInt64.toNat_ofNat']
  have hsize : basepageSize.toNat = 2 ^ 12 := by decide
  rw [hsize]
  omega

/-- After as many holes as there are base pages, the loop is back where it was. -/
theorem holes_period {k : ℕ} : holes a (k + 2 ^ 52) = holes a k := by
  unfold holes
  rw [← UInt64.toNat_inj]
  simp only [UInt64.toNat_add, UInt64.toNat_mul, UInt64.toNat_ofNat']
  have hsize : basepageSize.toNat = 2 ^ 12 := by decide
  rw [hsize]
  omega

/-- A loop over holes leaves the state as it is. -/
theorem munmapLoop_holes : ∀ {turns k : ℕ} {a : UInt64}, k < turns →
    (∀ j < k, holes a j < stop ∧ s.pages (holes a j) = none) → ¬ holes a k < stop →
      munmapLoop stop turns a s = .ok ((), s)
  | 0, _, _, hk, _, _ => absurd hk (Nat.not_lt_zero _)
  | turns + 1, 0, a, _, _, hend => by
    rw [holes_zero] at hend
    exact munmapLoop_done hend
  | turns + 1, k + 1, a, hk, hj, hend => by
    obtain ⟨ha, hp⟩ := hj 0 (Nat.succ_pos k)
    rw [holes_zero] at ha hp
    rw [munmapLoop_hole ha hp]
    refine munmapLoop_holes (k := k) (by omega) (fun j hjk => ?_) ?_
    · rw [holes_succ]
      exact hj (j + 1) (by omega)
    · rwa [holes_succ]

theorem State.Sound.gone (hs : s.Sound) (hr : munmapLoop stop turns a s = .ok ((), t))
    (hc : s.pages c = none) : t.pages c = none := by
  have hP : ∃ k < turns, s.pages c = none → t.pages c = none := by
    refine hs.returned (P := fun _ _ u => u.pages c = none → t.pages c = none) (fun _ _ => id)
      (fun _ _ _ _ _ _ => id) (fun k a u p hu _ hp ih huc => ih ?_) hr
    rw [hu.drop_pages hp, update_apply]
    split
    · rfl
    · exact huc
  obtain ⟨_, -, hP⟩ := hP
  exact hP hc

/-- A loop that has found a page has changed the table. -/
theorem State.Sound.untracked (hs : s.Sound) (hr : munmapLoop stop turns a s = .ok ((), t))
    (heq : t.pages = s.pages) : ∃ k, ¬ holes a k < stop ∧ ∀ j < k, s.pages (holes a j) = none := by
  have hP : ∃ k < turns, (∀ c, s.pages c = none → t.pages c = none) ∧
      (t.pages = s.pages → ¬ holes a k < stop ∧ ∀ j < k, s.pages (holes a j) = none) := by
    refine hs.returned (P := fun k a u => (∀ c, u.pages c = none → t.pages c = none) ∧
      (t.pages = u.pages → ¬ holes a k < stop ∧ ∀ j < k, u.pages (holes a j) = none))
      (fun a ha => ⟨fun _ => id, fun _ => ⟨by rwa [holes_zero], fun j hj => absurd hj (by omega)⟩⟩)
      (fun k a u _ _ hp ih => ⟨ih.1, fun he => ?_⟩)
      (fun k a u p hu _ hp ih => ⟨fun c hc => ih.1 c ?_, fun he => ?_⟩) hr
    · obtain ⟨hend, hbefore⟩ := ih.2 he
      rw [holes_succ] at hend
      refine ⟨hend, fun j hj => ?_⟩
      rcases j with _ | j
      · rwa [holes_zero]
      · rw [← holes_succ]
        exact hbefore j (by omega)
    · rw [hu.drop_pages hp, update_apply]
      split
      · rfl
      · exact hc
    · have hnone : t.pages a = none := ih.1 a (by rw [hu.drop_pages hp, update_self])
      rw [he, hp] at hnone
      cases hnone
  obtain ⟨k, -, -, hP⟩ := hP
  exact ⟨k, hP heq⟩

theorem State.Untracked.munmapLoop (h : s.Untracked addr length) :
    munmapLoop (addr + length) loopTurns addr s = .ok ((), s) := by
  have hex : ∃ k, ¬ holes addr k < addr + length := by
    obtain ⟨k, hk, -⟩ := h
    exact ⟨k, UInt64.not_lt.2 hk⟩
  obtain ⟨k, hk, hnone⟩ := h
  have hle : Nat.find hex ≤ k := Nat.find_min' hex (UInt64.not_lt.2 hk)
  have hlt : Nat.find hex < loopTurns := by
    have hturns : loopTurns = 2 ^ 54 := by rw [loopTurns]
    rw [hturns]
    by_contra hge
    have hspec := Nat.find_spec hex
    obtain ⟨n, hn⟩ : ∃ n, Nat.find hex = n + 2 ^ 52 := ⟨Nat.find hex - 2 ^ 52, by omega⟩
    rw [hn, holes_period] at hspec
    exact Nat.find_min hex (by omega) hspec
  refine munmapLoop_holes hlt (fun j hj => ⟨not_not.1 (Nat.find_min hex hj), ?_⟩) (Nat.find_spec hex)
  exact hnone j (by omega)

theorem hememMunmap_failing {u : State} :
    hememMunmap addr length false s = .ok ((), u) ↔
      munmapLoop (addr + length) loopTurns addr s = .ok ((), u) := by
  unfold hememMunmap
  rcases hr : munmapLoop (addr + length) loopTurns addr s with e | ⟨⟨⟩, t⟩
  · rw [bind_of_error hr]
  · rw [bind_of_ok hr]
    exact Iff.rfl

/-- A failed unmap leaves everything as it was exactly if no page is tracked at any address the loop
comes to. -/
theorem failed_munmap_keeps_iff (h : (hemem cfg kernel).Reach (fun _ _ => True) m) {ret : Int32}
    (hret : ret ≠ 0) :
    (∃ t, hememMunmapReturning addr length ret m.state = .ok (ret, t) ∧ m.state.SameMemory t) ↔
      m.state.Untracked addr length := by
  have hs := (hemem_sound h).2
  have hfalse : decide (ret = 0) = false := decide_eq_false hret
  constructor
  · rintro ⟨t, hr, hsame⟩
    have hloop : hememMunmap addr length false m.state = .ok ((), t) := by
      rw [← hfalse]
      rcases hm : hememMunmap addr length (decide (ret = 0)) m.state with e | ⟨⟨⟩, u⟩
      · rw [hememMunmapReturning, bind_of_error hm] at hr
        cases hr
      · rw [hememMunmapReturning, bind_of_ok hm] at hr
        cases hr
        rfl
    obtain ⟨k, hend, hnone⟩ := hs.untracked (hememMunmap_failing.1 hloop) hsame.pages
    exact ⟨k, UInt64.not_lt.1 hend, hnone⟩
  · intro hu
    have hloop := hememMunmap_failing.2 hu.munmapLoop
    rw [← hfalse] at hloop
    refine ⟨m.state, ?_, ⟨rfl, rfl, rfl, rfl, rfl⟩⟩
    rw [hememMunmapReturning, bind_of_ok hloop]
    rfl

/-- A range next to a tracked page is unmapped in vain. -/
theorem failed_munmap_keeps_outside : ∃ m : Memory, m.state.pages hugepageSize = some 0 ∧
    ∃ t, hememMunmapReturning (2 * hugepageSize) (2 * basepageSize) (-1) m.state = .ok (-1, t) ∧
      m.state.SameMemory t := by
  obtain ⟨m, hm, hc⟩ := launch_reach fourFrames Kernel.fresh (fun _ _ => True)
    [.mmap hugepageSize 0 hugepageSize]
    (fun m => m.state.pages hugepageSize = some 0 && (m.state.pages (2 * hugepageSize)).isNone &&
      (m.state.pages (2 * hugepageSize + basepageSize)).isNone) (by decide +kernel)
  simp only [Bool.and_eq_true, decide_eq_true_eq, Option.isNone_iff_eq_none] at hc
  refine ⟨m, hc.1.1, (failed_munmap_keeps_iff hm (by decide)).2 ⟨2, by decide, fun j hj => ?_⟩⟩
  rcases j with _ | _ | j
  · exact hc.1.2
  · exact hc.2
  · omega

/-- The first base page of a tracked page is unmapped in vain. -/
theorem failed_munmap_drops_page : ∃ (m : Memory) (t : State),
    (hemem fourFrames Kernel.fresh).Reach (fun _ _ => True) m ∧
      hememMunmapReturning hugepageSize basepageSize (-1) m.state = .ok (-1, t) ∧
      m.state.pages hugepageSize = some 0 ∧ t.pages hugepageSize = none ∧
      m.state.memAllocated = hugepageSize ∧ t.memAllocated = 0 := by
  obtain ⟨m, hm, hc⟩ := launch_reach fourFrames Kernel.fresh (fun _ _ => True)
    [.mmap hugepageSize 0 hugepageSize]
    (fun m => match hememMunmapReturning hugepageSize basepageSize (-1) m.state with
      | .ok (r, t) => r = -1 && m.state.pages hugepageSize = some 0 &&
        (t.pages hugepageSize).isNone && m.state.memAllocated = hugepageSize && t.memAllocated = 0
      | .error _ => false) (by decide +kernel)
  split at hc
  · rename_i r t hr
    simp only [Bool.and_eq_true, decide_eq_true_eq, Option.isNone_iff_eq_none] at hc
    obtain ⟨⟨⟨⟨rfl, h1⟩, h2⟩, h3⟩, h4⟩ := hc
    exact ⟨m, t, hm, hr, h1, h2, h3, h4⟩
  · cases hc

end Failing

section Ending

theorem toNat_basepageSize : basepageSize.toNat = 2 ^ 12 := by decide

theorem toNat_hugepageSize : hugepageSize.toNat = 2 ^ 21 := by decide

theorem toNat_lastHugepage : (-hugepageSize).toNat = 2 ^ 64 - 2 ^ 21 := by decide

/-- There are only so many huge pages. -/
theorem card_aligned_le {F : Finset UInt64} (hF : ∀ x ∈ F, x % hugepageSize = 0) :
    F.card ≤ 2 ^ 43 := by
  rw [← Finset.card_range (2 ^ 43)]
  refine Finset.card_le_card_of_injOn (fun x => x.toNat / 2 ^ 21) (fun x hx => ?_) fun x hx y hy h => ?_
  · have := x.toNat_lt
    simp only [Finset.coe_range, Set.mem_Iio]
    omega
  · have h1 := aligned_iff.1 (hF x hx)
    have h2 := aligned_iff.1 (hF y hy)
    simp only at h
    rw [← UInt64.toNat_inj]
    omega

/-- A loop that returns has gone `k` holes and the pages of `F` far.  If it comes to the last huge
page of the address space, and a page is there, it has stepped over the end. -/
theorem State.Sound.gone_far (hs : s.Sound) (hr : munmapLoop stop turns a s = .ok ((), t)) :
    ∃ (k : ℕ) (F : Finset UInt64), k + F.card < turns ∧ (∀ x ∈ F, x % hugepageSize = 0) ∧
      stop.toNat ≤ (a.toNat + 2 ^ 12 * k + 2 ^ 21 * F.card) % 2 ^ 64 ∧
      (a.toNat % 2 ^ 12 = 0 → a ≤ -hugepageSize → -hugepageSize < stop →
        s.pages (-hugepageSize) ≠ none → 2 ^ 64 ≤ a.toNat + 2 ^ 12 * k + 2 ^ 21 * F.card) := by
  have hP : ∃ n < turns, ∃ (k : ℕ) (F : Finset UInt64), n = k + F.card ∧
      (∀ x ∈ F, s.pages x ≠ none) ∧ (∀ x ∈ F, x % hugepageSize = 0) ∧
      stop.toNat ≤ (a.toNat + 2 ^ 12 * k + 2 ^ 21 * F.card) % 2 ^ 64 ∧
      (a.toNat % 2 ^ 12 = 0 → a ≤ -hugepageSize → -hugepageSize < stop →
        s.pages (-hugepageSize) ≠ none → 2 ^ 64 ≤ a.toNat + 2 ^ 12 * k + 2 ^ 21 * F.card) := by
    refine hs.returned (P := fun n a u => ∃ (k : ℕ) (F : Finset UInt64), n = k + F.card ∧
      (∀ x ∈ F, u.pages x ≠ none) ∧ (∀ x ∈ F, x % hugepageSize = 0) ∧
      stop.toNat ≤ (a.toNat + 2 ^ 12 * k + 2 ^ 21 * F.card) % 2 ^ 64 ∧
      (a.toNat % 2 ^ 12 = 0 → a ≤ -hugepageSize → -hugepageSize < stop →
        u.pages (-hugepageSize) ≠ none → 2 ^ 64 ≤ a.toNat + 2 ^ 12 * k + 2 ^ 21 * F.card))
      (fun a ha => ⟨0, ∅, rfl, by simp, by simp, ?_, fun _ h1 h2 _ => ?_⟩)
      (fun n a u _ ha hp ⟨k, F, hn, htr, hal, hle, hlast⟩ =>
        ⟨k + 1, F, by omega, htr, hal, ?_, fun h0 h1 h2 h3 => ?_⟩)
      (fun n a u p hu ha hp ⟨k, F, hn, htr, hal, hle, hlast⟩ => ?_) hr
    · have := a.toNat_lt
      rw [UInt64.lt_iff_toNat_lt] at ha
      simp only [Nat.mul_zero, Finset.card_empty, Nat.add_zero]
      omega
    · rw [UInt64.lt_iff_toNat_lt] at ha h2
      rw [UInt64.le_iff_toNat_le] at h1
      omega
    · rw [UInt64.toNat_add, toNat_basepageSize] at hle
      omega
    · have hne : a ≠ -hugepageSize := by
        rintro rfl
        exact h3 hp
      rw [ne_eq, ← UInt64.toNat_inj, toNat_lastHugepage] at hne
      rw [UInt64.le_iff_toNat_le, toNat_lastHugepage] at h1
      have hnext : (a + basepageSize).toNat = a.toNat + 2 ^ 12 := by
        rw [UInt64.toNat_add, toNat_basepageSize, Nat.mod_eq_of_lt (by omega)]
      have := hlast (by omega) (by rw [UInt64.le_iff_toNat_le, toNat_lastHugepage]; omega) h2 h3
      omega
    · have hapart : ∀ x, (u.drop p).pages x ≠ none → x ≠ a ∧ u.pages x ≠ none := fun x hx => by
        rw [hu.drop_pages hp, update_apply] at hx
        split at hx
        · exact absurd rfl hx
        · exact ⟨‹_›, hx⟩
      have haF : a ∉ F := fun hmem => (hapart a (htr a hmem)).1 rfl
      have hala := (hu a p hp).2.1
      refine ⟨k, insert a F, by rw [Finset.card_insert_of_notMem haF]; omega, fun x hx => ?_,
        fun x hx => ?_, ?_, fun h0 h1 h2 h3 => ?_⟩
      · rcases Finset.mem_insert.1 hx with rfl | hx
        · simp [hp]
        · exact (hapart x (htr x hx)).2
      · rcases Finset.mem_insert.1 hx with rfl | hx
        · exact hala
        · exact hal x hx
      · rw [Finset.card_insert_of_notMem haF]
        rw [UInt64.toNat_add, toNat_hugepageSize] at hle
        omega
      · rw [Finset.card_insert_of_notMem haF]
        rw [UInt64.le_iff_toNat_le, toNat_lastHugepage] at h1
        rw [aligned_iff] at hala
        rcases eq_or_ne a (-hugepageSize) with rfl | hne
        · rw [toNat_lastHugepage]
          omega
        have hlt : a.toNat ≠ 2 ^ 64 - 2 ^ 21 := by
          rwa [ne_eq, ← UInt64.toNat_inj, toNat_lastHugepage] at hne
        have hnext : (a + hugepageSize).toNat = a.toNat + 2 ^ 21 := by
          rw [UInt64.toNat_add, toNat_hugepageSize, Nat.mod_eq_of_lt (by omega)]
        have := hlast (by omega) (by rw [UInt64.le_iff_toNat_le, toNat_lastHugepage]; omega) h2 (by
          rw [hu.drop_pages hp, update_of_ne hne.symm]
          exact h3)
        omega
  obtain ⟨n, hn, k, F, rfl, -, hal, hle, hlast⟩ := hP
  exact ⟨k, F, hn, hal, hle, hlast⟩

/-- A range that does not fit takes a loop that returns at least once round the address space. -/
theorem State.Sound.fits (hs : s.Sound) (hr : HeMem.munmapLoop (addr + length)
    (length.toNat / basepageSize.toNat + 2) addr s = .ok ((), t)) : s.Fits addr length := by
  obtain ⟨k, F, hk, hal, hle, hlast⟩ := hs.gone_far hr
  have hcard := card_aligned_le hal
  intro hroom
  rw [UInt64.toNat_add, Nat.mod_eq_of_lt hroom] at hle
  rw [toNat_basepageSize] at hk ⊢
  by_contra hover
  have hround : 2 ^ 64 ≤ addr.toNat + 2 ^ 12 * k + 2 ^ 21 * F.card := by
    rw [not_and_or] at hover
    rcases hover with hend | hend
    · by_contra hlt
      omega
    · simp only [not_forall] at hend
      obtain ⟨h0, h1, h2, h3⟩ := hend
      refine hlast ?_ h1 h2 h3
      have := congrArg UInt64.toNat h0
      rwa [UInt64.toNat_mod, toNat_basepageSize, UInt64.toNat_zero] at this
  omega

/-- How far the loop has come in a range that fits, at the page boundary `a`. -/
structure Advancing (s : State) (addr a : UInt64) (t : State) : Prop where
  sound : t.Sound
  le : addr.toNat ≤ a.toNat
  base : a.toNat % 2 ^ 12 = addr.toNat % 2 ^ 12
  old : ∀ c, t.pages c ≠ none → s.pages c ≠ none

theorem State.Fits.ends (h : s.Fits addr length) (hs : s.Sound) :
    Sat (munmapLoop (addr + length) (length.toNat / basepageSize.toNat + 2) addr)
      (fun _ _ => True) (· = .waits) s := by
  have haddr := addr.toNat_lt
  have hlength := length.toNat_lt
  rw [toNat_basepageSize]
  by_cases hroom : addr.toNat + length.toNat < 2 ^ 64
  · obtain ⟨hend, hlast⟩ := h hroom
    rw [toNat_basepageSize] at hend
    have hstop : (addr + length).toNat = addr.toNat + length.toNat := by
      rw [UInt64.toNat_add, Nat.mod_eq_of_lt hroom]
    refine (munmapLoop_ends (I := Advancing s addr) (k := length.toNat / 2 ^ 12 + 1)
      (fun a t ha => ha.sound) (fun a t ha hlt hp => ?_) (fun a t p ha hlt hp _ => ?_)
      ⟨hs, Nat.le_refl _, rfl, fun _ => id⟩ (by omega) (by omega)).post fun _ _ _ => trivial
    all_goals
      have hle := ha.le
      have hbase := ha.base
      rw [UInt64.lt_iff_toNat_lt, hstop] at hlt
    · have hnext : (a + basepageSize).toNat = a.toNat + 2 ^ 12 := by
        rw [UInt64.toNat_add, toNat_basepageSize, Nat.mod_eq_of_lt (by omega)]
      exact ⟨⟨ha.sound, by omega, by omega, ha.old⟩, by omega⟩
    · have hal := aligned_iff.1 (ha.sound a p hp).2.1
      have hne : a.toNat ≠ 2 ^ 64 - 2 ^ 21 := fun heq => by
        rw [← toNat_lastHugepage, UInt64.toNat_inj] at heq
        subst heq
        rw [toNat_lastHugepage] at hlt hle hbase
        refine ha.old _ (by simp [hp]) (hlast ?_ ?_ ?_)
        · rw [← UInt64.toNat_inj, UInt64.toNat_mod, toNat_basepageSize, UInt64.toNat_zero]
          omega
        · rwa [UInt64.le_iff_toNat_le, toNat_lastHugepage]
        · rwa [UInt64.lt_iff_toNat_lt, toNat_lastHugepage, hstop]
      have hnext : (a + hugepageSize).toNat = a.toNat + 2 ^ 21 := by
        have := a.toNat_lt
        rw [UInt64.toNat_add, toNat_hugepageSize, Nat.mod_eq_of_lt (by omega)]
      refine ⟨⟨ha.sound.drop hp, by omega, by omega, fun c hc => ha.old c fun hn => hc ?_⟩, by omega⟩
      rw [ha.sound.drop_pages hp, update_apply, hn]
      split <;> rfl
  · have hdone : ¬ addr < addr + length := by
      rw [UInt64.lt_iff_toNat_lt, UInt64.toNat_add]
      omega
    unfold Sat
    rw [munmapLoop_done hdone]
    trivial

/-- Where the ring of freed pages does not fill up, the loop is through after one turn for each base
page of the range and one more, exactly if the range fits. -/
theorem munmap_loop_ends_iff (hs : s.Sound)
    (hw : munmapLoop (addr + length) (length.toNat / basepageSize.toNat + 2) addr s ≠
      .error .waits) :
    (∃ t, munmapLoop (addr + length) (length.toNat / basepageSize.toNat + 2) addr s = .ok ((), t)) ↔
      s.Fits addr length := by
  refine ⟨fun ⟨t, hr⟩ => hs.fits hr, fun h => ?_⟩
  have hsat := h.ends hs
  rcases hr : munmapLoop (addr + length) (length.toNat / basepageSize.toNat + 2) addr s
    with e | ⟨⟨⟩, t⟩
  · exact absurd (hr.trans (congrArg Except.error (hsat.error hr))) hw
  · exact ⟨t, rfl⟩

/-- The loop over the one page that is mapped. -/
theorem munmap_loop_ends_page : ∃ s t : State, s.pages hugepageSize = some 0 ∧
    munmapLoop (hugepageSize + hugepageSize) (hugepageSize.toNat / basepageSize.toNat + 2)
      hugepageSize s = .ok ((), t) := by
  obtain ⟨m, hm, hc⟩ := launch_reach fourFrames Kernel.fresh (fun _ _ => True)
    [.mmap hugepageSize 0 hugepageSize]
    (fun m => m.state.pages hugepageSize = some 0 &&
      match munmapLoop (hugepageSize + hugepageSize) (hugepageSize.toNat / basepageSize.toNat + 2)
        hugepageSize m.state with
      | .ok _ => true
      | .error e => e ≠ .waits) (by decide +kernel)
  simp only [Bool.and_eq_true, decide_eq_true_eq] at hc
  have hw : munmapLoop (hugepageSize + hugepageSize) (hugepageSize.toNat / basepageSize.toNat + 2)
      hugepageSize m.state ≠ .error .waits := fun hw => by simp [hw] at hc
  obtain ⟨t, ht⟩ := (munmap_loop_ends_iff (hemem_sound hm).2 hw).2
    fun _ => ⟨by decide, fun _ _ h => absurd h (by decide)⟩
  exact ⟨m.state, t, hc.1, ht⟩

theorem munmapLoop_none (hn : ∀ c, s.pages c = none) : ∀ {turns : ℕ} {a : UInt64},
    munmapLoop stop turns a s ≠ .error .waits
  | 0, _ => nofun
  | turns + 1, a => by
    by_cases ha : a < stop
    · rw [munmapLoop_hole ha (hn a)]
      exact munmapLoop_none hn
    · rw [munmapLoop_done ha]
      nofun

/-- Nothing is tracked, and the whole address space is unmapped, as far as a length can say so: no
number of turns is enough. -/
theorem munmap_loop_endless : ∃ m : Memory,
    (hemem fourFrames Kernel.fresh).Reach (fun _ _ => True) m ∧
      ∀ turns, munmapLoop (0 + 0xffffffffffffffff) turns 0 m.state ≠ .error .waits ∧
        ∀ t, munmapLoop (0 + 0xffffffffffffffff) turns 0 m.state ≠ .ok ((), t) := by
  obtain ⟨m, hm, hc⟩ := launch_reach fourFrames Kernel.fresh (fun _ _ => True)
    [.munmap 0 basepageSize true]
    (fun m => (m.state.pages 0).isNone &&
      decide (∀ p < fourFrames.pages, (m.state.page p).present = false)) (by decide +kernel)
  simp only [Bool.and_eq_true, decide_eq_true_eq, Option.isNone_iff_eq_none] at hc
  refine ⟨m, hm, fun turns => ⟨munmapLoop_none fun c => ?_, fun t hr => ?_⟩⟩
  · rcases hp : m.state.pages c with _ | p
    · rfl
    rcases (hemem_kept hm).2.2.1.live c p hp with ⟨-, hn, hpr⟩ | ⟨rfl, -⟩
    · have hpr : (m.state.page p).present = true := hpr
      rw [hc.2 p hn] at hpr
      cases hpr
    · rw [hc.1] at hp
      cases hp
  · obtain ⟨k, F, -, -, hle, -⟩ := (hemem_sound hm).2.gone_far hr
    have hstop : ((0 : UInt64) + 0xffffffffffffffff).toNat = 2 ^ 64 - 1 := by decide
    rw [hstop, UInt64.toNat_zero] at hle
    omega

end Ending

section Taking

/-- A loop that returns has taken every page that starts in the range. -/
theorem State.Sound.cleared (hs : s.Sound) (hr : munmapLoop stop turns a s = .ok ((), t))
    (ha : a.toNat % 2 ^ 12 = 0) (hc : c % hugepageSize = 0) (hac : a ≤ c) (hcs : c < stop) :
    t.pages c = none := by
  have hP : ∃ k < turns, (s.pages c = none → t.pages c = none) ∧
      (a.toNat % 2 ^ 12 = 0 → a ≤ c → t.pages c = none) := by
    refine hs.returned (P := fun _ a u => (u.pages c = none → t.pages c = none) ∧
      (a.toNat % 2 ^ 12 = 0 → a ≤ c → t.pages c = none))
      (fun a ha => ⟨id, fun _ hac => ?_⟩) (fun k a u _ ha hp ih => ⟨ih.1, fun h0 hac => ?_⟩)
      (fun k a u p hu ha hp ih => ⟨fun hn => ih.1 ?_, fun h0 hac => ?_⟩) hr
    all_goals
      rw [aligned_iff] at hc
    · rw [UInt64.lt_iff_toNat_lt] at ha hcs
      rw [UInt64.le_iff_toNat_le] at hac
      omega
    · rcases eq_or_ne a c with rfl | hne
      · exact ih.1 hp
      rw [ne_eq, ← UInt64.toNat_inj] at hne
      rw [UInt64.le_iff_toNat_le] at hac
      have := c.toNat_lt
      have hnext : (a + basepageSize).toNat = a.toNat + 2 ^ 12 := by
        rw [UInt64.toNat_add, toNat_basepageSize, Nat.mod_eq_of_lt (by omega)]
      exact ih.2 (by omega) (by rw [UInt64.le_iff_toNat_le]; omega)
    · rw [hu.drop_pages hp, update_apply, hn]
      split <;> rfl
    · rcases eq_or_ne a c with rfl | hne
      · exact ih.1 (by rw [hu.drop_pages hp, update_self])
      have hal := aligned_iff.1 (hu a p hp).2.1
      rw [ne_eq, ← UInt64.toNat_inj] at hne
      rw [UInt64.le_iff_toNat_le] at hac
      have := c.toNat_lt
      have hnext : (a + hugepageSize).toNat = a.toNat + 2 ^ 21 := by
        rw [UInt64.toNat_add, toNat_hugepageSize, Nat.mod_eq_of_lt (by omega)]
      exact ih.2 (by omega) (by rw [UInt64.le_iff_toNat_le]; omega)
  obtain ⟨_, -, hP⟩ := hP
  exact hP.2 ha hac

/-- How far `hemem_munmap` has come in the range from `addr` to `stop`, at the page boundary `a`:
the pages behind are tracked no longer and handed to the policy, and nothing else has changed. -/
structure Taking (s : State) (addr stop a : UInt64) (t : State) : Prop where
  sound : t.Sound
  wf : t.freePageRing.Wf
  le : addr.toNat ≤ a.toNat
  base : a.toNat % 2 ^ 12 = 0
  pages : ∀ c, t.pages c = if addr ≤ c ∧ c < a then none else s.pages c
  inRange : ∀ c, s.pages c ≠ none → c < a → addr ≤ c → c < stop
  frame : ∀ q, (t.page q).frame = (s.page q).frame
  handed : ∃ l, t.freePageRing.entries = s.freePageRing.entries ++ l ∧ l.Nodup ∧
    ∀ q, q ∈ l ↔ ∃ c, (addr ≤ c ∧ c < a) ∧ s.pages c = some q
  untouched : ∀ q, (∀ c, addr ≤ c → c < a → s.pages c ≠ some q) → t.page q = s.page q

theorem Taking.ahead (h : Taking s addr stop a t) (hc : ¬ c < a) : t.pages c = s.pages c := by
  rw [h.pages, if_neg fun hca => hc hca.2]

/-- Nothing is tracked between two page boundaries, the first of which is `n` bytes from the second
and lies where pages of `n` bytes may start. -/
theorem Taking.gap (h : Taking s addr stop a t) {n : ℕ} (hn : n = 2 ^ 12 ∨ n = 2 ^ 21)
    (ha : a.toNat % n = 0) (hb : b.toNat = a.toNat + n) (hac : a ≠ c) (hca : ¬ c < a) (hcb : c < b) :
    s.pages c = none := by
  rw [← h.ahead hca]
  rcases hq : t.pages c with _ | q
  · rfl
  have hal := aligned_iff.1 (h.sound c q hq).2.1
  rw [UInt64.lt_iff_toNat_lt] at hca hcb
  rw [ne_eq, ← UInt64.toNat_inj] at hac
  rcases hn with rfl | rfl <;> omega

variable (hab : a.toNat < b.toNat) (hgap : ∀ c, a ≠ c → ¬ c < a → c < b → s.pages c = none)
include hab hgap

theorem Taking.pages_next (h : Taking s addr stop a t) :
    update t.pages a none c = if addr ≤ c ∧ c < b then none else s.pages c := by
  have haddr : addr ≤ a := UInt64.le_iff_toNat_le.2 h.le
  have hlt : a < b := UInt64.lt_iff_toNat_lt.2 hab
  rw [update_apply, h.pages]
  rcases eq_or_ne c a with rfl | hne
  · rw [if_pos rfl, if_pos ⟨haddr, hlt⟩]
  rw [if_neg hne]
  by_cases hca : c < a
  · simp only [hca, UInt64.lt_trans hca hlt]
  rw [if_neg fun hc => hca hc.2]
  split
  · rename_i hcb
    exact hgap c hne.symm hca hcb.2
  · rfl

omit hab in
theorem Taking.inRange_next (h : Taking s addr stop a t) (ha : a < stop) (hc : s.pages c ≠ none)
    (hcb : c < b) (hac : addr ≤ c) : c < stop := by
  rcases eq_or_ne a c with rfl | hne
  · exact ha
  by_cases hca : c < a
  · exact h.inRange c hc hca hac
  · exact absurd (hgap c hne hca hcb) hc

theorem Taking.behind_iff (h : Taking s addr stop a t) :
    (∃ c, (addr ≤ c ∧ c < b) ∧ s.pages c = some q) ↔
      (∃ c, (addr ≤ c ∧ c < a) ∧ s.pages c = some q) ∨ s.pages a = some q := by
  have haddr : addr ≤ a := UInt64.le_iff_toNat_le.2 h.le
  have hlt : a < b := UInt64.lt_iff_toNat_lt.2 hab
  constructor
  · rintro ⟨c, ⟨hac, hcb⟩, hq⟩
    rcases eq_or_ne a c with rfl | hne
    · exact .inr hq
    by_cases hca : c < a
    · exact .inl ⟨c, ⟨hac, hca⟩, hq⟩
    · rw [hgap c hne hca hcb] at hq
      cases hq
  · rintro (⟨c, ⟨hac, hca⟩, hq⟩ | hq)
    · exact ⟨c, ⟨hac, UInt64.lt_trans hca hlt⟩, hq⟩
    · exact ⟨a, ⟨haddr, hlt⟩, hq⟩

theorem Taking.hole (h : Taking s addr stop a t) (hp : t.pages a = none) (ha : a < stop)
    (hb : b.toNat % 2 ^ 12 = 0) : Taking s addr stop b t := by
  have hlt : a < b := UInt64.lt_iff_toNat_lt.2 hab
  have hle := h.le
  refine ⟨h.sound, h.wf, by omega, hb, fun c => ?_,
    fun c hc hcb hac => h.inRange_next hgap ha hc hcb hac, h.frame, ?_,
    fun q hq => h.untouched q fun c hac hca => hq c hac (UInt64.lt_trans hca hlt)⟩
  · rw [← h.pages_next hab hgap, ← hp, update_eq_self]
  · obtain ⟨l, hl, hnd, hmem⟩ := h.handed
    refine ⟨l, hl, hnd, fun q => ?_⟩
    have hsa : s.pages a = none := by rwa [← h.ahead (UInt64.lt_irrefl a)]
    rw [h.behind_iff hab hgap, hmem, hsa]
    simp

theorem Taking.page (h : Taking s addr stop a t) (hp : t.pages a = some p) (ha : a < stop)
    (hfull : ringBufFull t.freePageRing = false) (hs : s.Sound) (hb : b.toNat % 2 ^ 12 = 0) :
    Taking s addr stop b (t.drop p) := by
  have hlt : a < b := UInt64.lt_iff_toNat_lt.2 hab
  have hle := h.le
  have haddr : addr ≤ a := UInt64.le_iff_toNat_le.2 h.le
  have hsa : s.pages a = some p := by rwa [← h.ahead (UInt64.lt_irrefl a)]
  obtain ⟨hwf, hentries⟩ := RingBuf.Wf.put_of_not_full (x := p) h.wf hfull
  refine ⟨h.sound.drop hp, hwf, by omega, hb, fun c => ?_,
    fun c hc hcb hac => h.inRange_next hgap ha hc hcb hac, fun q => ?_, ?_, fun q hq => ?_⟩
  · rw [h.sound.drop_pages hp, h.pages_next hab hgap]
  · rw [← h.frame q]
    rcases eq_or_ne q p with rfl | hne
    · simp [State.drop, HememPage.clearCounters, HememPage.frame]
    · simp [State.drop, hne]
  · obtain ⟨l, hl, hnd, hmem⟩ := h.handed
    have hpl : p ∉ l := fun hmem' => by
      obtain ⟨c, ⟨-, hca⟩, hq⟩ := (hmem p).1 hmem'
      rw [(hs c p hq).1.symm.trans (hs a p hsa).1] at hca
      exact UInt64.lt_irrefl a hca
    refine ⟨l ++ [p], ?_, ?_, fun q => ?_⟩
    · rw [State.drop, hentries, hl, List.append_assoc]
    · exact List.nodup_append.2 ⟨hnd, List.nodup_singleton p, fun x hx y hy => by
        rw [List.mem_singleton.1 hy]
        rintro rfl
        exact hpl hx⟩
    · rw [h.behind_iff hab hgap, List.mem_append, hmem, hsa, List.mem_singleton]
      simp [eq_comm]
  · have hqp : q ≠ p := by
      rintro rfl
      exact hq a haddr hlt hsa
    have hpage : (t.drop p).page q = t.page q := by simp [State.drop, hqp]
    rw [hpage]
    exact h.untouched q fun c hac hca => hq c hac (UInt64.lt_trans hca hlt)

omit hab hgap

theorem State.Covered.takes (h : s.Covered addr length) (hg : s.Good) (hs : s.Sound)
    (ha : addr.toNat % 2 ^ 12 = 0) : Sat (munmapLoop (addr + length) loopTurns addr)
      (fun _ t => ∃ b, ¬ b < addr + length ∧ Taking s addr (addr + length) b t) (· = .waits) s := by
  have hlength := length.toNat_lt
  have hturns : loopTurns = 2 ^ 54 := by rw [loopTurns]
  have hend := h.room
  rw [toNat_basepageSize] at hend
  have hstop : (addr + length).toNat = addr.toNat + length.toNat := by
    rw [UInt64.toNat_add, Nat.mod_eq_of_lt (by omega)]
  have hstart : Taking s addr (addr + length) addr s := by
    refine ⟨hs, hg.free, Nat.le_refl _, ha, fun c => ?_, fun c _ hca hac => ?_, fun _ => rfl,
      ⟨[], by simp, List.nodup_nil, fun q => ?_⟩, fun _ _ => rfl⟩
    · rw [if_neg fun hc => UInt64.not_lt.2 hc.1 hc.2]
    · exact absurd hca (UInt64.not_lt.2 hac)
    · simp only [List.not_mem_nil, false_iff]
      rintro ⟨c, ⟨hac, hca⟩, -⟩
      exact UInt64.not_lt.2 hac hca
  refine munmapLoop_ends (I := Taking s addr (addr + length)) (k := length.toNat / 2 ^ 12 + 1)
    (fun a t ha => ha.sound) (fun a t hat hlt hp => ?_) (fun a t p hat hlt hp hfull => ?_) hstart
    (by omega) (by omega)
  all_goals
    have hle := hat.le
    have hbase := hat.base
    have hlt' := hlt
    rw [UInt64.lt_iff_toNat_lt, hstop] at hlt'
  · have hnext : (a + basepageSize).toNat = a.toNat + 2 ^ 12 := by
      rw [UInt64.toNat_add, toNat_basepageSize, Nat.mod_eq_of_lt (by omega)]
    exact ⟨hat.hole (by omega) (fun c => hat.gap (.inl rfl) hbase hnext) hp hlt (by omega), by omega⟩
  · have hal := aligned_iff.1 (hat.sound a p hp).2.1
    have hsa : s.pages a = some p := by rwa [← hat.ahead (UInt64.lt_irrefl a)]
    have hwhole := h.whole a (by simp [hsa]) (UInt64.le_iff_toNat_le.2 hle) hlt
    rw [toNat_hugepageSize] at hwhole
    have hnext : (a + hugepageSize).toNat = a.toNat + 2 ^ 21 := by
      rw [UInt64.toNat_add, toNat_hugepageSize, Nat.mod_eq_of_lt (by omega)]
    exact ⟨hat.page (by omega) (fun c => hat.gap (.inr rfl) hal hnext) hp hlt hfull hs (by omega),
      by omega⟩

/-- In a range that is covered, the pages the loop has passed are those inside the range. -/
theorem Taking.unmaps (h : Taking s addr (addr + length) b t) (hs : s.Sound)
    (hcov : s.Covered addr length) (hb : ¬ b < addr + length) : s.Unmaps t addr length := by
  have hend := hcov.room
  rw [toNat_basepageSize] at hend
  have hstop : (addr + length).toNat = addr.toNat + length.toNat := by
    rw [UInt64.toNat_add, Nat.mod_eq_of_lt (by omega)]
  rw [UInt64.lt_iff_toNat_lt, hstop] at hb
  have hinside : ∀ c, Inside addr length c → addr ≤ c ∧ c < b := fun c ⟨_, hac, hce⟩ => by
    rw [toNat_hugepageSize] at hce
    exact ⟨hac, by rw [UInt64.lt_iff_toNat_lt]; omega⟩
  have hpassed : ∀ c, s.pages c ≠ none → addr ≤ c ∧ c < b → Inside addr length c :=
    fun c hc ⟨hac, hcb⟩ => by
      have hcs := h.inRange c hc hcb hac
      refine ⟨?_, hac, hcov.whole c hc hac hcs⟩
      rintro rfl
      rw [UInt64.le_iff_toNat_le, UInt64.toNat_zero] at hac
      have h0 : addr = 0 := by
        rw [← UInt64.toNat_inj, UInt64.toNat_zero]
        omega
      rw [hcov.dummy hc h0, h0] at hcs
      exact absurd hcs (by decide)
  obtain ⟨l, hl, hnd, hmem⟩ := h.handed
  refine ⟨fun c hc => ?_, fun c hc => ?_, h.frame, ⟨l, hl, hnd, fun q => ?_⟩, fun c q hc hq => ?_⟩
  · rw [h.pages, if_pos (hinside c hc)]
  · rw [h.pages]
    split
    · rename_i hcb
      by_contra hne
      exact hc (hpassed c (Ne.symm hne) hcb)
    · rfl
  · rw [hmem]
    constructor
    · rintro ⟨c, hcb, hq⟩
      exact ⟨c, hpassed c (by simp [hq]) hcb, hq⟩
    · rintro ⟨c, hc, hq⟩
      exact ⟨c, hinside c hc, hq⟩
  · refine h.untouched q fun d had hdb hdq => hc ?_
    rw [← (hs c q hq).1, (hs d q hdq).1]
    exact hpassed d (by simp [hdq]) ⟨had, hdb⟩

theorem State.Unmaps.setKernel {k : Kernel} (h : s.Unmaps t addr length) :
    s.Unmaps { t with kernel := k } addr length :=
  ⟨h.gone, h.kept, h.frame, h.handed, h.untouched⟩

/-- Where the ring of freed pages does not fill up, `hemem_munmap` takes exactly the application's
pages inside the range if and only if the range is covered. -/
theorem munmap_exact_iff (hg : s.Good) (hs : s.Sound) (ha : addr % basepageSize = 0)
    (hroom : addr.toNat + length.toNat < 2 ^ 64)
    (hw : hememMunmap addr length true s ≠ .error .waits) :
    (∃ t, hememMunmap addr length true s = .ok ((), t) ∧ s.Unmaps t addr length) ↔
      s.Covered addr length := by
  have hbase : addr.toNat % 2 ^ 12 = 0 := by
    have := congrArg UInt64.toNat ha
    rwa [UInt64.toNat_mod, toNat_basepageSize, UInt64.toNat_zero] at this
  constructor
  · rintro ⟨t, hr, hu⟩
    rcases hm : munmapLoop (addr + length) loopTurns addr s with e | ⟨⟨⟩, u⟩
    · rw [hememMunmap, bind_of_error hm] at hr
      cases hr
    have hpages : t.pages = u.pages := by
      rw [hememMunmap, bind_of_ok hm] at hr
      cases hr
      rfl
    have hstop : (addr + length).toNat = addr.toNat + length.toNat := by
      rw [UInt64.toNat_add, Nat.mod_eq_of_lt hroom]
    have hkept : ∀ c, s.pages c ≠ none → addr ≤ c → c < addr + length → Inside addr length c := by
      intro c hc hac hcs
      obtain ⟨q, hq⟩ := Option.ne_none_iff_exists'.1 hc
      by_contra hout
      refine hc ?_
      rw [← hu.kept c hout, hpages]
      exact hs.cleared hm hbase (hs c q hq).2.1 hac hcs
    refine ⟨?_, fun c hc hac hcs => (hkept c hc hac hcs).2.2, fun h0 hzero => ?_⟩
    · obtain ⟨k, F, -, -, hle, -⟩ := hs.gone_far hm
      rw [hstop] at hle
      rw [toNat_basepageSize]
      omega
    · by_contra hlen
      refine (hkept 0 h0 (by rw [hzero]; exact UInt64.le_refl 0) ?_).1 rfl
      rw [hzero, UInt64.zero_add]
      exact UInt64.pos_iff_ne_zero.2 hlen
  · intro hcov
    have hsat := hcov.takes hg hs hbase
    rcases hm : munmapLoop (addr + length) loopTurns addr s with e | ⟨⟨⟩, t⟩
    · refine absurd ?_ hw
      rw [hememMunmap, bind_of_error hm, hsat.error hm]
    · obtain ⟨b, hb, ht⟩ := hsat.ok hm
      refine ⟨{ t with kernel := t.kernel.munmap addr length }, ?_, (ht.unmaps hs hcov hb).setKernel⟩
      rw [hememMunmap, bind_of_ok hm]
      rfl

/-- One of two mapped pages is unmapped, and nothing else is. -/
theorem munmap_exact_page : ∃ s t : State, s.pages hugepageSize = some 0 ∧
    hememMunmap hugepageSize hugepageSize true s = .ok ((), t) ∧
      s.Unmaps t hugepageSize hugepageSize := by
  obtain ⟨m, hm, hc⟩ := launch_reach fourFrames Kernel.fresh (fun _ _ => True)
    [.mmap (2 * hugepageSize) 0 hugepageSize]
    (fun m => m.state.pages hugepageSize = some 0 &&
      match hememMunmap hugepageSize hugepageSize true m.state with
      | .ok _ => true
      | .error e => e ≠ .waits) (by decide +kernel)
  simp only [Bool.and_eq_true, decide_eq_true_eq] at hc
  obtain ⟨hg, hs⟩ := hemem_sound hm
  have hw : hememMunmap hugepageSize hugepageSize true m.state ≠ .error .waits :=
    fun hw => by simp [hw] at hc
  have hcov : m.state.Covered hugepageSize hugepageSize := by
    refine ⟨by decide, fun c hp _ hcs => ?_, fun _ h => absurd h (by decide)⟩
    obtain ⟨p, hp⟩ := Option.ne_none_iff_exists'.1 hp
    have hal := aligned_iff.1 (hs c p hp).2.1
    have hend : (hugepageSize + hugepageSize).toNat = 2 ^ 22 := by decide
    rw [UInt64.lt_iff_toNat_lt, hend] at hcs
    rw [toNat_hugepageSize]
    omega
  obtain ⟨t, ht⟩ := (munmap_exact_iff hg hs (by decide) (by decide) hw).2 hcov
  exact ⟨m.state, t, hc.1, ht⟩

/-- The first base page of a page is unmapped, and the whole page is taken. -/
theorem munmap_takes_part : ∃ (m : Memory) (t : State),
    (hemem fourFrames Kernel.fresh).Reach (fun _ _ => True) m ∧
      hememMunmap hugepageSize basepageSize true m.state = .ok ((), t) ∧
      m.state.pages hugepageSize = some 0 ∧ t.pages hugepageSize = none ∧
      ¬ Inside hugepageSize basepageSize hugepageSize ∧
      ¬ m.state.Unmaps t hugepageSize basepageSize := by
  obtain ⟨m, hm, hc⟩ := launch_reach fourFrames Kernel.fresh (fun _ _ => True)
    [.mmap hugepageSize 0 hugepageSize]
    (fun m => match hememMunmap hugepageSize basepageSize true m.state with
      | .ok (_, t) => m.state.pages hugepageSize = some 0 && (t.pages hugepageSize).isNone
      | .error _ => false) (by decide +kernel)
  have hout : ¬ Inside hugepageSize basepageSize hugepageSize := fun h => absurd h.2.2 (by decide)
  split at hc
  · rename_i t hr
    simp only [Bool.and_eq_true, decide_eq_true_eq, Option.isNone_iff_eq_none] at hc
    refine ⟨m, t, hm, hr, hc.1, hc.2, hout, fun hu => ?_⟩
    have hkept := hu.kept hugepageSize hout
    rw [hc.1, hc.2] at hkept
    cases hkept
  · cases hc

end Taking

end HeMem

import HeMem.Proofs.Sample

/-!
# A page marked as requested has a request waiting

The sampler marks a page when it requests it, and the policy thread clears the mark when it serves
the request.  It also takes the requests of pages that have been removed since, and leaves their
marks as they are.  As long as it takes none of these and no request is lost to a full ring, every
marked page has a request in one of the rings.
-/

namespace HeMem

open Hoare Function

variable {cfg : Config} {A : Allow} {kernel : Kernel} {s t : State} {v w : View} {p : PageId}
  {op : Op} {n : ℕ}

section Waiting

/-- Every page marked as requested has a request in a ring. -/
def View.Waiting (v : View) : Prop :=
  ∀ p, (v.page p).ringPresent = true → ∃ hot, p ∈ v.requests hot

/-- Runs without hints in which no request of a removed page is taken. -/
def Allow.served : Allow := ⟨False, False, False, False, False, False⟩

theorem View.Waiting.congr (h : v.Waiting)
    (hp : ∀ p, (w.page p).ringPresent = true → (v.page p).ringPresent = true)
    (hr : w.requests = v.requests) : w.Waiting := fun p hw => hr ▸ h p (hp p hw)

theorem View.Waiting.move (h : v.Waiting) (hd : ¬ A.drop) (hm : Move A v w) : w.Waiting := by
  cases hm with
  | cursor c hc => exact h
  | drain hf hl hc => exact h
  | skip l hs hl => exact h
  | stale hot ha hr hp => exact absurd ha hd
  | @serve hot p rest hr hp hc hl =>
    intro x hx
    simp only [View.put, View.edit, View.setRequests, update_apply] at hx ⊢
    split at hx
    · cases hx
    · rename_i hxp
      obtain ⟨hot', hw⟩ := h x hx
      refine ⟨hot', ?_⟩
      split
      · rename_i heq
        subst heq
        rw [hr] at hw
        exact (List.mem_cons.1 hw).resolve_left hxp
      · exact hw
  | coolNvm hl hc =>
    refine h.congr (fun x => ?_) rfl
    simp only [View.put, View.edit, update_apply]
    split_ifs with hx <;> simp [hx]
  | cool dram hot c hl ht hh hc =>
    refine h.congr (fun x => ?_) rfl
    simp only [View.setCur, View.put, View.edit, update_apply]
    split_ifs with hx <;> simp [hx]
  | promote hf hl hc hn he hp =>
    refine h.congr (fun x => ?_) rfl
    simp only [View.exchange, View.put, View.edit, View.remap, View.call, HememPage.clearCounters,
      update_apply]
    split_ifs <;> simp_all
  | demote hf hl hn he =>
    refine h.congr (fun x => ?_) rfl
    simp only [View.exchange, View.put, View.edit, View.remap, View.call, HememPage.clearCounters,
      update_apply]
    split_ifs <;> simp_all

/-- A sample that puts no request on a full ring. -/
theorem View.Waiting.sampled {j : PbufType} (h : s.view.Waiting) (hg : s.Good)
    (ho : Op.NoOverflow s (.sample j p)) (hh : Handled s j p t) : t.view.Waiting := by
  intro x hx
  have hentries : ∀ hot, t.view.requests hot = if s.sampleRequests j p = some hot then
      s.view.requests hot ++ [p] else s.view.requests hot := fun hot => by
    have ht : t.view.requests hot = (t.requestRing hot).entries := rfl
    rw [ht, hh.ring]
    split
    · rename_i hr
      rw [((hg.requests hot).put (x := p)).2, if_neg (by simp [ho hot hr])]
      rfl
    · rfl
  have hold : (s.page x).ringPresent = true → ∃ hot, x ∈ t.view.requests hot := fun hs => by
    obtain ⟨hot, hw⟩ := h x hs
    refine ⟨hot, ?_⟩
    rw [hentries]
    split
    · exact List.mem_append_left _ hw
    · exact hw
  have hx : (t.page x).ringPresent = true := hx
  rcases eq_or_ne x p with rfl | hxp
  · rw [hh.ringPresent, Bool.or_eq_true] at hx
    rcases hx with hr | hs
    · obtain ⟨hot, hr⟩ := Option.isSome_iff_exists.1 hr
      refine ⟨hot, ?_⟩
      rw [hentries, if_pos hr]
      simp
    · exact hold hs
  · rw [hh.other x hxp] at hx
    exact hold hx

/-- Without hints, a run in which no request of a removed page is taken goes through no defect. -/
theorem Op.Plain.within (hl : op.Legal cfg s) (hp : op.Plain) (hd : op.NoDrop s) (hg : s.Good)
    (hI : Inv cfg.pages Allow.none s.view) : op.Within cfg Allow.served s := by
  obtain ⟨-, h1, h2, h3, h4, -⟩ := hI.within hg hl hp
  exact ⟨hl, h1, h2, h3, h4, .inr hd⟩

theorem View.Waiting.run (h : s.view.Waiting) (hg : s.Good) (hI : Inv cfg.pages Allow.none s.view)
    (hl : op.Legal cfg s) (hp : op.Plain) (hd : op.NoDrop s) (ho : op.NoOverflow s)
    (hr : op.run cfg s = .ok ((), t)) : t.view.Waiting := by
  obtain ⟨-, heff⟩ := (Op.run_effect hg (hp.within hl hd hg hI)).ok hr
  cases op with
  | hint | fault => exact hp.elim
  | allocate =>
    generalize t.view = w at heff ⊢
    cases heff
    refine h.congr (fun x => ?_) rfl
    simp only [View.alloc, View.put, View.edit, update_apply]
    split_ifs with hx <;> simp [hx]
  | assign page va =>
    generalize t.view = w at heff ⊢
    cases heff
    refine h.congr (fun x => ?_) rfl
    simp only [View.edit, update_apply]
    split_ifs with hx <;> simp [hx]
  | remove page =>
    generalize t.view = w at heff ⊢
    cases heff
    refine h.congr (fun x => ?_) rfl
    simp only [View.remove, View.edit, HememPage.clearCounters, update_apply]
    split_ifs with hx <;> simp [hx]
  | sample j page =>
    by_cases hva : (s.page page).va = 0
    · generalize t.view = w at heff ⊢
      cases heff with
      | sample j hs =>
        rcases hs with rfl | ⟨hne, -⟩
        · exact h
        · exact absurd hva hne
    · exact h.sampled hg ho ((samplePage_handled hva).ok hr)
  | pass =>
    generalize t.view = w at heff ⊢
    cases heff with
    | pass hm => exact hm.invariant h fun _ _ hv hm => hv.move id hm

/-- In a run without hints that takes no request of a removed page and puts none on a full ring,
every page marked as requested has a request waiting. -/
theorem requested_pages_wait (h : (policy cfg kernel).Reach
    (fun s op => op.Legal cfg s ∧ op.Plain ∧ op.NoDrop s ∧ op.NoOverflow s) s)
    (hp : (s.page p).ringPresent = true) : p ∈ s.hotRing.entries ∨ p ∈ s.coldRing.entries := by
  have hinv : (s.Good ∧ Inv cfg.pages Allow.none s.view ∧ Framed cfg s.view) ∧ s.view.Waiting := by
    refine h.invariant (I := fun s => (s.Good ∧ Inv cfg.pages Allow.none s.view ∧
      Framed cfg s.view) ∧ s.view.Waiting) (fun s hs => ?_)
      fun s op t ⟨hg, hw⟩ ⟨hl, hpl, hd, ho⟩ hs => ?_
    · refine ⟨plain_reach (.init hs), fun p hp => ?_⟩
      rw [(pebsInit_sat.ok hs).2] at hp
      simp only [View.initial, initPage] at hp
      split_ifs at hp
    · exact ⟨(framed_kept.run hg.1 hg.2 (hg.2.1.within hg.1 hl hpl)).ok hs,
        hw.run hg.1 hg.2.1 hl hpl hd ho hs⟩
  obtain ⟨hot, hm⟩ := hinv.2 p hp
  cases hot
  · exact .inr hm
  · exact .inl hm

/-- Eight samples request page 0 for hot. -/
theorem requested_pages_wait_sampled : ∃ s : State, (s.page 0).ringPresent = true ∧
    (0 ∈ s.hotRing.entries ∨ 0 ∈ s.coldRing.entries) := by
  obtain ⟨s, hs, hP⟩ := policy_reach fourFrames Kernel.fresh
    (fun s op => op.Legal fourFrames s ∧ op.Plain ∧ op.NoDrop s ∧ op.NoOverflow s)
    (fun _ _ => id) (.allocate :: .assign 0 hugepageSize :: List.replicate 8 (.sample .dramread 0))
    (fun s => (s.page 0).ringPresent) (by decide +kernel)
  exact ⟨s, hP, requested_pages_wait hs hP⟩

/-- Page 0 is requested and removed, its request taken, and the page given out again. -/
theorem requested_page_stuck : ∃ s, (policy fourFrames Kernel.fresh).Reach
    (fun s op => op.Legal fourFrames s ∧ op.Plain) s ∧ (s.page 0).present = true ∧
      (s.page 0).ringPresent = true ∧ s.hotRing.entries = [] ∧ s.coldRing.entries = [] := by
  obtain ⟨s, hs, hP⟩ := policy_reach fourFrames Kernel.fresh
    (fun s op => op.Legal fourFrames s ∧ op.Plain) (fun _ _ => id)
    (.allocate :: .assign 0 hugepageSize :: List.replicate 8 (.sample .dramread 0) ++
      [.remove 0, .pass, .allocate, .allocate])
    (fun s => decide ((s.page 0).present = true ∧ (s.page 0).ringPresent = true ∧
      s.hotRing.entries = [] ∧ s.coldRing.entries = [])) (by decide +kernel)
  exact ⟨s, hs, of_decide_eq_true hP⟩

end Waiting

end HeMem

import HeMem.Proofs.Enforced

/-!
# When a fault finds a page

A fault without a hint needs a page on a free list; pages that wait in the free-page ring are on
none.  A fault hinted for DRAM that finds no free DRAM page needs a cold page to move down and a
free NVM page to move it to.
-/

namespace HeMem

open Hoare Function

variable {cfg : Config} {A : Allow} {kernel : Kernel} {s t : State} {v w : View} {p : PageId}
  {op : Op} {n : ℕ}

section Finds

theorem hintedTakeFree_returns (hI : Inv n A v) : Spec hintedTakeFree v
    (fun r _ => r ≠ none ∨ ∀ x, v.list x ≠ some .dramFree) (fun _ => False) := by
  have reset : ∀ (p : PageId) (v : View), Spec (do
      modify fun s : State => { s with userHintTier := -1, userHintPriority := -1 }
      return some p) v (fun r _ => r ≠ none) (fun _ => False) := fun p v =>
    spec_modify (w := v.setPriority (-1)) (fun s hs hv => by
      subst hv
      exact ⟨⟨hs.fifo, hs.requests, hs.free⟩, rfl⟩) (spec_pure (by simp))
  unfold hintedTakeFree
  refine spec_dequeue (fun hn => spec_pure (.inr hn)) fun p hp => ?_
  refine spec_getPage (spec_check (fun hn => hn (hI.tier p _ hp)) fun _ => ?_)
  refine spec_getPage (spec_check (fun hn => hn (hI.free p _ hp rfl)) fun _ => ?_)
  refine spec_get fun s _ _ => spec_modifyPage (spec_get fun s' _ hv => ?_)
  refine spec_ite (fun _ => ?_) fun _ => ?_ <;>
  · refine spec_enqueue (by simp) ?_
    exact (reset p _).mono (fun _ _ => .inl) fun _ => id

theorem give_returns {d : Bool} (hI : Inv n A v) (hp : v.list p = some (freeList d)) :
    Spec (do
      check ((← getPage p).inDram = d) .allocInDram
      check ((← getPage p).present = false) .allocPresent
      modifyPage p ({ · with present := true })
      onFifo (enqueueFifo (coldList d) p)
      return p) (v.off p) (fun _ _ => True) (fun _ => False) := by
  have hin : (v.page p).inDram = d := (hI.tier p _ hp).trans (dram_freeList d)
  refine spec_getPage (spec_check (fun hn => hn hin) fun _ => ?_)
  refine spec_getPage (spec_check (fun hn => hn (hI.free p _ hp (kind_freeList d))) fun _ => ?_)
  exact spec_modifyPage (spec_enqueue (by simp) (spec_pure trivial))

theorem last_eq_none (hg : s.Good) {q : ListId} :
    (s.fifo.list q).last = none ↔ ∀ x, s.view.list x ≠ some q := by
  rw [hg.fifo.last_eq, List.getLast?_eq_none_iff, List.eq_nil_iff_forall_not_mem]
  exact forall_congr' fun x => not_congr hg.fifo.mem_contents

/-- Without a hint, an allocation returns if there is a free page and aborts if there is none. -/
theorem pebsAllocatePage_finds (hg : s.Good) (hI : Inv n A s.view) (ht : s.userHintTier ≠ 0) :
    Sat pebsAllocatePage (fun _ _ => s.FaultFinds) (fun _ => ¬ s.FaultFinds) s := by
  unfold State.FaultFinds
  rw [not_or, not_and_or, not_not, not_not, ne_eq, ne_eq, last_eq_none hg, last_eq_none hg]
  have hspec : Spec pebsAllocatePage s.view (fun _ _ => (¬ ∀ x, s.view.list x ≠ some .dramFree) ∨
      ¬ ∀ x, s.view.list x ≠ some .nvmFree) (fun _ => (∀ x, s.view.list x ≠ some .dramFree) ∧
        ∀ x, s.view.list x ≠ some .nvmFree) := by
    unfold pebsAllocatePage
    refine spec_dequeue (fun hd => ?_) fun p hp => ?_
    · refine spec_dequeue (fun hn => spec_throw ⟨hd, hn⟩) fun p hp => ?_
      exact (give_returns (d := false) hI hp).mono (fun _ _ _ => .inr fun h => h p hp)
        fun _ => False.elim
    · exact (give_returns (d := true) hI hp).mono (fun _ _ _ => .inl fun h => h p hp)
        fun _ => False.elim
  exact (hspec.at hg rfl).mono (fun _ _ h => h.2.imp_right fun h => ⟨h, fun h0 => absurd h0 ht⟩)
    fun _ h => ⟨h.1, .inl h.2⟩

/-- The victim search where no page is enforced. -/
theorem coldVictim_finds (hg : s.Good) (hen : ∀ p, (s.page p).enforced = false) :
    Sat (coldVictim ((s.fifo.list .dramCold).numentries + 1)) (fun r s' => s'.Good ∧
      r = s.victim ∧ ∀ c, r = some c → s.view.list c = some .dramCold ∧
        s'.view = s.view.off c) (fun _ => False) s := by
  have hlen : (s.fifo.contents .dramCold).length < (s.fifo.list .dramCold).numentries + 1 := by
    rw [hg.fifo.length_contents]
    omega
  refine (coldVictim_sat hg hlen).post fun r s' ⟨hg', hvic, l, _, hl, _, hr⟩ =>
    ⟨hg', hvic, fun c hc => ?_⟩
  obtain ⟨hcl, -, hv⟩ := hr c hc
  rw [hl fun c _ => hen c] at hcl hv
  exact ⟨hcl, hv⟩

/-- Where no page is enforced, a fault hinted for DRAM returns or aborts by whether there is a free
DRAM page, or a cold one with its address and a free NVM page. -/
theorem userHintedDramPebsAllocatePage_finds (hg : s.Good) (hI : Inv cfg.pages A s.view)
    (hF : Framed cfg s.view) (hs : A.stale) (hen : ∀ p, (s.page p).enforced = false)
    (ht : s.userHintTier = 0) : Sat (userHintedDramPebsAllocatePage cfg)
      (fun _ _ => s.FaultFinds) (fun _ => ¬ s.FaultFinds) s := by
  unfold userHintedDramPebsAllocatePage
  rcases hg.fifo.dequeue .dramFree with ⟨he, -, hno⟩ | ⟨x, -, -, -, -, hx, -, -⟩
  · have htake : Sat hintedTakeFree (fun r s' => r = none ∧ s = s') (fun _ => False) s := by
      unfold hintedTakeFree
      rw [sat_bind, sat_onFifo he]
      exact ⟨rfl, rfl⟩
    refine (htake.mono (fun _ _ => id) fun _ => False.elim).bind fun r s' h => ?_
    obtain ⟨rfl, rfl⟩ := h
    dsimp only
    have hempty : (s.fifo.list .dramFree).last = none := (last_eq_none hg).2 hno
    have hfinds : s.FaultFinds ↔ (∃ x, s.view.list x = some .nvmFree) ∧
        ∃ c, s.victim = some c ∧ (s.page c).va ≠ 0 := by
      unfold State.FaultFinds
      rw [ne_eq, ne_eq, hempty, last_eq_none hg]
      simp [ht]
    rw [hfinds, listLength, sat_bind, sat_bind, sat_get, sat_pure]
    refine ((coldVictim_finds hg hen).mono (fun _ _ => id) fun _ => False.elim).bind
      fun r s' h => ?_
    obtain ⟨hg', hvic, hr⟩ := h
    rw [← hvic]
    rcases r with _ | cp
    · refine Sat.bind (Q := fun _ _ => True) (sat_true.mono (fun _ _ => id) ?_) fun _ _ _ => ?_
      all_goals simp
    obtain ⟨hcp, hv'⟩ := hr cp rfl
    refine (Spec.at (Q := fun _ _ => (∃ x, s.view.list x = some .nvmFree) ∧
      (s.page cp).va ≠ 0) ?_ hg' hv').mono
      (fun _ _ h => ⟨h.2.1, cp, rfl, h.2.2⟩) fun _ => id
    refine spec_dequeue (fun hn => spec_throw ?_) fun np hnp => ?_
    · rintro ⟨⟨x, hx⟩, -⟩
      have hxc : x ≠ cp := by
        rintro rfl
        simp [hcp] at hx
      exact hn x (by simpa [hxc] using hx)
    have hne : cp ≠ np := by
      rintro rfl
      simp at hnp
    have hnp : s.view.list np = some .nvmFree := by simpa [hne.symm] using hnp
    refine ((exchange_spec false cp np (by simp [hne]) (by simp) hne fun _ => hen cp).mono
      (fun _ _ => id) fun e he => ?_).bind fun _ v₂ h₂ => ?_
    · rintro ⟨-, c, hc, hva⟩
      cases hc
      have he' : ExchangeFails cfg s.view false cp np e := he.congr rfl
      obtain ⟨rfl, -⟩ := hI.exchangeFails hF hcp hnp he'
      cases he' with
      | wpVa h => exact hva h
    obtain ⟨he, hv₂⟩ := h₂
    have he' : Exchangeable s.view false cp np := he.congr rfl
    rw [exchange_off] at hv₂
    have hI₂ : Inv cfg.pages A v₂ := hv₂ ▸ hI.move (.demote (.inr (.inl hs)) hcp hnp he')
    refine ((hintedTakeFree_returns hI₂).mono (fun _ _ => id) fun _ => False.elim).bind
      fun r _ hr => ?_
    rcases r with _ | p
    · refine absurd ?_ (hr.resolve_left (fun h => h rfl) np)
      rw [hv₂]
      simp [View.exchange, freeList]
    · exact spec_pure ⟨⟨np, hnp⟩, he'.va⟩
  · have hfinds : s.FaultFinds := .inl fun h => (last_eq_none hg).1 h x hx
    refine (((hintedTakeFree_returns hI).at hg rfl).mono (fun _ _ => id) fun _ => False.elim).bind
      fun r s' hr => ?_
    rcases r with _ | p
    · exact absurd hx (hr.2.resolve_left (fun h => h rfl) x)
    · exact hfinds

theorem pebsPagefault_finds (hg : s.Good) (hI : Inv cfg.pages A s.view)
    (hF : Framed cfg s.view) (hs : A.stale) (hen : ∀ p, (s.page p).enforced = false) :
    Sat (pebsPagefault cfg) (fun _ _ => s.FaultFinds) (fun _ => ¬ s.FaultFinds) s := by
  unfold pebsPagefault
  rw [sat_bind, sat_get, sat_ite]
  exact ⟨userHintedDramPebsAllocatePage_finds hg hI hF hs hen, pebsAllocatePage_finds hg hI⟩

/-- No page is enforced. -/
def View.Unenforced (v : View) : Prop := ∀ p, (v.page p).enforced = false

theorem View.Unenforced.moves (h : v.Unenforced) (hI : Inv n A v) (hm : Moves A v w) :
    w.Unenforced :=
  (hm.invariant (I := fun v => Inv n A v ∧ v.Unenforced) ⟨hI, h⟩
    fun _ _ h hm => ⟨h.1.move hm, fun p => (hm.marks h.1 p).2.trans (h.2 p)⟩).2

theorem View.Unenforced.edit (h : v.Unenforced) {f : HememPage → HememPage}
    (hf : (f (v.page p)).enforced = false) : (v.edit p f).Unenforced := fun x => by
  rw [View.edit_page, update_apply]
  split
  · exact hf
  · exact h x

/-- A fault enforces its page only for a persistent hint. -/
theorem View.Unenforced.fault (h : s.view.Unenforced) (hg : s.Good)
    (hI : Inv cfg.pages Allow.legal s.view) (hp : s.userHintPersistence ≠ 1)
    (hr : pebsPagefault cfg s = .ok (p, t)) : t.view.Unenforced := by
  by_cases ht : s.userHintTier = 0
  · rw [pebsPagefault_hinted ht] at hr
    have he : (t.view.page p).enforced = false :=
      (userHintedDramPebsAllocatePage_enforced.ok hr).trans (decide_eq_false hp)
    obtain ⟨-, v₁, hm, q, e, -, -, hv⟩ := (userHintedDramPebsAllocatePage_sat
      (A := Allow.legal) hg ht (.inl trivial) (.inl trivial) (.inl trivial)).ok hr
    rw [hv] at he ⊢
    simp only [View.setPriority, View.alloc, View.put, View.edit, update_self] at he
    exact (h.moves hI hm).edit (f := ({ · with present := true, enforced := e })) he
  · rw [pebsPagefault_plain ht] at hr
    have hspec : Sat pebsAllocatePage _ (Fails cfg s.view) s := pebsAllocatePage_spec.at hg rfl
    obtain ⟨-, dram, -, hv⟩ := hspec.ok hr
    rw [hv]
    exact h.edit (f := ({ · with present := true, enforced := (s.view.page p).enforced })) (h p)

theorem View.Unenforced.run (h : s.view.Unenforced) (hg : s.Good)
    (hI : Inv cfg.pages Allow.legal s.view) (hp : s.userHintPersistence ≠ 1)
    (hl : op.Legal cfg s) (hr : op.run cfg s = .ok ((), t)) : t.view.Unenforced := by
  obtain ⟨-, heff⟩ := (Op.run_effect hg hl.within).ok hr
  by_cases hop : op = .fault
  · subst hop
    obtain ⟨p, hf⟩ := ok_of_dropped hr
    exact h.fault hg hI hp hf
  · generalize t.view = w at heff ⊢
    cases heff with
    | hint tier persistence priority => exact h
    | @allocate p dram hf =>
      exact h.edit (f := ({ · with present := true, enforced := (s.view.page p).enforced })) (h p)
    | fault hf => exact absurd rfl hop
    | assign page va => exact h.edit (h page)
    | remove page =>
      exact View.Unenforced.edit (v := { s.view with free := s.view.free ++ [page] }) h (h page)
    | @sample j page w hs =>
      rcases hs with rfl | ⟨-, hot, l, c, r, a, t, -, rfl⟩
      · exact h
      · exact View.Unenforced.edit (v := s.view.setRequests hot l) h (h page)
    | pass hm => exact h.moves hI hm

/-- Without persistent hints no page is enforced. -/
theorem unenforced (h : (policy cfg kernel).Reach (fun s op => op.Legal cfg s ∧ op.Flexible) s) :
    ∀ p, (s.page p).enforced = false := by
  have hinv : (s.Good ∧ Inv cfg.pages Allow.legal s.view) ∧ s.userHintPersistence ≠ 1 ∧
      s.view.Unenforced := by
    refine h.invariant (I := fun s => (s.Good ∧ Inv cfg.pages Allow.legal s.view) ∧
      s.userHintPersistence ≠ 1 ∧ s.view.Unenforced) (fun s hs => ?_)
      fun s op s' ⟨⟨hg, hI⟩, hp, hu⟩ ⟨hl, hfl⟩ hs => ?_
    · obtain ⟨hg, hv⟩ := pebsInit_sat.ok hs
      refine ⟨⟨hg, hv ▸ inv_initial kernel⟩, ?_, fun p => ?_⟩
      · have hp : s.userHintPersistence = 0 :=
          (quiet_persistence.pebsInit (State.blank kernel)).ok hs
        simp [hp]
      · rw [hv]
        simp only [View.initial, initPage]
        split_ifs <;> rfl
    · refine ⟨(inv_kept.run hg hI hl.within).ok hs, ?_, hu.run hg hI hp hl hs⟩
      cases op with
      | hint tier persistence priority =>
        cases hs
        exact hfl
      | _ =>
        have hframe := (Op.run_persistence (by simp) s).ok hs
        exact hframe ▸ hp
  exact hinv.2.2

/-- In every run without persistent hints, while not all pages are given out, a fault returns a page
exactly if it finds one on a free list or can move one down. -/
theorem fault_returns_iff (h : (policy cfg kernel).Reach
    (fun s op => op.Legal cfg s ∧ op.Flexible) s) :
    (s.presentPages cfg < cfg.pages → ∃ p s', pebsPagefault cfg s = .ok (p, s')) ↔
      (s.presentPages cfg < cfg.pages → s.FaultFinds) := by
  obtain ⟨hg, hI, hF⟩ := framed_kept.reach (A := Allow.legal)
    ⟨inv_initial kernel, framed_initial cfg kernel⟩ (h.mono fun _ _ hc => hc.1.within)
  have hsat := pebsPagefault_finds hg hI hF trivial (unenforced h)
  refine imp_congr_right fun _ => ⟨?_, fun hfinds => ?_⟩
  · rintro ⟨p, s', hr⟩
    exact hsat.ok hr
  · rcases hr : pebsPagefault cfg s with e | ⟨p, s'⟩
    · exact absurd hfinds (hsat.error hr)
    · exact ⟨p, s', rfl⟩

/-- A hinted fault moves a cold page down. -/
theorem fault_returns_iff_moved : ∃ s : State,
    (s.presentPages fourFrames < fourFrames.pages →
      ∃ p s', pebsPagefault fourFrames s = .ok (p, s')) ∧ (s.fifo.list .dramFree).last = none := by
  obtain ⟨s, hs, hP⟩ := policy_reach fourFrames Kernel.fresh
    (fun s op => op.Legal fourFrames s ∧ op.Flexible) (fun _ _ => id)
    [.allocate, .assign 0 hugepageSize, .allocate, .hint 0 0 0]
    (fun s => (s.fifo.list .dramFree).last = none && (s.fifo.list .nvmFree).last ≠ none &&
      s.victim = some 0 && (s.page 0).va ≠ 0) (by decide +kernel)
  simp only [Bool.and_eq_true, decide_eq_true_eq] at hP
  obtain ⟨⟨⟨hd, hn⟩, hv⟩, hva⟩ := hP
  exact ⟨s, (fault_returns_iff hs).2 fun _ => .inr ⟨hn, fun _ => ⟨0, hv, hva⟩⟩, hd⟩

/-- Both DRAM pages are taken as hot; the next hinted fault finds no cold page to move down, and both
NVM pages are free. -/
theorem free_pages_not_found : ∃ s, (policy fourFrames Kernel.fresh).Reach
    (fun s op => op.Legal fourFrames s ∧ op.Flexible) s ∧
      s.presentPages fourFrames = 2 ∧ fourFrames.pages = 4 ∧
        pebsPagefault fourFrames s = .error .outOfMemory := by
  obtain ⟨s, hs, hP⟩ := policy_reach fourFrames Kernel.fresh
    (fun s op => op.Legal fourFrames s ∧ op.Flexible) (fun _ _ => id)
    [.hint 0 0 1, .fault, .hint 0 0 1, .fault, .hint 0 0 0]
    (fun s => s.presentPages fourFrames = 2 && match pebsPagefault fourFrames s with
      | .error e => e = .outOfMemory
      | .ok _ => false) (by decide +kernel)
  simp only [Bool.and_eq_true, decide_eq_true_eq] at hP
  refine ⟨s, hs, hP.1, by decide, ?_⟩
  rcases hr : pebsPagefault fourFrames s with e | r
  · simp only [hr, decide_eq_true_eq] at hP
    rw [hP.2]
  · simp [hr] at hP

end Finds

end HeMem

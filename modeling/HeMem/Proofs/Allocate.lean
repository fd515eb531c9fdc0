import HeMem.Proofs.Walk

/-!
# The allocators, the removal and the sampler between views

A page fault may first make the moves of a victim search and a demotion; then a free page is given
out.  The other entry points change one page and one ring.
-/

namespace HeMem

open Hoare Function

variable {α β : Type} {cfg : Config} {A : Allow} {v w : View} {p : PageId}

section Allocation

/-- A free page `p`, as the allocators assert it to be. -/
structure Free (v : View) (p : PageId) (dram : Bool) : Prop where
  list : v.list p = some (freeList dram)
  inDram : (v.page p).inDram = dram
  present : (v.page p).present = false

theorem alloc_off {q : ListId} {e : Bool} : (v.off p).alloc p q e = v.alloc p q e := by
  simp [View.alloc, View.off, View.put, View.edit]

/-- What `pebs_allocate_page` does with a page it has taken off a free list. -/
theorem give_spec {d : Bool} (hl : v.list p = some (freeList d)) : Spec (do
      check ((← getPage p).inDram = d) .allocInDram
      check ((← getPage p).present = false) .allocPresent
      modifyPage p ({ · with present := true })
      onFifo (enqueueFifo (coldList d) p)
      return p) (v.off p)
    (fun r v' => ∃ d, Free v r d ∧ v' = v.alloc r (coldList d) (v.page r).enforced)
    (Fails cfg v) := by
  refine spec_getPage (spec_check (fun hn => ?_) fun hin => ?_)
  · exact .takeInDram d hl hn (.inl rfl)
  refine spec_getPage (spec_check (fun hn => ?_) fun hpr => ?_)
  · exact .takePresent d hl (by simpa using hn) (.inr (.inl rfl))
  refine spec_modifyPage (spec_enqueue (by simp) (spec_pure ⟨d, ⟨hl, hin, hpr⟩, ?_⟩))
  rw [← alloc_off]
  rfl

theorem pebsAllocatePage_spec : Spec pebsAllocatePage v
    (fun r v' => ∃ dram, Free v r dram ∧ v' = v.alloc r (coldList dram) (v.page r).enforced)
    (Fails cfg v) := by
  unfold pebsAllocatePage
  refine spec_dequeue (fun _ => ?_) fun p hp => give_spec (d := true) hp
  exact spec_dequeue (fun _ => spec_throw .outOfMemory) fun p hp => give_spec (d := false) hp

/-- A hinted fault gives out the free page `p`. -/
def Hinted (A : Allow) (v : View) (p : PageId) (v' : View) : Prop :=
  ∃ q e, Free v p true ∧ (q = .dramCold ∨ q = .dramHot ∧ A.hotFault) ∧
    v' = (v.alloc p q e).setPriority (-1)

/-- The end of a hinted fault: the hints are used up. -/
theorem resetHints_spec {q : ListId} {e : Bool} (hf : Free v p true)
    (hq : q = .dramCold ∨ q = .dramHot ∧ A.hotFault) : Spec (do
      modify fun s : State => { s with userHintTier := -1, userHintPriority := -1 }
      return some p) ((v.off p).alloc p q e) (fun r v' => r = some p ∧ Hinted A v p v')
      (Fails cfg v) := by
  rw [alloc_off]
  refine spec_modify (fun s hs hv => ⟨⟨hs.fifo, hs.requests, hs.free⟩, ?_⟩)
    (spec_pure ⟨rfl, q, e, hf, hq, rfl⟩)
  rw [← hv]
  rfl

theorem hintedTakeFree_spec (hh : A.hotFault ∨ v.priority ≠ 1) : Spec hintedTakeFree v
    (fun r v' => r = none ∧ v' = v ∧ (∀ x, v.list x ≠ some .dramFree) ∨
      ∃ p, r = some p ∧ Hinted A v p v') (Fails cfg v) := by
  unfold hintedTakeFree
  refine spec_dequeue (fun hn => spec_pure (.inl ⟨rfl, rfl, hn⟩)) fun p hp => ?_
  refine spec_getPage (spec_check (fun hn => ?_) fun hin => ?_)
  · exact .takeInDram true hp hn (.inr rfl)
  refine spec_getPage (spec_check (fun hn => ?_) fun hpr => ?_)
  · exact .takePresent true hp (by simpa using hn) (.inr (.inr rfl))
  have hfree : Free v p true := ⟨hp, hin, hpr⟩
  refine spec_get fun s _ _ => spec_modifyPage (spec_get fun s' _ hv => ?_)
  refine spec_ite (fun hpri => ?_) fun _ => ?_
  · have hhot := hh.resolve_right fun hn => hn ((congrArg View.priority hv).symm.trans hpri)
    refine spec_enqueue (by simp) ?_
    exact Spec.mono (resetHints_spec hfree (.inr ⟨rfl, hhot⟩)) (fun r v' h => .inr ⟨p, h⟩) fun _ => id
  · refine spec_enqueue (by simp) ?_
    exact Spec.mono (resetHints_spec hfree (.inl rfl)) (fun r v' h => .inr ⟨p, h⟩) fun _ => id

/-- What a fault leaves: after some moves, a free page given out.  A page hinted hot goes to the
hot list only if such faults are allowed. -/
def Faulted (A : Allow) (v : View) (p : PageId) (v' : View) : Prop :=
  ∃ v₁, Moves A v v₁ ∧ ((∃ dram, v₁ = v ∧ Free v p dram ∧
    v' = v.alloc p (coldList dram) (v.page p).enforced) ∨ A.hint ∧ Hinted A v₁ p v')

/-- What a fault hinted for DRAM leaves. -/
def HintFaulted (A : Allow) (v : View) (p : PageId) (v' : View) : Prop :=
  ∃ v₁, Moves A v v₁ ∧ Hinted A v₁ p v'

theorem userHintedDramPebsAllocatePage_sat {s : State} (hg : s.Good) (ht : s.userHintTier = 0)
    (hs : A.skip ∨ ¬ s.FaultMeets) (hst : A.stale ∨ ¬ s.FaultStale)
    (hh : A.hotFault ∨ ¬ s.HotFault) : Sat (userHintedDramPebsAllocatePage cfg)
      (fun p s' => s'.Good ∧ HintFaulted A s.view p s'.view) (Doomed cfg A s.view) s := by
  have hpri : A.hotFault ∨ s.view.priority ≠ 1 := hh.imp_right fun h hp => h ⟨ht, hp⟩
  unfold userHintedDramPebsAllocatePage
  rcases hg.fifo.dequeue .dramFree with ⟨he, hcont, -⟩ | ⟨x, -, -, -, -, hx, -, -⟩
  · have htake : Sat hintedTakeFree (fun r s' => r = none ∧ s = s') (fun _ => False) s := by
      unfold hintedTakeFree
      rw [sat_bind, sat_onFifo he]
      exact ⟨rfl, rfl⟩
    refine (htake.mono (fun _ _ => id) fun _ => False.elim).bind fun r s' h => ?_
    obtain ⟨rfl, rfl⟩ := h
    dsimp only
    have hempty : (s.fifo.list .dramFree).last = none := by
      rw [hg.fifo.last_eq, hcont]
      rfl
    have hlen : (s.fifo.contents .dramCold).length < (s.fifo.list .dramCold).numentries + 1 := by
      rw [hg.fifo.length_contents]
      omega
    rw [listLength, sat_bind, sat_bind, sat_get, sat_pure]
    refine ((coldVictim_sat hg hlen).mono (fun _ _ => id) fun _ => False.elim).bind
      fun r s' h => ?_
    obtain ⟨hg', hvic, l, hd, hl, hn, hr⟩ := h
    have hm : Moves A s.view { s.view with list := l } := by
      rcases hs with hs | hs
      · exact .one (.skip l hs hd)
      · rw [hl fun c hc => ?_]
        · exact .refl
        · by_contra hen
          exact hs ⟨ht, hempty, c, hc, by simpa using hen⟩
    rcases r with _ | cp
    · refine Spec.at (v := { s.view with list := l }) ?_ hg' (hn rfl)
      exact spec_dequeue (fun _ => spec_throw Fails.outOfMemory.doomed)
        fun _ _ => spec_throw Fails.outOfMemory.doomed
    obtain ⟨hcp, hen, hv'⟩ := hr cp rfl
    refine Spec.at (v := ({ s.view with list := l } : View).off cp) ?_ hg' hv'
    refine spec_dequeue (fun _ => spec_throw Fails.outOfMemory.doomed) fun np hnp => ?_
    have hne : cp ≠ np := by
      rintro rfl
      simp at hnp
    have hnp : l np = some .nvmFree := by simpa [hne.symm] using hnp
    refine ((exchange_spec false cp np (by simp [hne]) (by simp) hne fun _ => hen).mono
      (fun _ _ => id) fun e he => ?_).bind fun _ v₂ h₂ => ?_
    · exact hm.doomed
        (Fails.exchange (v := { s.view with list := l }) false hcp hnp (he.congr rfl)).doomed
    obtain ⟨he, hv₂⟩ := h₂
    have hstale : ([] : List PageId) = s.view.free ∨ A.stale ∨ (s.view.page cp).present = true := by
      refine .inr (hst.imp_right fun hst => ?_)
      by_contra hpr
      refine hst ⟨ht, hempty, ?_, cp, hvic.symm, Bool.eq_false_iff.2 hpr⟩
      have hnvm : s.view.list np = some .nvmFree := by
        rcases hd np with h | h
        · rwa [h] at hnp
        · simp [h.1] at hnp
      rw [hg.fifo.last_eq]
      intro hnone
      have hmem := hg.fifo.mem_contents.2 hnvm
      simp [List.getLast?_eq_none_iff.1 hnone] at hmem
    have hm₂ : Moves A s.view v₂ := by
      refine hm.trans (.one ?_)
      rw [hv₂, exchange_off]
      exact Move.demote (hstale.imp_left Eq.symm) hcp hnp (he.congr rfl)
    have hpri₂ : A.hotFault ∨ v₂.priority ≠ 1 := by
      rw [hv₂]
      exact hpri
    refine ((hintedTakeFree_spec hpri₂).mono (fun _ _ => id) fun e he => hm₂.doomed he.doomed).bind
      fun r v₃ h₃ => ?_
    rcases h₃ with ⟨rfl, -, -⟩ | ⟨p, rfl, hp⟩
    · exact spec_throw Fails.outOfMemory.doomed
    · exact spec_pure ⟨v₂, hm₂, hp⟩
  · refine Spec.at ?_ hg rfl
    refine ((hintedTakeFree_spec hpri).mono (fun _ _ => id) fun e he => he.doomed).bind
      fun r v₁ h₁ => ?_
    rcases h₁ with ⟨rfl, -, hn⟩ | ⟨p, rfl, hp⟩
    · exact absurd hx (hn x)
    · exact spec_pure ⟨s.view, .refl, hp⟩

theorem pebsPagefault_hinted {s : State} (ht : s.userHintTier = 0) :
    pebsPagefault cfg s = userHintedDramPebsAllocatePage cfg s := by
  change (if s.userHintTier = 0 then userHintedDramPebsAllocatePage cfg
    else pebsAllocatePage) s = _
  rw [if_pos ht]

theorem pebsPagefault_plain {s : State} (ht : s.userHintTier ≠ 0) :
    pebsPagefault cfg s = pebsAllocatePage s := by
  change (if s.userHintTier = 0 then userHintedDramPebsAllocatePage cfg
    else pebsAllocatePage) s = _
  rw [if_neg ht]

theorem pebsPagefault_sat {s : State} (hg : s.Good) (hi : A.hint ∨ s.userHintTier ≠ 0)
    (hs : A.skip ∨ ¬ s.FaultMeets) (hst : A.stale ∨ ¬ s.FaultStale)
    (hh : A.hotFault ∨ ¬ s.HotFault) : Sat (pebsPagefault cfg)
      (fun p s' => s'.Good ∧ Faulted A s.view p s'.view) (Doomed cfg A s.view) s := by
  unfold pebsPagefault
  rw [sat_bind, sat_get, sat_ite]
  refine ⟨fun ht => (userHintedDramPebsAllocatePage_sat hg ht hs hst hh).post
    fun p s' ⟨hg', v₁, hm, hp⟩ => ⟨hg', v₁, hm, .inr ⟨hi.resolve_right (· ht), hp⟩⟩, fun _ => ?_⟩
  exact (pebsAllocatePage_spec.at hg rfl).mono
    (fun p s' h => ⟨h.1, s.view, .refl, .inl (h.2.imp fun dram h => ⟨rfl, h⟩)⟩)
    fun e he => he.doomed

end Allocation

section Others

theorem pebsRemovePage_spec : Spec (pebsRemovePage p) v (fun _ v' => v' = v.remove p)
    (· = .waits) := by
  rintro s hg rfl
  unfold pebsRemovePage
  rw [sat_bind, sat_get, sat_ite]
  refine ⟨fun _ => rfl, fun hfull => ?_⟩
  obtain ⟨hw, he⟩ := hg.free.put (x := p)
  rw [if_neg hfull] at he
  refine ⟨⟨hg.fifo, hg.requests, hw⟩, ?_⟩
  exact congrArg (fun l => ({ s.view with free := l } : View).edit p fun P =>
    HememPage.clearCounters { P with present := false, hot := false }) he

theorem makeRequest_spec {hot : Bool} : Spec (makeRequest hot p) v (fun _ v' => ∃ l,
    l ⊆ v.requests hot ++ [p] ∧ v' = (v.setRequests hot l).edit p ({ · with ringPresent := true }))
    (fun _ => False) := by
  unfold makeRequest
  refine spec_modifyPage ?_
  intro s hg hv
  obtain ⟨hw, he⟩ := (hg.requests hot).put (x := p)
  obtain ⟨hg', hv'⟩ := hg.setRequestRing hot hw
  have hreq : (s.requestRing hot).entries = v.requests hot := by
    rw [← View.edit_requests v p, ← hv]
    rfl
  refine ⟨hg', (ringBufPut (s.requestRing hot) p).entries, ?_, hv'.trans ?_⟩
  · rw [he, hreq]
    split
    · exact List.append_subset.2 ⟨fun x hx => List.mem_append_left _ (List.mem_of_mem_tail hx),
        List.subset_append_right _ _⟩
    · exact List.Subset.refl _
  · rw [hv]
    rfl

/-- The counters, the clock and the ring flag of `p` change, and `p` may join one request ring,
which may lose its oldest entry. -/
def Sampled (v : View) (p : PageId) (v' : View) : Prop :=
  v' = v ∨ (v.page p).va ≠ 0 ∧ ∃ (hot : Bool) (l : List PageId) (c : UInt64) (r : Bool)
    (a t : PbufType → UInt64), l ⊆ v.requests hot ++ [p] ∧ v' = (v.setRequests hot l).edit p
      ({ · with localClock := c, ringPresent := r, accesses := a, totAccesses := t })

theorem sampleRequest_spec : Spec (sampleRequest p) v (fun _ v' => ∃ (hot : Bool)
    (l : List PageId) (r : Bool), l ⊆ v.requests hot ++ [p] ∧
      v' = (v.setRequests hot l).edit p ({ · with ringPresent := r })) (fun _ => False) := by
  have hsame : ∃ (hot : Bool) (l : List PageId) (r : Bool), l ⊆ v.requests hot ++ [p] ∧
      v = (v.setRequests hot l).edit p ({ · with ringPresent := r }) := by
    refine ⟨true, v.requests true, (v.page p).ringPresent, List.subset_append_left _ _, ?_⟩
    simp [View.setRequests, View.edit]
  have hreq : ∀ hot, Spec (makeRequest hot p) v (fun _ v' => ∃ (hot : Bool) (l : List PageId)
      (r : Bool), l ⊆ v.requests hot ++ [p] ∧
        v' = (v.setRequests hot l).edit p ({ · with ringPresent := r })) (fun _ => False) :=
    fun hot => makeRequest_spec.mono (fun _ v' h => ⟨hot, h.choose, true, h.choose_spec⟩) fun _ => id
  unfold sampleRequest
  refine spec_getPage (spec_ite (fun _ => ?_) fun _ => ?_)
  · exact spec_ite (fun _ => hreq true) fun _ => spec_pure hsame
  · refine spec_ite (fun _ => ?_) fun _ => spec_pure hsame
    exact spec_ite (fun _ => hreq false) fun _ => spec_pure hsame

theorem samplePage_spec {j : PbufType} : Spec (samplePage j p) v
    (fun _ v' => Sampled v p v') (fun _ => False) := by
  unfold samplePage
  refine spec_getPage (spec_ite (fun hva => ?_) fun _ => spec_pure (.inl rfl))
  refine spec_modifyPage (sampleRequest_spec.bind fun _ v' ⟨hot, l, r, hl, hv'⟩ => ?_)
  subst hv'
  refine spec_get fun s _ _ => spec_modifyPage (spec_getPage ?_)
  refine spec_ite (fun _ => spec_last (spec_modify
    (fun s hs hv => ⟨⟨hs.fifo, hs.requests, hs.free⟩, hv⟩) (spec_pure ?_))) fun _ => spec_pure ?_
  all_goals
    refine .inr ⟨hva, hot, l, s.globalClock, r,
      fun i => update (v.page p).accesses j ((v.page p).accesses j + 1) i >>>
        (s.globalClock - (v.page p).localClock),
      update (v.page p).totAccesses j ((v.page p).totAccesses j + 1), hl, ?_⟩
    simp only [View.edit, View.setRequests, update_self, update_idem]

end Others

end HeMem

import HeMem.Proofs.Taken

/-!
# Enforced pages

A page given out for a persistent hint is marked as enforced.  Both victim searches pass over such
a page and `pebs_migrate_down` leaves it alone, so it keeps its frame for as long as it is given
out.  The mark itself is set by hinted faults only, and nothing clears it when the page is removed.
-/

namespace HeMem

open Hoare Function

variable {cfg : Config} {A : Allow} {kernel : Kernel} {s s' s₁ : State} {m : Marked} {v w : View}
  {p : PageId} {n : ℕ} {op : Op}

section Pinned

/-- The page `p` is given out, enforced and in the DRAM frame at `offset`. -/
structure Pinned (p : PageId) (offset : UInt64) (v : View) : Prop where
  present : (v.page p).present = true
  enforced : (v.page p).enforced = true
  inDram : (v.page p).inDram = true
  offset : (v.page p).devdaxOffset = offset

variable {offset : UInt64}

theorem Pinned.congr (h : Pinned p offset v) (hp : (w.page p).present = (v.page p).present)
    (he : (w.page p).enforced = (v.page p).enforced)
    (hf : (w.page p).frame = (v.page p).frame) : Pinned p offset w := by
  simp only [HememPage.frame, Prod.mk.injEq] at hf
  exact ⟨hp.trans h.present, he.trans h.enforced, (deviceOf_inj hf.1).trans h.inDram,
    hf.2.trans h.offset⟩

/-- Another page changes. -/
theorem Pinned.edit {q : PageId} {f : HememPage → HememPage} (h : Pinned p offset v) (hq : p ≠ q) :
    Pinned p offset (v.edit q f) := by
  have hp : (v.edit q f).page p = v.page p := by simp [hq]
  exact h.congr (by rw [hp]) (by rw [hp]) (by rw [hp])

/-- No exchange involves a page that is pinned. -/
theorem Pinned.move (h : Pinned p offset v) (hI : Inv n A v) (hm : Move A v w) :
    Pinned p offset w := by
  rcases hm.exchanges with ⟨up, c, np, he, rfl⟩ | hs
  · have hc : p ≠ c := by
      rintro rfl
      have hin := he.ok.inDram.symm.trans h.inDram
      obtain rfl : up = false := by simpa using hin
      exact Bool.false_ne_true ((he.ok.enforced rfl).symm.trans h.enforced)
    have hn : p ≠ np := by
      rintro rfl
      exact Bool.false_ne_true ((hI.free _ _ he.free (kind_freeList up)).symm.trans h.present)
    have hp : (v.exchange up c np).page p = v.page p := exchange_page_of_ne hc hn
    exact h.congr (by rw [hp]) (by rw [hp]) (by rw [hp])
  · exact h.congr (hs.present p) (hs.enforced p) (hs.frame p)

theorem Pinned.moves (h : Pinned p offset v) (hI : Inv n A v) (hm : Moves A v w) :
    Pinned p offset w :=
  (hm.invariant (I := fun v => Inv n A v ∧ Pinned p offset v) ⟨hI, h⟩
    fun _ _ h hm => ⟨h.1.move hm, h.2.move h.1 hm⟩).2

theorem Pinned.alloc {q : PageId} {dram : Bool} {l : ListId} {e : Bool} (h : Pinned p offset v)
    (hf : Free v q dram) : Pinned p offset (v.alloc q l e) := by
  refine (h.edit (f := ({ · with present := true, enforced := e })) ?_).congr rfl rfl rfl
  rintro rfl
  exact Bool.false_ne_true (hf.present.symm.trans h.present)

theorem Pinned.sampled {q : PageId} (h : Pinned p offset v) (hs : Sampled v q w) :
    Pinned p offset w := by
  rcases hs with rfl | ⟨-, hot, l, c, r, a, t, -, rfl⟩
  · exact h
  · rcases eq_or_ne p q with rfl | hq
    · exact h.congr (by simp) (by simp) (by simp [HememPage.frame])
    · exact Pinned.edit (h.congr rfl rfl rfl) hq

theorem Pinned.effect (h : Pinned p offset v) (hI : Inv cfg.pages A v) (he : Effect A v op w)
    (hop : op ≠ .remove p) : Pinned p offset w := by
  cases he with
  | hint tier persistence priority => exact h.congr rfl rfl rfl
  | allocate hf => exact h.alloc hf
  | fault hf =>
    obtain ⟨v₁, hm, ⟨dram, rfl, hf, rfl⟩ | ⟨-, q, e, hf, -, rfl⟩⟩ := hf
    · exact h.alloc hf
    · exact ((h.moves hI hm).alloc (l := q) (e := e) hf).congr rfl rfl rfl
  | assign page va =>
    rcases eq_or_ne p page with rfl | hq
    · exact h.congr (by simp) (by simp) (by simp [HememPage.frame])
    · exact h.edit hq
  | remove page => exact Pinned.edit (h.congr rfl rfl rfl) fun hq => hop (hq ▸ rfl)
  | sample j hs => exact h.sampled hs
  | pass hm => exact h.moves hI hm

end Pinned

section Stay

theorem Event.run_effect {e : Event} (hg : s.Good) (hl : e.Legal cfg s) : Sat (e.run cfg)
    (fun _ s' => s'.Good ∧ ((∃ op, e = .op op ∧ Effect Allow.legal s.view op s'.view) ∨
      ∃ q, q < cfg.pages ∧ Sampled s.view q s'.view)) (fun _ => True) s := by
  cases e with
  | op o =>
    exact (Op.run_effect hg (Op.Legal.within hl)).mono
      (fun _ _ ⟨hg', he⟩ => ⟨hg', .inl ⟨o, rfl, he⟩⟩) fun _ _ => trivial
  | request hot page =>
    refine (makeRequest_spec.at hg rfl).mono (fun _ s' ⟨hg', l, hl', hv⟩ =>
      ⟨hg', .inr ⟨page, hl.1, .inr ⟨hl.2, hot, l, (s.page page).localClock, true,
        (s.page page).accesses, (s.page page).totAccesses, hl', ?_⟩⟩⟩) fun _ _ => trivial
    rw [hv]
    rfl

theorem Event.run_inv {e : Event} (hg : s.Good) (hI : Inv cfg.pages Allow.legal s.view)
    (hl : e.Legal cfg s) : Sat (e.run cfg)
      (fun _ s' => s'.Good ∧ Inv cfg.pages Allow.legal s'.view) (fun _ => True) s := by
  refine (Event.run_effect hg hl).post fun _ s' ⟨hg', h⟩ => ⟨hg', ?_⟩
  rcases h with ⟨op, rfl, he⟩ | ⟨q, hq, hs⟩
  · exact inv_kept.effect hI hl rfl he
  · exact inv_kept.sample hI hq hs

theorem Pinned.event {e : Event} {offset : UInt64} (h : Pinned p offset s.view) (hg : s.Good)
    (hI : Inv cfg.pages Allow.legal s.view) (hl : e.Legal cfg s) (he : e ≠ .op (.remove p)) :
    Sat (e.run cfg) (fun _ s' => Pinned p offset s'.view) (fun _ => True) s := by
  refine (Event.run_effect hg hl).post fun _ s' ⟨_, h'⟩ => ?_
  rcases h' with ⟨op, rfl, heff⟩ | ⟨q, -, hs⟩
  · exact h.effect hI heff fun hop => he (congrArg Event.op hop)
  · exact h.sampled hs

theorem events_inv (h : (events cfg fun s => pebsInit cfg (State.blank kernel) = .ok ((), s)).Reach
    (Event.Legal cfg) s) : s.Good ∧ Inv cfg.pages Allow.legal s.view := by
  refine h.invariant (I := fun s => s.Good ∧ Inv cfg.pages Allow.legal s.view) (fun s hs => ?_)
    fun s e s' ⟨hg, hI⟩ hl hs => (Event.run_inv hg hI hl).ok hs
  obtain ⟨hg, hv⟩ := pebsInit_sat.ok hs
  exact ⟨hg, hv ▸ inv_initial kernel⟩

/-- A persistent fault hinted for DRAM pins its page. -/
theorem pinned_of_fault (hg : s.Good) (ht : s.userHintTier = 0) (hp : s.userHintPersistence = 1)
    (hf : pebsPagefault cfg s = .ok (p, s₁)) : Pinned p (s₁.page p).devdaxOffset s₁.view := by
  rw [pebsPagefault_hinted ht] at hf
  have he := userHintedDramPebsAllocatePage_enforced.ok hf
  obtain ⟨-, v₁, -, q, e, hfree, -, hv⟩ := (userHintedDramPebsAllocatePage_sat
    (A := Allow.legal) hg ht (.inl trivial) (.inl trivial) (.inl trivial)).ok hf
  refine ⟨?_, he.trans (by rw [hp]; rfl), ?_, rfl⟩
  · rw [hv]
    simp [View.alloc, View.put, View.edit, View.setPriority]
  · rw [hv]
    simpa [View.alloc, View.put, View.edit, View.setPriority] using hfree.inDram

/-- From the hinted and persistent fault that gives a page out until the page is removed, it keeps
its DRAM frame. -/
theorem enforced_stays
    (h : (events cfg fun s => pebsInit cfg (State.blank kernel) = .ok ((), s)).Reach
      (Event.Legal cfg) s)
    (ht : s.userHintTier = 0) (hp : s.userHintPersistence = 1)
    (hf : pebsPagefault cfg s = .ok (p, s₁))
    (h' : (events cfg (· = s₁)).Reach (fun s e => e.Legal cfg s ∧ e ≠ .op (.remove p)) s') :
    (s'.page p).inDram = true ∧ (s'.page p).devdaxOffset = (s₁.page p).devdaxOffset := by
  obtain ⟨hg, hI⟩ := events_inv h
  have hrun : (Op.fault).run cfg s = .ok ((), s₁) := by
    change (pebsPagefault cfg s >>= fun r => .ok ((), r.2)) = _
    rw [hf]
    rfl
  have hI₁ := (Event.run_inv hg hI (e := .op .fault) trivial).ok hrun
  have hpin := pinned_of_fault hg ht hp hf
  have hinv : s'.Good ∧ Inv cfg.pages Allow.legal s'.view ∧
      Pinned p (s₁.page p).devdaxOffset s'.view := by
    refine h'.invariant (I := fun t => t.Good ∧ Inv cfg.pages Allow.legal t.view ∧
      Pinned p (s₁.page p).devdaxOffset t.view) (fun t ht => ?_)
      fun t e t' ⟨hg, hI, hpin⟩ ⟨hl, he⟩ hs => ?_
    · rw [ht]
      exact ⟨hI₁.1, hI₁.2, hpin⟩
    · obtain ⟨hg', hI'⟩ := (Event.run_inv hg hI hl).ok hs
      exact ⟨hg', hI', (hpin.event hg hI hl he).ok hs⟩
  exact ⟨hinv.2.2.inDram, hinv.2.2.offset⟩

theorem execute_events {init : State → Prop} {C : State → Event → Prop} :
    ∀ {ops : List Op} {s t : State}, (∀ op ∈ ops, ∀ s, op.Legal cfg s → C s (.op op)) →
      (events cfg init).Reach C s → execute cfg ops s = some t → (events cfg init).Reach C t
  | [], s, t, _, h, he => by
    cases he
    exact h
  | op :: ops, s, t, hC, h, he => by
    unfold execute at he
    split at he
    · rename_i hl
      split at he
      · rename_i s' hr
        exact execute_events (fun o ho => hC o (List.mem_cons_of_mem _ ho))
          (h.step (l := .op op) (hC op List.mem_cons_self s hl) hr) he
      · cases he
    · cases he

/-- Page 0 is pinned; DRAM fills up, and the search of a second hinted fault drops it. -/
theorem enforced_stays_searched : ∃ s₁ s' : State, (s'.page 0).inDram = true ∧
    (s'.page 0).devdaxOffset = (s₁.page 0).devdaxOffset ∧ s'.fifo.listOf 0 = none := by
  have hrun : (((pebsInit fourFrames (State.blank Kernel.fresh)).toOption.bind fun r =>
      (execute fourFrames [.hint 0 1 0] r.2).bind fun s =>
        (pebsPagefault fourFrames s).toOption.bind fun f =>
          (execute fourFrames [.allocate, .assign 1 hugepageSize, .hint 0 0 0, .fault] f.2).map
            fun s' => (s, f, s')).any fun x => decide (x.1.userHintTier = 0 ∧
              x.1.userHintPersistence = 1 ∧ x.2.1.1 = 0 ∧ x.2.2.fifo.listOf 0 = none)) = true := by
    decide +kernel
  obtain ⟨⟨s, ⟨p, s₁⟩, s'⟩, hx, hd⟩ := (Option.any_eq_true _ _).1 hrun
  obtain ⟨⟨⟨⟩, s₀⟩, h₀, hx⟩ := Option.bind_eq_some_iff.1 hx
  obtain ⟨t, ht, hx⟩ := Option.bind_eq_some_iff.1 hx
  obtain ⟨f, hf, hx⟩ := Option.bind_eq_some_iff.1 hx
  obtain ⟨t', ht', hx⟩ := Option.map_eq_some_iff.1 hx
  cases hx
  obtain ⟨htier, hper, rfl, hlist⟩ := of_decide_eq_true hd
  have hs : (events fourFrames fun s =>
      pebsInit fourFrames (State.blank Kernel.fresh) = .ok ((), s)).Reach
      (Event.Legal fourFrames) s :=
    execute_events (fun _ _ _ h => h) (.init (toOption_eq_some.1 h₀)) ht
  have hs' : (events fourFrames (· = s₁)).Reach
      (fun s e => e.Legal fourFrames s ∧ e ≠ .op (.remove 0)) s' :=
    execute_events (fun op hop _ hl => ⟨hl, by fin_cases hop <;> simp⟩) (.init rfl) ht'
  obtain ⟨hin, hoff⟩ := enforced_stays hs htier hper (toOption_eq_some.1 hf) hs'
  exact ⟨s₁, s', hin, hoff, hlist⟩

end Stay

section Marks

/-- Each page given out is enforced as it is marked. -/
def AsMarked (mark : PageId → Bool) (v : View) : Prop :=
  ∀ p, (v.page p).present = true → (v.page p).enforced = mark p

variable {mark : PageId → Bool}

theorem AsMarked.congr (h : AsMarked mark v)
    (hp : ∀ p, (w.page p).present = true → (v.page p).present = true)
    (he : ∀ p, (w.page p).enforced = (v.page p).enforced) : AsMarked mark w :=
  fun p hpr => (he p).trans (h p (hp p hpr))

theorem AsMarked.moves (h : AsMarked mark v) (hI : Inv n A v) (hm : Moves A v w) :
    AsMarked mark w :=
  (hm.invariant (I := fun v => Inv n A v ∧ AsMarked mark v) ⟨hI, h⟩ fun _ _ h hm =>
    ⟨h.1.move hm, h.2.congr (fun p => (hm.marks h.1 p).1 ▸ id) fun p => (hm.marks h.1 p).2⟩).2

/-- A page given out is marked as it is enforced. -/
theorem AsMarked.alloc (h : AsMarked mark v) {q : ListId} {e : Bool} :
    AsMarked (update mark p e) (v.alloc p q e) := by
  intro x hx
  rcases eq_or_ne x p with rfl | hxp
  · simp [View.alloc]
  · rw [update_of_ne hxp]
    simp only [View.alloc, View.put, View.edit, update_of_ne hxp] at hx ⊢
    exact h x hx

theorem AsMarked.sampled {q : PageId} (h : AsMarked mark v) (hs : Sampled v q w) :
    AsMarked mark w := by
  rcases hs with rfl | ⟨-, hot, l, c, r, a, t, -, rfl⟩
  · exact h
  · refine h.congr (fun p => ?_) fun p => ?_
    all_goals
      simp only [View.edit, View.setRequests, update_apply]
      split_ifs with hp
    all_goals simp [hp]

/-- An allocation without a hint gives out an unmarked page. -/
theorem AsMarked.allocated (cfg : Config) {t : State} (h : AsMarked mark s.view) (hg : s.Good)
    (hu : ∀ p ∈ s.freePages.head?, (s.page p).enforced = false)
    (hr : pebsAllocatePage s = .ok (p, t)) : AsMarked (update mark p false) t.view := by
  have hspec : Sat pebsAllocatePage _ (Fails cfg s.view) s := pebsAllocatePage_spec.at hg rfl
  obtain ⟨-, dram, -, hv⟩ := hspec.ok hr
  have hhead : s.freePages.head? = some p := by rw [(pebsAllocatePage_takes hg).ok hr]; rfl
  have he : (s.view.page p).enforced = false := hu p hhead
  rw [hv, he]
  exact h.alloc

theorem AsMarked.hinted {t : State} (h : AsMarked mark s.view) (hg : s.Good)
    (hI : Inv cfg.pages Allow.legal s.view) (ht : s.userHintTier = 0)
    (hr : userHintedDramPebsAllocatePage cfg s = .ok (p, t)) :
    AsMarked (update mark p (decide (s.userHintPersistence = 1))) t.view := by
  obtain ⟨-, v₁, hm, q, e, -, -, hv⟩ := (userHintedDramPebsAllocatePage_sat
    (A := Allow.legal) hg ht (.inl trivial) (.inl trivial) (.inl trivial)).ok hr
  have he := userHintedDramPebsAllocatePage_enforced.ok hr
  have hpage : t.page p = t.view.page p := rfl
  rw [hpage, hv] at he
  simp only [View.setPriority, View.alloc, View.put, View.edit, update_self] at he
  rw [hv, ← he]
  exact ((h.moves hI hm).alloc (q := q)).congr (fun _ => id) fun _ => rfl

theorem AsMarked.run {t : State} (h : AsMarked mark s.view) (hg : s.Good)
    (hI : Inv cfg.pages Allow.legal s.view) (hl : op.Legal cfg s) (hu : op.TakesUnmarked s)
    (hr : op.run cfg s = .ok ((), t)) : AsMarked (op.marks cfg s mark) t.view := by
  obtain ⟨-, heff⟩ := (Op.run_effect hg hl.within).ok hr
  cases op with
  | hint tier persistence priority =>
    generalize t.view = w at heff ⊢
    cases heff
    exact h.congr (fun _ => id) fun _ => rfl
  | allocate =>
    obtain ⟨p, hp⟩ := ok_of_dropped hr
    have hgrants : Op.allocate.grants cfg s = some p := by simp [Op.grants, hp, Except.toOption]
    simp only [Op.marks, hgrants]
    exact h.allocated cfg hg hu hp
  | fault =>
    obtain ⟨p, hp⟩ := ok_of_dropped hr
    have hgrants : Op.fault.grants cfg s = some p := by simp [Op.grants, hp, Except.toOption]
    simp only [Op.marks, hgrants]
    by_cases ht : s.userHintTier = 0
    · rw [pebsPagefault_hinted ht] at hp
      have hper : Op.fault.persists s = decide (s.userHintPersistence = 1) := by
        simp [Op.persists, ht]
      rw [hper]
      exact h.hinted hg hI ht hp
    · rw [pebsPagefault_plain ht] at hp
      have hper : Op.fault.persists s = false := by simp [Op.persists, ht]
      rw [hper]
      exact h.allocated cfg hg (hu ht) hp
  | assign page va =>
    generalize t.view = w at heff ⊢
    cases heff
    refine h.congr (fun p => ?_) fun p => ?_ <;>
    · simp only [View.edit, update_apply]
      split_ifs with hp <;> simp [hp]
  | remove page =>
    generalize t.view = w at heff ⊢
    cases heff
    refine h.congr (fun p => ?_) fun p => ?_ <;>
    · simp only [View.remove, View.edit, HememPage.clearCounters, update_apply]
      split_ifs with hp <;> simp [hp]
  | sample j page =>
    generalize t.view = w at heff ⊢
    cases heff with
    | sample j hs => exact h.sampled hs
  | pass =>
    generalize t.view = w at heff ⊢
    cases heff with
    | pass hm => exact h.moves hI hm

/-- In a run whose allocations without a hint take unmarked pages, a page given out is enforced
exactly if the fault that gave it out was hinted for DRAM and persistent. -/
theorem enforced_as_marked (h : (marking cfg kernel).Reach
    (fun m op => op.Legal cfg m.state ∧ op.TakesUnmarked m.state) m)
    (hp : (m.state.page p).present = true) : (m.state.page p).enforced = true ↔ m.mark p = true := by
  have hinv : m.state.Good ∧ Inv cfg.pages Allow.legal m.state.view ∧
      AsMarked m.mark m.state.view := by
    refine h.invariant (I := fun m => m.state.Good ∧ Inv cfg.pages Allow.legal m.state.view ∧
      AsMarked m.mark m.state.view) (fun m hm => ?_)
      fun m op m' ⟨hg, hI, hA⟩ ⟨hl, hu⟩ hs => ?_
    · obtain ⟨hg, hv⟩ := pebsInit_sat.ok hm.1
      refine ⟨hg, hv ▸ inv_initial kernel, fun p _ => ?_⟩
      rw [hv, hm.2]
      simp only [View.initial, initPage]
      split_ifs <;> rfl
    · obtain ⟨hg', hI'⟩ := (inv_kept.run hg hI hl.within).ok hs.1
      rw [hs.2]
      exact ⟨hg', hI', hA.run hg hI hl hu hs.1⟩
  have he : (m.state.page p).enforced = m.mark p := hinv.2.2 p hp
  rw [he]

theorem marked_next {m' : Marked} (h : m.next cfg op = some m') :
    (marking cfg kernel).step m op m' := by
  obtain ⟨r, hr, rfl⟩ := Option.map_eq_some_iff.1 h
  exact ⟨toOption_eq_some.1 hr, rfl⟩

variable (cfg kernel) in
/-- What the operations lead to from the state `pebs_init` leaves is reached. -/
theorem marking_reach {C : Marked → Op → Prop} (D : Marked → Op → Prop)
    [∀ m, DecidablePred (D m)] (hC : ∀ m op, D m op → C m op) (ops : List Op) (P : Marked → Bool)
    (h : ((pebsInit cfg (State.blank kernel)).toOption.bind fun r =>
      System.drive (Marked.next cfg) D ops ⟨r.2, fun _ => false⟩).any P = true) :
    ∃ m, (marking cfg kernel).Reach C m ∧ P m = true := by
  obtain ⟨m, hm, hP⟩ := (Option.any_eq_true P _).1 h
  obtain ⟨r, hr, hm⟩ := Option.bind_eq_some_iff.1 hm
  have hinit : (marking cfg kernel).Reach C ⟨r.2, fun _ => false⟩ :=
    .init ⟨toOption_eq_some.1 hr, rfl⟩
  exact ⟨m, hinit.drive (fun _ _ _ => marked_next) hC hm, hP⟩

/-- Page 0 is given out for a persistent hint, page 1 without one. -/
theorem enforced_as_marked_faulted : ∃ m : Marked, (m.state.page 0).enforced = true ∧
    (m.state.page 1).enforced = false := by
  obtain ⟨m, hm, hP⟩ := marking_reach fourFrames Kernel.fresh
    (fun m op => op.Legal fourFrames m.state ∧ op.TakesUnmarked m.state) (fun _ _ => id)
    [.hint 0 1 0, .fault, .fault, .assign 1 hugepageSize, .sample .dramread 1, .pass]
    (fun m => (m.state.page 0).present && (m.state.page 1).present && m.mark 0 && !m.mark 1)
    (by decide +kernel)
  simp only [Bool.and_eq_true, Bool.not_eq_true'] at hP
  obtain ⟨⟨⟨h0, h1⟩, hm0⟩, hm1⟩ := hP
  refine ⟨m, (enforced_as_marked hm h0).2 hm0, ?_⟩
  exact Bool.eq_false_iff.2 fun he => by simp [(enforced_as_marked hm h1).1 he] at hm1

/-- Page 0 is given out for a persistent hint and removed; when it is drained and given out again
without a hint, it is still enforced. -/
theorem old_mark_kept : ∃ m, (marking fourFrames Kernel.fresh).Reach
    (fun m op => op.Legal fourFrames m.state) m ∧ (m.state.page 0).present = true ∧
      (m.state.page 0).enforced = true ∧ m.mark 0 = false := by
  obtain ⟨m, hm, hP⟩ := marking_reach fourFrames Kernel.fresh
    (fun m op => op.Legal fourFrames m.state) (fun _ _ => id)
    [.hint 0 1 0, .fault, .fault, .remove 0, .pass, .fault]
    (fun m => (m.state.page 0).present && (m.state.page 0).enforced && !m.mark 0)
    (by decide +kernel)
  simp only [Bool.and_eq_true, Bool.not_eq_true'] at hP
  exact ⟨m, hm, hP.1.1, hP.1.2, hP.2⟩

end Marks

end HeMem

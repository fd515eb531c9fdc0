import HeMem.Mmap
import HeMem.Proofs.Assertions
import HeMem.Proofs.Hints

/-!
# Mapping and unmapping between views

What populating a page, unmapping one and sampling an address change, and what they keep: the pages
that are given out are those that are tracked, each at its own address.  The dummy page is tracked
at address zero until `hemem_munmap` is called there; then it waits in the free-page ring.
-/

namespace HeMem

open Hoare Function

variable {cfg : Config} {A : Allow} {kernel : Kernel} {s : State} {v w : View} {p : PageId}
  {a : UInt64} {n : ℕ}

namespace View

/-- The page `p` is mapped and tracked at `a`. -/
def populate (v : View) (p : PageId) (a : UInt64) : View :=
  { v.edit p ({ · with va := a, migrating := false }) with
    kernel := v.kernel.mmapFixed a (ptToPagesize (v.page p).pt) (deviceOf (v.page p).inDram)
      (v.page p).devdaxOffset
    pages := update v.pages a (some p) }

/-- The page `p` is tracked no longer and removed. -/
def release (v : View) (p : PageId) : View :=
  ({ v with pages := update v.pages (v.page p).va none } : View).remove p

end View

section Specs

theorem State.Good.setKernel (hg : s.Good) (k : Kernel) : State.Good { s with kernel := k } :=
  ⟨hg.fifo, hg.requests, hg.free⟩

theorem State.Good.setMmaped (hg : s.Good) (x : UInt64) : State.Good { s with memMmaped := x } :=
  ⟨hg.fifo, hg.requests, hg.free⟩

theorem State.view_setKernel (k : Kernel) :
    State.view { s with kernel := k } = { s.view with kernel := k } := rfl

theorem State.view_setMmaped (x : UInt64) : State.view { s with memMmaped := x } = s.view := rfl

theorem addPage_spec : Spec (addPage p) v (fun _ v' => v.pages (v.page p).va = none ∧
    v' = { v with pages := update v.pages (v.page p).va (some p) })
    (fun _ => v.pages (v.page p).va ≠ none) := by
  unfold addPage
  refine spec_getPage (spec_get fun s _ hv => ?_)
  have hpages : s.pages = v.pages := hv ▸ rfl
  rw [hpages]
  refine spec_check (fun hn => hn) fun hn => ?_
  refine spec_last (spec_modify (fun s hs hv => ?_) (spec_pure ⟨hn, rfl⟩))
  subst hv
  exact ⟨⟨hs.fifo, hs.requests, hs.free⟩, rfl⟩

theorem removePage_spec : Spec (removePage p) v (fun _ v' =>
    v' = { v with pages := update v.pages (v.page p).va none }) (· = .waits) := by
  unfold removePage
  refine spec_getPage (spec_last (spec_modify (fun s hs hv => ?_) (spec_pure rfl)))
  subst hv
  exact ⟨⟨hs.fifo, hs.requests, hs.free⟩, rfl⟩

theorem hememInit_sat : Sat (hememInit cfg) (fun _ s => s.Good ∧ s.view =
    { View.initial cfg kernel with pages := update (fun _ => none) 0 (some (dummyPage cfg)) })
    (fun _ => True) (State.blank kernel) := by
  unfold hememInit
  refine (pebsInit_sat.mono (fun _ _ => id) fun _ => False.elim).bind fun _ s₁ ⟨hg, hv⟩ => ?_
  refine (addPage_spec.at hg hv).mono (fun _ s₂ ⟨hg₂, _, hv₂⟩ => ⟨hg₂, ?_⟩) fun _ _ => trivial
  have hva : ((View.initial cfg kernel).page (dummyPage cfg)).va = 0 := by
    have hlt : ¬ cfg.pages < cfg.count true := by
      unfold Config.pages
      omega
    simp [View.initial, dummyPage, hlt]
  rw [hv₂, hva]
  rfl

theorem mapPage_spec : Spec (mapPage p a) v (fun r v' => a ≠ 0 ∧ a % hugepageSize = 0 ∧
    v.pages a = none ∧ r = ptToPagesize (v.page p).pt ∧ v' = v.populate p a)
    (fun e => e = .addPage → v.pages a ≠ none) := by
  unfold mapPage
  refine spec_getPage (spec_onKernel (spec_modifyPage ?_))
  refine spec_check (fun _ => nofun) fun ha => spec_check (fun _ => nofun) fun hal => ?_
  refine spec_modifyPage (spec_modify (fun s hs hv =>
    ⟨⟨hs.fifo, hs.requests, hs.free⟩, hv⟩) ?_)
  refine (addPage_spec.mono (fun _ _ => id) fun e he _ => ?_).bind
    fun _ v' ⟨hn, hv'⟩ => spec_pure ?_
  · simpa only [View.edit_page, View.edit_pages, update_self] using he
  simp only [View.edit_page, View.edit_pages, update_self] at hn hv'
  refine ⟨ha, hal, hn, rfl, ?_⟩
  simp [hv', View.populate, View.edit]

theorem mapPage_frame : Sat (mapPage p a)
    (fun _ s' => s'.fifo = s.fifo ∧ s'.userHintTier = s.userHintTier) (fun _ => True) s := by
  simp only [mapPage, getPage, modifyPage, onKernel, addPage, bind_assoc, sat_bind, sat_get,
    sat_pure, sat_modify, sat_check]
  exact ⟨fun _ => ⟨fun _ => ⟨fun _ => ⟨trivial, trivial⟩, fun _ => trivial⟩, fun _ => trivial⟩,
    fun _ => trivial⟩

/-- Populating a page is a fault, after which the page is mapped and tracked. -/
theorem populatePage_sat (hg : s.Good) (hi : A.hint ∨ s.userHintTier ≠ 0)
    (hs : A.skip ∨ ¬ s.FaultMeets) (hst : A.stale ∨ ¬ s.FaultStale)
    (hh : A.hotFault ∨ ¬ s.HotFault) : Sat (populatePage cfg a)
      (fun r s' => s'.Good ∧ ∃ p v', Faulted A s.view p v' ∧ a ≠ 0 ∧ a % hugepageSize = 0 ∧
        v'.pages a = none ∧ r = ptToPagesize (v'.page p).pt ∧ s'.view = v'.populate p a)
      (fun _ => True) s := by
  unfold populatePage
  refine ((pebsPagefault_sat hg hi hs hst hh).mono (fun _ _ => id) fun _ _ => trivial).bind
    fun p s₁ ⟨hg₁, hf⟩ => ?_
  exact (mapPage_spec.at hg₁ rfl).mono (fun r s₂ ⟨hg₂, h⟩ => ⟨hg₂, p, s₁.view, hf, h⟩)
    fun _ _ => trivial

theorem munmapPage_spec : Spec (munmapPage p) v
    (fun r v' => r = ptToPagesize (v.page p).pt ∧ v' = v.release p) (· = .waits) := by
  unfold munmapPage
  refine removePage_spec.bind fun _ v₁ hv₁ => pebsRemovePage_spec.bind fun _ v₂ hv₂ => ?_
  subst hv₁ hv₂
  refine spec_getPage (spec_modify (fun s hs hv => ⟨⟨hs.fifo, hs.requests, hs.free⟩, hv⟩)
    (spec_pure ⟨?_, rfl⟩))
  simp [View.remove, HememPage.clearCounters]

theorem frames_removePage : Frames State.userHintTier (removePage p) := by
  refine frames_getPage.bind fun _ => ?_
  exact frames_modify fun _ => rfl

theorem frames_munmapPage : Frames State.userHintTier (munmapPage p) := by
  refine frames_removePage.bind fun _ => quiet_tier.calm.pebsRemovePage.bind fun _ => ?_
  refine frames_getPage.bind fun _ => Frames.bind ?_ fun _ => frames_pure
  exact frames_modify fun _ => rfl

theorem pebsScanSample_spec {j : PbufType} : Spec (pebsScanSample a j) v (fun _ v' => v' = v ∨
    ∃ p, v.pages (a &&& hugePfnMask) = some p ∧ Sampled v p v') (fun _ => False) := by
  unfold pebsScanSample
  refine spec_ite (fun _ => ?_) fun _ => spec_pure (.inl rfl)
  rintro s hg rfl
  rw [findPage, sat_bind, sat_bind, sat_get, sat_pure]
  rcases hp : s.pages (a &&& hugePfnMask) with _ | p
  · exact ⟨hg, .inl rfl⟩
  · exact (samplePage_spec.at hg rfl).post fun _ s' h => ⟨h.1, .inr ⟨p, hp, h.2⟩⟩

theorem pebsAllocatePage_tier (ht : s.userHintTier ≠ 0) : Sat pebsAllocatePage
    (fun _ s' => s'.userHintTier ≠ 0) (fun _ => True) s :=
  (quiet_tier.calm.pebsAllocatePage s).post fun _ _ h => h ▸ ht

theorem hintedTakeFree_tier : Sat hintedTakeFree
    (fun r s' => r ≠ none → s'.userHintTier ≠ 0) (fun _ => True) s := by
  have reset : ∀ (s : State) (p : PageId), Sat (do
      modify fun s : State => { s with userHintTier := -1, userHintPriority := -1 }
      return some p : M (Option PageId))
      (fun r s' => r ≠ none → s'.userHintTier ≠ 0) (fun _ => True) s := by
    intro s p
    rw [sat_bind, sat_modify, sat_pure]
    exact fun _ => (by decide : (-1 : ℤ) ≠ 0)
  unfold hintedTakeFree
  refine sat_true.bind fun r s₁ _ => ?_
  rcases r with _ | p
  · exact fun h => absurd rfl h
  · refine sat_true.bind fun _ s₂ _ => sat_true.bind fun _ s₃ _ => sat_true.bind fun _ s₄ _ =>
      sat_true.bind fun _ s₅ _ => sat_true.bind fun _ s₆ _ => sat_true.bind fun _ s₇ _ =>
      sat_true.bind fun _ s₈ _ => ?_
    rw [sat_ite]
    exact ⟨fun _ => sat_true.bind fun _ s₉ _ => reset s₉ p,
      fun _ => sat_true.bind fun _ s₉ _ => reset s₉ p⟩

/-- After a fault no page is hinted for DRAM. -/
theorem pebsPagefault_tier : Sat (pebsPagefault cfg) (fun _ s' => s'.userHintTier ≠ 0)
    (fun _ => True) s := by
  unfold pebsPagefault
  rw [sat_bind, sat_get, sat_ite]
  refine ⟨fun _ => ?_, pebsAllocatePage_tier⟩
  unfold userHintedDramPebsAllocatePage
  refine hintedTakeFree_tier.bind fun r s₁ h₁ => ?_
  rcases r with _ | p
  · refine sat_true.bind fun _ s₂ _ => sat_true.bind fun cp s₃ _ => sat_true.bind fun np s₄ _ => ?_
    rcases cp with _ | cp
    · trivial
    rcases np with _ | np
    · trivial
    refine sat_true.bind fun _ s₅ _ => hintedTakeFree_tier.bind fun r s₆ h₆ => ?_
    rcases r with _ | p
    · trivial
    · exact h₆ (by simp)
  · exact h₁ (by simp)

theorem populatePage_tier : Sat (populatePage cfg a) (fun _ s' => s'.userHintTier ≠ 0)
    (fun _ => True) s := by
  unfold populatePage
  exact pebsPagefault_tier.bind fun p s₁ h₁ => mapPage_frame.post fun _ s₂ h₂ => h₂.2 ▸ h₁

end Specs

section Loops

variable {I : UInt64 → State → Prop} {J : State → Prop} {E : Abort → Prop} {stop : UInt64}

/-- `I` holds whenever the loop comes to a page boundary. -/
theorem populateLoop_sat (hE : E .diverges)
    (h : ∀ a s, I a s → a < stop → Sat (populatePage cfg a) (fun r => I (a + r)) E s)
    (hJ : ∀ a s, I a s → ¬ a < stop → J s) : ∀ {turns : ℕ} {a : UInt64} {s : State}, I a s →
      Sat (populateLoop cfg stop turns a) (fun _ => J) E s
  | 0, _, _, _ => hE
  | turns + 1, a, s, hs => by
    unfold populateLoop
    rw [sat_ite]
    exact ⟨fun ha => (h a s hs ha).bind fun _ s' hs' => populateLoop_sat hE h hJ hs', hJ a s hs⟩

theorem hememMmapPopulate_sat {length : UInt64}
    (hE : ∀ e, e = .diverges ∨ e = .populateAddr ∨ e = .populateLength → E e)
    (h : ∀ b s, I b s → b < a + length → Sat (populatePage cfg b) (fun r => I (b + r)) E s)
    (hJ : ∀ b s, I b s → ¬ b < a + length → J s) (h₀ : I a s) :
    Sat (hememMmapPopulate cfg a length) (fun _ => J) E s := by
  unfold hememMmapPopulate
  rw [sat_bind, sat_check]
  refine ⟨fun _ => ?_, fun _ => hE _ (.inr (.inl rfl))⟩
  rw [sat_bind, sat_check]
  exact ⟨fun _ => populateLoop_sat (hE _ (.inl rfl)) h hJ h₀,
    fun _ => hE _ (.inr (.inr rfl))⟩

theorem munmapLoop_sat (hE : E .diverges)
    (hpage : ∀ a s p, I a s → a < stop → s.pages a = some p →
      Sat (munmapPage p) (fun r => I (a + r)) E s)
    (hhole : ∀ a s, I a s → a < stop → s.pages a = none → I (a + basepageSize) s)
    (hJ : ∀ a s, I a s → ¬ a < stop → J s) : ∀ {turns : ℕ} {a : UInt64} {s : State}, I a s →
      Sat (munmapLoop stop turns a) (fun _ => J) E s
  | 0, _, _, _ => hE
  | turns + 1, a, s, hs => by
    unfold munmapLoop
    rw [sat_ite]
    refine ⟨fun ha => ?_, hJ a s hs⟩
    rw [findPage, sat_bind, sat_bind, sat_get, sat_pure]
    rcases hp : s.pages a with _ | p
    · exact munmapLoop_sat hE hpage hhole hJ (hhole a s hs ha hp)
    · exact (hpage a s p hs ha hp).bind fun r s' hs' => munmapLoop_sat hE hpage hhole hJ hs'

end Loops

section Tracked

/-- The pages given out are the pages tracked, but for the dummy page of number `n`. -/
structure Tracked (n : ℕ) (v : View) : Prop where
  found : ∀ p, p < n → (v.page p).present = true → v.pages (v.page p).va = some p
  va : ∀ a p, v.pages a = some p → (v.page p).va = a
  live : ∀ a p, v.pages a = some p →
    a ≠ 0 ∧ p < n ∧ (v.page p).present = true ∨ a = 0 ∧ p = n ∧ n ∉ v.free

theorem tracked_initial : Tracked cfg.pages { View.initial cfg kernel with
    pages := update (fun _ => none) 0 (some (dummyPage cfg)) } := by
  constructor <;> simp only [View.initial, initPage, dummyPage, update_apply]
  all_goals grind [Config.pages]

theorem Tracked.move (h : Tracked n v) (hI : Inv n A v) (hm : Move A v w) : Tracked n w := by
  obtain ⟨h1, h2, h3⟩ := h
  have hfree := hI.free
  cases hm with
  | cursor c hc => exact ⟨h1, h2, h3⟩
  | stale hot hd hr hp => exact ⟨h1, h2, h3⟩
  | skip l hs hl => exact ⟨h1, h2, h3⟩
  | drain hf hl hc =>
    constructor <;> simp only [View.put]
    all_goals grind
  | serve hot hr hp hc hl =>
    constructor <;> simp only [View.setRequests, View.put, View.edit, update_apply]
    all_goals grind
  | coolNvm hl hc =>
    constructor <;> simp only [View.put, View.edit, update_apply]
    all_goals grind
  | cool dram hot c hl ht hh hc =>
    constructor <;> simp only [View.setCur, View.put, View.edit, update_apply]
    all_goals grind
  | promote hf hl hc hn he hp =>
    constructor <;> simp only [View.exchange, View.call, View.remap, View.put, View.edit,
      HememPage.clearCounters, update_apply]
    all_goals grind [kind_freeList]
  | demote hf hl hn he =>
    have hnp := hI.free _ _ hn rfl
    constructor <;> simp only [View.exchange, View.call, View.remap, View.put, View.edit,
      HememPage.clearCounters, update_apply]
    all_goals grind

theorem Tracked.moves (h : Tracked n v) (hI : Inv n A v) (hm : Moves A v w) : Tracked n w :=
  (hm.invariant (I := fun v => Inv n A v ∧ Tracked n v) ⟨hI, h⟩
    fun _ _ h hm => ⟨h.1.move hm, h.2.move h.1 hm⟩).2

/-- A free page given out, mapped and tracked. -/
theorem Tracked.populate (h : Tracked n v) (hI : Inv n A v) {dram : Bool} {q : ListId} {e : Bool}
    (hf : Free v p dram) (hn : v.pages a = none) (ha : a ≠ 0) :
    Tracked n ((v.alloc p q e).populate p a) := by
  obtain ⟨h1, h2, h3⟩ := h
  have hpn := hI.owned p _ hf.list
  have hpr := hf.present
  constructor <;> simp only [View.populate, View.alloc, View.put, View.edit, update_apply]
  all_goals grind

theorem Inv.populate (h : Inv n A v) (ha : a ≠ 0) (hal : a % hugepageSize = 0) :
    Inv n A (v.populate p a) := by
  have hset : Inv n A (v.edit p ({ · with va := a })) := by
    obtain ⟨h1, h2, h3, h4, h5, h6, h7, h8, h9, h10, h11, h12, h13, h14⟩ := h
    constructor <;> simp only [View.edit, update_apply]
    all_goals grind
  refine hset.congr rfl rfl rfl rfl (fun x => ?_) (fun x => ?_) (fun x => ?_) (fun x => ?_)
    fun x => ?_
  all_goals
    simp only [View.populate, View.edit, update_apply]
    split <;> rfl

/-- The page of a fault, mapped and tracked. -/
theorem Tracked.faulted (h : Tracked cfg.pages v) (hI : Inv cfg.pages A v) (hf : Faulted A v p w)
    (hn : w.pages a = none) (ha : a ≠ 0) : Tracked cfg.pages (w.populate p a) := by
  obtain ⟨v₁, hm, ⟨dram, rfl, hf, rfl⟩ | ⟨hi, q, e, hf, hq, rfl⟩⟩ := hf
  · exact h.populate hI hf hn ha
  · have h₁ := (h.moves hI hm).populate (q := q) (e := e) (inv_kept.moves hI hm) hf hn ha
    exact ⟨h₁.found, h₁.va, h₁.live⟩

theorem Tracked.release (h : Tracked n v) (hp : v.pages a = some p) : Tracked n (v.release p) := by
  obtain ⟨h1, h2, h3⟩ := h
  have hva := h2 a p hp
  constructor <;> simp only [View.release, View.remove, View.edit, HememPage.clearCounters,
    update_apply]
  all_goals grind

theorem Inv.release (h : Inv n A v) (ht : Tracked n v) (hd : A.dummy) (hp : v.pages a = some p) :
    Inv n A (v.release p) := by
  have hlive := ht.live a p hp
  obtain ⟨h1, h2, h3, h4, h5, h6, h7, h8, h9, h10, h11, h12, h13, h14⟩ := h
  constructor <;> simp only [View.release, View.remove, View.edit, HememPage.clearCounters,
    update_apply]
  all_goals grind

theorem Tracked.sampled (h : Tracked n v) (hs : Sampled v p w) : Tracked n w := by
  rcases hs with rfl | ⟨hva, hot, l, c, r, a, t, hl, rfl⟩
  · exact h
  obtain ⟨h1, h2, h3⟩ := h
  constructor <;> simp only [View.edit, View.setRequests, update_apply]
  all_goals grind

/-- A sample counts on page structs of `pebs_init` only. -/
theorem Inv.sampled (h : Inv cfg.pages A v) (ht : Tracked cfg.pages v) (hp : v.pages a = some p)
    (hs : Sampled v p w) : Inv cfg.pages A w := by
  rcases ht.live a p hp with ⟨-, hpn, -⟩ | ⟨rfl, -, -⟩
  · exact inv_kept.sample h hpn hs
  · rcases hs with rfl | ⟨hva, -⟩
    · exact h
    · exact absurd (ht.va 0 p hp) hva

end Tracked

section Launched

variable {C : Memory → Call → Prop} [∀ m, DecidablePred (C m)]

theorem makeCalls_reach {C' : Memory → Call → Prop} (hC : ∀ m c, C m c → C' m c) :
    ∀ {cs : List Call} {m t : Memory}, (hemem cfg kernel).Reach C' m →
      makeCalls cfg C cs m = some t → (hemem cfg kernel).Reach C' t
  | [], m, t, h, he => by
    cases he
    exact h
  | c :: cs, m, t, h, he => by
    unfold makeCalls at he
    split at he
    · rename_i hc
      split at he
      · rename_i s hr
        exact makeCalls_reach hC (h.step (hC m c hc) ⟨hr, rfl⟩) he
      · cases he
    · cases he

variable (cfg kernel C) in
/-- What the calls lead to is reached by them. -/
theorem launch_reach (cs : List Call) (P : Memory → Bool)
    (h : (launch cfg kernel C cs).any P = true) :
    ∃ m, (hemem cfg kernel).Reach C m ∧ P m = true := by
  obtain ⟨m, hm, hP⟩ := (Option.any_eq_true P _).1 h
  unfold launch at hm
  split at hm
  · rename_i s hs
    exact ⟨m, makeCalls_reach (fun _ _ => id) (.init ⟨hs, rfl⟩) hm, hP⟩
  · cases hm

variable (cfg kernel C) in
/-- A condition on the first call may be shown of the states `hemem_init` leaves. -/
theorem launch_reach_of_first {K : Memory → Call → Prop} {D : Memory → Prop} [DecidablePred D]
    (c : Call) (cs : List Call) (P : Memory → Bool)
    (hc : ∀ m, (hemem cfg kernel).init m → D m → K m c) (hC : ∀ m c, C m c → K m c)
    (h : ((launch cfg kernel (fun m _ => D m) [c]).bind (makeCalls cfg C cs)).any P = true) :
    ∃ m, (hemem cfg kernel).Reach K m ∧ P m = true := by
  obtain ⟨m, hm, hP⟩ := (Option.any_eq_true P _).1 h
  obtain ⟨m₁, hm₁, hm⟩ := Option.bind_eq_some_iff.1 hm
  unfold launch at hm₁
  split at hm₁
  · rename_i s hs
    have hinit : (hemem cfg kernel).init ⟨s, fun _ => none⟩ := ⟨hs, rfl⟩
    unfold makeCalls at hm₁
    split at hm₁
    · rename_i hD
      split at hm₁
      · rename_i t ht
        cases hm₁
        exact ⟨m, makeCalls_reach hC (.step (.init hinit) (hc _ hinit hD) ⟨ht, rfl⟩) hm, hP⟩
      · cases hm₁
    · cases hm₁
  · cases hm₁

end Launched

end HeMem

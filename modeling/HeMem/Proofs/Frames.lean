import Mathlib.Data.Set.Function
import Mathlib.Logic.Equiv.Set
import HeMem.Proofs.Lists

/-!
# Frames are neither duplicated nor lost

A migration swaps the frames of two page structs, in two functions and with an early return in
between; everything else leaves frames alone.  So the frames the page structs name are always
those `pebs_init` gave them, each once, and the range assertions of a migration hold.
-/

namespace HeMem

open Function

variable {cfg : Config} {A : Allow} {kernel : Kernel} {v w : View} {p np : PageId}

/-- The frames of the two devices that `pebs_init` makes page structs for. -/
def initialFrames (cfg : Config) : Set (Device × UInt64) :=
  {f | ∃ dram i, i < cfg.count dram ∧
    f = (deviceOf dram, UInt64.ofNat i * pageSize + cfg.offset dram)}

section Offsets

variable {dram : Bool} {i j : ℕ}

theorem count_mul_le (cfg : Config) (dram : Bool) :
    cfg.count dram * pageSize.toNat ≤ (cfg.size dram).toNat := by
  unfold Config.count
  rw [UInt64.toNat_div]
  exact Nat.div_mul_le_self _ _

theorem toNat_offset (hi : i < cfg.count dram) :
    (UInt64.ofNat i * pageSize).toNat = i * pageSize.toNat := by
  have hle := count_mul_le cfg dram
  have hlt := (cfg.size dram).toNat_lt
  have hmul : i * pageSize.toNat < cfg.count dram * pageSize.toNat :=
    Nat.mul_lt_mul_of_pos_right hi (by decide)
  have hpos : 0 < pageSize.toNat := by decide
  have hi' : i ≤ i * pageSize.toNat := Nat.le_mul_of_pos_right i hpos
  rw [UInt64.toNat_mul, UInt64.toNat_ofNat']
  rw [Nat.mod_eq_of_lt (by omega : i < 2 ^ 64), Nat.mod_eq_of_lt (by omega)]

/-- The frames of a tier lie at different offsets. -/
theorem offset_inj (hi : i < cfg.count dram) (hj : j < cfg.count dram)
    (h : UInt64.ofNat i * pageSize + cfg.offset dram =
      UInt64.ofNat j * pageSize + cfg.offset dram) : i = j := by
  have h := congrArg UInt64.toNat ((UInt64.add_left_inj _).1 h)
  rw [toNat_offset hi, toNat_offset hj] at h
  exact Nat.eq_of_mul_eq_mul_right (by decide) h

/-- A frame that `pebs_init` makes a page struct for is inside its device. -/
theorem inRange_initial (hi : i < cfg.count dram) :
    cfg.InRange dram (UInt64.ofNat i * pageSize + cfg.offset dram) hugepageSize := by
  have hle := count_mul_le cfg dram
  have hlt := (cfg.size dram).toNat_lt
  have hmul : (i + 1) * pageSize.toNat ≤ cfg.count dram * pageSize.toNat :=
    Nat.mul_le_mul_right _ hi
  have hpos : 0 < pageSize.toNat := by decide
  have hpage : hugepageSize.toNat = pageSize.toNat := rfl
  rw [Nat.add_one_mul] at hmul
  unfold Config.InRange
  rw [UInt64.add_sub_cancel, UInt64.lt_iff_toNat_lt, UInt64.le_iff_toNat_le, UInt64.toNat_add,
    toNat_offset hi, hpage, Nat.mod_eq_of_lt (by omega)]
  omega

end Offsets

section Steady

/-- Lists, flags and rings apart, nothing has changed. -/
structure Steady (v w : View) : Prop where
  frame : ∀ x, (w.page x).frame = (v.page x).frame
  pt : ∀ x, (w.page x).pt = (v.page x).pt
  va : ∀ x, (w.page x).va = (v.page x).va
  present : ∀ x, (w.page x).present = (v.page x).present
  enforced : ∀ x, (w.page x).enforced = (v.page x).enforced
  pages : w.pages = v.pages
  kernel : w.kernel = v.kernel
  calls : w.calls = v.calls

/-- When a move exchanges the page `p` with the free page `np`. -/
structure Exchanges (A : Allow) (v : View) (up : Bool) (p np : PageId) : Prop where
  ready : v.free = [] ∨ A.stale ∨ (v.page p).present = true
  list : v.list p = some (if up then .nvmHot else .dramCold)
  free : v.list np = some (freeList up)
  ok : Exchangeable v up p np

theorem Steady.refl : Steady v v :=
  ⟨fun _ => rfl, fun _ => rfl, fun _ => rfl, fun _ => rfl, fun _ => rfl, rfl, rfl, rfl⟩

theorem Steady.edit (h : Steady v w) {f : HememPage → HememPage}
    (hf : ∀ P, (f P).frame = P.frame ∧ (f P).pt = P.pt ∧ (f P).va = P.va ∧
      (f P).present = P.present ∧ (f P).enforced = P.enforced) : Steady v (w.edit p f) := by
  refine ⟨fun x => ?_, fun x => ?_, fun x => ?_, fun x => ?_, fun x => ?_, h.pages, h.kernel, h.calls⟩
  all_goals
    rw [View.edit_page, update_apply]
    split
    · rename_i hx
      simp only [hf, h.frame, h.pt, h.va, h.present, h.enforced, hx]
    · simp only [h.frame, h.pt, h.va, h.present, h.enforced]

/-- A move exchanges two pages or leaves frames, addresses and the kernel's side alone. -/
theorem Move.exchanges (hm : Move A v w) :
    (∃ up p np, Exchanges A v up p np ∧ w = v.exchange up p np) ∨ Steady v w := by
  have steady : ∀ {w' : View}, Steady v w' → w.page = w'.page → w.pages = w'.pages →
      w.kernel = w'.kernel → w.calls = w'.calls → Steady v w := fun {w'} h h1 h2 h3 h4 => by
    obtain ⟨g1, g2, g3, g4, g5, g6, g7, g8⟩ := h
    rw [← h1] at g1 g2 g3 g4 g5
    exact ⟨g1, g2, g3, g4, g5, h2.trans g6, h3.trans g7, h4.trans g8⟩
  cases hm with
  | cursor c hc => exact .inr (steady .refl rfl rfl rfl rfl)
  | drain hf hl hc => exact .inr (steady .refl rfl rfl rfl rfl)
  | stale hot hd hr hp => exact .inr (steady .refl rfl rfl rfl rfl)
  | skip l hs hl => exact .inr (steady .refl rfl rfl rfl rfl)
  | serve hot hr hp hc hl =>
    exact .inr (steady (Steady.refl.edit (f := ({ · with ringPresent := false, hot := hot }))
      fun _ => ⟨rfl, rfl, rfl, rfl, rfl⟩) rfl rfl rfl rfl)
  | coolNvm hl hc =>
    exact .inr (steady (Steady.refl.edit (f := ({ · with hot := false }))
      fun _ => ⟨rfl, rfl, rfl, rfl, rfl⟩) rfl rfl rfl rfl)
  | cool dram hot c hl ht hh hc =>
    exact .inr (steady (Steady.refl.edit (f := ({ · with hot := hot }))
      fun _ => ⟨rfl, rfl, rfl, rfl, rfl⟩) rfl rfl rfl rfl)
  | promote hf hl hc hn he hp => exact .inl ⟨true, _, _, ⟨.inl hf, hl, hn, he⟩, rfl⟩
  | demote hf hl hn he => exact .inl ⟨false, _, _, ⟨hf, hl, hn, he⟩, rfl⟩

theorem Exchanges.kind {up : Bool} (h : Exchanges A v up p np) :
    ∃ q, v.list p = some q ∧ q.kind ≠ .free :=
  ⟨_, h.list, by cases up <;> simp [ListId.kind]⟩

theorem Exchanges.ne {up : Bool} (h : Exchanges A v up p np) : p ≠ np := by
  rintro rfl
  obtain ⟨q, hq, hk⟩ := h.kind
  rw [h.free] at hq
  cases hq
  exact hk (kind_freeList up)

/-- Unless removed pages may be moved, a page that is moved is present. -/
theorem Exchanges.present {n : ℕ} {up : Bool} (h : Exchanges A v up p np) (hI : Inv n A v)
    (hs : ¬ A.stale) : (v.page p).present = true := by
  obtain ⟨q, hq, hk⟩ := h.kind
  rcases h.ready with hf | hf | hpr
  · exact hI.present hf hq hk
  · exact absurd hf hs
  · exact hpr

/-- Moves change no mark, and give no page out. -/
theorem Move.marks {n : ℕ} (hI : Inv n A v) (hm : Move A v w) (p : PageId) :
    (w.page p).present = (v.page p).present ∧ (w.page p).enforced = (v.page p).enforced := by
  rcases hm.exchanges with ⟨up, c, np, he, rfl⟩ | hs
  · have hnp := hI.free _ _ he.free (kind_freeList up)
    simp only [View.exchange, View.put, View.edit, View.remap, View.call, HememPage.clearCounters,
      update_apply]
    split_ifs <;> simp_all
  · exact ⟨hs.present p, hs.enforced p⟩

theorem Moves.present {n : ℕ} (hI : Inv n A v) (hm : Moves A v w) (p : PageId) :
    (w.page p).present = (v.page p).present :=
  (hm.invariant (I := fun w => Inv n A w ∧ (w.page p).present = (v.page p).present) ⟨hI, rfl⟩
    fun _ _ h hm => ⟨h.1.move hm, (hm.marks h.1 p).1.trans h.2⟩).2

end Steady

section Bijection

theorem deviceOf_inj {a b : Bool} (h : deviceOf a = deviceOf b) : a = b := by
  cases a <;> cases b <;> simp [deviceOf] at h <;> rfl

/-- The frames the page structs name are the initial ones, each named once. -/
structure Framed (cfg : Config) (v : View) : Prop where
  bij : Set.BijOn (fun p => (v.page p).frame) {p | p < cfg.pages} (initialFrames cfg)
  pt : ∀ p, (v.page p).pt = .hugep

/-- What leaves the frame and the page type of every page alone keeps the frames. -/
theorem Framed.congr (h : Framed cfg v) (hf : ∀ p, (w.page p).frame = (v.page p).frame)
    (hp : ∀ p, (w.page p).pt = (v.page p).pt) : Framed cfg w where
  bij := by
    rw [funext hf]
    exact h.bij
  pt p := (hp p).trans (h.pt p)

theorem edit_frame {f : HememPage → HememPage} (hf : ∀ P, (f P).frame = P.frame) (x : PageId) :
    ((v.edit p f).page x).frame = (v.page x).frame := by
  rcases eq_or_ne x p with rfl | hx
  · rw [View.edit_page, update_self, hf]
  · rw [View.edit_page, update_of_ne hx]

theorem edit_pt {f : HememPage → HememPage} (hf : ∀ P, (f P).pt = P.pt) (x : PageId) :
    ((v.edit p f).page x).pt = (v.page x).pt := by
  rcases eq_or_ne x p with rfl | hx
  · rw [View.edit_page, update_self, hf]
  · rw [View.edit_page, update_of_ne hx]

theorem Framed.edit (h : Framed cfg v) {f : HememPage → HememPage}
    (hf : ∀ P, (f P).frame = P.frame) (hp : ∀ P, (f P).pt = P.pt) : Framed cfg (v.edit p f) :=
  h.congr (edit_frame hf) (edit_pt hp)

/-- An exchange swaps two frames. -/
theorem exchange_frame {up : Bool} (hne : p ≠ np) (hp : (v.page p).inDram = !up)
    (hn : (v.page np).inDram = up) (x : PageId) :
    ((v.exchange up p np).page x).frame = (v.page (Equiv.swap p np x)).frame := by
  simp only [View.exchange, View.put_page, View.edit_page, View.remap_page, View.call_page]
  rcases eq_or_ne x np with rfl | hxn
  · simp [HememPage.frame, HememPage.clearCounters, hne.symm, hp]
  rcases eq_or_ne x p with rfl | hxp
  · simp [HememPage.frame, hne, hn]
  · simp [Equiv.swap_apply_of_ne_of_ne hxp hxn, hxn, hxp]

theorem exchange_page_of_ne {up : Bool} {q : PageId} (hp : q ≠ p) (hn : q ≠ np) :
    (v.exchange up p np).page q = v.page q := by
  simp [View.exchange, hp, hn]

theorem exchange_pt {up : Bool} (x : PageId) :
    ((v.exchange up p np).page x).pt = (v.page x).pt := by
  simp only [View.exchange, View.put_page, View.edit_page, View.remap_page, View.call_page,
    update_apply, HememPage.clearCounters]
  split_ifs with h1 h2 h2 <;> simp [h1, h2]

theorem Framed.exchange (h : Framed cfg v) {up : Bool} (hne : p ≠ np)
    (hp : p < cfg.pages) (hn : np < cfg.pages) (hpi : (v.page p).inDram = !up)
    (hni : (v.page np).inDram = up) : Framed cfg (v.exchange up p np) where
  bij := by
    rw [funext (exchange_frame hne hpi hni)]
    exact h.bij.comp (Equiv.swap_bijOn_self (by simp [hp, hn]))
  pt x := (exchange_pt x).trans (h.pt x)

theorem framed_initial (cfg : Config) (kernel : Kernel) :
    Framed cfg (View.initial cfg kernel) where
  bij := by
    have hframe : ∀ p : ℕ, p < cfg.pages → ∃ dram i, i < cfg.count dram ∧
        p = (if dram then i else cfg.count true + i) ∧
        ((View.initial cfg kernel).page p).frame =
          (deviceOf dram, UInt64.ofNat i * pageSize + cfg.offset dram) := fun p hp => by
      rcases Nat.lt_or_ge p (cfg.count true) with h | h
      · exact ⟨true, p, h, by simp, by simp [View.initial, h, initPage, HememPage.frame]⟩
      · unfold Config.pages at hp
        refine ⟨false, p - cfg.count true, by omega, by simp; omega, ?_⟩
        simp [View.initial, Config.pages, Nat.not_lt.2 h, hp, initPage, HememPage.frame]
    refine ⟨fun p hp => ?_, fun p hp x hx he => ?_, fun f hf => ?_⟩
    · obtain ⟨dram, i, hi, -, hf⟩ := hframe p hp
      exact ⟨dram, i, hi, hf⟩
    · obtain ⟨dram, i, hi, rfl, hf⟩ := hframe p hp
      obtain ⟨dram', j, hj, rfl, hf'⟩ := hframe x hx
      simp only [hf, hf', Prod.mk.injEq] at he
      obtain rfl := deviceOf_inj he.1
      rw [offset_inj hi hj he.2]
    · obtain ⟨dram, i, hi, rfl⟩ := hf
      have hp : (if dram then i else cfg.count true + i) < cfg.pages := by
        unfold Config.pages
        cases dram <;> simp <;> omega
      refine ⟨_, hp, ?_⟩
      obtain ⟨dram', j, hj, he, hf⟩ := hframe _ hp
      obtain ⟨rfl, rfl⟩ : dram = dram' ∧ i = j := by
        cases dram <;> cases dram' <;> simp at he ⊢ <;> omega
      exact hf
  pt p := by
    simp only [View.initial]
    split_ifs <;> rfl

theorem Framed.move (h : Framed cfg v) (hI : Inv cfg.pages A v) (hm : Move A v w) :
    Framed cfg w := by
  rcases hm.exchanges with ⟨up, p, np, he, rfl⟩ | hs
  · exact h.exchange he.ne (hI.owned _ _ he.list) (hI.owned _ _ he.free) he.ok.inDram
      ((hI.tier _ _ he.free).trans (dram_freeList up))
  · exact h.congr hs.frame hs.pt

theorem framed_kept : Kept cfg A fun v => Inv cfg.pages A v ∧ Framed cfg v where
  move h hm := ⟨h.1.move hm, h.2.move h.1 hm⟩
  alloc := fun {v p dram q e} h hf hq he => ⟨inv_kept.alloc h.1 hf hq he,
    (h.2.edit (f := ({ · with present := true, enforced := e })) (fun _ => rfl) fun _ => rfl).congr
      (fun _ => rfl) fun _ => rfl⟩
  priority h := ⟨inv_kept.priority h.1, h.2.congr (fun _ => rfl) fun _ => rfl⟩
  assign h hp hva hal := ⟨inv_kept.assign h.1 hp hva hal, h.2.edit (fun _ => rfl) fun _ => rfl⟩
  remove := fun {v p} h hp hpr => ⟨inv_kept.remove h.1 hp hpr,
    (h.2.congr (w := { v with free := v.free ++ [p] }) (fun _ => rfl) fun _ => rfl).edit
      (fun _ => rfl) fun _ => rfl⟩
  sample := fun {v w p} h hp hs => by
    refine ⟨inv_kept.sample h.1 hp hs, ?_⟩
    rcases hs with rfl | ⟨-, hot, l, c, r, a, t, -, rfl⟩
    · exact h.2
    · exact (h.2.congr (w := v.setRequests hot l) (fun _ => rfl) fun _ => rfl).edit
        (fun _ => rfl) fun _ => rfl

/-- The range assertions of a migration hold of what the lists hold. -/
theorem Framed.inRange (h : Framed cfg v) (hp : p < cfg.pages) {dram : Bool}
    (hd : (v.page p).inDram = dram) :
    cfg.InRange dram (v.page p).devdaxOffset hugepageSize := by
  obtain ⟨dram', i, hi, he⟩ := h.bij.mapsTo hp
  simp only [HememPage.frame, Prod.mk.injEq] at he
  rw [he.2, ← hd, deviceOf_inj he.1]
  exact inRange_initial hi

theorem Fails.migrateRange (h : Fails cfg v .migrateRange) : ∃ (up : Bool) (p np : PageId) (q : ListId),
    v.list p = some q ∧ v.list np = some (freeList up) ∧ (v.page p).inDram = !up ∧
      (¬ cfg.InRange (!up) (v.page p).devdaxOffset (ptToPagesize (v.page p).pt) ∨
        ¬ cfg.InRange up (v.page np).devdaxOffset (ptToPagesize (v.page p).pt)) := by
  cases h with
  | exchange up hl hn he =>
    cases he with
    | range ht h => exact ⟨up, _, _, _, hl, hn, ht, h⟩
  | _ => grind

/-- In every run, with any hints, the page structs name the frames of the two devices one to one,
and no migration trips an assertion on the range of an offset. -/
theorem frames_bijection {s : State} (h : (policy cfg kernel).Reach (Op.Legal cfg) s) :
    Set.BijOn (fun p => (s.page p).frame) {p | p < cfg.pages} (initialFrames cfg) ∧
      ∀ op : Op, op.Legal cfg s → op.run cfg s ≠ .error .migrateRange := by
  have hk : Kept cfg Allow.legal _ := framed_kept
  have hi : Inv cfg.pages Allow.legal (View.initial cfg kernel) ∧
      Framed cfg (View.initial cfg kernel) := ⟨inv_initial kernel, framed_initial cfg kernel⟩
  have hw : ∀ (s : State) (op : Op), op.Legal cfg s → op.Within cfg Allow.legal s :=
    fun _ _ hl => hl.within
  refine ⟨(hk.reach hi (h.mono hw)).2.2.bij, fun op hl he => ?_⟩
  rcases hk.error hi (h.mono hw) (hw s op hl) he with ⟨v, ⟨hI, hF⟩, hf⟩ | he
  · obtain ⟨up, p, np, q, hp, hn, hin, hr⟩ := hf.migrateRange
    rw [hF.pt p] at hr
    rcases hr with hr | hr
    · exact hr (hF.inRange (hI.owned p q hp) hin)
    · exact hr (hF.inRange (hI.owned np _ hn) ((hI.tier np _ hn).trans (dram_freeList up)))
  · cases he

/-- After a hinted fault that moves a page down. -/
theorem frames_bijection_moved : ∃ s : State,
    Set.BijOn (fun p => (s.page p).frame) {p | p < fourFrames.pages} (initialFrames fourFrames) := by
  obtain ⟨s, hs, -⟩ := boot_reach fourFrames Kernel.fresh (C := Op.Legal fourFrames)
    [.hint 0 1 0, .fault, .allocate, .assign 1 hugepageSize, .hint 0 0 0, .fault] (fun _ => true)
    (fun _ _ _ h => h) (by decide +kernel)
  exact ⟨s, (frames_bijection hs).1⟩

end Bijection

end HeMem

import HeMem.Proofs.Frames

/-!
# Without hints the policy trips no assertion

No page is enforced then, so no victim search drops one, and no page is hot without its flag: all
parts of the invariant hold, and each assertion follows from one of them.  What may still fail is
an allocation with no frame left, a demotion with no free NVM page, and the write protection of a
page that has been given out but not been given its address yet.
-/

namespace HeMem

open Hoare Function

variable {cfg : Config} {A : Allow} {kernel : Kernel} {s : State} {v w : View} {e : Abort}
  {p : PageId}

section Unhinted

/-- Runs without hints go through no defect. -/
def Allow.none : Allow := ⟨False, False, False, False, False, True⟩

theorem Inv.exchangeFails (h : Inv cfg.pages A v) (hF : Framed cfg v) {up : Bool} {np : PageId}
    (hl : v.list p = some (if up then .nvmHot else .dramCold)) (hn : v.list np = some (freeList up))
    (he : ExchangeFails cfg v up p np e) : e = .wpVa ∧ v.Unplaced := by
  have hin : (v.page p).inDram = !up := by
    rw [h.tier _ _ hl]
    cases up <;> rfl
  cases he with
  | wpVa hva =>
    refine ⟨rfl, p, _, hl, ?_, hva⟩
    cases up <;> simp [ListId.kind]
  | wpAlign hal => exact absurd (h.align p) hal
  | inDram ht => exact absurd hin ht
  | range ht hr =>
    rw [hF.pt] at hr
    have hnp := hF.inRange (h.owned _ _ hn) ((h.tier _ _ hn).trans (dram_freeList up))
    exact absurd hr (not_or.2 ⟨not_not.2 (hF.inRange (h.owned _ _ hl) hin), not_not.2 hnp⟩)

/-- The assertions that may fail in a view without defects. -/
theorem Inv.fails (h : Inv cfg.pages Allow.none v) (hF : Framed cfg v) (hf : Fails cfg v e) :
    e = .outOfMemory ∨ e = .policyNp ∨ e = .wpVa ∧ v.Unplaced := by
  have hlisted : ∀ p, p < cfg.pages → v.list p ≠ none := h.listed.resolve_left id
  cases hf with
  | cursor dram hc hl he => exact absurd (h.cursor dram _ hc) hl
  | drainList hf hl => exact absurd hl (hlisted _ ((h.ring _ (by simp [hf])).1.resolve_right id))
  | requestList hot hf hr hp hl =>
    have hw := h.waiting _ (h.request hot _ (by simp [hr])).1 hp
    rw [hf] at hw
    exact absurd (hw.resolve_left List.not_mem_nil) hl
  | setHotVa hot hr hp hv he => exact absurd hv (h.request hot _ (by simp [hr])).2
  | setHotList hot hr hp hl he =>
    exact absurd (h.used id id (h.request hot _ (by simp [hr])).1 hp) hl
  | coolInDram dram hl ht => exact absurd ((h.tier _ _ hl).trans (dram_hotList dram)) ht
  | takeInDram dram hl ht he => exact absurd ((h.tier _ _ hl).trans (dram_freeList dram)) ht
  | takePresent dram hl hp he =>
    rw [h.free _ _ hl (kind_freeList dram)] at hp
    cases hp
  | outOfMemory => exact .inl rfl
  | policyNp hl => exact .inr (.inl rfl)
  | exchange up hl hn he => exact .inr (.inr (h.exchangeFails hF hl hn he))

/-- Pages given out in `w` are given out in `v` too, at the same address. -/
def View.Older (v w : View) : Prop :=
  ∀ p, (w.page p).va = (v.page p).va ∧ ∀ q, w.list p = some q → q.kind ≠ .free →
    ∃ q, v.list p = some q ∧ q.kind ≠ .free

theorem Move.older (hm : Move A v w) : v.Older w := by
  intro x
  cases hm with
  | cursor c hc => exact ⟨rfl, fun q hq hk => ⟨q, hq, hk⟩⟩
  | stale hot hd hr hp => exact ⟨rfl, fun q hq hk => ⟨q, hq, hk⟩⟩
  | skip l hs hl =>
    refine ⟨rfl, fun q hq hk => ⟨q, ?_, hk⟩⟩
    rcases hl x with h | h
    · exact h.symm.trans hq
    · exact absurd (h.1.symm.trans hq) (by simp)
  | drain hf hl hc =>
    simp only [View.put, update_apply]
    grind [kind_freeList]
  | serve hot hr hp hc hl =>
    simp only [View.setRequests, View.put, View.edit, update_apply]
    grind [kind_usedList]
  | coolNvm hl hc =>
    simp only [View.put, View.edit, update_apply]
    grind [ListId.kind]
  | cool dram hot c hl ht hh hc =>
    simp only [View.setCur, View.put, View.edit, update_apply]
    grind [kind_hotList]
  | promote hf hl hc hn he hp =>
    simp only [View.exchange, View.put, View.edit, View.remap, View.call,
      HememPage.clearCounters, update_apply]
    grind [ListId.kind, freeList]
  | demote hf hl hn he =>
    simp only [View.exchange, View.put, View.edit, View.remap, View.call,
      HememPage.clearCounters, update_apply]
    grind [ListId.kind, freeList]

/-- Moves give no page out and leave addresses alone. -/
theorem Moves.unplaced (hm : Moves A v w) (hw : w.Unplaced) : v.Unplaced := by
  refine hm.invariant (I := fun w => w.Unplaced → v.Unplaced) id (fun v₁ v₂ ih hm h => ih ?_) hw
  obtain ⟨p, q, hq, hk, hva⟩ := h
  obtain ⟨hpage, hlist⟩ := hm.older p
  obtain ⟨q', hq', hk'⟩ := hlist q hq hk
  exact ⟨p, q', hq', hk', hpage ▸ hva⟩

theorem Inv.notSkips (hA : ¬ A.hint) (h : Inv cfg.pages A s.view) : ¬ s.SkipsAtHead := by
  rintro ⟨p, c, -, -, -, -, hen⟩
  have hno : (s.page c).enforced = false := h.enforced.resolve_left hA c
  simp [hno] at hen

theorem Inv.head (hA : ¬ A.hint) {b b' : UInt64} {s' : State} (hh : MigrateHead cfg b s b' s')
    (hg : s.Good) (hf : s.view.free = []) (h : Inv cfg.pages A s.view) :
    Inv cfg.pages A s'.view := by
  induction hh with
  | here => exact h
  | next hb ht _ ih =>
    obtain ⟨hg', ⟨hr, -⟩ | ⟨p, -, hm, -⟩⟩ := (migrateTurn_sat hg hf (.inr (h.notSkips hA))).ok ht
    · cases hr
    · exact ih hg' (hm.free_nil hf) (inv_kept.moves h hm)

/-- Where no fault is hinted, no page is enforced and no victim search meets an enforced page. -/
theorem Inv.passMeetsNone (hA : ¬ A.hint) (hd : A.drop) (hg : s.Good) (h : Inv cfg.pages A s.view) :
    s.PassMeetsNone cfg := by
  intro t b t' ht hh _
  obtain ⟨hg', hm, hf⟩ := ((beforeMigration_spec cfg A (.inl hd)).at hg rfl).ok ht
  exact (Inv.head hA hh hg' hf (inv_kept.moves h hm)).notSkips hA

/-- Without hints a run goes through no defect. -/
theorem Inv.within {op : Op} (hg : s.Good) (h : Inv cfg.pages Allow.none s.view)
    (hl : op.Legal cfg s) (hp : op.Plain) : op.Within cfg Allow.none s := by
  cases op with
  | hint | fault => exact hp.elim
  | pass =>
    exact ⟨hl, .inr trivial, .inr (h.passMeetsNone id trivial hg), .inr trivial, .inr trivial,
      .inl trivial⟩
  | _ => exact ⟨hl, .inr trivial, .inr trivial, .inr trivial, .inr trivial, .inl trivial⟩

theorem plain_reach (h : (policy cfg kernel).Reach (fun s op => op.Legal cfg s ∧ op.Plain) s) :
    s.Good ∧ Inv cfg.pages Allow.none s.view ∧ Framed cfg s.view := by
  refine h.invariant (I := fun s => s.Good ∧ Inv cfg.pages Allow.none s.view ∧ Framed cfg s.view)
    (fun s hs => ?_) fun s op s' ⟨hg, hI⟩ ⟨hl, hp⟩ hs =>
      (framed_kept.run hg hI (hI.1.within hg hl hp)).ok hs
  obtain ⟨hg, hv⟩ := pebsInit_sat.ok hs
  exact ⟨hg, hv ▸ ⟨inv_initial kernel, framed_initial cfg kernel⟩⟩

/-- Without hints a step aborts only with no frame left, with no free NVM page to demote to, with
a page in hand that has no address yet, or while a removal waits for the ring.  After a pass each
page is on the list of its tier that its flags say, and the cursors are on their hot lists. -/
theorem plain_run_asserts
    (h : (policy cfg kernel).Reach (fun s op => op.Legal cfg s ∧ op.Plain) s) :
    (∀ op : Op, op.Legal cfg s → op.Plain → ∀ e, op.run cfg s = .error e →
      e = .outOfMemory ∨ e = .policyNp ∨ e = .wpVa ∧ s.view.Unplaced ∨
        e = .waits ∧ ∃ page, op = .remove page) ∧
    ∀ s', Op.pass.run cfg s = .ok ((), s') →
      (∀ p, p < cfg.pages → ((s'.page p).present = true →
          p ∈ s'.fifo.contents (usedList (s'.page p).inDram (s'.page p).hot)) ∧
        ((s'.page p).present = false → p ∈ s'.fifo.contents (freeList (s'.page p).inDram))) ∧
      ∀ dram c, s'.cur dram = some c → c ∈ s'.fifo.contents (hotList dram) := by
  obtain ⟨hg, hI⟩ := plain_reach h
  constructor
  · intro op hl hp e he
    rcases (framed_kept.run hg hI (hI.1.within hg hl hp)).error he with ⟨v, hm, hv, hf⟩ | hw
    · rcases hv.1.fails hv.2 hf with he | he | ⟨he, hu⟩
      · exact .inl he
      · exact .inr (.inl he)
      · exact .inr (.inr (.inl ⟨he, hm.unplaced hu⟩))
    · exact .inr (.inr (.inr hw))
  · intro s' hr
    obtain ⟨hg', hm, hf⟩ := (pebsPolicyPass_sat (A := Allow.none) hg
      (.inr (hI.1.passMeetsNone id trivial hg)) (.inl trivial)).ok hr
    have hI' : Inv cfg.pages Allow.none s'.view := inv_kept.moves hI.1 hm
    refine ⟨fun p hp => ⟨fun hpr => ?_, fun hpr => ?_⟩, fun dram c hc => ?_⟩
    · exact hg'.fifo.mem_contents.2 (hI'.used id id hp hpr)
    · refine hg'.fifo.mem_contents.2 ((hI'.waiting p hp hpr).resolve_left ?_)
      simp [hf]
    · exact hg'.fifo.mem_contents.2 (hI'.cursor dram c hc)

/-- Two pages are allocated, sampled and removed, and a pass drains one of them. -/
theorem plain_run_asserts_drained : ∃ s : State, ∀ op : Op, op.Legal fourFrames s → op.Plain →
    ∀ e, op.run fourFrames s = .error e → e = .outOfMemory ∨ e = .policyNp ∨
      e = .wpVa ∧ s.view.Unplaced ∨ e = .waits ∧ ∃ page, op = .remove page := by
  obtain ⟨s, hs, -⟩ := boot_reach fourFrames Kernel.fresh
    (C := fun s op => op.Legal fourFrames s ∧ op.Plain)
    [.allocate, .assign 0 hugepageSize, .sample .nvmread 0, .remove 0, .allocate, .pass]
    (fun _ => true) (fun op hop s hl => ⟨hl, by fin_cases hop <;> trivial⟩) (by decide +kernel)
  exact ⟨s, (plain_run_asserts hs).1⟩

end Unhinted

end HeMem

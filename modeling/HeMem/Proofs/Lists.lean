import Mathlib.Tactic.FinCases
import HeMem.Proofs.Invariant

/-!
# Every page is on one list, the one its flag says

A victim search takes pages off DRAM cold and drops those it skips.  As long as no search meets an
enforced page, every page struct is on exactly one list.  A hinted fault puts a page on DRAM hot
without setting its flag; as long as none does, the list of a present page agrees with its flag.
-/

namespace HeMem

variable {cfg : Config} {kernel : Kernel} {s : State} {p : PageId} {op : Op} {e : Abort}

section Reached

/-- Legal runs may go through all defects. -/
def Allow.legal : Allow := ⟨True, True, True, True, False, True⟩

theorem Op.Legal.within (h : op.Legal cfg s) : op.Within cfg Allow.legal s :=
  ⟨h, .inl trivial, .inl trivial, .inl trivial, .inl trivial, .inl trivial⟩

theorem reach_all (h : (policy cfg kernel).Reach (Op.Legal cfg) s) :
    s.Good ∧ Inv cfg.pages Allow.legal s.view :=
  inv_kept.reach (inv_initial kernel) (h.mono fun _ _ hl => hl.within)

theorem count_contents (hg : s.Good) (p : PageId) (q : ListId) :
    (s.fifo.contents q).count p = if s.fifo.listOf p = some q then 1 else 0 := by
  rw [List.Nodup.count hg.fifo.nodup_contents]
  simp only [hg.fifo.mem_contents]

end Reached

section OneList

/-- In a run whose victim searches meet no enforced page, every page is on exactly one list, and
names it. -/
theorem every_page_on_one_list (h : (policy cfg kernel).Reach
    (fun s op => op.Legal cfg s ∧ op.MeetsNone cfg s) s) (hp : p < cfg.pages) :
    ∃ q, s.fifo.listOf p = some q ∧
      ∀ q', (s.fifo.contents q').count p = if q' = q then 1 else 0 := by
  obtain ⟨hg, hI⟩ := (inv_kept (A := ⟨True, False, True, True, False, True⟩)).reach (inv_initial kernel)
    (h.mono fun s op hc => ⟨hc.1, .inl trivial, .inr hc.2, .inl trivial, .inl trivial, .inl trivial⟩)
  have hl : s.fifo.listOf p ≠ none := hI.listed.resolve_left id p hp
  obtain ⟨q, hq⟩ := Option.ne_none_iff_exists'.1 hl
  refine ⟨q, hq, fun q' => ?_⟩
  rw [count_contents hg, hq]
  simp [eq_comm]

/-- Two frames in DRAM and two in NVM. -/
def fourFrames : Config := ⟨2 * pageSize, 2 * pageSize, 0, 0⟩

/-- A check that the step is no pass, and no fault that meets an enforced page. -/
def Op.searches (s : State) : Op → Bool
  | .fault => decide s.FaultMeets
  | .pass => true
  | _ => false

theorem Op.meetsNone_of (h : op.searches s = false) : op.MeetsNone cfg s := by
  cases op with
  | fault => exact of_decide_eq_false h
  | pass => cases h
  | _ => trivial

/-- Page 1 is enforced and page 0 is not; a hinted fault finds DRAM full, searches from page 0 and
moves it down, and then it is removed. -/
theorem every_page_on_one_list_removed : ∃ s : State,
    s.calls.map (fun c => (c.page, c.up)) = [(0, false)] ∧ (s.page 1).enforced = true ∧
      (s.page 0).present = false ∧ ∃ q, s.fifo.listOf 0 = some q ∧
        ∀ q', (s.fifo.contents q').count 0 = if q' = q then 1 else 0 := by
  obtain ⟨s, hs, hP⟩ := policy_reach fourFrames Kernel.fresh
    (C := fun s op => op.Legal fourFrames s ∧ op.MeetsNone fourFrames s)
    (fun s op => op.Legal fourFrames s ∧ op.searches s = false)
    (fun s op h => ⟨h.1, Op.meetsNone_of h.2⟩)
    [.allocate, .assign 0 hugepageSize, .hint 0 1 0, .fault, .assign 1 (2 * hugepageSize),
      .hint 0 0 0, .fault, .assign 2 (3 * hugepageSize), .remove 0]
    (fun s => decide (s.calls.map (fun c => (c.page, c.up)) = [(0, false)] ∧
      (s.page 1).enforced = true ∧ (s.page 0).present = false)) (by decide +kernel)
  obtain ⟨hcalls, he, hp⟩ := of_decide_eq_true hP
  exact ⟨s, hcalls, he, hp, every_page_on_one_list hs (by decide)⟩

/-- Page 0 is enforced, page 1 is not; a hinted fault finds DRAM full and searches from page 0. -/
theorem enforced_page_lost : ∃ s, (policy fourFrames Kernel.fresh).Reach (Op.Legal fourFrames) s ∧
    0 < fourFrames.pages ∧ ∀ q, (s.fifo.contents q).count 0 = 0 := by
  obtain ⟨s, hs, hl⟩ := boot_reach fourFrames Kernel.fresh
    [.hint 0 1 0, .fault, .allocate, .assign 1 hugepageSize, .hint 0 0 0, .fault]
    (fun s => decide (s.fifo.listOf 0 = none)) (fun _ _ _ h => h) (by decide +kernel)
  refine ⟨s, hs, by decide, fun q => ?_⟩
  rw [count_contents (reach_all hs).1, of_decide_eq_true hl]
  rfl

end OneList

section Flags

theorem eq_usedList (q : ListId) (hq : q.kind ≠ .free) : q = usedList q.dram (q.kind = .hot) := by
  cases q <;> first | rfl | exact absurd rfl hq

/-- A present page is on the list of its tier for its flag. -/
theorem Inv.used {n : ℕ} {A : Allow} {v : View} (h : Inv n A v) (hs : ¬ A.skip)
    (hh : ¬ A.hotFault) (hp : p < n) (hpr : (v.page p).present = true) :
    v.list p = some (usedList (v.page p).inDram (v.page p).hot) := by
  obtain ⟨q, hq⟩ := Option.ne_none_iff_exists'.1 (h.listed.resolve_left hs p hp)
  have hk : q.kind ≠ .free := fun hk => by simp [h.free p q hq hk] at hpr
  have hhot : (v.page p).hot = decide (q.kind = .hot) := by
    rcases hkq : q.kind with _ | _ | _
    · simp [h.hotFlag.resolve_left hh p q hq hkq hpr]
    · simp [h.coldFlag p q hq hkq]
    · exact absurd hkq hk
  rw [hq, h.tier p q hq, hhot, ← eq_usedList q hk]

theorem Fails.setHot {v : View} (h : Fails cfg v e) (he : e = .makeHotList ∨ e = .makeColdList) :
    ∃ hot p, p ∈ v.requests hot ∧ (v.page p).present = true ∧
      v.list p ≠ some (usedList (v.page p).inDram (v.page p).hot) := by
  cases h with
  | setHotList hot hr hp hl _ => exact ⟨hot, _, by simp [hr], hp, hl⟩
  | exchange up hl hn hf => cases hf <;> simp at he
  | _ => grind

/-- In a run without faults hinted hot, the list of a present page agrees with its flag; and if no
victim search meets an enforced page either, no request trips a list assertion. -/
theorem flag_agrees_with_list (h : (policy cfg kernel).Reach
    (fun s op => op.Legal cfg s ∧ op.NoHotFault s) s) :
    (∀ p dram, (s.page p).present = true →
      (p ∈ s.fifo.contents (hotList dram) → (s.page p).hot = true) ∧
      (p ∈ s.fifo.contents (coldList dram) → (s.page p).hot = false)) ∧
    ((policy cfg kernel).Reach (fun s op => op.Legal cfg s ∧ op.NoHotFault s ∧ op.MeetsNone cfg s) s →
      ∀ op : Op, op.Legal cfg s → op.NoHotFault s → op.MeetsNone cfg s → ∀ e,
        op.run cfg s = .error e → e ≠ .makeHotList ∧ e ≠ .makeColdList) := by
  constructor
  · intro p dram hpr
    obtain ⟨hg, hI⟩ := (inv_kept (A := ⟨True, True, False, True, False, True⟩)).reach (inv_initial kernel)
      (h.mono fun s op hc => ⟨hc.1, .inl trivial, .inl trivial, .inl trivial, .inr hc.2, .inl trivial⟩)
    refine ⟨fun hm => ?_, fun hm => ?_⟩
    · exact hI.hotFlag.resolve_left id p _ (hg.fifo.mem_contents.1 hm) (kind_hotList dram) hpr
    · exact hI.coldFlag p _ (hg.fifo.mem_contents.1 hm) (kind_usedList dram false)
  · intro h op hl hh hs e he
    rcases (inv_kept (A := ⟨True, False, False, True, False, True⟩)).error (inv_initial kernel)
      (h.mono fun s op hc => ⟨hc.1, .inl trivial, .inr hc.2.2, .inl trivial, .inr hc.2.1, .inl trivial⟩)
      ⟨hl, .inl trivial, .inr hs, .inl trivial, .inr hh, .inl trivial⟩ he with ⟨v, hI, hf⟩ | rfl
    · have hno : ¬ (e = .makeHotList ∨ e = .makeColdList) := fun he => by
        obtain ⟨hot, p, hr, hpr, hl⟩ := hf.setHot he
        exact hl (hI.used id id (hI.request hot p hr).1 hpr)
      exact not_or.1 hno
    · simp

/-- Page 2 is sampled in NVM until it is hot, a pass exchanges it with page 0, and a hinted fault
moves page 1 down. -/
theorem flag_agrees_with_list_sampled : ∃ s : State,
    s.calls.map (fun c => (c.page, c.up)) = [(1, false), (2, true), (0, false)] ∧
      s.fifo.contents .dramHot = [2] ∧ s.fifo.contents .nvmCold = [1, 0] ∧
      ∀ p dram, (s.page p).present = true →
        (p ∈ s.fifo.contents (hotList dram) → (s.page p).hot = true) ∧
        (p ∈ s.fifo.contents (coldList dram) → (s.page p).hot = false) := by
  obtain ⟨s, hs, hP⟩ := policy_reach fourFrames Kernel.fresh
    (C := fun s op => op.Legal fourFrames s ∧ op.NoHotFault s)
    (fun s op => op.Legal fourFrames s ∧ op.NoHotFault s) (fun _ _ => id)
    ([.allocate, .assign 0 hugepageSize, .allocate, .assign 1 (2 * hugepageSize), .allocate,
      .assign 2 (3 * hugepageSize)] ++ List.replicate 8 (.sample .nvmread 2) ++
      [.pass, .hint 0 0 0, .fault])
    (fun s => decide (s.calls.map (fun c => (c.page, c.up)) = [(1, false), (2, true), (0, false)] ∧
      s.fifo.contents .dramHot = [2] ∧ s.fifo.contents .nvmCold = [1, 0])) (by decide +kernel)
  obtain ⟨hcalls, hhot, hcold⟩ := of_decide_eq_true hP
  exact ⟨s, hcalls, hhot, hcold, (flag_agrees_with_list hs).1⟩

/-- The first hinted fault takes page 0, with priority 1. -/
theorem hot_fault_flag_clear : ∃ s,
    (policy fourFrames Kernel.fresh).Reach (Op.Legal fourFrames) s ∧
      (s.page 0).present = true ∧ 0 ∈ s.fifo.contents (hotList true) ∧ (s.page 0).hot = false := by
  obtain ⟨s, hs, hl⟩ := boot_reach fourFrames Kernel.fresh [.hint 0 0 1, .fault]
    (fun s => decide ((s.page 0).present = true ∧ 0 ∈ s.fifo.contents (hotList true) ∧
      (s.page 0).hot = false)) (fun _ _ _ h => h) (by decide +kernel)
  exact ⟨s, hs, of_decide_eq_true hl⟩

end Flags

end HeMem

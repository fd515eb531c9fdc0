import Mathlib.Data.Fintype.Card
import Mathlib.Tactic.Common

/-!
# Barriers

A barrier that is used again and again.  Who comes last in a round lets everybody go.  Whoever has
been let go leaves by itself, and others may wait in the next round by then.
-/

structure Barrier (ι : Type*) where
  /-- how many have come in this round -/
  arrived : ℕ
  round : ℕ
  /-- the round in which a participant has come and from which it has not left yet -/
  waits : ι → Option ℕ

namespace Barrier

open Function Finset

variable {ι : Type*}

/-- Nobody has come yet. -/
def start : Barrier ι := ⟨0, 0, fun _ => none⟩

variable (b : Barrier ι) (p : ι)

/-- In how many rounds a participant has come. -/
def turns : ℕ := (b.waits p).elim b.round (· + 1)

variable [DecidableEq ι]

/-- A participant comes to a barrier for `count` of them. -/
def arrive (count : ℕ) : Barrier ι :=
  if b.arrived + 1 = count then ⟨0, b.round + 1, update b.waits p (some b.round)⟩
  else ⟨b.arrived + 1, b.round, update b.waits p (some b.round)⟩

/-- A participant that has been let go leaves. -/
def leave : Option (Barrier ι) :=
  if (b.waits p).any (· ≠ b.round) then some { b with waits := update b.waits p none } else none

variable {b p} {q : ι} {b' : Barrier ι}

theorem waits_arrive {count : ℕ} :
    (b.arrive p count).waits = update b.waits p (some b.round) := by
  unfold arrive
  split <;> rfl

theorem leave_eq_some (h : b.leave p = some b') : (∃ r, b.waits p = some r ∧ r ≠ b.round) ∧
    b' = { b with waits := update b.waits p none } := by
  unfold leave at h
  split at h
  · rename_i hw
    cases h
    simpa [Option.any_eq_true] using hw
  · cases h

section Rounds

omit [DecidableEq ι]

theorem turns_of_none (h : b.waits p = none) : b.turns p = b.round := by simp [turns, h]

theorem turns_of_some {r : ℕ} (h : b.waits p = some r) : b.turns p = r + 1 := by simp [turns, h]

variable (b) in
/-- Not all have come in this round, and nobody is more than a round behind. -/
structure Wf [Fintype ι] : Prop where
  arrived : b.arrived = #{p | b.waits p = some b.round}
  lt : b.arrived < Fintype.card ι
  near : ∀ p r, b.waits p = some r → r = b.round ∨ r + 1 = b.round

variable [Fintype ι]

theorem start_wf [Nonempty ι] : (start : Barrier ι).Wf :=
  ⟨by simp [start], Fintype.card_pos, by simp [start]⟩

/-- Somebody is not waiting for others. -/
theorem Wf.exists_free (h : b.Wf) : ∃ p, b.waits p ≠ some b.round := by
  by_contra hall
  push Not at hall
  have hlt := h.lt
  rw [h.arrived, filter_true_of_mem fun p _ => hall p] at hlt
  exact lt_irrefl _ hlt

end Rounds

variable [Fintype ι]

/-- If one is missing, it is the only one. -/
theorem Wf.waits_of_last (h : b.Wf) (hp : b.waits p = none)
    (hlast : b.arrived + 1 = Fintype.card ι) (hq : q ≠ p) : b.waits q = some b.round := by
  by_contra hne
  have hsub : ({p, q} : Finset ι) ⊆ ({x | b.waits x = some b.round} : Finset ι)ᶜ := by
    intro x hx
    simp only [mem_insert, mem_singleton] at hx
    rcases hx with rfl | rfl
    · simp [hp]
    · simpa using hne
  have hcard := card_le_card hsub
  rw [card_compl, ← h.arrived, card_pair hq.symm] at hcard
  omega

theorem filter_arrive (hp : b.waits p = none) :
    #{x | update b.waits p (some b.round) x = some b.round} =
      #{x | b.waits x = some b.round} + 1 := by
  have hins : univ.filter (fun x => update b.waits p (some b.round) x = some b.round) =
      insert p (univ.filter fun x => b.waits x = some b.round) := by
    ext x
    rcases eq_or_ne x p with rfl | hx
    · simp
    · simp [hx]
  rw [hins, card_insert_of_notMem (by simp [hp])]

/-- Either somebody is still missing, or the last one has come and all are let go. -/
theorem Wf.arrive_cases (h : b.Wf) (hp : b.waits p = none) :
    (b.arrive p (Fintype.card ι)).Wf ∧
      ((b.arrive p (Fintype.card ι)).round = b.round ∨
        (b.arrive p (Fintype.card ι)).round = b.round + 1 ∧
          ∀ q, q ≠ p → b.waits q = some b.round) := by
  unfold arrive
  by_cases hlast : b.arrived + 1 = Fintype.card ι
  · have hwaits := fun q hq => h.waits_of_last (q := q) hp hlast hq
    rw [if_pos hlast]
    refine ⟨⟨?_, by have := h.lt; dsimp only; omega, fun x r hx => ?_⟩, .inr ⟨rfl, hwaits⟩⟩
    · refine (card_eq_zero.2 (filter_eq_empty_iff.2 fun x _ => ?_)).symm
      rcases eq_or_ne x p with rfl | hx
      · simp
      · simp [hx, hwaits x hx]
    · rcases eq_or_ne x p with rfl | hxp
      · simp only [update_self, Option.some.injEq] at hx
        exact .inr (by dsimp only; omega)
      · simp only [update_of_ne hxp, hwaits x hxp, Option.some.injEq] at hx
        exact .inr (by dsimp only; omega)
  · rw [if_neg hlast]
    refine ⟨⟨?_, by have := h.lt; dsimp only; omega, fun x r hx => ?_⟩, .inl rfl⟩
    · dsimp only
      rw [filter_arrive hp, h.arrived]
    · rcases eq_or_ne x p with rfl | hxp
      · simp only [update_self, Option.some.injEq] at hx
        exact .inl hx.symm
      · exact h.near x r (by simpa [hxp] using hx)

theorem Wf.leave (h : b.Wf) (hb : b.leave p = some b') : b'.Wf := by
  obtain ⟨⟨r, hr, hne⟩, rfl⟩ := leave_eq_some hb
  refine ⟨?_, h.lt, fun x r hx => ?_⟩
  · rw [h.arrived]
    congr 1
    ext x
    rcases eq_or_ne x p with rfl | hx
    · simp [hr, hne]
    · simp [hx]
  · rcases eq_or_ne x p with rfl | hxp
    · simp at hx
    · exact h.near x r (by simpa [hxp] using hx)

/-- Coming is a turn of one's own, and of nobody else. -/
theorem Wf.turns_arrive (h : b.Wf) (hp : b.waits p = none) :
    (b.arrive p (Fintype.card ι)).turns q = if q = p then b.turns p + 1 else b.turns q := by
  have hw : (b.arrive p (Fintype.card ι)).waits = update b.waits p (some b.round) := waits_arrive
  rcases eq_or_ne q p with rfl | hq
  · rw [if_pos rfl, turns_of_none hp]
    exact turns_of_some (by rw [hw, update_self])
  · rw [if_neg hq]
    have hwq : (b.arrive p (Fintype.card ι)).waits q = b.waits q := by rw [hw, update_of_ne hq]
    rcases (h.arrive_cases hp).2 with hr | ⟨-, hall⟩
    · simp only [turns, hwq, hr]
    · rw [turns_of_some (hall q hq), turns_of_some (hwq.trans (hall q hq))]

/-- Leaving is no turn. -/
theorem Wf.turns_leave (h : b.Wf) (hb : b.leave p = some b') : b'.turns q = b.turns q := by
  obtain ⟨⟨r, hr, hne⟩, rfl⟩ := leave_eq_some hb
  rcases eq_or_ne q p with rfl | hq
  · rw [turns_of_some hr, turns_of_none (by simp)]
    rcases h.near q r hr with he | he
    · exact (hne he).elim
    · exact he.symm
  · simp [turns, hq]

end Barrier

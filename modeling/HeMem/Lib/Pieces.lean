import Mathlib.Algebra.Order.Ring.Nat
import Mathlib.Tactic.Common

/-!
# A region cut into pieces

A region is cut into pieces from its front, and a walk goes from one to the next by what `step` says
of the place it is at.
-/

namespace Pieces

variable {step : ℕ → ℕ} {least size o n x : ℕ} {l l' : List ℕ}

/-- Where pieces of these sizes start, the first one at `o`. -/
def starts : ℕ → List ℕ → List ℕ
  | _, [] => []
  | o, t :: l => o :: starts (o + t) l

theorem starts_append : starts o (l ++ l') = starts o l ++ starts (o + l.sum) l' := by
  induction l generalizing o with
  | nil => simp [starts]
  | cons t l ih => simp [starts, ih, Nat.add_assoc]

/-- A start comes after some of the pieces. -/
theorem mem_starts : x ∈ starts o l ↔ ∃ l₁ t l₂, l = l₁ ++ t :: l₂ ∧ x = o + l₁.sum := by
  induction l generalizing o with
  | nil => simp [starts]
  | cons t l ih =>
    rw [starts, List.mem_cons, ih]
    constructor
    · rintro (rfl | ⟨l₁, u, l₂, rfl, rfl⟩)
      · exact ⟨[], t, l, rfl, rfl⟩
      · exact ⟨t :: l₁, u, l₂, rfl, by simp [Nat.add_assoc]⟩
    · rintro ⟨_ | ⟨v, l₁⟩, u, l₂, he, rfl⟩
      · exact .inl rfl
      · obtain ⟨rfl, rfl⟩ := List.cons.inj he
        exact .inr ⟨l₁, u, l₂, rfl, by simp [Nat.add_assoc]⟩

/-- At the start of each piece `step` is its size. -/
def Told (step : ℕ → ℕ) (o : ℕ) (l : List ℕ) : Prop :=
  ∀ l₁ t l₂, l = l₁ ++ t :: l₂ → step (o + l₁.sum) = t

theorem told_cons {t : ℕ} : Told step o (t :: l) ↔ step o = t ∧ Told step (o + t) l := by
  constructor
  · refine fun h => ⟨h [] t l rfl, fun l₁ u l₂ he => ?_⟩
    have := h (t :: l₁) u l₂ (by rw [he]; rfl)
    rwa [List.sum_cons, ← Nat.add_assoc] at this
  · rintro ⟨h, hl⟩ (_ | ⟨v, l₁⟩) u l₂ he
    · obtain ⟨rfl, -⟩ := List.cons.inj he
      exact h
    · obtain ⟨rfl, hrest⟩ := List.cons.inj he
      rw [List.sum_cons, ← Nat.add_assoc]
      exact hl l₁ u l₂ hrest

theorem Told.nil : Told step o [] := fun l₁ t l₂ he => by simp at he

theorem told_append : Told step o (l ++ l') ↔ Told step o l ∧ Told step (o + l.sum) l' := by
  induction l generalizing o with
  | nil => simp [Told.nil]
  | cons t l ih => rw [List.cons_append, told_cons, told_cons, ih, List.sum_cons, Nat.add_assoc,
      and_assoc]

theorem told_singleton {t : ℕ} : Told step o [t] ↔ step o = t := by
  rw [told_cons, and_iff_left Told.nil]

theorem Told.congr {step' : ℕ → ℕ} (h : Told step o l)
    (hs : ∀ x, x < o + l.sum → step' x = step x) (hpos : ∀ t ∈ l, 0 < t) : Told step' o l := by
  intro l₁ t l₂ he
  subst he
  rw [hs _ ?_]
  · exact h l₁ t l₂ rfl
  · have := hpos t (by simp)
    simp only [List.sum_append, List.sum_cons]
    omega

theorem length_le_sum (hpos : ∀ t ∈ l, 0 < t) : l.length ≤ l.sum := by
  induction l with
  | nil => exact Nat.le_refl 0
  | cons t l ih =>
    have := hpos t (by simp)
    have := ih fun u hu => hpos u (List.mem_cons_of_mem _ hu)
    rw [List.length_cons, List.sum_cons]
    omega

theorem start_lt (hx : x ∈ starts o l) (hpos : ∀ t ∈ l, 0 < t) : x < o + l.sum := by
  obtain ⟨l₁, t, l₂, rfl, rfl⟩ := mem_starts.1 hx
  have := hpos t (by simp)
  simp only [List.sum_append, List.sum_cons]
  omega

/-- From the start of a piece `step` leads to the next one or to the end. -/
theorem next_start (h : Told step o l) (hx : x ∈ starts o l) :
    x + step x = o + l.sum ∨ x + step x ∈ starts o l := by
  obtain ⟨l₁, t, l₂, rfl, rfl⟩ := mem_starts.1 hx
  rw [h l₁ t l₂ rfl]
  rcases l₂ with _ | ⟨u, l₂⟩
  · refine .inl ?_
    rw [List.sum_append, List.sum_singleton, Nat.add_assoc]
  · refine .inr (mem_starts.2 ⟨l₁ ++ [t], u, l₂, by simp, ?_⟩)
    rw [List.sum_append, List.sum_singleton, Nat.add_assoc]

/-- The walk from `o` to the end of a region of `size`: where it stops on its way, and where it
ends.  It does not stop where less than `least` is left. -/
def walk (step : ℕ → ℕ) (least size : ℕ) : ℕ → ℕ → Option (List ℕ × ℕ)
  | 0, _ => none
  | n + 1, o =>
    if o < size then
      if size - o < least then some ([], size)
      else (walk step least size n (o + step o)).map fun r => (o :: r.1, r.2)
    else some ([], o)

/-- The walk goes through pieces that `step` tells. -/
theorem walk_told (h : Told step o l) (hl : ∀ t ∈ l, least ≤ t) (hpos : ∀ t ∈ l, 0 < t)
    (hs : o + l.sum ≤ size) (hn : l.length ≤ n) :
    walk step least size n o = (walk step least size (n - l.length) (o + l.sum)).map
      fun r => (starts o l ++ r.1, r.2) := by
  induction l generalizing o n with
  | nil => simp [starts]
  | cons t l ih =>
    obtain ⟨ht, hrest⟩ := told_cons.1 h
    obtain ⟨n, rfl⟩ := Nat.exists_eq_succ_of_ne_zero (Nat.ne_zero_of_lt hn)
    have hle := hl t (by simp)
    have h0 := hpos t (by simp)
    rw [List.sum_cons] at hs
    conv_lhs => unfold walk
    rw [if_pos (by omega), if_neg (by omega), ht,
      ih hrest (fun u hu => hl u (List.mem_cons_of_mem _ hu))
        (fun u hu => hpos u (List.mem_cons_of_mem _ hu)) (by omega)
        (Nat.le_of_succ_le_succ hn)]
    rw [List.length_cons, Nat.succ_sub_succ, List.sum_cons, ← Nat.add_assoc]
    cases walk step least size (n - l.length) (o + t + l.sum) <;> rfl

theorem walk_end : walk step least size (n + 1) size = some ([], size) := by
  unfold walk
  rw [if_neg (Nat.lt_irrefl size)]

/-- Where too little is left, the walk is over. -/
theorem walk_rest (ho : o < size) (hl : size - o < least) :
    walk step least size (n + 1) o = some ([], size) := by
  unfold walk
  rw [if_pos ho, if_pos hl]

theorem walk_stop (ho : o < size) (hl : least ≤ size - o) :
    walk step least size (n + 1) o =
      (walk step least size n (o + step o)).map fun r => (o :: r.1, r.2) := by
  conv_lhs => unfold walk
  rw [if_pos ho, if_neg (Nat.not_lt.2 hl)]

end Pieces

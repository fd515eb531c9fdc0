import Mathlib.Data.List.Nodup
import Mathlib.Tactic.Common

/-!
# Doubly linked chains

`Chain next prev b l a`: following `next` the nodes of `l` come one after another and the last
leads to `a`, and following `prev` they come in the opposite order and the first leads to `b`.
-/

variable {ν : Type*}

/-- `l` is linked both ways by `next` and `prev`, between `b` and `a`. -/
def Chain (next prev : ν → Option ν) : Option ν → List ν → Option ν → Prop
  | _, [], _ => True
  | b, x :: xs, a => prev x = b ∧ next x = xs.head?.or a ∧ Chain next prev (some x) xs a

namespace Chain

variable {next prev next' prev' : ν → Option ν} {b b' a a' : Option ν} {x : ν} {l l₁ l₂ : List ν}

@[simp] theorem nil : Chain next prev b [] a := trivial

theorem cons : Chain next prev b (x :: l) a ↔
    prev x = b ∧ next x = l.head?.or a ∧ Chain next prev (some x) l a := Iff.rfl

/-- A chain splits anywhere: each half leads to the other's end. -/
theorem append : ∀ {l₁ : List ν} {b : Option ν}, Chain next prev b (l₁ ++ l₂) a ↔
    Chain next prev b l₁ (l₂.head?.or a) ∧ Chain next prev (l₁.getLast?.or b) l₂ a
  | [], b => by simp
  | x :: xs, b => by
    rw [List.cons_append, cons, cons, append, List.getLast?_cons, and_assoc, and_assoc]
    cases xs <;> simp

/-- A chain only depends on the links of its nodes. -/
theorem congr : ∀ {l : List ν} {b : Option ν}, Chain next prev b l a →
    (∀ x ∈ l, next' x = next x ∧ prev' x = prev x) → Chain next' prev' b l a
  | [], _, _, _ => nil
  | x :: xs, b, ⟨hp, hn, hc⟩, h => by
    have hx := h x List.mem_cons_self
    exact ⟨hx.2.trans hp, hx.1.trans hn, hc.congr fun y hy => h y (List.mem_cons_of_mem _ hy)⟩

/-- Only the last node's `next` leads out of a chain. -/
theorem retarget_next : ∀ {l : List ν} {b : Option ν}, Chain next prev b l a → l.Nodup →
    (∀ x ∈ l, prev' x = prev x) → (∀ x ∈ l, l.getLast? = some x → next' x = a') →
    (∀ x ∈ l, l.getLast? ≠ some x → next' x = next x) → Chain next' prev' b l a'
  | [], _, _, _, _, _, _ => nil
  | [x], b, ⟨hp, _, _⟩, _, h1, h2, _ => by
    refine ⟨(h1 x (by simp)).trans hp, ?_, nil⟩
    simpa using h2 x (by simp)
  | x :: y :: l, b, ⟨hp, hn, hc⟩, hd, h1, h2, h3 => by
    have hx : (x :: y :: l).getLast? ≠ some x := by
      rw [List.getLast?_cons_cons]
      intro h
      exact (List.nodup_cons.1 hd).1 (List.mem_of_getLast? h)
    refine ⟨(h1 x (by simp)).trans hp, ?_, retarget_next hc hd.of_cons
      (fun z hz => h1 z (List.mem_cons_of_mem _ hz)) (fun z hz he => ?_) fun z hz he => ?_⟩
    · rw [h3 x (by simp) hx, hn]
      simp
    · exact h2 z (List.mem_cons_of_mem _ hz) (by rwa [List.getLast?_cons_cons])
    · exact h3 z (List.mem_cons_of_mem _ hz) (by rwa [List.getLast?_cons_cons])

/-- Only the first node's `prev` leads out of a chain. -/
theorem retarget_prev (h : Chain next prev b (x :: l) a) (hx : next' x = next x ∧ prev' x = b')
    (hl : ∀ y ∈ l, next' y = next y ∧ prev' y = prev y) : Chain next' prev' b' (x :: l) a :=
  ⟨hx.2, hx.1.trans h.2.1, h.2.2.congr hl⟩

section Edit

variable [DecidableEq ν]

/-- A node put in front of a chain. -/
theorem push (h : Chain next prev b l a) (hd : l.Nodup)
    (hx : next' x = l.head?.or a ∧ prev' x = b') (hn : ∀ y ∈ l, next' y = next y)
    (hp : ∀ y ∈ l, prev' y = if l.head? = some y then some x else prev y) :
    Chain next' prev' b' (x :: l) a := by
  refine ⟨hx.2, hx.1, ?_⟩
  rcases l with _ | ⟨z, zs⟩
  · exact nil
  refine h.retarget_prev ⟨hn z (by simp), (hp z (by simp)).trans (if_pos rfl)⟩ fun y hy =>
    ⟨hn y (by simp [hy]), (hp y (by simp [hy])).trans (if_neg ?_)⟩
  rintro ⟨⟩
  exact (List.nodup_cons.1 hd).1 hy

/-- A node taken out of a chain: its neighbours lead to each other. -/
theorem unlink (h : Chain next prev b (l₁ ++ x :: l₂) a) (hd : (l₁ ++ x :: l₂).Nodup)
    (hn : ∀ y ∈ l₁ ++ l₂, next' y = if l₁.getLast? = some y then l₂.head?.or a else next y)
    (hp : ∀ y ∈ l₁ ++ l₂, prev' y = if l₂.head? = some y then l₁.getLast?.or b else prev y) :
    Chain next' prev' b (l₁ ++ l₂) a := by
  obtain ⟨h1, -, -, h2⟩ := append.1 h
  have h12 : ∀ y ∈ l₁, y ∉ l₂ := fun y hy hy2 =>
    (List.disjoint_of_nodup_append hd) hy (List.mem_cons_of_mem _ hy2)
  have hd2 := (List.nodup_cons.1 (List.Nodup.of_append_right hd)).2
  refine append.2 ⟨h1.retarget_next (List.Nodup.of_append_left hd) (fun y hy => ?_)
    (fun y hy he => (hn y (List.mem_append_left _ hy)).trans (if_pos he))
    fun y hy he => (hn y (List.mem_append_left _ hy)).trans (if_neg he), ?_⟩
  · exact (hp y (List.mem_append_left _ hy)).trans
      (if_neg fun he => h12 y hy (List.mem_of_head? he))
  rcases l₂ with _ | ⟨z, zs⟩
  · exact nil
  have hnext : ∀ y ∈ z :: zs, next' y = next y := fun y hy =>
    (hn y (List.mem_append_right _ hy)).trans
      (if_neg fun he => h12 y (List.mem_of_getLast? he) hy)
  refine h2.retarget_prev ⟨hnext z (by simp), (hp z (by simp)).trans (if_pos rfl)⟩ fun y hy =>
    ⟨hnext y (by simp [hy]), (hp y (by simp [hy])).trans (if_neg ?_)⟩
  rintro ⟨⟩
  exact (List.nodup_cons.1 hd2).1 hy

end Edit

theorem getLast (h : Chain next prev b l a) (hx : l.getLast? = some x) : next x = a := by
  obtain ⟨l', rfl⟩ := List.getLast?_eq_some_iff.1 hx
  exact (append.1 h).2.2.1

theorem head (h : Chain next prev b l a) (hx : l.head? = some x) : prev x = b := by
  obtain ⟨l', rfl⟩ := List.head?_eq_some_iff.1 hx
  exact h.1

/-- The neighbours of a node inside a chain. -/
theorem middle (h : Chain next prev b (l₁ ++ x :: l₂) a) :
    prev x = l₁.getLast?.or b ∧ next x = l₂.head?.or a :=
  ⟨(append.1 h).2.1, (append.1 h).2.2.1⟩

end Chain

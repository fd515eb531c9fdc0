import Mathlib.Logic.Function.Basic
import Mathlib.Data.List.Nodup

/-!
# Singly linked lists

The nodes that `next` leads to from a start.
-/

open Function

variable {ν : Type*}

def Linked (next : ν → Option ν) : Option ν → List ν → Prop
  | p, [] => p = none
  | p, x :: l => p = some x ∧ Linked next (next x) l

namespace Linked

variable {next next' : ν → Option ν} {x y : ν} {r : List ν}

theorem congr : ∀ {l : List ν} {p : Option ν}, Linked next p l → (∀ x ∈ l, next' x = next x) →
    Linked next' p l
  | [], _, h, _ => h
  | x :: l, _, h, hn => by
    refine ⟨h.1, ?_⟩
    rw [hn x (by simp)]
    exact h.2.congr fun y hy => hn y (by simp [hy])

theorem start : ∀ {l : List ν} {p : Option ν}, Linked next p l → p = l.head?
  | [], _, h => h
  | _ :: _, _, h => h.1

theorem next_eq : ∀ {l : List ν} {p : Option ν}, Linked next p (l ++ x :: r) → next x = r.head?
  | [], _, h => h.2.start
  | _ :: _, _, h => next_eq h.2

theorem next_mem {l : List ν} {p : Option ν} (h : Linked next p l) (hx : x ∈ l)
    (hn : next x = some y) : y ∈ l := by
  obtain ⟨l₁, l₂, rfl⟩ := List.append_of_mem hx
  rw [next_eq h] at hn
  exact List.mem_append_right _ (List.mem_cons_of_mem _ (List.mem_of_mem_head? hn))

variable [DecidableEq ν]

theorem off {p v : Option ν} {l : List ν} (h : Linked next p l) (hx : x ∉ l) :
    Linked (update next x v) p l :=
  h.congr fun _ hy => update_of_ne (ne_of_mem_of_not_mem hy hx) v next

/-- A node in front. -/
theorem push {p : Option ν} {l : List ν} (h : Linked next p l) (hx : x ∉ l) :
    Linked (update next x p) (some x) (x :: l) := by
  refine ⟨rfl, ?_⟩
  rw [update_self]
  exact h.off hx

/-- A node in the place of another. -/
theorem replace {z : ν} : ∀ {l : List ν} {p : Option ν}, Linked next p (l ++ x :: y :: r) →
    (l ++ x :: y :: r).Nodup → z ∉ l ++ x :: y :: r →
    Linked (update (update next z (next y)) x (some z)) p (l ++ x :: z :: r)
  | [], p, h, hd, hz => by
    rw [List.nil_append] at h hd hz
    have hzx : z ≠ x := fun hzx => hz (by simp [hzx])
    refine ⟨h.1, ?_⟩
    rw [update_self]
    refine ⟨rfl, ?_⟩
    rw [update_of_ne hzx, update_self]
    have hxr : x ∉ r := fun hm => (List.nodup_cons.1 hd).1 (List.mem_cons_of_mem _ hm)
    have hzr : z ∉ r := fun hm => hz (List.mem_cons_of_mem _ (List.mem_cons_of_mem _ hm))
    exact (h.2.2.off hzr).off hxr
  | w :: l, p, h, hd, hz => by
    rw [List.cons_append, List.nodup_cons] at hd
    have hwx : w ≠ x := fun hwx => hd.1 (by simp [hwx])
    have hwz : w ≠ z := fun hwz => hz (by simp [hwz])
    refine ⟨h.1, ?_⟩
    rw [update_of_ne hwx, update_of_ne hwz]
    exact replace h.2 hd.2 fun hm => hz (List.mem_cons_of_mem _ hm)

/-- A node at the end. -/
theorem snoc : ∀ {l : List ν} {p : Option ν}, Linked next p (l ++ [x]) →
    (l ++ [x]).Nodup → y ∉ l ++ [x] →
    Linked (update (update next x (some y)) y none) p (l ++ [x] ++ [y])
  | [], p, h, _, hy => by
    have hyx : x ≠ y := fun hxy => hy (by simp [hxy])
    refine ⟨h.1, ?_, ?_⟩
    · rw [update_of_ne hyx, update_self]
    · rw [update_self]
      rfl
  | z :: l, p, h, hd, hy => by
    rw [List.cons_append, List.nodup_cons] at hd
    have hzx : z ≠ x := fun hzx => hd.1 (by simp [hzx])
    have hzy : z ≠ y := fun hzy => hy (by simp [hzy])
    refine ⟨h.1, ?_⟩
    rw [update_of_ne hzy, update_of_ne hzx]
    exact snoc h.2 hd.2 fun hm => hy (List.mem_cons_of_mem _ hm)

/-- A node after `x` is taken out. -/
theorem unlink {z : ν} : ∀ {l : List ν} {p : Option ν}, Linked next p (l ++ x :: y :: z :: r) →
    (l ++ x :: y :: z :: r).Nodup →
    Linked (update next x (some z)) p (l ++ x :: z :: r)
  | [], p, h, hd => by
    rw [List.nil_append, List.nodup_cons] at hd
    refine ⟨h.1, ?_⟩
    rw [update_self]
    have htail : Linked next (some z) (z :: r) := ⟨rfl, h.2.2.2⟩
    exact htail.off fun hm => hd.1 (List.mem_cons_of_mem _ hm)
  | w :: l, p, h, hd => by
    rw [List.cons_append, List.nodup_cons] at hd
    have hwx : w ≠ x := fun hwx => hd.1 (by simp [hwx])
    refine ⟨h.1, ?_⟩
    rw [update_of_ne hwx]
    exact unlink h.2 hd.2

end Linked

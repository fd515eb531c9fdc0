import Mathlib.Data.List.Perm.Basic
import Mathlib.Logic.Function.Basic

/-!
# Things put away or in someone's hands

`place` says where each thing has been put, if anywhere, and `hands` what each holder has.  As long
as holders only take things from their places and put away what they have, nothing is lost and
nothing is held twice.
-/

variable {α ι ω : Type*} [DecidableEq α]

/-- Each of `all` is in one place or in the hands of one holder. -/
structure Custody (place : α → Option ι) (hands : ω → List α) (all : α → Prop) : Prop where
  off : ∀ w, ∀ x ∈ hands w, place x = none
  nodup : ∀ w, (hands w).Nodup
  alone : ∀ v w x, x ∈ hands v → x ∈ hands w → v = w
  kept : ∀ x, all x → place x = none → ∃ w, x ∈ hands w

namespace Custody

open Function

variable {place : α → Option ι} {hands hands' : ω → List α} {all : α → Prop} {x : α} {q : ι} {w : ω}

/-- A holder takes a thing from its place. -/
theorem take (h : Custody place hands all) (hx : place x = some q)
    (hw : (hands' w).Perm (x :: hands w)) (ho : ∀ v, v ≠ w → hands' v = hands v) :
    Custody (update place x none) hands' all := by
  have hmem : ∀ v y, y ∈ hands' v ↔ v = w ∧ y = x ∨ y ∈ hands v := fun v y => by
    rcases eq_or_ne v w with rfl | hv
    · simp [hw.mem_iff]
    · simp [ho v hv, hv]
  have hno : ∀ v, x ∉ hands v := fun v hv => by
    rw [h.off v x hv] at hx
    cases hx
  refine ⟨fun v y hy => ?_, fun v => ?_, fun v v' y hy hy' => ?_, fun y hy hp => ?_⟩
  · rcases (hmem v y).1 hy with ⟨-, rfl⟩ | hy
    · exact update_self ..
    · rw [update_of_ne (ne_of_mem_of_not_mem hy (hno v))]
      exact h.off v y hy
  · rcases eq_or_ne v w with rfl | hv
    · exact hw.nodup_iff.2 (List.nodup_cons.2 ⟨hno v, h.nodup v⟩)
    · rw [ho v hv]
      exact h.nodup v
  · by_cases hyx : y = x
    · subst hyx
      have h1 := ((hmem v y).1 hy).resolve_right (hno v)
      have h2 := ((hmem v' y).1 hy').resolve_right (hno v')
      exact h1.1.trans h2.1.symm
    · exact h.alone v v' y (((hmem v y).1 hy).resolve_left fun h => hyx h.2)
        (((hmem v' y).1 hy').resolve_left fun h => hyx h.2)
  · rcases eq_or_ne y x with rfl | hyx
    · exact ⟨w, (hmem w y).2 (.inl ⟨rfl, rfl⟩)⟩
    · rw [update_of_ne hyx] at hp
      obtain ⟨v, hv⟩ := h.kept y hy hp
      exact ⟨v, (hmem v y).2 (.inr hv)⟩

/-- A holder puts away a thing it has. -/
theorem give (h : Custody place hands all) (hw : (hands w).Perm (x :: hands' w))
    (ho : ∀ v, v ≠ w → hands' v = hands v) : Custody (update place x (some q)) hands' all := by
  have hxw : x ∈ hands w := hw.mem_iff.2 List.mem_cons_self
  have hnd := hw.nodup_iff.1 (h.nodup w)
  rw [List.nodup_cons] at hnd
  have hmem : ∀ v y, y ∈ hands' v → y ∈ hands v ∧ y ≠ x := fun v y hy => by
    rcases eq_or_ne v w with rfl | hv
    · exact ⟨hw.mem_iff.2 (List.mem_cons_of_mem _ hy), ne_of_mem_of_not_mem hy hnd.1⟩
    · rw [ho v hv] at hy
      refine ⟨hy, ?_⟩
      rintro rfl
      exact hv (h.alone v w y hy hxw)
  refine ⟨fun v y hy => ?_, fun v => ?_, fun v v' y hy hy' => ?_, fun y hy hp => ?_⟩
  · rw [update_of_ne (hmem v y hy).2]
    exact h.off v y (hmem v y hy).1
  · rcases eq_or_ne v w with rfl | hv
    · exact hnd.2
    · rw [ho v hv]
      exact h.nodup v
  · exact h.alone v v' y (hmem v y hy).1 (hmem v' y hy').1
  · rcases eq_or_ne y x with rfl | hyx
    · rw [update_self] at hp
      cases hp
    · rw [update_of_ne hyx] at hp
      obtain ⟨v, hv⟩ := h.kept y hy hp
      refine ⟨v, ?_⟩
      rcases eq_or_ne v w with rfl | hvw
      · exact (List.mem_cons.1 (hw.mem_iff.1 hv)).resolve_left hyx
      · rw [ho v hvw]
        exact hv

omit [DecidableEq α] in
/-- A holder hands a thing to another. -/
theorem pass (h : Custody place hands all) {v : ω} (hvw : v ≠ w)
    (hv : (hands v).Perm (x :: hands' v)) (hw : (hands' w).Perm (x :: hands w))
    (ho : ∀ u, u ≠ v → u ≠ w → hands' u = hands u) : Custody place hands' all := by
  have hxv : x ∈ hands v := hv.mem_iff.2 List.mem_cons_self
  have hxw : x ∉ hands w := fun hx => hvw (h.alone v w x hxv hx)
  have hnd := hv.nodup_iff.1 (h.nodup v)
  rw [List.nodup_cons] at hnd
  have hmem : ∀ u y, y ∈ hands' u → u = w ∧ y = x ∨ y ≠ x ∧ y ∈ hands u := fun u y hy => by
    rcases eq_or_ne u w with rfl | huw
    · rcases List.mem_cons.1 (hw.mem_iff.1 hy) with rfl | hy
      · exact .inl ⟨rfl, rfl⟩
      · exact .inr ⟨ne_of_mem_of_not_mem hy hxw, hy⟩
    · rcases eq_or_ne u v with rfl | huv
      · exact .inr ⟨ne_of_mem_of_not_mem hy hnd.1, hv.mem_iff.2 (List.mem_cons_of_mem _ hy)⟩
      · rw [ho u huv huw] at hy
        refine .inr ⟨?_, hy⟩
        rintro rfl
        exact huv (h.alone u v y hy hxv)
  refine ⟨fun u y hy => ?_, fun u => ?_, fun u u' y hy hy' => ?_, fun y hy hp => ?_⟩
  · rcases hmem u y hy with ⟨-, rfl⟩ | ⟨-, hy⟩
    · exact h.off v y hxv
    · exact h.off u y hy
  · rcases eq_or_ne u w with rfl | huw
    · exact hw.nodup_iff.2 (List.nodup_cons.2 ⟨hxw, h.nodup u⟩)
    · rcases eq_or_ne u v with rfl | huv
      · exact hnd.2
      · rw [ho u huv huw]
        exact h.nodup u
  · rcases hmem u y hy with ⟨rfl, rfl⟩ | ⟨hne, hy⟩ <;>
      rcases hmem u' _ hy' with ⟨rfl, hx⟩ | ⟨hne', hy'⟩
    · rfl
    · exact (hne' rfl).elim
    · exact (hne hx).elim
    · exact h.alone u u' y hy hy'
  · rcases eq_or_ne y x with rfl | hyx
    · exact ⟨w, hw.mem_iff.2 List.mem_cons_self⟩
    · obtain ⟨u, hu⟩ := h.kept y hy hp
      refine ⟨u, ?_⟩
      rcases eq_or_ne u v with rfl | huv
      · exact (List.mem_cons.1 (hv.mem_iff.1 hu)).resolve_left hyx
      · rcases eq_or_ne u w with rfl | huw
        · exact hw.mem_iff.2 (List.mem_cons_of_mem _ hu)
        · rw [ho u huv huw]
          exact hu

omit [DecidableEq α] in
/-- Where nothing need be kept, a holder may drop things. -/
theorem drop (h : Custody place hands fun _ => False) (hh : ∀ w, (hands' w).Sublist (hands w)) :
    Custody place hands' fun _ => False where
  off w x hx := h.off w x ((hh w).subset hx)
  nodup w := (h.nodup w).sublist (hh w)
  alone v w x hv hw := h.alone v w x ((hh v).subset hv) ((hh w).subset hw)
  kept _ hx := hx.elim

omit [DecidableEq α] in
theorem congr (h : Custody place hands all) (hh : ∀ w, (hands' w).Perm (hands w)) :
    Custody place hands' all where
  off w x hx := h.off w x ((hh w).mem_iff.1 hx)
  nodup w := (hh w).nodup_iff.2 (h.nodup w)
  alone v w x hv hw := h.alone v w x ((hh v).mem_iff.1 hv) ((hh w).mem_iff.1 hw)
  kept x hx hp := (h.kept x hx hp).imp fun w hw => (hh w).mem_iff.2 hw

end Custody

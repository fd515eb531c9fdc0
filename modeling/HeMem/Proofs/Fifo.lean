import Mathlib.Data.List.Induction
import Mathlib.Data.List.TakeWhile
import HeMem.Fifo
import HeMem.Lib.Refine

/-!
# What the list operations do to the sequences they stand for

`Rep h L`: list `q` of the heap `h` is the sequence `L q`, front first.  Every operation of
`fifo.c` called as its callers call it passes its assertions and acts on the sequences: enqueue
at the front, dequeue from the back, remove wherever the page is.
-/

namespace HeMem

open Hoare Function

variable {ι ν : Type}

namespace Rep

variable {h h' : Heap ι ν} {L : ι → List ν} {q : ι} {x : ν} {l₁ l₂ : List ν}

theorem empty : Rep (Heap.empty : Heap ι ν) fun _ => [] where
  chain _ := Chain.nil
  first _ := rfl
  last _ := rfl
  num _ := rfl
  nodup _ := List.nodup_nil
  mem _ _ := by simp [Heap.empty, Heap.listOf]
  off _ _ := ⟨rfl, rfl⟩

theorem not_mem (hr : Rep h L) (hx : h.listOf x = none) (q : ι) : x ∉ L q := by
  rw [hr.mem, hx]
  simp

/-- A page is on one list only. -/
theorem disjoint (hr : Rep h L) {q' : ι} (hx : x ∈ L q) (hx' : x ∈ L q') : q = q' := by
  rw [hr.mem] at hx hx'
  simpa [hx] using hx'

theorem walk_chain : ∀ {l : List ν} {b : Option ν},
    Chain (fun p => (h.node p).next) (fun p => (h.node p).prev) b l none →
      h.walk l.length l.head? = l
  | [], _, _ => rfl
  | x :: xs, b, hc => by
    have hn : (h.node x).next = xs.head? := by simpa using hc.2.1
    simp only [List.length_cons, List.head?_cons, Heap.walk, hn, walk_chain hc.2.2]

theorem contents (hr : Rep h L) (q : ι) : h.contents q = L q := by
  rw [Heap.contents, hr.first, hr.num, walk_chain (hr.chain q)]

variable [DecidableEq ι] [DecidableEq ν]

/-- Putting a page that is on no list in front of list `q`. -/
theorem link (hr : Rep h L) (hx : h.listOf x = none)
    (h1 : h'.node x = ⟨(L q).head?, none, some q⟩)
    (h2 : ∀ y, y ≠ x → h'.node y = ⟨(h.node y).next,
      if (L q).head? = some y then some x else (h.node y).prev, (h.node y).list⟩)
    (h3 : h'.list q = ⟨some x, (x :: L q).getLast?, (L q).length + 1⟩)
    (h4 : ∀ q', q' ≠ q → h'.list q' = h.list q') : Rep h' (update L q (x :: L q)) := by
  have hxL := hr.not_mem hx
  have hlist : ∀ y, y ≠ x → h'.listOf y = h.listOf y := fun y hy => by
    rw [Heap.listOf, h2 y hy]
    rfl
  have hother : ∀ q', q' ≠ q → ∀ y ∈ L q', h'.node y = h.node y := fun q' hq y hy => by
    rw [h2 y (ne_of_mem_of_not_mem hy (hxL q')), if_neg]
    intro he
    exact hq (hr.disjoint hy (List.mem_of_head? he))
  refine ⟨fun q' => ?_, fun q' => ?_, fun q' => ?_, fun q' => ?_, fun q' => ?_, fun y q' => ?_,
    fun y hy => ?_⟩
  · rcases eq_or_ne q' q with rfl | hq
    · rw [update_self]
      have hne : ∀ y ∈ L q', y ≠ x := fun y hy => ne_of_mem_of_not_mem hy (hxL q')
      exact (hr.chain q').push (hr.nodup q') ⟨by simp [h1], by simp [h1]⟩
        (fun y hy => congrArg (·.next) (h2 y (hne y hy)))
        fun y hy => congrArg (·.prev) (h2 y (hne y hy))
    · rw [update_of_ne hq]
      refine (hr.chain q').congr fun y hy => ?_
      rw [hother q' hq y hy]
      exact ⟨rfl, rfl⟩
  · rcases eq_or_ne q' q with rfl | hq
    · simp [h3]
    · rw [update_of_ne hq, h4 q' hq, hr.first]
  · rcases eq_or_ne q' q with rfl | hq
    · simp [h3]
    · rw [update_of_ne hq, h4 q' hq, hr.last]
  · rcases eq_or_ne q' q with rfl | hq
    · simp [h3]
    · rw [update_of_ne hq, h4 q' hq, hr.num]
  · rcases eq_or_ne q' q with rfl | hq
    · rw [update_self]
      exact List.nodup_cons.2 ⟨hxL q', hr.nodup q'⟩
    · rw [update_of_ne hq]
      exact hr.nodup q'
  · rcases eq_or_ne y x with rfl | hy
    · have hl : h'.listOf y = some q := by rw [Heap.listOf, h1]
      rcases eq_or_ne q' q with rfl | hq
      · simp [hl]
      · simp [hl, hq, hq.symm, hxL]
    · rw [hlist y hy, ← hr.mem]
      rcases eq_or_ne q' q with rfl | hq
      · simp [hy]
      · simp [hq]
  · have hyx : y ≠ x := by
      rintro rfl
      simp [Heap.listOf, h1] at hy
    rw [hlist y hyx] at hy
    rw [h2 y hyx, if_neg fun he => hr.not_mem hy q (List.mem_of_head? he)]
    exact hr.off y hy

variable (h' l₁ l₂) in
/-- Taking a page out of list `q`. -/
theorem unlink (hr : Rep h L) (hL : L q = l₁ ++ x :: l₂) (h1 : h'.node x = ⟨none, none, none⟩)
    (h2 : ∀ y, y ≠ x → h'.node y = ⟨if l₁.getLast? = some y then l₂.head? else (h.node y).next,
      if l₂.head? = some y then l₁.getLast? else (h.node y).prev, (h.node y).list⟩)
    (h3 : h'.list q = ⟨(l₁ ++ l₂).head?, (l₁ ++ l₂).getLast?, (l₁ ++ l₂).length⟩)
    (h4 : ∀ q', q' ≠ q → h'.list q' = h.list q') : Rep h' (update L q (l₁ ++ l₂)) := by
  have hd := hr.nodup q
  rw [hL] at hd
  have hx1 : x ∉ l₁ := fun hx => (List.disjoint_of_nodup_append hd) hx (by simp)
  have hx2 : x ∉ l₂ := (List.nodup_cons.1 (List.Nodup.of_append_right hd)).1
  have hlist : ∀ y, y ≠ x → h'.listOf y = h.listOf y := fun y hy => by
    rw [Heap.listOf, h2 y hy]
    rfl
  have hin : ∀ y, y ∈ l₁ ∨ y ∈ l₂ → y ∈ L q := fun y hy => by
    rw [hL]
    simp only [List.mem_append, List.mem_cons]
    tauto
  have hother : ∀ q', q' ≠ q → ∀ y ∈ L q', h'.node y = h.node y := fun q' hq y hy => by
    have hne : y ≠ x := by
      rintro rfl
      exact hq (hr.disjoint hy (by simp [hL]))
    rw [h2 y hne, if_neg, if_neg]
    · exact fun he => hq (hr.disjoint hy (hin y (.inr (List.mem_of_head? he))))
    · exact fun he => hq (hr.disjoint hy (hin y (.inl (List.mem_of_getLast? he))))
  refine ⟨fun q' => ?_, fun q' => ?_, fun q' => ?_, fun q' => ?_, fun q' => ?_, fun y q' => ?_,
    fun y hy => ?_⟩
  · rcases eq_or_ne q' q with rfl | hq
    · rw [update_self]
      have hne : ∀ y ∈ l₁ ++ l₂, y ≠ x := fun y hy => by
        rintro rfl
        exact (List.mem_append.1 hy).elim hx1 hx2
      refine Chain.unlink (hL ▸ hr.chain q') hd (fun y hy => ?_) fun y hy => ?_
      · simpa using congrArg (·.next) (h2 y (hne y hy))
      · simpa using congrArg (·.prev) (h2 y (hne y hy))
    · rw [update_of_ne hq]
      refine (hr.chain q').congr fun y hy => ?_
      rw [hother q' hq y hy]
      exact ⟨rfl, rfl⟩
  · rcases eq_or_ne q' q with rfl | hq
    · simp [h3]
    · rw [update_of_ne hq, h4 q' hq, hr.first]
  · rcases eq_or_ne q' q with rfl | hq
    · simp [h3]
    · rw [update_of_ne hq, h4 q' hq, hr.last]
  · rcases eq_or_ne q' q with rfl | hq
    · simp [h3]
    · rw [update_of_ne hq, h4 q' hq, hr.num]
  · rcases eq_or_ne q' q with rfl | hq
    · rw [update_self]
      exact hd.sublist (List.Sublist.append_left (List.sublist_cons_self _ _) _)
    · rw [update_of_ne hq]
      exact hr.nodup q'
  · rcases eq_or_ne y x with rfl | hy
    · have hl : h'.listOf y = none := by rw [Heap.listOf, h1]
      rcases eq_or_ne q' q with rfl | hq
      · simp [hl, hx1, hx2]
      · rw [update_of_ne hq, hl]
        simp only [reduceCtorEq, iff_false]
        exact fun hy => hq (hr.disjoint hy (by simp [hL]))
    · rw [hlist y hy, ← hr.mem]
      rcases eq_or_ne q' q with rfl | hq
      · simp [hL, hy]
      · simp [hq]
  · rcases eq_or_ne y x with rfl | hyx
    · rw [h1]
      exact ⟨rfl, rfl⟩
    · rw [hlist y hyx] at hy
      have hyL := hr.not_mem hy q
      rw [h2 y hyx, if_neg fun he => hyL (hin y (.inl (List.mem_of_getLast? he))),
        if_neg fun he => hyL (hin y (.inr (List.mem_of_head? he)))]
      exact hr.off y hy

end Rep

section Operations

variable [DecidableEq ι] [DecidableEq ν] {h : Heap ι ν} {L : ι → List ν} {q : ι} {x : ν}

theorem enqueueFifo_rep (hr : Rep h L) (hx : h.listOf x = none) :
    Sat (enqueueFifo q x) (fun _ h' => Rep h' (update L q (x :: L q))) (fun _ => False) h := by
  have hxL := hr.not_mem hx
  have hp := (hr.off x hx).2
  unfold enqueueFifo
  rw [sat_bind, sat_get, sat_bind, sat_check]
  refine ⟨fun _ => ?_, fun hn => hn hp⟩
  rw [sat_bind, sat_get, sat_bind, sat_modify, hr.first]
  rcases hL : L q with _ | ⟨f, fs⟩
  · have hlast := hr.last q
    have hnum := hr.num q
    rw [hL] at hlast hnum
    simp only [List.head?_nil, sat_bind, sat_get, sat_check, sat_modify, Heap.setNext, hlast, hnum,
      List.getLast?_nil, List.length_nil, not_true_eq_false, IsEmpty.forall_iff, and_true,
      forall_const]
    rw [← hL]
    refine hr.link hx ?_ (fun y hy => ?_) ?_ fun q' hq => ?_
    · simp [Heap.setLast, Heap.setFirst, Heap.setList, Heap.setNumentries, hL, hp]
    · simp [Heap.setLast, Heap.setFirst, Heap.setList, Heap.setNumentries, hL, hy]
    · simp [Heap.setLast, Heap.setFirst, Heap.setList, Heap.setNumentries, hL, hnum]
    · simp [Heap.setLast, Heap.setFirst, Heap.setList, Heap.setNumentries, hq]
  · have hfL : f ∈ L q := by simp [hL]
    have hfx : f ≠ x := ne_of_mem_of_not_mem hfL (hxL q)
    have hfp : (h.node f).prev = none := (hr.chain q).head (by rw [hL]; rfl)
    simp only [List.head?_cons, sat_bind, sat_get, sat_check, sat_modify, Heap.setNext,
      update_of_ne hfx, hfp, not_true_eq_false, IsEmpty.forall_iff, and_true, forall_const]
    rw [← hL]
    refine hr.link hx ?_ (fun y hy => ?_) ?_ fun q' hq => ?_
    · simp [Heap.setPrev, Heap.setFirst, Heap.setList, Heap.setNumentries, hL, hp, hfx.symm]
    · rcases eq_or_ne y f with rfl | hyf
      · simp [Heap.setPrev, Heap.setFirst, Heap.setList, Heap.setNumentries, hL, hy]
      · simp [Heap.setPrev, Heap.setFirst, Heap.setList, Heap.setNumentries, hL, hy, hyf,
          hyf.symm]
    · simp [Heap.setPrev, Heap.setFirst, Heap.setList, Heap.setNumentries, hL, hr.num, hr.last]
    · simp [Heap.setPrev, Heap.setFirst, Heap.setList, Heap.setNumentries, hq]

theorem dequeueFifo_rep (hr : Rep h L) :
    Sat (dequeueFifo q) (fun r h' => r = (L q).getLast? ∧ Rep h' (update L q (L q).dropLast))
      (fun _ => False) h := by
  unfold dequeueFifo
  rw [sat_bind, sat_get, hr.last]
  rcases List.eq_nil_or_concat' (L q) with hL | ⟨l, x, hL⟩
  · rw [hL]
    refine ⟨rfl, ?_⟩
    rw [List.dropLast_nil, ← hL, update_eq_self]
    exact hr
  · have hd := hr.nodup q
    have hm := (hr.chain q)
    rw [hL] at hd hm
    have hxl : x ∉ l := fun hx => (List.disjoint_of_nodup_append hd) hx (by simp)
    have hprev : (h.node x).prev = l.getLast? := by simpa using hm.middle.1
    have hnum : (h.list q).numentries = l.length + 1 := by rw [hr.num, hL]; simp
    have hfirst : (h.list q).first = (l ++ [x]).head? := by rw [hr.first, hL]
    simp only [hL, List.getLast?_append, List.getLast?_singleton, Option.some_or,
      List.dropLast_concat, sat_bind, sat_get, sat_modify, hprev]
    have key := fun h' => hr.unlink h' l [] hL
    rw [List.append_nil] at key
    rcases List.eq_nil_or_concat' l with rfl | ⟨l', z, rfl⟩
    · simp only [List.getLast?_nil, sat_bind, sat_get, sat_pure, sat_modify, sat_check, Heap.setLast, Heap.setFirst,
        Heap.setNext, Heap.setPrev, Heap.setList, update_self, hnum]
      refine ⟨fun _ => ⟨trivial, key _ ?_ (fun y hy => ?_) ?_ fun q' hq => ?_⟩, fun hn => hn (by simp)⟩
      · simp [Heap.setNumentries]
      · simp [Heap.setNumentries, hy]
      · simp [Heap.setNumentries]
      · simp [Heap.setNumentries, hq]
    · have hzx : z ≠ x := by
        rintro rfl
        simp at hxl
      simp only [List.getLast?_append, List.getLast?_singleton, Option.some_or, sat_bind, sat_get, sat_pure, sat_modify,
        sat_check, Heap.setLast, Heap.setNext, Heap.setPrev, Heap.setList, update_self, hnum]
      refine ⟨fun _ => ⟨trivial, key _ ?_ (fun y hy => ?_) ?_ fun q' hq => ?_⟩, fun hn => hn (by simp)⟩
      · simp [Heap.setNumentries]
      · rcases eq_or_ne y z with rfl | hyz
        · simp [Heap.setNumentries, hy]
        · simp [Heap.setNumentries, hy, hyz, hyz.symm]
      · simp [Heap.setNumentries, hfirst]
      · simp [Heap.setNumentries, hq]

/-- Removing a page of list `q` leaves the others in order. -/
theorem pageListRemovePage_rep (hr : Rep h L) (hx : x ∈ L q) :
    Sat (pageListRemovePage q x) (fun _ h' => Rep h' (update L q ((L q).erase x)))
      (fun _ => False) h := by
  obtain ⟨l₁, l₂, hL⟩ := List.append_of_mem hx
  have hd := hr.nodup q
  have hm := hr.chain q
  have hfirst := hr.first q
  have hlast := hr.last q
  have hnum := hr.num q
  rw [hL] at hd hm hfirst hlast hnum
  have hx1 : x ∉ l₁ := fun hx => (List.disjoint_of_nodup_append hd) hx (by simp)
  have hx2 : x ∉ l₂ := (List.nodup_cons.1 (List.Nodup.of_append_right hd)).1
  obtain ⟨hprev, hnext⟩ := hm.middle
  rw [Option.or_none] at hprev hnext
  have herase : (L q).erase x = l₁ ++ l₂ := by rw [hL, List.erase_append_right _ hx1]; simp
  rw [herase]
  have key := fun h' => hr.unlink h' l₁ l₂ hL
  unfold pageListRemovePage
  rw [sat_bind, sat_get, sat_ite, hfirst]
  refine ⟨fun hn => by simp at hn, fun _ => ?_⟩
  simp only [sat_bind, sat_get, sat_ite, hfirst, hprev, hnext]
  -- the two ends of the list, then the two neighbours
  rcases List.eq_nil_or_concat' l₁ with rfl | ⟨l₁, y, rfl⟩ <;> rcases l₂ with _ | ⟨z, l₂⟩
  · simp [sat_check, Heap.setFirst, Heap.setLast, hlast, hnum]
    refine key _ ?_ (fun w hw => ?_) ?_ fun q' hq => ?_ <;>
      simp_all [Heap.setNumentries, Heap.setNext, Heap.setPrev, Heap.setList]
  · have hne : (z :: l₂).getLast? ≠ some x := fun he => hx2 (List.mem_of_getLast? he)
    have hzx : z ≠ x := by rintro rfl; simp at hx2
    simp [sat_check, Heap.setFirst, Heap.setLast, Heap.setPrev, hlast, hnum, hne]
    refine key _ ?_ (fun w hw => ?_) ?_ fun q' hq => ?_
    · simp [Heap.setNumentries, Heap.setNext, Heap.setList]
    · rcases eq_or_ne w z with rfl | hwz
      · simp [Heap.setNumentries, Heap.setNext, Heap.setList, hw]
      · simp [Heap.setNumentries, Heap.setNext, Heap.setList, hw, hwz, hwz.symm]
    · simp [Heap.setNumentries, Heap.setNext, Heap.setList]
    · simp [Heap.setNumentries, Heap.setNext, Heap.setList, hq]
  · have hyx : y ≠ x := by rintro rfl; simp at hx1
    have hne : l₁.head?.getD y ≠ x := by
      rcases l₁ with _ | ⟨w, l₁⟩
      · simpa using hyx
      · simpa using ne_of_mem_of_not_mem (List.mem_cons_self : w ∈ w :: l₁)
          (fun h => hx1 (List.mem_append_left _ h))
    simp [sat_check, Heap.setLast, Heap.setNext, hlast, hnum, hne]
    simp only [List.append_nil] at key
    refine key _ ?_ (fun w hw => ?_) ?_ fun q' hq => ?_
    · simp [Heap.setNumentries, Heap.setPrev, Heap.setList]
    · rcases eq_or_ne w y with rfl | hwy
      · simp [Heap.setNumentries, Heap.setPrev, Heap.setList, hw]
      · simp [Heap.setNumentries, Heap.setPrev, Heap.setList, hw, hwy, hwy.symm]
    · simp [Heap.setNumentries, Heap.setPrev, Heap.setList, hfirst]
    · simp [Heap.setNumentries, Heap.setPrev, Heap.setList, hq]
  · have hyx : y ≠ x := by rintro rfl; simp at hx1
    have hzx : z ≠ x := by rintro rfl; simp at hx2
    have hyz : y ≠ z := by
      rintro rfl
      exact (List.disjoint_of_nodup_append hd) (by simp : y ∈ l₁ ++ [y]) (by simp)
    have hne : l₁.head?.getD y ≠ x := by
      rcases l₁ with _ | ⟨w, l₁⟩
      · simpa using hyx
      · simpa using ne_of_mem_of_not_mem (List.mem_cons_self : w ∈ w :: l₁)
          (fun h => hx1 (List.mem_append_left _ h))
    have hne2 : (z :: l₂).getLast? ≠ some x := fun he => hx2 (List.mem_of_getLast? he)
    simp [sat_check, Heap.setPrev, Heap.setNext, hlast, hnum, hne, hne2]
    simp only [List.append_assoc, List.cons_append, List.nil_append] at key
    refine key _ ?_ (fun w hw => ?_) ?_ fun q' hq => ?_
    · simp [Heap.setNumentries, Heap.setList]
    · rcases eq_or_ne w y with rfl | hwy
      · simp [Heap.setNumentries, Heap.setList, hw, hyz, hyz.symm]
      rcases eq_or_ne w z with rfl | hwz
      · simp [Heap.setNumentries, Heap.setList, hw, hyz, hyz.symm]
      · simp [Heap.setNumentries, Heap.setList, hw, hwy, hwy.symm, hwz, hwz.symm]
    · simp [Heap.setNumentries, Heap.setList, hfirst, hlast]
    · simp [Heap.setNumentries, Heap.setList, hq]

theorem nextPage_rep (hr : Rep h L) {page : Option ν} (hx : ∀ p, page = some p → p ∈ L q) :
    Sat (nextPage q page) (fun r h' => h' = h ∧ r = match page with
      | none => (L q).getLast?
      | some p => ((L q).takeWhile (· ≠ p)).getLast?) (fun _ => False) h := by
  unfold nextPage
  rcases page with _ | p
  · exact ⟨rfl, hr.last q⟩
  · have hp := hx p rfl
    obtain ⟨l₁, l₂, hL⟩ := List.append_of_mem hp
    have hd := hr.nodup q
    have hm := hr.chain q
    rw [hL] at hd hm
    have hp1 : p ∉ l₁ := fun hx => (List.disjoint_of_nodup_append hd) hx (by simp)
    have htake : (L q).takeWhile (· ≠ p) = l₁ := by
      rw [hL, List.takeWhile_append_of_pos fun y hy => by
        simpa using ne_of_mem_of_not_mem hy hp1]
      simp
    have hlist : (h.node p).list = some q := (hr.mem p q).1 hp
    simp only [sat_bind, sat_get, sat_check, sat_pure, hlist, not_true_eq_false,
      IsEmpty.forall_iff, and_true, forall_const, true_and]
    rw [htake]
    simpa using hm.middle.1

end Operations

section Lists

variable {h : Heap ι ν} {L : ι → List ν} {q : ι} {x : ν}

/-- The pages on list `q`, as a sequence. -/
theorem Heap.Wf.mem_contents (hw : h.Wf) : x ∈ h.contents q ↔ h.listOf x = some q := by
  obtain ⟨L, hr⟩ := hw
  rw [hr.contents, hr.mem]

theorem Heap.Wf.last_eq (hw : h.Wf) (q : ι) : (h.list q).last = (h.contents q).getLast? := by
  obtain ⟨L, hr⟩ := hw
  rw [hr.contents, hr.last]

theorem Heap.Wf.length_contents (hw : h.Wf) : (h.contents q).length = (h.list q).numentries := by
  obtain ⟨L, hr⟩ := hw
  rw [hr.contents, hr.num]

theorem Heap.Wf.nodup_contents (hw : h.Wf) : (h.contents q).Nodup := by
  obtain ⟨L, hr⟩ := hw
  rw [hr.contents]
  exact hr.nodup q

/-- Which list each page is on, read off the sequences. -/
theorem Rep.listOf_eq (hr : Rep h L) {f : ν → Option ι} (hf : ∀ p q, p ∈ L q ↔ f p = some q) :
    h.listOf = f := by
  funext p
  refine Option.ext fun q => ?_
  rw [← Option.mem_def, ← Option.mem_def]
  exact (hr.mem p q).symm.trans (hf p q)

theorem Heap.Wf.last (hw : h.Wf) (hx : (h.list q).last = some x) : h.listOf x = some q := by
  rw [hw.last_eq] at hx
  exact hw.mem_contents.1 (List.mem_of_getLast? hx)

theorem Heap.Wf.first (hw : h.Wf) (hx : (h.list q).first = some x) : h.listOf x = some q := by
  obtain ⟨L, hr⟩ := hw
  rw [hr.first] at hx
  exact (hr.mem x q).1 (List.mem_of_head? hx)

/-- The page behind a page of list `q` is another page of `q`. -/
theorem Heap.Wf.next (hw : h.Wf) {y : ν} (hx : h.listOf x = some q)
    (hy : (h.node x).next = some y) : h.listOf y = some q ∧ y ≠ x := by
  obtain ⟨L, hr⟩ := hw
  obtain ⟨l₁, l₂, hL⟩ := List.append_of_mem ((hr.mem x q).2 hx)
  have hm := hr.chain q
  have hd := hr.nodup q
  rw [hL] at hm hd
  have hn : (h.node x).next = l₂.head? := by simpa using hm.middle.2
  have hyl : y ∈ l₂ := List.mem_of_head? (by rw [← hn, hy])
  refine ⟨(hr.mem y q).1 (by rw [hL]; simp [hyl]), ?_⟩
  rintro rfl
  exact (List.nodup_cons.1 (List.Nodup.of_append_right hd)).1 hyl

variable [DecidableEq ι] [DecidableEq ν]

theorem Heap.Wf.enqueue (hw : h.Wf) (hx : h.listOf x = none) :
    ∃ h', enqueueFifo q x h = .ok ((), h') ∧ h'.Wf ∧
      h'.listOf = update h.listOf x (some q) := by
  obtain ⟨L, hr⟩ := hw
  obtain ⟨_, h', he, hr'⟩ := (enqueueFifo_rep hr hx (q := q)).returns
  refine ⟨h', he, ⟨_, hr'⟩, hr'.listOf_eq fun p q' => ?_⟩
  have hxL := hr.not_mem hx
  rcases eq_or_ne p x with rfl | hp <;> rcases eq_or_ne q' q with rfl | hq
  · simp
  · simp [hq, hxL, hq.symm]
  · simp [hp, hr.mem]
  · simp [hp, hq, hr.mem]

theorem dequeueFifo_empty (hl : (h.list q).last = none) : dequeueFifo q h = .ok (none, h) := by
  have hs : Sat (dequeueFifo q) (fun r h' => r = none ∧ h' = h) (fun _ => False) h := by
    unfold dequeueFifo
    rw [sat_bind, sat_get, hl]
    exact ⟨rfl, rfl⟩
  obtain ⟨r, h', he, rfl, rfl⟩ := hs.returns
  exact he

theorem Heap.Wf.contents_enqueue {h' : Heap ι ν} (hw : h.Wf) (hx : h.listOf x = none)
    (he : enqueueFifo q x h = .ok ((), h')) :
    h'.contents = update h.contents q (x :: h.contents q) := by
  obtain ⟨L, hr⟩ := hw
  have hr' := (enqueueFifo_rep hr hx (q := q)).ok he
  have hL : h.contents = L := funext hr.contents
  rw [hL]
  exact funext hr'.contents

/-- A list either is empty or gives away its last page. -/
theorem Heap.Wf.dequeue (hw : h.Wf) (q : ι) :
    (dequeueFifo q h = .ok (none, h) ∧ h.contents q = [] ∧ ∀ p, h.listOf p ≠ some q) ∨
      ∃ p h', dequeueFifo q h = .ok (some p, h') ∧ h'.Wf ∧ h.contents q = h'.contents q ++ [p] ∧
        h.listOf p = some q ∧ h'.listOf = update h.listOf p none ∧
        ∀ q', q' ≠ q → h'.contents q' = h.contents q' := by
  obtain ⟨L, hr⟩ := hw
  obtain ⟨r, h', he, hrr, hr'⟩ := (dequeueFifo_rep hr (q := q)).returns
  rcases List.eq_nil_or_concat' (L q) with hL | ⟨l, x, hL⟩
  · left
    refine ⟨dequeueFifo_empty (by rw [hr.last, hL]; rfl), by rw [hr.contents, hL], fun p hp => ?_⟩
    have hp := (hr.mem p q).2 hp
    simp [hL] at hp
  · right
    rw [hL, List.getLast?_append, List.getLast?_singleton, Option.some_or] at hrr
    rw [hL, List.dropLast_concat] at hr'
    have hxq : h.listOf x = some q := (hr.mem x q).1 (by simp [hL])
    have hd := hr.nodup q
    rw [hL] at hd
    have hxl : x ∉ l := fun hx => (List.disjoint_of_nodup_append hd) hx (by simp)
    subst hrr
    refine ⟨x, h', he, ⟨_, hr'⟩, by rw [hr.contents, hr'.contents, hL, update_self], hxq,
      hr'.listOf_eq fun p q' => ?_, fun q' hq => by rw [hr.contents, hr'.contents, update_of_ne hq]⟩
    rcases eq_or_ne p x with rfl | hp <;> rcases eq_or_ne q' q with rfl | hq
    · simp [hxl]
    · rw [update_of_ne hq, update_self, hr.mem, hxq]
      simp [hq.symm]
    · rw [update_self, update_of_ne hp, ← hr.mem, hL]
      simp [hp]
    · rw [update_of_ne hq, update_of_ne hp, hr.mem]

theorem Heap.Wf.remove (hw : h.Wf) (hx : h.listOf x = some q) :
    ∃ h', pageListRemovePage q x h = .ok ((), h') ∧ h'.Wf ∧
      h'.listOf = update h.listOf x none := by
  obtain ⟨L, hr⟩ := hw
  obtain ⟨_, h', he, hr'⟩ := (pageListRemovePage_rep hr ((hr.mem x q).2 hx)).returns
  refine ⟨h', he, ⟨_, hr'⟩, hr'.listOf_eq fun p q' => ?_⟩
  rcases eq_or_ne p x with rfl | hp <;> rcases eq_or_ne q' q with rfl | hq
  · simp [(hr.nodup q').mem_erase_iff]
  · rw [update_of_ne hq, update_self, hr.mem, hx]
    simp [hq.symm]
  · simp [hp, (hr.nodup q').mem_erase_iff, hr.mem]
  · simp [hp, hq, hr.mem]

/-- `next_page` stays on the list, and moves off the page it starts from. -/
theorem Heap.Wf.nextPage (hw : h.Wf) {page : Option ν}
    (hp : ∀ p, page = some p → h.listOf p = some q) :
    ∃ r, HeMem.nextPage q page h = .ok (r, h) ∧
      ∀ y, r = some y → h.listOf y = some q ∧ page ≠ some y := by
  obtain ⟨L, hr⟩ := hw
  obtain ⟨r, h', he, rfl, hrr⟩ := (nextPage_rep hr fun p h => (hr.mem p q).2 (hp p h)).returns
  refine ⟨r, he, fun y hy => ?_⟩
  subst hy
  rcases page with _ | p
  · exact ⟨(hr.mem y q).1 (List.mem_of_getLast? hrr.symm), by simp⟩
  · have hm := List.mem_of_getLast? hrr.symm
    refine ⟨(hr.mem y q).1 (List.takeWhile_subset _ hm), ?_⟩
    have hne := List.mem_takeWhile_imp hm
    rintro ⟨⟩
    simp at hne

end Lists

section Calls

variable {h : Heap ι ν} {L : ι → List ν} {q : ι} {x : ν}

theorem Rep.walk_of_le {n : ℕ} {b : Option ν} {l : List ν}
    (hc : Chain (fun p => (h.node p).next) (fun p => (h.node p).prev) b l none)
    (hn : l.length ≤ n) : h.walk n l.head? = l := by
  induction l generalizing n b with
  | nil => cases n <;> rfl
  | cons x l ih =>
    obtain ⟨n, rfl⟩ := Nat.exists_eq_succ_of_ne_zero (Nat.ne_zero_of_lt hn)
    have hx : (h.node x).next = l.head? := by simpa using hc.2.1
    simp only [List.head?_cons, Heap.walk, hx]
    rw [ih hc.2.2 (Nat.le_of_succ_le_succ hn)]

theorem Rep.walkBack_of_le {n : ℕ} {a : Option ν} {l : List ν}
    (hc : Chain (fun p => (h.node p).next) (fun p => (h.node p).prev) none l a)
    (hn : l.length ≤ n) : h.walkBack n l.getLast? = l.reverse := by
  induction l using List.reverseRecOn generalizing n a with
  | nil => cases n <;> rfl
  | append_singleton l x ih =>
    rw [List.length_append, List.length_singleton] at hn
    obtain ⟨n, rfl⟩ := Nat.exists_eq_succ_of_ne_zero (Nat.ne_zero_of_lt hn)
    obtain ⟨hl, hx⟩ := Chain.append.1 hc
    have hx : (h.node x).prev = l.getLast? := by simpa using hx.1
    simp only [List.getLast?_append, List.getLast?_singleton, Option.some_or, Heap.walkBack, hx,
      List.reverse_append, List.reverse_singleton, List.singleton_append]
    rw [ih hl (Nat.le_of_succ_le_succ hn)]

theorem Rep.lists (hr : Rep h L) : h.Lists L where
  next q _ hn := hr.first q ▸ Rep.walk_of_le (hr.chain q) hn
  prev q _ hn := hr.last q ▸ Rep.walkBack_of_le (hr.chain q) hn
  numentries := hr.num
  nodup := hr.nodup
  mem := hr.mem
  off p hp := by
    have hl : h.listOf p = none :=
      Option.eq_none_iff_forall_ne_some.2 fun q hq => hp q ((hr.mem p q).2 hq)
    obtain ⟨hn, hv⟩ := hr.off p hl
    have hnode : h.node p = ⟨(h.node p).next, (h.node p).prev, (h.node p).list⟩ := rfl
    rw [hnode, hn, hv, show (h.node p).list = none from hl]

variable [DecidableEq ι] [DecidableEq ν]

theorem Rep.call (hr : Rep h L) {c : FifoCall ι ν} (hc : c.Legal L) :
    Sat c.run (fun r h' => r = (c.effect L).1 ∧ Rep h' (c.effect L).2) (fun _ => False) h := by
  cases c with
  | enqueue queue entry =>
    have hx : h.listOf entry = none :=
      Option.eq_none_iff_forall_ne_some.2 fun q hq => hc q ((hr.mem entry q).2 hq)
    exact (enqueueFifo_rep hr hx).bind fun _ _ hr' => ⟨rfl, hr'⟩
  | dequeue queue => exact dequeueFifo_rep hr
  | remove list page => exact (pageListRemovePage_rep hr hc).bind fun _ _ hr' => ⟨rfl, hr'⟩
  | next list page =>
    refine (nextPage_rep hr hc).post fun r h' ⟨hh, hrr⟩ => ?_
    subst hh
    cases page <;> exact ⟨hrr, hr⟩

/-- From empty lists, any calls made as they may be pass all assertions, return what they should,
and leave well formed lists. -/
theorem fifo_refines {cs : List (FifoCall ι ν)}
    (hcs : Refine.Allowed FifoCall.effect FifoCall.Legal cs fun _ => []) :
    ∃ h, Refine.calls FifoCall.run cs Heap.empty =
        .ok ((Refine.effects FifoCall.effect cs fun _ => []).1, h) ∧
      h.Lists (Refine.effects FifoCall.effect cs fun _ => []).2 := by
  obtain ⟨h, hr, hrep⟩ := Refine.calls_refine (R := Rep) (fun c _ _ hr hc => hr.call hc) .empty hcs
  exact ⟨h, hr, hrep.lists⟩

omit [DecidableEq ι] [DecidableEq ν] in
/-- Two pages come to a list; the one behind is removed, the other one dequeued. -/
theorem fifo_refines_two : ∃ h, Refine.calls FifoCall.run [.enqueue true 1, .enqueue true 2,
    .next true (some 1), .remove true 1, .dequeue true] (Heap.empty : Heap Bool ℕ) =
      .ok ([none, none, some 2, none, some 2], h) ∧ h.Lists fun _ => [] := by
  have hcs : Refine.Allowed FifoCall.effect FifoCall.Legal [.enqueue true 1, .enqueue true 2,
      .next true (some 1), .remove true 1, .dequeue true] fun (_ : Bool) => ([] : List ℕ) := by
    simp [Refine.Allowed, FifoCall.Legal, FifoCall.effect]
  obtain ⟨h, hr, hl⟩ := fifo_refines hcs
  refine ⟨h, hr, ?_⟩
  convert hl using 1
  funext q
  cases q <;> rfl

end Calls

end HeMem

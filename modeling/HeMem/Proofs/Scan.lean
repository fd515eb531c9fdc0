import HeMem.Scan
import HeMem.Proofs.Lru

/-!
# One scan of `lru.c` takes each page by itself

A loop takes the pages off its list from the last on, and what it puts back on the list goes before
the first, so in as many turns as the list has pages it handles each of them once.  What it does to
one page does not depend on the others, except that `vas` may be full.
-/

namespace HeMem

open Hoare Function

variable {s t : LruState} {p : PageId} {q list : LruList} {v : Verdict} {dram : Bool} {k : Sweep}
  {bits : PageId → UInt64} {body : PageId → LruM Unit}

section Loops

/-- From `s`, where `p` is on no list, to `t`, page `p` has been handled with verdict `v`. -/
structure LruState.Handled (s : LruState) (p : PageId) (v : Verdict) (t : LruState) : Prop where
  wf : t.fifo.Wf
  contents : t.fifo.contents = update s.fifo.contents v.list (p :: s.fifo.contents v.list)
  hemem : t.hemem = s.hemem
  naccesses : t.naccesses = update s.naccesses p v.naccesses
  vas : t.vas = s.vas ++ if v.noted then [(s.page p).va] else []
  room : v.noted → s.vas.length < maxVas

/-- `vas` is full and the address of a page would be noted. -/
def LruState.NoRoom (s : LruState) (v : Verdict) (e : LruAbort) : Prop :=
  e = .vanum ∧ v.noted = true ∧ maxVas ≤ s.vas.length

theorem sat_getBits {f : UInt64 → LruM Unit} {Q : Unit → LruState → Prop} {E : LruAbort → Prop}
    (hal : (s.page p).va % hugepageSize = 0) (h : Sat (f (bits p)) Q E s) :
    Sat (hememGetBits bits p >>= f) Q E s := by
  unfold hememGetBits
  rw [sat_bind, sat_bind, sat_get, sat_bind, sat_check]
  exact ⟨fun _ => h, fun hn => absurd hal hn⟩

/-- From `s` to `u`, at most the mark and the count of accesses of page `p` have changed. -/
structure LruState.Marked (s : LruState) (p : PageId) (n : UInt64) (u : LruState) : Prop where
  fifo : u.fifo = s.fifo
  hemem : u.hemem = s.hemem
  vas : u.vas = s.vas
  naccesses : u.naccesses = update s.naccesses p n

theorem marked_self {b : PageId → Bool} : s.Marked p (s.naccesses p) { s with written := b } :=
  ⟨rfl, rfl, rfl, (update_eq_self p s.naccesses).symm⟩

theorem marked_set {b : PageId → Bool} {n : UInt64} :
    s.Marked p n { s with written := b, naccesses := update s.naccesses p n } :=
  ⟨rfl, rfl, rfl, rfl⟩

variable {u : LruState} {n : UInt64}

section Turn

variable (hw : s.fifo.Wf) (hp : s.fifo.listOf p = none)
include hw hp

/-- The last step of a turn, where the address is not noted. -/
theorem enqueue_handled (hu : s.Marked p n u) {E : LruAbort → Prop} :
    Sat (onLists (enqueueFifo q p)) (fun _ t => s.Handled p ⟨q, n, false⟩ t) E u := by
  obtain ⟨h, he, hw', -⟩ := hw.enqueue (q := q) hp
  rw [← hu.fifo] at he
  rw [sat_onLists he]
  refine ⟨hw', ?_, hu.hemem, hu.naccesses, by simp [hu.vas], by simp⟩
  exact hw.contents_enqueue hp (hu.fifo ▸ he)

theorem note_handled (hu : s.Marked p n u) : Sat (do
      recordVa p
      onLists (enqueueFifo q p)) (fun _ t => s.Handled p ⟨q, n, true⟩ t)
      (s.NoRoom ⟨q, n, true⟩) u := by
  obtain ⟨h, he, hw', -⟩ := hw.enqueue (q := q) hp
  rw [← hu.fifo] at he
  unfold recordVa
  rw [sat_bind, sat_bind, sat_get, sat_bind, sat_check, hu.vas]
  refine ⟨fun hroom => ?_, fun hroom => ⟨rfl, rfl, Nat.le_of_not_lt hroom⟩⟩
  rw [sat_modify, sat_onLists (s := { u with vas := u.vas ++ [(u.page p).va] }) he]
  refine ⟨hw', ?_, hu.hemem, hu.naccesses, ?_, fun _ => hroom⟩
  · exact hw.contents_enqueue hp (hu.fifo ▸ he)
  · change u.vas ++ [(u.hemem.page p).va] = _
    rw [hu.vas, hu.hemem]
    rfl

/-- The body of each loop does what its verdict says. -/
theorem Sweep.body_handled (hal : (s.page p).va % hugepageSize = 0) : Sat (k.body dram bits p)
    (fun _ t => s.Handled p (k.verdict dram (accessed (bits p)) (dirty (bits p)) (s.naccesses p)) t)
    (s.NoRoom (k.verdict dram (accessed (bits p)) (dirty (bits p)) (s.naccesses p))) s := by
  have hself : s.Marked p (s.naccesses p) s := marked_self
  cases k with
  | checkWrites =>
    refine sat_getBits hal (sat_ite.2 ⟨fun ha => sat_ite.2 ⟨fun hd => ?_, fun hd => ?_⟩,
      fun ha => ?_⟩)
    · rw [setWritten, sat_bind, sat_modify]
      simpa [Sweep.verdict, ha, hd] using note_handled hw hp marked_self
    · rw [setWritten, sat_bind, sat_modify]
      simpa [Sweep.verdict, ha, hd] using enqueue_handled hw hp marked_self
    · simpa [Sweep.verdict, ha] using enqueue_handled hw hp hself
  | shrinkCaches =>
    refine sat_getBits hal (sat_ite.2 ⟨fun ha => sat_ite.2 ⟨fun hd => ?_, fun hd => ?_⟩,
      fun ha => ?_⟩)
    · rw [setWritten, sat_bind, sat_modify]
      simpa [Sweep.verdict, ha, hd] using note_handled hw hp marked_self
    · rw [setWritten, sat_bind, sat_modify]
      simpa [Sweep.verdict, ha, hd] using note_handled hw hp marked_self
    · rw [setNaccesses, sat_bind, sat_modify]
      simpa [Sweep.verdict, ha] using enqueue_handled hw hp marked_set
  | expandCaches =>
    refine sat_getBits hal (sat_ite.2 ⟨fun ha => sat_ite.2 ⟨fun hd => ?_, fun hd => ?_⟩,
      fun ha => ?_⟩)
    · rw [setWritten, sat_bind, sat_modify]
      simpa [Sweep.verdict, ha, hd] using enqueue_handled hw hp marked_self
    · rw [setWritten, sat_bind, sat_modify, sat_bind, sat_get, sat_ite]
      refine ⟨fun hn => ?_, fun hn => ?_⟩
      · rw [setNaccesses, sat_bind, sat_modify]
        simpa [Sweep.verdict, ha, hd, hn] using enqueue_handled hw hp marked_set
      · rw [setNaccesses, sat_bind, sat_modify]
        simpa [Sweep.verdict, ha, hd, hn] using note_handled hw hp marked_set
    · rw [setNaccesses, sat_bind, sat_modify]
      simpa [Sweep.verdict, ha] using enqueue_handled hw hp marked_set

end Turn

theorem dequeue_last {l : List PageId} (hw : s.fifo.Wf) (hc : s.fifo.contents q = l ++ [p]) :
    ∃ h, onLists (dequeueFifo q) s = .ok (some p, { s with fifo := h }) ∧ h.Wf ∧
      h.listOf p = none ∧ h.contents = update s.fifo.contents q l := by
  rcases hw.dequeue q with ⟨-, hn, -⟩ | ⟨x, h, he, hw', hx, -, hl, hrest⟩
  · simp [hn] at hc
  · obtain ⟨rfl, hxp⟩ := List.append_inj' (hc.symm.trans hx) rfl
    obtain rfl : p = x := by simpa using hxp
    refine ⟨h, ?_, hw', by rw [hl, update_self], ?_⟩
    · unfold onLists
      rw [he]
    · funext q'
      rcases eq_or_ne q' q with rfl | hq
      · rw [update_self]
      · rw [update_of_ne hq, hrest q' hq]

/-- The pages still to be handled, at the end of the list, are aligned. -/
structure LruState.Ahead (s : LruState) (q : LruList) (ps : List PageId) : Prop where
  wf : s.fifo.Wf
  contents : ∃ l, s.fifo.contents q = l ++ ps.reverse
  align : ∀ p ∈ ps, (s.page p).va % hugepageSize = 0

/-- After a turn, the rest is ahead. -/
theorem LruState.Ahead.turn {ps : List PageId} (h : s.Ahead q (p :: ps)) :
    ∃ u : LruState, onLists (dequeueFifo q) s = .ok (some p, u) ∧ u.fifo.Wf ∧
      u.fifo.listOf p = none ∧ u.hemem = s.hemem ∧ u.naccesses = s.naccesses ∧ u.vas = s.vas ∧
      (∃ l, s.fifo.contents q = (l ++ ps.reverse) ++ [p] ∧
        u.fifo.contents = update s.fifo.contents q (l ++ ps.reverse)) ∧
      ∀ v t, u.Handled p v t → t.Ahead q ps := by
  obtain ⟨l, hc⟩ := h.contents
  rw [List.reverse_cons, ← List.append_assoc] at hc
  obtain ⟨f, hd, hwf, hp, hcf⟩ := dequeue_last h.wf hc
  refine ⟨{ s with fifo := f }, hd, hwf, hp, rfl, rfl, rfl, ⟨l, hc, hcf⟩, fun v t ht => ?_⟩
  refine ⟨ht.wf, ?_, fun x hx => ?_⟩
  · rw [ht.contents, hcf]
    rcases eq_or_ne q v.list with rfl | hq
    · exact ⟨p :: l, by simp⟩
    · exact ⟨l, by rw [update_of_ne hq, update_self]⟩
  · rw [LruState.page, ht.hemem]
    exact h.align x (List.mem_cons_of_mem p hx)

/-- The body of a loop handles a page that it has taken off its list. -/
def Handler (body : PageId → LruM Unit) : Prop := ∀ (s : LruState) (p : PageId), s.fifo.Wf →
  s.fifo.listOf p = none → (s.page p).va % hugepageSize = 0 →
    Sat (body p) (fun _ t => ∃ v, s.Handled p v t) (fun _ => True) s

theorem Sweep.handler : Handler (fun p => k.body dram bits p) := fun _ _ hw hp hal =>
  (Sweep.body_handled hw hp hal).mono (fun _ _ h => ⟨_, h⟩) fun _ _ => trivial

/-- What follows a turn need only agree on states from which the rest is ahead. -/
theorem Handler.turn {ps : List PageId} {m m' : LruM Unit} (hb : Handler body)
    (h : s.Ahead q (p :: ps)) (hm : ∀ t : LruState, t.Ahead q ps → m t = m' t) :
    ∃ u, onLists (dequeueFifo q) s = .ok (some p, u) ∧
      (body p >>= fun _ => m) u = (body p >>= fun _ => m') u := by
  obtain ⟨u, hd, hwf, hp, hh, -, -, -, hnext⟩ := h.turn
  have hal : (u.page p).va % hugepageSize = 0 := by
    rw [LruState.page, hh]
    exact h.align p List.mem_cons_self
  refine ⟨u, hd, bind_eq_of_ok fun _ t hbt => ?_⟩
  obtain ⟨v, hv⟩ := (hb u p hwf hp hal).ok hbt
  exact hm t (hnext v t hv)

theorem scanLoop_handleEach (hb : Handler body) : ∀ {ps : List PageId} {s : LruState},
    s.Ahead q ps → scanLoop q body ps.length s = handleEach q body ps s
  | [], _, _ => rfl
  | p :: ps, s, h => by
    obtain ⟨u, hd, hu⟩ := hb.turn h fun t ht => scanLoop_handleEach hb ht
    rw [List.length_cons, scanLoop, handleEach, bind_of_ok hd, bind_of_ok hd]
    exact hu

theorem shrinkLoop_handleEach : ∀ {ps : List PageId} {s : LruState}, s.Ahead (activeOf dram) ps →
    shrinkLoop bits (activeOf dram) (inactiveOf dram) (writtenOf dram) ps.length s =
      handleEach (activeOf dram) (fun p => Sweep.shrinkCaches.body dram bits p) ps s
  | [], _, _ => rfl
  | p :: ps, s, h => by
    have hb : Handler (fun p => Sweep.shrinkCaches.body dram bits p) := Sweep.handler
    obtain ⟨u, hd, hu⟩ := hb.turn h fun t ht => shrinkLoop_handleEach ht
    have hnum : (s.fifo.list (activeOf dram)).numentries > 0 := by
      obtain ⟨l, hc⟩ := h.contents
      rw [← h.wf.length_contents, hc, List.length_append, List.length_reverse, List.length_cons]
      omega
    rw [List.length_cons, shrinkLoop, handleEach, bind_of_ok hd]
    change (if (s.fifo.list (activeOf dram)).numentries > 0 then _ else pure () : LruM Unit) s = _
    rw [if_pos hnum, bind_of_ok hd]
    exact hu

/-- A sweep handles each page of its list once, from the last to the first. -/
theorem Sweep.run_handleEach (hw : s.fifo.Wf)
    (hal : ∀ p, s.fifo.listOf p = some (k.source dram) → (s.page p).va % hugepageSize = 0) :
    k.run dram bits s = handleEach (k.source dram) (fun p => k.body dram bits p)
      (s.fifo.contents (k.source dram)).reverse s := by
  have h : s.Ahead (k.source dram) (s.fifo.contents (k.source dram)).reverse :=
    ⟨hw, ⟨[], by simp⟩, fun p hp => hal p (hw.mem_contents.1 (List.mem_reverse.1 hp))⟩
  have hlen : (s.fifo.list (k.source dram)).numentries =
      (s.fifo.contents (k.source dram)).reverse.length := by
    rw [List.length_reverse, hw.length_contents]
  cases k with
  | checkWrites =>
    rw [← scanLoop_handleEach Sweep.handler h, ← hlen]
    rfl
  | shrinkCaches =>
    exact Eq.trans (by rw [← hlen]; rfl) (@shrinkLoop_handleEach dram bits _ _ h)
  | expandCaches =>
    rw [← scanLoop_handleEach Sweep.handler h, ← hlen]
    rfl

/-- From `s` to `t`, the pages `ps` at the end of list `q`, behind `l`, have been handled. -/
structure LruState.Swept (s : LruState) (q : LruList) (l ps : List PageId)
    (V : PageId → Verdict) (t : LruState) : Prop where
  wf : t.fifo.Wf
  contents : ∀ q', t.fifo.contents q' = (ps.filter fun p => (V p).list = q').reverse ++
    if q' = q then l else s.fifo.contents q'
  hemem : t.hemem = s.hemem
  naccesses : ∀ p, t.naccesses p = if p ∈ ps then (V p).naccesses else s.naccesses p
  vas : t.vas = s.vas ++ (ps.filter fun p => (V p).noted).map fun p => (s.page p).va
  room : (ps.filter fun p => (V p).noted).length ≤ maxVas - s.vas.length

/-- More addresses are to be noted than `vas` has room for. -/
def LruState.Overflows (s : LruState) (ps : List PageId) (V : PageId → Verdict)
    (e : LruAbort) : Prop :=
  e = .vanum ∧ maxVas - s.vas.length < (ps.filter fun p => (V p).noted).length

section Cons

variable {V : PageId → Verdict} {ps l : List PageId} {f : Heap LruList PageId} {w : LruState}
  (hcf : f.contents = update s.fifo.contents q (l ++ ps.reverse))
  (ht : LruState.Handled { s with fifo := f } p (V p) t)

include ht

theorem LruState.Overflows.cons {e : LruAbort} (h : t.Overflows ps V e) :
    s.Overflows (p :: ps) V e := by
  refine ⟨h.1, ?_⟩
  have hlen := h.2
  rw [ht.vas] at hlen
  by_cases hv : (V p).noted = true
  · simp only [hv, if_true, List.length_append, List.length_singleton] at hlen
    simp only [List.filter_cons, hv, if_true, List.length_cons]
    omega
  · simpa [hv] using hlen

include hcf

theorem contents_handled : t.fifo.contents q =
    (if (V p).list = q then p :: l else l) ++ ps.reverse := by
  rw [ht.contents]
  change update f.contents _ (p :: f.contents _) q = _
  rw [hcf]
  by_cases hv : (V p).list = q
  · simp [hv]
  · rw [if_neg hv, update_of_ne (Ne.symm hv), update_self]

/-- The first page is handled, then the rest. -/
theorem LruState.Swept.cons (hp : p ∉ ps)
    (h : t.Swept q (if (V p).list = q then p :: l else l) ps V w) : s.Swept q l (p :: ps) V w where
  wf := h.wf
  contents q' := by
    have hother : q' ≠ q → t.fifo.contents q' =
        if (V p).list = q' then p :: s.fifo.contents q' else s.fifo.contents q' := fun hq => by
      rw [ht.contents]
      change update f.contents _ (p :: f.contents _) q' = _
      rw [hcf]
      by_cases hv : (V p).list = q'
      · subst hv
        simp [update_of_ne hq]
      · rw [if_neg hv, update_of_ne (Ne.symm hv), update_of_ne hq]
    rw [h.contents]
    by_cases hq : q' = q
    · subst hq
      by_cases hv : (V p).list = q' <;> simp [hv]
    · rw [if_neg hq, if_neg hq, hother hq]
      by_cases hv : (V p).list = q' <;> simp [hv]
  hemem := h.hemem.trans ht.hemem
  naccesses x := by
    rw [h.naccesses, ht.naccesses]
    rcases eq_or_ne x p with rfl | hx
    · simp [hp]
    · simp [hx]
  vas := by
    have hpage : t.page = s.page := congrArg State.page ht.hemem
    rw [h.vas, ht.vas, hpage]
    by_cases hv : (V p).noted = true <;> simp [hv, LruState.page]
  room := by
    have hlen := h.room
    rw [ht.vas] at hlen
    by_cases hv : (V p).noted = true
    · have hroom : s.vas.length < maxVas := ht.room hv
      simp only [hv, if_true, List.length_append, List.length_singleton] at hlen
      simp only [List.filter_cons, hv, if_true, List.length_cons]
      omega
    · simpa [hv] using hlen

end Cons

theorem Sweep.handleEach_swept {V : PageId → Verdict} : ∀ {ps l : List PageId} {s : LruState},
    s.fifo.Wf → s.fifo.contents (k.source dram) = l ++ ps.reverse →
    (∀ p ∈ ps, (s.page p).va % hugepageSize = 0) →
    (∀ p ∈ ps, V p = k.verdict dram (accessed (bits p)) (dirty (bits p)) (s.naccesses p)) →
    Sat (handleEach (k.source dram) (fun p => k.body dram bits p) ps)
      (fun _ t => s.Swept (k.source dram) l ps V t) (s.Overflows ps V) s
  | [], l, s, hw, hc, _, _ => by
    refine ⟨hw, fun q' => ?_, rfl, by simp, by simp, Nat.zero_le _⟩
    split <;> simp_all
  | p :: ps, l, s, hw, hc, hal, hV => by
    rw [List.reverse_cons, ← List.append_assoc] at hc
    obtain ⟨f, hd, hwf, hp, hcf⟩ := dequeue_last hw hc
    have hnd : (l ++ ps.reverse ++ [p]).Nodup := hc ▸ hw.nodup_contents
    have hpps : p ∉ ps := fun hx =>
      List.disjoint_of_nodup_append hnd (by simp [hx]) List.mem_cons_self
    have hbody : Sat (k.body dram bits p)
        (fun _ t => LruState.Handled { s with fifo := f } p (V p) t)
        (LruState.NoRoom { s with fifo := f } (V p)) { s with fifo := f } := by
      rw [hV p List.mem_cons_self]
      exact Sweep.body_handled hwf hp (hal p List.mem_cons_self)
    have hfull : ∀ e, LruState.NoRoom { s with fifo := f } (V p) e → s.Overflows (p :: ps) V e := by
      rintro e ⟨rfl, hv, hroom⟩
      refine ⟨rfl, ?_⟩
      rw [Nat.sub_eq_zero_of_le hroom]
      simp [hv]
    rw [handleEach, sat_bind, sat_of_ok hd]
    refine (hbody.mono (fun _ _ => id) hfull).bind fun _ t ht => ?_
    refine (handleEach_swept ht.wf (contents_handled hcf ht) (fun x hx => ?_) fun x hx => ?_).mono
      (fun _ w hw => hw.cons hcf ht hpps) fun _ he => he.cons ht
    · rw [LruState.page, ht.hemem]
      exact hal x (List.mem_cons_of_mem p hx)
    · rw [ht.naccesses, update_of_ne (ne_of_mem_of_not_mem hx hpps)]
      exact hV x (List.mem_cons_of_mem p hx)

/-- A sweep, by the pages of its list. -/
theorem Sweep.run_swept (hw : s.fifo.Wf)
    (hal : ∀ p, s.fifo.listOf p = some (k.source dram) → (s.page p).va % hugepageSize = 0) :
    Sat (k.run dram bits)
      (fun _ t => s.Swept (k.source dram) [] (s.fifo.contents (k.source dram)).reverse
        (fun p => k.verdict dram (accessed (bits p)) (dirty (bits p)) (s.naccesses p)) t)
      (s.Overflows (s.fifo.contents (k.source dram)).reverse fun p =>
        k.verdict dram (accessed (bits p)) (dirty (bits p)) (s.naccesses p)) s := by
  have h : Sat (handleEach (k.source dram) (fun p => k.body dram bits p) (s.fifo.contents (k.source dram)).reverse)
      (fun _ t => s.Swept (k.source dram) [] (s.fifo.contents (k.source dram)).reverse
        (fun p => k.verdict dram (accessed (bits p)) (dirty (bits p)) (s.naccesses p)) t)
      (s.Overflows (s.fifo.contents (k.source dram)).reverse fun p =>
        k.verdict dram (accessed (bits p)) (dirty (bits p)) (s.naccesses p)) s :=
    Sweep.handleEach_swept hw (by simp)
      (fun p hp => hal p (hw.mem_contents.1 (List.mem_reverse.1 hp))) fun _ _ => rfl
  unfold Sat at h ⊢
  rwa [Sweep.run_handleEach hw hal]

end Loops

section Cells

variable {s₀ : LruState} {ks : List (Sweep × Bool)} {l : List PageId} {a d : Bool} {c : Cell}

theorem Sweep.onPage_noted : c.noted ≤ (k.onPage dram a d c).noted := by
  unfold Sweep.onPage
  split
  · exact Nat.le_add_right _ _
  · exact Nat.le_refl _

theorem sweepsOnPage_noted : c.noted ≤ (sweepsOnPage a d ks c).noted := by
  induction ks generalizing c with
  | nil => exact Nat.le_refl _
  | cons k ks ih => exact Nat.le_trans Sweep.onPage_noted ih

theorem sweepsOnPage_append {ks' : List (Sweep × Bool)} :
    sweepsOnPage a d (ks ++ ks') c = sweepsOnPage a d ks' (sweepsOnPage a d ks c) := by
  unfold sweepsOnPage
  exact List.foldl_append

@[simp] theorem Sweep.list_verdict_free {n : UInt64} :
    (k.verdict dram a d n).list.free = false := by
  by_cases hn : n ≥ 4 <;> cases k <;> cases a <;> cases d <;> cases dram <;>
    simp [Sweep.verdict, hn, activeOf, inactiveOf, writtenOf, LruList.free]

/-- The page is in use. -/
def Cell.Used (c : Cell) : Prop := ∃ q, c.list = some q ∧ q.free = false

theorem Sweep.used_onPage : (k.onPage dram a d c).Used ↔ c.Used := by
  unfold Sweep.onPage
  split
  · rename_i h
    exact iff_of_true ⟨_, rfl, Sweep.list_verdict_free⟩ ⟨_, h, k.free_source⟩
  · rfl

theorem used_sweepsOnPage : (sweepsOnPage a d ks c).Used ↔ c.Used := by
  induction ks generalizing c with
  | nil => rfl
  | cons k ks ih => exact ih.trans Sweep.used_onPage

/-- A scan that began in `s₀` has gone through the loops `ks`, and has noted the pages `l`. -/
structure Scanning (bits : PageId → UInt64) (s₀ : LruState) (ks : List (Sweep × Bool))
    (l : List PageId) (t : LruState) : Prop where
  wf : t.fifo.Wf
  hemem : t.hemem = s₀.hemem
  cell : ∀ p, t.cell l p = sweepsOnPage (accessed (bits p)) (dirty (bits p)) ks (s₀.cell [] p)
  vas : t.vas = l.map fun p => (s₀.page p).va
  room : t.vas.length ≤ maxVas

/-- There are more pages to note than there is room for. -/
def Overflowing (bits : PageId → UInt64) (s₀ : LruState) (ks : List (Sweep × Bool))
    (e : LruAbort) : Prop :=
  e = .vanum ∧ ∃ l : List PageId, maxVas < l.length ∧ ∀ p,
    l.count p ≤ (sweepsOnPage (accessed (bits p)) (dirty (bits p)) ks (s₀.cell [] p)).noted

theorem count_filter_of_nodup {ps : List PageId} (hnd : ps.Nodup) {f : PageId → Bool} :
    (ps.filter f).count p = if p ∈ ps then (f p).toNat else 0 := by
  by_cases hf : f p = true
  · rw [List.count_filter hf]
    simp [hnd.count, hf]
  · rw [List.count_eq_zero_of_not_mem (by simp [hf])]
    simp [hf]

theorem LruState.Swept.listOf {ps : List PageId} {V : PageId → Verdict} (hw : s.fifo.Wf)
    (hps : ∀ p, p ∈ ps ↔ s.fifo.listOf p = some q) (h : s.Swept q [] ps V t) (p : PageId) :
    t.fifo.listOf p = if s.fifo.listOf p = some q then some (V p).list else s.fifo.listOf p := by
  refine Option.ext fun q' => ?_
  rw [← h.wf.mem_contents, h.contents, List.mem_append, List.mem_reverse, List.mem_filter, hps]
  by_cases hp : s.fifo.listOf p = some q
  · have hne : q' ≠ q → ¬ q = q' := fun hq h => hq h.symm
    by_cases hq : q' = q <;> simp [hp, hq, hne, hw.mem_contents, eq_comm]
  · by_cases hq : q' = q
    · simp [hp, hq]
    · simp [hp, hq, hw.mem_contents]

theorem Scanning.sweep (h : Scanning bits s₀ ks l s)
    (hal : ∀ p, (s₀.cell [] p).Used → (s₀.page p).va % hugepageSize = 0) :
    Sat (k.run dram bits) (fun _ t => ∃ l', Scanning bits s₀ (ks ++ [(k, dram)]) l' t)
      (Overflowing bits s₀ (ks ++ [(k, dram)])) s := by
  have hpage : s.page = s₀.page := congrArg State.page h.hemem
  have hal' : ∀ p, s.fifo.listOf p = some (k.source dram) → (s.page p).va % hugepageSize = 0 :=
    fun p hp => by
      rw [hpage]
      have hused : (s.cell l p).Used := ⟨_, hp, k.free_source⟩
      rw [h.cell] at hused
      exact hal p (used_sweepsOnPage.1 hused)
  have hps : ∀ p, p ∈ (s.fifo.contents (k.source dram)).reverse ↔
      s.fifo.listOf p = some (k.source dram) := fun p => by
    rw [List.mem_reverse, h.wf.mem_contents]
  have hnd : (s.fifo.contents (k.source dram)).reverse.Nodup :=
    List.nodup_reverse.2 h.wf.nodup_contents
  generalize hV : (fun p => k.verdict dram (accessed (bits p)) (dirty (bits p)) (s.naccesses p)) = V
  generalize hl' : l ++ (s.fifo.contents (k.source dram)).reverse.filter (fun p => (V p).noted) = l'
  have hcount : ∀ p, l'.count p = l.count p +
      if s.fifo.listOf p = some (k.source dram) then (V p).noted.toNat else 0 := fun p => by
    rw [← hl', List.count_append, count_filter_of_nodup hnd]
    simp only [hps]
  have hcell : ∀ p, sweepsOnPage (accessed (bits p)) (dirty (bits p)) (ks ++ [(k, dram)])
      (s₀.cell [] p) = ⟨if s.fifo.listOf p = some (k.source dram) then some (V p).list
        else s.fifo.listOf p, if s.fifo.listOf p = some (k.source dram) then (V p).naccesses
        else s.naccesses p, l'.count p⟩ := fun p => by
    rw [sweepsOnPage_append, ← h.cell p, hcount, ← hV]
    change k.onPage dram _ _ (s.cell l p) = _
    by_cases hp : s.fifo.listOf p = some (k.source dram) <;> simp [Sweep.onPage, LruState.cell, hp]
  have hsat := @Sweep.run_swept s dram k bits h.wf hal'
  rw [hV] at hsat
  refine hsat.mono
    (fun _ t ht => ⟨l', ht.wf, ht.hemem.trans h.hemem, fun p => ?_, ?_, ?_⟩)
    fun e he => ⟨he.1, l', ?_, fun p => by rw [hcell]⟩
  · rw [hcell, LruState.cell, ht.listOf h.wf hps, ht.naccesses]
    simp only [hps]
  · rw [ht.vas, h.vas, hpage, ← hl', List.map_append]
  · have hroom := h.room
    have hlen := ht.room
    rw [ht.vas, List.length_append, List.length_map]
    omega
  · have hlen := he.2
    rw [h.vas, List.length_map] at hlen
    rw [← hl', List.length_append]
    omega

theorem Overflowing.append {ks' : List (Sweep × Bool)} {e : LruAbort}
    (h : Overflowing bits s₀ ks e) : Overflowing bits s₀ (ks ++ ks') e := by
  obtain ⟨he, l, hlen, hl⟩ := h
  refine ⟨he, l, hlen, fun p => (hl p).trans ?_⟩
  rw [sweepsOnPage_append]
  exact sweepsOnPage_noted

theorem runSweeps_scanning (hal : ∀ p, (s₀.cell [] p).Used → (s₀.page p).va % hugepageSize = 0) :
    ∀ {ks' ks : List (Sweep × Bool)} {l : List PageId} {s : LruState}, Scanning bits s₀ ks l s →
      Sat (runSweeps bits ks') (fun _ t => ∃ l', Scanning bits s₀ (ks ++ ks') l' t)
        (Overflowing bits s₀ (ks ++ ks')) s
  | [], ks, l, s, h => ⟨l, by simpa using h⟩
  | (k, dram) :: ks', ks, l, s, h => by
    rw [List.append_cons]
    unfold runSweeps
    refine ((h.sweep hal).mono (fun _ _ => id) fun _ he => he.append).bind fun _ t ⟨l', ht⟩ => ?_
    exact runSweeps_scanning hal ht

theorem lruKscand_fixed : lruKscand (.fixed bits) = (do
    modify ({ · with vas := [] })
    runSweeps bits scanLoops
    clearBits (← get).vas) := by
  simp only [scanLoops, runSweeps, bind_assoc, pure_bind]
  rfl

theorem clearBits_aligned : ∀ {l : List UInt64} {E : LruAbort → Prop},
    (∀ a ∈ l, a % hugepageSize = 0) → Sat (clearBits l) (fun _ t => t = s) E s
  | [], _, _ => rfl
  | a :: l, E, h => by
    unfold clearBits
    rw [sat_bind, sat_check]
    exact ⟨fun _ => clearBits_aligned fun b hb => h b (List.mem_cons_of_mem a hb),
      fun hn => absurd (h a List.mem_cons_self) hn⟩

end Cells

section Scan

variable {a d : Bool} {n : UInt64}

/-- The loops of a scan, one after another, make of a page what the scan is said to. -/
theorem scanLoops_onPage : sweepsOnPage a d scanLoops ⟨some q, n, 0⟩ =
    ⟨some (q.scanned a d n), q.scannedNaccesses a d n, (q.noted a d n).toNat⟩ := by
  have hge : n ≥ 4 ↔ ¬ n < 4 := by rw [ge_iff_le, UInt64.not_lt]
  by_cases hn : n < 4 <;> cases q <;> cases a <;> cases d <;>
    simp [sweepsOnPage, scanLoops, Sweep.onPage, Sweep.source, Sweep.verdict, activeOf,
      inactiveOf, writtenOf, LruList.scanned, LruList.scannedNaccesses,
      LruList.noted, LruList.free, LruList.dram, hge, hn]

theorem scanLoops_off : sweepsOnPage a d scanLoops ⟨none, n, 0⟩ = ⟨none, n, 0⟩ := rfl

theorem dram_scanned : (q.scanned a d n).dram = q.dram := by
  by_cases hn : n < 4 <;> cases q <;> cases a <;> cases d <;>
    simp [LruList.scanned, LruList.free, LruList.dram, activeOf, inactiveOf,
      writtenOf, hn]

theorem used_of_noted (h : q.noted a d n = true) : q.free = false := by
  unfold LruList.noted at h
  cases hq : q.free <;> simp_all

theorem mem_inUse : q ∈ LruList.inUse ↔ q.free = false := by
  cases q <;> decide

variable (hw : s.fifo.Wf)
include hw

theorem mem_pagesInUse : p ∈ s.pagesInUse ↔ (s.cell [] p).Used := by
  simp only [LruState.pagesInUse, List.mem_flatMap, hw.mem_contents, mem_inUse, Cell.Used,
    LruState.cell, and_comm]

theorem mem_notedPages : p ∈ s.notedPages bits ↔ ∃ q, s.fifo.listOf p = some q ∧
    q.noted (accessed (bits p)) (dirty (bits p)) (s.naccesses p) = true := by
  simp only [LruState.notedPages, List.mem_flatMap, List.mem_filter, hw.mem_contents]
  exact ⟨fun ⟨q, _, h⟩ => ⟨q, h⟩, fun ⟨q, h⟩ => ⟨q, mem_inUse.2 (used_of_noted h.2), h⟩⟩

theorem nodup_notedPages : (s.notedPages bits).Nodup := by
  refine List.nodup_flatMap.2 ⟨fun q _ => hw.nodup_contents.filter _, ?_⟩
  have hnd : LruList.inUse.Nodup := by decide
  refine hnd.imp fun hne p hp hp' => hne ?_
  have hq := hw.mem_contents.1 (List.mem_filter.1 hp).1
  have hq' := hw.mem_contents.1 (List.mem_filter.1 hp').1
  exact Option.some.inj (hq.symm.trans hq')

theorem count_notedPages : (s.notedPages bits).count p =
    (sweepsOnPage (accessed (bits p)) (dirty (bits p)) scanLoops (s.cell [] p)).noted := by
  rw [(nodup_notedPages hw).count]
  simp only [mem_notedPages hw]
  unfold LruState.cell
  rcases hp : s.fifo.listOf p with _ | q
  · rw [List.count_nil, scanLoops_off]
    simp
  · rw [List.count_nil, scanLoops_onPage]
    cases hn : q.noted (accessed (bits p)) (dirty (bits p)) (s.naccesses p) <;> simp [hn]

theorem Scanning.perm {l : List PageId} (h : Scanning bits s scanLoops l t) :
    l.Perm (s.notedPages bits) := by
  rw [List.perm_iff_count]
  intro p
  rw [count_notedPages hw, ← h.cell]
  rfl

theorem notedPages_subset : s.notedPages bits ⊆ s.pagesInUse := fun p hp => by
  obtain ⟨q, hq, hn⟩ := (mem_notedPages hw).1 hp
  exact (mem_pagesInUse hw).2 ⟨q, hq, used_of_noted hn⟩

theorem Scanning.classified {l : List PageId} (h : Scanning bits s scanLoops l t) :
    s.Classified bits t := by
  have hcell : ∀ p q, s.fifo.listOf p = some q → t.cell l p =
      ⟨some (q.scanned (accessed (bits p)) (dirty (bits p)) (s.naccesses p)),
        q.scannedNaccesses (accessed (bits p)) (dirty (bits p)) (s.naccesses p),
        (q.noted (accessed (bits p)) (dirty (bits p)) (s.naccesses p)).toNat⟩ := fun p q hp => by
    rw [h.cell, LruState.cell, hp, List.count_nil, scanLoops_onPage]
  have hperm := h.perm hw
  exact {
    list := fun p => by
      rcases hp : s.fifo.listOf p with _ | q
      · have hoff := h.cell p
        rw [LruState.cell, LruState.cell, hp, List.count_nil, scanLoops_off] at hoff
        exact congrArg Cell.list hoff
      · exact congrArg Cell.list (hcell p q hp)
    contents := fun p q => h.wf.mem_contents
    nodup := fun q => h.wf.nodup_contents
    tier := fun p q hp => ⟨_, congrArg Cell.list (hcell p q hp), dram_scanned⟩
    naccesses := fun p q hp => congrArg Cell.naccesses (hcell p q hp)
    hemem := h.hemem
    vas := ⟨l, hperm.nodup_iff.2 (nodup_notedPages hw), hperm, h.vas⟩
    vanum := by
      rw [h.vas, List.length_map, hperm.length_eq]
      exact ((nodup_notedPages hw).subperm (notedPages_subset hw)).length_le }

theorem Overflowing.length {e : LruAbort} (h : Overflowing bits s scanLoops e) :
    e = .vanum ∧ maxVas < (s.notedPages bits).length := by
  obtain ⟨he, l, hlen, hl⟩ := h
  refine ⟨he, hlen.trans_le (List.Subperm.length_le (List.subperm_ext_iff.2 fun p _ => ?_))⟩
  rw [count_notedPages hw]
  exact hl p

theorem scanning_initial : Scanning bits s [] [] { s with vas := [] } :=
  ⟨hw, rfl, fun _ => rfl, rfl, Nat.zero_le _⟩

variable (hal : ∀ p ∈ s.pagesInUse, (s.page p).va % hugepageSize = 0)
include hal

theorem lruKscand_scanning : Sat (lruKscand (.fixed bits))
    (fun _ t => ∃ l, Scanning bits s scanLoops l t) (Overflowing bits s scanLoops) s := by
  rw [lruKscand_fixed, sat_bind, sat_modify]
  refine (runSweeps_scanning (fun p hp => hal p ((mem_pagesInUse hw).2 hp))
    (scanning_initial hw)).bind fun _ t ⟨l, ht⟩ => ?_
  rw [sat_bind, sat_get]
  have haligned : ∀ a ∈ t.vas, a % hugepageSize = 0 := fun a ha => by
    rw [ht.vas] at ha
    obtain ⟨p, hp, rfl⟩ := List.mem_map.1 ha
    exact hal p (notedPages_subset hw ((ht.perm hw).subset hp))
  exact (clearBits_aligned haligned).post fun _ u hu => ⟨l, hu ▸ ht⟩

theorem lruKscand_vanum (hlen : maxVas < (s.notedPages bits).length) :
    lruKscand (.fixed bits) s = .error .vanum := by
  have hsat := @lruKscand_scanning s bits hw hal
  rcases hr : lruKscand (.fixed bits) s with e | ⟨⟨⟩, t⟩
  · rw [(hsat.error hr).1]
  · obtain ⟨l, ht⟩ := hsat.ok hr
    have hroom := ht.room
    rw [ht.vas, List.length_map, (ht.perm hw).length_eq] at hroom
    omega

/-- Each loop handles each page of its list once, and a scan that does not run out of room in `vas`
classifies each page by its own bits; it does not if at most `MAX_VAS` addresses are to be noted. -/
theorem kscand_classifies : s.HandlesOnce bits ∧
    ((∃ t, lruKscand (.fixed bits) s = .ok ((), t) ∧ s.Classified bits t) ↔
      (s.notedPages bits).length ≤ maxVas) := by
  refine ⟨fun ks ks' k dram u _ hu => ?_, fun ⟨t, ht, _⟩ => ?_, fun hlen => ?_⟩
  · have halc : ∀ p, (s.cell [] p).Used → (s.page p).va % hugepageSize = 0 := fun p hp =>
      hal p ((mem_pagesInUse hw).2 hp)
    obtain ⟨l, hscan⟩ := (runSweeps_scanning halc (scanning_initial hw)).ok hu
    refine ⟨Sweep.run_handleEach hscan.wf fun p hp => ?_, hscan.wf.nodup_contents⟩
    have hused : (u.cell l p).Used := ⟨_, hp, k.free_source⟩
    rw [hscan.cell] at hused
    rw [LruState.page, hscan.hemem]
    exact halc p (used_sweepsOnPage.1 hused)
  · by_contra hlen
    rw [lruKscand_vanum hw hal (Nat.lt_of_not_le hlen)] at ht
    cases ht
  · have hsat := @lruKscand_scanning s bits hw hal
    rcases hr : lruKscand (.fixed bits) s with e | ⟨⟨⟩, t⟩
    · have := ((hsat.error hr).length hw).2
      omega
    · obtain ⟨l, ht⟩ := hsat.ok hr
      exact ⟨t, rfl, ht.classified hw⟩

omit hw hal in
/-- Three pages are given out, two of them mapped, and all have been accessed since the last scan. -/
theorem kscand_classifies_mapped : ∃ s t : LruState,
    (lruPolicy fourFrames Kernel.fresh).Reach (LruOp.Legal fourFrames) s ∧
      (s.notedPages fun _ => hememAccessedFlag).length = 3 ∧
      lruKscand (.fixed fun _ => hememAccessedFlag) s = .ok ((), t) ∧
      s.Classified (fun _ => hememAccessedFlag) t := by
  obtain ⟨s, hs, hP⟩ := lru_reach_run fourFrames Kernel.fresh
    [.allocate, .assign 0 hugepageSize, .allocate, .allocate, .assign 2 (2 * hugepageSize)]
    (fun s => (s.notedPages fun _ => hememAccessedFlag).length = 3) (by decide +kernel)
  have hlen := of_decide_eq_true hP
  obtain ⟨hw, hI⟩ := lru_reach hs
  obtain ⟨t, ht, hc⟩ := (@kscand_classifies s (fun _ => hememAccessedFlag) hw fun p _ =>
    (hI.each p).align).2.2 (by rw [hlen]; decide)
  exact ⟨s, t, hs, hlen, ht, hc⟩

end Scan

section Room

theorem exists_active (n : ℕ) : ∃ h : Heap LruList PageId, h.Wf ∧
    ∀ p, h.listOf p = if p < n then some .activeList else none := by
  induction n with
  | zero => exact ⟨Heap.empty, ⟨_, Rep.empty⟩, fun _ => rfl⟩
  | succ n ih =>
    obtain ⟨h, hw, hl⟩ := ih
    obtain ⟨h', -, hw', hl'⟩ := hw.enqueue (q := .activeList) ((hl n).trans (if_neg (lt_irrefl n)))
    refine ⟨h', hw', fun p => ?_⟩
    rw [hl']
    rcases eq_or_ne p n with rfl | hp
    · simp
    · have hlt : p < n + 1 ↔ p < n :=
        ⟨fun h => Nat.lt_of_le_of_ne (Nat.le_of_lt_succ h) hp, Nat.lt_succ_of_lt⟩
      rw [update_of_ne hp, hl]
      simp only [hlt]

/-- One page more is accessed than `vas` has room for. -/
theorem kscand_runs_out : ∃ s : LruState, s.fifo.Wf ∧
    (∀ p ∈ s.pagesInUse, (s.page p).va % hugepageSize = 0) ∧
    (∀ p, s.fifo.listOf p = if p < maxVas + 1 then some .activeList else none) ∧
    lruKscand (.fixed fun _ => hememAccessedFlag) s = .error .vanum := by
  obtain ⟨h, hw, hl⟩ := exists_active (maxVas + 1)
  have hal : ∀ p ∈ LruState.pagesInUse { LruState.blank Kernel.fresh with fifo := h },
      (LruState.page { LruState.blank Kernel.fresh with fifo := h } p).va % hugepageSize = 0 :=
    fun _ _ => by
      change (0 : UInt64) % hugepageSize = 0
      decide
  refine ⟨{ LruState.blank Kernel.fresh with fifo := h }, hw, hal, hl, lruKscand_vanum hw hal ?_⟩
  have hsub : List.range (maxVas + 1) ⊆ LruState.notedPages (fun _ => hememAccessedFlag)
      { LruState.blank Kernel.fresh with fifo := h } := fun p hp => by
    refine (mem_notedPages hw).2 ⟨.activeList, (hl p).trans (if_pos (List.mem_range.1 hp)), ?_⟩
    change LruList.noted (accessed hememAccessedFlag) (dirty hememAccessedFlag) 0 .activeList = true
    decide
  have hlen := (List.nodup_range.subperm hsub).length_le
  rw [List.length_range] at hlen
  exact hlen

end Room

end HeMem

import HeMem.Ring

/-!
# The ring is a bounded queue

In a well formed ring the operations act on `entries`: put appends, and drops the oldest element
of a full ring; get takes the oldest.
-/

namespace HeMem

open Function

variable {α : Type} {r : RingBuf α} {x : α}

namespace RingBuf

theorem length_entries (r : RingBuf α) : r.entries.length = r.count := by
  simp [entries]

theorem Wf.count_lt (hr : r.Wf) : r.count < r.capacity := by
  obtain ⟨_, h1, h2⟩ := hr
  unfold count
  split <;> omega

theorem Wf.wrap_lt (hr : r.Wf) {i : ℕ} (hi : i < r.capacity) : r.wrap i < r.capacity := by
  have := hr.capacity
  unfold wrap
  split <;> omega

theorem Wf.full_iff (hr : r.Wf) : ringBufFull r = true ↔ r.count = r.capacity - 1 := by
  obtain ⟨_, h1, h2⟩ := hr
  rw [ringBufFull, decide_eq_true_iff]
  unfold wrap count
  split <;> split <;> omega

theorem Wf.empty_iff (hr : r.Wf) : ringBufEmpty r = true ↔ r.entries = [] := by
  have hf := hr.full_iff
  have hc := hr.capacity
  have h1 := hr.head
  have h2 := hr.tail
  rw [← List.length_eq_zero_iff, length_entries, ringBufEmpty, Bool.and_eq_true,
    Bool.not_eq_true', decide_eq_true_iff, ← Bool.not_eq_true, hf]
  unfold count
  split <;> omega

/-- Moving `tail` on by one renames the slots. -/
theorem Wf.slot_wrap (hr : r.Wf) {r' : RingBuf α} (ht : r'.tail = r.wrap r.tail)
    (hc : r'.capacity = r.capacity) {i : ℕ} (hi : i + 1 < r.capacity) :
    r'.slot i = r.slot (i + 1) := by
  have h2 := hr.tail
  unfold slot
  rw [ht, hc]
  by_cases h : r.tail + 1 = r.capacity
  · rw [wrap, if_pos h, if_pos (by omega), if_neg (by omega)]
    omega
  · rw [wrap, if_neg h]
    split <;> split <;> omega

/-- The oldest element is the one at `tail`. -/
theorem Wf.retreat (hr : r.Wf) (hne : r.count ≠ 0) : (retreatPointer r).Wf ∧
    (retreatPointer r).count + 1 = r.count ∧
    r.entries = r.buffer r.tail :: (retreatPointer r).entries := by
  obtain ⟨n, hn⟩ := Nat.exists_eq_succ_of_ne_zero hne
  have hn' : (retreatPointer r).count = n := by
    obtain ⟨_, h1, h2⟩ := hr
    unfold count at hn ⊢
    unfold retreatPointer wrap
    split at hn <;> by_cases h : r.tail + 1 = r.capacity <;> simp only [h, if_true, if_false] <;>
      split <;> omega
  have hlt := hr.count_lt
  have h0 : r.slot 0 = r.tail := by
    simp [slot, hr.tail]
  refine ⟨⟨hr.capacity, hr.head, hr.wrap_lt hr.tail⟩, by omega, ?_⟩
  simp only [entries, hn, hn', List.range_succ_eq_map, List.map_cons, List.map_map, h0,
    List.cons.injEq, true_and]
  refine List.map_congr_left fun i hi => ?_
  have hi := List.mem_range.1 hi
  have ht : (retreatPointer r).tail = r.wrap r.tail := rfl
  have hs := hr.slot_wrap ht rfl (i := i) (by omega)
  rw [comp_apply, ← hs]
  rfl

theorem Wf.get (hr : r.Wf) :
    (r.entries = [] ∧ ringBufGet r = (none, r)) ∨
      ∃ x r', ringBufGet r = (some x, r') ∧ r'.Wf ∧ r.entries = x :: r'.entries := by
  unfold ringBufGet
  rcases he : ringBufEmpty r with _ | _
  · have hne : ¬ r.entries = [] := fun h => by simp [hr.empty_iff.2 h] at he
    have hc : r.count ≠ 0 := by rwa [← length_entries, ne_eq, List.length_eq_zero_iff]
    obtain ⟨hw, -, hl⟩ := hr.retreat hc
    exact .inr ⟨_, _, rfl, hw, hl⟩
  · exact .inl ⟨hr.empty_iff.1 he, rfl⟩

theorem Wf.map_slot_congr (hr : r.Wf) {b : ℕ → α} (hb : ∀ i, i ≠ r.head → b i = r.buffer i) :
    (List.range r.count).map (fun i => b (r.slot i)) = r.entries := by
  refine List.map_congr_left fun i hi => hb _ ?_
  have hi := List.mem_range.1 hi
  obtain ⟨_, h1, h2⟩ := hr
  unfold count at hi
  unfold slot
  split at hi <;> split <;> omega

theorem Wf.slot_count (hr : r.Wf) : r.slot r.count = r.head := by
  obtain ⟨_, h1, h2⟩ := hr
  unfold slot count
  split <;> split <;> omega

theorem Wf.put_of_not_full (hr : r.Wf) (hb : ringBufFull r = false) :
    (ringBufPut r x).Wf ∧ (ringBufPut r x).entries = r.entries ++ [x] := by
  have hne : r.count ≠ r.capacity - 1 := fun h => by simp [hr.full_iff.2 h] at hb
  have hput : ringBufPut r x =
      { r with buffer := update r.buffer r.head x, head := r.wrap r.head } := by
    have hb' : ringBufFull { r with buffer := update r.buffer r.head x } = false := hb
    rw [ringBufPut, advancePointer, hb']
    rfl
  have hc : (ringBufPut r x).count = r.count + 1 := by
    rw [hput]
    obtain ⟨hcap, h1, h2⟩ := hr
    unfold count at hne ⊢
    unfold wrap
    split at hne <;> by_cases h : r.head + 1 = r.capacity <;> simp only [h, if_true, if_false] <;>
      split <;> omega
  have hs : ∀ i, (ringBufPut r x).slot i = r.slot i := fun i => by rw [hput]; rfl
  refine ⟨by rw [hput]; exact ⟨hr.capacity, hr.wrap_lt hr.head, hr.tail⟩, ?_⟩
  rw [entries, hc, List.range_succ, List.map_append, List.map_singleton]
  simp only [hs, hr.slot_count]
  rw [hput]
  simp only [update_self]
  rw [hr.map_slot_congr fun i hi => update_of_ne hi _ _]

/-- A put appends, and first drops the oldest element of a full ring. -/
theorem Wf.put (hr : r.Wf) : (ringBufPut r x).Wf ∧ (ringBufPut r x).entries =
    (if ringBufFull r then r.entries.tail else r.entries) ++ [x] := by
  rcases hb : ringBufFull r with _ | _
  · exact hr.put_of_not_full hb
  · have hfull := hr.full_iff.1 hb
    have hcap := hr.capacity
    obtain ⟨hw, hc, he⟩ := hr.retreat (by omega)
    have hnf : ringBufFull (retreatPointer r) = false := by
      rw [← Bool.not_eq_true, hw.full_iff]
      have : (retreatPointer r).capacity = r.capacity := rfl
      omega
    have hput : ringBufPut r x = ringBufPut (retreatPointer r) x := by
      have hb' : ringBufFull { r with buffer := update r.buffer r.head x } = true := hb
      have hnf' : ringBufFull { retreatPointer r with
        buffer := update (retreatPointer r).buffer (retreatPointer r).head x } = false := hnf
      rw [ringBufPut, advancePointer, hb', ringBufPut, advancePointer, hnf']
      rfl
    rw [hput, he]
    exact hw.put_of_not_full hnf

end RingBuf

/-- A new ring is empty and keeps its capacity. -/
theorem ringBufInit_wf {b : ℕ → α} {n : ℕ} (hn : 2 ≤ n) :
    ∃ r, ringBufInit b n = some r ∧ r.Wf ∧ r.entries = [] ∧ r.capacity = n := by
  have hw : (ringBufReset ⟨b, 0, 0, n⟩ : RingBuf α).Wf := ⟨hn, by simp [ringBufReset]; omega,
    by simp [ringBufReset]; omega⟩
  have he : (ringBufReset ⟨b, 0, 0, n⟩ : RingBuf α).entries = [] := by
    simp [RingBuf.entries, RingBuf.count, ringBufReset]
  refine ⟨_, ?_, hw, he, rfl⟩
  simp only [ringBufInit]
  rw [if_pos ⟨by omega, hw.empty_iff.2 he⟩]

section Queue

open Hoare

variable {n : ℕ} {c : RingCall α} {l : List α} {buffer : ℕ → α} {cs : List (RingCall α)}

/-- The ring is well formed, has `n` slots, and `l` waits in it. -/
structure RingBuf.Queue (n : ℕ) (r : RingBuf α) (l : List α) : Prop where
  wf : r.Wf
  capacity : r.capacity = n
  entries : r.entries = l

namespace RingBuf.Queue

theorem length_lt (h : r.Queue n l) : l.length < n := by
  rw [← h.entries, length_entries, ← h.capacity]
  exact h.wf.count_lt

theorem full_iff (h : r.Queue n l) : ringBufFull r = true ↔ l.length = n - 1 := by
  rw [h.wf.full_iff, ← h.entries, length_entries, h.capacity]

theorem full_eq (h : r.Queue n l) : ringBufFull r = !decide (l.length < n - 1) := by
  have hlt := h.length_lt
  rw [Bool.eq_iff_iff, h.full_iff, Bool.not_eq_true', decide_eq_false_iff_not]
  omega

theorem put (h : r.Queue n l) :
    (ringBufPut r x).Queue n ((if l.length < n - 1 then l else l.tail) ++ [x]) := by
  obtain ⟨hw, he⟩ := h.wf.put (x := x)
  have hcap : (ringBufPut r x).capacity = r.capacity := by
    unfold ringBufPut advancePointer
    dsimp only
    split <;> rfl
  refine ⟨hw, hcap.trans h.capacity, ?_⟩
  rw [he, h.full_eq, h.entries]
  split <;> split <;> simp_all

theorem put2 (h : r.Queue n l) :
    if l.length < n - 1 then
      ∃ r', ringBufPut2 r x = (0, r') ∧ r'.Queue n (l ++ [x])
    else ringBufPut2 r x = (-1, r) := by
  have hfull := h.full_eq
  unfold ringBufPut2
  split
  · rename_i hl
    have hput := h.put (x := x)
    rw [if_pos hl] at hput
    rw [if_pos (by simp [hfull, hl])]
    exact ⟨_, rfl, hput⟩
  · rename_i hl
    rw [if_neg (by simp [hfull, hl])]

theorem get (h : r.Queue n l) :
    (ringBufGet r).1 = l.head? ∧ (ringBufGet r).2.Queue n l.tail := by
  rcases h.wf.get with ⟨he, hr⟩ | ⟨y, r', hr, hw, he⟩
  · rw [hr, ← h.entries, he]
    exact ⟨rfl, h.wf, h.capacity, he⟩
  · have hcap : (ringBufGet r).2.capacity = r.capacity := by
      unfold ringBufGet
      split <;> rfl
    rw [hr] at hcap ⊢
    rw [← h.entries, he]
    exact ⟨rfl, hw, hcap.trans h.capacity, rfl⟩

theorem reset (h : r.Queue n l) : (ringBufReset r).Queue n [] := by
  have hcap := h.wf.capacity
  have hpos : 0 < r.capacity := Nat.lt_of_lt_of_le (by decide) hcap
  refine ⟨⟨hcap, hpos, hpos⟩, h.capacity, ?_⟩
  simp [RingBuf.entries, count, ringBufReset]

theorem call (h : r.Queue n l) : Sat c.run
    (fun o r' => o = (c.effect n l).1 ∧ r'.Queue n (c.effect n l).2) (fun _ => False) r := by
  cases c with
  | put data => exact ⟨rfl, h.put⟩
  | put2 data =>
    have hput := h.put2 (x := data)
    change RingOut.status (ringBufPut2 r data).1 = ((RingCall.put2 data).effect n l).1 ∧
      RingBuf.Queue n (ringBufPut2 r data).2 ((RingCall.put2 data).effect n l).2
    by_cases hl : l.length < n - 1
    · rw [if_pos hl] at hput
      obtain ⟨r', hr, hq⟩ := hput
      rw [hr, RingCall.effect, if_pos hl]
      exact ⟨rfl, hq⟩
    · rw [if_neg hl] at hput
      rw [hput, RingCall.effect, if_neg hl]
      exact ⟨rfl, h⟩
  | get => exact ⟨congrArg _ h.get.1, h.get.2⟩
  | reset => exact ⟨rfl, h.reset⟩

/-- Gets return what waits. -/
theorem gets (h : r.Queue n l) {k : ℕ} : Gets r k ↔ k = l.length := by
  induction l generalizing r k with
  | nil =>
    have hg := h.get.1
    refine ⟨fun hk => ?_, fun hk => hk ▸ .empty hg⟩
    cases hk with
    | empty => rfl
    | next hx => rw [hg] at hx; cases hx
  | cons y l ih =>
    obtain ⟨hg, hq⟩ := h.get
    constructor
    · intro hk
      cases hk with
      | empty hx => rw [hg] at hx; cases hx
      | next _ hn => rw [(ih hq).1 hn, List.length_cons]
    · rintro rfl
      exact .next hg ((ih hq).2 rfl)

end RingBuf.Queue

theorem ring_calls_queue (hn : 2 ≤ n) (buffer : ℕ → α) (cs : List (RingCall α)) :
    ∃ r₀ r, ringBufInit buffer n = some r₀ ∧
      Refine.calls RingCall.run cs r₀ = .ok ((Refine.effects (RingCall.effect n) cs []).1, r) ∧
      r.Queue n (Refine.effects (RingCall.effect n) cs []).2 := by
  obtain ⟨r₀, h₀, hw, he, hcap⟩ := ringBufInit_wf (b := buffer) hn
  have hcall : ∀ (c : RingCall α) (r : RingBuf α) (l : List α), r.Queue n l → True →
      Sat c.run (fun o r' => o = (c.effect n l).1 ∧ r'.Queue n (c.effect n l).2)
        (fun _ => False) r := fun _ _ _ h _ => h.call
  have hallowed : ∀ (cs : List (RingCall α)) (l : List α),
      Refine.Allowed (RingCall.effect n) (fun _ _ => True) cs l := fun cs => by
    induction cs with
    | nil => exact fun _ => trivial
    | cons c cs ih => exact fun _ => ⟨trivial, ih _⟩
  obtain ⟨r, hr, hq⟩ := Refine.calls_refine hcall ⟨hw, hcap, he⟩ (hallowed cs [])
  exact ⟨r₀, r, h₀, hr, hq⟩

/-- A new ring of `n` slots is a queue of at most `n - 1` elements through any calls. -/
theorem ring_is_queue (hn : 2 ≤ n) (buffer : ℕ → α) (cs : List (RingCall α)) :
    ∃ r₀ r, ringBufInit buffer n = some r₀ ∧
      Refine.calls RingCall.run cs r₀ = .ok ((Refine.effects (RingCall.effect n) cs []).1, r) ∧
      let l := (Refine.effects (RingCall.effect n) cs []).2
      l.length ≤ n - 1 ∧ (ringBufEmpty r = true ↔ l.length = 0) ∧
      (ringBufFull r = true ↔ l.length = n - 1) ∧
      (ringBufFull r = true → ∀ x, ringBufPut2 r x = (-1, r)) ∧ r.head < n ∧ r.tail < n := by
  obtain ⟨r₀, r, h₀, hr, hq⟩ := ring_calls_queue hn buffer cs
  refine ⟨r₀, r, h₀, hr, ?_, ?_, hq.full_iff, fun hf x => ?_, ?_, ?_⟩
  · exact Nat.le_sub_one_of_lt hq.length_lt
  · rw [hq.wf.empty_iff, hq.entries, List.length_eq_zero_iff]
  · have hput := hq.put2 (x := x)
    rwa [if_neg (by rw [hq.full_iff.1 hf]; exact Nat.lt_irrefl _)] at hput
  · exact hq.capacity ▸ hq.wf.head
  · exact hq.capacity ▸ hq.wf.tail

/-- In a ring of three slots the third put drops the first element. -/
theorem ring_is_queue_three : ∃ r₀ r, ringBufInit (fun _ => 0) 3 = some r₀ ∧
    Refine.calls RingCall.run [.put 1, .put 2, .put2 3, .put 4, .get] r₀ =
      .ok ([.none, .none, .status (-1), .none, .item (some 2)], r) := by
  obtain ⟨r₀, r, h₀, hr, -⟩ := ring_is_queue (by decide : 2 ≤ 3) (fun _ => 0)
    [.put 1, .put 2, .put2 3, .put 4, .get]
  exact ⟨r₀, r, h₀, hr⟩

/-- `ring_buf_size` is the number of elements to be got unless the ring is full. -/
theorem ring_size_counts_iff {r₀ r : RingBuf α} {os : List (RingOut α)} (hn : 2 ≤ n)
    (h₀ : ringBufInit buffer n = some r₀) (hr : Refine.calls RingCall.run cs r₀ = .ok (os, r)) :
    Gets r (ringBufSize r) ↔ ringBufFull r = false := by
  obtain ⟨r₀', r', h₀', hr', hq⟩ := ring_calls_queue hn buffer cs
  obtain rfl : r₀ = r₀' := Option.some.inj (h₀.symm.trans h₀')
  obtain ⟨-, rfl⟩ := Prod.mk.inj (Except.ok.inj (hr.symm.trans hr'))
  have hlen : (Refine.effects (RingCall.effect n) cs []).2.length = r.count := by
    rw [← hq.entries, RingBuf.length_entries]
  have hlt := hq.wf.count_lt
  rw [hq.gets, hlen]
  unfold ringBufSize
  cases hf : ringBufFull r with
  | true =>
    simp only [Bool.not_true, Bool.false_eq_true, Bool.true_eq_false, if_false, iff_false]
    exact Nat.ne_of_gt hlt
  | false => simp [RingBuf.count]

/-- One of two slots is taken. -/
theorem ring_size_counts_one : ∃ r₀ r os, ringBufInit (fun _ => 0) 3 = some r₀ ∧
    Refine.calls RingCall.run [.put 1] r₀ = .ok (os, r) ∧ Gets r (ringBufSize r) := by
  obtain ⟨r₀, r, h₀, hr, hq⟩ := ring_calls_queue (by decide : 2 ≤ 3) (fun _ => 0) [.put 1]
  refine ⟨r₀, r, _, h₀, hr, (ring_size_counts_iff (by decide) h₀ hr).2 ?_⟩
  rw [← Bool.not_eq_true, hq.full_iff]
  decide

/-- The only slot is taken: the size is two. -/
theorem ring_size_miscounts : ∃ r₀ r os, ringBufInit (fun _ => 0) 2 = some r₀ ∧
    Refine.calls RingCall.run [.put 1] r₀ = .ok (os, r) ∧ ringBufSize r = 2 ∧ Gets r 1 ∧
      ¬ Gets r (ringBufSize r) := by
  refine ⟨_, _, _, rfl, rfl, rfl, ?_, ?_⟩
  · exact .next rfl (.empty rfl)
  · rintro (_ | ⟨-, _ | ⟨hx, -⟩⟩)
    cases hx

end Queue

end HeMem

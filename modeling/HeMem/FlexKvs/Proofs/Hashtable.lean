import HeMem.FlexKvs.Hashtable
import HeMem.Lib.Linked
import Mathlib.Data.List.Perm.Subperm
import Mathlib.Data.List.Nodup
import Mathlib.Tactic.SplitIfs

/-!
# What the hash table holds

Each of the five items of a bucket starts a list, of at most one item but for the last.  No item is
on two of the lists, and no two have the same hash and the same key.
-/

namespace FlexKvs

open Function

/-- All but the links and the counts. -/
def Item.Same (a b : Item) : Prop :=
  a.hv = b.hv ∧ a.key = b.key ∧ a.value = b.value ∧ a.room = b.room

theorem Item.Same.trans {a b c : Item} (h : a.Same b) (h' : b.Same c) : a.Same c :=
  ⟨h.1.trans h'.1, h.2.1.trans h'.2.1, h.2.2.1.trans h'.2.2.1, h.2.2.2.trans h'.2.2.2⟩

namespace Hasht

def nextOf (s : Hasht) (x : ℕ) : Option ℕ := (s.item x).next

/-- The item is on one of the lists. -/
def On (L : ℕ → Fin 5 → List ℕ) (x : ℕ) : Prop := ∃ n i, x ∈ L n i

structure Wf (nbuckets : ℕ) (s : Hasht) (L : ℕ → Fin 5 → List ℕ) : Prop where
  linked : ∀ n i, Linked s.nextOf ((s.buckets n).items i) (L n i)
  short : ∀ n i, i ≠ 4 → (L n i).length ≤ 1
  nodup : ∀ n i, (L n i).Nodup
  apart : ∀ {n i m j x}, x ∈ L n i → x ∈ L m j → n = m ∧ i = j
  hash : ∀ {n i x}, (s.buckets n).items i = some x → (s.buckets n).hashes i = (s.item x).hv
  bucket : ∀ {n i x}, x ∈ L n i → (s.item x).hv.toNat % nbuckets = n
  unique : ∀ {x y}, On L x → On L y → (s.item x).hv = (s.item y).hv →
    (s.item x).key = (s.item y).key → x = y
  live : ∀ {x}, On L x → x ∈ s.live

variable {nbuckets : ℕ} {s s' t : Hasht} {L : ℕ → Fin 5 → List ℕ} {n x y nit : ℕ} {i : Fin 5}
  {key : List UInt8} {hv : UInt32} {old cas : Option ℕ}

namespace Wf

theorem mem_slot (h : Wf nbuckets s L) (hx : (s.buckets n).items i = some x) : x ∈ L n i := by
  have hstart := (h.linked n i).start
  rw [hx] at hstart
  exact List.mem_of_mem_head? hstart.symm

theorem holds_of_linked (p : Option ℕ) (l : List ℕ) (h : Linked s.nextOf p l)
    (hp : ∀ x, p = some x → s.Holds x) : ∀ x ∈ l, s.Holds x := by
  induction l generalizing p with
  | nil => simp
  | cons y l ih =>
    have hy := hp y h.1
    intro x hx
    rcases List.mem_cons.1 hx with rfl | hx
    · exact hy
    · exact ih _ h.2 (fun z hz => .next hy hz) x hx

theorem holds_iff (h : Wf nbuckets s L) : s.Holds x ↔ On L x := by
  constructor
  · intro hx
    induction hx with
    | slot hx => exact ⟨_, _, h.mem_slot hx⟩
    | next _ hn ih =>
      obtain ⟨n, i, hx⟩ := ih
      exact ⟨n, i, (h.linked n i).next_mem hx hn⟩
  · rintro ⟨n, i, hx⟩
    exact holds_of_linked _ _ (h.linked n i) (fun y hy => .slot hy) x hx

/-- What the table holds is told by the links, the hashes and the keys of its items. -/
theorem congr (h : Wf nbuckets s L) (hb : t.buckets = s.buckets)
    (hitem : ∀ x, On L x → (t.item x).next = (s.item x).next ∧ (t.item x).hv = (s.item x).hv ∧
      (t.item x).key = (s.item x).key) (hl : ∀ x, On L x → x ∈ t.live) : Wf nbuckets t L where
  linked n i := by
    rw [hb]
    exact (h.linked n i).congr fun x hx => (hitem x ⟨n, i, hx⟩).1
  short := h.short
  nodup := h.nodup
  apart := h.apart
  hash hx := by
    rw [hb] at hx ⊢
    rw [h.hash hx, (hitem _ ⟨_, _, h.mem_slot hx⟩).2.1]
  bucket hx := by
    rw [(hitem _ ⟨_, _, hx⟩).2.1]
    exact h.bucket hx
  unique hx hy hhv hkey := by
    rw [(hitem _ hx).2.1, (hitem _ hy).2.1] at hhv
    rw [(hitem _ hx).2.2, (hitem _ hy).2.2] at hkey
    exact h.unique hx hy hhv hkey
  live hx := hl _ hx

end Wf

section Search

theorem slot_some {b : HashBucket} (h : s.slot key hv b = some (i, x)) :
    b.items i = some x ∧ b.hashes i = hv ∧ (s.item x).key = key := by
  obtain ⟨j, -, hj⟩ := List.exists_of_findSome?_eq_some h
  obtain ⟨y, hy, hf⟩ := Option.bind_eq_some_iff.1 hj
  split at hf
  · rename_i hm
    cases hf
    exact ⟨hy, hm.1, by simpa [Item.itemKeyMatches] using hm.2⟩
  · cases hf

theorem slot_none {b : HashBucket} (h : s.slot key hv b = none) (hx : b.items i = some x)
    (hi : b.hashes i = hv) : (s.item x).key ≠ key := by
  have hf := List.findSome?_eq_none_iff.1 h i (List.mem_finRange i)
  rw [hx, Option.bind_some] at hf
  intro hk
  rw [if_pos ⟨hi, by simp [Item.itemKeyMatches, hk]⟩] at hf
  cases hf

/-- The item has the hash and the key. -/
def Matches (s : Hasht) (key : List UInt8) (hv : UInt32) (x : ℕ) : Prop :=
  (s.item x).hv = hv ∧ (s.item x).key = key

theorem itemHkeyMatches_iff : (s.item x).itemHkeyMatches key hv = true ↔ s.Matches key hv x := by
  simp [Item.itemHkeyMatches, Item.itemKeyMatches, Matches]

theorem chain_spec (key : List UInt8) (hv : UInt32) (l : List ℕ) : ∀ (k prev : ℕ) (p : Option ℕ), Linked s.nextOf p l →
    l.length < k →
    (∃ q, s.chain key hv k prev p = .ok (q, none) ∧ ∀ x ∈ l, ¬ s.Matches key hv x) ∨
    ∃ l₁ q x r, prev :: l = l₁ ++ q :: x :: r ∧ s.Matches key hv x ∧
      s.chain key hv k prev p = .ok (q, some x) := by
  induction l with
  | nil =>
    intro k prev p h hk
    obtain ⟨k, rfl⟩ := Nat.exists_eq_succ_of_ne_zero (Nat.ne_zero_of_lt hk)
    obtain rfl : p = none := h
    exact .inl ⟨prev, rfl, by simp⟩
  | cons y l ih =>
    intro k prev p h hk
    obtain ⟨k, rfl⟩ := Nat.exists_eq_succ_of_ne_zero (Nat.ne_zero_of_lt hk)
    obtain ⟨rfl, hl⟩ := h
    by_cases hm : s.Matches key hv y
    · refine .inr ⟨[], prev, y, l, rfl, hm, ?_⟩
      unfold chain
      rw [if_pos (itemHkeyMatches_iff.2 hm)]
    · have hstep : s.chain key hv (k + 1) prev (some y) = s.chain key hv k y (s.nextOf y) := by
        conv_lhs => unfold chain
        rw [if_neg (mt itemHkeyMatches_iff.1 hm)]
        rfl
      rw [hstep]
      rcases ih k y _ hl (by simpa using hk) with ⟨q, he, hno⟩ | ⟨l₁, q, x, r, he, hx, hc⟩
      · refine .inl ⟨q, he, fun x hx => ?_⟩
        rcases List.mem_cons.1 hx with rfl | hx
        · exact hm
        · exact hno x hx
      · exact .inr ⟨prev :: l₁, q, x, r, by rw [he, List.cons_append], hx, hc⟩

theorem Wf.overflow_spec (h : Wf nbuckets s L) (key : List UInt8) (hv : UInt32) (n : ℕ) :
    (s.overflow key hv (s.buckets n) = .ok none ∧ ∀ x ∈ (L n 4).tail, ¬ s.Matches key hv x) ∨
    ∃ l q x r, L n 4 = l ++ q :: x :: r ∧ s.Matches key hv x ∧
      s.overflow key hv (s.buckets n) = .ok (some (q, x)) := by
  have hl := h.linked n 4
  unfold overflow
  rcases hL : L n 4 with _ | ⟨head, l⟩
  · rw [hL] at hl
    rw [show (s.buckets n).items 4 = none from hl]
    exact .inl ⟨rfl, by simp⟩
  · have hlen : l.length < s.live.length + 1 := by
      have hsub : L n 4 ⊆ s.live := fun x hx => h.live ⟨n, 4, hx⟩
      have hle := (List.subperm_of_subset (h.nodup n 4) hsub).length_le
      rw [hL, List.length_cons] at hle
      omega
    rw [hL] at hl
    rw [hl.1]
    rcases chain_spec key hv l _ head _ hl.2 hlen with
      ⟨q, he, hno⟩ | ⟨l₁, q, x, r, he, hx, hc⟩
    · refine .inl ⟨?_, by simpa using hno⟩
      change Except.map _ (s.chain key hv _ head (s.nextOf head)) = _
      rw [he]
      rfl
    · refine .inr ⟨l₁, q, x, r, he, hx, ?_⟩
      change Except.map _ (s.chain key hv _ head (s.nextOf head)) = _
      rw [hc]
      rfl

/-- An item on the lists that no slot has is past the last slot. -/
theorem Wf.past (h : Wf nbuckets s L) (hs : s.slot key hv (s.buckets (hv.toNat % nbuckets)) = none)
    (hx : On L x) (hm : s.Matches key hv x) : x ∈ (L (hv.toNat % nbuckets) 4).tail := by
  obtain ⟨n, i, hx⟩ := hx
  obtain rfl : n = hv.toNat % nbuckets := by rw [← h.bucket hx, hm.1]
  have hnoslot : ∀ j, (s.buckets (hv.toNat % nbuckets)).items j ≠ some x := fun j hj =>
    slot_none hs hj ((h.hash hj).trans hm.1) hm.2
  have hstart := (h.linked (hv.toNat % nbuckets) i).start
  rcases hL : L (hv.toNat % nbuckets) i with _ | ⟨y, l⟩
  · rw [hL] at hx
    cases hx
  · rw [hL] at hx hstart
    have hyx : y ≠ x := fun hyx => hnoslot i (by rw [hstart, hyx]; rfl)
    have hxl : x ∈ l := (List.mem_cons.1 hx).resolve_left hyx.symm
    have hi : i = 4 := by
      by_contra hi
      have hlen := h.short (hv.toNat % nbuckets) i hi
      rw [hL, List.length_cons] at hlen
      have : l.length ≠ 0 := (List.length_pos_of_mem hxl).ne'
      omega
    rw [← hi, hL]
    exact hxl

theorem Wf.find_spec (h : Wf nbuckets s L) (key : List UInt8) (hv : UInt32) :
    ∃ r, s.find key hv nbuckets = .ok r ∧ ∀ x, r = some x ↔ On L x ∧ s.Matches key hv x := by
  have huniq : ∀ {x y}, On L x → s.Matches key hv x → On L y ∧ s.Matches key hv y → x = y :=
    fun hx hm hy => h.unique hx hy.1 (hm.1.trans hy.2.1.symm) (hm.2.trans hy.2.2.symm)
  have hsome : ∀ {x}, On L x → s.Matches key hv x →
      ∀ y, some x = some y ↔ On L y ∧ s.Matches key hv y := fun hx hm y =>
    ⟨fun he => Option.some.inj he ▸ ⟨hx, hm⟩, fun hy => congrArg some (huniq hx hm hy)⟩
  unfold find
  rcases hs : s.slot key hv (s.buckets (hv.toNat % nbuckets)) with _ | ⟨i, x⟩
  · rcases h.overflow_spec key hv (hv.toNat % nbuckets) with
      ⟨he, hno⟩ | ⟨l, q, x, r, hL, hx, he⟩
    · refine ⟨none, by simp only [hs, he]; rfl, fun x => ⟨nofun, fun hx => ?_⟩⟩
      exact absurd hx.2 (hno x (h.past hs hx.1 hx.2))
    · refine ⟨some x, by simp only [hs, he]; rfl, hsome ⟨hv.toNat % nbuckets, 4, ?_⟩ hx⟩
      rw [hL]
      simp
  · obtain ⟨hi, hh, hk⟩ := slot_some hs
    exact ⟨some x, by simp only [hs], hsome ⟨_, i, h.mem_slot hi⟩ ⟨(h.hash hi).symm.trans hh, hk⟩⟩

end Search

section Put

@[simp] theorem edit_item (f : Item → Item) :
    (s.edit x f).item = update s.item x (f (s.item x)) := rfl

@[simp] theorem setItem_item (p : Option ℕ) : (s.setItem n i p).item = s.item := rfl

@[simp] theorem setHash_item : (s.setHash n i hv).item = s.item := rfl

theorem itemRef_nextOf : (s.itemRef x).nextOf = s.nextOf := by
  funext y
  by_cases hy : y = x
  · simp [nextOf, itemRef, hy]
  · simp [nextOf, itemRef, hy]

theorem setNext_nextOf (p : Option ℕ) : (s.setNext x p).nextOf = update s.nextOf x p := by
  funext y
  by_cases hy : y = x
  · simp [nextOf, setNext, hy]
  · simp [nextOf, setNext, hy]

/-- `L` with another list at a slot. -/
def putList (L : ℕ → Fin 5 → List ℕ) (n : ℕ) (i : Fin 5) (l : List ℕ) : ℕ → Fin 5 → List ℕ :=
  update L n (update (L n) i l)

theorem putList_self (l : List ℕ) : putList L n i l n i = l := by simp [putList]

theorem putList_of_ne {m : ℕ} {j : Fin 5} (l : List ℕ) (h : ¬ (m = n ∧ j = i)) :
    putList L n i l m j = L m j := by
  unfold putList
  by_cases hm : m = n
  · subst hm
    rw [update_self, update_of_ne fun hj => h ⟨rfl, hj⟩]
  · rw [update_of_ne hm]

variable {l r : List ℕ}

theorem on_putList (hL : L n i = l ++ old.toList ++ r) (hd : ∀ n i, (L n i).Nodup)
    (ha : ∀ {n i m j x}, x ∈ L n i → x ∈ L m j → n = m ∧ i = j) :
    On (putList L n i (l ++ nit :: r)) y ↔ y = nit ∨ On L y ∧ old ≠ some y := by
  have hold : ∀ x, old = some x → x ∉ l ∧ x ∉ r := by
    rintro x rfl
    have hn := hd n i
    rw [hL] at hn
    simp only [Option.toList_some, List.append_assoc, List.singleton_append] at hn
    rw [List.nodup_append] at hn
    exact ⟨fun hx => hn.2.2 x hx x (by simp) rfl, (List.nodup_cons.1 hn.2.1).1⟩
  have hmem : y ∈ L n i ↔ y ∈ l ∨ old = some y ∨ y ∈ r := by
    rw [hL]
    cases old <;> simp [eq_comm]
  constructor
  · rintro ⟨m, j, hy⟩
    by_cases hmj : m = n ∧ j = i
    · obtain ⟨rfl, rfl⟩ := hmj
      rw [putList_self, List.mem_append, List.mem_cons] at hy
      rcases hy with hy | rfl | hy
      · exact .inr ⟨⟨m, j, hmem.2 (.inl hy)⟩, fun ho => (hold y ho).1 hy⟩
      · exact .inl rfl
      · exact .inr ⟨⟨m, j, hmem.2 (.inr (.inr hy))⟩, fun ho => (hold y ho).2 hy⟩
    · rw [putList_of_ne _ hmj] at hy
      refine .inr ⟨⟨m, j, hy⟩, fun ho => hmj ?_⟩
      exact ha hy (hmem.2 (.inr (.inl ho)))
  · rintro (rfl | ⟨⟨m, j, hy⟩, ho⟩)
    · exact ⟨n, i, by rw [putList_self]; simp⟩
    · by_cases hmj : m = n ∧ j = i
      · obtain ⟨rfl, rfl⟩ := hmj
        refine ⟨m, j, ?_⟩
        rw [putList_self, List.mem_append, List.mem_cons]
        rcases hmem.1 hy with hy | hy | hy
        · exact .inl hy
        · exact absurd hy ho
        · exact .inr (.inr hy)
      · exact ⟨m, j, by rwa [putList_of_ne _ hmj]⟩

/-- An item takes the place of `old`, or is added, on the list of a slot. -/
theorem Wf.put (h : Wf nbuckets s L) (hnit : ¬ On L nit) (hL : L n i = l ++ old.toList ++ r)
    (hold : ∀ y, On L y → s.Matches (s.item nit).key (s.item nit).hv y → old = some y)
    (hn : (s.item nit).hv.toNat % nbuckets = n) (hshort : i ≠ 4 → l = [] ∧ r = [])
    (hitems : ∀ m j, ¬ (m = n ∧ j = i) → (t.buckets m).items j = (s.buckets m).items j ∧
      (t.buckets m).hashes j = (s.buckets m).hashes j)
    (hlink : Linked t.nextOf ((t.buckets n).items i) (l ++ nit :: r))
    (hhash : ∀ x, (t.buckets n).items i = some x → (t.buckets n).hashes i = (s.item x).hv)
    (hnext : ∀ y, y ≠ nit → y ∉ L n i → t.nextOf y = s.nextOf y)
    (hitem : ∀ y, (t.item y).hv = (s.item y).hv ∧ (t.item y).key = (s.item y).key)
    (hlive : ∀ y, On L y → old ≠ some y → y ∈ t.live) (hlnit : nit ∈ t.live) :
    Wf nbuckets t (putList L n i (l ++ nit :: r)) := by
  have hon : ∀ {y}, On (putList L n i (l ++ nit :: r)) y ↔ y = nit ∨ On L y ∧ old ≠ some y :=
    on_putList hL h.nodup h.apart
  have hsub : ∀ {y}, y ∈ l ++ nit :: r → y = nit ∨ y ∈ L n i := by
    intro y hy
    rw [hL]
    rcases List.mem_append.1 hy with hy | hy
    · exact .inr (by simp [hy])
    · exact (List.mem_cons.1 hy).imp id fun hy => by simp [hy]
  have hmem : ∀ {m j y}, y ∈ putList L n i (l ++ nit :: r) m j →
      y = nit ∧ m = n ∧ j = i ∨ y ∈ L m j := by
    intro m j y hy
    by_cases hmj : m = n ∧ j = i
    · obtain ⟨rfl, rfl⟩ := hmj
      rw [putList_self] at hy
      exact (hsub hy).imp (⟨·, rfl, rfl⟩) id
    · rw [putList_of_ne _ hmj] at hy
      exact .inr hy
  have hclash : ∀ {y}, On L y → old ≠ some y → (s.item nit).hv = (s.item y).hv →
      (s.item nit).key = (s.item y).key → False := fun hy ho hhv hk =>
    ho (hold _ hy ⟨hhv.symm, hk.symm⟩)
  refine ⟨fun m j => ?_, fun m j hj => ?_, fun m j => ?_, fun hx hy => ?_, fun {m j x} hx => ?_,
    fun hx => ?_, fun hx hy hhv hk => ?_, fun hx => ?_⟩
  · by_cases hmj : m = n ∧ j = i
    · obtain ⟨rfl, rfl⟩ := hmj
      rwa [putList_self]
    · rw [putList_of_ne _ hmj, (hitems m j hmj).1]
      refine (h.linked m j).congr fun y hy => hnext y ?_ fun hy' => hmj (h.apart hy hy')
      rintro rfl
      exact hnit ⟨m, j, hy⟩
  · by_cases hmj : m = n ∧ j = i
    · obtain ⟨rfl, rfl⟩ := hmj
      rw [putList_self, (hshort hj).1, (hshort hj).2]
      simp
    · rw [putList_of_ne _ hmj]
      exact h.short m j hj
  · by_cases hmj : m = n ∧ j = i
    · obtain ⟨rfl, rfl⟩ := hmj
      have hd := h.nodup m j
      have hno : nit ∉ l ∧ nit ∉ r := by
        constructor <;> intro hx <;> exact hnit ⟨m, j, by rw [hL]; simp [hx]⟩
      rw [hL, List.append_assoc, List.nodup_append] at hd
      obtain ⟨hl, hr, hlr⟩ := hd
      rw [putList_self, List.nodup_append]
      refine ⟨hl, List.nodup_cons.2 ⟨hno.2, (List.nodup_append.1 hr).2.1⟩, fun a ha b hb => ?_⟩
      rcases List.mem_cons.1 hb with rfl | hb
      · rintro rfl
        exact hno.1 ha
      · exact hlr a ha b (by simp [hb])
    · rw [putList_of_ne _ hmj]
      exact h.nodup m j
  · rcases hmem hx with ⟨rfl, rfl, rfl⟩ | hx'
    · rcases hmem hy with ⟨-, rfl, rfl⟩ | hy'
      · exact ⟨rfl, rfl⟩
      · exact absurd ⟨_, _, hy'⟩ hnit
    · rcases hmem hy with ⟨rfl, -, -⟩ | hy'
      · exact absurd ⟨_, _, hx'⟩ hnit
      · exact h.apart hx' hy'
  · rw [(hitem x).1]
    by_cases hmj : m = n ∧ j = i
    · obtain ⟨rfl, rfl⟩ := hmj
      exact hhash x hx
    · rw [(hitems m j hmj).1] at hx
      rw [(hitems m j hmj).2]
      exact h.hash hx
  · rw [(hitem _).1]
    rcases hmem hx with ⟨rfl, rfl, -⟩ | hx
    · exact hn
    · exact h.bucket hx
  · rw [(hitem _).1, (hitem _).1] at hhv
    rw [(hitem _).2, (hitem _).2] at hk
    rcases hon.1 hx with rfl | ⟨hx', hox⟩
    · rcases hon.1 hy with rfl | ⟨hy', hoy⟩
      · rfl
      · exact (hclash hy' hoy hhv hk).elim
    · rcases hon.1 hy with rfl | ⟨hy', hoy⟩
      · exact (hclash hx' hox hhv.symm hk.symm).elim
      · exact h.unique hx' hy' hhv hk
  · rcases hon.1 hx with rfl | ⟨hx, hox⟩
    · exact hlnit
    · exact hlive _ hx hox

/-- What `item_unref` leaves behind. -/
def unref (s : Hasht) (x : ℕ) : Hasht :=
  { s.edit x fun it => { it with refcount := it.refcount - 1 } with
    live := if (s.item x).refcount = 1 then s.live.erase x else s.live }

theorem itemUnref_eq (h : (s.item x).refcount ≠ 0) : s.itemUnref x = .ok (s.unref x) := by
  have hone : (s.item x).refcount - 1 = 0 ↔ (s.item x).refcount = 1 := by
    refine ⟨fun hc => ?_, fun hc => by rw [hc]; rfl⟩
    rw [← UInt16.sub_add_cancel (s.item x).refcount 1, hc]
    rfl
  unfold itemUnref unref
  rw [if_neg h]
  simp only [edit_item, update_self, hone]
  split <;> rfl

theorem unref_nextOf : (s.unref x).nextOf = s.nextOf := by
  funext y
  by_cases hy : y = x <;> simp [nextOf, unref, hy]

theorem same_unref : ((s.unref x).item y).Same (s.item y) := by
  by_cases hy : y = x
  · subst hy
    simp [unref, Item.Same]
  · simp [unref, Item.Same, hy]

/-- `nit` is put in the table, in the place of `old` if there is one. -/
structure Replaced (s t : Hasht) (nit : ℕ) (old : Option ℕ) : Prop where
  same : ∀ y, (t.item y).Same (s.item y)
  refs : ∀ y, (t.item y).refcount = if y = nit then (s.item y).refcount + 1
    else if old = some y then (s.item y).refcount - 1 else (s.item y).refcount
  live : t.live = match old with
    | some x => if (s.item x).refcount = 1 then s.live.erase x else s.live
    | none => s.live

/-- Before the last `item_unref`. -/
theorem Wf.unref (h : Wf nbuckets t L) (hx : ¬ On L x) : Wf nbuckets (t.unref x) L :=
  h.congr rfl (fun y _ => ⟨congrFun unref_nextOf y, same_unref.1, same_unref.2.1⟩) fun y hy => by
    have hyx : y ≠ x := fun hyx => hx (hyx ▸ hy)
    unfold Hasht.unref
    dsimp only
    split
    · exact (List.mem_erase_of_ne hyx).2 (h.live hy)
    · exact h.live hy

theorem itemRef_same : ((s.itemRef x).item y).Same (s.item y) := by
  by_cases hy : y = x
  · subst hy
    simp [itemRef, Item.Same]
  · simp [itemRef, Item.Same, hy]

theorem setNext_same {p : Option ℕ} : ((s.setNext x p).item y).Same (s.item y) := by
  by_cases hy : y = x
  · subst hy
    simp [setNext, Item.Same]
  · simp [setNext, Item.Same, hy]

theorem setNext_refcount {p : Option ℕ} :
    ((s.setNext x p).item y).refcount = (s.item y).refcount := by
  by_cases hy : y = x
  · subst hy
    simp [setNext]
  · simp [setNext, hy]

theorem itemRef_refcount : ((s.itemRef x).item y).refcount =
    if y = x then (s.item y).refcount + 1 else (s.item y).refcount := by
  by_cases hy : y = x
  · subst hy
    simp [itemRef]
  · simp [itemRef, hy]

theorem unref_refcount : ((s.unref x).item y).refcount =
    if y = x then (s.item y).refcount - 1 else (s.item y).refcount := by
  by_cases hy : y = x
  · subst hy
    simp [unref]
  · simp [unref, hy]

/-- A table that differs from `s` in `nit`'s count and in links loses the entry for `x`. -/
theorem Replaced.of_unref (hnx : nit ≠ x) (hsame : ∀ y, (t.item y).Same (s.item y))
    (href : ∀ y, (t.item y).refcount =
      if y = nit then (s.item y).refcount + 1 else (s.item y).refcount)
    (hl : t.live = s.live) : Replaced s (t.unref x) nit (some x) where
  same y := same_unref.trans (hsame y)
  refs y := by
    rw [unref_refcount, href]
    by_cases hy : y = nit
    · rw [if_neg (hy ▸ hnx), if_pos hy, if_pos hy]
    · rw [if_neg hy, if_neg hy]
      by_cases hyx : y = x
      · rw [if_pos hyx, if_pos (by rw [hyx])]
      · rw [if_neg hyx, if_neg fun h => hyx (Option.some.inj h).symm]
  live := by
    change (if (t.item x).refcount = 1 then t.live.erase x else t.live) = _
    rw [href, if_neg hnx.symm, hl]

theorem direct_spec (b : HashBucket) : b.items (direct b) = none ∨ direct b = 4 := by
  unfold direct
  rcases hf : (List.finRange 5).reverse.find? fun i => (b.items i).isNone with _ | i
  · exact .inr rfl
  · exact .inl (by simpa using List.find?_some hf)

theorem setItem_items (p : Option ℕ) {m : ℕ} {j : Fin 5} (h : ¬ (m = n ∧ j = i)) :
    ((s.setItem n i p).buckets m).items j = (s.buckets m).items j := by
  by_cases hm : m = n
  · subst hm
    simp [setItem, show j ≠ i from fun hj => h ⟨rfl, hj⟩]
  · simp [setItem, hm]

theorem setItem_hashes (p : Option ℕ) (m : ℕ) :
    ((s.setItem n i p).buckets m).hashes = (s.buckets m).hashes := by
  by_cases hm : m = n
  · subst hm
    simp [setItem]
  · simp [setItem, hm]

theorem setHash_items (m : ℕ) :
    ((s.setHash n i hv).buckets m).items = (s.buckets m).items := by
  by_cases hm : m = n
  · subst hm
    simp [setHash]
  · simp [setHash, hm]

theorem setHash_hashes {m : ℕ} {j : Fin 5} (h : ¬ (m = n ∧ j = i)) :
    ((s.setHash n i hv).buckets m).hashes j = (s.buckets m).hashes j := by
  by_cases hm : m = n
  · subst hm
    simp [setHash, show j ≠ i from fun hj => h ⟨rfl, hj⟩]
  · simp [setHash, hm]

@[simp] theorem setItem_items_self (p : Option ℕ) :
    ((s.setItem n i p).buckets n).items i = p := by simp [setItem]

@[simp] theorem setHash_hashes_self : ((s.setHash n i hv).buckets n).hashes i = hv := by
  simp [setHash]

section Cases

variable (h : Wf nbuckets s L) (hnit : ¬ On L nit) (hl : nit ∈ s.live)
  (hn : (s.item nit).hv.toNat % nbuckets = n)
include h hnit hl hn

/-- The first item of a slot is replaced. -/
theorem Wf.replaceSlot
    (honly : ∀ y, On L y → s.Matches (s.item nit).key (s.item nit).hv y → some x = some y)
    (hx : (s.buckets n).items i = some x) (hh : (s.buckets n).hashes i = (s.item nit).hv) :
    ∃ r, L n i = [] ++ (some x).toList ++ r ∧
      Wf nbuckets ((s.setNext nit (s.nextOf x)).setItem n i (some nit))
        (putList L n i ([] ++ nit :: r)) := by
  have hlx := h.linked n i
  rw [hx] at hlx
  rcases hL : L n i with _ | ⟨x', r⟩
  · rw [hL] at hlx
    cases hlx
  rw [hL] at hlx
  obtain rfl : x = x' := Option.some.inj hlx.1
  have hr : nit ∉ r := fun hm => hnit ⟨n, i, by rw [hL]; exact List.mem_cons_of_mem _ hm⟩
  have hnext : ((s.setNext nit (s.nextOf x)).setItem n i (some nit)).nextOf =
      update s.nextOf nit (s.nextOf x) := setNext_nextOf _
  refine ⟨r, rfl, h.put hnit (show L n i = [] ++ (some x).toList ++ r from hL) honly hn
    (fun hi => ⟨rfl, ?_⟩) (fun m j hmj => ?_) ?_ (fun y hy => ?_)
    (fun y hy _ => ?_) (fun y => ?_) (fun y hy _ => h.live hy) hl⟩
  · have hlen := h.short n i hi
    rw [hL, List.length_cons] at hlen
    exact List.length_eq_zero_iff.1 (by omega)
  · exact ⟨setItem_items _ hmj, congrFun (setItem_hashes _ m) j⟩
  · rw [setItem_items_self, hnext]
    refine ⟨rfl, ?_⟩
    rw [update_self]
    exact hlx.2.off hr
  · rw [setItem_items_self] at hy
    rw [setItem_hashes, ← Option.some.inj hy]
    exact hh
  · rw [hnext, update_of_ne hy]
  · exact ⟨setNext_same.1, setNext_same.2.1⟩

/-- An item past the last slot is replaced. -/
theorem Wf.replaceNext {l r : List ℕ} {q : ℕ}
    (honly : ∀ y, On L y → s.Matches (s.item nit).key (s.item nit).hv y → some x = some y)
    (hL : L n 4 = l ++ q :: x :: r) :
    Wf nbuckets ((s.setNext nit (s.nextOf x)).setNext q (some nit))
      (putList L n 4 (l ++ [q] ++ nit :: r)) := by
  have hnext : ((s.setNext nit (s.nextOf x)).setNext q (some nit)).nextOf =
      update (update s.nextOf nit (s.nextOf x)) q (some nit) := by
    rw [setNext_nextOf, setNext_nextOf]
  have hmem : nit ∉ l ++ q :: x :: r := fun hm => hnit ⟨n, 4, hL ▸ hm⟩
  have hlx := h.linked n 4
  have hd := h.nodup n 4
  rw [hL] at hlx hd
  refine h.put hnit (show L n 4 = l ++ [q] ++ (some x).toList ++ r by rw [hL]; simp) honly hn (fun hi => absurd rfl hi)
    (fun m j _ => ⟨rfl, rfl⟩) ?_ (fun y hy => h.hash hy) (fun y hy hm => ?_) (fun y => ?_)
    (fun y hy _ => h.live hy) hl
  · rw [hnext, List.append_assoc]
    exact hlx.replace hd hmem
  · have hyq : y ≠ q := by
      rintro rfl
      exact hm (by rw [hL]; simp)
    rw [hnext, update_of_ne hyq, update_of_ne hy]
  · have hsame : (((s.setNext nit (s.nextOf x)).setNext q (some nit)).item y).Same
      ((s.setNext nit (s.nextOf x)).item y) := setNext_same
    exact ⟨hsame.1.trans setNext_same.1, hsame.2.1.trans setNext_same.2.1⟩

/-- An item is put first in a slot. -/
theorem Wf.addFront (honly : ∀ y, On L y → ¬ s.Matches (s.item nit).key (s.item nit).hv y)
    (hi : (s.buckets n).items i = none ∨ i = 4) :
    Wf nbuckets (((s.setNext nit ((s.buckets n).items i)).setHash n i (s.item nit).hv).setItem n i
      (some nit)) (putList L n i ([] ++ nit :: L n i)) := by
  have hnext : (((s.setNext nit ((s.buckets n).items i)).setHash n i (s.item nit).hv).setItem n i
      (some nit)).nextOf = update s.nextOf nit ((s.buckets n).items i) := setNext_nextOf _
  have hmem : nit ∉ L n i := fun hm => hnit ⟨n, i, hm⟩
  refine h.put hnit (show L n i = [] ++ none.toList ++ L n i by simp) (fun y hy hm => absurd hm (honly y hy)) hn
    (fun hi4 => ⟨rfl, ?_⟩) (fun m j hmj => ?_) ?_ (fun y hy => ?_) (fun y hy _ => ?_) (fun y => ?_)
    (fun y hy _ => h.live hy) hl
  · have hstart := (h.linked n i).start
    rw [hi.resolve_right hi4] at hstart
    exact List.head?_eq_none_iff.1 hstart.symm
  · rw [setItem_items _ hmj, setHash_items, setItem_hashes, setHash_hashes hmj]
    exact ⟨rfl, rfl⟩
  · rw [setItem_items_self, hnext]
    exact (h.linked n i).push hmem
  · rw [setItem_items_self] at hy
    rw [setItem_hashes, setHash_hashes_self, ← Option.some.inj hy]
  · rw [hnext, update_of_ne hy]
  · exact ⟨setNext_same.1, setNext_same.2.1⟩

end Cases

/-- The end of `hasht_put` where it has replaced `x`. -/
theorem Wf.unref_replaced {L' : ℕ → Fin 5 → List ℕ} (hw : Wf nbuckets t L') (hx : On L x)
    (hnit : ¬ On L nit) (href : (s.item x).refcount ≠ 0)
    (hon : ∀ y, On L' y ↔ y = nit ∨ On L y ∧ some x ≠ some y)
    (hsame : ∀ y, (t.item y).Same (s.item y))
    (hrefs : ∀ y, (t.item y).refcount =
      if y = nit then (s.item y).refcount + 1 else (s.item y).refcount)
    (hlive : t.live = s.live) :
    ∃ u, t.itemUnref x = .ok u ∧ Wf nbuckets u L' ∧ Replaced s u nit (some x) := by
  have hne : nit ≠ x := fun he => hnit (he ▸ hx)
  refine ⟨_, itemUnref_eq ?_, hw.unref ?_, .of_unref hne hsame hrefs hlive⟩
  · rw [hrefs, if_neg hne.symm]
    exact href
  · rw [hon]
    rintro (he | hx')
    · exact hne he.symm
    · exact hx'.2 rfl

theorem Wf.itemRef (h : Wf nbuckets s L) (x : ℕ) : Wf nbuckets (s.itemRef x) L :=
  h.congr rfl (fun y _ => ⟨congrFun itemRef_nextOf y, itemRef_same.1, itemRef_same.2.1⟩)
    fun _ hy => h.live hy

theorem itemRef_matches : (s.itemRef nit).Matches ((s.itemRef nit).item nit).key
    ((s.itemRef nit).item nit).hv y ↔ s.Matches (s.item nit).key (s.item nit).hv y := by
  have hy : ((s.itemRef nit).item y).Same (s.item y) := itemRef_same
  have hnit : ((s.itemRef nit).item nit).Same (s.item nit) := itemRef_same
  unfold Matches
  rw [hy.1, hy.2.1, hnit.1, hnit.2.1]

/-- Only `x` on the lists can have the key of `nit` where `x` has it. -/
theorem Wf.only (h : Wf nbuckets s L) (hx : On L x)
    (hm : s.Matches (s.item nit).key (s.item nit).hv x) (y : ℕ) (hy : On L y)
    (hmy : s.Matches (s.item nit).key (s.item nit).hv y) : some x = some y :=
  congrArg some (h.unique hx hy (hm.1.trans hmy.1.symm) (hm.2.trans hmy.2.symm))

/-- `hasht_put` where a direct slot has the key. -/
theorem Wf.hashtPut_slot (h : Wf nbuckets s L) (hnit : ¬ On L nit) (hl : nit ∈ s.live)
    (hs : s.slot (s.item nit).key (s.item nit).hv
      (s.buckets ((s.item nit).hv.toNat % nbuckets)) = some (i, x))
    (href : (s.item x).refcount ≠ 0) (hcas : cas = none ∨ cas = some x) :
    ∃ t r, s.hashtPut nbuckets nit cas = .ok t ∧
      L ((s.item nit).hv.toNat % nbuckets) i = [] ++ (some x).toList ++ r ∧
      Wf nbuckets t (putList L ((s.item nit).hv.toNat % nbuckets) i ([] ++ nit :: r)) ∧
      Replaced s t nit (some x) := by
  have hsame : ((s.itemRef nit).item nit).Same (s.item nit) := itemRef_same
  obtain ⟨hi, hh, hk⟩ := slot_some hs
  have hx : On L x := ⟨_, i, h.mem_slot hi⟩
  have hm : s.Matches (s.item nit).key (s.item nit).hv x := ⟨(h.hash hi).symm.trans hh, hk⟩
  have hnx : nit ≠ x := fun he => hnit (he ▸ hx)
  obtain ⟨r, hL, hw⟩ := (h.itemRef nit).replaceSlot hnit hl (by rw [hsame.1])
    (fun y hy hmy => h.only hx hm y hy (itemRef_matches.1 hmy)) hi (hh.trans hsame.1.symm)
  rw [show (s.itemRef nit).nextOf x = (s.item x).next from congrFun itemRef_nextOf x] at hw
  obtain ⟨u, hu, huw, hrep⟩ := hw.unref_replaced hx hnit href
    (fun y => on_putList hL h.nodup h.apart) (fun y => setNext_same.trans itemRef_same)
    (fun y => setNext_refcount.trans itemRef_refcount) rfl
  refine ⟨u, r, ?_, hL, huw, hrep⟩
  unfold hashtPut
  simp only [hs]
  rw [if_neg (by rintro ⟨h1, h2⟩; exact hcas.elim h1 h2), if_neg hnx]
  exact hu

/-- A compare and set does nothing where no direct slot has the key. -/
theorem hashtPut_noSlot (hs : s.slot (s.item nit).key (s.item nit).hv
    (s.buckets ((s.item nit).hv.toNat % nbuckets)) = none) (hcas : cas ≠ none) :
    s.hashtPut nbuckets nit cas = .ok s := by
  unfold hashtPut
  simp only [hs]
  rw [if_pos hcas]

/-- `hasht_put` compares and sets, or sets. -/
theorem Wf.hashtPut_spec (h : Wf nbuckets s L) (hnit : ¬ On L nit) (hl : nit ∈ s.live)
    (hold : s.find (s.item nit).key (s.item nit).hv nbuckets = .ok old)
    (href : ∀ x, old = some x → (s.item x).refcount ≠ 0) (cas : Option ℕ) :
    ∃ t L', s.hashtPut nbuckets nit cas = .ok t ∧ Wf nbuckets t L' ∧
      (t = s ∧ L' = L ∧ cas ≠ none ∨ (cas = none ∨ cas = old) ∧ Replaced s t nit old ∧
        ∀ y, On L' y ↔ y = nit ∨ On L y ∧ old ≠ some y) := by
  obtain ⟨r, hr, hfind⟩ := h.find_spec (s.item nit).key (s.item nit).hv
  obtain rfl : r = old := Except.ok.inj (hr.symm.trans hold)
  -- the count of `nit` goes up before anything else happens
  have hsame : ∀ y, ((s.itemRef nit).item y).Same (s.item y) := fun y => itemRef_same
  have h1 : Wf nbuckets (s.itemRef nit) L := h.itemRef nit
  have honly : ∀ y, On L y → (s.itemRef nit).Matches ((s.itemRef nit).item nit).key
      ((s.itemRef nit).item nit).hv y → r = some y := fun y hy hm =>
    (hfind y).2 ⟨hy, itemRef_matches.1 hm⟩
  have hn1 : ((s.itemRef nit).item nit).hv.toNat % nbuckets =
    (s.item nit).hv.toNat % nbuckets := by rw [(hsame nit).1]
  rcases hs : s.slot (s.item nit).key (s.item nit).hv
    (s.buckets ((s.item nit).hv.toNat % nbuckets)) with _ | ⟨i, x⟩
  · by_cases hcas : cas = none
    · subst hcas
      rcases h1.overflow_spec (s.item nit).key (s.item nit).hv
        ((s.item nit).hv.toNat % nbuckets) with ⟨he, hno⟩ | ⟨l, q, x, r', hL, hm, he⟩
      · have hnone : ∀ y, On L y → ¬ s.Matches (s.item nit).key (s.item nit).hv y :=
          fun y hy hm => hno y (h.past hs hy hm)
            ⟨(hsame y).1.trans hm.1, (hsame y).2.1.trans hm.2⟩
        obtain rfl : r = none := Option.eq_none_iff_forall_ne_some.2 fun y hy =>
          hnone y ((hfind y).1 hy).1 ((hfind y).1 hy).2
        have hw := h1.addFront hnit hl hn1 (fun y hy hm => hnone y hy (itemRef_matches.1 hm))
          (direct_spec (s.buckets ((s.item nit).hv.toNat % nbuckets)))
        rw [(hsame nit).1] at hw
        refine ⟨_, _, ?_, hw, .inr ⟨.inl rfl,
          ⟨fun y => setNext_same.trans (hsame y), fun y => ?_, rfl⟩, fun y => on_putList (by simp) h1.nodup h1.apart⟩⟩
        · have he' : (s.itemRef nit).overflow _ _ (s.buckets _) = _ := he
          simp only [hashtPut, hs, ne_eq, not_true_eq_false, if_false, he']
          rfl
        · exact setNext_refcount.trans (itemRef_refcount.trans (by simp))
      · have hx : On L x := ⟨_, 4, by rw [hL]; simp⟩
        obtain rfl : r = some x := (hfind x).2 ⟨hx, (hsame x).1.symm.trans hm.1,
          (hsame x).2.1.symm.trans hm.2⟩
        have hw := h1.replaceNext hnit hl hn1 honly hL
        obtain ⟨u, hu, huw, hrep⟩ := hw.unref_replaced hx hnit (href x rfl)
          (fun y => on_putList (by rw [hL]; simp) h1.nodup h1.apart)
          (fun y => setNext_same.trans (setNext_same.trans (hsame y)))
          (fun y => setNext_refcount.trans (setNext_refcount.trans itemRef_refcount)) rfl
        refine ⟨u, _, ?_, huw, .inr ⟨.inl rfl, hrep,
          fun y => on_putList (by rw [hL]; simp) h1.nodup h1.apart⟩⟩
        have he' : (s.itemRef nit).overflow _ _ (s.buckets _) = _ := he
        simp only [hashtPut, hs, ne_eq, not_true_eq_false, if_false, he']
        exact hu
    · exact ⟨s, L, hashtPut_noSlot hs hcas, h, .inl ⟨rfl, rfl, hcas⟩⟩
  · obtain ⟨hi, hh, hk⟩ := slot_some hs
    have hx : On L x := ⟨_, i, h.mem_slot hi⟩
    obtain rfl : r = some x := (hfind x).2 ⟨hx, (h.hash hi).symm.trans hh, hk⟩
    by_cases hcas : cas = none ∨ cas = some x
    · obtain ⟨u, r, hu, hL, huw, hrep⟩ := h.hashtPut_slot hnit hl hs (href x rfl) hcas
      exact ⟨u, _, hu, huw, .inr ⟨hcas, hrep, fun y => on_putList hL h.nodup h.apart⟩⟩
    · rw [not_or] at hcas
      refine ⟨s, L, ?_, h, .inl ⟨rfl, rfl, hcas.1⟩⟩
      unfold hashtPut
      simp only [hs]
      rw [if_pos hcas]

end Put

end Hasht

end FlexKvs

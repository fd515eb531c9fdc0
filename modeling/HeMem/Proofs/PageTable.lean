import HeMem.PageTable
import HeMem.Pebs
import Mathlib.Algebra.Order.Ring.Nat
import Mathlib.Data.List.Nodup
import Mathlib.Data.List.Range

/-!
# The table of pages is a map

An item is in the chain that its hash value names for the number of buckets there are, before and
after they double, and in no other.
-/

namespace HeMem

open Function Hoare

variable {hashFcn : UInt64 → UInt32} {hashv : PageId → UInt32} {tbl : HashTable} {t : PageTable}
  {p q : PageId} {m : PageMap}

/-- The chains have the items, each where its hash value belongs. -/
structure Chained (hashv : PageId → UInt32) (numBuckets : ℕ) (buckets : ℕ → HashBucket)
    (items : List PageId) : Prop where
  mem : ∀ b p, p ∈ (buckets b).chain ↔ p ∈ items ∧ hashToBkt (hashv p) numBuckets = b
  nodup : ∀ b, (buckets b).chain.Nodup

theorem hashToBkt_lt {h : UInt32} {k : ℕ} : hashToBkt h (2 ^ k) < 2 ^ k := by
  rw [hashToBkt, Nat.and_two_pow_sub_one_eq_mod]
  exact Nat.mod_lt _ (Nat.two_pow_pos k)

section Expand

/-- Items are put into new chains one by one. -/
theorem foldl_rehash : ∀ {l : List PageId} {new : (ℕ → HashBucket) × ℕ}, l.Nodup →
    (∀ b, (new.1 b).chain.Nodup) → (∀ p ∈ l, ∀ b, p ∉ (new.1 b).chain) →
    (∀ b p, p ∈ ((l.foldl (tbl.rehash hashv) new).1 b).chain ↔
      p ∈ (new.1 b).chain ∨ p ∈ l ∧ hashToBkt (hashv p) (tbl.numBuckets * 2) = b) ∧
    ∀ b, ((l.foldl (tbl.rehash hashv) new).1 b).chain.Nodup := by
  intro l
  induction l with
  | nil =>
    intro new _ hn _
    exact ⟨by simp, hn⟩
  | cons x l ih =>
    intro new hl hn hno
    have hx : ∀ b, ((tbl.rehash hashv new x).1 b).chain =
        if hashToBkt (hashv x) (tbl.numBuckets * 2) = b then x :: (new.1 b).chain
        else (new.1 b).chain := by
      intro b
      simp only [HashTable.rehash, update_apply]
      by_cases hb : b = hashToBkt (hashv x) (tbl.numBuckets * 2)
      · subst hb
        simp
      · simp [hb, Ne.symm hb]
    rw [List.nodup_cons] at hl
    have hin : ∀ b, ((tbl.rehash hashv new x).1 b).chain.Nodup := by
      intro b
      rw [hx]
      split
      · exact List.nodup_cons.2 ⟨hno x List.mem_cons_self b, hn b⟩
      · exact hn b
    have hout : ∀ p ∈ l, ∀ b, p ∉ ((tbl.rehash hashv new x).1 b).chain := by
      intro p hp b hin
      rw [hx] at hin
      split at hin
      · rcases List.mem_cons.1 hin with rfl | hin
        · exact hl.1 hp
        · exact hno p (List.mem_cons_of_mem _ hp) b hin
      · exact hno p (List.mem_cons_of_mem _ hp) b hin
    obtain ⟨hmem, hnodup⟩ := ih hl.2 hin hout
    refine ⟨fun b p => ?_, hnodup⟩
    rw [List.foldl_cons, hmem, hx]
    by_cases hb : hashToBkt (hashv x) (tbl.numBuckets * 2) = b
    · rw [if_pos hb, List.mem_cons, List.mem_cons]
      constructor
      · rintro ((rfl | h) | h)
        · exact .inr ⟨.inl rfl, hb⟩
        · exact .inl h
        · exact .inr ⟨.inr h.1, h.2⟩
      · rintro (h | ⟨rfl | h, hb'⟩)
        · exact .inl (.inr h)
        · exact .inl (.inl rfl)
        · exact .inr ⟨h, hb'⟩
    · rw [if_neg hb, List.mem_cons]
      constructor
      · rintro (h | h)
        · exact .inl h
        · exact .inr ⟨.inr h.1, h.2⟩
      · rintro (h | ⟨rfl | h, hb'⟩)
        · exact .inl h
        · exact (hb hb').elim
        · exact .inr ⟨h, hb'⟩

/-- The items are in the chains of the twice as many buckets as they were in those before. -/
theorem Chained.expand {k : ℕ} (hk : tbl.numBuckets = 2 ^ k) {items : List PageId}
    (h : Chained hashv tbl.numBuckets tbl.buckets items) :
    Chained hashv (tbl.expandBuckets hashv).numBuckets (tbl.expandBuckets hashv).buckets items := by
  have hflat : ((List.range tbl.numBuckets).flatMap fun i => (tbl.buckets i).chain).Nodup := by
    rw [List.nodup_flatMap]
    refine ⟨fun i _ => h.nodup i, ?_⟩
    refine List.Pairwise.imp ?_ List.nodup_range
    intro i j hij p hi hj
    exact hij (((h.mem i p).1 hi).2.symm.trans ((h.mem j p).1 hj).2)
  have hall : ∀ p, p ∈ (List.range tbl.numBuckets).flatMap (fun i => (tbl.buckets i).chain) ↔
      p ∈ items := by
    intro p
    rw [List.mem_flatMap]
    constructor
    · rintro ⟨i, -, hp⟩
      exact ((h.mem i p).1 hp).1
    · intro hp
      refine ⟨hashToBkt (hashv p) tbl.numBuckets, ?_, (h.mem _ p).2 ⟨hp, rfl⟩⟩
      rw [List.mem_range, hk]
      exact hashToBkt_lt
  obtain ⟨hmem, hnodup⟩ := @foldl_rehash hashv tbl _ (fun _ => .empty, 0) hflat
    (fun _ => List.nodup_nil) (fun _ _ _ => List.not_mem_nil)
  simp only [List.foldl_flatMap] at hmem hnodup
  refine ⟨fun b p => ?_, hnodup⟩
  refine (hmem b p).trans ?_
  rw [hall p]
  simp [HashBucket.empty, HashTable.expandBuckets]

end Expand

/-- The table is there when there are items, its size is a power of two, and no two items have the
same address. -/
structure PageTable.Wf (hashFcn : UInt64 → UInt32) (t : PageTable) (tbl : HashTable) : Prop where
  size : ∃ k, tbl.numBuckets = 2 ^ k
  items : tbl.items ≠ [] ∧ tbl.items.Nodup
  chains : Chained t.hashv tbl.numBuckets tbl.buckets tbl.items
  hash : ∀ p ∈ tbl.items, t.hashv p = hashFcn (t.va p)
  apart : ∀ p ∈ tbl.items, ∀ q ∈ tbl.items, t.va p = t.va q → p = q

section Chains

variable {numBuckets : ℕ} {buckets : ℕ → HashBucket} {items : List PageId}

/-- An item that is in no chain is put into its own. -/
theorem Chained.add (h : Chained hashv numBuckets buckets items) (hp : p ∉ items) {hv : UInt32}
    {count mult : ℕ} : Chained (update hashv p hv) numBuckets
      (update buckets (hashToBkt hv numBuckets)
        ⟨p :: (buckets (hashToBkt hv numBuckets)).chain, count, mult⟩) (items ++ [p]) := by
  have hno : ∀ b, p ∉ (buckets b).chain := fun b hb => hp ((h.mem b p).1 hb).1
  refine ⟨fun b x => ?_, fun b => ?_⟩
  · rcases eq_or_ne x p with rfl | hx
    · rw [update_self]
      rcases eq_or_ne b (hashToBkt hv numBuckets) with rfl | hb
      · simp
      · simp [hb, hno b, hb.symm]
    · rw [update_of_ne hx]
      have hmem := h.mem b x
      rcases eq_or_ne b (hashToBkt hv numBuckets) with rfl | hb
      · simpa [hx] using hmem
      · simpa [hx, hb] using hmem
  · rcases eq_or_ne b (hashToBkt hv numBuckets) with rfl | hb
    · simpa using ⟨hno _, h.nodup _⟩
    · simpa [hb] using h.nodup b

/-- An item is taken out of its chain. -/
theorem Chained.erase (h : Chained hashv numBuckets buckets items) (hn : items.Nodup)
    {count mult : ℕ} : Chained hashv numBuckets
      (update buckets (hashToBkt (hashv p) numBuckets)
        ⟨(buckets (hashToBkt (hashv p) numBuckets)).chain.erase p, count, mult⟩)
      (items.erase p) := by
  refine ⟨fun b x => ?_, fun b => ?_⟩
  · rw [hn.mem_erase_iff]
    have hmem := h.mem b x
    rcases eq_or_ne b (hashToBkt (hashv p) numBuckets) with rfl | hb
    · rw [update_self]
      dsimp only
      rw [(h.nodup _).mem_erase_iff, hmem, and_assoc]
    · rw [update_of_ne hb, hmem]
      constructor
      · rintro ⟨hx, hbx⟩
        refine ⟨⟨?_, hx⟩, hbx⟩
        rintro rfl
        exact hb hbx.symm
      · rintro ⟨⟨-, hx⟩, hbx⟩
        exact ⟨hx, hbx⟩
  · rcases eq_or_ne b (hashToBkt (hashv p) numBuckets) with rfl | hb
    · simpa using (h.nodup _).erase p
    · simpa [hb] using h.nodup b

theorem Chained.addToBkt {k : ℕ} (hk : tbl.numBuckets = 2 ^ k) (hp : p ∉ items) {hv : UInt32}
    (h : Chained hashv tbl.numBuckets tbl.buckets items) :
    (∃ k, (tbl.addToBkt (update hashv p hv) (hashToBkt hv tbl.numBuckets) p).numBuckets = 2 ^ k) ∧
      Chained (update hashv p hv)
        (tbl.addToBkt (update hashv p hv) (hashToBkt hv tbl.numBuckets) p).numBuckets
        (tbl.addToBkt (update hashv p hv) (hashToBkt hv tbl.numBuckets) p).buckets
        (items ++ [p]) := by
  unfold HashTable.addToBkt
  dsimp only
  split
  · refine ⟨⟨k + 1, ?_⟩, ?_⟩
    · rw [pow_succ, ← hk]
      rfl
    · exact Chained.expand (by exact hk) (h.add hp)
  · exact ⟨⟨k, hk⟩, h.add hp⟩

theorem items_addToBkt {bkt : ℕ} : (tbl.addToBkt hashv bkt p).items = tbl.items := by
  unfold HashTable.addToBkt
  dsimp only
  split <;> rfl

end Chains

section Operations

/-- `HASH_FIND` finds the item with the address. -/
theorem PageTable.Wf.hashFind (h : t.Wf hashFcn tbl) (ht : t.table = some tbl) {va : UInt64} :
    t.hashFind hashFcn va = some p ↔ p ∈ tbl.items ∧ t.va p = va := by
  rw [PageTable.hashFind, ht, Option.bind_some]
  constructor
  · intro hf
    have hmem := List.mem_of_find?_eq_some hf
    have hpred := List.find?_some hf
    rw [decide_eq_true_eq] at hpred
    exact ⟨((h.chains.mem _ _).1 hmem).1, hpred.2⟩
  · rintro ⟨hp, rfl⟩
    have hin : p ∈ (tbl.buckets (hashToBkt (hashFcn (t.va p)) tbl.numBuckets)).chain :=
      (h.chains.mem _ _).2 ⟨hp, by rw [h.hash p hp]⟩
    obtain ⟨q, hq⟩ : ∃ q, (tbl.buckets (hashToBkt (hashFcn (t.va p)) tbl.numBuckets)).chain.find?
        (fun page => decide (t.hashv page = hashFcn (t.va p) ∧ t.va page = t.va p)) = some q := by
      rw [← Option.isSome_iff_exists, List.find?_isSome]
      exact ⟨p, hin, decide_eq_true ⟨h.hash p hp, rfl⟩⟩
    have hqmem := ((h.chains.mem _ _).1 (List.mem_of_find?_eq_some hq)).1
    have hqva := List.find?_some hq
    rw [decide_eq_true_eq] at hqva
    rw [hq, h.apart q hqmem p hp hqva.2]

/-- The table has the pages of the map. -/
structure PageTable.Represents (hashFcn : UInt64 → UInt32) (t : PageTable) (m : PageMap) : Prop where
  va : t.va = m.va
  absent : t.table = none → ∀ va, m.pages va = none
  present : ∀ tbl, t.table = some tbl →
    t.Wf hashFcn tbl ∧ ∀ va p, m.pages va = some p ↔ p ∈ tbl.items ∧ t.va p = va

namespace PageTable.Represents

theorem find (h : t.Represents hashFcn m) (va : UInt64) : t.hashFind hashFcn va = m.pages va := by
  cases ht : t.table with
  | none =>
    rw [h.absent ht, hashFind, ht]
    rfl
  | some tbl =>
    obtain ⟨hwf, hm⟩ := h.present tbl ht
    ext p
    rw [hwf.hashFind ht, hm]

/-- `page->va` is set while the page is not in the table. -/
theorem setVa (h : t.Represents hashFcn m) (hp : ∀ va, m.pages va ≠ some p) (va : UInt64) :
    ({ t with va := update t.va p va } : PageTable).Represents hashFcn
      { m with va := update m.va p va } := by
  refine ⟨by rw [h.va], h.absent, fun tbl ht => ?_⟩
  obtain ⟨hwf, hm⟩ := h.present tbl ht
  have hno : ∀ q ∈ tbl.items, q ≠ p := by
    rintro q hq rfl
    exact hp _ ((hm _ q).2 ⟨hq, rfl⟩)
  refine ⟨⟨hwf.size, hwf.items, hwf.chains, fun q hq => ?_, fun q hq q' hq' heq => ?_⟩,
    fun v q => ?_⟩
  · dsimp only
    rw [update_of_ne (hno q hq)]
    exact hwf.hash q hq
  · dsimp only at heq
    rw [update_of_ne (hno q hq), update_of_ne (hno q' hq')] at heq
    exact hwf.apart q hq q' hq' heq
  · refine (hm v q).trans (and_congr_right fun hq => ?_)
    dsimp only
    rw [update_of_ne (hno q hq)]

/-- `HASH_ADD` of a page that is not in the table and has an address of its own. -/
theorem add (h : t.Represents hashFcn m) (hp : ∀ va, m.pages va ≠ some p)
    (hva : m.pages (m.va p) = none) : (t.hashAdd hashFcn p).Represents hashFcn
      { m with pages := update m.pages (m.va p) (some p) } := by
  -- what was in the table before
  obtain ⟨tbl, items, htbl, hitems, hnodup, hk, hchains, hhash, hapart, hm⟩ :
      ∃ (tbl : HashTable) (items : List PageId), t.hashAdd hashFcn p = { t with
        hashv := update t.hashv p (hashFcn (t.va p))
        table := some (tbl.addToBkt (update t.hashv p (hashFcn (t.va p)))
          (hashToBkt (hashFcn (t.va p)) tbl.numBuckets) p) } ∧ tbl.items = items ++ [p] ∧
        items.Nodup ∧ (∃ k, tbl.numBuckets = 2 ^ k) ∧
        Chained t.hashv tbl.numBuckets tbl.buckets items ∧
        (∀ q ∈ items, t.hashv q = hashFcn (t.va q)) ∧
        (∀ q ∈ items, ∀ q' ∈ items, t.va q = t.va q' → q = q') ∧
        ∀ va q, m.pages va = some q ↔ q ∈ items ∧ t.va q = va := by
    cases ht : t.table with
    | none =>
      refine ⟨{ HashTable.make p with numItems := 1 }, [], ?_, rfl, List.nodup_nil,
        ⟨21, rfl⟩, ⟨by simp [HashTable.make, HashBucket.empty],
          by simp [HashTable.make, HashBucket.empty]⟩, by simp, by simp,
        by simp [h.absent ht]⟩
      rw [hashAdd, ht]
      rfl
    | some tbl =>
      obtain ⟨hwf, hm⟩ := h.present tbl ht
      refine ⟨{ tbl with items := tbl.items ++ [p], numItems := tbl.numItems + 1 }, tbl.items, ?_,
        rfl, hwf.items.2, hwf.size, hwf.chains, hwf.hash, hwf.apart, hm⟩
      rw [hashAdd, ht]
      rfl
  have hno : p ∉ items := fun hin => hp _ ((hm _ p).2 ⟨hin, rfl⟩)
  have hne : ∀ q ∈ items, q ≠ p := fun q hq => ne_of_mem_of_not_mem hq hno
  have hvap : ∀ q ∈ items, t.va q ≠ t.va p := by
    intro q hq heq
    have hsome := (hm _ q).2 ⟨hq, heq⟩
    rw [h.va, hva] at hsome
    cases hsome
  obtain ⟨k, hk⟩ := hk
  obtain ⟨hsize, hchained⟩ := @Chained.addToBkt _ _ p _ _ hk hno (hashFcn (t.va p)) hchains
  rw [htbl]
  refine ⟨h.va, fun hn => (Option.some_ne_none _ hn).elim, fun tbl' ht' => ?_⟩
  cases ht'
  have hin : (tbl.addToBkt (update t.hashv p (hashFcn (t.va p)))
      (hashToBkt (hashFcn (t.va p)) tbl.numBuckets) p).items = items ++ [p] :=
    items_addToBkt.trans hitems
  refine ⟨⟨hsize, ?_, ?_, ?_, ?_⟩, fun v q => ?_⟩
  · rw [hin]
    exact ⟨by simp, List.nodup_append.2 ⟨hnodup, by simp, by simpa using hne⟩⟩
  · rw [hin]
    exact hchained
  · rw [hin]
    intro q hq
    rcases List.mem_append.1 hq with hq | hq
    · dsimp only
      rw [update_of_ne (hne q hq)]
      exact hhash q hq
    · cases List.mem_singleton.1 hq
      simp
  · rw [hin]
    intro q hq q' hq' heq
    rcases List.mem_append.1 hq with hq | hq <;> rcases List.mem_append.1 hq' with hq' | hq'
    · exact hapart q hq q' hq' heq
    · cases List.mem_singleton.1 hq'
      exact (hvap q hq heq).elim
    · cases List.mem_singleton.1 hq
      exact (hvap q' hq' heq.symm).elim
    · rw [List.mem_singleton.1 hq, List.mem_singleton.1 hq']
  · rw [hin, List.mem_append, List.mem_singleton]
    dsimp only
    rcases eq_or_ne v (m.va p) with rfl | hv
    · rw [update_self, Option.some.injEq, ← h.va]
      constructor
      · rintro rfl
        exact ⟨.inr rfl, rfl⟩
      · rintro ⟨hq | rfl, heq⟩
        · exact (hvap q hq heq).elim
        · rfl
    · rw [update_of_ne hv, hm]
      constructor
      · rintro ⟨hq, rfl⟩
        exact ⟨.inl hq, rfl⟩
      · rintro ⟨hq | rfl, rfl⟩
        · exact ⟨hq, rfl⟩
        · exact (hv (by rw [h.va])).elim

/-- `HASH_DEL` of a page in the table. -/
theorem del (h : t.Represents hashFcn m) (hp : m.pages (m.va p) = some p) :
    ∃ t', t.hashDel p = some t' ∧ t'.Represents hashFcn
      { m with pages := update m.pages (m.va p) none } := by
  cases ht : t.table with
  | none =>
    rw [h.absent ht] at hp
    cases hp
  | some tbl =>
    obtain ⟨hwf, hm⟩ := h.present tbl ht
    have hin : p ∈ tbl.items := ((hm _ p).1 hp).1
    have hpages : ∀ v q, update m.pages (m.va p) none v = some q ↔
        q ∈ tbl.items ∧ q ≠ p ∧ t.va q = v := by
      intro v q
      rcases eq_or_ne v (m.va p) with rfl | hv
      · rw [update_self]
        constructor
        · rintro ⟨⟩
        · rintro ⟨hq, hne, heq⟩
          rw [← h.va] at heq
          exact (hne (hwf.apart q hq p hin heq)).elim
      · rw [update_of_ne hv, hm]
        constructor
        · rintro ⟨hq, rfl⟩
          refine ⟨hq, ?_, rfl⟩
          rintro rfl
          exact hv (by rw [h.va])
        · rintro ⟨hq, -, heq⟩
          exact ⟨hq, heq⟩
    rw [hashDel, ht, Option.map_some]
    refine ⟨_, rfl, ?_⟩
    split
    · rename_i hone
      refine ⟨h.va, fun _ v => ?_, fun tbl' ht' => (Option.some_ne_none _ ht'.symm).elim⟩
      refine Option.eq_none_iff_forall_ne_some.2 fun q hq => ?_
      obtain ⟨hq, hne, -⟩ := (hpages v q).1 hq
      rw [hone, List.mem_singleton] at hq
      exact hne hq
    · rename_i hmany
      refine ⟨h.va, fun hn => (Option.some_ne_none _ hn).elim, fun tbl' ht' => ?_⟩
      cases ht'
      have herase : ∀ q, q ∈ tbl.items.erase p ↔ q ≠ p ∧ q ∈ tbl.items := fun q =>
        hwf.items.2.mem_erase_iff
      refine ⟨⟨hwf.size, ⟨?_, hwf.items.2.erase p⟩, hwf.chains.erase hwf.items.2,
        fun q hq => hwf.hash q ((herase q).1 hq).2,
        fun q hq q' hq' => hwf.apart q ((herase q).1 hq).2 q' ((herase q').1 hq').2⟩,
        fun v q => ?_⟩
      · intro hnil
        have hlen := List.length_erase_of_mem hin
        have hone : tbl.items.length = 1 := by
          change (tbl.items.erase p).length = _ at hlen
          rw [show tbl.items.erase p = [] from hnil, List.length_nil] at hlen
          have hpos := List.length_pos_of_mem hin
          omega
        obtain ⟨x, hx⟩ := List.length_eq_one_iff.1 hone
        rw [hx, List.mem_singleton] at hin
        subst hin
        exact hmany hx
      · refine (hpages v q).trans ?_
        change _ ↔ q ∈ tbl.items.erase p ∧ _
        rw [herase]
        tauto

end PageTable.Represents

end Operations

/-- A call that is allowed returns and does what it should. -/
theorem TableCall.run_sat (c : TableCall) (h : t.Represents hashFcn m) (hl : m.Legal c) :
    Sat (c.run hashFcn) (fun r t' => r = (PageMap.effect c m).1 ∧
      t'.Represents hashFcn (PageMap.effect c m).2) (fun _ => False) t := by
  cases c with
  | findPage va => exact ⟨h.find va, h⟩
  | addPage page =>
    have hnone : (t.hashFind hashFcn (t.va page)).isSome = false := by
      rw [h.find, h.va, hl.2]
      rfl
    unfold TableCall.run PageTable.addPage
    simp only [sat_bind, sat_get, hnone, Bool.false_eq_true, if_false]
    exact ⟨rfl, h.add hl.1 hl.2⟩
  | removePage page =>
    obtain ⟨t', hdel, hrep⟩ := h.del hl
    unfold TableCall.run PageTable.removePage
    simp only [sat_bind, sat_get, hdel]
    exact ⟨rfl, hrep⟩
  | setVa page va => exact ⟨rfl, h.setVa hl va⟩

/-- A call of the program that is allowed does to its map what it should. -/
theorem TableCall.model_sat (c : TableCall) {s : State} (hl : s.pageMap.Legal c) :
    Sat c.model (fun r s' => r = (PageMap.effect c s.pageMap).1 ∧
      s'.pageMap = (PageMap.effect c s.pageMap).2) (fun _ => False) s := by
  cases c with
  | findPage va => exact ⟨rfl, rfl⟩
  | addPage page =>
    have hnone : s.pages (s.page page).va = none := hl.2
    unfold TableCall.model HeMem.addPage getPage
    simp only [sat_bind, sat_get, sat_check, sat_modify, sat_pure]
    exact ⟨fun _ => ⟨rfl, rfl⟩, fun h => (h hnone).elim⟩
  | removePage page =>
    unfold TableCall.model HeMem.removePage getPage
    simp only [sat_bind, sat_get, sat_modify, sat_pure]
    exact ⟨rfl, rfl⟩
  | setVa page va =>
    unfold TableCall.model modifyPage
    simp only [sat_bind, sat_modify, sat_pure]
    refine ⟨rfl, congrArg (PageMap.mk s.pages) (funext fun p => ?_)⟩
    rcases eq_or_ne p page with rfl | hp
    · simp [State.pageMap]
    · simp [State.pageMap, hp]

theorem PageTable.empty_represents {s : State} (hs : ∀ va, s.pages va = none)
    (hashv : PageId → UInt32) :
    (PageTable.empty (fun p => (s.page p).va) hashv).Represents hashFcn s.pageMap :=
  ⟨rfl, fun _ => hs, fun _ h => (Option.some_ne_none _ h.symm).elim⟩

/-- The hash table finds, adds and removes pages as the map from addresses does that the program is
modelled over, whatever the hash function and however often its buckets double. -/
theorem page_table_refines (hashFcn : UInt64 → UInt32) (s : State) (t : PageTable)
    (h : t.Represents hashFcn s.pageMap) (cs : List TableCall)
    (hcs : Refine.Allowed PageMap.effect PageMap.Legal cs s.pageMap) :
    ∃ rs s' t', Refine.calls TableCall.model cs s = .ok (rs, s') ∧
      Refine.calls (TableCall.run hashFcn) cs t = .ok (rs, t') ∧
      t'.Represents hashFcn s'.pageMap := by
  obtain ⟨s', hs', hmap⟩ := Refine.calls_refine (R := fun s m => State.pageMap s = m)
    (fun c s m hR hl => by subst hR; exact c.model_sat hl) rfl hcs
  obtain ⟨t', ht', hrep⟩ := Refine.calls_refine (fun c _ _ h hl => c.run_sat h hl) h hcs
  exact ⟨_, s', t', hs', ht', hmap ▸ hrep⟩

/-- Two pages whose addresses have one hash value are told apart. -/
theorem page_table_refines_two : ∃ rs s' t', Refine.calls TableCall.model
      [.setVa 1 0x200000, .addPage 1, .setVa 2 0x400000, .addPage 2, .removePage 1,
        .findPage 0x200000, .findPage 0x400000]
      (State.blank ⟨fun _ => none, fun _ _ => 0⟩) = .ok (rs, s') ∧
    Refine.calls (TableCall.run fun _ => 7)
      [.setVa 1 0x200000, .addPage 1, .setVa 2 0x400000, .addPage 2, .removePage 1,
        .findPage 0x200000, .findPage 0x400000]
      (.empty (fun _ => 0) fun _ => 0) = .ok (rs, t') ∧
    t'.Represents (fun _ => 7) s'.pageMap := by
  refine page_table_refines (fun _ => 7) _ _
    (PageTable.empty_represents (fun _ => rfl) fun _ => 0) _ ?_
  simp [Refine.Allowed, PageMap.effect, PageMap.Legal, State.pageMap, State.blank, update_apply]

end HeMem

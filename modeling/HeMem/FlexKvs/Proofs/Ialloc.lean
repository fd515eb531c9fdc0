import Mathlib.Data.List.Perm.Subperm
import HeMem.FlexKvs.Ialloc
import HeMem.Lib.Linked

/-!
# Items do not overlap

Every segment that has been handed out has one role: on the free list, in the chain of an
allocator, reserved by one, or lost.  In a chain, what has been freed of a segment and its live
items come to its offset, and the items lie below the offset, so a segment all of which has been
freed has none.
-/

namespace FlexKvs

open Function

/-- What a segment is used for. -/
inductive Role (A : Type)
  | lost
  | free
  /-- handed out by `segment_alloc` and not yet in a chain or reserved -/
  | hand
  | chain (a : A)
  | reserved (a : A)

section Words

variable {x y : UInt32} {n : ℕ}

theorem toNat_add_ofNat32 (h : x.toNat + n < 2 ^ 32) :
    (x + UInt32.ofNat n).toNat = x.toNat + n := by
  rw [UInt32.toNat_add, UInt32.toNat_ofNat', Nat.mod_eq_of_lt (by omega : n < 2 ^ 32),
    Nat.mod_eq_of_lt h]

end Words

section Used

variable {segsize x : ℕ} {i : ℕ × ℕ} {live : List (ℕ × ℕ)}

/-- How many bytes the live items of a segment have. -/
def used (segsize : ℕ) (live : List (ℕ × ℕ)) (x : ℕ) : ℕ :=
  ((live.filter fun i => i.1 / segsize = x).map Prod.snd).sum

theorem used_cons : used segsize (i :: live) x =
    (if i.1 / segsize = x then i.2 else 0) + used segsize live x := by
  unfold used
  by_cases h : i.1 / segsize = x <;> simp [h]

theorem used_erase (hi : i ∈ live) : used segsize live x =
    (if i.1 / segsize = x then i.2 else 0) + used segsize (live.erase i) x := by
  rw [← used_cons]
  exact (((List.perm_cons_erase hi).filter _).map _).sum_nat

theorem le_used (hi : i ∈ live) (hx : i.1 / segsize = x) : i.2 ≤ used segsize live x := by
  rw [used_erase hi, if_pos hx]
  exact Nat.le_add_right _ _

theorem used_eq_zero (h : ∀ i ∈ live, i.1 / segsize ≠ x) : used segsize live x = 0 := by
  unfold used
  rw [List.filter_eq_nil_iff.2 fun i hi => by simpa using h i hi]
  rfl

end Used

variable {A : Type} {st : Settings}

/-- The books of segment `x`. -/
structure Books (st : Settings) (live : List (ℕ × ℕ)) (x : ℕ) (r : Role A) (H : SegmentHeader) :
    Prop where
  size : r ≠ .lost → H.size.toNat = st.segsize % 2 ^ 32
  blank : r = .hand ∨ (∃ a, r = .reserved a) → H.offset = 0 ∧ H.freed = 0
  room : ∀ a, r = .chain a → H.freed.toNat + used st.segsize live x = H.offset.toNat ∧
    H.offset.toNat ≤ H.size.toNat
  items : ∀ i ∈ live, i.1 / st.segsize = x → (∃ a, r = .chain a) ∧
    i.1 % st.segsize + i.2 ≤ H.offset.toNat ∧ itemSize ≤ i.2

/-- Items of a segment that is in no chain there are none. -/
theorem Books.bare {live : List (ℕ × ℕ)} {x : ℕ} {r : Role A} {H : SegmentHeader}
    (hb : Books st live x r H) (hr : ∀ a, r ≠ .chain a) : ∀ i ∈ live, i.1 / st.segsize ≠ x :=
  fun i hi hx => by
    obtain ⟨⟨a, ha⟩, -⟩ := hb.items i hi hx
    exact hr a ha

/-- A segment that has no items and nothing freed, for any role but on a list. -/
theorem Books.clear {live : List (ℕ × ℕ)} {x : ℕ} {r : Role A} {H : SegmentHeader}
    (hn : ∀ i ∈ live, i.1 / st.segsize ≠ x) (hs : H.size.toNat = st.segsize % 2 ^ 32)
    (ho : H.offset = 0) (hf : H.freed = 0) : Books st live x r H where
  size _ := hs
  blank _ := ⟨ho, hf⟩
  room a _ := by
    rw [used_eq_zero hn, ho, hf]
    exact ⟨rfl, Nat.zero_le _⟩
  items i hi hx := absurd hx (hn i hi)

/-- A segment that is in no list yet has nothing in it, whatever it comes to. -/
theorem Books.fill {live : List (ℕ × ℕ)} {x : ℕ} {r r' : Role A} {H : SegmentHeader}
    (hb : Books st live x r H) (hr : r = .hand ∨ ∃ a, r = .reserved a) : Books st live x r' H := by
  obtain ⟨ho, hf⟩ := hb.blank hr
  refine .clear (hb.bare fun a ha => ?_) (hb.size fun hl => ?_) ho hf
  · simp [ha] at hr
  · simp [hl] at hr

/-- The books are about a segment's size and its two counts. -/
theorem Books.congr {live : List (ℕ × ℕ)} {x : ℕ} {r : Role A} {H H' : SegmentHeader}
    (hb : Books st live x r H) (hs : H'.size = H.size) (ho : H'.offset = H.offset)
    (hf : H'.freed = H.freed) : Books st live x r H' := by
  obtain ⟨h1, h2, h3, h4⟩ := hb
  rw [← hs] at h1
  simp only [← hs, ← ho, ← hf] at h2 h3 h4
  exact ⟨h1, h2, h3, h4⟩

namespace Ialloc

def next (s : Ialloc A) (x : ℕ) : Option ℕ := (s.header x).next

/-- The chain and the reserve of an allocator. -/
structure Holds (role : ℕ → Role A) (next : ℕ → Option ℕ) (a : A) (ia : ItemAllocator) : Prop where
  chain : ∃ l, Linked next ia.oldest (l ++ [ia.cur]) ∧ (l ++ [ia.cur]).Nodup ∧
    ∀ x, x ∈ l ++ [ia.cur] ↔ role x = .chain a
  reserved : ∀ x, ia.reserved = some x ↔ role x = .reserved a

structure Inv (st : Settings) (role : ℕ → Role A) (s : Ialloc A) : Prop where
  fresh : ∀ x, s.segAlloced ≤ x → role x = .lost
  free : ∃ l, Linked s.next s.freeSegments l ∧ l.Nodup ∧ ∀ x, x ∈ l ↔ role x = .free
  unset : ∀ a, s.ia a = none → ∀ x, role x ≠ .chain a ∧ role x ≠ .reserved a
  set : ∀ a ia, s.ia a = some ia → Holds role s.next a ia
  books : ∀ x, Books st s.live x (role x) (s.header x)
  apart : s.live.Pairwise fun i j => i.1 + i.2 ≤ j.1 ∨ j.1 + j.2 ≤ i.1

variable {s s' : Ialloc A} {role : ℕ → Role A} {a : A} {ia : ItemAllocator} {h x total : ℕ}
  {f : SegmentHeader → SegmentHeader}

theorem inv_initial : Inv st (fun _ => .lost) (initial : Ialloc A) where
  fresh _ _ := rfl
  free := ⟨[], rfl, List.nodup_nil, by simp⟩
  unset _ _ _ := by simp
  set a ia hia := by cases hia
  books x := ⟨fun hn => absurd rfl hn, by simp, by simp, fun i hi => by cases hi⟩
  apart := List.Pairwise.nil

theorem edit_next (hf : (f (s.header x)).next = (s.header x).next) : (s.edit x f).next = s.next := by
  funext y
  unfold next edit
  rcases eq_or_ne y x with rfl | hy
  · simp [hf]
  · simp [hy]

/-- The header of a segment is edited, but for its link, and the live items change. -/
theorem Inv.account (hI : Inv st role s) (live : List (ℕ × ℕ))
    (hf : (f (s.header x)).next = (s.header x).next)
    (hx : Books st live x (role x) (f (s.header x)))
    (ho : ∀ y, y ≠ x → Books st live y (role y) (s.header y))
    (hap : live.Pairwise fun i j => i.1 + i.2 ≤ j.1 ∨ j.1 + j.2 ≤ i.1) :
    Inv st role { s.edit x f with live := live } where
  fresh := hI.fresh
  free := by
    change ∃ l, Linked (s.edit x f).next s.freeSegments l ∧ _
    rw [edit_next hf]
    exact hI.free
  unset := hI.unset
  set a ia hia := by
    change Holds role (s.edit x f).next a ia
    rw [edit_next hf]
    exact hI.set a ia hia
  books y := by
    change Books st live y (role y) (update s.header x (f (s.header x)) y)
    rcases eq_or_ne y x with rfl | hy
    · rw [update_self]
      exact hx
    · rw [update_of_ne hy]
      exact ho y hy
  apart := hap

/-- A segment that has just been handed out is on no list. -/
theorem Inv.handOut (hI : Inv st role s) (hr : role h = .free ∨ role h = .lost)
    (hlt : h < s'.segAlloced) (hle : s.segAlloced ≤ s'.segAlloced) (hia : s'.ia = s.ia)
    (hlive : s'.live = s.live) (hnext : s'.next = s.next)
    (hfree : ∃ l, Linked s.next s'.freeSegments l ∧ l.Nodup ∧ ∀ x, x ∈ l ↔ x ≠ h ∧ role x = .free)
    (hsize : (s'.header h).size.toNat = st.segsize % 2 ^ 32) (ho : (s'.header h).offset = 0)
    (hf : (s'.header h).freed = 0) (hsame : ∀ x, x ≠ h → s'.header x = s.header x) :
    Inv st (update role h .hand) s' := by
  have hne : ∀ a, role h ≠ .chain a ∧ role h ≠ .reserved a := fun a => by
    rcases hr with hr | hr <;> simp [hr]
  have hrole : ∀ x (r : Role A), r ≠ .hand → r ≠ .free → r ≠ .lost →
      (update role h .hand x = r ↔ role x = r) := fun x r h1 h2 h3 => by
    rcases eq_or_ne x h with rfl | hx
    · rw [update_self]
      exact iff_of_false h1.symm fun hx => by
        rcases hr with hr | hr
        · exact h2 (hx.symm.trans hr)
        · exact h3 (hx.symm.trans hr)
    · rw [update_of_ne hx]
  refine ⟨fun x hx => ?_, ?_, fun a ha x => ?_, fun a ia ha => ?_, fun x => ?_, hlive ▸ hI.apart⟩
  · have hxh : x ≠ h := fun hxh => by omega
    rw [update_of_ne hxh]
    exact hI.fresh x (Nat.le_trans hle hx)
  · obtain ⟨l, hl, hd, hm⟩ := hfree
    refine ⟨l, hnext ▸ hl, hd, fun x => (hm x).trans ?_⟩
    rcases eq_or_ne x h with rfl | hx
    · simp
    · simp [hx]
  · have hu := hI.unset a (hia ▸ ha) x
    exact ⟨fun hx => hu.1 ((hrole x _ (by simp) (by simp) (by simp)).1 hx),
      fun hx => hu.2 ((hrole x _ (by simp) (by simp) (by simp)).1 hx)⟩
  · obtain ⟨⟨l, hl, hd, hm⟩, hres⟩ := hI.set a ia (hia ▸ ha)
    refine ⟨⟨l, hnext ▸ hl, hd, fun x => (hm x).trans ?_⟩, fun x => (hres x).trans ?_⟩
    · exact (hrole x _ (by simp) (by simp) (by simp)).symm
    · exact (hrole x _ (by simp) (by simp) (by simp)).symm
  · rw [hlive]
    rcases eq_or_ne x h with rfl | hx
    · exact .clear ((hI.books x).bare fun a => (hne a).1) hsize ho hf
    · rw [update_of_ne hx, hsame x hx]
      exact hI.books x

/-- `segment_alloc` hands out a segment that was on the free list or new. -/
theorem Inv.segmentAlloc (hI : Inv st role s) {ok : Bool} {r : Option ℕ}
    (hs : s.segmentAlloc st ok = (r, s')) : s'.ia = s.ia ∧ s'.live = s.live ∧ s'.next = s.next ∧
      match r with
      | none => Inv st role s'
      | some h => (role h = .free ∨ role h = .lost) ∧ Inv st (update role h .hand) s' := by
  have hinit : ∀ (t : Ialloc A) (h : ℕ),
      (t.edit h ({ · with offset := 0, inactive := false, freed := 0 })).next = t.next :=
    fun t h => edit_next rfl
  unfold Ialloc.segmentAlloc at hs
  rcases hfs : s.freeSegments with _ | h
  · rw [hfs] at hs
    dsimp only at hs
    split_ifs at hs with hfull hok <;> cases hs
    · exact ⟨rfl, rfl, rfl, hI⟩
    · have hnext : ((({ s with segAlloced := s.segAlloced + 1 } : Ialloc A).edit s.segAlloced
          ({ · with size := UInt32.ofNat st.segsize })).edit s.segAlloced
          ({ · with offset := 0, inactive := false, freed := 0 })).next = s.next :=
        (hinit _ _).trans (edit_next rfl)
      have hlost := hI.fresh s.segAlloced (Nat.le_refl _)
      refine ⟨rfl, rfl, hnext, .inr hlost, hI.handOut (.inr hlost) (Nat.lt_succ_self _)
        (Nat.le_succ _) rfl rfl hnext ?_ ?_ ?_ ?_ fun x hx => ?_⟩
      · obtain ⟨l, hl, hd, hm⟩ := hI.free
        refine ⟨l, hfs ▸ hl, hd, fun x => (hm x).trans ⟨fun hx => ⟨fun hxh => ?_, hx⟩, And.right⟩⟩
        rw [hxh, hlost] at hx
        cases hx
      · simp [edit, UInt32.toNat_ofNat']
      · simp [edit]
      · simp [edit]
      · simp [edit, hx]
    · refine ⟨rfl, rfl, rfl, ⟨fun x hx => hI.fresh x (Nat.le_of_succ_le hx), hfs ▸ hI.free,
        hI.unset, hI.set, hI.books, hI.apart⟩⟩
  · rw [hfs] at hs
    cases hs
    obtain ⟨l, hl, hd, hm⟩ := hI.free
    rw [hfs] at hl
    rcases l with _ | ⟨y, l⟩
    · cases hl
    obtain ⟨hy, hl⟩ := hl
    cases hy
    have hfree : role h = .free := (hm h).1 (by simp)
    have hlt : h < s.segAlloced := by
      by_contra hge
      rw [hI.fresh h (Nat.le_of_not_lt hge)] at hfree
      cases hfree
    refine ⟨rfl, rfl, hinit _ _, .inl hfree, hI.handOut (.inl hfree) hlt (Nat.le_refl _) rfl rfl
      (hinit _ _) ?_ ?_ ?_ ?_ fun x hx => ?_⟩
    · rw [List.nodup_cons] at hd
      refine ⟨l, hl, hd.2, fun x => ?_⟩
      rw [← hm x, List.mem_cons]
      refine ⟨fun hx => ⟨ne_of_mem_of_not_mem hx hd.1, .inr hx⟩, fun hx => hx.2.resolve_left hx.1⟩
    · simpa [edit] using (hI.books h).size (by simp [hfree])
    · simp [edit]
    · simp [edit]
    · simp [edit, hx]

/-- A new item starts where the segment's items end. -/
theorem apart_of_room (hI : Inv st role s) {o : ℕ} (ho : (s.header h).offset.toNat = o)
    (hle : o + total ≤ st.segsize) {j : ℕ × ℕ} (hj : j ∈ s.live) :
    st.segsize * h + o + total ≤ j.1 ∨ j.1 + j.2 ≤ st.segsize * h + o := by
  obtain ⟨⟨b, hb⟩, hbelow, -⟩ := (hI.books (j.1 / st.segsize)).items j hj rfl
  have hroom := ((hI.books (j.1 / st.segsize)).room b hb).2
  rw [(hI.books (j.1 / st.segsize)).size (by simp [hb])] at hroom
  have hmod := Nat.mod_le st.segsize (2 ^ 32)
  have hdiv := Nat.div_add_mod j.1 st.segsize
  rcases Nat.lt_trichotomy (j.1 / st.segsize) h with hlt | heq | hgt
  · have hmul := Nat.mul_le_mul_left st.segsize (Nat.succ_le_of_lt hlt)
    rw [Nat.mul_succ] at hmul
    omega
  · rw [heq] at hdiv hbelow
    omega
  · have hmul := Nat.mul_le_mul_left st.segsize (Nat.succ_le_of_lt hgt)
    rw [Nat.mul_succ] at hmul
    omega

theorem Inv.segmentItemAlloc (hI : Inv st role s) (hr : role h = .chain a) (ht : itemSize ≤ total)
    {r : Option ℕ} (hs : s.segmentItemAlloc st h total = (r, s')) :
    s'.ia = s.ia ∧ s'.live = s.live ∧
      Inv st role { s' with live := (r.map (·, total)).toList ++ s'.live } := by
  have hB := hI.books h
  obtain ⟨hroom, hle⟩ := hB.room a hr
  have hsize := hB.size (by simp [hr])
  have hmod := Nat.mod_le st.segsize (2 ^ 32)
  have hmax := (s.header h).size.toNat_lt
  have havail : ((s.header h).size - (s.header h).offset).toNat =
      (s.header h).size.toNat - (s.header h).offset.toNat := UInt32.toNat_sub_of_le _ _ hle
  have hpos : 0 < total := Nat.lt_of_lt_of_le (by decide) ht
  unfold Ialloc.segmentItemAlloc at hs
  simp only [havail] at hs
  split_ifs at hs with h0 hlt <;> cases hs
  · exact ⟨rfl, rfl, hI⟩
  · -- the rest of the segment is filler
    generalize hn : (s.header h).size.toNat - (s.header h).offset.toNat = n at *
    have hfreed := toNat_add_ofNat32 (x := (s.header h).freed) (n := n) (by omega)
    have hoff := toNat_add_ofNat32 (x := (s.header h).offset) (n := n) (by omega)
    refine ⟨rfl, rfl, ?_⟩
    have hedit : (s.segmentItemFree h n).edit h
        ({ · with offset := (s.header h).offset + UInt32.ofNat n }) =
        s.edit h fun H => { H with
          freed := H.freed + UInt32.ofNat n, offset := (s.header h).offset + UInt32.ofNat n } := by
      simp [Ialloc.segmentItemFree, edit]
    rw [hedit]
    refine hI.account s.live rfl ⟨hB.size, fun hb => ?_, fun b hb => ?_, fun i hi hx => ?_⟩
      (fun y _ => hI.books y) hI.apart
    · rw [hr] at hb
      simp at hb
    · change ((s.header h).freed + UInt32.ofNat n).toNat + used st.segsize s.live h = _ ∧
        _ ≤ (s.header h).size.toNat
      rw [hfreed, hoff]
      omega
    · obtain ⟨hc, hbelow, hi⟩ := hB.items i hi hx
      refine ⟨hc, ?_, hi⟩
      dsimp only
      rw [hoff]
      omega
  · generalize ho : (s.header h).offset = o at *
    have hoff := toNat_add_ofNat32 (x := o) (n := total) (by omega)
    have hdiv : (st.segsize * h + o.toNat) / st.segsize = h := by
      rw [Nat.mul_add_div (by omega), Nat.div_eq_of_lt (by omega), Nat.add_zero]
    have hmod' : (st.segsize * h + o.toNat) % st.segsize = o.toNat := by
      rw [Nat.mul_add_mod, Nat.mod_eq_of_lt (by omega)]
    refine ⟨rfl, rfl, hI.account ((_, total) :: s.live) rfl
      ⟨hB.size, fun hb => ?_, fun b hb => ?_, fun i hi hx => ?_⟩ (fun y hy => ?_) ?_⟩
    · rw [hr] at hb
      simp at hb
    · dsimp only
      rw [used_cons, if_pos hdiv, hoff]
      omega
    · dsimp only
      rw [hoff]
      rcases List.mem_cons.1 hi with rfl | hi
      · exact ⟨⟨a, hr⟩, Nat.le_of_eq (by rw [hmod']), ht⟩
      · obtain ⟨hc, hbelow, hi⟩ := hB.items i hi hx
        rw [ho] at hbelow
        exact ⟨hc, by omega, hi⟩
    · have hBy := hI.books y
      refine ⟨hBy.size, hBy.blank, fun b hb => ?_, fun i hi hx => ?_⟩
      · rw [used_cons, if_neg (by rw [hdiv]; exact hy.symm), Nat.zero_add]
        exact hBy.room b hb
      · rcases List.mem_cons.1 hi with rfl | hi
        · exact absurd (hdiv.symm.trans hx) hy.symm
        · exact hBy.items i hi hx
    · refine List.pairwise_cons.2 ⟨fun j hj => ?_, hI.apart⟩
      exact apart_of_room hI (congrArg _ ho) (by omega) hj

theorem Inv.free_item (hI : Inv st role s) {i : ℕ × ℕ} (hi : i ∈ s.live) :
    Inv st role { s.segmentItemFree (i.1 / st.segsize) i.2 with live := s.live.erase i } := by
  have hB := hI.books (i.1 / st.segsize)
  obtain ⟨⟨a, hr⟩, -, -⟩ := hB.items i hi rfl
  obtain ⟨hroom, hle⟩ := hB.room a hr
  have hused : i.2 ≤ used st.segsize s.live (i.1 / st.segsize) := le_used hi rfl
  have hmax := (s.header (i.1 / st.segsize)).size.toNat_lt
  have hfreed := toNat_add_ofNat32 (x := (s.header (i.1 / st.segsize)).freed) (n := i.2) (by omega)
  refine hI.account (s.live.erase i) rfl
    ⟨hB.size, fun hb => ?_, fun b hb => ?_, fun j hj hx => ?_⟩ (fun y hy => ?_)
    (hI.apart.sublist List.erase_sublist)
  · rw [hr] at hb
    simp at hb
  · rw [used_erase hi, if_pos rfl] at hroom
    refine ⟨?_, hle⟩
    dsimp only
    rw [hfreed]
    omega
  · exact hB.items j (List.mem_of_mem_erase hj) hx
  · have hBy := hI.books y
    refine ⟨hBy.size, hBy.blank, fun b hb => ?_, fun j hj hx =>
      hBy.items j (List.mem_of_mem_erase hj) hx⟩
    have hroom := hBy.room b hb
    rwa [used_erase hi, if_neg hy.symm, Nat.zero_add] at hroom

theorem Inv.lt (hI : Inv st role s) (hx : role x ≠ .lost) : x < s.segAlloced :=
  Nat.lt_of_not_le fun hle => hx (hI.fresh x hle)

theorem update_role {r r' : Role A} : update role h r x = r' ↔
    x = h ∧ r = r' ∨ x ≠ h ∧ role x = r' := by
  rcases eq_or_ne x h with rfl | hx
  · simp
  · simp [hx]

/-- One segment leaves a role for another; the segments with other roles keep them. -/
theorem update_role_of {r k : Role A} (hk : role h ≠ k) (hr : r ≠ k) :
    role x = k ↔ update role h r x = k := by
  rw [update_role]
  rcases eq_or_ne x h with rfl | hx
  · simp [hk, hr]
  · simp [hx]

/-- What another allocator has stays what it is. -/
theorem Holds.congr {role' : ℕ → Role A} {next next' : ℕ → Option ℕ} (hH : Holds role next a ia)
    (hn : ∀ {p : Option ℕ} {l : List ℕ}, Linked next p l → (∀ x ∈ l, role x = .chain a) →
      Linked next' p l) (hc : ∀ x, role x = .chain a ↔ role' x = .chain a)
    (hr : ∀ x, role x = .reserved a ↔ role' x = .reserved a) : Holds role' next' a ia where
  chain := by
    obtain ⟨l, hl, hd, hm⟩ := hH.chain
    exact ⟨l, hn hl fun x => (hm x).1, hd, fun x => (hm x).trans (hc x)⟩
  reserved x := (hH.reserved x).trans (hr x)

/-- The link of a segment in nobody's list is edited. -/
theorem Inv.editHand (hI : Inv st role s) (hh : role h = .hand) {n : Option ℕ} :
    Inv st role (s.edit h ({ · with next := n })) := by
  have hnext : (s.edit h ({ · with next := n })).next = update s.next h n := by
    funext x
    unfold next edit
    rcases eq_or_ne x h with rfl | hx
    · simp
    · simp [hx]
  have hoff : ∀ {p : Option ℕ} {l : List ℕ}, Linked s.next p l → (∀ x ∈ l, role x ≠ .hand) →
      Linked (s.edit h ({ · with next := n })).next p l := fun {p l} hl hm => by
    rw [hnext]
    exact hl.off fun hx => hm h hx hh
  refine ⟨hI.fresh, ?_, hI.unset, fun a ia hia => ?_, fun x => ?_, hI.apart⟩
  · obtain ⟨l, hl, hd, hm⟩ := hI.free
    exact ⟨l, hoff hl fun x hx => by simp [(hm x).1 hx], hd, hm⟩
  · obtain ⟨⟨l, hl, hd, hm⟩, hres⟩ := hI.set a ia hia
    exact ⟨⟨l, hoff hl fun x hx => by simp [(hm x).1 hx], hd, hm⟩, hres⟩
  · refine (hI.books x).congr ?_ ?_ ?_ <;> unfold edit <;>
      rcases eq_or_ne x h with rfl | hx <;> simp [*]

theorem segmentFree_next : (s.segmentFree h).next = update s.next h s.freeSegments := by
  funext x
  unfold next segmentFree edit
  rcases eq_or_ne x h with rfl | hx
  · simp
  · simp [hx]

theorem segmentFree_header (x : ℕ) : ((s.segmentFree h).header x).size = (s.header x).size ∧
    (x ≠ h → ((s.segmentFree h).header x).offset = (s.header x).offset ∧
      ((s.segmentFree h).header x).freed = (s.header x).freed) := by
  unfold segmentFree edit
  rcases eq_or_ne x h with rfl | hx
  · simp
  · simp [hx]

theorem Inv.safe (hI : Inv st role s) : s.Safe st := by
  refine ⟨hI.apart, fun i hi => ?_⟩
  obtain ⟨⟨a, ha⟩, hbelow, -⟩ := (hI.books (i.1 / st.segsize)).items i hi rfl
  have hroom := ((hI.books (i.1 / st.segsize)).room a ha).2
  have hsize := (hI.books (i.1 / st.segsize)).size (by simp [ha])
  have hmod := Nat.mod_le st.segsize (2 ^ 32)
  have hdiv := Nat.div_add_mod i.1 st.segsize
  refine ⟨i.1 / st.segsize, hI.lt (by simp [ha]), Nat.mul_div_le _ _, by omega, by omega, ?_⟩
  obtain ⟨l, hl, -, hm⟩ := hI.free
  have hfree : ∀ x, s.OnFreeList x → x ∈ l := fun x hx => by
    induction hx with
    | head h =>
      rw [h] at hl
      exact List.mem_of_mem_head? hl.start.symm
    | next _ hn ih => exact hl.next_mem ih hn
  intro hx
  rw [(hm _).1 (hfree _ hx)] at ha
  cases ha

section Allocators

variable [DecidableEq A]

theorem Inv.setUp (hI : Inv st role s) {c r : ℕ} (hia : s.ia a = none) (hc : role c = .hand)
    (hr : role r = .hand) (hne : c ≠ r) (hn : s.next c = none) :
    Inv st (update (update role c (.chain a)) r (.reserved a))
      (s.setIa a { reserved := some r, cur := c, oldest := some c }) := by
  have hu := hI.unset a hia
  refine ⟨fun x hx => ?_, ?_, fun b hb x => ?_, fun b ib hb => ?_, fun x => ?_, hI.apart⟩
  · have hxr : x ≠ r := fun h => absurd (hI.lt (x := r) (by simp [hr])) (h ▸ Nat.not_lt.2 hx)
    have hxc : x ≠ c := fun h => absurd (hI.lt (x := c) (by simp [hc])) (h ▸ Nat.not_lt.2 hx)
    rw [update_of_ne hxr, update_of_ne hxc]
    exact hI.fresh x hx
  · obtain ⟨l, hl, hd, hm⟩ := hI.free
    refine ⟨l, hl, hd, fun x => (hm x).trans ?_⟩
    rw [update_role, update_role]
    constructor
    · intro hx
      refine .inr ⟨?_, .inr ⟨?_, hx⟩⟩
      · rintro rfl
        simp [hr] at hx
      · rintro rfl
        simp [hc] at hx
    · simp
  · have hba : b ≠ a := fun h => by simp [setIa, h] at hb
    have hb : s.ia b = none := by simpa [setIa, hba] using hb
    have := hI.unset b hb x
    rw [Ne, Ne, update_role, update_role, update_role, update_role]
    simp [this, Ne.symm hba]
  · rcases eq_or_ne b a with rfl | hba
    · obtain rfl : _ = ib := by simpa [setIa] using hb
      refine ⟨⟨[], ⟨rfl, hn⟩, by simp, fun x => ?_⟩, fun x => ?_⟩
      · rw [update_role, update_role]
        simp [(hu x).1]
        rintro rfl
        exact hne
      · rw [update_role, update_role]
        simp [(hu x).2, eq_comm]
    · have hb : s.ia b = some ib := by simpa [setIa, hba] using hb
      have hrole : ∀ x (k : Role A), k ≠ .hand → k ≠ .chain a → k ≠ .reserved a →
          (role x = k ↔ update (update role c (.chain a)) r (.reserved a) x = k) := by
        intro x k h1 h2 h3
        have hr' : update role c (.chain a) r ≠ k := by
          rw [update_of_ne hne.symm, hr]
          exact h1.symm
        exact (update_role_of (hc ▸ h1.symm) h2.symm).trans (update_role_of hr' h3.symm)
      refine (hI.set b ib hb).congr (fun hl _ => hl) (fun x => hrole x _ ?_ ?_ ?_)
        fun x => hrole x _ ?_ ?_ ?_ <;> simp [hba]
  · change Books st s.live x _ (s.header x)
    have hB := hI.books x
    rcases eq_or_ne x r with rfl | hxr
    · rw [update_self]
      exact hB.fill (.inl hr)
    rw [update_of_ne hxr]
    rcases eq_or_ne x c with rfl | hxc
    · rw [update_self]
      exact hB.fill (.inl hc)
    · rw [update_of_ne hxc]
      exact hB

/-- The allocator's segments stay what they are. -/
theorem Inv.keepIa (hI : Inv st role s) (hia : s.ia a = some ia) {n : ℕ} :
    Inv st role (s.setIa a { ia with cleanupCount := n }) := by
  refine ⟨hI.fresh, hI.free, fun b hb => hI.unset b ?_, fun b ib hb => ?_, hI.books, hI.apart⟩
  · have hba : b ≠ a := fun h => by simp [setIa, h] at hb
    simpa [setIa, hba] using hb
  · rcases eq_or_ne b a with rfl | hba
    · obtain rfl : _ = ib := by simpa [setIa] using hb
      obtain ⟨hc, hr⟩ := hI.set b ia hia
      exact ⟨hc, hr⟩
    · exact hI.set b ib (by simpa [setIa, hba] using hb)

theorem Inv.reserve (hI : Inv st role s) (hia : s.ia a = some ia) (hnone : ia.reserved = none)
    {n : ℕ} (hh : role h = .hand) : Inv st (update role h (.reserved a))
      (s.setIa a { ia with reserved := some h, cleanupCount := n }) := by
  obtain ⟨⟨l, hl, hd, hm⟩, hres⟩ := hI.set a ia hia
  have hrole : ∀ x (k : Role A), k ≠ .hand → k ≠ .reserved a →
      (role x = k ↔ update role h (.reserved a) x = k) := fun x k h1 h2 =>
    update_role_of (hh ▸ h1.symm) h2.symm
  refine ⟨fun x hx => (hrole x _ (by simp) (by simp)).1 (hI.fresh x hx), ?_, fun b hb x => ?_,
    fun b ib hb => ?_, fun x => ?_, hI.apart⟩
  · obtain ⟨l, hl, hd, hm⟩ := hI.free
    exact ⟨l, hl, hd, fun x => (hm x).trans (hrole x _ (by simp) (by simp))⟩
  · have hba : b ≠ a := fun h => by simp [setIa, h] at hb
    have hu := hI.unset b (by simpa [setIa, hba] using hb) x
    exact ⟨fun hx => hu.1 ((hrole x _ (by simp) (by simp)).2 hx),
      fun hx => hu.2 ((hrole x _ (by simp) (by simp [hba])).2 hx)⟩
  · rcases eq_or_ne b a with rfl | hba
    · obtain rfl : _ = ib := by simpa [setIa] using hb
      refine ⟨⟨l, hl, hd, fun x => (hm x).trans (hrole x _ (by simp) (by simp))⟩, fun x => ?_⟩
      have hx := hres x
      rw [hnone] at hx
      rw [update_role]
      simp [← hx, eq_comm]
    · exact (hI.set b ib (by simpa [setIa, hba] using hb)).congr (fun hl _ => hl)
        (fun x => hrole x _ (by simp) (by simp)) fun x => hrole x _ (by simp) (by simp [hba])
  · change Books st s.live x _ (s.header x)
    have hB := hI.books x
    rcases eq_or_ne x h with rfl | hx
    · rw [update_self]
      exact hB.fill (.inl hh)
    · rw [update_of_ne hx]
      exact hB

theorem advance_next (hne : h ≠ ia.cur) :
    (s.advance a ia h).next = update (update s.next ia.cur (some h)) h none := by
  funext x
  unfold next advance setIa edit
  rcases eq_or_ne x h with rfl | hx
  · simp
  rcases eq_or_ne x ia.cur with rfl | hxc
  · simp [hx]
  · simp [hx, hxc]

theorem advance_header {j : ItemAllocator} (x : ℕ) : ((s.advance a j h).header x).size = (s.header x).size ∧
    ((s.advance a j h).header x).offset = (s.header x).offset ∧
    ((s.advance a j h).header x).freed = (s.header x).freed := by
  unfold advance setIa edit
  simp only [update_apply]
  split_ifs <;> simp_all

omit [DecidableEq A] in
/-- What an allocator has once a segment that was handed out, or reserved, is its current one. -/
theorem Holds.advance {next : ℕ → Option ℕ} (hH : Holds role next a ia) {j : ItemAllocator}
    (hold : j.oldest = ia.oldest) (hh : role h = .hand ∧ j.reserved = ia.reserved ∨
      ia.reserved = some h ∧ j.reserved = none) :
    Holds (update role h (.chain a)) (update (update next ia.cur (some h)) h none) a
      { j with cur := h } := by
  obtain ⟨⟨l, hl, hd, hm⟩, hres⟩ := hH
  have hh' : role h = .hand ∨ role h = .reserved a := hh.imp And.left fun h => (hres _).1 h.1
  have hnot : h ∉ l ++ [ia.cur] := fun hx => by simp [(hm h).1 hx] at hh'
  refine ⟨⟨l ++ [ia.cur], ?_, ?_, fun x => ?_⟩, fun x => ?_⟩
  · rw [hold]
    exact hl.snoc hd hnot
  · rw [List.nodup_append]
    refine ⟨hd, List.nodup_singleton h, fun x hx y hy => ?_⟩
    rw [List.mem_singleton.1 hy]
    exact ne_of_mem_of_not_mem hx hnot
  · rw [List.mem_append, hm x, update_role, List.mem_singleton]
    constructor
    · rintro (hx | hx)
      · refine .inr ⟨?_, hx⟩
        rintro rfl
        simp [hx] at hh'
      · exact .inl ⟨hx, rfl⟩
    · rintro (⟨hx, -⟩ | ⟨-, hx⟩)
      · exact .inr hx
      · exact .inl hx
  · change j.reserved = some x ↔ _
    rcases hh with ⟨hh, hr⟩ | ⟨hr, hr'⟩
    · rw [hr, hres x]
      exact update_role_of (by simp [hh]) (by simp)
    · rw [hr', update_role]
      refine iff_of_false (by simp) ?_
      rintro (⟨-, hx⟩ | ⟨hne, hx⟩)
      · cases hx
      · have hx := (hres x).2 hx
        rw [hr] at hx
        exact hne (Option.some.inj hx).symm

/-- A segment that was handed out, or reserved, becomes the current one. -/
theorem Inv.advance (hI : Inv st role s) (hia : s.ia a = some ia) {j : ItemAllocator}
    (hcur : j.cur = ia.cur) (hold : j.oldest = ia.oldest)
    (hh : role h = .hand ∧ j.reserved = ia.reserved ∨
      ia.reserved = some h ∧ j.reserved = none) :
    Inv st (update role h (.chain a)) (s.advance a j h) := by
  have hH := hI.set a ia hia
  have hh' : role h = .hand ∨ role h = .reserved a :=
    hh.imp And.left fun h => (hH.reserved _).1 h.1
  have hc : role ia.cur = .chain a := by
    obtain ⟨l, -, -, hm⟩ := hH.chain
    exact (hm _).1 (by simp)
  have hne : h ≠ ia.cur := fun h => by
    rw [← h] at hc
    simp [hc] at hh'
  have hnext : (s.advance a j h).next = update (update s.next ia.cur (some h)) h none := by
    rw [← hcur] at hne ⊢
    exact advance_next hne
  have hoff : ∀ {p : Option ℕ} {l : List ℕ}, Linked s.next p l → ia.cur ∉ l → h ∉ l →
      Linked (s.advance a j h).next p l := fun {p l} hl hc hh => by
    rw [hnext]
    exact (hl.off hc).off hh
  have hrole : ∀ x (k : Role A), k ≠ .hand → k ≠ .chain a → k ≠ .reserved a →
      (role x = k ↔ update role h (.chain a) x = k) := fun x k h1 h2 h3 =>
    update_role_of (by rcases hh' with hr | hr <;> simp [hr, h1.symm, h3.symm]) h2.symm
  have hset : ∀ b, (s.advance a j h).ia b =
      if b = a then some { j with cur := h } else s.ia b := fun b => update_apply ..
  refine ⟨fun x hx => (hrole x _ (by simp) (by simp) (by simp)).1 (hI.fresh x hx), ?_,
    fun b hb x => ?_, fun b ib hb => ?_, fun x => ?_, hI.apart⟩
  · obtain ⟨l, hl, hd, hm⟩ := hI.free
    refine ⟨l, hoff hl (fun hx => ?_) (fun hx => ?_), hd,
      fun x => (hm x).trans (hrole x _ (by simp) (by simp) (by simp))⟩
    · simp [(hm _).1 hx] at hc
    · simp [(hm _).1 hx] at hh'
  · rw [hset] at hb
    split_ifs at hb with hba
    have hu := hI.unset b hb x
    exact ⟨fun hx => hu.1 ((hrole x _ (by simp) (by simp [hba]) (by simp)).2 hx),
      fun hx => hu.2 ((hrole x _ (by simp) (by simp) (by simp [hba])).2 hx)⟩
  · rw [hset] at hb
    split_ifs at hb with hba
    · subst hba
      cases hb
      rw [hnext]
      exact hH.advance hold hh
    · refine (hI.set b ib hb).congr (fun hl hm => hoff hl (fun hx => ?_) fun hx => ?_)
        (fun x => hrole x _ (by simp) (by simp [hba]) (by simp))
        fun x => hrole x _ (by simp) (by simp) (by simp [hba])
      · simp [hm _ hx, hba] at hc
      · simp [hm _ hx] at hh'
  · obtain ⟨hs, ho, hf⟩ := advance_header (s := s) (a := a) (j := j) (h := h) x
    have hB := hI.books x
    refine Books.congr ?_ hs ho hf
    change Books st s.live x _ (s.header x)
    rcases eq_or_ne x h with rfl | hx
    · rw [update_self]
      exact hB.fill (hh'.imp_right fun hr => ⟨a, hr⟩)
    · rw [update_of_ne hx]
      exact hB

/-- The chain of an allocator, at segment `R.head?`. -/
structure Walks (role : ℕ → Role A) (next : ℕ → Option ℕ) (a : A) (ia : ItemAllocator)
    (K R : List ℕ) : Prop where
  linked : Linked next ia.oldest (K ++ R)
  nodup : (K ++ R).Nodup
  mem : ∀ x, x ∈ K ++ R ↔ role x = .chain a
  last : R.getLast? = some ia.cur

omit [DecidableEq A] in
/-- The chain that is walked ends with the current segment. -/
theorem Walks.holds {next : ℕ → Option ℕ} {K R : List ℕ} (hW : Walks role next a ia K R)
    (hres : ∀ x, ia.reserved = some x ↔ role x = .reserved a) : Holds role next a ia := by
  have hR : R ≠ [] := fun hR => by
    have hlast := hW.last
    rw [hR] at hlast
    cases hlast
  have hne : K ++ R ≠ [] := List.append_ne_nil_of_right_ne_nil _ hR
  have hlast : (K ++ R).getLast hne = ia.cur := by
    have h := hW.last
    rw [List.getLast?_eq_some_getLast hR] at h
    rw [List.getLast_append_of_ne_nil _ hR]
    exact Option.some.inj h
  have hsplit := List.dropLast_append_getLast hne
  rw [hlast] at hsplit
  refine ⟨⟨(K ++ R).dropLast, ?_⟩, hres⟩
  rw [hsplit]
  exact ⟨hW.linked, hW.nodup, hW.mem⟩

omit [DecidableEq A] in
/-- The walk goes on without the segment it stands at, which is linked past. -/
theorem Walks.recycle {next next₁ : ℕ → Option ℕ} {K R : List ℕ} {y : ℕ} {n : Option ℕ}
    (hW : Walks role next a ia K (x :: y :: R)) {j : ItemAllocator}
    (hl : Linked next₁ j.oldest (K ++ y :: R)) (hcur : j.cur = ia.cur) :
    Walks (update role x .free) (update next₁ x n) a j K (y :: R) := by
  have hd := hW.nodup
  rw [List.nodup_append] at hd
  obtain ⟨hdK, hdR, hKR⟩ := hd
  rw [List.nodup_cons] at hdR
  have hxK : x ∉ K := fun hxK => hKR x hxK x (by simp) rfl
  have hxR : x ∉ K ++ y :: R := fun hm => (List.mem_append.1 hm).elim hxK hdR.1
  refine ⟨hl.off hxR, ?_, fun z => ?_, ?_⟩
  · rw [List.nodup_append]
    exact ⟨hdK, hdR.2, fun u hu v hv => hKR u hu v (List.mem_cons_of_mem _ hv)⟩
  · have hz := hW.mem z
    rw [update_role]
    rcases eq_or_ne z x with rfl | hzx
    · simp only [hxR, false_iff]
      simp
    · rw [← hz]
      simp [hzx]
  · rw [hcur, ← hW.last]
    rfl

omit [DecidableEq A] in
/-- A segment of a chain all of which has been freed has no live item. -/
theorem Inv.no_items (hI : Inv st role s) (hx : role x = .chain a)
    (hfull : (s.header x).freed = (s.header x).size) : ∀ i ∈ s.live, i.1 / st.segsize ≠ x := by
  intro i hi hix
  obtain ⟨hroom, hle⟩ := (hI.books x).room a hx
  obtain ⟨-, -, hpos⟩ := (hI.books x).items i hi hix
  have hused := le_used hi hix
  have hsize : 0 < itemSize := by decide
  rw [hfull] at hroom
  omega

/-- A segment of a chain all of which has been freed goes to the free list. -/
theorem Inv.recycle {t : Ialloc A} (hI : Inv st role s) (hia : s.ia a = some ia) {K R : List ℕ} {y : ℕ}
    (hW : Walks role s.next a ia K (x :: y :: R)) (hfull : (s.header x).freed = (s.header x).size)
    {j : ItemAllocator} {next₁ : ℕ → Option ℕ} (hnext : t.next = update next₁ x s.freeSegments)
    (hn : ∀ z, role z ≠ .chain a → next₁ z = s.next z) (hl : Linked next₁ j.oldest (K ++ y :: R))
    (hfree : t.freeSegments = some x) (hset : t.ia = update s.ia a (some j))
    (hcur : j.cur = ia.cur) (hres : j.reserved = ia.reserved)
    (hheader : ∀ z, (t.header z).size = (s.header z).size ∧
      (z ≠ x → (t.header z).offset = (s.header z).offset ∧
        (t.header z).freed = (s.header z).freed))
    (halloc : t.segAlloced = s.segAlloced) (hlive : t.live = s.live) :
    Inv st (update role x .free) t ∧
      Walks (update role x .free) t.next a j K (y :: R) := by
  have hx : role x = .chain a := (hW.mem x).1 (by simp)
  have hrole : ∀ z (k : Role A), k ≠ .free → k ≠ .chain a →
      (role z = k ↔ update role x .free z = k) := fun z k h1 h2 =>
    update_role_of (hx ▸ h2.symm) h1.symm
  have hwalk : Walks (update role x .free) t.next a j K (y :: R) := hnext ▸ hW.recycle hl hcur
  have hoff : ∀ {p : Option ℕ} {l : List ℕ}, Linked s.next p l →
      (∀ z ∈ l, role z ≠ .chain a) → Linked t.next p l := fun {p l} hl hm => by
    have hx' : x ∉ l := fun hm' => hm x hm' hx
    rw [hnext]
    exact (hl.congr fun z hz => hn z (hm z hz)).off hx'
  refine ⟨⟨fun z hz => ?_, ?_, fun b hb z => ?_, fun b ib hb => ?_, fun z => ?_,
    hlive ▸ hI.apart⟩, hwalk⟩
  · exact (hrole z _ (by simp) (by simp)).1 (hI.fresh z (halloc ▸ hz))
  · obtain ⟨l, hl, hd, hm⟩ := hI.free
    have hxl : x ∉ l := fun hxl => by simp [(hm x).1 hxl] at hx
    refine ⟨x :: l, ?_, List.nodup_cons.2 ⟨hxl, hd⟩, fun z => ?_⟩
    · rw [hfree, hnext]
      exact (hl.congr fun z hz => hn z (by simp [(hm z).1 hz])).push hxl
    · rw [List.mem_cons, hm z, update_role]
      rcases eq_or_ne z x with rfl | hz
      · simp
      · simp [hz]
  · rw [hset] at hb
    rcases eq_or_ne b a with rfl | hba
    · simp at hb
    rw [update_of_ne hba] at hb
    have hu := hI.unset b hb z
    exact ⟨fun hz => hu.1 ((hrole z _ (by simp) (by simp [hba])).2 hz),
      fun hz => hu.2 ((hrole z _ (by simp) (by simp)).2 hz)⟩
  · rw [hset] at hb
    rcases eq_or_ne b a with rfl | hba
    · rw [update_self] at hb
      cases hb
      refine hwalk.holds fun z => ?_
      rw [hres, (hI.set b ia hia).reserved z]
      exact hrole z _ (by simp) (by simp)
    · rw [update_of_ne hba] at hb
      exact (hI.set b ib hb).congr (fun hl hm => hoff hl fun z hz => by simp [hm z hz, hba])
        (fun z => hrole z _ (by simp) (by simp [hba])) fun z => hrole z _ (by simp) (by simp)
  · obtain ⟨hs, hsame⟩ := hheader z
    have hB := hI.books z
    rw [hlive]
    rcases eq_or_ne z x with rfl | hz
    · rw [update_self]
      refine ⟨fun _ => hs ▸ hB.size (by simp [hx]), by simp, by simp, fun i hi hiz => ?_⟩
      exact absurd hiz (hI.no_items hx hfull i hi)
    · rw [update_of_ne hz]
      exact hB.congr hs (hsame hz).1 (hsame hz).2

/-- The first segment of a chain is recycled. -/
theorem Inv.recycle_first (hI : Inv st role s) (hia : s.ia a = some ia) {R : List ℕ} {y : ℕ}
    (hW : Walks role s.next a ia [] (x :: y :: R))
    (hfull : (s.header x).freed = (s.header x).size) :
    Inv st (update role x .free) ((s.setOldest a y).segmentFree x) ∧
      ((s.setOldest a y).segmentFree x).ia a = some { ia with oldest := some y } ∧
      Walks (update role x .free) ((s.setOldest a y).segmentFree x).next a
        { ia with oldest := some y } [] (y :: R) := by
  have hset : (s.setOldest a y).ia = update s.ia a (some { ia with oldest := some y }) := by
    simp [setOldest, hia]
  have hl : Linked s.next (some y) ([] ++ y :: R) := by
    have hl := hW.linked.2
    rwa [show s.next x = some y from hl.start] at hl
  obtain ⟨hI', hW'⟩ := hI.recycle (t := (s.setOldest a y).segmentFree x)
    (j := { ia with oldest := some y }) hia hW hfull segmentFree_next (fun _ _ => rfl) hl rfl
    hset rfl rfl segmentFree_header rfl rfl
  exact ⟨hI', by simp [segmentFree, edit, hset], hW'⟩

/-- A segment of a chain after another is recycled. -/
theorem Inv.recycle_after (hI : Inv st role s) (hia : s.ia a = some ia) {K R : List ℕ} {p y : ℕ}
    (hW : Walks role s.next a ia (K ++ [p]) (x :: y :: R))
    (hfull : (s.header x).freed = (s.header x).size) :
    Inv st (update role x .free) ((s.edit p ({ · with next := some y })).segmentFree x) ∧
      ((s.edit p ({ · with next := some y })).segmentFree x).ia a = some ia ∧
      Walks (update role x .free) ((s.edit p ({ · with next := some y })).segmentFree x).next a ia
        (K ++ [p]) (y :: R) := by
  have hp : role p = .chain a := (hW.mem p).1 (by simp)
  have hlink : ∀ z, (s.edit p ({ · with next := some y })).next z =
      update s.next p (some y) z := fun z => by
    unfold next edit
    rcases eq_or_ne z p with rfl | hz
    · simp
    · simp [hz]
  have hl : Linked (s.edit p ({ · with next := some y })).next ia.oldest
      (K ++ [p] ++ y :: R) := by
    rw [funext hlink, List.append_assoc]
    refine Linked.unlink (y := x) ?_ ?_
    · simpa using hW.linked
    · simpa using hW.nodup
  have hhead : ∀ z, ((s.edit p ({ · with next := some y })).header z).size =
      (s.header z).size ∧ ((s.edit p ({ · with next := some y })).header z).offset =
      (s.header z).offset ∧ ((s.edit p ({ · with next := some y })).header z).freed =
      (s.header z).freed := fun z => by
    unfold edit
    simp only [update_apply]
    split_ifs <;> simp_all
  have hother : ∀ z, role z ≠ .chain a →
      (s.edit p ({ · with next := some y })).next z = s.next z := fun z hz => by
    rw [hlink, update_of_ne]
    rintro rfl
    exact hz hp
  obtain ⟨hI', hW'⟩ := hI.recycle
    (t := (s.edit p ({ · with next := some y })).segmentFree x) (j := ia) hia hW hfull
    segmentFree_next hother hl rfl (by simp [segmentFree, edit, hia]) rfl rfl
    (fun z => by
      obtain ⟨h1, h2⟩ := segmentFree_header (h := x)
        (s := s.edit p ({ · with next := some y })) z
      exact ⟨h1.trans (hhead z).1, fun hz => ⟨(h2 hz).1.trans (hhead z).2.1,
        (h2 hz).2.trans (hhead z).2.2⟩⟩) rfl rfl
  exact ⟨hI', by simpa [segmentFree, edit] using hia, hW'⟩

/-- A pass comes to its end, and what it has put on the free list has no live item. -/
theorem Inv.maintenanceLoop : ∀ {n : ℕ} {R K : List ℕ} {s : Ialloc A} {role : ℕ → Role A}
    {ia : ItemAllocator}, Inv st role s → s.ia a = some ia → Walks role s.next a ia K R →
    R.length ≤ n → ∃ s' role', s.maintenanceLoop a n K.getLast? R.head? = some s' ∧
      Inv st role' s'
  | n, [], K, s, role, ia, _, _, hW, _ => by
    have hlast := hW.last
    cases hlast
  | 0, x :: R, K, s, role, ia, _, _, _, hn => by simp at hn
  | n + 1, x :: R, K, s, role, ia, hI, hia, hW, hn => by
    have hnext : (s.header x).next = R.head? := hW.linked.next_eq
    unfold Ialloc.maintenanceLoop
    simp only [List.head?_cons]
    rw [hnext]
    rcases R with _ | ⟨y, R⟩
    · exact ⟨s, role, rfl, hI⟩
    simp only [List.head?_cons]
    split_ifs with hact hfull
    · exact ⟨s, role, rfl, hI⟩
    · rcases List.eq_nil_or_concat' K with rfl | ⟨K, p, rfl⟩
      · obtain ⟨hI', hia', hW'⟩ := hI.recycle_first hia hW hfull
        exact maintenanceLoop hI' hia' hW' (Nat.le_of_succ_le_succ hn)
      · obtain ⟨hI', hia', hW'⟩ := hI.recycle_after hia hW hfull
        have hlast : (K ++ [p]).getLast? = some p := by simp
        have hloop := maintenanceLoop hI' hia' hW' (Nat.le_of_succ_le_succ hn)
        rw [hlast] at hloop ⊢
        exact hloop
    · have hW' : Walks role s.next a ia (K ++ [x]) (y :: R) := by
        have hsplit : K ++ [x] ++ y :: R = K ++ x :: y :: R := by simp
        refine ⟨hsplit ▸ hW.linked, hsplit ▸ hW.nodup, hsplit ▸ hW.mem, ?_⟩
        rw [← hW.last]
        rfl
      have hlast : (K ++ [x]).getLast? = some x := by simp
      rw [← hlast]
      exact maintenanceLoop hI hia hW' (Nat.le_of_succ_le_succ hn)

omit [DecidableEq A] in
/-- A pass starts at the oldest segment of the chain. -/
theorem Inv.walks (hI : Inv st role s) (hia : s.ia a = some ia) :
    ∃ R, Walks role s.next a ia [] R ∧ R.length ≤ s.segAlloced ∧ ia.oldest = R.head? := by
  obtain ⟨⟨l, hl, hd, hm⟩, -⟩ := hI.set a ia hia
  have hsub : l ++ [ia.cur] ⊆ List.range s.segAlloced := fun x hx =>
    List.mem_range.2 (hI.lt (by simp [(hm x).1 hx]))
  have h := (List.subperm_of_subset hd hsub).length_le
  rw [List.length_range] at h
  exact ⟨l ++ [ia.cur], ⟨hl, hd, hm, by simp⟩, h, hl.start⟩

theorem Inv.maintenance (hI : Inv st role s) (hia : s.ia a = some ia) :
    ∃ s' role', s.iallocMaintenance a = some s' ∧ Inv st role' s' := by
  obtain ⟨R, hW, hlen, hstart⟩ := hI.walks hia
  obtain ⟨s', role', hs, hI'⟩ := hI.maintenanceLoop hia hW (Nat.le_succ_of_le hlen)
  refine ⟨s', role', ?_, hI'⟩
  unfold iallocMaintenance
  rw [hia]
  simp only [Option.bind_eq_bind, Option.bind_some]
  rw [hstart]
  exact hs

theorem Inv.initAllocator (hI : Inv st role s) (hia : s.ia a = none) {ok ok' : Bool}
    (hs : s.iallocInitAllocator st a ok ok' = some s') : ∃ role', Inv st role' s' := by
  unfold iallocInitAllocator at hs
  rcases h1 : s.segmentAlloc st ok with ⟨_ | c, s₁⟩ <;> rw [h1] at hs
  · cases hs
  obtain ⟨hia₁, -, -, -, hI₁⟩ := hI.segmentAlloc h1
  dsimp only at hs
  have hI₁ := hI₁.editHand (n := none) (update_self c _ _)
  rcases h2 : (s₁.edit c ({ · with next := none })).segmentAlloc st ok' with ⟨_ | r, s₂⟩ <;>
    rw [h2] at hs
  · cases hs
  obtain ⟨hia₂, -, hnext, hr, hI₂⟩ := hI₁.segmentAlloc h2
  have hne : c ≠ r := by
    rintro rfl
    simp at hr
  have hI₃ := hI₂.editHand (n := none) (update_self r _ _)
  cases hs
  refine ⟨_, hI₃.setUp ?_ ?_ (update_self _ _ _) hne ?_⟩
  · change s₂.ia a = none
    rw [hia₂]
    change s₁.ia a = none
    rw [hia₁]
    exact hia
  · rw [update_of_ne hne, update_self]
  · have hc : s₂.next c = none := by
      rw [hnext]
      simp [next, edit]
    change (update s₂.header r _ c).next = none
    rw [update_of_ne hne]
    exact hc

theorem Inv.alloc (hI : Inv st role s) (ht : itemSize ≤ total) {cleanup ok : Bool}
    {r : Option ℕ} (hs : s.iallocAlloc st a total cleanup ok = some (r, s')) :
    ∃ role', Inv st role' { s' with live := (r.map (·, total)).toList ++ s'.live } := by
  unfold iallocAlloc at hs
  rcases hia : s.ia a with _ | ia <;> rw [hia] at hs
  · cases hs
  have hcur : role ia.cur = .chain a := by
    obtain ⟨⟨l, -, -, hm⟩, -⟩ := hI.set a ia hia
    exact (hm _).1 (by simp)
  simp only [Option.bind_eq_bind, Option.bind_some] at hs
  split_ifs at hs
  · cases hs
    exact ⟨role, hI⟩
  rcases h1 : s.segmentItemAlloc st ia.cur total with ⟨r₁, s₁⟩
  obtain ⟨hia₁, -, hI₁⟩ := hI.segmentItemAlloc hcur ht h1
  rw [h1] at hs
  rcases r₁ with _ | it
  swap
  · cases hs
    exact ⟨role, hI₁⟩
  have hI₁ : Inv st role s₁ := hI₁
  have hia₁ : s₁.ia a = some ia := by rw [hia₁, hia]
  dsimp only at hs
  rcases h2 : s₁.segmentAlloc st ok with ⟨r₂, s₂⟩
  obtain ⟨hia₂, -, -, hr₂⟩ := hI₁.segmentAlloc h2
  have hia₂ : s₂.ia a = some ia := by rw [hia₂, hia₁]
  rw [h2] at hs
  rcases r₂ with _ | h
  · dsimp only at hs hr₂
    rcases hres : ia.reserved with _ | h <;> rw [hres] at hs <;> cases cleanup
    · cases hs
      exact ⟨role, hr₂⟩
    · cases hs
      exact ⟨role, hr₂⟩
    · cases hs
      exact ⟨role, hr₂⟩
    · dsimp only at hs
      have hI₃ := hr₂.advance (j := { ia with reserved := none }) hia₂ rfl rfl (.inr ⟨hres, rfl⟩)
      rcases h3 : (s₂.advance a { ia with reserved := none } h).segmentItemAlloc st h total
        with ⟨r₃, s₃⟩
      rw [h3] at hs
      cases hs
      exact ⟨_, (hI₃.segmentItemAlloc (update_self _ _ _) ht h3).2.2⟩
  · dsimp only at hs
    have hI₃ := hr₂.2.advance (j := ia) hia₂ rfl rfl (.inl ⟨update_self _ _ _, rfl⟩)
    rcases h3 : (s₂.advance a ia h).segmentItemAlloc st h total with ⟨r₃, s₃⟩
    rw [h3] at hs
    cases hs
    exact ⟨_, (hI₃.segmentItemAlloc (update_self _ _ _) ht h3).2.2⟩

theorem Inv.cleanupItem (hI : Inv st role s) {idle ok : Bool}
    (hs : s.iallocCleanupItem st a idle ok = some s') : ∃ role', Inv st role' s' := by
  unfold iallocCleanupItem at hs
  rcases hia : s.ia a with _ | ia <;> rw [hia] at hs
  · cases hs
  simp only [Option.bind_eq_bind, Option.bind_some] at hs
  split_ifs at hs with hmany hidle hres hres' <;> cases hs
  · exact ⟨role, hI⟩
  · rcases h1 : s.segmentAlloc st ok with ⟨_ | h, s₁⟩ <;>
      obtain ⟨hia₁, -, -, hr⟩ := hI.segmentAlloc h1 <;>
      have hia₂ : s₁.ia a = some ia := by rw [hia₁, hia]
    · rw [← hres]
      exact ⟨role, hr.keepIa hia₂⟩
    · exact ⟨_, hr.2.reserve hia₂ hres (update_self _ _ _)⟩
  · exact ⟨role, hI.keepIa hia⟩
  · rcases h1 : s.segmentAlloc st ok with ⟨_ | h, s₁⟩ <;>
      obtain ⟨hia₁, -, -, hr⟩ := hI.segmentAlloc h1 <;>
      have hia₂ : s₁.ia a = some ia := by rw [hia₁, hia]
    · rw [← hres']
      exact ⟨role, hr.keepIa hia₂⟩
    · exact ⟨_, hr.2.reserve hia₂ hres' (update_self _ _ _)⟩
  · exact ⟨role, hI.keepIa hia⟩

theorem Inv.step (hI : Inv st role s) {c : IallocAct A} (hl : c.Legal st s)
    (hs : c.next st s = some s') : ∃ role', Inv st role' s' := by
  cases c with
  | init a ok ok' => exact hI.initAllocator hl hs
  | alloc a total cleanup ok =>
    obtain ⟨⟨r, s₁⟩, h1, rfl⟩ := Option.map_eq_some_iff.1 hs
    exact hI.alloc hl.1 h1
  | free it total =>
    obtain ⟨s₁, h1, rfl⟩ := Option.map_eq_some_iff.1 hs
    unfold iallocFree at h1
    dsimp only at h1
    split_ifs at h1
    cases h1
    exact ⟨role, hI.free_item hl⟩
  | cleanupItem a idle ok => exact hI.cleanupItem hs
  | nextRequest a =>
    obtain ⟨ia, hia, hs⟩ := Option.bind_eq_some_iff.1 hs
    cases hs
    exact ⟨role, hI.keepIa hia⟩
  | maintenance a =>
    obtain ⟨ia, hia, -⟩ := Option.bind_eq_some_iff.1 hs
    obtain ⟨t, role', ht, hI'⟩ := hI.maintenance hia
    obtain rfl : t = s' := Option.some.inj (ht.symm.trans hs)
    exact ⟨role', hI'⟩

end Allocators

end Ialloc

section Main

variable [DecidableEq A] {s : Ialloc A}

/-- The live items do not overlap and lie in segments that are not on the free list, and a
maintenance pass returns. -/
theorem live_items_apart (h : (ialloc A st).Reach (fun s c => c.Legal st s) s) :
    s.Safe st ∧ ∀ a ia, s.ia a = some ia → ∃ s', s.iallocMaintenance a = some s' := by
  have hI : ∃ role, Ialloc.Inv st role s :=
    h.invariant (I := fun s => ∃ role, Ialloc.Inv st role s)
      (fun _ hs => ⟨_, hs ▸ Ialloc.inv_initial⟩) fun _ _ _ ⟨_, hI⟩ hc hs => hI.step hc hs
  obtain ⟨role, hI⟩ := hI
  refine ⟨hI.safe, fun a ia hia => ?_⟩
  obtain ⟨s', -, hs, -⟩ := hI.maintenance hia
  exact ⟨s', hs⟩

end Main

instance IallocAct.decidableLegal (st : Settings) (s : Ialloc A) :
    DecidablePred (IallocAct.Legal st s) := fun c => by
  cases c with
  | init a ok ok' => exact decidable_of_iff ((s.ia a).isNone = true) Option.isNone_iff_eq_none
  | _ => unfold IallocAct.Legal; infer_instance

/-- Two items fill segment 0 but for filler, a third goes to a new segment; the first two are freed
and a pass puts segment 0 on the free list. -/
theorem live_items_apart_recycled : ∃ s : Ialloc (Fin 1), s.freeSegments = some 0 ∧
    s.live = [(200, 40)] ∧ s.Safe ⟨100, 4⟩ := by
  obtain ⟨s, hs, hP⟩ := System.drive_reach (S := ialloc (Fin 1) ⟨100, 4⟩)
    (fun s c => IallocAct.next ⟨100, 4⟩ s c) (fun s c => c.Legal ⟨100, 4⟩ s) (fun _ _ _ => id)
    (fun _ _ => id) rfl
    [.init 0 true true, .alloc 0 40 false true, .alloc 0 40 false true, .alloc 0 40 false true,
      .free 0 40, .maintenance 0, .free 40 40, .maintenance 0]
    (fun s => s.freeSegments = some 0 ∧ s.live = [(200, 40)]) (by decide +kernel)
  obtain ⟨h1, h2⟩ := of_decide_eq_true hP
  exact ⟨s, h1, h2, (live_items_apart hs).1⟩

end FlexKvs

import HeMem.FlexKvs.Log
import HeMem.FlexKvs.Proofs.Ialloc

/-!
# What a segment is cut into

The bytes of a segment in a chain are its items, one after the other, with their lengths in their
headers, and then what is still free or, once it has been closed, the filler.  An inactive segment
is closed, and the current one is the only active one of a chain.
-/

namespace FlexKvs

open Function

variable {A : Type} {st : CleanSettings}

/-- A segment that is in no list yet. -/
def Role.Spare (r : Role A) : Prop := r = .hand ∨ ∃ a, r = .reserved a

theorem Role.not_spare {a : A} : ¬ (Role.chain a).Spare := by
  simp [Spare]

namespace Ialloc

/-- An inactive segment is at its end, and the current one is the active one of its chain. -/
structure Ends (role : ℕ → Role A) (s : Ialloc A) : Prop where
  closed : ∀ x a, role x = .chain a → (s.header x).inactive = true →
    (s.header x).offset = (s.header x).size
  active : ∀ a ia, s.ia a = some ia → ∀ x, role x = .chain a →
    ((s.header x).inactive = false ↔ x = ia.cur)
  spare : ∀ x, (role x).Spare → (s.header x).inactive = false

variable {s t : Ialloc A} {role role' : ℕ → Role A} {a : A} {ia : ItemAllocator} {h x total : ℕ}

theorem ends_initial : Ends (fun _ => .lost) (initial : Ialloc A) where
  closed x a hx := by cases hx
  active a ia hia := by cases hia
  spare x hx := by simp [Role.Spare] at hx

/-- No segment comes to a chain, and no current segment changes. -/
theorem Ends.congr (hE : s.Ends role) (hc : ∀ x a, role' x = .chain a → role x = .chain a)
    (hs : ∀ x, (role' x).Spare → (t.header x).inactive = false)
    (hh : ∀ x a, role' x = .chain a → (t.header x).inactive = (s.header x).inactive ∧
      ((s.header x).inactive = true →
        (t.header x).offset = (s.header x).offset ∧ (t.header x).size = (s.header x).size))
    (hia : ∀ a j, t.ia a = some j → ∃ ia, s.ia a = some ia ∧ ia.cur = j.cur) :
    t.Ends role' where
  closed x a hx hi := by
    obtain ⟨h1, h2⟩ := hh x a hx
    have hi : (s.header x).inactive = true := h1 ▸ hi
    rw [(h2 hi).1, (h2 hi).2]
    exact hE.closed x a (hc x a hx) hi
  active a j hja x hx := by
    obtain ⟨ia, hia, hcur⟩ := hia a j hja
    rw [(hh x a hx).1, ← hcur]
    exact hE.active a ia hia x (hc x a hx)
  spare := hs

/-- What `segment_alloc` does with the headers. -/
theorem segmentAlloc_header {ok : Bool} {r : Option ℕ} (hs : s.segmentAlloc st.toSettings ok = (r, t)) :
    (∀ x, r ≠ some x → t.header x = s.header x) ∧
      ∀ h, r = some h → (t.header h).inactive = false := by
  unfold segmentAlloc at hs
  rcases hfs : s.freeSegments with _ | h <;> rw [hfs] at hs
  · dsimp only at hs
    split_ifs at hs <;> cases hs
    · exact ⟨fun _ _ => rfl, by simp⟩
    · refine ⟨fun x hx => ?_, ?_⟩
      · have hx' : x ≠ s.segAlloced := fun he => hx (by rw [he])
        simp [edit, hx']
      · simp [edit]
    · exact ⟨fun _ _ => rfl, by simp⟩
  · cases hs
    refine ⟨fun x hx => ?_, ?_⟩
    · have hx' : x ≠ h := fun he => hx (by rw [he])
      simp [edit, hx']
    · simp [edit]

theorem Ends.segmentAlloc (hE : s.Ends role) {ok : Bool} {r : Option ℕ}
    (hia : t.ia = s.ia) (hs : s.segmentAlloc st.toSettings ok = (r, t)) :
    t.Ends (r.elim role fun h => update role h .hand) := by
  obtain ⟨hsame, hnew⟩ := segmentAlloc_header hs
  rcases r with _ | h
  · exact hE.congr (fun _ _ => id) (fun x hx => by rw [hsame x (by simp)]; exact hE.spare x hx)
      (fun x a _ => by simp [hsame x]) fun b ib hb => ⟨ib, hia ▸ hb, rfl⟩
  · have hne : ∀ {x a}, update role h .hand x = .chain a → x ≠ h ∧ role x = .chain a :=
      fun {x a} hx => by
        rw [update_role] at hx
        simpa using hx
    refine hE.congr (fun x a hx => (hne hx).2) (fun x hx => ?_) (fun x a hx => ?_)
      fun b ib hb => ⟨ib, hia ▸ hb, rfl⟩
    · rcases eq_or_ne x h with rfl | hxh
      · exact hnew x rfl
      · simp only [Option.elim_some] at hx
        rw [update_of_ne hxh] at hx
        rw [hsame x (by simpa using hxh.symm)]
        exact hE.spare x hx
    · rw [hsame x (by simpa using (hne hx).1.symm)]
      exact ⟨rfl, fun _ => ⟨rfl, rfl⟩⟩

theorem Ends.edit (hE : s.Ends role) {f : SegmentHeader → SegmentHeader}
    (hf : (f (s.header x)).inactive = (s.header x).inactive)
    (ho : (s.header x).inactive = true → (f (s.header x)).offset = (s.header x).offset ∧
      (f (s.header x)).size = (s.header x).size) : (s.edit x f).Ends role := by
  have hne : ∀ y, y ≠ x → (s.edit x f).header y = s.header y := fun y hy => update_of_ne hy _ _
  have hx : (s.edit x f).header x = f (s.header x) := update_self ..
  refine hE.congr (fun _ _ => id) (fun y hy => ?_) (fun y b _ => ?_) fun b ib hb => ⟨ib, hb, rfl⟩
  · rcases eq_or_ne y x with rfl | hyx
    · rw [hx, hf]
      exact hE.spare y hy
    · rw [hne y hyx]
      exact hE.spare y hy
  · rcases eq_or_ne y x with rfl | hyx
    · rw [hx]
      exact ⟨hf, ho⟩
    · rw [hne y hyx]
      exact ⟨rfl, fun _ => ⟨rfl, rfl⟩⟩

theorem segmentItemAlloc_ia {r : Option ℕ}
    (hs : s.segmentItemAlloc st.toSettings h total = (r, t)) :
    t.ia = s.ia ∧ t.live = s.live ∧ ∀ x, (t.header x).inactive = (s.header x).inactive ∧
      (t.header x).size = (s.header x).size ∧ (x ≠ h → t.header x = s.header x) := by
  unfold segmentItemAlloc at hs
  dsimp only at hs
  split_ifs at hs <;> cases hs <;> refine ⟨rfl, rfl, fun x => ?_⟩ <;>
    rcases eq_or_ne x h with rfl | hx <;> simp [Ialloc.segmentItemFree, edit, *]

/-- Where `segment_item_alloc` leaves the offset. -/
theorem segmentItemAlloc_offset (hle : (s.header h).offset.toNat ≤ (s.header h).size.toNat)
    {r : Option ℕ} (hs : s.segmentItemAlloc st.toSettings h total = (r, t)) :
    match r with
    | none => (t.header h).offset = (t.header h).size
    | some it => it = st.segsize * h + (s.header h).offset.toNat ∧
        (s.header h).offset.toNat < (s.header h).size.toNat ∧
        (t.header h).offset.toNat = (s.header h).offset.toNat + total ∧
        (t.header h).offset.toNat ≤ (s.header h).size.toNat := by
  have havail : ((s.header h).size - (s.header h).offset).toNat =
      (s.header h).size.toNat - (s.header h).offset.toNat := UInt32.toNat_sub_of_le _ _ hle
  have hmax := (s.header h).size.toNat_lt
  unfold segmentItemAlloc at hs
  simp only [havail] at hs
  split_ifs at hs with h0 hlt <;> cases hs
  · exact UInt32.toNat_inj.1 (by omega)
  · refine UInt32.toNat_inj.1 ?_
    simp only [segmentItemFree, edit, update_self]
    rw [toNat_add_ofNat32 (by omega)]
    omega
  · simp only [edit, update_self]
    rw [toNat_add_ofNat32 (by omega)]
    refine ⟨?_, ?_, ?_, ?_⟩ <;> first | rfl | trivial | omega

theorem Ends.segmentItemAlloc (hE : s.Ends role) (hi : (s.header h).inactive = false)
    {r : Option ℕ} (hs : s.segmentItemAlloc st.toSettings h total = (r, t)) : t.Ends role := by
  obtain ⟨hia, -, hh⟩ := segmentItemAlloc_ia hs
  refine hE.congr (fun _ _ => id) (fun x hx => ?_) (fun x b _ => ⟨(hh x).1, fun hx => ?_⟩)
    fun b ib hb => ⟨ib, hia ▸ hb, rfl⟩
  · rw [(hh x).1]
    exact hE.spare x hx
  · rw [(hh x).2.2 ?_]
    · exact ⟨rfl, rfl⟩
    · rintro rfl
      simp [hi] at hx

variable [DecidableEq A]

/-- The current segment of an allocator stays the same. -/
theorem Ends.setIa (hE : s.Ends role) (hia : s.ia a = some ia) {j : ItemAllocator}
    (hcur : j.cur = ia.cur) : (s.setIa a j).Ends role :=
  hE.congr (fun _ _ => id) hE.spare (fun _ _ _ => ⟨rfl, fun _ => ⟨rfl, rfl⟩⟩) fun b ib hb => by
    rcases eq_or_ne b a with rfl | hba
    · obtain rfl : j = ib := by simpa [Ialloc.setIa] using hb
      exact ⟨ia, hia, hcur.symm⟩
    · exact ⟨ib, by simpa [Ialloc.setIa, hba] using hb, rfl⟩

omit [DecidableEq A] in
/-- A spare segment is reserved. -/
theorem Ends.reserved (hE : s.Ends role) (hh : (role h).Spare) :
    s.Ends (update role h (.reserved a)) := by
  refine hE.congr (fun x b hx => ?_) (fun x hx => ?_) (fun _ _ _ => ⟨rfl, fun _ => ⟨rfl, rfl⟩⟩)
    fun b ib hb => ⟨ib, hb, rfl⟩
  · rw [update_role] at hx
    simpa using hx.resolve_left (by simp) |>.2
  · rcases eq_or_ne x h with rfl | hxh
    · exact hE.spare x hh
    · rw [update_of_ne hxh] at hx
      exact hE.spare x hx

/-- A spare segment becomes the only one of a new chain. -/
theorem Ends.start (hE : s.Ends role) (hh : (role h).Spare) (hn : ∀ x, role x ≠ .chain a)
    {j : ItemAllocator} (hcur : j.cur = h) :
    (s.setIa a j).Ends (update role h (.chain a)) where
  closed x b hx hi := by
    rw [update_role] at hx
    rcases hx with ⟨rfl, -⟩ | ⟨-, hx⟩
    · exact absurd ((hE.spare x hh).symm.trans hi) (by simp)
    · exact hE.closed x b hx hi
  active b ib hb x hx := by
    rw [update_role] at hx
    change (s.header x).inactive = false ↔ _
    rcases eq_or_ne b a with rfl | hba
    · obtain rfl : j = ib := by simpa [Ialloc.setIa] using hb
      obtain rfl : x = h := (hx.resolve_right fun hx => hn x hx.2).1
      exact iff_of_true (hE.spare x hh) hcur.symm
    · have hx : role x = .chain b := by
        rcases hx with ⟨-, hx⟩ | ⟨-, hx⟩
        · simp [Ne.symm hba] at hx
        · exact hx
      exact hE.active b ib (by simpa [Ialloc.setIa, hba] using hb) x hx
  spare x hx := by
    rcases eq_or_ne x h with rfl | hxh
    · rw [update_self] at hx
      exact absurd hx Role.not_spare
    · rw [update_of_ne hxh] at hx
      exact hE.spare x hx

theorem advance_inactive {j : ItemAllocator} (x : ℕ) (hx : x ≠ j.cur) :
    ((s.advance a j h).header x).inactive = (s.header x).inactive := by
  unfold Ialloc.advance Ialloc.setIa Ialloc.edit
  simp only [update_apply]
  split_ifs <;> simp_all

/-- The current segment, at its end, becomes inactive, and a spare one current. -/
theorem Ends.advance (hE : s.Ends role) (hia : s.ia a = some ia) {j : ItemAllocator}
    (hcur : j.cur = ia.cur) (hc : role ia.cur = .chain a) (hh : (role h).Spare)
    (hend : (s.header ia.cur).offset = (s.header ia.cur).size) :
    (s.advance a j h).Ends (update role h (.chain a)) := by
  have hne : h ≠ ia.cur := by
    rintro rfl
    exact Role.not_spare (hc ▸ hh)
  have hold : ((s.advance a j h).header ia.cur).inactive = true := by
    simp [Ialloc.advance, Ialloc.setIa, Ialloc.edit, hcur, hne.symm]
  have hsame : ∀ x, x ≠ ia.cur →
      ((s.advance a j h).header x).inactive = (s.header x).inactive := fun x hx =>
    advance_inactive x (hcur ▸ hx)
  have hset : ∀ b, (s.advance a j h).ia b =
      if b = a then some { j with cur := h } else s.ia b := fun b => update_apply ..
  refine ⟨fun x b hx hi => ?_, fun b ib hb x hx => ?_, fun x hx => ?_⟩
  · obtain ⟨h1, h2, -⟩ := advance_header (s := s) (a := a) (j := j) (h := h) x
    rw [h1, h2]
    rcases eq_or_ne x ia.cur with rfl | hxc
    · exact hend
    rw [hsame x hxc] at hi
    rw [update_role] at hx
    rcases hx with ⟨rfl, -⟩ | ⟨-, hx⟩
    · exact absurd ((hE.spare x hh).symm.trans hi) (by simp)
    · exact hE.closed x b hx hi
  · rw [update_role] at hx
    rw [hset] at hb
    split_ifs at hb with hba
    · subst hba
      cases hb
      rcases hx with ⟨rfl, -⟩ | ⟨hxh, hx⟩
      · rw [hsame x hne]
        exact iff_of_true (hE.spare x hh) rfl
      · refine iff_of_false (fun hi => ?_) hxh
        rcases eq_or_ne x ia.cur with rfl | hxc
        · simp [hold] at hi
        · rw [hsame x hxc] at hi
          exact hxc ((hE.active b ia hia x hx).1 hi)
    · have hx : role x = .chain b := by
        rcases hx with ⟨-, hx⟩ | ⟨-, hx⟩
        · exact absurd (Role.chain.inj hx).symm hba
        · exact hx
      have hxc : x ≠ ia.cur := by
        rintro rfl
        exact hba (Role.chain.inj (hx.symm.trans hc))
      rw [hsame x hxc]
      exact hE.active b ib hb x hx
  · rcases eq_or_ne x h with rfl | hxh
    · rw [update_self] at hx
      exact absurd hx Role.not_spare
    · rw [update_of_ne hxh] at hx
      have hxc : x ≠ ia.cur := by
        rintro rfl
        exact Role.not_spare (hc ▸ hx)
      rw [hsame x hxc]
      exact hE.spare x hx

end Ialloc

namespace Log

/-- Segment `x` is cut into its items and, once it is closed, what was left of it. -/
structure Cut (st : CleanSettings) (s : Log A) (x : ℕ) : Prop where
  big : ∀ t ∈ s.items x, itemSize ≤ t
  told : Pieces.Told (s.totalAt st x) 0 (s.items x)
  whole : s.rest x = none → (s.items x).sum = (s.ialloc.header x).offset.toNat
  filler : ∀ n, s.rest x = some n →
    (s.ialloc.header x).offset = (s.ialloc.header x).size ∧
      (s.items x).sum + n = (s.ialloc.header x).size.toNat ∧ 0 < n ∧
      (itemSize ≤ n → s.totalAt st x (s.items x).sum = itemSize + (n - itemSize) % 2 ^ 16)

structure Inv (st : CleanSettings) (role : ℕ → Role A) (s : Log A) : Prop where
  base : s.ialloc.Inv st.toSettings role
  ends : s.ialloc.Ends role
  cut : ∀ x a, role x = .chain a → s.Cut st x
  blank : ∀ x, (role x).Spare → s.items x = [] ∧ s.rest x = none
  sized : ∀ i ∈ s.ialloc.live, (s.item i.1).totalsz = i.2

variable {s t : Log A} {role role' : ℕ → Role A} {a : A} {h x o total : ℕ}

theorem inv_initial : Inv st (fun _ => .lost) ({} : Log A) where
  base := Ialloc.inv_initial
  ends := Ialloc.ends_initial
  cut x a hx := by cases hx
  blank x hx := by simp [Role.Spare] at hx
  sized i hi := by cases hi

theorem Cut.sum_le (hC : s.Cut st x) : (s.items x).sum ≤ (s.ialloc.header x).offset.toNat := by
  rcases hr : s.rest x with _ | n
  · exact Nat.le_of_eq (hC.whole hr)
  · obtain ⟨ho, hsum, -, -⟩ := hC.filler n hr
    rw [ho]
    omega

/-- The cut is about the headers that are in the segment. -/
theorem Cut.congr (hC : s.Cut st x) (hi : t.items x = s.items x) (hr : t.rest x = s.rest x)
    (ho : (t.ialloc.header x).offset = (s.ialloc.header x).offset)
    (hz : (t.ialloc.header x).size = (s.ialloc.header x).size)
    (hle : (s.ialloc.header x).offset.toNat ≤ (s.ialloc.header x).size.toNat)
    (hsame : ∀ o, o < (s.ialloc.header x).size.toNat → t.totalAt st x o = s.totalAt st x o) :
    t.Cut st x where
  big := hi ▸ hC.big
  told := by
    rw [hi]
    refine hC.told.congr (fun o ho => hsame o ?_) fun t ht =>
      Nat.lt_of_lt_of_le (by decide) (hC.big t ht)
    have := hC.sum_le
    omega
  whole := by
    rw [hi, hr, ho]
    exact hC.whole
  filler n hn := by
    obtain ⟨h1, h2, h3, h4⟩ := hC.filler n (hr ▸ hn)
    rw [hi, ho, hz]
    refine ⟨h1, h2, h3, fun hbig => ?_⟩
    rw [hsame _ (by omega)]
    exact h4 hbig

theorem address_eq {segsize h o x p : ℕ} (ho : o < segsize) (hp : p < segsize)
    (he : segsize * x + p = segsize * h + o) : x = h ∧ p = o := by
  have hdiv : ∀ {y q : ℕ}, q < segsize → (segsize * y + q) / segsize = y := fun {y q} hq => by
    rw [Nat.mul_add_div (by omega), Nat.div_eq_of_lt hq, Nat.add_zero]
  have hxh : x = h := by rw [← hdiv (y := x) hp, he, hdiv ho]
  subst hxh
  exact ⟨rfl, Nat.add_left_cancel he⟩

/-- The room of a chain's segment. -/
theorem Inv.room (hI : Inv st role s) (hr : role x = .chain a) :
    (s.ialloc.header x).offset.toNat ≤ (s.ialloc.header x).size.toNat ∧
      (s.ialloc.header x).size.toNat ≤ st.segsize := by
  refine ⟨((hI.base.books x).room a hr).2, ?_⟩
  rw [(hI.base.books x).size (by simp [hr])]
  exact Nat.mod_le ..

/-- Nothing changes but the allocator's own state, and only spare segments come to a chain. -/
theorem Inv.ialloc {i : Ialloc A} (hI : Inv st role s) (hb : i.Inv st.toSettings role')
    (he : i.Ends role') (hlive : ∀ p ∈ i.live, p ∈ s.ialloc.live)
    (hh : ∀ x a, role' x = .chain a → (role x = .chain a ∨ (role x).Spare) ∧
      (i.header x).offset = (s.ialloc.header x).offset ∧
      (i.header x).size = (s.ialloc.header x).size)
    (hs : ∀ x, (role' x).Spare → (role x).Spare) : Inv st role' { s with ialloc := i } where
  base := hb
  ends := he
  cut x a hx := by
    obtain ⟨hr | hr, ho, hz⟩ := hh x a hx
    · exact (hI.cut x a hr).congr rfl rfl ho hz (hI.room hr).1 fun _ _ => rfl
    · obtain ⟨hi, hn⟩ := hI.blank x hr
      refine ⟨by simp [hi], ?_, fun _ => ?_, by simp [hn]⟩
      · change Pieces.Told _ 0 (s.items x)
        rw [hi]
        exact .nil
      · change (s.items x).sum = (i.header x).offset.toNat
        rw [hi, ho, ((hI.base.books x).blank hr).1]
        rfl
  blank x hx := hI.blank x (hs x hx)
  sized p hp := hI.sized p (hlive p hp)

/-- A live item is before the end of its segment's items. -/
theorem Inv.live_ne (hI : Inv st role s) (ho : (s.ialloc.header h).offset.toNat < st.segsize)
    {i : ℕ × ℕ} (hi : i ∈ s.ialloc.live) :
    i.1 ≠ st.segsize * h + (s.ialloc.header h).offset.toNat := by
  intro he
  have hdiv : i.1 / st.segsize = h := by
    rw [he, Nat.mul_add_div (by omega), Nat.div_eq_of_lt ho, Nat.add_zero]
  have hmod : i.1 % st.segsize = (s.ialloc.header h).offset.toNat := by
    rw [he, Nat.mul_add_mod, Nat.mod_eq_of_lt ho]
  obtain ⟨-, hbelow, hbig⟩ := (hI.base.books h).items i hi hdiv
  have : 0 < itemSize := by decide
  omega

/-- A piece is cut from a segment at its offset. -/
theorem Inv.piece (hI : Inv st role s) (hr : role h = .chain a)
    (ho : (s.ialloc.header h).offset.toNat < st.segsize) (hb : t.ialloc.Inv st.toSettings role)
    (he : t.ialloc.Ends role) (hh : ∀ x, x ≠ h → t.ialloc.header x = s.ialloc.header x ∧
      t.items x = s.items x ∧ t.rest x = s.rest x)
    (hitem : ∀ z, z ≠ st.segsize * h + (s.ialloc.header h).offset.toNat → t.item z = s.item z)
    (hcut : t.Cut st h) (hlive : ∀ i ∈ t.ialloc.live, i ∈ s.ialloc.live ∨
      (t.item i.1).totalsz = i.2) : Inv st role t where
  base := hb
  ends := he
  cut x b hx := by
    rcases eq_or_ne x h with rfl | hxh
    · exact hcut
    obtain ⟨h1, h2, h3⟩ := hh x hxh
    obtain ⟨hle, hseg⟩ := hI.room hx
    refine (hI.cut x b hx).congr h2 h3 (by rw [h1]) (by rw [h1]) hle fun p hp => ?_
    unfold totalAt
    rw [hitem _ fun hz => hxh (address_eq ho (Nat.lt_of_lt_of_le hp hseg) hz).1]
  blank x hx := by
    have hxh : x ≠ h := by
      rintro rfl
      exact Role.not_spare (hr ▸ hx)
    obtain ⟨-, h2, h3⟩ := hh x hxh
    rw [h2, h3]
    exact hI.blank x hx
  sized i hi := (hlive i hi).elim (fun hi => by
    rw [hitem _ (hI.live_ne ho hi)]
    exact hI.sized i hi) id

theorem segmentAlloc_ialloc {ok : Bool} {r : Option ℕ} (hs : s.segmentAlloc st ok = (r, t)) :
    s.ialloc.segmentAlloc st.toSettings ok = (r, t.ialloc) := by
  unfold segmentAlloc at hs
  rcases hr : s.ialloc.segmentAlloc st.toSettings ok with ⟨_ | h, i⟩ <;> rw [hr] at hs <;>
    cases hs <;> rfl

theorem segmentItemAlloc_ialloc {r : Option ℕ} (hs : s.segmentItemAlloc st h total = (r, t)) :
    s.ialloc.segmentItemAlloc st.toSettings h total = (r, t.ialloc) := by
  unfold segmentItemAlloc at hs
  dsimp only at hs
  split_ifs at hs <;> cases hs <;> simp [Ialloc.segmentItemAlloc, editItem, *]

/-- What a call does with segments that are inactive already, and that none that has been handed
out is lost. -/
structure Kept (role role' : ℕ → Role A) (s t : Log A) : Prop where
  given : ∀ x, role x ≠ .lost → role' x ≠ .lost
  done : ∀ x a, role x = .chain a → (s.ialloc.header x).inactive = true →
    role' x = .chain a ∧ (t.ialloc.header x).inactive = true ∧ t.items x = s.items x ∧
      t.rest x = s.rest x ∧ t.recycled x = s.recycled x

theorem Kept.trans {u : Log A} {role'' : ℕ → Role A} (h : Kept role role' s t)
    (h' : Kept role' role'' t u) : Kept role role'' s u where
  given x hx := h'.given x (h.given x hx)
  done x a hx hi := by
    obtain ⟨h1, h2, h3, h4, h5⟩ := h.done x a hx hi
    obtain ⟨g1, g2, g3, g4, g5⟩ := h'.done x a h1 h2
    exact ⟨g1, g2, g3.trans h3, g4.trans h4, g5.trans h5⟩

theorem Kept.refl : Kept role role s s := ⟨fun _ => id, fun _ _ h1 h2 => ⟨h1, h2, rfl, rfl, rfl⟩⟩

/-- A piece is cut from an active segment. -/
theorem Kept.piece (hi : (s.ialloc.header h).inactive = false)
    (hh : ∀ x, (t.ialloc.header x).inactive = (s.ialloc.header x).inactive)
    (hs : ∀ x, x ≠ h → t.items x = s.items x ∧ t.rest x = s.rest x)
    (hr : t.recycled = s.recycled) : Kept role role s t where
  given _ := id
  done x a hx hx' := by
    have hxh : x ≠ h := by
      rintro rfl
      simp [hi] at hx'
    exact ⟨hx, (hh x).trans hx', (hs x hxh).1, (hs x hxh).2, by rw [hr]⟩

theorem totalsz_filler {n : ℕ} :
    (⟨0, UInt16.ofNat n, 0⟩ : ItemHeader).totalsz = itemSize + n % 2 ^ 16 := by
  simp [ItemHeader.totalsz, UInt16.toNat_ofNat']

/-- What `segment_item_alloc` does beside what it does in the segment's header. -/
theorem segmentItemAlloc_cases {r : Option ℕ}
    (hle : (s.ialloc.header h).offset.toNat ≤ (s.ialloc.header h).size.toNat)
    (hs : s.segmentItemAlloc st h total = (r, t)) :
    let n := (s.ialloc.header h).size.toNat - (s.ialloc.header h).offset.toNat
    let it := st.segsize * h + (s.ialloc.header h).offset.toNat
    t.recycled = s.recycled ∧ t.cleaner = s.cleaner ∧ (∀ z, z ≠ it → t.item z = s.item z) ∧
      (r = none ∧ t = s ∨
      r = none ∧ 0 < n ∧ t.items = s.items ∧ t.rest = update s.rest h (some n) ∧
        (itemSize ≤ n → (t.item it).totalsz = itemSize + (n - itemSize) % 2 ^ 16) ∨
      r = some it ∧ 0 < n ∧ t.items = update s.items h (s.items h ++ [total]) ∧
        t.rest = s.rest) := by
  have havail : ((s.ialloc.header h).size - (s.ialloc.header h).offset).toNat =
      (s.ialloc.header h).size.toNat - (s.ialloc.header h).offset.toNat :=
    UInt32.toNat_sub_of_le _ _ hle
  unfold segmentItemAlloc at hs
  simp only [havail] at hs
  split_ifs at hs with h0 hlt hbig
  · have hsame : (s.ialloc.segmentItemAlloc st.toSettings h total).2 = s.ialloc := by
      simp [Ialloc.segmentItemAlloc, havail, h0]
    rw [hsame] at hs
    cases hs
    exact ⟨rfl, rfl, fun _ _ => rfl, .inl ⟨rfl, rfl⟩⟩
  · cases hs
    refine ⟨rfl, rfl, fun z hz => update_of_ne hz _ _, .inr (.inl ⟨rfl, by omega, rfl, rfl, ?_⟩)⟩
    simp only [editItem, update_self]
    exact fun _ => totalsz_filler
  · cases hs
    exact ⟨rfl, rfl, fun _ _ => rfl, .inr (.inl ⟨rfl, by omega, rfl, rfl, fun hn => absurd hn hbig⟩)⟩
  · cases hs
    exact ⟨rfl, rfl, fun z hz => update_of_ne hz _ _, .inr (.inr ⟨rfl, by omega, rfl, rfl⟩)⟩

/-- A segment that has room is not closed. -/
theorem Cut.open (hC : s.Cut st h)
    (hn : 0 < (s.ialloc.header h).size.toNat - (s.ialloc.header h).offset.toNat) :
    s.rest h = none := by
  rcases hr : s.rest h with _ | m
  · rfl
  · rw [(hC.filler m hr).1] at hn
    omega

/-- The closing of a segment writes the header of the filler, if it has room for one. -/
theorem Inv.close (hI : Inv st role s) (hr : role h = .chain a)
    (hi : (s.ialloc.header h).inactive = false) (ht : itemSize ≤ total)
    (hs : s.segmentItemAlloc st h total = (none, t)) :
    Inv st role t ∧ (t.ialloc.header h).offset = (t.ialloc.header h).size ∧
      Kept role role s t ∧ t.ialloc.ia = s.ialloc.ia ∧ t.cleaner = s.cleaner := by
  have hs' := segmentItemAlloc_ialloc hs
  obtain ⟨hle, hseg⟩ := hI.room hr
  obtain ⟨-, -, hb⟩ := hI.base.segmentItemAlloc hr ht hs'
  obtain ⟨hia, hlive, hh⟩ := Ialloc.segmentItemAlloc_ia hs'
  have hend := Ialloc.segmentItemAlloc_offset hle hs'
  obtain ⟨hrec, hcl, hitem, hcase⟩ := segmentItemAlloc_cases hle hs
  have hC := hI.cut h a hr
  obtain ⟨-, rfl⟩ | ⟨-, hn, hitems, hrest, hfill⟩ | ⟨hno, -⟩ := hcase
  · exact ⟨hI, hend, .refl, rfl, rfl⟩
  · have hopen := hC.open hn
    have hsum := hC.whole hopen
    have hsz : (t.ialloc.header h).size = (s.ialloc.header h).size := (hh h).2.1
    refine ⟨hI.piece hr (by omega) hb (hI.ends.segmentItemAlloc hi hs') (fun x hx => ?_) hitem ?_ ?_,
      hend, .piece hi (fun x => (hh x).1) (fun x hx => ?_) hrec, hia, hcl⟩
    · exact ⟨(hh x).2.2 hx, by rw [hitems], by rw [hrest, update_of_ne hx]⟩
    · refine ⟨hitems ▸ hC.big, ?_, fun hr => ?_, fun m hm => ?_⟩
      · rw [hitems]
        refine hC.told.congr (fun o ho => ?_) fun u hu =>
          Nat.lt_of_lt_of_le (by decide) (hC.big u hu)
        unfold totalAt
        rw [hitem]
        omega
      · rw [hrest, update_self] at hr
        cases hr
      · rw [hrest, update_self] at hm
        cases hm
        rw [hend, hsz, hitems]
        refine ⟨rfl, by omega, hn, fun hbig => ?_⟩
        unfold totalAt
        rw [hsum]
        exact hfill hbig
    · exact fun i hi => .inl (hlive ▸ hi)
    · exact ⟨by rw [hitems], by rw [hrest, update_of_ne hx]⟩
  · cases hno

/-- An item is cut from a segment and its lengths are set. -/
theorem Inv.item (hI : Inv st role s) (hr : role h = .chain a)
    (hi : (s.ialloc.header h).inactive = false) {keylen : UInt16} {vallen : UInt32} {it : ℕ}
    (hs : s.segmentItemAlloc st h (itemSize + keylen.toNat + vallen.toNat) = (some it, t)) :
    Inv st role (t.setLengths (some it) keylen vallen) ∧
      Kept role role s (t.setLengths (some it) keylen vallen) ∧ t.ialloc.ia = s.ialloc.ia ∧
      t.cleaner = s.cleaner := by
  have hs' := segmentItemAlloc_ialloc hs
  obtain ⟨hle, hseg⟩ := hI.room hr
  obtain ⟨-, -, hb⟩ := hI.base.segmentItemAlloc hr (by omega) hs'
  obtain ⟨hia, hlive, hh⟩ := Ialloc.segmentItemAlloc_ia hs'
  obtain ⟨hit, hlt, hoff, hle'⟩ := Ialloc.segmentItemAlloc_offset hle hs'
  obtain ⟨hrec, hcl, hitem, hcase⟩ := segmentItemAlloc_cases hle hs
  have hC := hI.cut h a hr
  obtain ⟨hno, -⟩ | ⟨hno, -⟩ | ⟨-, hn, hitems, hrest⟩ := hcase
  · cases hno
  · cases hno
  have hopen := hC.open hn
  have hsum := hC.whole hopen
  have he := hI.ends.segmentItemAlloc hi hs'
  have hnew : ∀ z, z ≠ it → (t.setLengths (some it) keylen vallen).item z = s.item z :=
    fun z hz => (update_of_ne hz _ _).trans (hitem z (hit ▸ hz))
  have htotal : ((t.setLengths (some it) keylen vallen).item it).totalsz =
      itemSize + keylen.toNat + vallen.toNat := by
    simp only [setLengths, editItem, update_self, ItemHeader.totalsz]
    omega
  refine ⟨hI.piece hr (by omega) hb ⟨he.closed, he.active, he.spare⟩ (fun x hx => ?_)
    (fun z hz => hnew z (hit ▸ hz)) ?_ fun i hi => ?_,
    .piece hi (fun x => (hh x).1) (fun x hx => ?_) hrec, hia, hcl⟩
  · refine ⟨(hh x).2.2 hx, ?_, congrFun hrest x⟩
    change t.items x = _
    rw [hitems, update_of_ne hx]
  · have hthere : (t.setLengths (some it) keylen vallen).items h =
        s.items h ++ [itemSize + keylen.toNat + vallen.toNat] := by
      change t.items h = _
      rw [hitems, update_self]
    have hsame : (t.setLengths (some it) keylen vallen).rest h = none :=
      (congrFun hrest h).trans hopen
    refine ⟨fun u hu => ?_, ?_, fun _ => ?_, fun n hn => ?_⟩
    · rw [hthere, List.mem_append, List.mem_singleton] at hu
      rcases hu with hu | rfl
      · exact hC.big u hu
      · omega
    · rw [hthere, Pieces.told_append, Nat.zero_add, Pieces.told_singleton]
      constructor
      · refine hC.told.congr (fun o ho => ?_) fun u hu =>
          Nat.lt_of_lt_of_le (by decide) (hC.big u hu)
        unfold totalAt
        rw [hnew]
        omega
      · unfold totalAt
        rw [hsum, ← hit]
        exact htotal
    · rw [hthere, List.sum_append, List.sum_singleton, hsum]
      exact hoff.symm
    · rw [hsame] at hn
      cases hn
  · obtain rfl | hi := List.mem_cons.1 hi
    · exact .inr htotal
    · exact .inl (hlive ▸ hi)
  · refine ⟨?_, congrFun hrest x⟩
    change t.items x = _
    rw [hitems, update_of_ne hx]

/-- A segment that can take no more, or an item with its lengths. -/
theorem Inv.cutItem (hI : Inv st role s) (hr : role h = .chain a)
    (hi : (s.ialloc.header h).inactive = false) {keylen : UInt16} {vallen : UInt32} {r : Option ℕ}
    (hs : s.segmentItemAlloc st h (itemSize + keylen.toNat + vallen.toNat) = (r, t)) :
    Inv st role (t.setLengths r keylen vallen) ∧
      Kept role role s (t.setLengths r keylen vallen) ∧
      (t.setLengths r keylen vallen).cleaner = s.cleaner := by
  rcases r with _ | it
  · obtain ⟨hI', -, hk, -, hc⟩ := hI.close hr hi (by omega) hs
    exact ⟨hI', hk, hc⟩
  · obtain ⟨hI', hk, -, hc⟩ := hI.item hr hi hs
    exact ⟨hI', hk, hc⟩

/-- The headers of inactive segments and what they have been cut into stay. -/
theorem Kept.of_same (hg : ∀ x, role x ≠ .lost → role' x ≠ .lost)
    (hr : ∀ x a, role x = .chain a → role' x = .chain a)
    (hh : ∀ x a, role x = .chain a → (s.ialloc.header x).inactive = true →
      (t.ialloc.header x).inactive = true)
    (hi : ∀ x a, role x = .chain a → t.items x = s.items x ∧ t.rest x = s.rest x ∧
      t.recycled x = s.recycled x) : Kept role role' s t :=
  ⟨hg, fun x a hx hx' => ⟨hr x a hx, hh x a hx hx', hi x a hx⟩⟩

theorem Inv.segmentAlloc (hI : Inv st role s) {ok : Bool} {r : Option ℕ}
    (hs : s.segmentAlloc st ok = (r, t)) :
    t.ialloc.ia = s.ialloc.ia ∧ t.cleaner = s.cleaner ∧ t.ialloc.next = s.ialloc.next ∧
      (∀ x, r ≠ some x → t.ialloc.header x = s.ialloc.header x) ∧
      match r with
      | none => Inv st role t ∧ Kept role role s t
      | some h => (role h = .free ∨ role h = .lost) ∧ Inv st (update role h .hand) t ∧
          Kept role (update role h .hand) s t := by
  have hcase : t.cleaner = s.cleaner ∧ match r with
      | none => t = { s with ialloc := t.ialloc }
      | some h => t.item = s.item ∧ t.items = update s.items h [] ∧ t.rest = update s.rest h none ∧
          t.recycled = s.recycled := by
    unfold Log.segmentAlloc at hs
    rcases hr : s.ialloc.segmentAlloc st.toSettings ok with ⟨_ | h, i⟩ <;> rw [hr] at hs <;>
      cases hs
    · exact ⟨rfl, rfl⟩
    · exact ⟨rfl, rfl, rfl, rfl, rfl⟩
  have hs' := segmentAlloc_ialloc hs
  obtain ⟨hc, ht⟩ := hcase
  obtain ⟨hia, hlive, hnext, hb⟩ := hI.base.segmentAlloc hs'
  obtain ⟨hsame, hnew⟩ := Ialloc.segmentAlloc_header hs'
  have he := hI.ends.segmentAlloc hia hs'
  refine ⟨hia, hc, hnext, hsame, ?_⟩
  rcases r with _ | h
  · dsimp only at ht hb ⊢
    generalize t.ialloc = i at *
    subst ht
    refine ⟨hI.ialloc hb he (fun p hp => hlive ▸ hp) (fun x a hx => ?_) fun _ => id,
      .of_same (fun _ => id) (fun _ _ => id) (fun x a hx => ?_) fun _ _ _ => ⟨rfl, rfl, rfl⟩⟩
    · rw [hsame x (by simp)]
      exact ⟨.inl hx, rfl, rfl⟩
    · change (s.ialloc.header x).inactive = true → (i.header x).inactive = true
      rw [hsame x (by simp)]
      exact id
  · obtain ⟨hitem, hitems, hrest, hrec⟩ := ht
    obtain ⟨hrole, hb⟩ := hb
    have hne : ∀ {x a}, role x = .chain a → x ≠ h := fun {x a} hx => by
      rintro rfl
      simp [hx] at hrole
    refine ⟨hrole, ⟨hb, he, fun x a hx => ?_, fun x hx => ?_, fun i hi => ?_⟩,
      .of_same (fun x hx => ?_) (fun x a hx => ?_) (fun x a hx => ?_) fun x a hx => ?_⟩
    · rw [Ialloc.update_role] at hx
      obtain ⟨-, hx⟩ := hx.resolve_left (by simp)
      have hxh : some h ≠ some x := fun he => hne hx (Option.some.inj he).symm
      refine (hI.cut x a hx).congr (by rw [hitems, update_of_ne (hne hx)])
        (by rw [hrest, update_of_ne (hne hx)]) (by rw [hsame x hxh]) (by rw [hsame x hxh])
        (hI.room hx).1 fun o _ => ?_
      unfold totalAt
      rw [hitem]
    · rw [hitems, hrest]
      rcases eq_or_ne x h with rfl | hxh
      · rw [update_self, update_self]
        exact ⟨rfl, rfl⟩
      · rw [update_of_ne hxh] at hx
        rw [update_of_ne hxh, update_of_ne hxh]
        exact hI.blank x hx
    · rw [hitem]
      exact hI.sized i (hlive ▸ hi)
    · rcases eq_or_ne x h with rfl | hxh
      · rw [update_self]
        simp
      · rwa [update_of_ne hxh]
    · rwa [update_of_ne (hne hx)]
    · rw [hsame x fun he => hne hx (Option.some.inj he).symm]
      exact id
    · rw [hitems, hrest, hrec, update_of_ne (hne hx), update_of_ne (hne hx)]
      exact ⟨rfl, rfl, rfl⟩

section Items

variable {it : ℕ}

/-- A reference is counted, and the lengths stay. -/
theorem Inv.count (hI : Inv st role s) {f : ItemHeader → ItemHeader}
    (hf : ∀ i, (f i).totalsz = i.totalsz) : Inv st role (s.editItem it f) := by
  have hsame : ∀ z, ((s.editItem it f).item z).totalsz = (s.item z).totalsz := fun z => by
    unfold editItem
    rcases eq_or_ne z it with rfl | hz
    · simp [hf]
    · simp [hz]
  exact ⟨hI.base, hI.ends, fun x a hx => (hI.cut x a hx).congr rfl rfl rfl rfl (hI.room hx).1
    fun o _ => hsame _, hI.blank, fun i hi => (hsame _).trans (hI.sized i hi)⟩

theorem Inv.tryref (hI : Inv st role s) : Inv st role (s.itemTryref it).2 ∧
    Kept role role s (s.itemTryref it).2 ∧ (s.itemTryref it).2.cleaner = s.cleaner ∧
    (s.itemTryref it).2.ialloc = s.ialloc ∧ (s.itemTryref it).2.items = s.items ∧
    (s.itemTryref it).2.rest = s.rest := by
  unfold itemTryref
  split_ifs
  · exact ⟨hI, .refl, rfl, rfl, rfl, rfl⟩
  · have hI' : Inv st role (s.editItem it fun i => { i with refcount := i.refcount + 1 }) :=
      hI.count fun _ => rfl
    exact ⟨hI', ⟨fun _ => id, fun _ _ h1 h2 => ⟨h1, h2, rfl, rfl, rfl⟩⟩, rfl, rfl, rfl, rfl⟩

/-- An item that is allocated is freed. -/
theorem Inv.free (hI : Inv st role s) {i : ℕ × ℕ} (hi : i ∈ s.ialloc.live)
    (hs : s.iallocFree st i.1 i.2 = .ok t) :
    Inv st role t ∧ Kept role role s t ∧ t.cleaner = s.cleaner := by
  unfold iallocFree Ialloc.iallocFree at hs
  dsimp only at hs
  split_ifs at hs with hlt
  cases hs
  have hsame : ∀ x, (((s.ialloc.segmentItemFree (i.1 / st.segsize) i.2).header x).inactive =
      (s.ialloc.header x).inactive) ∧
      ((s.ialloc.segmentItemFree (i.1 / st.segsize) i.2).header x).offset =
        (s.ialloc.header x).offset ∧
      ((s.ialloc.segmentItemFree (i.1 / st.segsize) i.2).header x).size =
        (s.ialloc.header x).size := fun x => by
    unfold Ialloc.segmentItemFree Ialloc.edit
    rcases eq_or_ne x (i.1 / st.segsize) with rfl | hx <;> simp [*]
  have he := hI.ends.edit (x := i.1 / st.segsize)
    (f := fun H => { H with freed := H.freed + UInt32.ofNat i.2 }) rfl fun _ => ⟨rfl, rfl⟩
  refine ⟨hI.ialloc (hI.base.free_item hi) ⟨he.closed, he.active, he.spare⟩
    (fun p hp => List.mem_of_mem_erase hp) (fun x a hx => ⟨.inl hx, (hsame x).2⟩) fun _ => id,
    .of_same (fun _ => id) (fun _ _ => id) (fun x a _ hx' => ?_)
    fun _ _ _ => ⟨rfl, rfl, rfl⟩, rfl⟩
  exact (hsame x).1.trans hx'

theorem Inv.unref (hI : Inv st role s) (hi : it ∈ s.ialloc.live.map Prod.fst)
    (hs : s.itemUnref st it = .ok t) :
    Inv st role t ∧ Kept role role s t ∧ t.cleaner = s.cleaner := by
  unfold itemUnref at hs
  dsimp only at hs
  have hI' : Inv st role (s.editItem it fun i => { i with refcount := i.refcount - 1 }) :=
    hI.count fun _ => rfl
  split_ifs at hs with h0 h1
  · obtain ⟨⟨i, n⟩, hmem, rfl⟩ := List.mem_map.1 hi
    have hn := hI'.sized (i, n) hmem
    dsimp only at hs hn
    rw [hn] at hs
    obtain ⟨h2, h3, h4⟩ := hI'.free (i := (i, n)) hmem hs
    exact ⟨h2, ⟨h3.given, h3.done⟩, h4⟩
  · cases hs
    exact ⟨hI', ⟨fun _ => id, fun _ _ h1 h2 => ⟨h1, h2, rfl, rfl, rfl⟩⟩, rfl⟩

end Items

section Allocators

variable [DecidableEq A] {ia j : ItemAllocator}

/-- The segment at its end becomes inactive, and a spare one current. -/
theorem Inv.advance (hI : Inv st role s) (hia : s.ialloc.ia a = some ia)
    (hcur : j.cur = ia.cur) (hold : j.oldest = ia.oldest)
    (hh : role h = .hand ∧ j.reserved = ia.reserved ∨
      ia.reserved = some h ∧ j.reserved = none)
    (hend : (s.ialloc.header ia.cur).offset = (s.ialloc.header ia.cur).size) :
    Inv st (update role h (.chain a)) (s.advance a j h) ∧
      Kept role (update role h (.chain a)) s (s.advance a j h) ∧
      ((s.advance a j h).ialloc.header h).inactive = false := by
  obtain ⟨⟨l, -, -, hm⟩, hres⟩ := hI.base.set a ia hia
  have hc : role ia.cur = .chain a := (hm _).1 (by simp)
  have hspare : (role h).Spare := hh.imp And.left fun hr => ⟨a, (hres h).1 hr.1⟩
  have hb := hI.base.advance hia hcur hold hh
  have he := hI.ends.advance (j := j) hia hcur hc hspare hend
  have hhead := Ialloc.advance_header (s := s.ialloc) (a := a) (j := j) (h := h)
  have hne : h ≠ ia.cur := by
    rintro rfl
    exact Role.not_spare (hc ▸ hspare)
  refine ⟨hI.ialloc hb he (fun _ => id) (fun x b hx => ?_) fun x hx => ?_,
    .of_same (fun x hx => ?_) (fun x b hx => ?_) (fun x b hx hx' => ?_)
    fun _ _ _ => ⟨rfl, rfl, rfl⟩, ?_⟩
  · refine ⟨?_, (hhead x).2.1, (hhead x).1⟩
    rw [Ialloc.update_role] at hx
    rcases hx with ⟨rfl, -⟩ | ⟨-, hx⟩
    · exact .inr hspare
    · exact .inl hx
  · rcases eq_or_ne x h with rfl | hxh
    · exact hspare
    · rwa [update_of_ne hxh] at hx
  · rcases eq_or_ne x h with rfl | hxh
    · rw [update_self]
      simp
    · rwa [update_of_ne hxh]
  · have hxh : x ≠ h := by
      rintro rfl
      exact Role.not_spare (hx ▸ hspare)
    rwa [update_of_ne hxh]
  · rcases eq_or_ne x ia.cur with rfl | hxc
    · change ((s.ialloc.advance a j h).header _).inactive = true
      simp [Ialloc.advance, Ialloc.setIa, Ialloc.edit, hcur, hne.symm]
    · exact (Ialloc.advance_inactive x (hcur ▸ hxc)).trans hx'
  · exact (Ialloc.advance_inactive h (hcur ▸ hne)).trans (hI.ends.spare h hspare)

theorem Inv.newItem (hI : Inv st role s) {keylen : UInt16} {vallen : UInt32} {cleanup ok : Bool}
    (hs : s.newItem st a keylen vallen cleanup ok = .ok t) :
    ∃ role', Inv st role' t ∧ Kept role role' s t ∧ t.cleaner = s.cleaner := by
  unfold Log.newItem iallocAlloc at hs
  rcases hia : s.ialloc.ia a with _ | ia <;> rw [hia] at hs
  · cases hs
  have hcur : role ia.cur = .chain a := by
    obtain ⟨⟨l, -, -, hm⟩, -⟩ := hI.base.set a ia hia
    exact (hm _).1 (by simp)
  have hact : (s.ialloc.header ia.cur).inactive = false :=
    (hI.ends.active a ia hia ia.cur hcur).2 rfl
  dsimp only at hs
  split_ifs at hs
  · cases hs
    exact ⟨role, hI, .refl, rfl⟩
  swap
  · cases hs
  rcases h1 : s.segmentItemAlloc st ia.cur (itemSize + keylen.toNat + vallen.toNat) with ⟨r₁, s₁⟩
  rw [h1] at hs
  rcases r₁ with _ | it
  swap
  · cases hs
    exact ⟨role, hI.cutItem hcur hact h1⟩
  obtain ⟨hI₁, hend, hk₁, hia₁, hc₁⟩ := hI.close hcur hact (by omega) h1
  dsimp only at hs
  rcases h2 : s₁.segmentAlloc st ok with ⟨r₂, s₂⟩
  obtain ⟨hia₂, hc₂, -, hsame, hr₂⟩ := hI₁.segmentAlloc h2
  have hia₂ : s₂.ialloc.ia a = some ia := by rw [hia₂, hia₁, hia]
  rw [h2] at hs
  rcases r₂ with _ | h
  · obtain ⟨hI₂, hk₂⟩ := hr₂
    have hend₂ : (s₂.ialloc.header ia.cur).offset = (s₂.ialloc.header ia.cur).size := by
      rw [hsame _ (by simp)]
      exact hend
    have hstop : Inv st role s₂ ∧ Kept role role s s₂ ∧ s₂.cleaner = s.cleaner :=
      ⟨hI₂, hk₁.trans hk₂, hc₂.trans hc₁⟩
    rcases hres : ia.reserved with _ | h <;> cases cleanup <;> simp only [hres] at hs
    · cases hs
      exact ⟨role, hstop⟩
    · cases hs
      exact ⟨role, hstop⟩
    · cases hs
      exact ⟨role, hstop⟩
    · obtain ⟨hI₃, hk₃, hact₃⟩ := hI₂.advance (j := { ia with reserved := none }) hia₂ rfl rfl
        (.inr ⟨hres, rfl⟩) hend₂
      rcases h3 : (s₂.advance a { ia with reserved := none } h).segmentItemAlloc st h
        (itemSize + keylen.toNat + vallen.toNat) with ⟨r₃, s₃⟩
      obtain ⟨hI₄, hk₄, hc₄⟩ := hI₃.cutItem (update_self _ _ _) hact₃ h3
      rw [h3] at hs
      cases hs
      exact ⟨_, hI₄, ((hk₁.trans hk₂).trans hk₃).trans hk₄, hc₄.trans (hc₂.trans hc₁)⟩
  · obtain ⟨hrole, hI₂, hk₂⟩ := hr₂
    have hne : h ≠ ia.cur := by
      rintro rfl
      simp [hcur] at hrole
    have hend₂ : (s₂.ialloc.header ia.cur).offset = (s₂.ialloc.header ia.cur).size := by
      rw [hsame _ fun he => hne (Option.some.inj he)]
      exact hend
    obtain ⟨hI₃, hk₃, hact₃⟩ := hI₂.advance (j := ia) hia₂ rfl rfl
      (.inl ⟨update_self _ _ _, rfl⟩) hend₂
    rcases h3 : (s₂.advance a ia h).segmentItemAlloc st h
      (itemSize + keylen.toNat + vallen.toNat) with ⟨r₃, s₃⟩
    obtain ⟨hI₄, hk₄, hc₄⟩ := hI₃.cutItem (update_self _ _ _) hact₃ h3
    dsimp only at hs
    rw [h3] at hs
    cases hs
    exact ⟨_, hI₄, ((hk₁.trans hk₂).trans hk₃).trans hk₄, hc₄.trans (hc₂.trans hc₁)⟩

omit [DecidableEq A] in
/-- A segment in no list gets another link. -/
theorem Inv.setNext (hI : Inv st role s) (hh : role h = .hand) {n : Option ℕ} :
    Inv st role (s.setNext h n) ∧ Kept role role s (s.setNext h n) := by
  have hsame : ∀ x, ((s.ialloc.edit h ({ · with next := n })).header x).inactive =
      (s.ialloc.header x).inactive ∧
      ((s.ialloc.edit h ({ · with next := n })).header x).offset = (s.ialloc.header x).offset ∧
      ((s.ialloc.edit h ({ · with next := n })).header x).size = (s.ialloc.header x).size :=
    fun x => by
      unfold Ialloc.edit
      rcases eq_or_ne x h with rfl | hx <;> simp [*]
  refine ⟨hI.ialloc (hI.base.editHand hh) (hI.ends.edit rfl fun _ => ⟨rfl, rfl⟩) (fun _ => id)
    (fun x a hx => ⟨.inl hx, (hsame x).2⟩) fun _ => id,
    .of_same (fun _ => id) (fun _ _ => id) (fun x a _ hx' => ?_) fun _ _ _ => ⟨rfl, rfl, rfl⟩⟩
  exact (hsame x).1.trans hx'

/-- The allocator's own record changes, and the segments stay what they are. -/
theorem Inv.setIa (hI : Inv st role s) {role' : ℕ → Role A}
    (hb : (s.ialloc.setIa a j).Inv st.toSettings role') (he : (s.ialloc.setIa a j).Ends role')
    (hh : ∀ x b, role' x = .chain b → role x = .chain b ∨ (role x).Spare)
    (hs : ∀ x, (role' x).Spare → (role x).Spare) (hg : ∀ x, role x ≠ .lost → role' x ≠ .lost)
    (hc : ∀ x b, role x = .chain b → role' x = .chain b) :
    Inv st role' (s.setIa a j) ∧ Kept role role' s (s.setIa a j) :=
  ⟨hI.ialloc hb he (fun _ => id) (fun x b hx => ⟨hh x b hx, rfl, rfl⟩) hs,
    .of_same hg hc (fun _ _ _ => id) fun _ _ _ => ⟨rfl, rfl, rfl⟩⟩

theorem Inv.keepIa (hI : Inv st role s) (hia : s.ialloc.ia a = some ia) {n : ℕ} :
    Inv st role (s.setIa a { ia with cleanupCount := n }) ∧
      Kept role role s (s.setIa a { ia with cleanupCount := n }) :=
  hI.setIa (hI.base.keepIa hia) (hI.ends.setIa hia rfl) (fun _ _ => .inl) (fun _ => id)
    (fun _ => id) fun _ _ => id

theorem Inv.reserve (hI : Inv st role s) (hia : s.ialloc.ia a = some ia)
    (hnone : ia.reserved = none) {n : ℕ} (hh : role h = .hand) :
    Inv st (update role h (.reserved a)) (s.setIa a { ia with reserved := some h, cleanupCount := n }) ∧
      Kept role (update role h (.reserved a)) s
        (s.setIa a { ia with reserved := some h, cleanupCount := n }) := by
  refine hI.setIa (hI.base.reserve hia hnone hh)
    ((hI.ends.reserved (.inl hh)).setIa hia rfl) (fun x b hx => ?_) (fun x hx => ?_)
    (fun x hx => ?_) fun x b hx => ?_
  · rw [Ialloc.update_role] at hx
    exact .inl (hx.resolve_left (by simp)).2
  · rcases eq_or_ne x h with rfl | hxh
    · exact .inl hh
    · rwa [update_of_ne hxh] at hx
  · rcases eq_or_ne x h with rfl | hxh
    · rw [update_self]
      simp
    · rwa [update_of_ne hxh]
  · rw [update_of_ne]
    · exact hx
    · rintro rfl
      simp [hh] at hx

omit [DecidableEq A] in
/-- The cleaner's own record and the marks are not in it. -/
theorem Inv.of_log (hI : Inv st role s) (h1 : t.ialloc = s.ialloc) (h2 : t.item = s.item)
    (h3 : t.items = s.items) (h4 : t.rest = s.rest) : Inv st role t where
  base := h1 ▸ hI.base
  ends := h1 ▸ hI.ends
  cut x a hx := (hI.cut x a hx).congr (by rw [h3]) (by rw [h4]) (by rw [h1]) (by rw [h1])
    (hI.room hx).1 fun o _ => by
      unfold totalAt
      rw [h2]
  blank x hx := by
    rw [h3, h4]
    exact hI.blank x hx
  sized i hi := by
    rw [h2]
    exact hI.sized i (h1 ▸ hi)

omit [DecidableEq A] in
theorem Kept.of_log (h1 : t.ialloc = s.ialloc) (h2 : t.items = s.items) (h3 : t.rest = s.rest)
    (h4 : t.recycled = s.recycled) : Kept role role s t :=
  .of_same (fun _ => id) (fun _ _ => id) (fun _ _ _ => by
    rw [h1]
    exact id) fun x _ _ => ⟨congrFun h2 x, congrFun h3 x, congrFun h4 x⟩

/-- A spare segment for an allocator without a reserve, if there is one. -/
theorem Inv.refill (hI : Inv st role s) (hia : s.ialloc.ia a = some ia) (hnone : ia.reserved = none)
    {n : ℕ} {ok : Bool} {r : Option ℕ} (hs : s.segmentAlloc st ok = (r, t)) :
    ∃ role', Inv st role' (t.setIa a { ia with reserved := r, cleanupCount := n }) ∧
      Kept role role' s (t.setIa a { ia with reserved := r, cleanupCount := n }) ∧
      t.cleaner = s.cleaner := by
  obtain ⟨hia', hc, -, -, hr⟩ := hI.segmentAlloc hs
  have hia' : t.ialloc.ia a = some ia := by rw [hia', hia]
  rcases r with _ | h
  · obtain ⟨hI', hk⟩ := hr
    obtain ⟨hI'', hk'⟩ := hI'.keepIa hia' (n := n)
    rw [hnone] at hI'' hk'
    exact ⟨role, hI'', hk.trans hk', hc⟩
  · obtain ⟨-, hI', hk⟩ := hr
    obtain ⟨hI'', hk'⟩ := hI'.reserve hia' hnone (n := n) (update_self _ _ _)
    exact ⟨_, hI'', hk.trans hk', hc⟩

theorem Inv.cleanupItem (hI : Inv st role s) {idle ok : Bool} {r : Option ℕ}
    (hs : s.iallocCleanupItem st a idle ok = .ok (r, t)) :
    ∃ role', Inv st role' t ∧ Kept role role' s t ∧
      (t.cleaner = s.cleaner ∨
        t.cleaner = update s.cleaner a ((s.cleaner a).take st.segcqsize).2) := by
  unfold iallocCleanupItem at hs
  rcases hia : s.ialloc.ia a with _ | ia <;> rw [hia] at hs
  · cases hs
  dsimp only at hs
  have hI' : Inv st role { s with
      cleaner := update s.cleaner a ((s.cleaner a).take st.segcqsize).2 } :=
    hI.of_log rfl rfl rfl rfl
  have hk' : Kept role role s { s with
      cleaner := update s.cleaner a ((s.cleaner a).take st.segcqsize).2 } :=
    .of_log rfl rfl rfl rfl
  split_ifs at hs with hmany hidle hres hres'
  · cases hs
    exact ⟨role, hI, .refl, .inl rfl⟩
  · rcases h1 : Log.segmentAlloc { s with
      cleaner := update s.cleaner a ((s.cleaner a).take st.segcqsize).2 } st ok with ⟨r₁, s₁⟩
    obtain ⟨role', hI₁, hk₁, hc₁⟩ := hI'.refill hia hres (n := ia.cleanupCount) h1
    rw [h1] at hs
    cases hs
    exact ⟨role', hI₁, hk'.trans hk₁, .inr hc₁⟩
  · cases hs
    obtain ⟨hI₁, hk₁⟩ := hI'.keepIa hia (n := ia.cleanupCount)
    exact ⟨role, hI₁, hk'.trans hk₁, .inr rfl⟩
  · rcases h1 : Log.segmentAlloc { s with
      cleaner := update s.cleaner a ((s.cleaner a).take st.segcqsize).2 } st ok with ⟨r₁, s₁⟩
    obtain ⟨role', hI₁, hk₁, hc₁⟩ := hI'.refill hia hres' (n := ia.cleanupCount + 1) h1
    rw [h1] at hs
    cases hs
    exact ⟨role', hI₁, hk'.trans hk₁, .inr hc₁⟩
  · cases hs
    obtain ⟨hI₁, hk₁⟩ := hI'.keepIa hia (n := ia.cleanupCount + 1)
    exact ⟨role, hI₁, hk'.trans hk₁, .inr rfl⟩

theorem Inv.setUp (hI : Inv st role s) {c r : ℕ} (hia : s.ialloc.ia a = none) (hc : role c = .hand)
    (hr : role r = .hand) (hne : c ≠ r) (hn : s.ialloc.next c = none) :
    let role' := update (update role c (.chain a)) r (.reserved a)
    let t := s.setIa a { reserved := some r, cur := c, oldest := some c }
    Inv st role' t ∧ Kept role role' s t := by
  have hother : ∀ x, x ≠ c → x ≠ r →
      update (update role c (.chain a)) r (.reserved a) x = role x := fun x hxc hxr => by
    rw [update_of_ne hxr, update_of_ne hxc]
  have hends : (s.ialloc.setIa a { reserved := some r, cur := c, oldest := some c }).Ends
      (update (update role c (.chain a)) r (.reserved a)) := by
    rw [update_comm hne]
    refine (hI.ends.reserved (.inl hr)).start ?_ (fun x hx => ?_) rfl
    · rw [update_of_ne hne, hc]
      exact .inl rfl
    · rw [Ialloc.update_role] at hx
      exact (hI.base.unset a hia x).1 (hx.resolve_left (by simp)).2
  refine hI.setIa (hI.base.setUp hia hc hr hne hn) hends (fun x b hx => ?_) (fun x hx => ?_)
    (fun x hx => ?_) fun x b hx => ?_
  · rcases eq_or_ne x c with rfl | hxc
    · exact .inr (.inl hc)
    rcases eq_or_ne x r with rfl | hxr
    · exact .inr (.inl hr)
    exact .inl (hother x hxc hxr ▸ hx)
  · rcases eq_or_ne x c with rfl | hxc
    · exact .inl hc
    rcases eq_or_ne x r with rfl | hxr
    · exact .inl hr
    exact hother x hxc hxr ▸ hx
  · rcases eq_or_ne x r with rfl | hxr
    · rw [update_self]
      simp
    rcases eq_or_ne x c with rfl | hxc
    · rw [update_of_ne hxr, update_self]
      simp
    rwa [hother x hxc hxr]
  · rw [hother x]
    · exact hx
    · rintro rfl
      simp [hc] at hx
    · rintro rfl
      simp [hr] at hx

theorem Inv.initAllocator (hI : Inv st role s) (hia : s.ialloc.ia a = none) {ok ok' : Bool}
    (hs : s.iallocInitAllocator st a ok ok' = .ok t) :
    ∃ role', Inv st role' t ∧ Kept role role' s t ∧ t.cleaner = update s.cleaner a {} := by
  unfold iallocInitAllocator at hs
  rcases h1 : s.segmentAlloc st ok with ⟨_ | c, s₁⟩ <;> rw [h1] at hs
  · cases hs
  obtain ⟨hia₁, hc₁, -, -, -, hI₁, hk₁⟩ := hI.segmentAlloc h1
  obtain ⟨hI₁', hk₁'⟩ := hI₁.setNext (n := none) (update_self c _ _)
  dsimp only at hs
  rcases h2 : (s₁.setNext c none).segmentAlloc st ok' with ⟨_ | r, s₂⟩ <;> rw [h2] at hs
  · cases hs
  obtain ⟨hia₂, hc₂, hnext, -, hr, hI₂, hk₂⟩ := hI₁'.segmentAlloc h2
  have hne : c ≠ r := by
    rintro rfl
    simp at hr
  obtain ⟨hI₃, hk₃⟩ := hI₂.setNext (n := none) (update_self r _ _)
  have hia₃ : (s₂.setNext r none).ialloc.ia a = none := by
    change s₂.ialloc.ia a = none
    rw [hia₂]
    change s₁.ialloc.ia a = none
    rw [hia₁, hia]
  have hn : (s₂.setNext r none).ialloc.next c = none := by
    have hc : s₂.ialloc.next c = none := by
      rw [hnext]
      simp [Log.setNext, Ialloc.next, Ialloc.edit]
    change (update s₂.ialloc.header r _ c).next = none
    rw [update_of_ne hne]
    exact hc
  obtain ⟨hI₄, hk₄⟩ := hI₃.setUp hia₃ (by rw [update_of_ne hne, update_self])
    (update_self r _ _) hne hn
  have hk := (((hk₁.trans hk₁').trans hk₂).trans hk₃).trans hk₄
  have hc : s₂.cleaner = s.cleaner := hc₂.trans hc₁
  dsimp only at hs
  cases hs
  refine ⟨_, hI₄.of_log rfl rfl rfl rfl, hk.trans (.of_log rfl rfl rfl rfl), ?_⟩
  change update s₂.cleaner a _ = _
  rw [hc]

end Allocators

end Log

end FlexKvs

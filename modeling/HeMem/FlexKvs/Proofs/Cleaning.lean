import HeMem.FlexKvs.Proofs.Pass

/-!
# Cleaning over many passes

A cleaning that has stopped on its way goes on at the start of an item, in a segment that is still
in the chain: only a pass that finds the segment entirely freed would take it out.
-/

namespace FlexKvs

open Function

namespace Log

variable {A : Type} {st : CleanSettings} {s t : Log A} {role role' : ℕ → Role A} {a : A} {h x : ℕ}

/-- The segment that allocator `a` cleans, as far as it has come. -/
structure Cleans (role : ℕ → Role A) (s : Log A) (a : A) (h : ℕ) : Prop where
  given : role h ≠ .lost
  le : (s.cleaner a).cleanOffset ≤ (s.ialloc.header h).size.toNat
  busy : (s.cleaner a).cleanOffset < (s.ialloc.header h).size.toNat →
    role h = .chain a ∧ (s.ialloc.header h).inactive = true ∧
      s.recycled h = (s.cleaner a).begun ∧ (s.cleaner a).cleanOffset ∈ s.starts h

/-- The cleaner's offset, and what was recorded when the cleaning began, stay. -/
def Resumes (s t : Log A) (a : A) : Prop :=
  (t.cleaner a).cleaning = none ∨ (t.cleaner a).cleaning = (s.cleaner a).cleaning ∧
    (t.cleaner a).cleanOffset = (s.cleaner a).cleanOffset ∧
    (t.cleaner a).begun = (s.cleaner a).begun

theorem Inv.size_eq (hI : Inv st role s) (hI' : Inv st role' t) (hx : role x ≠ .lost)
    (hx' : role' x ≠ .lost) : (t.ialloc.header x).size.toNat = (s.ialloc.header x).size.toNat := by
  rw [(hI.base.books x).size hx, (hI'.base.books x).size hx']

/-- A cleaning goes on where its segment stays as it is, if there is more of it to clean. -/
theorem Cleans.congr (hC : Cleans role s a h) (hI : Inv st role s) (hI' : Inv st role' t)
    (hg : role' h ≠ .lost) (hoff : (t.cleaner a).cleanOffset = (s.cleaner a).cleanOffset)
    (hbeg : (t.cleaner a).begun = (s.cleaner a).begun)
    (hk : (s.cleaner a).cleanOffset < (s.ialloc.header h).size.toNat → role h = .chain a →
      (s.ialloc.header h).inactive = true → role' h = .chain a ∧
        (t.ialloc.header h).inactive = true ∧ t.items h = s.items h ∧ t.rest h = s.rest h ∧
        t.recycled h = s.recycled h) : Cleans role' t a h := by
  have hsize := hI.size_eq hI' hC.given hg
  refine ⟨hg, by rw [hoff, hsize]; exact hC.le, fun hlt => ?_⟩
  rw [hoff, hsize] at hlt
  obtain ⟨hchain, hinact, hbegun, hstart⟩ := hC.busy hlt
  obtain ⟨hchain', hinact', hi, hrest, hrec⟩ := hk hlt hchain hinact
  refine ⟨hchain', hinact', ?_, ?_⟩
  · rw [hrec, hbeg]
    exact hbegun
  · rw [hoff]
    unfold starts
    rw [hi, hrest]
    exact hstart

/-- What keeps inactive segments keeps the cleanings. -/
theorem Cleans.kept (hC : ∀ b h, (s.cleaner b).cleaning = some h → Cleans role s b h)
    (hI : Inv st role s) (hI' : Inv st role' t) (hk : Kept role role' s t)
    (hr : ∀ b, Resumes s t b) :
    ∀ b h, (t.cleaner b).cleaning = some h → Cleans role' t b h := by
  intro b h hh
  obtain hno | ⟨hcl, hoff, hbeg⟩ := hr b
  · rw [hno] at hh
    cases hh
  have hC := hC b h (hcl ▸ hh)
  exact hC.congr hI hI' (hk.given h hC.given) hoff hbeg fun _ => hk.done h b

/-- A pass keeps the cleanings of others, and that of its own unless its segment may go. -/
theorem Cleans.passed {b : A} (hC : Cleans role s b h) (hI : Inv st role s) (hI' : Inv st role' t)
    (hp : Passed a role role' s t)
    (hf : b = a → (s.cleaner b).cleanOffset < (s.ialloc.header h).size.toNat →
      (s.ialloc.header h).freed ≠ (s.ialloc.header h).size) : Cleans role' t b h := by
  refine hC.congr hI hI' (hp.given h hC.given) (by rw [hp.cleaner]) (by rw [hp.cleaner])
    fun hlt hchain hinact => ?_
  obtain ⟨h1, h2, h3, h4, h5, -⟩ := hp.done h b hchain hinact fun hb => hf hb hlt
  exact ⟨h1, h2, h3, h4, h5⟩

section Starts

/-- The pieces of a segment at its end are all of it. -/
theorem Cut.sum_pieces (hC : s.Cut st x)
    (hend : (s.ialloc.header x).offset = (s.ialloc.header x).size) :
    (s.items x ++ (s.rest x).toList).sum = (s.ialloc.header x).size.toNat := by
  rcases hr : s.rest x with _ | n
  · have hall := hC.whole hr
    rw [hend] at hall
    simpa using hall
  · obtain ⟨-, htot, -, -⟩ := hC.filler n hr
    simpa using htot

theorem Cut.pieces_pos (hC : s.Cut st x) : ∀ t ∈ s.items x ++ (s.rest x).toList, 0 < t := by
  intro t ht
  rcases List.mem_append.1 ht with ht | ht
  · exact Nat.lt_of_lt_of_le (by decide) (hC.big t ht)
  · obtain ⟨-, -, hpos, -⟩ := hC.filler t (Option.mem_toList.1 ht)
    exact hpos

theorem Cut.start_lt (hC : s.Cut st x)
    (hend : (s.ialloc.header x).offset = (s.ialloc.header x).size) {o : ℕ} (ho : o ∈ s.starts x) :
    o < (s.ialloc.header x).size.toNat := by
  have hlt := Pieces.start_lt ho hC.pieces_pos
  rwa [hC.sum_pieces hend, Nat.zero_add] at hlt

theorem Cut.zero_start (hC : s.Cut st x)
    (hend : (s.ialloc.header x).offset = (s.ialloc.header x).size)
    (hpos : 0 < (s.ialloc.header x).size.toNat) : 0 ∈ s.starts x := by
  have hsum := hC.sum_pieces hend
  unfold starts
  rcases hl : s.items x ++ (s.rest x).toList with _ | ⟨t, l⟩
  · rw [hl] at hsum
    simp at hsum
    omega
  · exact List.mem_cons_self

/-- From one start with room for a header the scan comes to the next one. -/
theorem Cut.next_start (hC : s.Cut st x)
    (hend : (s.ialloc.header x).offset = (s.ialloc.header x).size)
    (hfits : (s.ialloc.header x).size.toNat < (s.items x).sum + itemSize + 2 ^ 16) {o : ℕ}
    (ho : o ∈ s.starts x) (hroom : o + itemSize ≤ (s.ialloc.header x).size.toNat) :
    o + s.totalAt st x o = (s.ialloc.header x).size.toNat ∨
      o + s.totalAt st x o ∈ s.starts x := by
  have hsum := hC.sum_pieces hend
  unfold starts at ho ⊢
  rcases hr : s.rest x with _ | n <;> rw [hr] at ho hsum
  · have htold : Pieces.Told (s.totalAt st x) 0 (s.items x ++ Option.toList none) := by
      simpa using hC.told
    obtain h | h := Pieces.next_start htold ho
    · rw [Nat.zero_add, hsum] at h
      exact .inl h
    · exact .inr h
  obtain ⟨-, htot, hpos, hfill⟩ := hC.filler n hr
  rcases Nat.lt_or_ge n itemSize with hsmall | hbig
  · rw [Pieces.starts_append, List.mem_append, Nat.zero_add] at ho
    obtain ho | ho := ho
    · rw [Pieces.starts_append, List.mem_append, Nat.zero_add]
      refine .inr ?_
      obtain h | h := Pieces.next_start hC.told ho
      · rw [Nat.zero_add] at h
        rw [h]
        exact .inr (by simp [Pieces.starts])
      · exact .inl h
    · simp only [Option.toList_some, Pieces.starts, List.mem_singleton] at ho
      omega
  · have htold : Pieces.Told (s.totalAt st x) 0 (s.items x ++ Option.toList (some n)) := by
      rw [Pieces.told_append, Option.toList_some, Pieces.told_singleton, Nat.zero_add,
        hfill hbig]
      exact ⟨hC.told, by omega⟩
    obtain h | h := Pieces.next_start htold ho
    · rw [Nat.zero_add, hsum] at h
      exact .inl h
    · exact .inr h

end Starts

section Pass

variable [DecidableEq A] {ia : ItemAllocator} {size : ℕ}

/-- The loop comes from the start of an item to that of a later one, or to the end. -/
theorem Inv.cleanLoop (hr : role h = .chain a) : ∀ {n off i : ℕ} {s : Log A}, Inv st role s →
    (s.ialloc.header h).inactive = true → (s.ialloc.header h).size.toNat = size →
    size < (s.items h).sum + itemSize + 2 ^ 16 → (off = size ∨ off ∈ s.starts h) →
    size - off < n → ∃ off' idx' t, s.cleanLoop st a h size n off i = .ok (off', idx', t) ∧
      (off' = size ∨ off' ∈ s.starts h)
  | 0, off, i, s, _, _, _, _, _, hn => by simp at hn
  | n + 1, off, i, s, hI, hi, hz, hfits, hoff, hn => by
    have hC := hI.cut h a hr
    have hend := hI.ends.closed h a hr hi
    unfold Log.cleanLoop
    split_ifs with hmore hsmall hwild
    · exact ⟨size, i, s, rfl, .inl rfl⟩
    · have hstart := hoff.resolve_left (Nat.ne_of_lt hmore.1)
      have hnext := hC.next_start hend (hz ▸ hfits) hstart (by omega)
      rw [hz] at hnext
      have hpos : itemSize ≤ s.totalAt st h off := by
        unfold totalAt ItemHeader.totalsz
        omega
      have hleast : 0 < itemSize := by decide
      have hfuel : size - (off + s.totalAt st h off) < n := by omega
      dsimp only
      rcases itemTryref_cases (s := s) (st.segsize * h + off) with ht | ht <;> rw [ht]
      · exact cleanLoop hr hI hi hz hfits hnext hfuel
      · have hscan : Scanned s ((s.editItem (st.segsize * h + off)
            fun i => { i with refcount := i.refcount + 1 }).enqueue a i (st.segsize * h + off)) :=
          .enqueue
        have htotal : ((s.editItem (st.segsize * h + off)
            fun i => { i with refcount := i.refcount + 1 }).item (st.segsize * h + off)).totalsz =
            s.totalAt st h off := hscan.total _
        dsimp only
        rw [htotal, ← hscan.starts h]
        exact cleanLoop hr (hI.scanned hscan) (by rw [hscan.ialloc]; exact hi)
          (by rw [hscan.ialloc]; exact hz) (by rw [hscan.items]; exact hfits)
          (by rw [hscan.starts h]; exact hnext) hfuel
    · exact absurd (hoff.resolve_left (Nat.ne_of_lt hmore.1)) hwild
    · exact ⟨off, i, s, rfl, hoff⟩

/-- What a pass goes on with, or begins. -/
theorem Inv.prepared (hI : Inv st role s) (hia : s.ialloc.ia a = some ia)
    (hC : ∀ b h, (s.cleaner b).cleaning = some h → Cleans role s b h)
    (hc : (LogAct.maintenance a).Careful s) :
    ∃ u role' size, s.prepare st a = .ok (u, size) ∧ Inv st role' u ∧
      (∀ b h, (u.cleaner b).cleaning = some h → Cleans role' u b h) ∧
      (∀ h, (u.cleaner a).cleaning = some h → (u.cleaner a).cleanOffset < size →
        size = (u.ialloc.header h).size.toNat) ∧
      ∀ x, role' x = .chain a → (u.ialloc.header x).inactive = true →
        (u.ialloc.header x).size.toNat < (u.items x).sum + itemSize + 2 ^ 16 := by
  obtain ⟨t, role', cand, hI', hp, hcand, hprep⟩ := hI.prepare hia
  have hfits : ∀ x, role' x = .chain a → (t.ialloc.header x).inactive = true →
      (t.ialloc.header x).size.toNat < (t.items x).sum + itemSize + 2 ^ 16 := fun x hx hi => by
    obtain ⟨h1, h2, h3, h4⟩ := hp.back x a hx
    rw [h3, h4]
    exact hc.2 x (hI.base.onList_iff.2 h1) (h2 ▸ hi)
  have hothers : ∀ b h, b ≠ a → (s.cleaner b).cleaning = some h → Cleans role' t b h :=
    fun b h hb hh => (hC b h hh).passed hI hI' hp fun he => absurd he hb
  dsimp only at hprep
  split_ifs at hprep with hbegin
  · have hI'' : Inv st role' (t.beginCleaning a cand) := hI'.of_log rfl rfl rfl rfl
    have hcl : (t.beginCleaning a cand).cleaner a = { t.cleaner a with
        cleaning := cand, cleanOffset := 0, begun := cand.elim 0 t.recycled } := update_self ..
    refine ⟨_, role', _, hprep, hI'', fun b h hh => ?_, fun h hh hlt => ?_, hfits⟩
    · rcases eq_or_ne b a with rfl | hb
      · rw [hcl] at hh
        obtain rfl : cand = some h := hh
        obtain ⟨hchain, hinact⟩ := hcand h rfl
        refine ⟨by simp [hchain], by rw [hcl]; exact Nat.zero_le _, fun hlt => ?_⟩
        rw [hcl] at hlt ⊢
        exact ⟨hchain, hinact, rfl,
          (hI'.cut h b hchain).zero_start (hI'.ends.closed h b hchain hinact) hlt⟩
      · have hcl : (t.beginCleaning a cand).cleaner b = t.cleaner b := update_of_ne hb _ _
        rw [hcl, hp.cleaner] at hh
        have hC' := hothers b h hb hh
        exact hC'.congr hI' hI'' hC'.given (by rw [hcl]) (by rw [hcl])
          fun _ h1 h2 => ⟨h1, h2, rfl, rfl, rfl⟩
    · rw [hcl] at hh hlt
      obtain rfl : cand = some h := hh
      have hsize := (hI'.base.books h).size (by simp [(hcand h rfl).1])
      rcases hold : (s.cleaner a).cleaning with _ | k
      · rw [hold] at hlt
        exact absurd hlt (Nat.not_lt_zero _)
      · have hk := (hI'.base.books k).size (hp.given k (hC a k hold).given)
        exact hk.trans hsize.symm
  · refine ⟨_, role', _, hprep, hI', fun b h hh => ?_, fun h hh _ => ?_, hfits⟩
    · rw [hp.cleaner] at hh
      rcases eq_or_ne b a with rfl | hb
      · exact (hC b h hh).passed hI hI' hp fun _ hlt => hc.1 h hh hlt
      · exact hothers b h hb hh
    · rw [hp.cleaner] at hh
      rw [hh]
      rfl

/-- Where the scan of a pass comes to, the next one can go on. -/
theorem Inv.scans {u : Log A} (hI : Inv st role u) (hC : Cleans role u a h)
    (hsize : (u.cleaner a).cleanOffset < size → size = (u.ialloc.header h).size.toNat)
    (hfits : role h = .chain a → (u.ialloc.header h).inactive = true →
      (u.ialloc.header h).size.toNat < (u.items h).sum + itemSize + 2 ^ 16) :
    ∃ off idx v, u.cleanLoop st a h size (size + 1) (u.cleaner a).cleanOffset
        (u.cleaner a).cqTail = .ok (off, idx, v) ∧ off ≤ (u.ialloc.header h).size.toNat ∧
      (off < (u.ialloc.header h).size.toNat → role h = .chain a ∧
        (u.ialloc.header h).inactive = true ∧ u.recycled h = (u.cleaner a).begun ∧
        off ∈ u.starts h) := by
  rcases Nat.lt_or_ge (u.cleaner a).cleanOffset size with hlt | hge
  · have hz := hsize hlt
    obtain ⟨hchain, hinact, hbegun, hstart⟩ := hC.busy (hz ▸ hlt)
    obtain ⟨off, idx, v, hv, hoff⟩ := hI.cleanLoop (i := (u.cleaner a).cqTail) hchain hinact
      hz.symm (hz ▸ hfits hchain hinact) (.inr hstart) (by omega : size - _ < size + 1)
    refine ⟨off, idx, v, hv, ?_, fun hlt' => ⟨hchain, hinact, hbegun, ?_⟩⟩
    · obtain rfl | hoff := hoff
      · exact Nat.le_of_eq hz
      · exact Nat.le_of_lt ((hI.cut h a hchain).start_lt (hI.ends.closed h a hchain hinact) hoff)
    · exact hoff.resolve_left (by omega)
  · refine ⟨_, (u.cleaner a).cqTail, u, ?_, hC.le, hC.busy⟩
    unfold Log.cleanLoop
    rw [if_neg fun hmore => Nat.not_lt.2 hge hmore.1]

/-- A pass scans well, and comes to its end. -/
theorem Inv.passes (hI : Inv st role s) (hia : s.ialloc.ia a = some ia)
    (hC : ∀ b h, (s.cleaner b).cleaning = some h → Cleans role s b h)
    (hc : (LogAct.maintenance a).Careful s) :
    s.ScansWell st a ∧ ∃ t role', s.iallocMaintenance st a = .ok t ∧ Inv st role' t ∧
      ∀ b h, (t.cleaner b).cleaning = some h → Cleans role' t b h := by
  obtain ⟨u, role', size, hprep, hI', hC', hsize, hfits⟩ := hI.prepared hia hC hc
  refine ⟨fun t n h ht hh hlt => ?_, ?_⟩
  · rw [hprep] at ht
    cases ht
    obtain ⟨hchain, -, hbegun, hstart⟩ := (hC' a h hh).busy hlt
    exact ⟨hI'.base.onList_iff.2 hchain, hbegun, hstart⟩
  unfold iallocMaintenance
  rw [hprep]
  dsimp only [bind, Except.bind]
  rcases hh : (u.cleaner a).cleaning with _ | h
  · exact ⟨u, role', rfl, hI', hC'⟩
  obtain ⟨off, idx, v, hv, hle, hbusy⟩ := hI'.scans (hC' a h hh) (hsize h hh) (hfits h)
  have hscan := cleanLoop_scanned hv
  have hIv := hI'.scanned hscan
  dsimp only
  rw [hv]
  refine ⟨_, role', rfl, hIv.of_log rfl rfl rfl rfl, fun b k hk => ?_⟩
  rcases eq_or_ne b a with rfl | hb
  · have hk : (v.cleaner b).cleaning = some k := by simpa using hk
    obtain ⟨hcl, -, hbeg⟩ := hscan.cleaner b
    rw [hcl, hh] at hk
    obtain rfl := Option.some.inj hk
    refine ⟨(hC' b h hh).given, ?_, ?_⟩
    · simpa [hscan.ialloc] using hle
    · simpa [hscan.ialloc, hscan.recycled, hscan.starts, hbeg, Log.starts, hscan.items,
        hscan.rest] using hbusy
  · have hk : (v.cleaner b).cleaning = some k := by simpa [hb] using hk
    obtain ⟨hcl, hoff, hbeg⟩ := hscan.cleaner b
    have hCb := hC' b k (hcl ▸ hk)
    refine hCb.congr hI' (hIv.of_log rfl rfl rfl rfl) hCb.given ?_ ?_ fun _ h1 h2 =>
      ⟨h1, ?_, congrFun hscan.items k, congrFun hscan.rest k, congrFun hscan.recycled k⟩
    · simpa [hb] using hoff
    · simpa [hb] using hbeg
    · rw [← h2]
      exact congrArg (fun i => (i.header k).inactive) hscan.ialloc

/-- The invariant of the runs: what the segments are cut into, and every cleaning at a start. -/
def Kempt (st : CleanSettings) (s : Log A) : Prop :=
  ∃ role, Inv st role s ∧ ∀ b h, (s.cleaner b).cleaning = some h → Cleans role s b h

omit [DecidableEq A] in
theorem Resumes.of_eq (h : t.cleaner = s.cleaner) (b : A) : Resumes s t b := by
  unfold Resumes
  rw [h]
  exact .inr ⟨rfl, rfl, rfl⟩

/-- One cleaner is replaced. -/
theorem Resumes.update {c : Cleaner} (h : t.cleaner = update s.cleaner a c)
    (hc : c.cleaning = none ∨ c.cleaning = (s.cleaner a).cleaning ∧
      c.cleanOffset = (s.cleaner a).cleanOffset ∧ c.begun = (s.cleaner a).begun) (b : A) :
    Resumes s t b := by
  unfold Resumes
  rw [h]
  rcases eq_or_ne b a with rfl | hb
  · rw [update_self]
    exact hc
  · rw [update_of_ne hb]
    exact .inr ⟨rfl, rfl, rfl⟩

omit [DecidableEq A] in
theorem take_resumes (n : ℕ) (c : Cleaner) : (c.take n).2.cleaning = c.cleaning ∧
    (c.take n).2.cleanOffset = c.cleanOffset ∧ (c.take n).2.begun = c.begun := by
  unfold Cleaner.take
  split <;> exact ⟨rfl, rfl, rfl⟩

theorem Kempt.step (hK : s.Kempt st) {c : LogAct A} (hl : c.Legal st s) (hc : c.Careful s)
    (hs : c.next st s = .ok t) : t.Kempt st := by
  obtain ⟨role, hI, hC⟩ := hK
  have hkept : ∀ role', Inv st role' t → Kept role role' s t → (∀ b, Resumes s t b) →
      t.Kempt st := fun role' hI' hk hr => ⟨role', hI', Cleans.kept hC hI hI' hk hr⟩
  cases c with
  | init a ok ok' =>
    obtain ⟨role', hI', hk, hcl⟩ := hI.initAllocator hl hs
    exact hkept role' hI' hk (.update hcl (.inl rfl))
  | alloc a keylen vallen cleanup ok =>
    obtain ⟨role', hI', hk, hcl⟩ := hI.newItem hs
    exact hkept role' hI' hk (.of_eq hcl)
  | ref it =>
    cases hs
    obtain ⟨hI', hk, hcl, -⟩ : Inv st role (s.itemTryref it).2 ∧ _ := hI.tryref
    exact hkept role hI' hk (.of_eq hcl)
  | unref it =>
    obtain ⟨hI', hk, hcl⟩ := hI.unref hl hs
    exact hkept role hI' hk (.of_eq hcl)
  | cleanupItem a idle ok =>
    change (s.iallocCleanupItem st a idle ok).map Prod.snd = .ok t at hs
    rcases hr : s.iallocCleanupItem st a idle ok with e | ⟨r, u⟩ <;> rw [hr] at hs <;> cases hs
    obtain ⟨role', hI', hk, hcl | hcl⟩ := hI.cleanupItem hr
    · exact hkept role' hI' hk (.of_eq hcl)
    · exact hkept role' hI' hk (.update hcl (.inr (take_resumes _ _)))
  | nextRequest a =>
    change s.iallocCleanupNextrequest a = .ok t at hs
    unfold iallocCleanupNextrequest at hs
    rcases hia : s.ialloc.ia a with _ | ia <;> rw [hia] at hs
    · cases hs
    · cases hs
      obtain ⟨hI', hk⟩ := hI.keepIa hia
      exact hkept role hI' hk (.of_eq rfl)
  | maintenance a =>
    change s.iallocMaintenance st a = .ok t at hs
    rcases hia : s.ialloc.ia a with _ | ia
    · unfold iallocMaintenance Log.prepare at hs
      rw [hia] at hs
      cases hs
    · obtain ⟨-, u, role', hu, hI', hC'⟩ := hI.passes hia hC hc
      obtain rfl : u = t := Except.ok.inj (hu.symm.trans hs)
      exact ⟨role', hI', hC'⟩

theorem kempt_reach (h : (log A st).Reach (fun s c => c.Legal st s ∧ c.Careful s) s) :
    s.Kempt st :=
  h.invariant (I := Kempt st)
    (fun s hs => ⟨_, hs ▸ inv_initial, fun b h hh => by
      cases (show s = {} from hs)
      cases hh⟩) fun _ _ _ hK hc hs => hK.step hc.1 hc.2 hs

end Pass

end Log

section Main

variable {A : Type} [DecidableEq A] {st : CleanSettings} {s : Log A} {a : A}

/-- In every run whose passes find no segment freed entirely that is still to be cleaned, and no
filler longer than its header can say, each such pass cleans a segment of its own list that has
not been recycled since its cleaning began, from the start of an item or the filler, and it
comes to its end without taking other bytes for a header. -/
theorem cleaning_scans_well
    (h : (log A st).Reach (fun s c => c.Legal st s ∧ c.Careful s) s)
    (hc : (LogAct.maintenance a).Careful s) :
    s.ScansWell st a ∧ ∀ ia, s.ialloc.ia a = some ia → ∃ s', s.iallocMaintenance st a = .ok s' := by
  obtain ⟨role, hI, hC⟩ := Log.kempt_reach h
  refine ⟨?_, fun ia hia => ?_⟩
  · rcases hia : s.ialloc.ia a with _ | ia
    · intro t size h ht
      unfold Log.prepare at ht
      rw [hia] at ht
      cases ht
    · exact (hI.passes hia hC hc).1
  · obtain ⟨-, t, -, ht, -⟩ := hI.passes hia hC hc
    exact ⟨t, ht⟩

/-- The first half of `Careful`, as a check. -/
def LogAct.unfreed (s : Log A) : LogAct A → Bool
  | maintenance a => (s.cleaner a).cleaning.all fun h =>
      decide ((s.cleaner a).cleanOffset < (s.ialloc.header h).size.toNat →
        (s.ialloc.header h).freed ≠ (s.ialloc.header h).size)
  | _ => true

/-- In segments of less than 64 K a filler is never longer than its header can say. -/
theorem careful_of_small {c : LogAct A} (hsmall : st.segsize < itemSize + 2 ^ 16)
    (h : (log A st).Reach (fun s c => c.Legal st s) s) (hc : c.unfreed s = true) :
    c.Careful s := by
  obtain ⟨role, hI⟩ := Log.inv_reach h
  cases c with
  | maintenance a =>
    refine ⟨fun h hh hlt => ?_, fun x hx _ => ?_⟩
    · exact of_decide_eq_true ((Option.all_eq_true _ _).1 hc h hh) hlt
    · have hroom := (hI.room (hI.base.onList_iff.1 hx)).2
      omega
  | _ => trivial

theorem careful_reach (hsmall : st.segsize < itemSize + 2 ^ 16)
    (h : (log A st).Reach (fun s c => c.Legal st s ∧ c.unfreed s = true) s) :
    (log A st).Reach (fun s c => c.Legal st s ∧ c.Careful s) s := by
  induction h with
  | init h => exact .init h
  | step h hc hs ih =>
    exact ih.step ⟨hc.1, careful_of_small hsmall (h.mono fun _ _ h => h.1) hc.2⟩ hs

end Main

/-- Two items of 40 bytes and a filler of 4016 in segment 0; the first item is freed, and two passes
begin to clean the segment. -/
def cleaningRun : List (LogAct (Fin 2)) :=
  [.init 0 true true, .alloc 0 3 13 false true, .alloc 0 3 13 false true,
    .alloc 0 3 3993 false true, .unref 0, .maintenance 0, .maintenance 0]

/-- A queue of one entry is full after the second item: the next pass goes on at the filler. -/
theorem cleaning_scans_well_resumed : ∃ s t : Log (Fin 2),
    (t.cleaner 0).cleaning = some 0 ∧ (t.cleaner 0).cleanOffset = 80 ∧ t.items 0 = [40, 40] ∧
      (∃ size, s.prepare (logSettings 4096 1) 0 = .ok (t, size)) ∧ t.ialloc.OnList 0 0 ∧
      t.recycled 0 = (t.cleaner 0).begun ∧ 80 ∈ t.starts 0 := by
  obtain ⟨s, hs, hP⟩ := drive_log (logSettings 4096 1)
    (fun s c => c.Legal (logSettings 4096 1) s ∧ c.unfreed s = true) cleaningRun
    (fun s => (LogAct.maintenance 0).unfreed s ∧
      (s.prepare (logSettings 4096 1) 0).toOption.any fun r =>
        (r.1.cleaner 0).cleaning = some 0 ∧ (r.1.cleaner 0).cleanOffset = 80 ∧
          (r.1.ialloc.header 0).size = 4096 ∧ r.1.items 0 = [40, 40]) (by decide +kernel)
  obtain ⟨hunfreed, hP⟩ := of_decide_eq_true hP
  obtain ⟨⟨t, size⟩, ht, hP⟩ := (Option.any_eq_true _ _).1 hP
  obtain ⟨hcl, hoff, hsize, hitems⟩ := of_decide_eq_true hP
  have hprep : s.prepare (logSettings 4096 1) 0 = .ok (t, size) := by
    rcases hp : s.prepare (logSettings 4096 1) 0 with e | r <;> rw [hp] at ht <;> cases ht
    rfl
  have hcareful := careful_of_small (by decide) (hs.mono fun _ _ h => h.1) hunfreed
  obtain ⟨hon, hbegun, hstart⟩ := (cleaning_scans_well (careful_reach (by decide) hs) hcareful).1
    t size 0 hprep hcl (by rw [hoff, hsize]; decide)
  exact ⟨s, t, hcl, hoff, hitems, ⟨size, hprep⟩, hon, hbegun, hoff ▸ hstart⟩

/-- The rest of segment 0 is freed before the next pass, which puts it on the free list and then
goes on cleaning it. -/
theorem cleaning_scans_recycled : ∃ s : Log (Fin 2),
    (log (Fin 2) (logSettings 4096 1)).Reach (fun s c => c.Legal (logSettings 4096 1) s) s ∧
      ¬ s.ScansWell (logSettings 4096 1) 0 := by
  obtain ⟨s, hs, hP⟩ := drive_log (logSettings 4096 1) (fun s c => c.Legal (logSettings 4096 1) s)
    (cleaningRun ++ [.cleanupItem 0 true true, .unref 40, .unref 40])
    (fun s => (s.prepare (logSettings 4096 1) 0).toOption.any fun r =>
      (r.1.cleaner 0).cleaning = some 0 ∧
        (r.1.cleaner 0).cleanOffset < (r.1.ialloc.header 0).size.toNat ∧
          r.1.recycled 0 ≠ (r.1.cleaner 0).begun) (by decide +kernel)
  obtain ⟨⟨t, size⟩, ht, hP⟩ := (Option.any_eq_true _ _).1 hP
  obtain ⟨hcl, hoff, hagain⟩ := of_decide_eq_true hP
  refine ⟨s, hs, fun hwell => ?_⟩
  have hprep : s.prepare (logSettings 4096 1) 0 = .ok (t, size) := by
    rcases hp : s.prepare (logSettings 4096 1) 0 with e | r <;> rw [hp] at ht <;> cases ht
    rfl
  exact hagain (hwell t size 0 hprep hcl hoff).2.1

end FlexKvs

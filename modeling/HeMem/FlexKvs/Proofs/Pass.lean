import HeMem.FlexKvs.Proofs.Log

/-!
# A pass over the log

A pass puts inactive segments all of whose bytes have been freed on the free list; every other
segment stays what it is.  Its scan goes from one item to the next.
-/

namespace FlexKvs

open Function

namespace Log

variable {A : Type} {st : CleanSettings} {s t u : Log A} {role role' role'' : ℕ → Role A} {a : A}
  {x : ℕ}

/-- What a pass of `a` leaves as it is. -/
structure Passed (a : A) (role role' : ℕ → Role A) (s t : Log A) : Prop where
  given : ∀ x, role x ≠ .lost → role' x ≠ .lost
  done : ∀ x b, role x = .chain b → (s.ialloc.header x).inactive = true →
    (b = a → (s.ialloc.header x).freed ≠ (s.ialloc.header x).size) →
    role' x = .chain b ∧ (t.ialloc.header x).inactive = true ∧ t.items x = s.items x ∧
      t.rest x = s.rest x ∧ t.recycled x = s.recycled x ∧
      (t.ialloc.header x).freed = (s.ialloc.header x).freed ∧
      (t.ialloc.header x).size = (s.ialloc.header x).size
  back : ∀ x b, role' x = .chain b → role x = .chain b ∧
    (t.ialloc.header x).inactive = (s.ialloc.header x).inactive ∧ t.items x = s.items x ∧
      (t.ialloc.header x).size = (s.ialloc.header x).size
  cleaner : t.cleaner = s.cleaner

theorem Passed.refl : Passed a role role s s :=
  ⟨fun _ => id, fun _ _ h1 h2 _ => ⟨h1, h2, rfl, rfl, rfl, rfl, rfl⟩,
    fun _ _ h => ⟨h, rfl, rfl, rfl⟩, rfl⟩

theorem Passed.trans (h : Passed a role role' s t) (h' : Passed a role' role'' t u) :
    Passed a role role'' s u where
  given x hx := h'.given x (h.given x hx)
  done x b hx hi hf := by
    obtain ⟨h1, h2, h3, h4, h5, h6, h7⟩ := h.done x b hx hi hf
    obtain ⟨g1, g2, g3, g4, g5, g6, g7⟩ := h'.done x b h1 h2 (by rwa [h6, h7])
    exact ⟨g1, g2, g3.trans h3, g4.trans h4, g5.trans h5, g6.trans h6, g7.trans h7⟩
  back x b hx := by
    obtain ⟨g1, g2, g3, g4⟩ := h'.back x b hx
    obtain ⟨h1, h2, h3, h4⟩ := h.back x b g1
    exact ⟨h1, g2.trans h2, g3.trans h3, g4.trans h4⟩
  cleaner := h'.cleaner.trans h.cleaner

/-- A segment all of which has been freed leaves its chain. -/
theorem Inv.recycled (hI : Inv st role s) (hx : role x = .chain a)
    (hfull : (s.ialloc.header x).freed = (s.ialloc.header x).size) {i : Ialloc A}
    (hb : i.Inv st.toSettings (update role x .free)) (hlive : i.live = s.ialloc.live)
    (hia : ∀ b ib, i.ia b = some ib → ∃ ia, s.ialloc.ia b = some ia ∧ ia.cur = ib.cur)
    (hh : ∀ z, (i.header z).inactive = (s.ialloc.header z).inactive ∧
      (i.header z).size = (s.ialloc.header z).size ∧
      (i.header z).freed = (s.ialloc.header z).freed ∧
      (z ≠ x → (i.header z).offset = (s.ialloc.header z).offset))
    (ht : t = { s with ialloc := i, recycled := update s.recycled x (s.recycled x + 1) }) :
    Inv st (update role x .free) t ∧ Passed a role (update role x .free) s t := by
  have hne : ∀ {z b}, update role x .free z = .chain b → z ≠ x ∧ role z = .chain b :=
    fun {z b} hz => by
      rw [Ialloc.update_role] at hz
      exact hz.resolve_left (by simp)
  have hspare : ∀ z, (update role x .free z).Spare → (role z).Spare := fun z hz => by
    rcases eq_or_ne z x with rfl | hzx
    · rw [update_self] at hz
      simp [Role.Spare] at hz
    · rwa [update_of_ne hzx] at hz
  have he : i.Ends (update role x .free) :=
    hI.ends.congr (fun z b hz => (hne hz).2)
      (fun z hz => by
        rw [(hh z).1]
        exact hI.ends.spare z (hspare z hz))
      (fun z b hz => ⟨(hh z).1, fun _ => ⟨(hh z).2.2.2 (hne hz).1, (hh z).2.1⟩⟩) hia
  have hI' := hI.ialloc hb he (fun p hp => hlive ▸ hp)
    (fun z b hz => ⟨.inl (hne hz).2, (hh z).2.2.2 (hne hz).1, (hh z).2.1⟩) hspare
  subst ht
  refine ⟨hI'.of_log rfl rfl rfl rfl, fun z hz => ?_, fun z b hz hi hf => ?_,
    fun z b hz => ⟨(hne hz).2, (hh z).1, rfl, (hh z).2.1⟩, rfl⟩
  · rcases eq_or_ne z x with rfl | hzx
    · rw [update_self]
      simp
    · rwa [update_of_ne hzx]
  · have hzx : z ≠ x := by
      rintro rfl
      exact hf (Role.chain.inj (hz.symm.trans hx)) hfull
    refine ⟨by rwa [update_of_ne hzx], (hh z).1.trans hi, rfl, rfl, ?_, (hh z).2.2.1, (hh z).2.1⟩
    exact update_of_ne hzx _ _

section Recycle

variable [DecidableEq A] {ia : ItemAllocator} {y : ℕ} {R K : List ℕ}

theorem Inv.recycle_first (hI : Inv st role s) (hia : s.ialloc.ia a = some ia)
    (hW : Ialloc.Walks role s.ialloc.next a ia [] (x :: y :: R))
    (hfull : (s.ialloc.header x).freed = (s.ialloc.header x).size) :
    let t := Log.segmentFree { s with ialloc := s.ialloc.setOldest a y } x
    let j := { ia with oldest := some y }
    Inv st (update role x .free) t ∧ t.ialloc.ia a = some j ∧
      Ialloc.Walks (update role x .free) t.ialloc.next a j [] (y :: R) ∧
      Passed a role (update role x .free) s t := by
  obtain ⟨hb, hia', hW'⟩ := hI.base.recycle_first hia hW hfull
  have hset : ∀ b ib, ((s.ialloc.setOldest a y).segmentFree x).ia b = some ib →
      ∃ ia, s.ialloc.ia b = some ia ∧ ia.cur = ib.cur := fun b ib hb => by
    simp only [Ialloc.segmentFree, Ialloc.edit, Ialloc.setOldest, hia, Option.map_some] at hb
    rcases eq_or_ne b a with rfl | hba
    · rw [update_self] at hb
      cases hb
      exact ⟨ia, hia, rfl⟩
    · rw [update_of_ne hba] at hb
      exact ⟨ib, hb, rfl⟩
  obtain ⟨hI', hp⟩ := hI.recycled (t := Log.segmentFree { s with
    ialloc := s.ialloc.setOldest a y } x) ((hW.mem x).1 (by simp)) hfull hb rfl hset
    (fun z => by
      unfold Ialloc.segmentFree Ialloc.edit Ialloc.setOldest
      rcases eq_or_ne z x with rfl | hz <;> simp [*]) rfl
  exact ⟨hI', hia', hW', hp⟩

theorem Inv.recycle_after (hI : Inv st role s) (hia : s.ialloc.ia a = some ia) {p : ℕ}
    (hW : Ialloc.Walks role s.ialloc.next a ia (K ++ [p]) (x :: y :: R))
    (hfull : (s.ialloc.header x).freed = (s.ialloc.header x).size) :
    let t := (s.setNext p (some y)).segmentFree x
    Inv st (update role x .free) t ∧ t.ialloc.ia a = some ia ∧
      Ialloc.Walks (update role x .free) t.ialloc.next a ia (K ++ [p]) (y :: R) ∧
      Passed a role (update role x .free) s t := by
  obtain ⟨hb, hia', hW'⟩ := hI.base.recycle_after hia hW hfull
  obtain ⟨hI', hp⟩ := hI.recycled (t := (s.setNext p (some y)).segmentFree x)
    ((hW.mem x).1 (by simp)) hfull hb rfl (fun b ib hb => ⟨ib, hb, rfl⟩)
    (fun z => by
      unfold Ialloc.segmentFree Ialloc.edit
      rcases eq_or_ne z x with rfl | hz <;> rcases eq_or_ne z p with rfl | hzp <;> simp [*]) rfl
  exact ⟨hI', hia', hW', hp⟩

/-- The recycling comes to its end; the segment it picks is an inactive one that stays. -/
theorem Inv.recycleLoop : ∀ {n : ℕ} {R K : List ℕ} {s : Log A} {role : ℕ → Role A}
    {ia : ItemAllocator} {d : Option ℕ} {q : Rat}, Inv st role s →
    s.ialloc.ia a = some ia → Ialloc.Walks role s.ialloc.next a ia K R → R.length ≤ n →
    (∀ x ∈ d, x ∈ K ∧ (s.ialloc.header x).inactive = true ∧
      (s.ialloc.header x).freed ≠ (s.ialloc.header x).size) →
    ∃ cand' t role', s.recycleLoop st a n K.getLast? R.head? d q = .ok (cand', t) ∧
      Inv st role' t ∧ Passed a role role' s t ∧
      ∀ x ∈ cand', role' x = .chain a ∧ (t.ialloc.header x).inactive = true
  | n, [], K, s, role, ia, d, q, _, _, hW, _, _ => by
    have hlast := hW.last
    cases hlast
  | 0, x :: R, K, s, role, ia, d, q, _, _, hW, hn, _ => by simp at hn
  | n + 1, x :: R, K, s, role, ia, d, q, hI, hia, hW, hn, hcand => by
    have hnext : (s.ialloc.header x).next = R.head? := hW.linked.next_eq
    have hstop : ∀ z ∈ d, role z = .chain a ∧ (s.ialloc.header z).inactive = true :=
      fun z hz => ⟨(hW.mem z).1 (List.mem_append_left _ (hcand z hz).1), (hcand z hz).2.1⟩
    unfold Log.recycleLoop
    simp only [List.head?_cons]
    rw [hnext]
    rcases R with _ | ⟨y, R⟩
    · exact ⟨d, s, role, rfl, hI, .refl, hstop⟩
    simp only [List.head?_cons]
    have hW' : Ialloc.Walks role s.ialloc.next a ia (K ++ [x]) (y :: R) := by
      have hsplit : K ++ [x] ++ y :: R = K ++ x :: y :: R := by simp
      refine ⟨hsplit ▸ hW.linked, hsplit ▸ hW.nodup, hsplit ▸ hW.mem, ?_⟩
      rw [← hW.last]
      rfl
    have hlast : (K ++ [x]).getLast? = some x := by simp
    split_ifs with hact hfull hpick
    · exact ⟨d, s, role, rfl, hI, .refl, hstop⟩
    · have hstays : ∀ {t : Log A}, Passed a role (update role x .free) s t →
          ∀ z ∈ d, z ∈ K ∧ (t.ialloc.header z).inactive = true ∧
            (t.ialloc.header z).freed ≠ (t.ialloc.header z).size := fun hp z hz => by
        obtain ⟨-, h2, -, -, -, h6, h7⟩ := hp.done z a (hstop z hz).1 (hstop z hz).2
          fun _ => (hcand z hz).2.2
        exact ⟨(hcand z hz).1, h2, h6 ▸ h7 ▸ (hcand z hz).2.2⟩
      rcases List.eq_nil_or_concat' K with rfl | ⟨K, p, rfl⟩
      · obtain ⟨hI', hia', hW'', hp⟩ := hI.recycle_first hia hW hfull
        obtain ⟨c, t, role', ht, hI'', hp', hc⟩ := recycleLoop (q := q) hI' hia' hW''
          (Nat.le_of_succ_le_succ hn) (hstays hp)
        exact ⟨c, t, role', ht, hI'', hp.trans hp', hc⟩
      · obtain ⟨hI', hia', hW'', hp⟩ := hI.recycle_after hia hW hfull
        have hlast : (K ++ [p]).getLast? = some p := by simp
        obtain ⟨c, t, role', ht, hI'', hp', hc⟩ := recycleLoop (q := q) hI' hia' hW''
          (Nat.le_of_succ_le_succ hn) (hstays hp)
        rw [hlast] at ht ⊢
        exact ⟨c, t, role', ht, hI'', hp.trans hp', hc⟩
    · have hloop := recycleLoop (d := some x)
        (q := st.ratio (s.ialloc.header x).freed (s.ialloc.header x).size) hI hia hW'
        (Nat.le_of_succ_le_succ hn) fun z hz => by
          cases hz
          exact ⟨by simp, by simpa using hact, hfull⟩
      rwa [hlast] at hloop
    · have hloop := recycleLoop (q := q) hI hia hW' (Nat.le_of_succ_le_succ hn)
        fun z hz => ⟨List.mem_append_left _ (hcand z hz).1, (hcand z hz).2⟩
      rwa [hlast] at hloop

end Recycle

section Pass

variable [DecidableEq A] {ia : ItemAllocator} {size off off' idx idx' n h : ℕ}

/-- A pass recycles, and begins a cleaning unless it goes on with one. -/
theorem Inv.prepare (hI : Inv st role s) (hia : s.ialloc.ia a = some ia) :
    ∃ t role' cand, Inv st role' t ∧ Passed a role role' s t ∧
      (∀ x ∈ cand, role' x = .chain a ∧ (t.ialloc.header x).inactive = true) ∧
      s.prepare st a = .ok (let size := (s.cleaner a).cleaning.elim 0 fun h =>
          (t.ialloc.header h).size.toNat
        (if (s.cleaner a).cleaning = none ∨ (s.cleaner a).cleanOffset = size then
          t.beginCleaning a cand else t, size)) := by
  obtain ⟨R, hW, hlen, hstart⟩ := hI.base.walks hia
  obtain ⟨cand, t, role', ht, hI', hp, hc⟩ := hI.recycleLoop (d := none) (q := 0) hia hW
    (Nat.le_succ_of_le hlen) (by simp)
  refine ⟨t, role', cand, hI', hp, hc, ?_⟩
  unfold Log.prepare
  rw [hia]
  dsimp only
  rw [hstart]
  rw [List.getLast?_nil] at ht
  rw [ht]
  simp only [bind, Except.bind, pure, Except.pure, hp.cleaner]

/-- Beside references and queue entries the scan changes nothing. -/
structure Scanned (s t : Log A) : Prop where
  ialloc : t.ialloc = s.ialloc
  items : t.items = s.items
  rest : t.rest = s.rest
  recycled : t.recycled = s.recycled
  total : ∀ z, (t.item z).totalsz = (s.item z).totalsz
  cleaner : ∀ b, (t.cleaner b).cleaning = (s.cleaner b).cleaning ∧
    (t.cleaner b).cleanOffset = (s.cleaner b).cleanOffset ∧
    (t.cleaner b).begun = (s.cleaner b).begun

omit [DecidableEq A] in
theorem Scanned.trans (h : Scanned s t) (h' : Scanned t u) : Scanned s u where
  ialloc := h'.ialloc.trans h.ialloc
  items := h'.items.trans h.items
  rest := h'.rest.trans h.rest
  recycled := h'.recycled.trans h.recycled
  total z := (h'.total z).trans (h.total z)
  cleaner b := by
    obtain ⟨h1, h2, h3⟩ := h.cleaner b
    obtain ⟨g1, g2, g3⟩ := h'.cleaner b
    exact ⟨g1.trans h1, g2.trans h2, g3.trans h3⟩

omit [DecidableEq A] in
theorem Scanned.refl : Scanned s s := ⟨rfl, rfl, rfl, rfl, fun _ => rfl, fun _ => ⟨rfl, rfl, rfl⟩⟩

omit [DecidableEq A] in
theorem itemTryref_cases (it : ℕ) : s.itemTryref it = (false, s) ∨
    s.itemTryref it = (true, s.editItem it fun i => { i with refcount := i.refcount + 1 }) := by
  unfold itemTryref
  split_ifs
  · exact .inl rfl
  · exact .inr rfl

/-- An item that the scan takes a reference of. -/
theorem Scanned.enqueue {it : ℕ} : Scanned s
    ((s.editItem it fun i => { i with refcount := i.refcount + 1 }).enqueue a idx it) := by
  refine ⟨rfl, rfl, rfl, rfl, fun z => ?_, fun b => ?_⟩
  · change (update s.item it _ z).totalsz = _
    rcases eq_or_ne z it with rfl | hz
    · rw [update_self]
      rfl
    · rw [update_of_ne hz]
  · rcases eq_or_ne b a with rfl | hb
    · simp [Log.enqueue, editItem]
    · simp [Log.enqueue, editItem, hb]

omit [DecidableEq A] in
theorem Inv.scanned (hI : Inv st role s) (h : Scanned s t) : Inv st role t where
  base := h.ialloc ▸ hI.base
  ends := h.ialloc ▸ hI.ends
  cut x b hx := (hI.cut x b hx).congr (by rw [h.items]) (by rw [h.rest]) (by rw [h.ialloc])
    (by rw [h.ialloc]) (hI.room hx).1 fun o _ => h.total _
  blank x hx := by
    rw [h.items, h.rest]
    exact hI.blank x hx
  sized i hi := (h.total i.1).trans (hI.sized i (h.ialloc ▸ hi))

omit [DecidableEq A] in
theorem Scanned.starts (h : Scanned s t) (x : ℕ) : t.starts x = s.starts x := by
  unfold Log.starts
  rw [h.items, h.rest]

theorem cleanLoop_scanned : ∀ {n off idx : ℕ} {s : Log A},
    s.cleanLoop st a h size n off idx = .ok (off', idx', t) → Scanned s t
  | 0, off, idx, s, hs => by cases hs
  | n + 1, off, idx, s, hs => by
    unfold cleanLoop at hs
    split_ifs at hs
    · cases hs
      exact .refl
    · dsimp only at hs
      rcases itemTryref_cases (s := s) (st.segsize * h + off) with ht | ht <;> rw [ht] at hs
      · exact cleanLoop_scanned hs
      · exact Scanned.enqueue.trans (cleanLoop_scanned hs)
    · cases hs
      exact .refl

/-- The loop goes the way of the scan, as far as it comes, and enqueues only what it passes. -/
theorem cleanLoop_walk : ∀ {n off idx : ℕ} {s : Log A},
    s.cleanLoop st a h size n off idx = .ok (off', idx', t) → ∃ l m,
      Pieces.walk (s.totalAt st h) itemSize size n off =
        (Pieces.walk (s.totalAt st h) itemSize size m off').map (fun r => (l ++ r.1, r.2)) ∧
      ∀ i it, (t.cleaner a).cleanupQueue i = some it →
        (s.cleaner a).cleanupQueue i = some it ∨ ∃ o ∈ l, it = st.segsize * h + o
  | 0, off, idx, s, hs => by cases hs
  | n + 1, off, idx, s, hs => by
    have hsame : ∀ {t : Log A}, Scanned s t → t.totalAt st h = s.totalAt st h := fun ht =>
      funext fun o => ht.total _
    unfold cleanLoop at hs
    split_ifs at hs with hmore hsmall hstart
    · cases hs
      refine ⟨[], 1, ?_, fun i it => .inl⟩
      rw [Pieces.walk_rest hmore.1 hsmall, Pieces.walk_end]
      rfl
    · dsimp only at hs
      rw [Pieces.walk_stop hmore.1 (Nat.le_of_not_lt hsmall)]
      rcases itemTryref_cases (s := s) (st.segsize * h + off) with ht | ht <;> rw [ht] at hs
      · obtain ⟨l, m, hw, hq⟩ := cleanLoop_walk hs
        refine ⟨off :: l, m, ?_, fun i it hi => ?_⟩
        · rw [show s.totalAt st h off = (s.item (st.segsize * h + off)).totalsz from rfl, hw,
            Option.map_map]
          rfl
        · exact (hq i it hi).imp_right fun ⟨o, ho, he⟩ => ⟨o, List.mem_cons_of_mem _ ho, he⟩
      · obtain ⟨l, m, hw, hq⟩ := cleanLoop_walk hs
        have hscan : Scanned s ((s.editItem (st.segsize * h + off)
            fun i => { i with refcount := i.refcount + 1 }).enqueue a idx (st.segsize * h + off)) :=
          .enqueue
        rw [hsame hscan] at hw
        refine ⟨off :: l, m, ?_, fun i it hi => ?_⟩
        · have htotal : ((s.editItem (st.segsize * h + off)
              fun i => { i with refcount := i.refcount + 1 }).item (st.segsize * h + off)).totalsz =
              s.totalAt st h off := hscan.total _
          rw [htotal] at hw
          rw [hw, Option.map_map]
          rfl
        · obtain hi | ⟨o, ho, he⟩ := hq i it hi
          · have hqueue : (((s.editItem (st.segsize * h + off)
                fun i => { i with refcount := i.refcount + 1 }).enqueue a idx
                (st.segsize * h + off)).cleaner a).cleanupQueue =
                update (s.cleaner a).cleanupQueue idx (some (st.segsize * h + off)) := by
              simp [Log.enqueue, editItem]
            rw [hqueue] at hi
            rcases eq_or_ne i idx with rfl | hne
            · rw [update_self] at hi
              exact .inr ⟨off, by simp, (Option.some.inj hi).symm⟩
            · rw [update_of_ne hne] at hi
              exact .inl hi
          · exact .inr ⟨o, List.mem_cons_of_mem _ ho, he⟩
    · cases hs
      refine ⟨[], n + 1, ?_, fun i it => .inl⟩
      simp

theorem Inv.maintenance (hI : Inv st role s) (hs : s.iallocMaintenance st a = .ok t) :
    ∃ role', Inv st role' t := by
  rcases hia : s.ialloc.ia a with _ | ia
  · unfold iallocMaintenance Log.prepare at hs
    rw [hia] at hs
    cases hs
  obtain ⟨u, role', cand, hI', -, -, hprep⟩ := hI.prepare hia
  unfold iallocMaintenance at hs
  rw [hprep] at hs
  have hI₁ : ∀ c : Prop, [Decidable c] → Inv st role' (if c then u.beginCleaning a cand else u) :=
    fun c _ => by
      split_ifs
      · exact hI'.of_log rfl rfl rfl rfl
      · exact hI'
  dsimp only [bind, Except.bind] at hs
  split at hs
  · cases hs
    exact ⟨role', hI₁ _⟩
  · split at hs
    · cases hs
    · rename_i r hloop
      cases hs
      exact ⟨role', ((hI₁ _).scanned (cleanLoop_scanned hloop)).of_log rfl rfl rfl rfl⟩

end Pass

section Step

variable [DecidableEq A]

theorem Inv.step (hI : Inv st role s) {c : LogAct A} (hl : c.Legal st s)
    (hs : c.next st s = .ok t) : ∃ role', Inv st role' t := by
  cases c with
  | init a ok ok' =>
    obtain ⟨role', hI', -⟩ := hI.initAllocator hl hs
    exact ⟨role', hI'⟩
  | alloc a keylen vallen cleanup ok =>
    obtain ⟨role', hI', -⟩ := hI.newItem hs
    exact ⟨role', hI'⟩
  | ref it =>
    cases hs
    exact ⟨role, hI.tryref.1⟩
  | unref it => exact ⟨role, (hI.unref hl hs).1⟩
  | cleanupItem a idle ok =>
    change (s.iallocCleanupItem st a idle ok).map Prod.snd = .ok t at hs
    rcases hr : s.iallocCleanupItem st a idle ok with e | ⟨r, u⟩ <;> rw [hr] at hs <;> cases hs
    obtain ⟨role', hI', -⟩ := hI.cleanupItem hr
    exact ⟨role', hI'⟩
  | nextRequest a =>
    change s.iallocCleanupNextrequest a = .ok t at hs
    unfold iallocCleanupNextrequest at hs
    rcases hia : s.ialloc.ia a with _ | ia <;> rw [hia] at hs
    · cases hs
    · cases hs
      exact ⟨role, (hI.keepIa hia).1⟩
  | maintenance a => exact hI.maintenance hs

theorem inv_reach (h : (log A st).Reach (fun s c => c.Legal st s) s) : ∃ role, Inv st role s :=
  h.invariant (I := fun s => ∃ role, Inv st role s)
    (fun _ hs => ⟨_, hs ▸ inv_initial⟩) fun _ _ _ ⟨_, hI⟩ hc hs => hI.step hc hs

end Step

section Scan

theorem Cut.length_le (hC : s.Cut st x) : (s.items x).length ≤ (s.items x).sum :=
  Pieces.length_le_sum fun t ht => Nat.lt_of_lt_of_le (by decide) (hC.big t ht)

/-- The scan of a segment at its end follows the items and the filler just where the filler's
length fits into its header. -/
theorem Inv.scan_iff (hI : Inv st role s) (hr : role x = .chain a)
    (hend : (s.ialloc.header x).offset = (s.ialloc.header x).size) :
    s.scan st x = some (s.headers x, (s.ialloc.header x).size.toNat) ↔
      (s.ialloc.header x).size.toNat < (s.items x).sum + itemSize + 2 ^ 16 := by
  have hC := hI.cut x a hr
  have hlen := hC.length_le
  have hsum := hC.sum_le
  have hsize : itemSize = 24 := rfl
  rw [hend] at hsum
  generalize hz : (s.ialloc.header x).size.toNat = size at *
  have hwalk : s.scan st x = (Pieces.walk (s.totalAt st x) itemSize size
      (size + 1 - (s.items x).length) (s.items x).sum).map
        fun r => (Pieces.starts 0 (s.items x) ++ r.1, r.2) := by
    unfold scan
    rw [hz, Pieces.walk_told hC.told hC.big
      (fun t ht => Nat.lt_of_lt_of_le (by decide) (hC.big t ht)) (by omega) (by omega), Nat.zero_add]
  rw [hwalk]
  unfold headers
  rw [Pieces.starts_append, Nat.zero_add]
  rcases hrest : s.rest x with _ | n
  · have hall := hC.whole hrest
    rw [hend, hz] at hall
    obtain ⟨m, hm⟩ : ∃ m, size + 1 - (s.items x).length = m + 1 := ⟨_, Nat.succ_sub (by omega)⟩
    rw [hall, hm, Pieces.walk_end]
    simp [Pieces.starts]
    omega
  · obtain ⟨-, htot, hpos, hfill⟩ := hC.filler n hrest
    rw [hz] at htot
    obtain ⟨m, hm⟩ : ∃ m, size + 1 - (s.items x).length = m + 2 :=
      ⟨size - 1 - (s.items x).length, by omega⟩
    rw [hm]
    rcases Nat.lt_or_ge n itemSize with hsmall | hbig
    · rw [Pieces.walk_rest (by omega) (by omega)]
      simp [Pieces.starts, Nat.not_le.2 hsmall]
      omega
    · rw [Pieces.walk_stop (by omega) (by omega), hfill hbig]
      have hfilter : (some n).toList.filter (fun t => decide (itemSize ≤ t)) = [n] := by
        simp [hbig]
      rw [hfilter]
      rcases Nat.lt_or_ge n (itemSize + 2 ^ 16) with hfits | hover
      · have hmod : itemSize + (n - itemSize) % 2 ^ 16 = n := by omega
        rw [hmod, htot, Pieces.walk_end]
        simp [Pieces.starts]
        omega
      · -- what is left behind the filler's header is a multiple of 2^16
        have hleft : itemSize + (n - itemSize) % 2 ^ 16 + 2 ^ 16 ≤ n := by omega
        have hnot : (s.items x).sum + itemSize + 2 ^ 16 ≤ size := by omega
        refine iff_of_false (fun he => ?_) (Nat.not_lt.2 hnot)
        obtain ⟨t, ht⟩ : ∃ t, itemSize + (n - itemSize) % 2 ^ 16 = t := ⟨_, rfl⟩
        rw [ht] at hleft he
        have hroom : itemSize + ((s.items x).sum + t) ≤ size := by omega
        rw [Pieces.walk_stop (by omega) (Nat.le_sub_of_add_le hroom)] at he
        simp only [Option.map_map, Option.map_eq_some_iff] at he
        obtain ⟨r, -, hr⟩ := he
        have hlong := congrArg (fun r => r.1.length) hr
        simp [Pieces.starts] at hlong

end Scan

end Log

/-- The segments that a chain's links lead to are those in it. -/
theorem Ialloc.Inv.onList_iff {A : Type} {st : Settings} {role : ℕ → Role A} {s : Ialloc A} {a : A}
    {x : ℕ} (hI : s.Inv st role) : s.OnList a x ↔ role x = .chain a := by
  refine ⟨fun h => ?_, fun h => ?_⟩
  swap
  · rcases hia : s.ia a with _ | ia
    · exact absurd h (hI.unset a hia x).1
    obtain ⟨⟨l, hl, -, hm⟩, -⟩ := hI.set a ia hia
    have hreach : ∀ {l : List ℕ} {p : Option ℕ}, Linked s.next p l →
        (∀ y ∈ p, s.OnList a y) → ∀ y ∈ l, s.OnList a y := fun {l} => by
      induction l with
      | nil => simp
      | cons z l ih =>
        intro p hl hp y hy
        have hz : s.OnList a z := hp z hl.1
        rcases List.mem_cons.1 hy with rfl | hy
        · exact hz
        · exact ih hl.2 (fun y hy => .next hz hy) y hy
    exact hreach hl (fun y hy => .oldest hia hy) x ((hm x).2 h)
  induction h with
  | oldest hia hx =>
    obtain ⟨⟨l, hl, -, hm⟩, -⟩ := hI.set a _ hia
    rw [hx] at hl
    exact (hm _).1 (List.mem_of_mem_head? hl.start.symm)
  | @next x y hx hn ih =>
    rcases hia : s.ia a with _ | ia
    · exact absurd ih (hI.unset a hia x).1
    obtain ⟨⟨l, hl, -, hm⟩, -⟩ := hI.set a ia hia
    exact (hm y).1 (hl.next_mem ((hm x).2 ih) hn)

section Main

variable {A : Type} [DecidableEq A] {st : CleanSettings} {s : Log A} {a : A} {x : ℕ}

/-- The scan of a segment that has been filled visits its items in order and then the filler, and
ends at the segment's end, just where fewer than 24 + 2^16 bytes were left when it was closed. -/
theorem log_scan_follows_iff (h : (log A st).Reach (fun s c => c.Legal st s) s)
    (hx : s.ialloc.OnList a x)
    (hend : (s.ialloc.header x).offset = (s.ialloc.header x).size) :
    s.scan st x = some (s.headers x, (s.ialloc.header x).size.toNat) ↔
      (s.ialloc.header x).size.toNat < (s.items x).sum + itemSize + 2 ^ 16 := by
  obtain ⟨role, hI⟩ := Log.inv_reach h
  exact hI.scan_iff (hI.base.onList_iff.1 hx) hend

end Main

/-- Segments of the given size; the ratio is that of the source. -/
def logSettings (segsize segcqsize : ℕ) : CleanSettings :=
  { segsize, segmaxnum := 4, segcqsize, cleanRatio := 1 / 2,
    ratio := fun freed size => freed.toNat / size.toNat }

theorem drive_log (st : CleanSettings) (D : Log (Fin 2) → LogAct (Fin 2) → Prop)
    [∀ s, DecidablePred (D s)] (ls : List (LogAct (Fin 2))) (P : Log (Fin 2) → Bool)
    (h : (System.drive (fun s c => (LogAct.next st s c).toOption) D ls {}).any P = true) :
    ∃ s, (log (Fin 2) st).Reach D s ∧ P s = true :=
  System.drive_reach (S := log (Fin 2) st) _ D
    (fun s c s' he => by
      change LogAct.next st s c = .ok s'
      rcases hn : LogAct.next st s c with e | t <;> rw [hn] at he <;> cases he
      rfl)
    (fun _ _ => id) rfl ls P h

/-- Items of 40 and 30 bytes leave 4026 of 4096 when the next one closes the segment. -/
theorem log_scan_follows_filler : ∃ s : Log (Fin 2), s.items 0 = [40, 30] ∧ s.rest 0 = some 4026 ∧
    s.scan (logSettings 4096 1) 0 = some ([0, 40, 70], 4096) := by
  obtain ⟨s, hs, hP⟩ := drive_log (logSettings 4096 1)
    (fun s c => c.Legal (logSettings 4096 1) s)
    [.init 0 true true, .alloc 0 3 13 false true, .alloc 0 2 4 false true,
      .alloc 0 3 4013 false true]
    (fun s => (s.ialloc.ia 0).any (·.oldest = some 0) ∧
      (s.ialloc.header 0).offset = (s.ialloc.header 0).size ∧ (s.ialloc.header 0).size = 4096 ∧
      s.items 0 = [40, 30] ∧ s.rest 0 = some 4026) (by decide +kernel)
  obtain ⟨hold, hend, hsize, hitems, hrest⟩ := of_decide_eq_true hP
  obtain ⟨ia, hia, hold⟩ := (Option.any_eq_true _ _).1 hold
  have hscan := (log_scan_follows_iff hs (.oldest hia (of_decide_eq_true hold)) hend).2
    (by rw [hsize, hitems]; decide)
  refine ⟨s, hitems, hrest, hscan.trans ?_⟩
  unfold Log.headers
  rw [hitems, hrest, hsize]
  decide

/-- One item of 24 bytes leaves 73704 of 73728, and the filler's header says 8168. -/
theorem log_scan_leaves_items : ∃ (s : Log (Fin 2)) (x : ℕ),
    (log (Fin 2) (logSettings 73728 1)).Reach (fun s c => c.Legal (logSettings 73728 1) s) s ∧
      s.ialloc.OnList 0 x ∧ (s.ialloc.header x).offset = (s.ialloc.header x).size ∧
      s.items x = [24] ∧ s.rest x = some 73704 ∧ s.totalAt (logSettings 73728 1) x 24 = 8168 ∧
      s.scan (logSettings 73728 1) x ≠
        some (s.headers x, (s.ialloc.header x).size.toNat) := by
  obtain ⟨s, hs, hP⟩ := drive_log (logSettings 73728 1)
    (fun s c => c.Legal (logSettings 73728 1) s)
    [.init 0 true true, .alloc 0 0 0 false true, .alloc 0 0 73688 false true]
    (fun s => (s.ialloc.ia 0).any (·.oldest = some 0) ∧
      (s.ialloc.header 0).offset = (s.ialloc.header 0).size ∧ (s.ialloc.header 0).size = 73728 ∧
      s.items 0 = [24] ∧ s.rest 0 = some 73704 ∧ s.totalAt (logSettings 73728 1) 0 24 = 8168)
    (by decide +kernel)
  obtain ⟨hold, hend, hsize, hitems, hrest, htotal⟩ := of_decide_eq_true hP
  obtain ⟨ia, hia, hold⟩ := (Option.any_eq_true _ _).1 hold
  have hon : s.ialloc.OnList 0 0 := .oldest hia (of_decide_eq_true hold)
  obtain ⟨role, hI⟩ := Log.inv_reach hs
  refine ⟨s, 0, hs, hon, hend, hitems, hrest, htotal, fun hscan => ?_⟩
  have hfit := (hI.scan_iff (hI.base.onList_iff.1 hon) hend).1 hscan
  rw [hsize, hitems] at hfit
  exact absurd hfit (by decide)

end FlexKvs

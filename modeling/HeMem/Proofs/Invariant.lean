import HeMem.Proofs.Run

/-!
# Lists, flags, rings and cursors agree

`Inv n A v`: what the lists of a view say of its `n` pages is what the pages' own flags say, what
waits in the rings is what the flags say it is, and the cursors stand on the hot lists.  Two of
its parts hold only of runs that go through no defect: a victim search that drops enforced pages
leaves them on no list, and a fault hinted hot puts a page on the hot list with its flag clear.
-/

namespace HeMem

open Function

variable {cfg : Config} {A : Allow} {n : ℕ} {v w : View} {p x : PageId}

@[simp] theorem kind_freeList (dram : Bool) : (freeList dram).kind = .free := by cases dram <;> rfl

@[simp] theorem dram_freeList (dram : Bool) : (freeList dram).dram = dram := by cases dram <;> rfl

@[simp] theorem kind_usedList (dram hot : Bool) :
    (usedList dram hot).kind = if hot then .hot else .cold := by
  cases dram <;> cases hot <;> rfl

@[simp] theorem dram_usedList (dram hot : Bool) : (usedList dram hot).dram = dram := by
  cases dram <;> cases hot <;> rfl

structure Inv (n : ℕ) (A : Allow) (v : View) : Prop where
  owned : ∀ p q, v.list p = some q → p < n
  listed : A.skip ∨ ∀ p, p < n → v.list p ≠ none
  tier : ∀ p q, v.list p = some q → (v.page p).inDram = q.dram
  free : ∀ p q, v.list p = some q → q.kind = .free → (v.page p).present = false
  idle : ∀ p, (v.page p).present = false → (v.page p).hot = false
  hotFlag : A.hotFault ∨ ∀ p q, v.list p = some q → q.kind = .hot →
    (v.page p).present = true → (v.page p).hot = true
  coldFlag : ∀ p q, v.list p = some q → q.kind = .cold → (v.page p).hot = false
  ring : ∀ p, p ∈ v.free → (p < n ∨ A.dummy) ∧ (v.page p).present = false ∧
    ∀ q, v.list p = some q → q.kind ≠ .free
  nodup : v.free.Nodup
  waiting : ∀ p, p < n → (v.page p).present = false → p ∈ v.free ∨
    v.list p = some (freeList (v.page p).inDram)
  request : ∀ hot p, p ∈ v.requests hot → p < n ∧ (v.page p).va ≠ 0
  cursor : ∀ dram c, v.cur dram = some c → v.list c = some (hotList dram)
  align : ∀ p, (v.page p).va % hugepageSize = 0
  enforced : A.hint ∨ ∀ p, (v.page p).enforced = false

theorem kind_hotList (dram : Bool) : (hotList dram).kind = .hot := by cases dram <;> rfl

theorem dram_hotList (dram : Bool) : (hotList dram).dram = dram := by cases dram <;> rfl

/-- What the invariant says of one page, on list `l` or none, with struct `P`; `w` says that it waits
in the free ring. -/
structure Agrees (n : ℕ) (A : Allow) (p : PageId) (l : Option ListId) (P : HememPage) (w : Prop) :
    Prop where
  owned : ∀ q, l = some q → p < n
  listed : A.skip ∨ (p < n → l ≠ none)
  tier : ∀ q, l = some q → P.inDram = q.dram
  free : ∀ q, l = some q → q.kind = .free → P.present = false
  idle : P.present = false → P.hot = false
  hotFlag : A.hotFault ∨ ∀ q, l = some q → q.kind = .hot → P.present = true → P.hot = true
  coldFlag : ∀ q, l = some q → q.kind = .cold → P.hot = false
  ring : w → (p < n ∨ A.dummy) ∧ P.present = false ∧ ∀ q, l = some q → q.kind ≠ .free
  waiting : p < n → P.present = false → w ∨ l = some (freeList P.inDram)
  align : P.va % hugepageSize = 0
  enforced : A.hint ∨ P.enforced = false

theorem Inv.agrees (h : Inv n A v) (p : PageId) :
    Agrees n A p (v.list p) (v.page p) (p ∈ v.free) where
  owned := h.owned p
  listed := h.listed.imp_right fun h => h p
  tier := h.tier p
  free := h.free p
  idle := h.idle p
  hotFlag := h.hotFlag.imp_right fun h => h p
  coldFlag := h.coldFlag p
  ring := h.ring p
  waiting := h.waiting p
  align := h.align p
  enforced := h.enforced.imp_right fun h => h p

theorem inv_of_agrees (h : ∀ p, Agrees n A p (v.list p) (v.page p) (p ∈ v.free))
    (hnd : v.free.Nodup) (hreq : ∀ hot p, p ∈ v.requests hot → p < n ∧ (v.page p).va ≠ 0)
    (hcur : ∀ dram c, v.cur dram = some c → v.list c = some (hotList dram)) : Inv n A v where
  owned p := (h p).owned
  listed := or_iff_not_imp_left.2 fun hn p => (h p).listed.resolve_left hn
  tier p := (h p).tier
  free p := (h p).free
  idle p := (h p).idle
  hotFlag := or_iff_not_imp_left.2 fun hn p => (h p).hotFlag.resolve_left hn
  coldFlag p := (h p).coldFlag
  ring p := (h p).ring
  nodup := hnd
  waiting p := (h p).waiting
  request := hreq
  cursor := hcur
  align p := (h p).align
  enforced := or_iff_not_imp_left.2 fun hn p => (h p).enforced.resolve_left hn

/-- What a step that is about one page has to show. -/
theorem Inv.step (h : Inv n A v) {l : Option ListId} {P : HememPage}
    (hlist : w.list = update v.list p l) (hpage : w.page = update v.page p P)
    (hp : Agrees n A p l P (p ∈ w.free)) (hfree : ∀ x, x ≠ p → (x ∈ w.free ↔ x ∈ v.free))
    (hnd : w.free.Nodup)
    (hreq : ∀ hot x, x ∈ w.requests hot → x ∈ v.requests hot ∨ x = p ∧ p < n ∧ P.va ≠ 0)
    (hva : (v.page p).va ≠ 0 → P.va ≠ 0)
    (hcur : ∀ dram c, w.cur dram = some c → w.list c = some (hotList dram)) : Inv n A w := by
  refine inv_of_agrees (fun x => ?_) hnd (fun hot x hx => ?_) hcur
  · rw [hlist, hpage]
    rcases eq_or_ne x p with rfl | hx
    · rw [update_self, update_self]
      exact hp
    · rw [update_of_ne hx, update_of_ne hx, hfree x hx]
      exact h.agrees x
  · rw [hpage]
    rcases hreq hot x hx with hx | ⟨rfl, hx, hne⟩
    · obtain ⟨hn, hne⟩ := h.request hot x hx
      rcases eq_or_ne x p with rfl | hxp
      · exact ⟨hn, by rw [update_self]; exact hva hne⟩
      · exact ⟨hn, by rw [update_of_ne hxp]; exact hne⟩
    · exact ⟨hx, by rw [update_self]; exact hne⟩

/-- A cursor that does not point at the page a step is about stands where it stood. -/
theorem Inv.cursors (h : Inv n A v) {l : Option ListId} (hlist : w.list = update v.list p l)
    (hc : ∀ dram, w.cur dram = v.cur dram ∧ v.cur dram ≠ some p) (dram : Bool) (c : PageId)
    (hw : w.cur dram = some c) : w.list c = some (hotList dram) := by
  obtain ⟨hsame, hne⟩ := hc dram
  rw [hsame] at hw
  have hcp : c ≠ p := fun hcp => hne (hcp ▸ hw)
  rw [hlist, update_of_ne hcp]
  exact h.cursor dram c hw

section Agrees

variable {q q' : ListId} {P P' : HememPage} {i j : Prop}

/-- Off the free lists, a page that is not present waits in the ring. -/
theorem Agrees.waits (h : Agrees n A p (some q) P i) (hk : q.kind ≠ .free)
    (hpr : P.present = false) : i := by
  rcases h.waiting (h.owned q rfl) hpr with hi | hq
  · exact hi
  · cases hq
    exact absurd (kind_freeList _) hk

/-- A page goes to a list of its tier. -/
theorem Agrees.relist (h : Agrees n A p (some q) P i) (hd : P'.inDram = q'.dram)
    (hf : q'.kind = .free → P'.present = false ∧ ¬ j) (hidle : P'.present = false → P'.hot = false)
    (hhot : A.hotFault ∨ (q'.kind = .hot → P'.present = true → P'.hot = true))
    (hcold : q'.kind = .cold → P'.hot = false) (hring : j → P'.present = false)
    (hwait : P'.present = false → j ∨ q' = freeList P'.inDram)
    (hal : P'.va % hugepageSize = 0) (hen : A.hint ∨ P'.enforced = false) :
    Agrees n A p (some q') P' j where
  owned _ _ := h.owned q rfl
  listed := .inr fun _ => by simp
  tier x hx := by
    cases hx
    exact hd
  free x hx hk := by
    cases hx
    exact (hf hk).1
  idle := hidle
  hotFlag := hhot.imp_right fun hh x hx => by
    cases hx
    exact hh
  coldFlag x hx := by
    cases hx
    exact hcold
  ring hj := ⟨.inl (h.owned q rfl), hring hj, fun x hx hk => by
    cases hx
    exact (hf hk).2 hj⟩
  waiting _ hpr := (hwait hpr).imp_right fun hq => by rw [hq]
  align := hal
  enforced := hen

theorem Agrees.dropped (h : Agrees n A p (some .dramCold) P i) (hs : A.skip) :
    Agrees n A p none P i where
  owned q hq := by cases hq
  listed := .inl hs
  tier q hq := by cases hq
  free q hq := by cases hq
  idle := h.idle
  hotFlag := .inr fun q hq => by cases hq
  coldFlag q hq := by cases hq
  ring hi := ⟨(h.ring hi).1, (h.ring hi).2.1, fun q hq => by cases hq⟩
  waiting _ hpr := .inl (h.waits (by decide) hpr)
  align := h.align
  enforced := h.enforced

end Agrees

theorem inv_initial (kernel : Kernel) : Inv cfg.pages A (View.initial cfg kernel) := by
  have hzero : (0 : UInt64) % hugepageSize = 0 := by decide
  constructor <;> simp only [View.initial, initPage]
  all_goals grind [ListId.kind, ListId.dram, Config.pages, freeList]

/-- Once the ring is drained, what is on a hot or a cold list is present. -/
theorem Inv.present (h : Inv n A v) (hf : v.free = []) {q : ListId} (hl : v.list p = some q)
    (hk : q.kind ≠ .free) : (v.page p).present = true := by
  by_contra hpr
  rcases h.waiting p (h.owned p q hl) (by simpa using hpr) with hw | hw
  · simp [hf] at hw
  · rw [hl] at hw
    cases hw
    exact hk (kind_freeList _)

/-- The parts of a view the invariant is about. -/
theorem Inv.congr (h : Inv n A v) (hlist : w.list = v.list) (hfree : w.free = v.free)
    (hreq : w.requests = v.requests) (hcur : w.cur = v.cur)
    (hin : ∀ x, (w.page x).inDram = (v.page x).inDram)
    (hpr : ∀ x, (w.page x).present = (v.page x).present) (hhot : ∀ x, (w.page x).hot = (v.page x).hot)
    (hva : ∀ x, (w.page x).va = (v.page x).va)
    (hen : ∀ x, (w.page x).enforced = (v.page x).enforced) : Inv n A w := by
  obtain ⟨h1, h2, h3, h4, h5, h6, h7, h8, h9, h10, h11, h12, h13, h14⟩ := h
  constructor <;> simp only [hlist, hfree, hreq, hcur, hin, hpr, hhot, hva, hen] <;> assumption

theorem Inv.at (h : Inv n A v) {q : ListId} (hl : v.list p = some q) :
    Agrees n A p (some q) (v.page p) (p ∈ v.free) := hl ▸ h.agrees p

/-- No cursor points at a page that is on no hot list. -/
theorem Inv.noCursor (h : Inv n A v) {q : ListId} (hl : v.list p = some q) (hk : q.kind ≠ .hot)
    (dram : Bool) : v.cur dram ≠ some p := fun hc => by
  have hq := h.cursor dram p hc
  rw [hl] at hq
  cases hq
  exact hk (kind_hotList dram)

section Moves

theorem Inv.drain (h : Inv n A v) {rest : List PageId} {q : ListId} (hf : v.free = p :: rest)
    (hl : v.list p = some q) (hc : v.NoCursor p) :
    Inv n A (({ v with free := rest } : View).put (freeList (v.page p).inDram) p) := by
  have hp := h.at hl
  have hpr : (v.page p).present = false := (hp.ring (by simp [hf])).2.1
  have hnd := h.nodup
  rw [hf, List.nodup_cons] at hnd
  refine h.step (P := v.page p) rfl (update_eq_self _ _).symm ?_ (fun x hx => ?_) hnd.2
    (fun _ _ => .inl) id (h.cursors rfl fun dram => ⟨rfl, hc dram⟩)
  · exact hp.relist (dram_freeList _).symm (fun _ => ⟨hpr, hnd.1⟩) hp.idle
      (.inr fun hk => by simp at hk) (fun hk => by simp at hk) (fun hj => absurd hj hnd.1)
      (fun _ => .inr rfl) hp.align hp.enforced
  · change x ∈ rest ↔ x ∈ v.free
    simp [hf, hx]

theorem Inv.stale (h : Inv n A v) {hot : Bool} {rest : List PageId}
    (hr : v.requests hot = p :: rest) : Inv n A (v.setRequests hot rest) := by
  refine inv_of_agrees h.agrees h.nodup (fun b x hx => h.request b x ?_) h.cursor
  rcases eq_or_ne b hot with rfl | hb
  · rw [View.setRequests_requests, update_self] at hx
    rw [hr]
    exact List.mem_cons_of_mem _ hx
  · rwa [View.setRequests_requests, update_of_ne hb] at hx

theorem Inv.serve (h : Inv n A v) {hot : Bool} {rest : List PageId}
    (hr : v.requests hot = p :: rest) (hp : (v.page p).present = true) (hc : v.NoCursor p)
    (hl : v.list p = some (usedList (v.page p).inDram (v.page p).hot)) :
    Inv n A (((v.setRequests hot rest).edit p ({ · with ringPresent := false, hot := hot })).put
      (usedList (v.page p).inDram hot) p) := by
  have hP := h.at hl
  refine h.step (P := { v.page p with ringPresent := false, hot := hot }) rfl rfl ?_
    (fun _ _ => Iff.rfl) h.nodup (fun b x hx => .inl ?_) id (h.cursors rfl fun dram => ⟨rfl, hc dram⟩)
  · refine hP.relist (dram_usedList _ _).symm (fun hk => ?_) (fun hpr => ?_) (.inr fun hk _ => ?_)
      (fun hk => ?_) (fun hj => (hP.ring hj).2.1) (fun hpr => ?_) hP.align hP.enforced
    · cases hot <;> simp at hk
    · exact absurd hpr (by simp [hp])
    · cases hot
      · simp at hk
      · rfl
    · cases hot
      · rfl
      · simp at hk
    · exact absurd hpr (by simp [hp])
  · change x ∈ update v.requests hot rest b at hx
    rcases eq_or_ne b hot with rfl | hb
    · rw [update_self] at hx
      rw [hr]
      exact List.mem_cons_of_mem _ hx
    · rwa [update_of_ne hb] at hx

theorem Inv.coolNvm (h : Inv n A v) (hl : v.list p = some .nvmHot) (hc : v.cur false ≠ some p) :
    Inv n A ((v.edit p ({ · with hot := false })).put .nvmCold p) := by
  have hP := h.at hl
  refine h.step (P := { v.page p with hot := false }) rfl rfl ?_ (fun _ _ => Iff.rfl) h.nodup
    (fun _ _ => .inl) id (h.cursors rfl fun dram => ⟨rfl, ?_⟩)
  · exact hP.relist (hP.tier .nvmHot rfl) (fun hk => by cases hk) (fun _ => rfl)
      (.inr fun hk => by cases hk) (fun _ => rfl) (fun hj => (hP.ring hj).2.1)
      (fun hpr => .inl (hP.waits (by decide) hpr)) hP.align hP.enforced
  · cases dram
    · exact hc
    · intro hd
      have hd := h.cursor true p hd
      rw [hl] at hd
      cases hd

/-- The first half of an exchange: the page takes the free page's frame. -/
theorem Inv.takeFrame (h : Inv n A v) {up : Bool} {o : UInt64}
    (hl : v.list p = some (if up then .nvmHot else .dramCold)) (hc : ∀ dram, v.cur dram ≠ some p)
    (hpr : up = true → (v.page p).present = true) :
    Inv n A (((v.edit p ({ · with devdaxOffset := o, inDram := up, migrating := false })).put
      (if up then .dramHot else .nvmCold) p)) := by
  have hP := h.at hl
  refine h.step (P := { v.page p with devdaxOffset := o, inDram := up, migrating := false }) rfl rfl
    ?_ (fun _ _ => Iff.rfl) h.nodup (fun _ _ => .inl) id (h.cursors rfl fun dram => ⟨rfl, hc dram⟩)
  cases up with
  | true =>
    have hpr := hpr rfl
    refine hP.relist rfl (fun hk => by cases hk) (fun hn => absurd hn (by simp [hpr]))
      (hP.hotFlag.imp_right fun hh _ => hh .nvmHot rfl rfl) (fun hk => by cases hk)
      (fun hj => (hP.ring hj).2.1) (fun hn => absurd hn (by simp [hpr])) hP.align hP.enforced
  | false =>
    exact hP.relist rfl (fun hk => by cases hk) (fun _ => hP.coldFlag _ rfl rfl)
      (.inr fun hk => by cases hk) (fun _ => hP.coldFlag _ rfl rfl) (fun hj => (hP.ring hj).2.1)
      (fun hn => .inl (hP.waits (by simp [ListId.kind]) hn)) hP.align hP.enforced

/-- The second half: the free page is left the page's own frame. -/
theorem Inv.leaveFrame (h : Inv n A v) (up : Bool) {o : UInt64} (hl : v.list p = some (freeList up)) :
    Inv n A ((v.edit p fun N => HememPage.clearCounters { N with
      devdaxOffset := o, inDram := !up, present := false, hot := false }).put (freeList !up) p) := by
  have hP := h.at hl
  refine h.step (P := HememPage.clearCounters { v.page p with
      devdaxOffset := o, inDram := !up, present := false, hot := false }) rfl rfl
    ?_ (fun _ _ => Iff.rfl) h.nodup (fun _ _ => .inl) id
    (h.cursors rfl fun dram => ⟨rfl, h.noCursor hl (by simp) dram⟩)
  exact hP.relist (dram_freeList _).symm
    (fun _ => ⟨rfl, fun hj => (hP.ring hj).2.2 _ rfl (kind_freeList _)⟩) (fun _ => rfl)
    (.inr fun hk => by simp at hk) (fun _ => rfl) (fun _ => rfl) (fun _ => .inr rfl) hP.align
    hP.enforced

theorem Inv.exchange (h : Inv n A v) (up : Bool) {np : PageId}
    (hl : v.list p = some (if up then .nvmHot else .dramCold)) (hc : ∀ dram, v.cur dram ≠ some p)
    (hpr : up = true → (v.page p).present = true) (hn : v.list np = some (freeList up)) :
    Inv n A (v.exchange up p np) := by
  have hne : np ≠ p := fun hnp => by
    rw [hnp, hl] at hn
    cases up <;> cases hn
  have h1 := h.takeFrame (o := (v.page np).devdaxOffset) hl hc hpr
  have h2 := h1.leaveFrame (p := np) up (o := (v.page p).devdaxOffset)
    (by simp [View.put, View.edit, hne, hn])
  exact h2.congr rfl rfl rfl rfl (fun x => rfl) (fun x => rfl) (fun x => rfl) (fun x => rfl)
    fun x => rfl

theorem Inv.skip (h : Inv n A v) {l : PageId → Option ListId} (hs : A.skip)
    (hl : ∀ x, l x = v.list x ∨
      l x = none ∧ v.list x = some .dramCold ∧ (v.page x).enforced = true) :
    Inv n A { v with list := l } := by
  refine inv_of_agrees (fun x => ?_) h.nodup h.request fun dram c hc => ?_
  · rcases hl x with hx | ⟨hx, hd, -⟩
    · change Agrees n A x (l x) (v.page x) (x ∈ v.free)
      exact hx ▸ h.agrees x
    · change Agrees n A x (l x) (v.page x) (x ∈ v.free)
      exact hx ▸ (h.at hd).dropped hs
  · have hlist := h.cursor dram c hc
    rcases hl c with hx | ⟨-, hd, -⟩
    · exact hx.trans hlist
    · rw [hd] at hlist
      cases dram <;> cases hlist

theorem Inv.cool (h : Inv n A v) {dram hot : Bool} {c : Option PageId}
    (hl : v.list p = some (hotList dram)) (ht : (v.page p).inDram = dram)
    (hh : hot = true → (v.page p).hot = true)
    (hc : ∀ x, c = some x → v.list x = some (hotList dram) ∧ (x = p → hot = true)) :
    Inv n A (((v.edit p ({ · with hot := hot })).put (usedList dram hot) p).setCur dram c) := by
  have hP := h.at hl
  refine h.step (P := { v.page p with hot := hot }) rfl rfl ?_ (fun _ _ => Iff.rfl) h.nodup
    (fun _ _ => .inl) id fun dram' x hx => ?_
  · refine hP.relist (ht.trans (dram_usedList _ _).symm) (fun hk => ?_) (fun hpr => ?_)
      (.inr fun hk _ => ?_) (fun hk => ?_) (fun hj => (hP.ring hj).2.1)
      (fun hpr => .inl (hP.waits (by simp [kind_hotList]) hpr)) hP.align hP.enforced
    · cases hot <;> simp at hk
    · cases hot
      · rfl
      · have hidle := hP.idle hpr
        rw [hh rfl] at hidle
        cases hidle
    · cases hot
      · simp at hk
      · rfl
    · cases hot
      · rfl
      · simp at hk
  · change update v.list p (some (usedList dram hot)) x = _
    change update v.cur dram c dram' = some x at hx
    rcases eq_or_ne dram' dram with rfl | hd
    · rw [update_self] at hx
      obtain ⟨hlx, hxp⟩ := hc x hx
      rcases eq_or_ne x p with rfl | hne
      · rw [update_self, hxp rfl]
        rfl
      · rw [update_of_ne hne, hlx]
    · rw [update_of_ne hd] at hx
      have hlx := h.cursor dram' x hx
      have hne : x ≠ p := fun hxp => by
        rw [hxp, hl] at hlx
        cases dram <;> cases dram' <;> first | exact hd rfl | cases hlx
      rw [update_of_ne hne, hlx]

end Moves

theorem Inv.move (h : Inv n A v) (hm : Move A v w) : Inv n A w := by
  cases hm with
  | cursor c hc =>
    exact inv_of_agrees h.agrees h.nodup h.request fun dram x hx =>
      (hc dram x hx).elim (h.cursor dram x) id
  | drain hf hl hc => exact h.drain hf hl hc
  | stale hot hd hr hp => exact h.stale hr
  | serve hot hr hp hc hl => exact h.serve hr hp hc hl
  | coolNvm hl hc => exact h.coolNvm hl hc
  | promote hf hl hc hn he hp =>
    refine h.exchange true hl (fun dram hd => ?_) (fun _ => h.present hf hl (by decide)) hn
    cases dram
    · exact hc hd
    · have hd := h.cursor true _ hd
      rw [hl] at hd
      cases hd
  | demote hf hl hn he =>
    exact h.exchange false hl (h.noCursor hl (by decide)) (fun hup => by cases hup) hn
  | skip l hs hl => exact h.skip hs hl
  | cool dram hot c hl ht hh hc => exact h.cool hl ht hh hc

theorem inv_kept : Kept cfg A (Inv cfg.pages A) where
  move h hm := h.move hm
  alloc := fun {v p dram q e} h hf hq he => by
    have hP := h.at hf.list
    have hhot : (v.page p).hot = false := hP.idle hf.present
    have hd : q.dram = dram := by
      rcases hq with rfl | ⟨rfl, rfl, -⟩
      · cases dram <;> rfl
      · rfl
    have hk : q.kind ≠ .free := by
      rcases hq with rfl | ⟨rfl, -⟩
      · cases dram <;> decide
      · decide
    refine h.step (P := { v.page p with present := true, enforced := e }) rfl rfl ?_
      (fun _ _ => Iff.rfl) h.nodup (fun _ _ => .inl) id
      (h.cursors rfl fun dram => ⟨rfl, h.noCursor hf.list (by simp) dram⟩)
    refine hP.relist (hf.inDram.trans hd.symm) (fun hn => absurd hn hk) (fun hn => by cases hn) ?_
      (fun _ => hhot) (fun hj => absurd (kind_freeList _) ((hP.ring hj).2.2 _ rfl))
      (fun hn => by cases hn) hP.align ?_
    · rcases hq with rfl | ⟨-, -, ha⟩
      · exact .inr fun hn => by cases dram <;> cases hn
      · exact .inl ha
    · rcases he with he | he
      · exact .inl he
      · exact hP.enforced.imp_right fun hn => he.trans hn
  priority h := inv_of_agrees h.agrees h.nodup h.request h.cursor
  assign := fun {v p va} h hp hva hal => by
    have hP := h.agrees p
    refine h.step (l := v.list p) (P := { v.page p with va := va }) (update_eq_self _ _).symm rfl ?_
      (fun _ _ => Iff.rfl) h.nodup (fun _ _ => .inl) (fun _ => hva) h.cursor
    exact ⟨hP.owned, hP.listed, hP.tier, hP.free, hP.idle, hP.hotFlag, hP.coldFlag, hP.ring,
      hP.waiting, hal, hP.enforced⟩
  remove := fun {v p} h hp hpr => by
    have hP := h.agrees p
    have hnot : p ∉ v.free := fun hm => by
      have hn := (hP.ring hm).2.1
      rw [hpr] at hn
      cases hn
    refine h.step (l := v.list p) (P := HememPage.clearCounters { v.page p with
        present := false, hot := false }) (update_eq_self _ _).symm rfl ?_ (fun x hx => ?_) ?_
      (fun _ _ => .inl) id h.cursor
    · refine ⟨hP.owned, hP.listed, hP.tier, fun _ _ _ => rfl, fun _ => rfl,
        .inr (fun _ _ _ hn => by cases hn), fun _ _ _ => rfl,
        fun _ => ⟨.inl hp, rfl, fun q hq hk => ?_⟩, fun _ _ => .inl ?_, hP.align, hP.enforced⟩
      · have hn := hP.free q hq hk
        rw [hpr] at hn
        cases hn
      · change p ∈ v.free ++ [p]
        simp
    · change x ∈ v.free ++ [p] ↔ x ∈ v.free
      simp [hx]
    · change (v.free ++ [p]).Nodup
      exact List.nodup_append'.2 ⟨h.nodup, List.nodup_singleton p, by simpa using hnot⟩
  sample := fun {v w p} h hp hs => by
    rcases hs with rfl | ⟨hva, hot, l, c, r, a, t, hl, rfl⟩
    · exact h
    have hP := h.agrees p
    refine h.step (l := v.list p) (P := { v.page p with
        localClock := c, ringPresent := r, accesses := a, totAccesses := t })
      (update_eq_self _ _).symm rfl ?_ (fun _ _ => Iff.rfl) h.nodup (fun b x hx => ?_) id h.cursor
    · exact ⟨hP.owned, hP.listed, hP.tier, hP.free, hP.idle, hP.hotFlag, hP.coldFlag, hP.ring,
        hP.waiting, hP.align, hP.enforced⟩
    · change x ∈ update v.requests hot l b at hx
      rcases eq_or_ne b hot with rfl | hb
      · rw [update_self] at hx
        rcases List.mem_append.1 (hl hx) with hx | hx
        · exact .inl hx
        · exact .inr ⟨List.mem_singleton.1 hx, hp, hva⟩
      · rw [update_of_ne hb] at hx
        exact .inl hx

end HeMem

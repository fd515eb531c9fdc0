import HeMem.FlexKvs.References
import HeMem.FlexKvs.Proofs.Hashtable
import Mathlib.Data.List.Perm.Basic

/-!
# Reference counts add up

`Counted L o` says that the table's lists are `L` and that `o x` counts the references to `x` beside
the table's.  Each of the calls moves one reference from or to `o`.
-/

namespace FlexKvs

open Function

section Counts

variable {c : UInt16}

theorem toNat_succ (h : c ≠ 65535) : (c + 1).toNat = c.toNat + 1 := by
  have hne : c.toNat ≠ 65535 := fun he => h (UInt16.toNat_inj.1 he)
  have hlt := c.toNat_lt
  rw [UInt16.toNat_add]
  simp only [UInt16.reduceToNat]
  omega

theorem ne_zero_iff : c ≠ 0 ↔ c.toNat ≠ 0 := by
  rw [ne_eq, ← UInt16.toNat_inj]
  rfl

theorem toNat_pred (h : c ≠ 0) : (c - 1).toNat = c.toNat - 1 := by
  rw [UInt16.toNat_sub_of_le]
  · rfl
  · rw [UInt16.le_iff_toNat_le]
    exact Nat.one_le_iff_ne_zero.2 (ne_zero_iff.1 h)

theorem eq_one_iff : c = 1 ↔ c.toNat = 1 := UInt16.toNat_inj.symm

end Counts

namespace Hasht

open scoped Classical in
structure Counted (nbuckets : ℕ) (s : Hasht) (L : ℕ → Fin 5 → List ℕ) (o : ℕ → ℕ) : Prop where
  wf : Wf nbuckets s L
  refs : ∀ x, (s.item x).refcount.toNat = (if On L x then 1 else 0) + o x
  mem : ∀ x, x ∈ s.live ↔ (s.item x).refcount ≠ 0
  nodup : s.live.Nodup

/-- One more at `x`. -/
def more (o : ℕ → ℕ) (x : ℕ) : ℕ → ℕ := fun y => o y + if y = x then 1 else 0

variable {nbuckets : ℕ} {s t : Hasht} {L : ℕ → Fin 5 → List ℕ} {o : ℕ → ℕ} {x nit : ℕ}
  {hv : UInt32} {key value : List UInt8} {room : ℕ} {cas : Option ℕ}

theorem counted_empty : Counted nbuckets {} (fun _ _ => []) fun _ => 0 := by
  have hno : ∀ {x}, ¬ On (fun _ _ => []) x := fun ⟨_, _, hx⟩ => nomatch hx
  refine ⟨?_, fun x => ?_, fun x => ?_, .nil⟩
  · exact ⟨fun _ _ => rfl, fun _ _ _ => Nat.zero_le _, fun _ _ => .nil, nofun, nofun, nofun,
      fun hx => (hno hx).elim, fun hx => (hno hx).elim⟩
  · rw [if_neg hno]
    rfl
  · simp

namespace Counted

theorem live (h : Counted nbuckets s L o) (ho : o x ≠ 0) : x ∈ s.live := by
  rw [h.mem]
  intro h0
  have hr := h.refs x
  rw [h0] at hr
  change 0 = _ at hr
  omega

theorem off (h : Counted nbuckets s L o) (hx : x ∉ s.live) : ¬ On L x ∧ o x = 0 := by
  have h0 : (s.item x).refcount = 0 := not_not.1 fun hn => hx ((h.mem x).2 hn)
  have hr := h.refs x
  rw [h0] at hr
  change 0 = _ at hr
  constructor
  · intro hon
    rw [if_pos hon] at hr
    omega
  · omega

theorem itemRef (h : Counted nbuckets s L o) (hx : x ∈ s.live)
    (hc : (s.item x).refcount ≠ 65535) : Counted nbuckets (s.itemRef x) L (more o x) where
  wf := h.wf.congr rfl (fun y _ => ⟨congrFun itemRef_nextOf y, itemRef_same.1, itemRef_same.2.1⟩)
    fun y hy => h.wf.live hy
  refs y := by
    rw [itemRef_refcount]
    unfold more
    by_cases hy : y = x
    · subst hy
      rw [if_pos rfl, if_pos rfl, toNat_succ hc, h.refs y, Nat.add_assoc]
    · rw [if_neg hy, if_neg hy]
      exact h.refs y
  mem y := by
    change y ∈ s.live ↔ _
    rw [itemRef_refcount, h.mem]
    by_cases hy : y = x
    · subst hy
      rw [if_pos rfl]
      exact iff_of_true ((h.mem y).1 hx) (ne_zero_iff.2 (by rw [toNat_succ hc]; omega))
    · rw [if_neg hy]
  nodup := h.nodup

theorem unref (h : Counted nbuckets s L (more o x)) :
    s.itemUnref x = .ok (s.unref x) ∧ Counted nbuckets (s.unref x) L o := by
  have hpos : (s.item x).refcount ≠ 0 := (h.mem x).1 (h.live (by simp [more]))
  have hrx := h.refs x
  simp only [more, if_true] at hrx
  refine ⟨itemUnref_eq hpos, h.wf.congr rfl (fun y _ => ⟨congrFun unref_nextOf y, same_unref.1,
    same_unref.2.1⟩) fun y hy => ?_, fun y => ?_, fun y => ?_, ?_⟩
  · have hl := h.wf.live hy
    unfold Hasht.unref
    dsimp only
    split
    · rename_i h1
      refine (List.mem_erase_of_ne ?_).2 hl
      rintro rfl
      rw [eq_one_iff.1 h1, if_pos hy] at hrx
      omega
    · exact hl
  · rw [unref_refcount]
    by_cases hy : y = x
    · subst hy
      rw [if_pos rfl, toNat_pred hpos]
      omega
    · have := h.refs y
      simp only [more, if_neg hy] at this
      rw [if_neg hy]
      exact this
  · rw [unref_refcount]
    unfold Hasht.unref
    dsimp only
    by_cases hy : y = x
    · subst hy
      rw [if_pos rfl]
      split
      · rename_i h1
        rw [h1]
        exact iff_of_false (h.nodup.not_mem_erase) (by decide)
      · rename_i h1
        refine iff_of_true ((h.mem y).2 hpos) (ne_zero_iff.2 ?_)
        rw [toNat_pred hpos]
        rw [eq_one_iff] at h1
        omega
    · rw [if_neg hy]
      split
      · rw [List.mem_erase_of_ne hy]
        exact h.mem y
      · exact h.mem y
  · unfold Hasht.unref
    dsimp only
    split
    · exact h.nodup.erase x
    · exact h.nodup

theorem fill (h : Counted nbuckets s L o)
    (hx : On L x → (s.item x).hv = hv ∧ (s.item x).key = key) :
    Counted nbuckets (s.fill x hv key value) L o := by
  have href : ∀ y, ((s.fill x hv key value).item y).refcount = (s.item y).refcount := fun y => by
    by_cases hy : y = x
    · subst hy
      simp [Hasht.fill]
    · simp [Hasht.fill, hy]
  refine ⟨h.wf.congr rfl (fun y hy => ?_) fun y hy => h.wf.live hy, fun y => ?_, fun y => ?_, h.nodup⟩
  · by_cases hyx : y = x
    · subst hyx
      simp [Hasht.fill, hx hy]
    · simp [Hasht.fill, hyx]
  · rw [href]
    exact h.refs y
  · rw [href]
    exact h.mem y

theorem allocated (h : Counted nbuckets s L o) (hx : x ∉ s.live) :
    Counted nbuckets (s.allocated x room) L (more o x) := by
  obtain ⟨hon, ho⟩ := h.off hx
  refine ⟨h.wf.congr rfl (fun y hy => ?_) fun y hy => List.mem_cons_of_mem _ (h.wf.live hy),
    fun y => ?_, fun y => ?_, List.nodup_cons.2 ⟨hx, h.nodup⟩⟩
  · have hyx : y ≠ x := fun hyx => hon (hyx ▸ hy)
    simp [Hasht.allocated, hyx]
  · unfold more
    by_cases hy : y = x
    · subst hy
      simp [Hasht.allocated, hon, ho]
    · have := h.refs y
      simpa [Hasht.allocated, hy] using this
  · by_cases hy : y = x
    · subst hy
      simp [Hasht.allocated]
    · simpa [Hasht.allocated, hy] using h.mem y

open scoped Classical in
theorem hashtPut (h : Counted nbuckets s L o) (hnit : ¬ On L nit) (ho : o nit ≠ 0)
    (hc : (s.item nit).refcount ≠ 65535) (cas : Option ℕ) :
    ∃ t L', s.hashtPut nbuckets nit cas = .ok t ∧ Counted nbuckets t L' o ∧
      (∀ y, (t.item y).Same (s.item y)) ∧
      (L' = L ∧ cas ≠ none ∨
        (cas = none ∨ s.find (s.item nit).key (s.item nit).hv nbuckets = .ok cas) ∧
          ∀ y, On L' y ↔ y = nit ∨ On L y ∧
            s.find (s.item nit).key (s.item nit).hv nbuckets ≠ .ok (some y)) := by
  obtain ⟨old, hold, hfind⟩ := h.wf.find_spec (s.item nit).key (s.item nit).hv
  have hrefold : ∀ x, old = some x → (s.item x).refcount ≠ 0 := fun x hx =>
    (h.mem x).1 (h.wf.live ((hfind x).1 hx).1)
  obtain ⟨t, L', he, hw, hcase⟩ := h.wf.hashtPut_spec hnit (h.live ho) hold hrefold cas
  refine ⟨t, L', he, ?_⟩
  rcases hcase with ⟨rfl, rfl, hne⟩ | ⟨hcas, hrep, hon⟩
  · exact ⟨h, fun y => ⟨rfl, rfl, rfl, rfl⟩, .inl ⟨rfl, hne⟩⟩
  refine ⟨?_, hrep.same, .inr ⟨hcas.imp_right fun h => by rw [h, hold], fun y => by
    rw [hon, hold]; simp⟩⟩
  have hnold : ∀ {x}, old = some x → nit ≠ x := fun hx he => hnit (he ▸ ((hfind _).1 hx).1)
  have hnat : ∀ y, (t.item y).refcount.toNat = if y = nit then o y + 1 else o y +
      if On L y ∧ old ≠ some y then 1 else 0 := fun y => by
    rw [hrep.refs]
    have hr := h.refs y
    by_cases hy : y = nit
    · subst hy
      rw [if_pos rfl, if_pos rfl, toNat_succ hc, hr, if_neg hnit, Nat.zero_add]
    · rw [if_neg hy, if_neg hy]
      by_cases hold' : old = some y
      · rw [if_pos hold', toNat_pred (hrefold y hold'), hr, if_pos ((hfind y).1 hold').1,
          if_neg fun h => h.2 hold']
        omega
      · rw [if_neg hold', hr, Nat.add_comm]
        simp only [hold', ne_eq, not_false_eq_true, and_true]
  refine ⟨hw, fun y => ?_, fun y => ?_, ?_⟩
  · rw [hnat, hon]
    by_cases hy : y = nit
    · rw [if_pos hy, if_pos (.inl hy), Nat.add_comm]
    · simp only [hy, if_false, false_or]
      rw [Nat.add_comm]
  · rw [ne_zero_iff, hnat, hrep.live]
    by_cases hy : y = nit
    · rw [if_pos hy]
      refine iff_of_true ?_ (by omega)
      subst hy
      rcases old with _ | x
      · exact h.live ho
      · dsimp only
        split
        · exact (List.mem_erase_of_ne (hnold rfl)).2 (h.live ho)
        · exact h.live ho
    · rw [if_neg hy]
      have hm := (h.mem y).trans (ne_zero_iff.trans (by rw [h.refs y]))
      rcases old with _ | x
      · rw [hm]
        simp [Nat.add_comm]
      · dsimp only
        have hx := ((hfind x).1 rfl).1
        by_cases hyx : y = x
        · subst hyx
          have hr := h.refs y
          rw [if_pos hx] at hr
          have hno : ¬ (On L y ∧ some y ≠ some y) := fun h => h.2 rfl
          rw [if_neg hno, Nat.add_zero]
          split
          · rename_i h1
            rw [eq_one_iff.1 h1] at hr
            exact iff_of_false h.nodup.not_mem_erase (by omega)
          · rename_i h1
            rw [eq_one_iff] at h1
            exact iff_of_true (h.wf.live hx) (by omega)
        · have hne : some x ≠ some y := fun he => hyx (Option.some.inj he).symm
          simp only [hne, ne_eq, not_false_eq_true, and_true]
          rw [Nat.add_comm]
          refine Iff.trans ?_ hm
          split
          · exact List.mem_erase_of_ne hyx
          · rfl
  · rw [hrep.live]
    rcases old with _ | x
    · exact h.nodup
    · dsimp only
      split
      · exact h.nodup.erase x
      · exact h.nodup

end Counted

section Requests

variable {jenkinsHash : List UInt8 → UInt32} {c : Conn} {r : Request} {a : Answer} {t : Hasht}
  {c' : Conn} {fresh : Option ℕ}

/-- The reference of a connection, if any. -/
def held (c : Conn) (o : ℕ → ℕ) : ℕ → ℕ := fun x => o x + if c.holds x then 1 else 0

theorem held_of_not (h : ∀ x, c.holds x = false) : held c o = o := by
  funext x
  simp [held, h]

theorem held_of_it (h : ∀ y, c.holds y = decide (y = x)) : held c o = more o x := by
  funext y
  simp [held, more, h]

theorem Counted.hashtGet (h : Counted nbuckets s L o)
    (hc : ∀ x ∈ s.live, (s.item x).refcount ≠ 65535) (key : List UInt8) (hv : UInt32) :
    s.find key hv nbuckets = .ok none ∧ s.hashtGet key hv nbuckets = .ok (none, s) ∨
    ∃ x, s.find key hv nbuckets = .ok (some x) ∧ On L x ∧ s.Matches key hv x ∧
      s.hashtGet key hv nbuckets = .ok (some x, s.itemRef x) ∧
      Counted nbuckets (s.itemRef x) L (more o x) := by
  obtain ⟨r, hr, hfind⟩ := h.wf.find_spec key hv
  unfold Hasht.hashtGet
  rcases r with _ | x
  · rw [hr]
    exact .inl ⟨rfl, rfl⟩
  · obtain ⟨hx, hm⟩ := (hfind x).1 rfl
    rw [hr]
    have hl := h.wf.live hx
    exact .inr ⟨x, rfl, hx, hm, rfl, h.itemRef hl (hc x hl)⟩

theorem finish_holds (n : ℕ) : held (c.finish n) o = o :=
  held_of_not fun _ => by simp [Conn.holds, Conn.finish]

/-- A request is still there, or has been dealt with. -/
def Follows (c c' : Conn) : Prop :=
  c'.request = c.request ∧ c'.reqDone = true ∨ c'.request = none ∧ c'.reqDone = false

/-- GET, once the item has been looked up. -/
theorem Counted.answerGet (h : Counted nbuckets s L (held c o)) (hd : c.reqDone = true)
    (hr : c.request = some r) (hop : r.opcode = cmdGet) :
    ∃ a t c', s.processGet jenkinsHash nbuckets c r = .ok (a, t, c') ∧ a ≠ .closed ∧ Follows c c' ∧
      Counted nbuckets t L (held c' o) := by
  unfold Hasht.processGet
  simp only [hd, if_true, pure_bind]
  rcases hit : c.it with _ | x
  · dsimp only
    split
    · exact ⟨_, _, _, rfl, nofun, .inl ⟨rfl, hd⟩, h⟩
    · rw [held_of_not fun x => by simp [Conn.holds, hit]] at h
      exact ⟨_, _, _, rfl, nofun, .inr ⟨rfl, rfl⟩, by rwa [finish_holds]⟩
  · dsimp only
    split
    · exact ⟨_, _, _, rfl, nofun, .inl ⟨rfl, hd⟩, h⟩
    · have hx : ∀ y, c.holds y = decide (y = x) := fun y => by
        simp [Conn.holds, hd, hit, hr, hop, @eq_comm _ x y]
      rw [held_of_it hx] at h
      obtain ⟨hu, hcu⟩ := h.unref
      rw [hu]
      exact ⟨_, _, _, rfl, nofun, .inr ⟨rfl, rfl⟩, by rwa [finish_holds]⟩

/-- After the lookup, the rest is as with `req_done`. -/
theorem processGet_lookup (hd : c.reqDone = false) {it : Option ℕ} {u : Hasht}
    (hg : s.hashtGet r.lookupKey (jenkinsHash r.lookupKey) nbuckets = .ok (it, u)) :
    s.processGet jenkinsHash nbuckets c r =
      u.processGet jenkinsHash nbuckets { c with it, reqDone := true } r := by
  unfold processGet
  rw [hd, hg]
  rfl

theorem Counted.processGet (h : Counted nbuckets s L (held c o))
    (hc : ∀ x ∈ s.live, (s.item x).refcount ≠ 65535)
    (hr : c.request = some r) (hop : r.opcode = cmdGet) :
    ∃ a t c', s.processGet jenkinsHash nbuckets c r = .ok (a, t, c') ∧ a ≠ .closed ∧ Follows c c' ∧
      Counted nbuckets t L (held c' o) := by
  by_cases hd : c.reqDone = true
  · exact h.answerGet hd hr hop
  rw [Bool.not_eq_true] at hd
  rw [held_of_not fun x => by simp [Conn.holds, hd]] at h
  rcases h.hashtGet hc r.lookupKey (jenkinsHash r.lookupKey) with ⟨-, hg⟩ | ⟨x, -, -, -, hg, hx⟩
  · rw [processGet_lookup hd hg]
    refine Counted.answerGet ?_ rfl hr hop
    rwa [held_of_not fun x => by simp [Conn.holds]]
  · rw [processGet_lookup hd hg]
    refine Counted.answerGet ?_ rfl hr hop
    have hx' : ∀ y, Conn.holds { c with it := some x, reqDone := true } y = decide (y = x) :=
      fun y => by simp [Conn.holds, hr, hop, @eq_comm _ x y]
    rwa [held_of_it hx']

theorem ok_bind {α β : Type} (a : α) (f : α → Except Fault β) : (Except.ok a >>= f) = f a := rfl

theorem set_holds (hr : c.request = some r) (hop : r.opcode = cmdSet) : held c o = o :=
  held_of_not fun x => by simp [Conn.holds, hr, hop, cmdSet, cmdGet]

/-- The end of a SET. -/
theorem answerSet (hr : c.request = some r) (hop : r.opcode = cmdSet) (hd : c.reqDone = true) :
    ∃ a c', s.processSet jenkinsHash nbuckets c r fresh = .ok (a, s, c') ∧ a ≠ .closed ∧ Follows c c' ∧
      ∀ o, held c' o = o := by
  unfold processSet
  simp only [hd, if_true, pure_bind]
  split
  · exact ⟨_, _, rfl, nofun, .inl ⟨rfl, hd⟩, fun o => set_holds hr hop⟩
  · exact ⟨_, _, rfl, nofun, .inr ⟨rfl, rfl⟩, fun o => finish_holds _⟩

/-- An item is allocated, put in the table, and let go of. -/
theorem Counted.insert (h : Counted nbuckets s L o) (hx : x ∉ s.live) (room : ℕ) (hv : UInt32)
    (key value : List UInt8) (cas : Option ℕ) :
    ∃ t L', ((s.allocated x room).fill x hv key value).hashtPut nbuckets x cas = .ok t ∧
      t.itemUnref x = .ok (t.unref x) ∧ Counted nbuckets (t.unref x) L' o ∧
      (∀ y, ((t.unref x).item y).Same (((s.allocated x room).fill x hv key value).item y)) ∧
      (cas = none → s.find key hv nbuckets = .ok none → ∀ y, On L' y ↔ y = x ∨ On L y) := by
  have hon := (h.off hx).1
  have ha : Counted nbuckets ((s.allocated x room).fill x hv key value) L (more o x) :=
    (h.allocated hx).fill fun hox => absurd hox hon
  obtain ⟨t, L', he, ht, hsame, hon'⟩ := ha.hashtPut hon (by simp [more])
    (by simp [Hasht.fill, Hasht.allocated]) cas
  obtain ⟨hu, hcu⟩ := ht.unref
  refine ⟨t, L', he, hu, hcu, fun y => same_unref.trans (hsame y), fun hcas hnone y => ?_⟩
  rw [(hon'.resolve_left fun h => h.2 hcas).2]
  refine or_congr_right (and_iff_left_of_imp fun hy hf => ?_)
  obtain ⟨r, hr, hfind⟩ := h.wf.find_spec key hv
  obtain ⟨r', hr', hfind'⟩ := ha.wf.find_spec key hv
  have hkey : (((s.allocated x room).fill x hv key value).item x).key = key := by
    simp [Hasht.fill]
  have hhv : (((s.allocated x room).fill x hv key value).item x).hv = hv := by
    simp [Hasht.fill]
  rw [hkey, hhv, hr'] at hf
  have hm := ((hfind' y).1 (Except.ok.inj hf)).2
  have hyx : y ≠ x := fun hyx => hon (hyx ▸ hy)
  have hms : s.Matches key hv y := by
    simpa [Matches, Hasht.fill, Hasht.allocated, hyx] using hm
  rw [Except.ok.inj (hr.symm.trans hnone)] at hfind
  cases (hfind y).2 ⟨hy, hms⟩

theorem processSet_new (hd : c.reqDone = false) {u : Hasht}
    (hg : s.hashtGet r.setKey (jenkinsHash r.setKey) nbuckets = .ok (none, s))
    (hp : ((s.allocated x (r.keylen + r.vl)).fill x (jenkinsHash r.setKey) r.setKey
      r.setValue).hashtPut nbuckets x none = .ok t) (hu : t.itemUnref x = .ok u) :
    s.processSet jenkinsHash nbuckets c r (some x) =
      u.processSet jenkinsHash nbuckets { c with it := some x, reqDone := true } r (some x) := by
  unfold processSet
  simp only [hd, Bool.false_eq_true, if_false, if_true, hg, ok_bind, hp, hu, pure_bind]

theorem processSet_found (hd : c.reqDone = false) {u v : Hasht}
    (hg : s.hashtGet r.setKey (jenkinsHash r.setKey) nbuckets = .ok (some x, t))
    (hw : t.rewrite x (jenkinsHash r.setKey) r.setKey r.setValue = .ok u)
    (hu : u.itemUnref x = .ok v) :
    s.processSet jenkinsHash nbuckets c r fresh =
      v.processSet jenkinsHash nbuckets { c with it := some x, reqDone := true } r fresh := by
  unfold processSet
  simp only [hd, Bool.false_eq_true, if_false, if_true, hg, ok_bind, hw, hu, pure_bind]

/-- A stored item is found, written and let go of. -/
theorem Counted.overwrite (h : Counted nbuckets s L o) (hx : On L x) (hm : s.Matches key hv x)
    (hc : (s.item x).refcount ≠ 65535) (hr : key.length + value.length ≤ (s.item x).room) :
    (s.itemRef x).rewrite x hv key value = .ok ((s.itemRef x).fill x hv key value) ∧
      ((s.itemRef x).fill x hv key value).itemUnref x =
        .ok (((s.itemRef x).fill x hv key value).unref x) ∧
      Counted nbuckets (((s.itemRef x).fill x hv key value).unref x) L o := by
  have hfilled : Counted nbuckets ((s.itemRef x).fill x hv key value) L (more o x) :=
    (h.itemRef (h.wf.live hx) hc).fill fun _ =>
      ⟨itemRef_same.1.trans hm.1, itemRef_same.2.1.trans hm.2⟩
  refine ⟨if_pos ?_, hfilled.unref⟩
  rw [itemRef_same.2.2.2]
  exact hr

theorem Counted.processSet (h : Counted nbuckets s L (held c o))
    (hc : ∀ x ∈ s.live, (s.item x).refcount ≠ 65535)
    (hr : c.request = some r) (hop : r.opcode = cmdSet) (hf : ∀ x ∈ fresh, x ∉ s.live)
    (hroom : c.reqDone = false → ∀ x,
      s.find r.setKey (jenkinsHash r.setKey) nbuckets = .ok (some x) →
        r.setKey.length + r.setValue.length ≤ (s.item x).room) :
    s.processSet jenkinsHash nbuckets c r fresh = .error .abort ∨
    ∃ a t c' L', s.processSet jenkinsHash nbuckets c r fresh = .ok (a, t, c') ∧ a ≠ .closed ∧ Follows c c' ∧
      Counted nbuckets t L' (held c' o) := by
  rw [set_holds hr hop] at h
  by_cases hd : c.reqDone = true
  · obtain ⟨a, c', he, ha, hfo, hh⟩ := answerSet (s := s) hr hop hd
    exact .inr ⟨a, s, c', L, he, ha, hfo, by rwa [hh]⟩
  rw [Bool.not_eq_true] at hd
  have hrest : ∀ x u L', Counted nbuckets u L' o →
      s.processSet jenkinsHash nbuckets c r fresh =
        u.processSet jenkinsHash nbuckets { c with it := some x, reqDone := true } r fresh →
      ∃ a t c' L', s.processSet jenkinsHash nbuckets c r fresh = .ok (a, t, c') ∧ a ≠ .closed ∧ Follows c c' ∧
        Counted nbuckets t L' (held c' o) := by
    intro x u L' hu he
    obtain ⟨a, c', he', ha, hfo, hh⟩ :=
      answerSet (c := { c with it := some x, reqDone := true }) (s := u) hr hop rfl
    exact ⟨a, u, c', L', he.trans he', ha, hfo, by rwa [hh]⟩
  rcases h.hashtGet hc r.setKey (jenkinsHash r.setKey) with ⟨-, hg⟩ | ⟨x, hfind, hx, hm, hg, -⟩
  · rcases fresh with _ | x
    · refine .inl ?_
      unfold Hasht.processSet
      simp only [hd, Bool.false_eq_true, if_false, hg, ok_bind]
      rfl
    · obtain ⟨t, L', hp, hu, ht, -⟩ := h.insert (hf x rfl) (r.keylen + r.vl) (jenkinsHash r.setKey)
        r.setKey r.setValue none
      exact .inr (hrest x _ L' ht (processSet_new hd hg hp hu))
  · obtain ⟨hw, hu, ht⟩ := h.overwrite hx hm (hc x (h.wf.live hx)) (hroom hd x hfind)
    exact .inr (hrest x _ L ht (processSet_found hd hg hw hu))

theorem Counted.cleanItem (h : Counted nbuckets s L (more o x)) (hf : ∀ x ∈ fresh, x ∉ s.live) :
    s.cleanItem nbuckets x fresh = .error .abort ∨
    ∃ t L', s.cleanItem nbuckets x fresh = .ok t ∧ Counted nbuckets t L' o := by
  unfold Hasht.cleanItem
  by_cases hone : (s.item x).refcount ≠ 1
  · rcases fresh with _ | nit
    · refine .inl ?_
      simp only [hone, ne_eq, not_false_eq_true, if_true]
      rfl
    · obtain ⟨t, L', hp, hu, ht, -⟩ := h.insert (hf nit rfl) (s.item x).bytes (s.item x).hv
        (s.item x).key (s.item x).value (some x)
      obtain ⟨hu', ht'⟩ := ht.unref
      refine .inr ⟨_, L', ?_, ht'⟩
      simp only [hone, ne_eq, not_false_eq_true, if_true, hp, hu, ok_bind, hu']
  · obtain ⟨hu, ht⟩ := h.unref
    refine .inr ⟨_, L, ?_, ht⟩
    rw [if_neg hone]
    exact hu

end Requests

end Hasht

section Run

open Hasht

variable {jenkinsHash : List UInt8 → UInt32} {nbuckets : ℕ} {s s' : Server} {c c' : Conn}
  {i x : ℕ} {a : ServerAct}

/-- The references to an item beside the table's. -/
def Server.others (s : Server) (x : ℕ) : ℕ := s.conns.countP (·.holds x) + s.queue.count x

/-- A connection with no request is not in the middle of one. -/
def Conn.Fine (c : Conn) : Prop :=
  (∀ r ∈ c.request, r.opcode = cmdGet ∨ r.opcode = cmdSet) ∧ (c.request = none → c.reqDone = false)

structure Server.Inv (nbuckets : ℕ) (s : Server) : Prop where
  counted : ∃ L, Counted nbuckets s.table L s.others
  fine : ∀ c ∈ s.conns, c.Fine

section Lists

section Count

variable {α : Type*} {l : List α} {c c' : α}

theorem countP_eq (h : l[i]? = some c) (p : α → Bool) :
    l.countP p = (l.eraseIdx i).countP p + if p c then 1 else 0 := by
  obtain ⟨hi, rfl⟩ := List.getElem?_eq_some_iff.1 h
  rw [← (List.getElem_cons_eraseIdx_perm hi).countP_eq, List.countP_cons]

theorem countP_set (h : l[i]? = some c) (p : α → Bool) :
    (l.set i c').countP p = (l.eraseIdx i).countP p + if p c' then 1 else 0 := by
  obtain ⟨hi, rfl⟩ := List.getElem?_eq_some_iff.1 h
  rw [(List.set_perm_cons_eraseIdx hi c').countP_eq, List.countP_cons]

end Count

variable {l : List Conn} {q : List ℕ}

/-- What the other connections and the queue hold. -/
def without (l : List Conn) (i : ℕ) (q : List ℕ) (x : ℕ) : ℕ :=
  (l.eraseIdx i).countP (·.holds x) + q.count x

theorem others_eq (h : l[i]? = some c) :
    (fun x => l.countP (·.holds x) + q.count x) = held c (without l i q) := by
  funext x
  rw [countP_eq h]
  exact Nat.add_right_comm _ _ _

theorem others_set (h : l[i]? = some c) :
    (fun x => (l.set i c').countP (·.holds x) + q.count x) = held c' (without l i q) := by
  funext x
  rw [countP_set h]
  exact Nat.add_right_comm _ _ _

end Lists

/-- A step of one connection. -/
theorem Server.Inv.set (h : s.Inv nbuckets) (hc : s.conns[i]? = some c) {t : Hasht}
    {L : ℕ → Fin 5 → List ℕ}
    (ht : Counted nbuckets t L (held c' (without s.conns i s.queue))) (hf : c'.Fine) (b : Bool) :
    Server.Inv nbuckets { s with table := t, shrunk := b, conns := s.conns.set i c' } := by
  refine ⟨⟨L, ?_⟩, fun d hd => ?_⟩
  · change Counted nbuckets t L fun x => (s.conns.set i c').countP _ + s.queue.count x
    rw [others_set hc]
    exact ht
  · rcases List.mem_or_eq_of_mem_set hd with hd | rfl
    · exact h.fine d hd
    · exact hf

theorem Server.Inv.same (h : s.Inv nbuckets) (hc : s.conns[i]? = some c)
    (hh : ∀ x, c'.holds x = c.holds x) (hf : c'.Fine) :
    Server.Inv nbuckets { s with conns := s.conns.set i c' } := by
  obtain ⟨L, hL⟩ := h.counted
  refine h.set hc (L := L) ?_ hf s.shrunk
  rw [show held c' (without s.conns i s.queue) = held c (without s.conns i s.queue) by
    funext x; simp only [held, hh], ← others_eq hc]
  exact hL

theorem Hasht.Follows.fine (h : Follows c c') (hf : c.Fine) (hr : c.request ≠ none) : c'.Fine := by
  rcases h with ⟨h1, -⟩ | ⟨h1, h2⟩
  · exact ⟨by rw [h1]; exact hf.1, fun h => absurd (h1 ▸ h) hr⟩
  · exact ⟨by simp [h1], fun _ => h2⟩

/-- A call has not returned, or the invariant holds after it. -/
def Kept (nbuckets : ℕ) (r : Except Fault Server) : Prop :=
  r = .error .abort ∨ ∃ s', r = .ok s' ∧ s'.Inv nbuckets

theorem Server.Inv.arrive (h : s.Inv nbuckets) {r : Request}
    (hr : r.opcode = cmdGet ∨ r.opcode = cmdSet) :
    Kept nbuckets ((ServerAct.arrive i r).next jenkinsHash nbuckets s) := by
  rcases hi : s.conns[i]? with _ | c
  · exact .inr ⟨s, by simp only [ServerAct.next, hi], h⟩
  by_cases hreq : c.request = none
  · have hfc := h.fine c (List.mem_of_getElem? hi)
    refine .inr ⟨{ s with conns := s.conns.set i { c with request := some r } },
      by simp only [ServerAct.next, hi, hreq, if_true], h.same hi (fun x => ?_) ⟨?_, nofun⟩⟩
    · simp [Conn.holds, hfc.2 hreq]
    · rintro r' hr'
      cases hr'
      exact hr
  · exact .inr ⟨s, by simp only [ServerAct.next, hi, hreq, if_false], h⟩

theorem Server.Inv.process (h : s.Inv nbuckets) {fresh : Option ℕ}
    (hl : (ServerAct.process i fresh).Legal s)
    (hc : (ServerAct.process i fresh).Careful jenkinsHash nbuckets s) :
    Kept nbuckets ((ServerAct.process i fresh).next jenkinsHash nbuckets s) := by
  rcases hi : s.conns[i]? with _ | c
  · exact .inr ⟨s, by simp only [ServerAct.next, hi], h⟩
  rcases hr : c.request with _ | r
  · exact .inr ⟨s, by simp only [ServerAct.next, hi, Option.bind_some, hr], h⟩
  obtain ⟨L, hL⟩ := h.counted
  have hfc := h.fine c (List.mem_of_getElem? hi)
  have ho : s.others = held c (without s.conns i s.queue) := others_eq hi
  rw [ho] at hL
  have hrun : s.table.connReqProcess jenkinsHash nbuckets c r fresh = .error .abort ∨
      ∃ a t c' L', s.table.connReqProcess jenkinsHash nbuckets c r fresh = .ok (a, t, c') ∧
        a ≠ .closed ∧ Follows c c' ∧
          Counted nbuckets t L' (held c' (without s.conns i s.queue)) := by
    unfold connReqProcess
    rcases hfc.1 r hr with hop | hop
    · rw [if_pos hop]
      obtain ⟨a, t, c', h1, h2, h3, h4⟩ := hL.processGet hc.1 hr hop
      exact .inr ⟨a, t, c', L, h1, h2, h3, h4⟩
    · rw [if_neg (by rw [hop]; decide), if_pos hop]
      refine hL.processSet hc.1 hr hop hl fun hd x hx => ?_
      refine hc.2 c hi r hr x ?_
      simp [Server.target, hd, hop, hx, Except.toOption]
  rcases hrun with he | ⟨a, t, c', L', he, ha, hfo, ht⟩
  · refine .inl ?_
    simp only [ServerAct.next, hi, Option.bind_some, hr, he]
    rfl
  · refine .inr ⟨_, ?_, h.set hi ht (hfo.fine hfc (by simp [hr]))
      (s.shrunk || s.shrinks jenkinsHash nbuckets c r)⟩
    simp only [ServerAct.next, hi, Option.bind_some, hr, he, ok_bind]
    cases a with
    | closed => exact absurd rfl ha
    | full => rfl
    | done res => rfl

theorem Server.Inv.send (h : s.Inv nbuckets) (res : ℕ) :
    Kept nbuckets ((ServerAct.send i res).next jenkinsHash nbuckets s) := by
  rcases hi : s.conns[i]? with _ | c
  · exact .inr ⟨s, by simp only [ServerAct.next, hi], h⟩
  have hfc := h.fine c (List.mem_of_getElem? hi)
  refine .inr ⟨{ s with conns := s.conns.set i (ServerAct.sent c res) },
    by simp only [ServerAct.next, hi], h.same hi (fun x => ?_) ?_⟩
  all_goals
    unfold ServerAct.sent
    dsimp only
    split
  · rfl
  · rfl
  · exact hfc
  · exact hfc

theorem Server.Inv.close (h : s.Inv nbuckets)
    (hc : ∀ c ∈ s.conns[i]?, ∀ x ∈ c.it, c.holds x = true) :
    Kept nbuckets ((ServerAct.close i).next jenkinsHash nbuckets s) := by
  rcases hi : s.conns[i]? with _ | c
  · exact .inr ⟨s, by simp only [ServerAct.next, hi], h⟩
  obtain ⟨L, hL⟩ := h.counted
  have ho : s.others = held c (without s.conns i s.queue) := others_eq hi
  rw [ho] at hL
  have hfine : ∀ d ∈ s.conns.eraseIdx i, d.Fine := fun d hd =>
    h.fine d (List.mem_of_mem_eraseIdx hd)
  rcases hit : c.it with _ | x
  · rw [held_of_not fun x => by simp [Conn.holds, hit]] at hL
    refine .inr ⟨{ s with conns := s.conns.eraseIdx i }, ?_, ⟨L, hL⟩, hfine⟩
    simp only [ServerAct.next, hi, connClose, hit]
    rfl
  · have hx := hc c hi x hit
    have hh : ∀ y, c.holds y = decide (y = x) := fun y => by
      simp only [Conn.holds, hit, Bool.and_eq_true, decide_eq_true_eq] at hx ⊢
      simp [hx.1, hx.2, @eq_comm _ x y]
    rw [held_of_it hh] at hL
    obtain ⟨hu, ht⟩ := hL.unref
    refine .inr ⟨{ s with table := s.table.unref x, conns := s.conns.eraseIdx i }, ?_, ⟨L, ht⟩,
      hfine⟩
    simp only [ServerAct.next, hi, connClose, hit, hu]
    rfl

theorem Server.Inv.enqueue (h : s.Inv nbuckets)
    (hc : (ServerAct.enqueue x).Careful jenkinsHash nbuckets s) :
    Kept nbuckets ((ServerAct.enqueue x).next jenkinsHash nbuckets s) := by
  have hs : s.shrunk = false := hc.2
  obtain ⟨L, hL⟩ := h.counted
  by_cases h0 : (s.table.item x).refcount = 0
  · refine .inr ⟨s, ?_, h⟩
    simp only [ServerAct.next, hs, itemTryref, h0, if_true]
    rfl
  · have hx := (hL.mem x).2 h0
    refine .inr ⟨{ s with table := s.table.itemRef x, queue := s.queue ++ [x] }, ?_, ⟨L, ?_⟩, h.fine⟩
    · simp only [ServerAct.next, hs, itemTryref, h0, if_false]
      rfl
    · convert hL.itemRef hx (hc.1 x hx) using 1
      funext y
      simp only [Server.others, more, List.count_append, List.count_singleton, Nat.add_assoc,
        beq_iff_eq, @eq_comm _ x y]

theorem Server.Inv.clean {j : ℕ} {fresh : Option ℕ} (h : s.Inv nbuckets)
    (hl : ∀ x ∈ fresh, x ∉ s.table.live) :
    Kept nbuckets ((ServerAct.clean j fresh).next jenkinsHash nbuckets s) := by
  rcases hj : s.queue[j]? with _ | x
  · exact .inr ⟨s, by simp only [ServerAct.next, hj], h⟩
  obtain ⟨L, hL⟩ := h.counted
  have ho : s.others =
      more (fun y => s.conns.countP (·.holds y) + (s.queue.eraseIdx j).count y) x := by
    funext y
    unfold Server.others more List.count
    rw [countP_eq hj, Nat.add_assoc]
    simp only [beq_iff_eq, @eq_comm _ y]
  rw [ho] at hL
  rcases hL.cleanItem hl with he | ⟨t, L', he, ht⟩
  · refine .inl ?_
    simp only [ServerAct.next, hj, he]
    rfl
  · refine .inr ⟨{ s with table := t, queue := s.queue.eraseIdx j }, ?_, ⟨L', ht⟩, h.fine⟩
    simp only [ServerAct.next, hj, he]
    rfl

theorem Server.Inv.next (h : s.Inv nbuckets) (hl : a.Legal s)
    (hc : a.Careful jenkinsHash nbuckets s) :
    Kept nbuckets (a.next jenkinsHash nbuckets s) := by
  cases a with
  | accept =>
    obtain ⟨L, hL⟩ := h.counted
    refine .inr ⟨_, rfl, ⟨L, ?_⟩, fun c hc => ?_⟩
    · convert hL using 1
      funext x
      simp [Server.others, Conn.holds]
    · rcases List.mem_append.1 hc with hc | hc
      · exact h.fine c hc
      · rw [List.mem_singleton.1 hc]
        exact ⟨by simp, fun _ => rfl⟩
  | arrive i r => exact h.arrive hl
  | process i fresh => exact h.process hl hc
  | send i res => exact h.send res
  | close i => exact h.close hc.2
  | enqueue x => exact h.enqueue hc
  | clean j fresh => exact h.clean hl

section Runs

/-- SET and GET of the key 7, with an answer to each. -/
private def served : List ServerAct :=
  [.accept, .arrive 0 ⟨cmdSet, 1, 8, [0, 0, 0, 0, 0, 0, 0, 0, 7, 9]⟩, .process 0 (some 40),
    .arrive 0 ⟨cmdGet, 1, 0, [7]⟩, .process 0 none]

end Runs

end Run

end FlexKvs

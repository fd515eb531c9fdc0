import HeMem.FlexKvs.Puts
import HeMem.FlexKvs.Proofs.References

/-!
# The table is a map

The lists of the table hold one item for each key put, and the references to an item are the table's
and those of the callers.  A compare and set only looks at the direct slots: an item on the overflow
chain stays.
-/

namespace FlexKvs

open Function

namespace Hasht

variable {nbuckets : ℕ} {s t : Hasht} {L : ℕ → Fin 5 → List ℕ} {o : ℕ → ℕ} {n x y nit : ℕ}
  {i : Fin 5} {jenkinsHash : List UInt8 → UInt32} {key value : List UInt8} {room it : ℕ}

section Buckets

theorem along_eq : ∀ {l : List ℕ} {k : ℕ} {p : Option ℕ}, Linked s.nextOf p l → l.length ≤ k →
    s.along k p = l
  | [], k, p, h, _ => by
    obtain rfl : p = none := h
    cases k <;> rfl
  | x :: l, k, p, ⟨hp, hl⟩, hk => by
    obtain ⟨k, rfl⟩ := Nat.exists_eq_succ_of_ne_zero (Nat.ne_zero_of_lt hk)
    subst hp
    exact congrArg (x :: ·) (along_eq hl (Nat.le_of_succ_le_succ hk))

theorem Wf.overflowItems (h : Wf nbuckets s L) (n : ℕ) :
    s.overflowItems (s.buckets n) = (L n (Fin.last 4)).tail := by
  have hl := h.linked n (Fin.last 4)
  unfold Hasht.overflowItems
  rcases hL : L n (Fin.last 4) with _ | ⟨x, l⟩
  · rw [hL] at hl
    rw [show (s.buckets n).items (Fin.last 4) = none from hl]
    rfl
  · rw [hL] at hl
    rw [hl.1]
    have hlen : (x :: l).length ≤ s.live.length := by
      rw [← hL]
      exact (List.subperm_of_subset (h.nodup n (Fin.last 4)) fun y hy =>
        h.live ⟨n, Fin.last 4, hy⟩).length_le
    exact along_eq hl.2 (Nat.le_of_succ_le hlen)

/-- The items of a bucket by its lists. -/
def listed (L : ℕ → Fin 5 → List ℕ) (n : ℕ) : List ℕ :=
  (List.finRange 5).filterMap (fun i => (L n i).head?) ++ (L n (Fin.last 4)).tail

theorem Wf.bucketItems (h : Wf nbuckets s L) (n : ℕ) :
    s.bucketItems (s.buckets n) = listed L n := by
  have hitems : (s.buckets n).items = fun i => (L n i).head? :=
    funext fun i => (h.linked n i).start
  rw [Hasht.bucketItems, h.overflowItems, hitems]
  rfl

theorem on_of_mem_listed (hx : x ∈ listed L n) : ∃ i, x ∈ L n i := by
  rcases List.mem_append.1 hx with hx | hx
  · obtain ⟨i, -, hi⟩ := List.mem_filterMap.1 hx
    exact ⟨i, List.mem_of_mem_head? hi⟩
  · exact ⟨Fin.last 4, List.mem_of_mem_tail hx⟩

theorem Wf.nodup_listed (h : Wf nbuckets s L) (n : ℕ) : (listed L n).Nodup := by
  refine List.nodup_append.2 ⟨?_, (h.nodup n (Fin.last 4)).tail, fun x hx y hy => ?_⟩
  · refine (List.nodup_finRange 5).filterMap fun i j x hi hj => ?_
    exact (h.apart (List.mem_of_mem_head? hi) (List.mem_of_mem_head? hj)).2
  · rintro rfl
    obtain ⟨i, -, hi⟩ := List.mem_filterMap.1 hx
    obtain ⟨-, rfl⟩ := h.apart (List.mem_of_mem_head? hi) (List.mem_of_mem_tail hy)
    have hd := h.nodup n (Fin.last 4)
    rw [← List.cons_head?_tail hi, List.nodup_cons] at hd
    exact hd.1 hy

/-- The first item of a slot is replaced in the bucket. -/
theorem Wf.listed_put {r : List ℕ} (h : Wf nbuckets s L) (hL : L n i = x :: r) (m : ℕ) :
    listed (putList L n i (nit :: r)) m =
      (listed L m).map fun y => if y = x then nit else y := by
  have hother : ∀ {l : List ℕ}, x ∉ l → (l.map fun y => if y = x then nit else y) = l :=
    fun hl => (List.map_congr_left fun y hy =>
      if_neg (ne_of_mem_of_not_mem hy hl)).trans (List.map_id' _)
  have hslot : ∀ j, ((putList L n i (nit :: r) m j).head?) =
      ((L m j).head?).map fun y => if y = x then nit else y := fun j => by
    by_cases hmj : m = n ∧ j = i
    · obtain ⟨rfl, rfl⟩ := hmj
      rw [putList_self, hL]
      simp
    · rw [putList_of_ne _ hmj]
      cases hh : (L m j).head? with
      | none => rfl
      | some y =>
        have hy : y ≠ x := by
          rintro rfl
          exact hmj (h.apart (List.mem_of_mem_head? hh) (hL ▸ List.mem_cons_self))
        simp [hy]
  have htail : (putList L n i (nit :: r) m (Fin.last 4)).tail = (L m (Fin.last 4)).tail := by
    by_cases hmj : m = n ∧ Fin.last 4 = i
    · obtain ⟨rfl, rfl⟩ := hmj
      rw [putList_self, hL]
      rfl
    · rw [putList_of_ne _ hmj]
  have hx : x ∉ (L m (Fin.last 4)).tail := fun hx => by
    obtain ⟨rfl, rfl⟩ := h.apart (List.mem_of_mem_tail hx) (hL ▸ List.mem_cons_self : x ∈ L n i)
    have hd := h.nodup m (Fin.last 4)
    rw [hL] at hx hd
    exact (List.nodup_cons.1 hd).1 hx
  unfold listed
  rw [htail, List.map_append, hother hx, List.map_filterMap]
  congr 1
  exact congrArg (fun f => List.filterMap f (List.finRange 5)) (funext hslot)

end Buckets

/-- The items on the lists have the hash of their key. -/
def Hashed (jenkinsHash : List UInt8 → UInt32) (s : Hasht) (L : ℕ → Fin 5 → List ℕ) : Prop :=
  ∀ x, On L x → (s.item x).hv = jenkinsHash (s.item x).key

section Fresh

theorem fresh_self (s : Hasht) (jenkinsHash : List UInt8 → UInt32) (nit room : ℕ)
    (key value : List UInt8) :
    ((s.fresh jenkinsHash nit room key value).item nit).key = key ∧
      ((s.fresh jenkinsHash nit room key value).item nit).hv = jenkinsHash key ∧
      ((s.fresh jenkinsHash nit room key value).item nit).refcount = 1 := by
  simp [fresh, fill, allocated]

theorem fresh_item (s : Hasht) (jenkinsHash : List UInt8 → UInt32) (room : ℕ)
    (key value : List UInt8) (hx : x ≠ nit) :
    (s.fresh jenkinsHash nit room key value).item x = s.item x := by
  simp [fresh, fill, allocated, hx]

theorem Counted.fresh (h : Counted nbuckets s L o) (hnit : nit ∉ s.live)
    (jenkinsHash : List UInt8 → UInt32) (room : ℕ) (key value : List UInt8) :
    Counted nbuckets (s.fresh jenkinsHash nit room key value) L (more o nit) :=
  (h.allocated hnit).fill fun hon => absurd hon (h.off hnit).1

theorem Hashed.fresh (hh : Hashed jenkinsHash s L) (hnit : ¬ On L nit) (room : ℕ)
    (key value : List UInt8) :
    Hashed jenkinsHash (s.fresh jenkinsHash nit room key value) L := fun x hx => by
  have hne : x ≠ nit := fun he => hnit (he ▸ hx)
  rw [fresh_item s jenkinsHash room key value hne]
  exact hh x hx

theorem find_hashed (h : Wf nbuckets s L) (hh : Hashed jenkinsHash s L) (key : List UInt8) :
    ∃ r, s.find key (jenkinsHash key) nbuckets = .ok r ∧
      ∀ x, r = some x ↔ On L x ∧ (s.item x).key = key := by
  obtain ⟨r, hr, hfind⟩ := h.find_spec key (jenkinsHash key)
  refine ⟨r, hr, fun x => (hfind x).trans ⟨fun hx => ⟨hx.1, hx.2.2⟩, fun hx => ⟨hx.1, ?_, hx.2⟩⟩⟩
  rw [hh x hx.1, hx.2]

/-- A put of a fresh item takes the place of what has its key. -/
theorem Counted.put (h : Counted nbuckets s L o) (hh : Hashed jenkinsHash s L)
    (hnit : nit ∉ s.live) (room : ℕ) (key value : List UInt8) (cas : Option ℕ) :
    ∃ t L', (s.fresh jenkinsHash nit room key value).hashtPut nbuckets nit cas = .ok t ∧
      Counted nbuckets t L' (more o nit) ∧ Hashed jenkinsHash t L' ∧
      (∀ y, (t.item y).Same ((s.fresh jenkinsHash nit room key value).item y)) ∧
      (cas = none → ∀ y, On L' y ↔ y = nit ∨ On L y ∧ (s.item y).key ≠ key) := by
  have hoff := (h.off hnit).1
  have hf := h.fresh hnit jenkinsHash room key value
  have hhf := hh.fresh hoff room key value
  obtain ⟨hk, hv, hc⟩ := fresh_self s jenkinsHash nit room key value
  obtain ⟨r, hr, hfind⟩ := find_hashed hf.wf hhf key
  obtain ⟨t, L', ht, hct, hsame, hcase⟩ := hf.hashtPut hoff (by simp [more]) (by rw [hc]; decide) cas
  rw [hk, hv, hr] at hcase
  refine ⟨t, L', ht, hct, fun x hx => ?_, hsame, ?_⟩
  · rw [(hsame x).1, (hsame x).2.1]
    rcases hcase with ⟨rfl, -⟩ | ⟨-, hon⟩
    · exact hhf x hx
    · rcases (hon x).1 hx with rfl | hx
      · rw [hv, hk]
      · exact hhf x hx.1
  · rintro rfl y
    rcases hcase with ⟨-, hne⟩ | ⟨-, hon⟩
    · exact absurd rfl hne
    rw [hon]
    refine or_congr_right (and_congr_right fun hy => ?_)
    have hne : y ≠ nit := fun he => hoff (he ▸ hy)
    have hyk := fresh_item s jenkinsHash room key value hne
    simp [hfind, hy, hyk]

end Fresh

end Hasht

namespace Puts

open Hasht

variable {jenkinsHash : List UInt8 → UInt32} {nbuckets : ℕ} {s s' : Puts} {a : PutsAct}
  {L : ℕ → Fin 5 → List ℕ}

/-- The references beside the table's are those that callers hold. -/
structure Inv (jenkinsHash : List UInt8 → UInt32) (nbuckets : ℕ) (s : Puts)
    (L : ℕ → Fin 5 → List ℕ) : Prop where
  counted : Counted nbuckets s.table L fun x => s.held.count x
  hashed : Hashed jenkinsHash s.table L

/-- A key was last put with the item that has it. -/
def Latest (s : Puts) (L : ℕ → Fin 5 → List ℕ) : Prop :=
  ∀ key x, s.last key = some x ↔ On L x ∧ (s.table.item x).key = key

theorem more_count (s : Puts) (x : ℕ) :
    (more (fun y => s.held.count y) x) = fun y => (x :: s.held).count y := by
  funext y
  simp [more, List.count_cons, @eq_comm _ x y]

theorem Inv.put (h : s.Inv jenkinsHash nbuckets L) {nit room : ℕ} {key value : List UInt8}
    (hl : nit ∉ s.table.live) {t : Hasht} (cas : Option ℕ)
    (ht : (s.table.fresh jenkinsHash nit room key value).hashtPut nbuckets nit cas = .ok t)
    (last : List UInt8 → Option ℕ) :
    ∃ L', Inv jenkinsHash nbuckets ⟨t, last, nit :: s.held⟩ L' ∧
      (cas = none → s.Latest L → last = update s.last key (some nit) →
        Latest ⟨t, last, nit :: s.held⟩ L') := by
  obtain ⟨t', L', ht', hc, hh, hsame, hon⟩ := h.counted.put h.hashed hl room key value cas
  obtain rfl : t' = t := Except.ok.inj (ht'.symm.trans ht)
  rw [more_count] at hc
  refine ⟨L', ⟨hc, hh⟩, ?_⟩
  rintro rfl hlast rfl k x
  change update s.last key (some nit) k = some x ↔ _
  rw [hon rfl, (hsame x).2.1]
  by_cases hx : x = nit
  · subst hx
    rw [(fresh_self ..).1]
    by_cases hk : k = key
    · simp [hk]
    · have hoff := (h.counted.off hl).1
      rw [update_of_ne hk, hlast]
      simp [hoff, Ne.symm hk]
  · rw [fresh_item s.table jenkinsHash room key value hx]
    by_cases hk : k = key
    · subst hk
      simp [hx, @eq_comm _ nit]
    · rw [update_of_ne hk, hlast]
      refine ⟨fun hy => ⟨.inr ⟨hy.1, ?_⟩, hy.2⟩, fun hy => ⟨(hy.1.resolve_left hx).1, hy.2⟩⟩
      rwa [hy.2]

theorem Inv.letGo (h : s.Inv jenkinsHash nbuckets L) {x : ℕ} (hx : x ∈ s.held) {t : Hasht}
    (ht : s.table.itemUnref x = .ok t) :
    Inv jenkinsHash nbuckets { s with table := t, held := s.held.erase x } L ∧
      (s.Latest L → Latest { s with table := t, held := s.held.erase x } L) := by
  have hc := h.counted
  have hmore : (fun y => s.held.count y) = more (fun y => (s.held.erase x).count y) x := by
    have hperm := List.perm_cons_erase hx
    rw [show more (fun y => (s.held.erase x).count y) x = fun y => (x :: s.held.erase x).count y
      from more_count { s with held := s.held.erase x } x]
    exact funext fun y => hperm.count_eq y
  rw [hmore] at hc
  obtain ⟨hu, hcu⟩ := hc.unref
  obtain rfl : s.table.unref x = t := Except.ok.inj (hu.symm.trans ht)
  refine ⟨⟨hcu, fun y hy => ?_⟩, fun hlast key y => ?_⟩
  · rw [same_unref.1, same_unref.2.1]
    exact h.hashed y hy
  · rw [same_unref.2.1]
    exact hlast key y

theorem of_bind_ok {α β : Type} {x : Except Fault α} {f : α → Except Fault β} {b : β}
    (h : x >>= f = .ok b) : ∃ a, x = .ok a ∧ f a = .ok b := by
  cases x with
  | error e => cases h
  | ok a => exact ⟨a, rfl, h⟩

theorem Inv.next (h : s.Inv jenkinsHash nbuckets L) (hl : a.Legal s)
    (hn : a.next jenkinsHash nbuckets s = .ok s') :
    ∃ L', s'.Inv jenkinsHash nbuckets L' ∧ (a.Plain → s.Latest L → s'.Latest L') := by
  cases a with
  | put nit room key value =>
    obtain ⟨t, ht, he⟩ := of_bind_ok hn
    cases he
    obtain ⟨L', hi, hlast⟩ := h.put hl none ht (update s.last key (some nit))
    exact ⟨L', hi, fun _ hs => hlast rfl hs rfl⟩
  | cas nit room key value it =>
    obtain ⟨t, ht, he⟩ := of_bind_ok hn
    cases he
    obtain ⟨L', hi, -⟩ := h.put hl (some it) ht s.last
    exact ⟨L', hi, nofun⟩
  | letGo x =>
    obtain ⟨t, ht, he⟩ := of_bind_ok hn
    cases he
    obtain ⟨hi, hlast⟩ := h.letGo hl ht
    exact ⟨L, hi, fun _ => hlast⟩

theorem Inv.isMap (h : s.Inv jenkinsHash nbuckets L) (hlast : s.Latest L) :
    s.IsMap jenkinsHash nbuckets where
  get key := by
    obtain ⟨r, hr, hfind⟩ := find_hashed h.counted.wf h.hashed key
    obtain rfl : r = s.last key := Option.ext fun x => (hfind x).trans (hlast key x).symm
    unfold hashtGet
    rw [hr]
    cases s.last key with
    | none => exact ⟨_, rfl⟩
    | some x => exact ⟨_, rfl⟩
  once n := by
    rw [h.counted.wf.bucketItems]
    refine List.Nodup.map_on (fun x hx y hy hk => ?_) (h.counted.wf.nodup_listed n)
    have hx : On L x := ⟨n, on_of_mem_listed hx⟩
    have hy : On L y := ⟨n, on_of_mem_listed hy⟩
    exact h.counted.wf.unique hx hy (by rw [h.hashed x hx, h.hashed y hy, hk]) hk
  put nit room key value hl := by
    obtain ⟨t, L', ht, hc, -, -, hon⟩ := h.counted.put h.hashed hl room key value none
    refine ⟨t, ht, fun x => ?_⟩
    obtain ⟨hoff, ho⟩ := h.counted.off hl
    have hr := hc.refs x
    by_cases hx : x = nit
    · subst hx
      rw [if_pos rfl, ← UInt16.toNat_inj, hr, if_pos ((hon rfl x).2 (.inl rfl))]
      simp [more, ho]
    · have hs := h.counted.refs x
      have hon' : On L' x ↔ On L x ∧ (s.table.item x).key ≠ key :=
        (hon rfl x).trans (or_iff_right hx)
      rw [show more (fun y => s.held.count y) nit x = s.held.count x by simp [more, hx]] at hr
      rw [if_neg hx, ← UInt16.toNat_inj, hr]
      by_cases hd : s.last key = some x
      · obtain ⟨honx, hk⟩ := (hlast key x).1 hd
        have hpos : (s.table.item x).refcount ≠ 0 := (h.counted.mem x).1 (h.counted.wf.live honx)
        rw [if_pos honx] at hs
        rw [if_pos hd, toNat_pred hpos, if_neg fun hy => (hon'.1 hy).2 hk]
        omega
      · have hiff : On L' x ↔ On L x :=
          hon'.trans (and_iff_left_of_imp fun honx hk => hd ((hlast key x).2 ⟨honx, hk⟩))
        rw [if_neg hd, hs]
        by_cases honx : On L x
        · rw [if_pos honx, if_pos (hiff.2 honx)]
        · rw [if_neg honx, if_neg fun hx' => honx (hiff.1 hx')]

theorem next_of_toOption (h : (a.next jenkinsHash nbuckets s).toOption = some s') :
    (puts jenkinsHash nbuckets).step s a s' := by
  rcases he : a.next jenkinsHash nbuckets s with e | t
  · rw [he] at h
    cases h
  · rw [he] at h
    exact he.trans (congrArg Except.ok (Option.some.inj h))

/-- As long as no put is a compare and set. -/
theorem puts_is_map
    (h : (puts jenkinsHash nbuckets).Reach (fun s a => a.Legal s ∧ a.Plain) s) :
    s.IsMap jenkinsHash nbuckets := by
  have hi : ∃ L, s.Inv jenkinsHash nbuckets L ∧ s.Latest L := by
    refine h.invariant (I := fun s => ∃ L, s.Inv jenkinsHash nbuckets L ∧ s.Latest L) ?_
      fun s a s' hs ha hn => ?_
    · rintro s rfl
      have hno : ∀ {x}, ¬ On (fun _ _ => []) x := fun ⟨_, _, hx⟩ => nomatch hx
      exact ⟨_, ⟨counted_empty, fun x hx => (hno hx).elim⟩, fun key x =>
        iff_of_false nofun fun hx => hno hx.1⟩
    · obtain ⟨L, hi, hlast⟩ := hs
      obtain ⟨L', hi', hlast'⟩ := hi.next ha.1 hn
      exact ⟨L', hi', hlast' ha.2 hlast⟩
  obtain ⟨L, hi, hlast⟩ := hi
  exact hi.isMap hlast

/-- Two puts of one key; the first item is let go by its caller, and by the table. -/
theorem puts_is_map_twice : ∃ s : Puts, s.IsMap (fun _ => 5) 3 ∧ s.last [7] = some 41 ∧
    s.table.live = [41] := by
  obtain ⟨s, hs, hP⟩ := System.drive_reach (S := puts (fun _ => 5) 3)
    (fun s a => (a.next (fun _ => 5) 3 s).toOption) (fun s a => a.Legal s ∧ a.Plain)
    (fun _ _ _ => next_of_toOption) (fun _ _ => id) rfl
    [.put 40 2 [7] [1], .put 41 2 [7] [2], .letGo 40]
    (fun s => s.last [7] = some 41 ∧ s.table.live = [41]) (by decide +kernel)
  exact ⟨s, puts_is_map hs, of_decide_eq_true hP⟩

theorem reach_inv (h : (puts jenkinsHash nbuckets).Reach (fun s a => a.Legal s) s) :
    ∃ L, s.Inv jenkinsHash nbuckets L := by
  refine h.invariant (I := fun s => ∃ L, s.Inv jenkinsHash nbuckets L) ?_
    fun s a s' hs ha hn => ?_
  · rintro s rfl
    exact ⟨_, counted_empty, fun x ⟨_, _, hx⟩ => nomatch hx⟩
  · obtain ⟨L, hi⟩ := hs
    obtain ⟨L', hi', -⟩ := hi.next ha hn
    exact ⟨L', hi'⟩

section Compare

variable {u : Hasht} {o : ℕ → ℕ} {nit it : ℕ} {key value : List UInt8}

/-- A direct slot that has the key of `nit` is compared with `cas`. -/
theorem comparesAndSets_slot (h : Counted nbuckets u L o) (hoff : ¬ On L nit)
    (hl : nit ∈ u.live) {i : Fin 5}
    (hs : u.slot (u.item nit).key (u.item nit).hv
      (u.buckets ((u.item nit).hv.toNat % nbuckets)) = some (i, it)) :
    u.ComparesAndSets nbuckets nit it := by
  obtain ⟨hi, hh, hk⟩ := slot_some hs
  have hx : On L it := ⟨_, i, h.wf.mem_slot hi⟩
  have hpos : (u.item it).refcount ≠ 0 := (h.mem it).1 (h.wf.live hx)
  obtain ⟨t, r, ht, hL, hw, hrep⟩ := h.wf.hashtPut_slot hoff hl hs hpos (.inr rfl)
  have hfound : u.find (u.item nit).key (u.item nit).hv nbuckets = .ok (some it) := by
    unfold find
    simp only [hs]
  refine ⟨t, ht, ?_⟩
  rw [if_pos hfound]
  refine ⟨fun n => ?_, fun x => ⟨(hrep.same x).2.1, (hrep.same x).2.2.1, (hrep.same x).1, ?_⟩⟩
  · rw [hw.bucketItems, h.wf.bucketItems]
    exact h.wf.listed_put hL n
  · rw [hrep.refs]
    simp only [Option.some.injEq, @eq_comm _ it x]

/-- Elsewhere in the table nothing is set. -/
theorem comparesAndSets_of_ne (h : Counted nbuckets u L o) (hoff : ¬ On L nit)
    (hl : nit ∈ u.live)
    (hne : u.find (u.item nit).key (u.item nit).hv nbuckets ≠ .ok (some it)) :
    u.ComparesAndSets nbuckets nit it := by
  obtain ⟨r, hr, hfind⟩ := h.wf.find_spec (u.item nit).key (u.item nit).hv
  obtain ⟨t, L', ht, -, hcase⟩ := h.wf.hashtPut_spec hoff hl hr
    (fun x hx => (h.mem x).1 (h.wf.live ((hfind x).1 hx).1)) (some it)
  refine ⟨t, ht, ?_⟩
  rw [if_neg hne]
  rcases hcase with ⟨rfl, -, -⟩ | ⟨hcas, -, -⟩
  · rfl
  · refine absurd ?_ hne
    rw [hr, hcas.resolve_left (Option.some_ne_none it)]

theorem not_comparesAndSets_of_noSlot
    (hs : u.slot (u.item nit).key (u.item nit).hv
      (u.buckets ((u.item nit).hv.toNat % nbuckets)) = none)
    (hf : u.find (u.item nit).key (u.item nit).hv nbuckets = .ok (some it)) :
    ¬ u.ComparesAndSets nbuckets nit it := by
  rintro ⟨t, ht, hset⟩
  rw [hashtPut_noSlot hs (Option.some_ne_none it)] at ht
  obtain rfl : u = t := Except.ok.inj ht
  rw [if_pos hf] at hset
  have hc := (hset.2 nit).2.2.2
  rw [if_pos rfl, ← UInt16.toNat_inj, UInt16.toNat_add] at hc
  have hlt := (u.item nit).refcount.toNat_lt
  simp only [UInt16.reduceToNat] at hc
  omega

/-- A compare and set misses an item past the last slot. -/
theorem hasht_put_compares_iff
    (h : (puts jenkinsHash nbuckets).Reach (fun s a => a.Legal s) s) (nit it room : ℕ)
    (key value : List UInt8) (hl : nit ∉ s.table.live) :
    (s.table.fresh jenkinsHash nit room key value).ComparesAndSets nbuckets nit it ↔
      ¬ (it ∈ s.table.overflowItems (s.table.buckets ((jenkinsHash key).toNat % nbuckets)) ∧
        (s.table.item it).key = key) := by
  obtain ⟨L, hi⟩ := reach_inv h
  have hoff := (hi.counted.off hl).1
  have hf := hi.counted.fresh hl jenkinsHash room key value
  have hhf := hi.hashed.fresh hoff room key value
  have hlive := hf.live (x := nit) (by simp [more])
  obtain ⟨hk, hv, -⟩ := fresh_self s.table jenkinsHash nit room key value
  obtain ⟨r, hr, hfind⟩ := find_hashed hf.wf hhf key
  rw [hi.counted.wf.overflowItems]
  have hkey : ∀ {x}, On L x → ((s.table.fresh jenkinsHash nit room key value).item x).key =
      (s.table.item x).key := fun hx => by
    have hne : _ ≠ nit := fun he => hoff (he ▸ hx)
    rw [fresh_item s.table jenkinsHash room key value hne]
  constructor
  · rintro hset ⟨hit, hkit⟩
    have hon : On L it := ⟨_, Fin.last 4, List.mem_of_mem_tail hit⟩
    obtain rfl : r = some it := (hfind it).2 ⟨hon, (hkey hon).trans hkit⟩
    refine not_comparesAndSets_of_noSlot (u := s.table.fresh jenkinsHash nit room key value)
      ?_ (by rw [hk, hv, hr]) hset
    rw [hk, hv]
    refine Option.eq_none_iff_forall_ne_some.2 fun ix hs => ?_
    obtain ⟨i, x⟩ := ix
    obtain ⟨hslot, -, hkx⟩ := slot_some hs
    have hmem := hf.wf.mem_slot hslot
    obtain rfl : it = x := Option.some.inj ((hfind x).2 ⟨⟨_, i, hmem⟩, hkx⟩)
    obtain ⟨-, rfl⟩ := hf.wf.apart hmem (List.mem_of_mem_tail hit)
    have hd := hf.wf.nodup ((jenkinsHash key).toNat % nbuckets) (Fin.last 4)
    have hhead := (hf.wf.linked ((jenkinsHash key).toNat % nbuckets) (Fin.last 4)).start
    rw [hslot] at hhead
    rw [← List.cons_head?_tail hhead.symm, List.nodup_cons] at hd
    exact hd.1 hit
  · intro hno
    by_cases hfound : (s.table.fresh jenkinsHash nit room key value).find key (jenkinsHash key)
        nbuckets = .ok (some it)
    · obtain ⟨hon, hm⟩ := (hfind it).1 (Except.ok.inj (hr.symm.trans hfound))
      rcases hs : (s.table.fresh jenkinsHash nit room key value).slot key (jenkinsHash key)
        ((s.table.fresh jenkinsHash nit room key value).buckets
          ((jenkinsHash key).toNat % nbuckets)) with _ | ⟨i, x⟩
      · refine absurd ⟨hf.wf.past hs hon ⟨?_, hm⟩, (hkey hon).symm.trans hm⟩ hno
        rw [hhf it hon, hm]
      · obtain ⟨hslot, -, hkx⟩ := slot_some hs
        have hmem := hf.wf.mem_slot hslot
        have hx : it = x :=
          Option.some.inj ((Except.ok.inj (hfound.symm.trans hr)).trans ((hfind x).2
            ⟨⟨_, i, hmem⟩, hkx⟩))
        subst hx
        exact comparesAndSets_slot hf hoff hlive (i := i) (by rw [hk, hv, hs])
    · exact comparesAndSets_of_ne hf hoff hlive (by rwa [hk, hv])

/-- Six keys in one bucket. -/
private def crowded : List PutsAct :=
  (List.range 6).map fun k => .put (10 + k) 2 [UInt8.ofNat k] [1]

/-- The item of the last key is in a direct slot, that of the first one is not. -/
theorem hasht_put_compares_crowded : ∃ s : Puts,
    (s.table.fresh (fun _ => 5) 16 2 [5] [9]).ComparesAndSets 1 16 15 ∧
      ¬ (s.table.fresh (fun _ => 5) 16 2 [0] [9]).ComparesAndSets 1 16 10 := by
  obtain ⟨s, hs, hP⟩ := System.drive_reach (S := puts (fun _ => 5) 1)
    (fun s a => (a.next (fun _ => 5) 1 s).toOption) (fun s a => a.Legal s)
    (fun _ _ _ => next_of_toOption) (fun _ _ => id) rfl crowded
    (fun s => 16 ∉ s.table.live ∧ s.table.overflowItems (s.table.buckets 0) = [10] ∧
      (s.table.item 10).key = [0]) (by decide +kernel)
  obtain ⟨hl, ho, hk⟩ := of_decide_eq_true hP
  have ho' : s.table.overflowItems (s.table.buckets ((5 : UInt32).toNat % 1)) = [10] := ho
  refine ⟨s, ?_, ?_⟩
  · rw [hasht_put_compares_iff hs 16 15 2 [5] [9] hl, ho']
    simp
  · rw [hasht_put_compares_iff hs 16 10 2 [0] [9] hl, ho']
    simp [hk]

/-- The table holds 10 for its key, and a compare and set with 10 changes nothing. -/
theorem hasht_put_misses_overflow : ∃ s : Puts,
    (puts (fun _ => 5) 1).Reach (fun s a => a.Legal s) s ∧ 16 ∉ s.table.live ∧
      (s.table.fresh (fun _ => 5) 16 2 [0] [9]).find [0] 5 1 = .ok (some 10) ∧
      (s.table.fresh (fun _ => 5) 16 2 [0] [9]).hashtPut 1 16 (some 10) =
        .ok (s.table.fresh (fun _ => 5) 16 2 [0] [9]) ∧
      ¬ (s.table.fresh (fun _ => 5) 16 2 [0] [9]).ComparesAndSets 1 16 10 := by
  obtain ⟨s, hs, hP⟩ := System.drive_reach (S := puts (fun _ => 5) 1)
    (fun s a => (a.next (fun _ => 5) 1 s).toOption) (fun s a => a.Legal s)
    (fun _ _ _ => next_of_toOption) (fun _ _ => id) rfl crowded
    (fun s => 16 ∉ s.table.live ∧
      (s.table.fresh (fun _ => 5) 16 2 [0] [9]).slot [0] 5
        ((s.table.fresh (fun _ => 5) 16 2 [0] [9]).buckets 0) = none ∧
      ((s.table.fresh (fun _ => 5) 16 2 [0] [9]).find [0] 5 1).toOption = some (some 10))
    (by decide +kernel)
  obtain ⟨hl, hslot, hfind⟩ := of_decide_eq_true hP
  obtain ⟨hk, hv, -⟩ := fresh_self s.table (fun _ => 5) 16 2 [0] [9]
  have hf : (s.table.fresh (fun _ => 5) 16 2 [0] [9]).find [0] 5 1 = .ok (some 10) := by
    rcases he : (s.table.fresh (fun _ => 5) 16 2 [0] [9]).find [0] 5 1 with e | r
    · rw [he] at hfind
      cases hfind
    · rw [he] at hfind
      exact congrArg Except.ok (Option.some.inj hfind)
  have hs' : (s.table.fresh (fun _ => 5) 16 2 [0] [9]).slot
      ((s.table.fresh (fun _ => 5) 16 2 [0] [9]).item 16).key
      ((s.table.fresh (fun _ => 5) 16 2 [0] [9]).item 16).hv
      ((s.table.fresh (fun _ => 5) 16 2 [0] [9]).buckets
        (((s.table.fresh (fun _ => 5) 16 2 [0] [9]).item 16).hv.toNat % 1)) = none := by
    rw [hk, hv]
    exact hslot
  exact ⟨s, hs, hl, hf, hashtPut_noSlot hs' (Option.some_ne_none 10),
    not_comparesAndSets_of_noSlot hs' (by rw [hk, hv, hf])⟩

end Compare

end Puts

end FlexKvs

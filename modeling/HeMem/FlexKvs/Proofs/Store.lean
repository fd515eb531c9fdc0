import HeMem.FlexKvs.Store
import HeMem.FlexKvs.Proofs.References

/-!
# The responses are those of a map

Between requests each item of the table has the one reference of the table, and the items' keys and
values are the map's.
-/

namespace FlexKvs

open Function Hasht

variable {jenkinsHash : List UInt8 → UInt32} {nbuckets : ℕ} {s : Hasht} {L : ℕ → Fin 5 → List ℕ}
  {m : Contents} {c : Conn} {r : Request} {x : ℕ}

namespace Request

theorem WellFormed.setKey (h : r.WellFormed) (hop : r.opcode = cmdSet) : r.setKey = r.key := by
  unfold Request.setKey key
  rw [h.extras hop]

theorem WellFormed.vl (h : r.WellFormed) : r.vl = r.body.length - (r.extlen + r.keylen) := by
  have hw := h.within
  have hl := h.length
  unfold headerSize maxMsgsize at hl
  unfold Request.vl
  rw [UInt32.toNat_sub, UInt32.toNat_sub]
  simp only [UInt32.toNat_ofNat']
  omega

theorem WellFormed.setValue (h : r.WellFormed) (hop : r.opcode = cmdSet) :
    r.setValue = r.value := by
  unfold Request.setValue value
  rw [h.vl, h.extras hop]
  exact List.take_of_length_le (by simp)

end Request

/-- The table stands for the map. -/
structure Stands (jenkinsHash : List UInt8 → UInt32) (nbuckets : ℕ) (s : Hasht)
    (L : ℕ → Fin 5 → List ℕ) (m : Contents) : Prop where
  counted : Counted nbuckets s L fun _ => 0
  hv : ∀ {x}, On L x → (s.item x).hv = jenkinsHash (s.item x).key
  maps : ∀ {x}, On L x → m (s.item x).key = some (s.item x).value
  found : ∀ {k v}, m k = some v → ∃ x, On L x ∧ (s.item x).key = k
  short : ∀ {x}, On L x → (s.item x).value.length + 32 ≤ maxMsgsize

namespace Stands

theorem refcount (h : Stands jenkinsHash nbuckets s L m) (x : ℕ) : (s.item x).refcount ≠ 65535 := by
  intro he
  have hr := h.counted.refs x
  rw [he] at hr
  change 65535 = _ at hr
  split at hr <;> omega

/-- What `hasht_get` finds. -/
theorem get (h : Stands jenkinsHash nbuckets s L m) (key : List UInt8) :
    m key = none ∧ s.find key (jenkinsHash key) nbuckets = .ok none ∧
      s.hashtGet key (jenkinsHash key) nbuckets = .ok (none, s) ∨
    ∃ x, On L x ∧ s.Matches key (jenkinsHash key) x ∧ m key = some (s.item x).value ∧
      s.find key (jenkinsHash key) nbuckets = .ok (some x) ∧
      s.hashtGet key (jenkinsHash key) nbuckets = .ok (some x, s.itemRef x) := by
  rcases h.counted.hashtGet (fun x _ => h.refcount x) key (jenkinsHash key) with
    ⟨hf, hg⟩ | ⟨x, hf, hx, hm, hg, -⟩
  · refine .inl ⟨Option.eq_none_iff_forall_ne_some.2 fun v hv => ?_, hf, hg⟩
    obtain ⟨x, hx, hk⟩ := h.found hv
    obtain ⟨q, hq, hfind⟩ := h.counted.wf.find_spec key (jenkinsHash key)
    rw [Except.ok.inj (hq.symm.trans hf)] at hfind
    exact nomatch (hfind x).2 ⟨hx, (h.hv hx).trans (by rw [hk]), hk⟩
  · refine .inr ⟨x, hx, hm, ?_, hf, hg⟩
    rw [← hm.2]
    exact h.maps hx

/-- The table after a step that keeps its items. -/
theorem congr {t : Hasht} (h : Stands jenkinsHash nbuckets s L m)
    (ht : Counted nbuckets t L fun _ => 0) (hsame : ∀ x, (t.item x).Same (s.item x)) :
    Stands jenkinsHash nbuckets t L m where
  counted := ht
  hv hx := by
    rw [(hsame _).1, (hsame _).2.1]
    exact h.hv hx
  maps hx := by
    rw [(hsame _).2.1, (hsame _).2.2.1]
    exact h.maps hx
  found hk := by
    obtain ⟨x, hx, hk⟩ := h.found hk
    exact ⟨x, hx, (hsame x).2.1.trans hk⟩
  short hx := by
    rw [(hsame _).2.2.1]
    exact h.short hx

theorem added {t : Hasht} {L' : ℕ → Fin 5 → List ℕ} {key value : List UInt8} {room : ℕ}
    (h : Stands jenkinsHash nbuckets s L m) (ht : Counted nbuckets t L' fun _ => 0)
    (hsame : ∀ y, (t.item y).Same (((s.allocated x room).fill x (jenkinsHash key) key value).item y))
    (hon : ∀ y, On L' y ↔ y = x ∨ On L y) (hx : ¬ On L x) (hm : m key = none)
    (hlen : value.length + 32 ≤ maxMsgsize) :
    Stands jenkinsHash nbuckets t L' (update m key (some value)) := by
  have hself : (t.item x).hv = jenkinsHash key ∧ (t.item x).key = key ∧ (t.item x).value = value := by
    obtain ⟨h1, h2, h3, -⟩ := hsame x
    rw [h1, h2, h3]
    simp [Hasht.fill]
  have hother : ∀ {y}, On L y → (t.item y).Same (s.item y) := fun {y} hy => by
    have hyx : y ≠ x := fun hyx => hx (hyx ▸ hy)
    refine (hsame y).trans ?_
    simp [Hasht.fill, Hasht.allocated, hyx, Item.Same]
  refine ⟨ht, fun {y} hy => ?_, fun {y} hy => ?_, fun {k v} hk => ?_, fun {y} hy => ?_⟩
  · rcases (hon y).1 hy with rfl | hy
    · rw [hself.1, hself.2.1]
    · rw [(hother hy).1, (hother hy).2.1]
      exact h.hv hy
  · rcases (hon y).1 hy with rfl | hy
    · rw [hself.2.1, hself.2.2, update_self]
    · rw [(hother hy).2.1, (hother hy).2.2.1, update_of_ne]
      · exact h.maps hy
      · intro he
        have := h.maps hy
        rw [he, hm] at this
        cases this
  · by_cases hkk : k = key
    · exact ⟨x, (hon x).2 (.inl rfl), hself.2.1.trans hkk.symm⟩
    · rw [update_of_ne hkk] at hk
      obtain ⟨y, hy, he⟩ := h.found hk
      exact ⟨y, (hon y).2 (.inr hy), (hother hy).2.1.trans he⟩
  · rcases (hon y).1 hy with rfl | hy
    · rw [hself.2.2]
      exact hlen
    · rw [(hother hy).2.2.1]
      exact h.short hy

theorem overwritten {key value : List UInt8} (h : Stands jenkinsHash nbuckets s L m) (hx : On L x)
    (hmx : s.Matches key (jenkinsHash key) x)
    (ht : Counted nbuckets (((s.itemRef x).fill x (jenkinsHash key) key value).unref x) L fun _ => 0)
    (hlen : value.length + 32 ≤ maxMsgsize) :
    Stands jenkinsHash nbuckets (((s.itemRef x).fill x (jenkinsHash key) key value).unref x) L
      (update m key (some value)) := by
  generalize htt : (((s.itemRef x).fill x (jenkinsHash key) key value).unref x) = t at ht ⊢
  have hself : (t.item x).hv = jenkinsHash key ∧ (t.item x).key = key ∧ (t.item x).value = value := by
    rw [← htt]
    simp [Hasht.unref, Hasht.fill]
  have hother : ∀ {y}, y ≠ x → (t.item y).Same (s.item y) := fun hyx => by
    rw [← htt]
    simp [Hasht.unref, Hasht.fill, Hasht.itemRef, hyx, Item.Same]
  have hkey : ∀ y, (t.item y).key = (s.item y).key := fun y => by
    by_cases hyx : y = x
    · rw [hyx, hself.2.1, hmx.2]
    · exact (hother hyx).2.1
  refine ⟨ht, fun {y} hy => ?_, fun {y} hy => ?_, fun {k v} hk => ?_, fun {y} hy => ?_⟩
  · by_cases hyx : y = x
    · rw [hyx, hself.1, hself.2.1]
    · rw [(hother hyx).1, hkey]
      exact h.hv hy
  · by_cases hyx : y = x
    · rw [hyx, hself.2.1, hself.2.2, update_self]
    · rw [hkey, (hother hyx).2.2.1, update_of_ne]
      · exact h.maps hy
      · intro he
        refine hyx (h.counted.wf.unique hy hx ?_ (he.trans hmx.2.symm))
        rw [h.hv hy, hmx.1, he]
  · by_cases hkk : k = key
    · exact ⟨x, hx, hself.2.1.trans hkk.symm⟩
    · rw [update_of_ne hkk] at hk
      obtain ⟨y, hy, he⟩ := h.found hk
      exact ⟨y, hy, (hkey y).trans he⟩
  · by_cases hyx : y = x
    · rw [hyx, hself.2.2]
      exact hlen
    · rw [(hother hyx).2.2.1]
      exact h.short hy

end Stands

/-- A call of `conn_req_process` answers, and leaves a table that stands for the map's next. -/
def Answered (jenkinsHash : List UInt8 → UInt32) (nbuckets : ℕ) (m : Contents) (r : Request)
    (e : Except Fault (Answer × Hasht × Conn)) : Prop :=
  ∃ t c' L', e = .ok (.done (m.respond r), t, c') ∧
    Stands jenkinsHash nbuckets t L' (m.apply r)

theorem not_full (hl : c.txLen = 0) (it : Option ℕ) {n : ℕ} (hn : n ≤ maxMsgsize) :
    ¬ Conn.Full { c with it, reqDone := true } n := by
  unfold Conn.Full
  rw [hl]
  exact Nat.not_lt.2 hn

/-- The end of a SET, with the item in the table. -/
theorem answered_set {L' : ℕ → Fin 5 → List ℕ} {t : Hasht} (hl : c.txLen = 0)
    (hop : r.opcode = cmdSet) (ht : Stands jenkinsHash nbuckets t L' (m.apply r))
    {fresh : Option ℕ} :
    Answered jenkinsHash nbuckets m r
      (t.processSet jenkinsHash nbuckets { c with it := some x, reqDone := true } r fresh) := by
  have hres : m.respond r = { opcode := cmdSet, status := .success } := by
    unfold Contents.respond
    rw [hop, if_neg (by decide), if_pos rfl]
  refine ⟨t, Conn.finish { c with it := some x, reqDone := true } 24, L', ?_, ht⟩
  unfold Hasht.processSet
  simp only [if_true, pure_bind]
  rw [if_neg (not_full hl _ (show 24 ≤ maxMsgsize by decide)), hres]
  rfl

section Requests

variable (h : Stands jenkinsHash nbuckets s L m) (hd : c.reqDone = false) (hl : c.txLen = 0)
include h hd hl

theorem Stands.processGet (hop : r.opcode = cmdGet) (hk : r.lookupKey = r.key) :
    Answered jenkinsHash nbuckets m r (s.processGet jenkinsHash nbuckets c r) := by
  have happly : m.apply r = m := by
    unfold Contents.apply
    rw [hop]
    rfl
  unfold Answered
  rw [happly]
  rcases h.get r.lookupKey with ⟨hm, -, hg⟩ | ⟨x, hx, -, hm, -, hg⟩
  · refine ⟨s, Conn.finish { c with it := none, reqDone := true } 28, L, ?_, h⟩
    rw [processGet_lookup hd hg]
    unfold Hasht.processGet
    simp only [if_true, pure_bind]
    rw [if_neg (not_full hl _ (show 28 ≤ maxMsgsize by decide)), Contents.respond, if_pos hop, ← hk, hm]
    rfl
  · obtain ⟨hu, ht⟩ := (h.counted.itemRef (h.counted.wf.live hx) (h.refcount x)).unref
    have hv : ((s.itemRef x).item x).value = (s.item x).value := itemRef_same.2.2.1
    refine ⟨_, Conn.finish { c with it := some x, reqDone := true }
      (28 + (s.item x).value.length), L, ?_, h.congr ht fun y => same_unref.trans itemRef_same⟩
    rw [processGet_lookup hd hg]
    unfold Hasht.processGet
    simp only [if_true, pure_bind, hv, hu, ok_bind]
    have hs := h.short hx
    rw [if_neg (not_full hl _ (show 28 + (s.item x).value.length ≤ maxMsgsize by omega)), Contents.respond, if_pos hop, ← hk, hm]
    rfl

theorem Stands.processDelete (hop : r.opcode = cmdDelete) (hk : r.lookupKey = r.key)
    (hf : s.find r.key (jenkinsHash r.key) nbuckets = .ok none) :
    Answered jenkinsHash nbuckets m r (s.processDelete jenkinsHash nbuckets c r) := by
  rcases h.get r.lookupKey with ⟨hm, -, hg⟩ | ⟨x, -, -, -, hf', -⟩
  · have happly : m.apply r = m := by
      unfold Contents.apply
      rw [hop, if_neg (by decide), if_pos rfl, ← hk]
      exact update_eq_self_iff.2 hm.symm
    refine ⟨s, Conn.finish { c with it := none, reqDone := true } 24, L, ?_, by rw [happly]; exact h⟩
    unfold Hasht.processDelete
    simp only [hd, Bool.false_eq_true, if_false, hg, ok_bind, pure_bind]
    rw [if_neg (not_full hl _ (show 24 ≤ maxMsgsize by decide)), Contents.respond, hop,
      if_neg (by decide), if_neg (by decide), ← hk, hm]
    rfl
  · rw [hk, hf] at hf'
    cases hf'

theorem Stands.processSet {fresh : ℕ} (hw : r.WellFormed) (hop : r.opcode = cmdSet)
    (hfresh : fresh ∉ s.live)
    (hroom : ∀ x, s.find r.key (jenkinsHash r.key) nbuckets = .ok (some x) →
      r.key.length + r.value.length ≤ (s.item x).room) :
    Answered jenkinsHash nbuckets m r
      (s.processSet jenkinsHash nbuckets c r (some fresh)) := by
  have hkey := hw.setKey hop
  have hvalue := hw.setValue hop
  have hnew : update m r.setKey (some r.setValue) = m.apply r := by
    rw [hkey, hvalue]
    exact (if_pos hop).symm
  have hlen : r.setValue.length + 32 ≤ maxMsgsize := by
    have hl := hw.length
    have hin := hw.within
    rw [hw.extras hop] at hin
    rw [hvalue, Request.value, List.length_drop, hw.extras hop]
    unfold headerSize at hl
    omega
  rcases h.get r.setKey with ⟨hm, hf, hg⟩ | ⟨x, hx, hmx, hm, hf, hg⟩
  · obtain ⟨t, L', hp, hu, ht, hsame, hon⟩ := h.counted.insert hfresh (r.keylen + r.vl)
      (jenkinsHash r.setKey) r.setKey r.setValue none
    have hnext := h.added ht hsame (fun y => hon rfl hf y) (h.counted.off hfresh).1 hm hlen
    rw [processSet_new hd hg hp hu]
    rw [hnew] at hnext
    exact answered_set hl hop hnext
  · have hfit : r.setKey.length + r.setValue.length ≤ (s.item x).room := by
      rw [hkey, hvalue]
      exact hroom x (hkey ▸ hf)
    obtain ⟨hrw, hu, ht⟩ := h.counted.overwrite hx hmx (h.refcount x) hfit
    have hnext := h.overwritten hx hmx ht hlen
    rw [processSet_found hd hg hrw hu]
    rw [hnew] at hnext
    exact answered_set hl hop hnext

end Requests

/-- One request more. -/
theorem AsMap.snoc {l : List (Request × Response)} (h : AsMap l) (r : Request) :
    AsMap (l ++ [(r, (Contents.after l).respond r)]) := by
  intro l₁ r' res l₂ he
  rcases List.eq_nil_or_concat l₂ with rfl | ⟨l₃, e, rfl⟩
  · obtain ⟨rfl, hlast⟩ := List.append_inj' he rfl
    cases hlast
    rfl
  · rw [List.concat_eq_append, ← List.cons_append, ← List.append_assoc] at he
    exact h l₁ r' res l₃ (List.append_inj' he rfl).1

/-- What holds after each request. -/
def Kvs.Inv (jenkinsHash : List UInt8 → UInt32) (nbuckets : ℕ) (s : Kvs) : Prop :=
  (∃ L, Stands jenkinsHash nbuckets s.table L (Contents.after s.log)) ∧ AsMap s.log

theorem Kvs.Inv.next {s : Kvs} {a : Serve} (h : s.Inv jenkinsHash nbuckets) (hl : a.Legal s)
    (hk : a.Kept jenkinsHash nbuckets s) :
    ∃ s' res, a.next jenkinsHash nbuckets s = .ok s' ∧ s'.log = s.log ++ [(a.r, res)] ∧
      s'.Inv jenkinsHash nbuckets := by
  obtain ⟨⟨L, hs⟩, hm⟩ := h
  obtain ⟨hd, htx, hw, hfresh⟩ := hl
  obtain ⟨hlookup, hdel, hset⟩ := hk
  have hans : Answered jenkinsHash nbuckets (Contents.after s.log) a.r
      (s.table.connReqProcess jenkinsHash nbuckets { a.c with request := some a.r } a.r
        (some a.fresh)) := by
    unfold connReqProcess
    have hop := hw.opcode
    simp only [List.mem_cons, List.not_mem_nil, or_false] at hop
    rcases hop with hop | hop | hop
    · rw [if_pos hop]
      exact hs.processGet hd htx hop (hlookup (by rw [hop]; decide))
    · rw [if_neg (by rw [hop]; decide), if_pos hop]
      refine hs.processSet (c := { a.c with request := some a.r }) hd htx hw hop hfresh fun x hx => hset hop x ?_
      rw [hx]
      rfl
    · rw [if_neg (by rw [hop]; decide), if_neg (by rw [hop]; decide), if_pos hop]
      exact hs.processDelete hd htx hop (hlookup (by rw [hop]; decide)) (hdel hop)
  obtain ⟨t, c', L', he, ht⟩ := hans
  refine ⟨⟨t, _⟩, _, ?_, rfl, ⟨L', ?_⟩, hm.snoc a.r⟩
  · unfold Serve.next
    rw [he]
    rfl
  · unfold Contents.after
    rw [List.foldl_append]
    exact ht

variable {s : Kvs}

/-- As long as no stored key is deleted, no SET outgrows its item, and keys are where they are read,
the responses are those of a map, and each request gets one. -/
theorem responses_as_map
    (h : (kvs jenkinsHash nbuckets).Reach (fun s a => a.Legal s ∧ a.Kept jenkinsHash nbuckets s) s) :
    AsMap s.log ∧ ∀ a : Serve, a.Legal s → a.Kept jenkinsHash nbuckets s →
      ∃ s' res, a.next jenkinsHash nbuckets s = .ok s' ∧ s'.log = s.log ++ [(a.r, res)] := by
  have hi : s.Inv jenkinsHash nbuckets := by
    refine h.invariant ?_ fun s a s' hs hc hn => ?_
    · rintro s rfl
      have hno : ∀ {x}, ¬ On (fun _ _ => []) x := fun ⟨_, _, hx⟩ => nomatch hx
      exact ⟨⟨fun _ _ => [], counted_empty, fun hx => (hno hx).elim, fun hx => (hno hx).elim, nofun,
        fun hx => (hno hx).elim⟩, fun l₁ r res l₂ he => by simp at he⟩
    · obtain ⟨t, res, he, -, ht⟩ := hs.next hc.1 hc.2
      rcases hn with hn | hn <;> rw [he] at hn <;> cases hn
      exact ht
  exact ⟨hi.2, fun a hl hk => by
    obtain ⟨t, res, he, hlog, -⟩ := hi.next hl hk
    exact ⟨t, res, he, hlog⟩⟩

section Runs

private def set7 : Request := ⟨cmdSet, 1, 8, [0, 0, 0, 0, 0, 0, 0, 0, 7, 9]⟩

private def get7 : Request := ⟨cmdGet, 1, 0, [7]⟩

private theorem step_of_toOption {s s' : Kvs} {a : Serve}
    (h : (a.next (fun _ => 5) 3 s).toOption = some s') : (kvs (fun _ => 5) 3).step s a s' := by
  rcases he : a.next (fun _ => 5) 3 s with e | t
  · rw [he] at h
    cases h
  · rw [he] at h
    exact .inl (he.trans (congrArg Except.ok (Option.some.inj h)))

/-- Two keys are set and read, one of them twice. -/
theorem responses_as_map_served : ∃ s : Kvs, AsMap s.log ∧ s.log.map Prod.snd =
    [⟨cmdSet, .success, []⟩, ⟨cmdSet, .success, []⟩, ⟨cmdGet, .success, [9]⟩,
      ⟨cmdSet, .success, []⟩, ⟨cmdGet, .success, [9]⟩, ⟨cmdGet, .keyEnoent, []⟩] := by
  obtain ⟨s, hs, hP⟩ := System.drive_reach (S := kvs (fun _ => 5) 3)
    (fun s a => (Serve.next (fun _ => 5) 3 s a).toOption)
    (fun s a => a.Legal s ∧ a.Kept (fun _ => 5) 3 s) (fun _ _ _ => step_of_toOption)
    (fun _ _ => id) rfl
    [⟨{}, set7, 40⟩, ⟨{}, ⟨cmdSet, 1, 8, [0, 0, 0, 0, 0, 0, 0, 0, 6]⟩, 80⟩, ⟨{}, get7, 120⟩,
      ⟨{}, ⟨cmdSet, 1, 8, [0, 0, 0, 0, 0, 0, 0, 0, 6]⟩, 120⟩, ⟨{}, get7, 120⟩,
      ⟨{}, ⟨cmdGet, 1, 0, [5]⟩, 120⟩]
    (fun s => s.log.map Prod.snd =
      [⟨cmdSet, .success, []⟩, ⟨cmdSet, .success, []⟩, ⟨cmdGet, .success, [9]⟩,
        ⟨cmdSet, .success, []⟩, ⟨cmdGet, .success, [9]⟩, ⟨cmdGet, .keyEnoent, []⟩])
    (by decide +kernel)
  exact ⟨s, (responses_as_map hs).1, of_decide_eq_true hP⟩

/-- A DELETE leaves the item in the table, and the next GET finds it. -/
theorem deleted_key_found : ∃ s : Kvs, (kvs (fun _ => 5) 3).Reach (fun s a => a.Legal s) s ∧
    ¬ AsMap s.log := by
  obtain ⟨s, hs, hP⟩ := System.drive_reach (S := kvs (fun _ => 5) 3)
    (fun s a => (Serve.next (fun _ => 5) 3 s a).toOption) (fun s a => a.Legal s)
    (fun _ _ _ => step_of_toOption) (fun _ _ => id) rfl
    [⟨{}, set7, 40⟩, ⟨{}, ⟨cmdDelete, 1, 0, [7]⟩, 80⟩, ⟨{}, get7, 80⟩]
    (fun s => s.log = [(set7, ⟨cmdSet, .success, []⟩),
      (⟨cmdDelete, 1, 0, [7]⟩, ⟨cmdDelete, .success, []⟩), (get7, ⟨cmdGet, .success, [9]⟩)])
    (by decide +kernel)
  refine ⟨s, hs, fun h => ?_⟩
  have hres := h [(set7, ⟨cmdSet, .success, []⟩),
    (⟨cmdDelete, 1, 0, [7]⟩, ⟨cmdDelete, .success, []⟩)] get7 ⟨cmdGet, .success, [9]⟩ []
    (of_decide_eq_true hP)
  exact absurd hres (by decide)

end Runs

end FlexKvs

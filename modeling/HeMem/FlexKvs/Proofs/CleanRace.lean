import HeMem.FlexKvs.CleanRace
import HeMem.FlexKvs.Proofs.References

/-!
# Cleaning loses nothing while it keeps apart from SET

`Content` says what the workers and the cleaner know of the items: a SET under way owns the value of
its key, and the copy agrees with the item it is made of where bytes have been copied.  It speaks of
items by their bodies alone, so steps that move references leave it as it is.
-/

namespace FlexKvs

open Function Hasht

/-- An item without its links and its count. -/
structure Body where
  hv : UInt32
  key : List UInt8
  value : List UInt8
  room : ℕ

def Hasht.body (s : Hasht) (x : ℕ) : Body :=
  ⟨(s.item x).hv, (s.item x).key, (s.item x).value, (s.item x).room⟩

theorem Hasht.body_eq {s t : Hasht} (h : ∀ x, (t.item x).Same (s.item x)) : t.body = s.body := by
  funext x
  obtain ⟨h1, h2, h3, h4⟩ := h x
  simp only [Hasht.body, h1, h2, h3, h4]

variable {jenkinsHash : List UInt8 → UInt32} {nbuckets : ℕ}

/-- What a worker in the phase knows. -/
def WorkOk (jenkinsHash : List UInt8 → UInt32) (B : ℕ → Body) (L : ℕ → Fin 5 → List ℕ) :
    WorkPhase → Prop
  | .make key _ => ∀ x, On L x → (B x).key ≠ key
  | .fields x key value => On L x ∧ (B x).key = key ∧ key.length + value.length ≤ (B x).room
  | .store x key value todo => On L x ∧ (B x).key = key ∧ (B x).value.length = value.length ∧
      ∀ i, i ∉ todo → (B x).value[i]? = value[i]?
  | .put x key value => ¬ On L x ∧ (B x).hv = jenkinsHash key ∧ (B x).key = key ∧
      (B x).value = value ∧ ∀ y, On L y → (B y).key ≠ key
  | .letGo x key value => On L x ∧ (B x).key = key ∧ (B x).value = value
  | _ => True

/-- `nit` has the key of `it`. -/
structure Copied (B : ℕ → Body) (L : ℕ → Fin 5 → List ℕ) (it nit : ℕ) : Prop where
  off : ¬ On L nit
  ne : nit ≠ it
  hv : (B nit).hv = (B it).hv
  key : (B nit).key = (B it).key

/-- What the cleaner in the phase knows. -/
def CleanOk (B : ℕ → Body) (L : ℕ → Fin 5 → List ℕ) : CleanPhase → Prop
  | .fields it nit => ¬ On L nit ∧ nit ≠ it ∧
      (B nit).room = (B it).key.length + (B it).value.length
  | .copy it nit => Copied B L it nit ∧ (B nit).value.length = (B it).value.length ∧
      (B nit).room = (B it).key.length + (B it).value.length
  | .bytes it nit todo => Copied B L it nit ∧ (B nit).value.length = (B it).value.length ∧
      ∀ i, i ∉ todo → (B nit).value[i]? = (B it).value[i]?
  | .put it nit => Copied B L it nit ∧ (B nit).value = (B it).value
  | _ => True

/-- The item that is not in the table yet. -/
def CleanPhase.owns : CleanPhase → Option ℕ
  | .fields _ nit | .copy _ nit | .bytes _ nit _ | .put _ nit => some nit
  | _ => none

def WorkPhase.owns : WorkPhase → Option ℕ
  | .put x _ _ => some x
  | _ => none

/-- A SET of the key is under way. -/
def Busy (ws : List WorkPhase) (key : List UInt8) : Prop := ∃ w ∈ ws, w.sets = some key

structure Content (jenkinsHash : List UInt8 → UInt32) (B : ℕ → Body) (L : ℕ → Fin 5 → List ℕ)
    (c : CleanPhase) (ws : List WorkPhase) (last : List UInt8 → Option (List UInt8)) : Prop where
  hv : ∀ {x}, On L x → (B x).hv = jenkinsHash (B x).key
  maps : ∀ {x}, On L x → ¬ Busy ws (B x).key → last (B x).key = some (B x).value
  found : ∀ {k v}, last k = some v → ∃ x, On L x ∧ (B x).key = k
  cleaner : CleanOk B L c
  work : ∀ w ∈ ws, WorkOk jenkinsHash B L w
  apart : ∀ {i j : ℕ} {w w' k}, ws[i]? = some w → ws[j]? = some w' → w.sets = some k →
    w'.sets = some k → i = j
  free : ∀ it ∈ c.copies, ¬ Busy ws (B it).key
  owned : ∀ x ∈ c.owns, ∀ w ∈ ws, w.owns ≠ some x

variable {B B' : ℕ → Body} {L L' : ℕ → Fin 5 → List ℕ} {c c' : CleanPhase} {ws : List WorkPhase}
  {last : List UInt8 → Option (List UInt8)} {w w' : WorkPhase} {x y it nit i : ℕ} {b : Body}
  {key value k : List UInt8}

section Phases

theorem WorkOk.key_eq (h : WorkOk jenkinsHash B L w) (hi : w.item = some x)
    (hs : w.sets = some k) : (B x).key = k := by
  cases w <;> cases hi <;> cases hs
  · exact h.2.1
  · exact h.2.1
  · exact h.2.2.1
  · exact h.2.1

/-- The item of a SET is in the table or its own. -/
theorem WorkOk.on_or (h : WorkOk jenkinsHash B L w) (hi : w.item = some x) (hs : w.sets ≠ none) :
    On L x ∨ w.owns = some x := by
  cases w <;> cases hi <;> first | exact absurd rfl hs | skip
  · exact .inl h.1
  · exact .inl h.1
  · exact .inr rfl
  · exact .inl h.1

theorem WorkOk.congr (h : WorkOk jenkinsHash B L w)
    (hi : ∀ x, w.item = some x → w.sets ≠ none → B' x = B x ∧ (On L' x ↔ On L x))
    (hk : ∀ y, On L' y → w.sets = some (B' y).key → ∃ z, On L z ∧ (B z).key = (B' y).key) :
    WorkOk jenkinsHash B' L' w := by
  cases w with
  | idle | look | answer | find => trivial
  | make key value =>
    intro y hy he
    obtain ⟨z, hz, hzk⟩ := hk y hy (by rw [he]; rfl)
    exact h z hz (hzk.trans he)
  | fields x key value =>
    obtain ⟨hb, hon⟩ := hi x rfl nofun
    simp only [WorkOk, hb, hon]
    exact h
  | store x key value todo =>
    obtain ⟨hb, hon⟩ := hi x rfl nofun
    simp only [WorkOk, hb, hon]
    exact h
  | put x key value =>
    obtain ⟨hb, hon⟩ := hi x rfl nofun
    simp only [WorkOk, hb, hon]
    refine ⟨h.1, h.2.1, h.2.2.1, h.2.2.2.1, fun y hy he => ?_⟩
    obtain ⟨z, hz, hzk⟩ := hk y hy (by rw [he]; rfl)
    exact h.2.2.2.2 z hz (hzk.trans he)
  | letGo x key value =>
    obtain ⟨hb, hon⟩ := hi x rfl nofun
    simp only [WorkOk, hb, hon]
    exact h

theorem CleanOk.off (h : CleanOk B L c) (ho : c.owns = some nit) : ¬ On L nit := by
  cases c <;> cases ho
  · exact h.1
  · exact h.1.off
  · exact h.1.off
  · exact h.1.off

theorem CleanOk.ne (h : CleanOk B L c) (ho : c.owns = some nit) (hc : c.copies = some it) :
    nit ≠ it := by
  cases c <;> cases ho <;> cases hc
  · exact h.2.1
  · exact h.1.ne
  · exact h.1.ne
  · exact h.1.ne

theorem CleanPhase.copies_mem (h : c.copies = some it) : it ∈ c.items := by
  cases c <;> cases h <;> simp [CleanPhase.items]

theorem CleanPhase.owns_mem (h : c.owns = some nit) : nit ∈ c.items := by
  cases c <;> cases h <;> simp [CleanPhase.items]

theorem WorkPhase.owns_item (h : w.owns = some x) : w.item = some x := by
  cases w <;> cases h
  rfl

theorem Copied.congr (h : Copied B L it nit) (hi : B' it = B it) (hn : B' nit = B nit)
    (hon : On L' nit → On L nit) : Copied B' L' it nit :=
  ⟨mt hon h.off, h.ne, by rw [hi, hn]; exact h.hv, by rw [hi, hn]; exact h.key⟩

theorem CleanOk.congr (h : CleanOk B L c) (hi : ∀ it, c.copies = some it → B' it = B it)
    (hn : ∀ nit, c.owns = some nit → B' nit = B nit ∧ (On L' nit → On L nit)) :
    CleanOk B' L' c := by
  cases c with
  | idle | check | alloc | unrefNew | unrefOld => trivial
  | fields it nit =>
    obtain ⟨hb, hon⟩ := hn nit rfl
    simp only [CleanOk, hb, hi it rfl]
    exact ⟨mt hon h.1, h.2⟩
  | copy it nit =>
    obtain ⟨hb, hon⟩ := hn nit rfl
    have hcop := h.1.congr (hi it rfl) hb hon
    simp only [CleanOk, hb, hi it rfl]
    exact ⟨hcop, h.2⟩
  | bytes it nit todo =>
    obtain ⟨hb, hon⟩ := hn nit rfl
    have hcop := h.1.congr (hi it rfl) hb hon
    simp only [CleanOk, hb, hi it rfl]
    exact ⟨hcop, h.2⟩
  | put it nit =>
    obtain ⟨hb, hon⟩ := hn nit rfl
    have hcop := h.1.congr (hi it rfl) hb hon
    simp only [CleanOk, hb, hi it rfl]
    exact ⟨hcop, h.2⟩

end Phases

theorem busy_congr (h : ws[i]? = some w) (hs : w'.sets = w.sets) :
    Busy (ws.set i w') k ↔ Busy ws k := by
  unfold Busy
  constructor
  · rintro ⟨v, hv, hk⟩
    rcases List.mem_or_eq_of_mem_set hv with hv | rfl
    · exact ⟨v, hv, hk⟩
    · exact ⟨w, List.mem_of_getElem? h, hs ▸ hk⟩
  · rintro ⟨v, hv, hk⟩
    obtain ⟨j, hj⟩ := List.mem_iff_getElem?.1 hv
    by_cases hji : j = i
    · subst hji
      rw [h] at hj
      cases hj
      exact ⟨w', List.mem_set (List.getElem?_eq_some_iff.1 h).1 w', hs ▸ hk⟩
    · refine ⟨v, ?_, hk⟩
      rw [List.mem_iff_getElem?]
      exact ⟨j, by rw [List.getElem?_set_ne (Ne.symm hji)]; exact hj⟩

/-- The worker at a place after a step of the worker at `i`. -/
theorem get_set {j : ℕ} {v : WorkPhase} (h : (ws.set i w')[j]? = some v) :
    j = i ∧ v = w' ∨ j ≠ i ∧ ws[j]? = some v := by
  by_cases hji : j = i
  · subst hji
    rw [List.getElem?_set_self', Option.map_eq_map] at h
    obtain ⟨_, -, hv⟩ := Option.map_eq_some_iff.1 h
    exact .inl ⟨rfl, hv.symm⟩
  · rw [List.getElem?_set_ne (Ne.symm hji)] at h
    exact .inr ⟨hji, h⟩

/-- A SET under way after the step was under way before it. -/
theorem set_back (hw : ws[i]? = some w) (hs : w'.sets = w.sets) {j : ℕ} {v : WorkPhase}
    (hv : (ws.set i w')[j]? = some v) (hk : v.sets = some k) :
    ∃ u : WorkPhase, ws[j]? = some u ∧ u.sets = some k := by
  rcases get_set hv with ⟨rfl, rfl⟩ | ⟨-, hv⟩
  · exact ⟨w, hw, hs ▸ hk⟩
  · exact ⟨v, hv, hk⟩

namespace Content

variable (h : Content jenkinsHash B L c ws last)
include h

/-- A step of a worker that does not change which SETs are under way, and writes at most to the
stored item of its own key. -/
theorem worker (hw : ws[i]? = some w) (hk : ∀ y, (B' y).hv = (B y).hv ∧ (B' y).key = (B y).key)
    (hb : ∀ y, B' y = B y ∨ On L y ∧ w.sets = some (B y).key) (hok : WorkOk jenkinsHash B' L w')
    (hs : w'.sets = w.sets) (ho : ∀ x ∈ w'.owns, c.owns ≠ some x) :
    Content jenkinsHash B' L c (ws.set i w') last where
  hv {y} hy := by
    rw [(hk y).1, (hk y).2]
    exact h.hv hy
  maps {y} hy hbusy := by
    rw [(hk y).2] at hbusy ⊢
    rw [busy_congr hw hs] at hbusy
    rcases hb y with he | ⟨-, hset⟩
    · rw [he]
      exact h.maps hy hbusy
    · exact absurd ⟨w, List.mem_of_getElem? hw, hset⟩ hbusy
  found hv := by
    obtain ⟨y, hy, hyk⟩ := h.found hv
    exact ⟨y, hy, (hk y).2.trans hyk⟩
  cleaner := by
    refine h.cleaner.congr (fun it hit => (hb it).resolve_right fun hset => ?_) fun nit hnit =>
      ⟨(hb nit).resolve_right fun hset => h.cleaner.off hnit hset.1, id⟩
    exact h.free it hit ⟨w, List.mem_of_getElem? hw, hset.2⟩
  work v hv := by
    obtain ⟨j, hj⟩ := List.mem_iff_getElem?.1 hv
    rcases get_set hj with ⟨-, rfl⟩ | ⟨hji, hj⟩
    · exact hok
    · have hvok := h.work v (List.mem_of_getElem? hj)
      refine hvok.congr (fun x hx hsets => ⟨(hb x).resolve_right fun hset => hji ?_, Iff.rfl⟩)
        fun y hy _ => ⟨y, hy, (hk y).2.symm⟩
      obtain ⟨key, hkey⟩ := Option.ne_none_iff_exists'.1 hsets
      refine h.apart hj hw hkey ?_
      rw [hset.2, hvok.key_eq hx hkey]
  apart := by
    intro j k v v' key hv hv' hk hk'
    obtain ⟨u, hu, hk⟩ := set_back hw hs hv hk
    obtain ⟨u', hu', hk'⟩ := set_back hw hs hv' hk'
    exact h.apart hu hu' hk hk'
  free it hit hbusy := by
    rw [(hk it).2, busy_congr hw hs] at hbusy
    exact h.free it hit hbusy
  owned x hx v hv := by
    rcases List.mem_or_eq_of_mem_set hv with hv | rfl
    · exact h.owned x hx v hv
    · exact fun hvo => ho x hvo hx

theorem setWorker (hw : ws[i]? = some w) (hok : WorkOk jenkinsHash B L w')
    (hs : w'.sets = w.sets) (ho : ∀ x ∈ w'.owns, c.owns ≠ some x) :
    Content jenkinsHash B L c (ws.set i w') last :=
  h.worker hw (fun _ => ⟨rfl, rfl⟩) (fun _ => .inl rfl) hok hs ho

/-- A SET has looked its key up. -/
theorem begin (hw : ws[i]? = some w) (hs : w.sets = none) (hs' : w'.sets = some key)
    (ho : w'.owns = none) (hok : WorkOk jenkinsHash B L w') (hfree : ¬ Busy ws key)
    (hc : ∀ it ∈ c.copies, (B it).key ≠ key) : Content jenkinsHash B L c (ws.set i w') last where
  hv := h.hv
  maps hx hb := by
    refine h.maps hx fun ⟨v, hv, hk⟩ => hb ?_
    obtain ⟨j, hj⟩ := List.mem_iff_getElem?.1 hv
    have hji : j ≠ i := by
      rintro rfl
      rw [hw] at hj
      cases hj
      rw [hs] at hk
      cases hk
    exact ⟨v, List.mem_iff_getElem?.2 ⟨j, by rw [List.getElem?_set_ne hji.symm]; exact hj⟩, hk⟩
  found := h.found
  cleaner := h.cleaner
  work v hv := by
    rcases List.mem_or_eq_of_mem_set hv with hv | rfl
    · exact h.work v hv
    · exact hok
  apart := by
    intro j k v v' key' hv hv' hk hk'
    rcases get_set hv with ⟨hj, he⟩ | ⟨-, hu⟩ <;> rcases get_set hv' with ⟨hj', he'⟩ | ⟨-, hu'⟩
    · rw [hj, hj']
    · rw [he, hs'] at hk
      cases hk
      exact absurd ⟨v', List.mem_of_getElem? hu', hk'⟩ hfree
    · rw [he', hs'] at hk'
      cases hk'
      exact absurd ⟨v, List.mem_of_getElem? hu, hk⟩ hfree
    · exact h.apart hu hu' hk hk'
  free it hit := by
    rintro ⟨v, hv, hk⟩
    rcases List.mem_or_eq_of_mem_set hv with hv | rfl
    · exact h.free it hit ⟨v, hv, hk⟩
    · rw [hs'] at hk
      exact hc it hit (Option.some.inj hk).symm
  owned x hx v hv := by
    rcases List.mem_or_eq_of_mem_set hv with hv | rfl
    · exact h.owned x hx v hv
    · rw [ho]
      exact nofun

/-- A SET is over. -/
theorem complete (hw : ws[i]? = some (.letGo x key value))
    (hu : ∀ {x y}, On L x → On L y → (B x).key = (B y).key → x = y) :
    Content jenkinsHash B L c (ws.set i .idle) (update last key (some value)) where
  hv := h.hv
  maps {y} hy hb := by
    obtain ⟨hon, hkey, hval⟩ := h.work _ (List.mem_of_getElem? hw)
    by_cases hk : (B y).key = key
    · have hyx : y = x := hu hy hon (hk.trans hkey.symm)
      rw [hyx, hkey, update_self, hval]
    · rw [update_of_ne hk]
      refine h.maps hy fun ⟨v, hv, hvk⟩ => hb ?_
      obtain ⟨j, hj⟩ := List.mem_iff_getElem?.1 hv
      have hji : j ≠ i := by
        rintro rfl
        rw [hw] at hj
        cases hj
        exact hk (Option.some.inj hvk).symm
      exact ⟨v, List.mem_iff_getElem?.2 ⟨j, by rw [List.getElem?_set_ne hji.symm]; exact hj⟩, hvk⟩
  found {k v} hk := by
    obtain ⟨hon, hkey, hval⟩ := h.work _ (List.mem_of_getElem? hw)
    by_cases hkk : k = key
    · exact ⟨x, hon, hkey.trans hkk.symm⟩
    · rw [update_of_ne hkk] at hk
      exact h.found hk
  cleaner := h.cleaner
  work v hv := by
    rcases List.mem_or_eq_of_mem_set hv with hv | rfl
    · exact h.work v hv
    · trivial
  apart := by
    intro j k v v' key' hv hv' hk hk'
    rcases get_set hv with ⟨rfl, rfl⟩ | ⟨-, hv⟩
    · cases hk
    · rcases get_set hv' with ⟨rfl, rfl⟩ | ⟨-, hv'⟩
      · cases hk'
      · exact h.apart hv hv' hk hk'
  free it hit := by
    rintro ⟨v, hv, hk⟩
    rcases List.mem_or_eq_of_mem_set hv with hv | rfl
    · exact h.free it hit ⟨v, hv, hk⟩
    · cases hk
  owned x hx v hv := by
    rcases List.mem_or_eq_of_mem_set hv with hv | rfl
    · exact h.owned x hx v hv
    · exact nofun

/-- A SET has put its item in the table. -/
theorem add (hw : ws[i]? = some (.put x key value)) (hon : ∀ y, On L' y ↔ y = x ∨ On L y) :
    Content jenkinsHash B L' c (ws.set i (.letGo x key value)) last := by
  have hmem := List.mem_of_getElem? hw
  obtain ⟨-, hhv, hkey, hval, -⟩ := h.work _ hmem
  have hbusy : ∀ k, Busy (ws.set i (.letGo x key value)) k ↔ Busy ws k := fun _ =>
    busy_congr hw rfl
  refine ⟨fun {y} hy => ?_, fun {y} hy hb => ?_, fun hv => ?_, ?_, fun v hv => ?_, ?_, ?_, ?_⟩
  · rcases (hon y).1 hy with rfl | hy
    · rw [hhv, hkey]
    · exact h.hv hy
  · rw [hbusy] at hb
    rcases (hon y).1 hy with rfl | hy
    · exact absurd ⟨_, hmem, by rw [hkey]; rfl⟩ hb
    · exact h.maps hy hb
  · obtain ⟨y, hy, hyk⟩ := h.found hv
    exact ⟨y, (hon y).2 (.inr hy), hyk⟩
  · refine h.cleaner.congr (fun _ _ => rfl) fun nit hnit => ⟨rfl, fun hn => ?_⟩
    refine ((hon nit).1 hn).resolve_left ?_
    rintro rfl
    exact h.owned nit hnit _ hmem rfl
  · obtain ⟨j, hj⟩ := List.mem_iff_getElem?.1 hv
    rcases get_set hj with ⟨-, rfl⟩ | ⟨hji, hj⟩
    · exact ⟨(hon x).2 (.inl rfl), hkey, hval⟩
    · have hvok := h.work v (List.mem_of_getElem? hj)
      have hother : v.sets ≠ some key := fun hk => hji (h.apart hj hw hk rfl)
      refine hvok.congr (fun y hy hsets => ⟨rfl, ?_⟩) fun y hy hk => ?_
      · rw [hon]
        refine or_iff_right ?_
        rintro rfl
        obtain ⟨k, hk⟩ := Option.ne_none_iff_exists'.1 hsets
        exact hother (hk.trans (by rw [← hvok.key_eq hy hk, hkey]))
      · rcases (hon y).1 hy with rfl | hy
        · exact absurd (hk.trans (by rw [hkey])) hother
        · exact ⟨y, hy, rfl⟩
  · intro j k v v' key' hv hv' hk hk'
    have hs : (WorkPhase.letGo x key value).sets = (WorkPhase.put x key value).sets := rfl
    obtain ⟨u, hu, hk⟩ := set_back hw hs hv hk
    obtain ⟨u', hu', hk'⟩ := set_back hw hs hv' hk'
    exact h.apart hu hu' hk hk'
  · intro it hit hb
    rw [hbusy] at hb
    exact h.free it hit hb
  · intro y hy v hv
    rcases List.mem_or_eq_of_mem_set hv with hv | rfl
    · exact h.owned y hy v hv
    · exact nofun

/-- The cleaner has put its copy in the place of the item. -/
theorem swap (hc : c = .put it nit) (hit : On L it)
    (hon : ∀ y, On L' y ↔ y = nit ∨ On L y ∧ y ≠ it) :
    Content jenkinsHash B L' (.unrefNew it nit) ws last := by
  subst hc
  obtain ⟨hcop, hval⟩ := h.cleaner
  have hfree : ¬ Busy ws (B it).key := h.free it rfl
  refine ⟨fun {y} hy => ?_, fun {y} hy hb => ?_, fun {k v} hv => ?_, trivial, fun v hv => ?_, h.apart,
    nofun, nofun⟩
  · rcases (hon y).1 hy with rfl | ⟨hy, -⟩
    · rw [hcop.hv, hcop.key]
      exact h.hv hit
    · exact h.hv hy
  · rcases (hon y).1 hy with rfl | ⟨hy, -⟩
    · rw [hcop.key, hval]
      exact h.maps hit hfree
    · exact h.maps hy hb
  · obtain ⟨y, hy, hyk⟩ := h.found hv
    by_cases hyi : y = it
    · exact ⟨nit, (hon nit).2 (.inl rfl), hcop.key.trans (hyi ▸ hyk)⟩
    · exact ⟨y, (hon y).2 (.inr ⟨hy, hyi⟩), hyk⟩
  · have hvok := h.work v hv
    refine hvok.congr (fun y hy hsets => ⟨rfl, ?_⟩) fun y hy hk => ?_
    · rw [hon]
      constructor
      · rintro (rfl | hy')
        · rcases hvok.on_or hy hsets with hy' | ho
          · exact hy'
          · exact absurd ho (h.owned y rfl v hv)
        · exact hy'.1
      · intro hy'
        refine .inr ⟨hy', ?_⟩
        rintro rfl
        obtain ⟨k, hk⟩ := Option.ne_none_iff_exists'.1 hsets
        exact hfree ⟨v, hv, by rw [hk, hvok.key_eq hy hk]⟩
    · rcases (hon y).1 hy with rfl | ⟨hy, -⟩
      · exact ⟨it, hit, hcop.key.symm⟩
      · exact ⟨y, hy, rfl⟩

/-- A step of the cleaner, which writes at most to an item that is nobody's. -/
theorem clean (hoff : ∀ y, B' y ≠ B y → ¬ On L y)
    (hwork : ∀ y, B' y ≠ B y → ∀ v ∈ ws, v.sets ≠ none → v.item ≠ some y)
    (hok : CleanOk B' L c') (hfree : ∀ it ∈ c'.copies, ¬ Busy ws (B' it).key)
    (howned : ∀ x ∈ c'.owns, ∀ v ∈ ws, v.owns ≠ some x) :
    Content jenkinsHash B' L c' ws last := by
  have hon : ∀ {y}, On L y → B' y = B y := fun hy => not_not.1 fun hn => hoff _ hn hy
  refine ⟨fun {y} hy => ?_, fun {y} hy hb => ?_, fun hv => ?_, hok, fun v hv => ?_, h.apart, hfree,
    howned⟩
  · rw [hon hy]
    exact h.hv hy
  · rw [hon hy] at hb ⊢
    exact h.maps hy hb
  · obtain ⟨y, hy, hyk⟩ := h.found hv
    exact ⟨y, hy, by rw [hon hy, hyk]⟩
  · exact (h.work v hv).congr
      (fun x hx hsets => ⟨not_not.1 fun hn => hwork x hn v hv hsets hx, Iff.rfl⟩)
      fun y hy _ => ⟨y, hy, by rw [hon hy]⟩

/-- A SET has got a new item. -/
theorem make {room : ℕ} (hw : ws[i]? = some (.make key value)) (hoff : ¬ On L x)
    (hitem : ∀ v ∈ ws, v.item ≠ some x) (hc : x ∉ c.items) :
    Content jenkinsHash (update B x ⟨jenkinsHash key, key, value, room⟩) L c
      (ws.set i (.put x key value)) last := by
  have hne : ∀ {y}, y ≠ x → update B x ⟨jenkinsHash key, key, value, room⟩ y = B y :=
    fun hy => update_of_ne hy ..
  have hself : ∀ {y}, update B x ⟨jenkinsHash key, key, value, room⟩ y ≠ B y → y = x :=
    fun hy => not_not.1 fun hn => hy (hne hn)
  have hcopies : ∀ {it}, c.copies = some it → it ≠ x := fun hit hx =>
    hc (hx ▸ CleanPhase.copies_mem hit)
  have hclean : Content jenkinsHash (update B x ⟨jenkinsHash key, key, value, room⟩) L c ws last := by
    refine h.clean (fun y hy => hself hy ▸ hoff) (fun y hy v hv _ => hself hy ▸ hitem v hv)
      (h.cleaner.congr (fun it hit => hne (hcopies hit)) fun nit hnit => ⟨hne ?_, id⟩)
      (fun it hit => ?_) h.owned
    · rintro rfl
      exact hc (CleanPhase.owns_mem hnit)
    · rw [hne (hcopies hit)]
      exact h.free it hit
  refine hclean.setWorker hw ⟨hoff, ?_, ?_, ?_, fun y hy => ?_⟩ rfl ?_
  · rw [update_self]
  · rw [update_self]
  · rw [update_self]
  · rw [hne fun hyx => hoff (hyx ▸ hy)]
    exact h.work _ (List.mem_of_getElem? hw) y hy
  · intro y hy hco
    cases hy
    exact hc (CleanPhase.owns_mem hco)

end Content

section References

variable {q : List ℕ} {s t : Hasht} {o : ℕ → ℕ}

/-- The references beside the table's. -/
def others (c : CleanPhase) (ws : List WorkPhase) (q : List ℕ) (x : ℕ) : ℕ :=
  c.items.count x + ws.countP (fun w => w.item = some x) + q.count x

/-- Those that are not the worker's at `i`. -/
def rest (c : CleanPhase) (ws : List WorkPhase) (q : List ℕ) (i : ℕ) (x : ℕ) : ℕ :=
  c.items.count x + (ws.eraseIdx i).countP (fun w => w.item = some x) + q.count x

def plus (o : ℕ → ℕ) : Option ℕ → ℕ → ℕ
  | some x => more o x
  | none => o

theorem plus_apply (p : Option ℕ) : plus o p x = o x + if p = some x then 1 else 0 := by
  cases p with
  | none => simp [plus]
  | some y => simp [plus, more, @eq_comm _ x y]

theorem others_at (h : ws[i]? = some w) : others c ws q = plus (rest c ws q i) w.item := by
  funext x
  rw [plus_apply, others, rest, countP_eq h]
  simp only [decide_eq_true_eq]
  omega

theorem others_put (h : ws[i]? = some w) :
    others c (ws.set i w') q = plus (rest c ws q i) w'.item := by
  funext x
  rw [plus_apply, others, rest, countP_set h]
  simp only [decide_eq_true_eq]
  omega

theorem unheld (h : others c ws q x = 0) : x ∉ c.items ∧ ∀ v ∈ ws, v.item ≠ some x := by
  unfold others at h
  refine ⟨fun hx => ?_, fun v hv hvx => ?_⟩
  · have := List.count_pos_iff.2 hx
    omega
  · have : 0 < ws.countP fun w => w.item = some x :=
      List.countP_pos_iff.2 ⟨v, hv, by simpa using hvx⟩
    omega

theorem Hasht.Counted.setByte (h : Counted nbuckets s L o) (j : ℕ) (b : UInt8) :
    Counted nbuckets (s.setByte x j b) L o := by
  have hsame : ∀ y, ((s.setByte x j b).item y).next = (s.item y).next ∧
      ((s.setByte x j b).item y).hv = (s.item y).hv ∧
      ((s.setByte x j b).item y).key = (s.item y).key ∧
      ((s.setByte x j b).item y).refcount = (s.item y).refcount := fun y => by
    by_cases hy : y = x
    · subst hy
      simp [Hasht.setByte]
    · simp [Hasht.setByte, hy]
  refine ⟨h.wf.congr rfl (fun y _ => ⟨(hsame y).1, (hsame y).2.1, (hsame y).2.2.1⟩)
    fun y hy => h.wf.live hy, fun y => ?_, fun y => ?_, h.nodup⟩
  · rw [(hsame y).2.2.2]
    exact h.refs y
  · rw [(hsame y).2.2.2]
    exact h.mem y

theorem body_itemRef : (s.itemRef x).body = s.body := body_eq fun _ => itemRef_same

theorem body_unref : (s.unref x).body = s.body := body_eq fun _ => same_unref

theorem body_fill {hv : UInt32} : (s.fill x hv key value).body =
    update s.body x ⟨hv, key, value, (s.body x).room⟩ := by
  funext y
  by_cases hy : y = x
  · subst hy
    simp [Hasht.body, Hasht.fill]
  · simp [Hasht.body, Hasht.fill, hy]

theorem body_allocated {room : ℕ} : (s.allocated x room).body =
    update s.body x { s.body x with room } := by
  funext y
  by_cases hy : y = x
  · subst hy
    simp [Hasht.body, Hasht.allocated]
  · simp [Hasht.body, Hasht.allocated, hy]

theorem body_setByte {j : ℕ} {v : UInt8} : (s.setByte x j v).body =
    update s.body x { s.body x with value := (s.body x).value.set j v } := by
  funext y
  by_cases hy : y = x
  · subst hy
    simp [Hasht.body, Hasht.setByte]
  · simp [Hasht.body, Hasht.setByte, hy]

end References

/-- A byte more of the value is where it belongs. -/
theorem byte_copied {l r : List UInt8} {todo : List ℕ} {j b a : ℕ} {v : UInt8}
    (hlen : l.length = r.length) (h : ∀ a, a ∉ todo → l[a]? = r[a]?) (hj : todo[j]? = some b)
    (ha : a ∉ todo.eraseIdx j) : (l.set b (r.getD b v))[a]? = r[a]? := by
  by_cases hab : a = b
  · subst hab
    by_cases hlt : a < r.length
    · rw [List.getElem?_set_self (hlen ▸ hlt), List.getD_eq_getElem?_getD,
        List.getElem?_eq_getElem hlt, Option.getD_some]
    · rw [List.getElem?_eq_none (by simp; omega), List.getElem?_eq_none (by omega)]
  · rw [List.getElem?_set_ne (Ne.symm hab)]
    refine h a fun hat => ha ?_
    obtain ⟨k, hk⟩ := List.mem_iff_getElem?.1 hat
    have hkj : k ≠ j := by
      rintro rfl
      exact hab (Option.some.inj (hk.symm.trans hj))
    rw [List.mem_eraseIdx_iff_getElem?]
    exact ⟨k, hkj, hk⟩

section Steps

variable {s s' : CleanRace} {t : Hasht} {q : List ℕ} {fresh : Option ℕ} {junk : ℕ → UInt8}

/-- The references add up, and everybody knows what it should. -/
structure CleanRace.Inv (jenkinsHash : List UInt8 → UInt32) (nbuckets : ℕ) (s : CleanRace)
    (L : ℕ → Fin 5 → List ℕ) : Prop where
  counted : Counted nbuckets s.table L (others s.cleaner s.workers s.queue)
  content : Content jenkinsHash s.table.body L s.cleaner s.workers s.last

/-- A call has not returned, or the invariant holds after it. -/
def Holds (jenkinsHash : List UInt8 → UInt32) (nbuckets : ℕ) (r : Except Fault CleanRace) : Prop :=
  r = .error .abort ∨ ∃ s' L, r = .ok s' ∧ s'.Inv jenkinsHash nbuckets L

theorem CleanRace.Inv.holds (h : s.Inv jenkinsHash nbuckets L) :
    Holds jenkinsHash nbuckets (.ok s) := .inr ⟨s, L, rfl, h⟩

namespace CleanRace.Inv

/-- A worker has taken a step. -/
theorem put (hw : s.workers[i]? = some w) (w' : WorkPhase)
    (ht : Counted nbuckets t L' (plus (rest s.cleaner s.workers s.queue i) w'.item))
    (hc : Content jenkinsHash t.body L' s.cleaner (s.workers.set i w') last) :
    Holds jenkinsHash nbuckets (.ok ({ s with table := t, last }.setWorker i w')) :=
  .inr ⟨_, L', rfl, (others_put (q := s.queue) (c := s.cleaner) hw).symm ▸ ht, hc⟩

/-- The cleaner has taken a step. -/
theorem cleaned (L' : ℕ → Fin 5 → List ℕ)
    (ht : Counted nbuckets t L' (others c' s.workers s.queue))
    (hc : Content jenkinsHash t.body L' c' s.workers s.last) :
    Holds jenkinsHash nbuckets (.ok { s with table := t, cleaner := c' }) :=
  .inr ⟨_, L', rfl, ht, hc⟩

theorem others_cons (c c' : CleanPhase) {l : List ℕ} {ws : List WorkPhase} (hc : c.items = x :: l)
    (hc' : c'.items = l) :
    others c ws q = more (others c' ws q) x := by
  funext y
  simp only [others, more, hc, hc', List.count_cons, beq_iff_eq, @eq_comm _ x y]
  omega

theorem others_items {ws : List WorkPhase} (hc : c'.items = c.items) :
    others c' ws q = others c ws q := by
  funext y
  simp only [others, hc]

variable (h : s.Inv jenkinsHash nbuckets L)
include h

theorem unique (hx : On L x) (hy : On L y) (hk : (s.table.body x).key = (s.table.body y).key) :
    x = y :=
  h.counted.wf.unique hx hy (((h.content.hv hx).trans (by rw [hk])).trans (h.content.hv hy).symm) hk

/-- What `hasht_get` finds. -/
theorem find (key : List UInt8) :
    ∃ r, s.table.find key (jenkinsHash key) nbuckets = .ok r ∧
      ∀ x, r = some x ↔ On L x ∧ (s.table.body x).key = key := by
  obtain ⟨r, hr, hfind⟩ := h.counted.wf.find_spec key (jenkinsHash key)
  refine ⟨r, hr, fun x => (hfind x).trans (and_congr_right fun hx => ?_)⟩
  exact ⟨fun hm => hm.2, fun hk => ⟨(h.content.hv hx).trans (congrArg _ hk), hk⟩⟩

theorem get (hc : ∀ x ∈ s.table.live, (s.table.item x).refcount ≠ 65535)
    (hw : s.workers[i]? = some w) (hi : w.item = none) (key : List UInt8) :
    (∀ y, On L y → (s.table.body y).key ≠ key) ∧
      s.table.hashtGet key (jenkinsHash key) nbuckets = .ok (none, s.table) ∧
      Counted nbuckets s.table L (rest s.cleaner s.workers s.queue i) ∨
    ∃ x, s.table.find key (jenkinsHash key) nbuckets = .ok (some x) ∧ On L x ∧
      (s.table.body x).key = key ∧
      s.table.hashtGet key (jenkinsHash key) nbuckets = .ok (some x, s.table.itemRef x) ∧
      Counted nbuckets (s.table.itemRef x) L (more (rest s.cleaner s.workers s.queue i) x) := by
  have hcount := h.counted
  rw [others_at hw, hi] at hcount
  rcases hcount.hashtGet hc key (jenkinsHash key) with ⟨hf, hg⟩ | ⟨x, hf, hx, hm, hg, hr⟩
  · refine .inl ⟨fun y hy hk => ?_, hg, hcount⟩
    obtain ⟨r, hr, hfind⟩ := h.find key
    rw [Except.ok.inj (hr.symm.trans hf)] at hfind
    exact nomatch (hfind y).2 ⟨hy, hk⟩
  · exact .inr ⟨x, hf, hx, hm.2, hg, hr⟩

/-- The reference of a worker is dropped. -/
theorem drop (hw : s.workers[i]? = some w) (hi : w.item = some x) :
    s.table.itemUnref x = .ok (s.table.unref x) ∧
      Counted nbuckets (s.table.unref x) L (rest s.cleaner s.workers s.queue i) := by
  have hcount := h.counted
  rw [others_at hw, hi] at hcount
  exact hcount.unref

theorem look (hc : ∀ x ∈ s.table.live, (s.table.item x).refcount ≠ 65535)
    (hw : s.workers[i]? = some (.look key)) :
    Holds jenkinsHash nbuckets (s.workStep jenkinsHash nbuckets i fresh junk (.look key)) := by
  unfold workStep
  rcases h.get hc hw rfl key with ⟨-, hg, hr⟩ | ⟨x, -, -, -, hg, hr⟩
  · simp only [hg, ok_bind]
    exact put hw .idle hr (h.content.setWorker hw trivial rfl nofun)
  · simp only [hg, ok_bind]
    refine put hw (.answer x) hr ?_
    rw [body_itemRef]
    exact h.content.setWorker hw trivial rfl nofun

theorem lookup (hc : ∀ x ∈ s.table.live, (s.table.item x).refcount ≠ 65535)
    (hw : s.workers[i]? = some (.find key value))
    (hcopy : ∀ it ∈ s.cleaner.copies, (s.table.item it).key ≠ key)
    (hsets : ∀ w ∈ s.workers, w.sets ≠ some key)
    (hroom : ∀ x, s.table.find key (jenkinsHash key) nbuckets = .ok (some x) →
      key.length + value.length ≤ (s.table.item x).room) :
    Holds jenkinsHash nbuckets (s.workStep jenkinsHash nbuckets i fresh junk (.find key value)) := by
  unfold workStep
  have hfree : ¬ Busy s.workers key := fun ⟨w, hw, hk⟩ => hsets w hw hk
  rcases h.get hc hw rfl key with ⟨hno, hg, hr⟩ | ⟨x, hf, hx, hk, hg, hr⟩
  · simp only [hg, ok_bind]
    exact put hw (.make key value) hr (h.content.begin hw rfl rfl rfl hno hfree hcopy)
  · simp only [hg, ok_bind]
    refine put hw (.fields x key value) hr ?_
    rw [body_itemRef]
    exact h.content.begin hw rfl rfl rfl ⟨hx, hk, hroom x hf⟩ hfree hcopy

theorem make (hw : s.workers[i]? = some (.make key value)) (hl : ∀ x ∈ fresh, x ∉ s.table.live) :
    Holds jenkinsHash nbuckets (s.workStep jenkinsHash nbuckets i fresh junk (.make key value)) := by
  rcases fresh with _ | x
  · exact .inl rfl
  have hx := hl x rfl
  obtain ⟨hoff, ho⟩ := h.counted.off hx
  obtain ⟨hcl, hit⟩ := unheld ho
  have hcount := h.counted
  rw [others_at hw] at hcount
  refine put hw (.put x key value) ((hcount.allocated hx).fill fun hon => absurd hon hoff) ?_
  rw [body_fill, body_allocated, update_self, update_idem]
  exact h.content.make hw hoff hit hcl

theorem answer (hw : s.workers[i]? = some (.answer x)) :
    Holds jenkinsHash nbuckets (s.workStep jenkinsHash nbuckets i fresh junk (.answer x)) := by
  obtain ⟨hu, ht⟩ := h.drop hw rfl
  simp only [workStep, hu, ok_bind]
  refine put hw .idle ht ?_
  rw [body_unref]
  exact h.content.setWorker hw trivial rfl nofun

theorem fields (hw : s.workers[i]? = some (.fields x key value)) :
    Holds jenkinsHash nbuckets (s.workStep jenkinsHash nbuckets i fresh junk (.fields x key value)) := by
  obtain ⟨hx, hk, hroom⟩ := h.content.work _ (List.mem_of_getElem? hw)
  have hlen : (resize (s.table.item x).value value.length junk).length = value.length := by
    simp [resize]
  have hr : s.table.rewrite x (jenkinsHash key) key (resize (s.table.item x).value value.length junk) =
      .ok (s.table.fill x (jenkinsHash key) key
        (resize (s.table.item x).value value.length junk)) := by
    refine if_pos ?_
    rw [hlen]
    exact hroom
  have hhv : (s.table.item x).hv = jenkinsHash key := (h.content.hv hx).trans (congrArg _ hk)
  have hcount := h.counted
  rw [others_at hw] at hcount
  simp only [workStep, hr, ok_bind]
  refine put hw (.store x key value (List.range value.length)) (hcount.fill fun _ => ⟨hhv, hk⟩) ?_
  rw [body_fill]
  refine h.content.worker hw (fun y => ?_) (fun y => ?_) ⟨hx, ?_, ?_, fun j hj => ?_⟩ rfl nofun
  · by_cases hy : y = x
    · subst hy
      rw [update_self]
      exact ⟨hhv.symm, hk.symm⟩
    · rw [update_of_ne hy]
      exact ⟨rfl, rfl⟩
  · by_cases hy : y = x
    · subst hy
      exact .inr ⟨hx, congrArg some hk.symm⟩
    · exact .inl (update_of_ne hy ..)
  · rw [update_self]
  · rw [update_self]
    exact hlen
  · rw [update_self]
    rw [List.mem_range, not_lt] at hj
    rw [List.getElem?_eq_none (hlen.trans_le hj), List.getElem?_eq_none hj]

theorem stored {todo : List ℕ} (hw : s.workers[i]? = some (.store x key value todo)) :
    Holds jenkinsHash nbuckets
      (s.workStep jenkinsHash nbuckets i fresh junk (.store x key value todo)) := by
  by_cases hnil : todo = []
  · subst hnil
    simp only [workStep, if_true]
    obtain ⟨hx, hk, hlen, hbytes⟩ := h.content.work _ (List.mem_of_getElem? hw)
    have hcount := h.counted
    rw [others_at hw] at hcount
    refine put hw (.letGo x key value) hcount (h.content.setWorker hw ⟨hx, hk, ?_⟩ rfl nofun)
    exact List.ext_getElem? fun j => hbytes j (by simp)
  · simp only [workStep, hnil, if_false]
    exact h.holds

theorem storeByte {todo : List ℕ} {j b : ℕ} (hw : s.workers[i]? = some (.store x key value todo))
    (hj : todo[j]? = some b) :
    Holds jenkinsHash nbuckets (.ok ({ s with
      table := s.table.setByte x b (value.getD b 0) }.setWorker i
        (.store x key value (todo.eraseIdx j)))) := by
  obtain ⟨hx, hk, hlen, hbytes⟩ := h.content.work _ (List.mem_of_getElem? hw)
  have hcount := h.counted
  rw [others_at hw] at hcount
  refine put hw (.store x key value (todo.eraseIdx j)) (hcount.setByte b _) ?_
  rw [body_setByte]
  refine h.content.worker hw (fun y => ?_) (fun y => ?_) ⟨hx, ?_, ?_, fun a ha => ?_⟩ rfl nofun
  · by_cases hy : y = x
    · subst hy
      rw [update_self]
      exact ⟨rfl, rfl⟩
    · rw [update_of_ne hy]
      exact ⟨rfl, rfl⟩
  · by_cases hy : y = x
    · subst hy
      exact .inr ⟨hx, congrArg some hk.symm⟩
    · exact .inl (update_of_ne hy ..)
  · rw [update_self]
    exact hk
  · rw [update_self]
    exact List.length_set.trans hlen
  · rw [update_self]
    exact byte_copied hlen hbytes hj ha

theorem insert (hc : ∀ x ∈ s.table.live, (s.table.item x).refcount ≠ 65535)
    (hw : s.workers[i]? = some (.put x key value)) :
    Holds jenkinsHash nbuckets (s.workStep jenkinsHash nbuckets i fresh junk (.put x key value)) := by
  obtain ⟨hoff, hhv, hk, -, hno⟩ := h.content.work _ (List.mem_of_getElem? hw)
  have hcount := h.counted
  rw [others_at hw] at hcount
  have hx : plus (rest s.cleaner s.workers s.queue i) (some x) x ≠ 0 := by simp [plus, more]
  obtain ⟨t, L', hp, ht, hsame, hcase⟩ := hcount.hashtPut hoff hx (hc x (hcount.live hx)) none
  obtain ⟨-, hon⟩ := hcase.resolve_left fun h => h.2 rfl
  simp only [workStep, hp, ok_bind]
  refine put hw (.letGo x key value) ht ?_
  rw [body_eq hsame]
  refine h.content.add hw fun y => (hon y).trans (or_congr_right (and_iff_left_of_imp fun hy hf => ?_))
  obtain ⟨r, hr, hfind⟩ := h.find key
  rw [show (s.table.item x).key = key from hk, show (s.table.item x).hv = jenkinsHash key from hhv,
    hr] at hf
  exact hno y hy ((hfind y).1 (Except.ok.inj hf)).2

theorem complete (hw : s.workers[i]? = some (.letGo x key value)) :
    Holds jenkinsHash nbuckets (s.workStep jenkinsHash nbuckets i fresh junk (.letGo x key value)) := by
  obtain ⟨hu, ht⟩ := h.drop hw rfl
  simp only [workStep, hu, ok_bind]
  refine put hw .idle ht ?_
  rw [body_unref]
  exact h.content.complete hw h.unique

/-- A step of a worker. -/
theorem work (hw : s.workers[i]? = some w) (hl : ∀ x ∈ fresh, x ∉ s.table.live)
    (hc : (CleanAct.work i fresh junk).Apart jenkinsHash nbuckets s) :
    Holds jenkinsHash nbuckets (s.workStep jenkinsHash nbuckets i fresh junk w) := by
  cases w with
  | idle => exact h.holds
  | look key => exact h.look hc.1 hw
  | answer it => exact h.answer hw
  | find key value =>
    obtain ⟨h1, h2, h3⟩ := hc.2 _ hw
    exact h.lookup hc.1 hw h1 h2 fun x hx => h3 x (by rw [hx]; rfl)
  | make key value => exact h.make hw hl
  | fields it key value => exact h.fields hw
  | store it key value todo => exact h.stored hw
  | put it key value => exact h.insert hc.1 hw
  | letGo it key value => exact h.complete hw

/-- The cleaner moves on and nothing else changes. -/
theorem moveOn (hi : c'.items = s.cleaner.items) (hok : CleanOk s.table.body L c')
    (hfree : ∀ it ∈ c'.copies, ¬ Busy s.workers (s.table.body it).key)
    (howned : ∀ x ∈ c'.owns, ∀ v ∈ s.workers, v.owns ≠ some x) :
    Holds jenkinsHash nbuckets (.ok { s with cleaner := c' }) :=
  cleaned (t := s.table) L (by rw [others_items hi]; exact h.counted)
    (h.content.clean (fun _ hy => absurd rfl hy) (fun _ hy => absurd rfl hy) hok hfree howned)

/-- The cleaner writes to its own item. -/
theorem writeOwn (it nit : ℕ) {b : Body} (ho : s.cleaner.owns = some nit) (hn : c'.owns = some nit)
    (hco : s.cleaner.copies = some it) (hco' : c'.copies = some it)
    (ht : Counted nbuckets t L (others c' s.workers s.queue))
    (hb : t.body = update s.table.body nit b) (hok : CleanOk (update s.table.body nit b) L c') :
    Holds jenkinsHash nbuckets (.ok { s with table := t, cleaner := c' }) := by
  have hself : ∀ {y}, update s.table.body nit b y ≠ s.table.body y → y = nit := fun hy =>
    not_not.1 fun hne => hy (update_of_ne hne ..)
  have hoff := h.content.cleaner.off ho
  have hne := h.content.cleaner.ne ho hco
  refine cleaned L ht ?_
  rw [hb]
  refine h.content.clean (fun y hy => hself hy ▸ hoff) (fun y hy v hv hs => ?_) hok
    (fun it' hit => ?_) fun x hx => ?_
  · rw [hself hy]
    intro hvi
    rcases (h.content.work v hv).on_or hvi hs with hon | hown
    · exact hoff hon
    · exact h.content.owned nit ho v hv hown
  · cases hco'.symm.trans hit
    rw [update_of_ne hne.symm]
    exact h.content.free it hco
  · cases hn.symm.trans hx
    exact h.content.owned nit ho

/-- An item that the cleaner lets go of. -/
theorem letGo (c' : CleanPhase) {l : List ℕ} (hi : s.cleaner.items = x :: l) (hc' : c'.items = l)
    (hco : c'.copies = none) (how : c'.owns = none) (hok : CleanOk (s.table.unref x).body L c') :
    s.table.itemUnref x = .ok (s.table.unref x) ∧
      Holds jenkinsHash nbuckets (.ok { s with table := s.table.unref x, cleaner := c' }) := by
  have hcount := h.counted
  rw [others_cons _ _ hi hc'] at hcount
  obtain ⟨hu, ht⟩ := hcount.unref
  refine ⟨hu, cleaned L ht ?_⟩
  rw [body_unref] at hok ⊢
  exact h.content.clean (fun _ hy => absurd rfl hy) (fun _ hy => absurd rfl hy) hok
    (by simp [hco]) (by simp [how])

theorem alloc (hcl : s.cleaner = .alloc it) (hl : ∀ x ∈ fresh, x ∉ s.table.live)
    (hfree : ∀ w ∈ s.workers, w.sets ≠ some (s.table.item it).key) :
    Holds jenkinsHash nbuckets (s.cleanStep nbuckets fresh junk) := by
  simp only [cleanStep, hcl]
  rcases fresh with _ | nit
  · exact .inl rfl
  have hnit := hl nit rfl
  obtain ⟨hoff, ho⟩ := h.counted.off hnit
  obtain ⟨hit, hws⟩ := unheld ho
  have hne : nit ≠ it := by
    rintro rfl
    rw [hcl] at hit
    exact hit (by simp [CleanPhase.items])
  have hself : ∀ {y b}, update s.table.body nit b y ≠ s.table.body y → y = nit := fun hy =>
    not_not.1 fun hn => hy (update_of_ne hn ..)
  refine cleaned L ?_ ?_
  · rw [others_cons (.fields it nit) s.cleaner (x := nit) rfl (by rw [hcl]; rfl)]
    exact h.counted.allocated hnit
  · rw [body_allocated]
    refine h.content.clean (fun y hy => hself hy ▸ hoff) (fun y hy v hv _ => hself hy ▸ hws v hv)
      ⟨hoff, hne, ?_⟩ (fun x hx => ?_) fun x hx v hv ho => ?_
    · rw [update_self, update_of_ne hne.symm]
      rfl
    · cases hx
      rw [update_of_ne hne.symm]
      exact fun ⟨w, hw, hk⟩ => hfree w hw hk
    · cases hx
      exact hws v hv (WorkPhase.owns_item ho)

theorem copyFields (hcl : s.cleaner = .fields it nit) :
    Holds jenkinsHash nbuckets (s.cleanStep nbuckets fresh junk) := by
  have hok := h.content.cleaner
  rw [hcl] at hok
  obtain ⟨hoff, hne, hroom⟩ := hok
  simp only [cleanStep, hcl]
  refine h.writeOwn it nit (by rw [hcl]; rfl) rfl (by rw [hcl]; rfl) rfl ?_ body_fill
    ⟨⟨hoff, hne, ?_, ?_⟩, ?_, ?_⟩
  · rw [others_items (c := s.cleaner) (by rw [hcl]; rfl)]
    exact h.counted.fill fun hon => absurd hon hoff
  · rw [update_self, update_of_ne hne.symm]
    rfl
  · rw [update_self, update_of_ne hne.symm]
    rfl
  · rw [update_self, update_of_ne hne.symm]
    simp [resize, Hasht.body]
  · rw [update_self, update_of_ne hne.symm]
    exact hroom

theorem startCopy (hcl : s.cleaner = .copy it nit) :
    Holds jenkinsHash nbuckets (s.cleanStep nbuckets fresh junk) := by
  have hok := h.content.cleaner
  rw [hcl] at hok
  obtain ⟨hcop, hlen, hroom⟩ := hok
  have hfit : (s.table.item it).bytes ≤ (s.table.item nit).room := hroom.ge
  simp only [cleanStep, hcl, hfit, if_true]
  refine h.moveOn (by rw [hcl]; rfl) ⟨hcop, hlen, fun j hj => ?_⟩
    (fun x hx => h.content.free x (by rw [hcl]; exact hx))
    fun x hx => h.content.owned x (by rw [hcl]; exact hx)
  rw [List.mem_range, not_lt] at hj
  have hj' : (s.table.body it).value.length ≤ j := hj
  rw [List.getElem?_eq_none (hlen.trans_le hj'), List.getElem?_eq_none hj']

theorem copyDone {todo : List ℕ} (hcl : s.cleaner = .bytes it nit todo) :
    Holds jenkinsHash nbuckets (s.cleanStep nbuckets fresh junk) := by
  have hok := h.content.cleaner
  rw [hcl] at hok
  obtain ⟨hcop, -, hbytes⟩ := hok
  by_cases hnil : todo = []
  · subst hnil
    simp only [cleanStep, hcl, if_true]
    refine h.moveOn (by rw [hcl]; rfl) ⟨hcop, List.ext_getElem? fun j => hbytes j (by simp)⟩
      (fun x hx => h.content.free x (by rw [hcl]; exact hx))
      fun x hx => h.content.owned x (by rw [hcl]; exact hx)
  · simp only [cleanStep, hcl, hnil, if_false]
    exact h.holds

theorem copyByte {todo : List ℕ} {j b : ℕ} {v : UInt8} (hcl : s.cleaner = .bytes it nit todo)
    (hj : todo[j]? = some b) :
    Holds jenkinsHash nbuckets (.ok { s with
      table := s.table.setByte nit b ((s.table.item it).value.getD b v)
      cleaner := .bytes it nit (todo.eraseIdx j) }) := by
  have hok := h.content.cleaner
  rw [hcl] at hok
  obtain ⟨⟨hoff, hne, hhv, hk⟩, hlen, hbytes⟩ := hok
  refine h.writeOwn it nit (by rw [hcl]; rfl) rfl (by rw [hcl]; rfl) rfl ?_
    body_setByte ⟨⟨hoff, hne, ?_, ?_⟩, ?_, fun a ha => ?_⟩
  · rw [others_items (c := s.cleaner) (by rw [hcl]; rfl)]
    exact h.counted.setByte b _
  · rw [update_self, update_of_ne hne.symm]
    exact hhv
  · rw [update_self, update_of_ne hne.symm]
    exact hk
  · rw [update_self, update_of_ne hne.symm]
    exact List.length_set.trans hlen
  · rw [update_self, update_of_ne hne.symm]
    exact byte_copied hlen hbytes hj ha

theorem replace (hc : ∀ x ∈ s.table.live, (s.table.item x).refcount ≠ 65535)
    (hcl : s.cleaner = .put it nit) :
    Holds jenkinsHash nbuckets (s.cleanStep nbuckets fresh junk) := by
  have hok := h.content.cleaner
  rw [hcl] at hok
  obtain ⟨hcop, hval⟩ := hok
  have hi : (CleanPhase.unrefNew it nit).items = s.cleaner.items := by rw [hcl]; rfl
  have hx : others s.cleaner s.workers s.queue nit ≠ 0 := by
    rw [hcl]
    simp [others, CleanPhase.items]
  obtain ⟨t, L', hp, ht, hsame, hcase⟩ := h.counted.hashtPut hcop.off hx
    (hc nit (h.counted.live hx)) (some it)
  simp only [cleanStep, hcl, hp, ok_bind]
  refine cleaned L' (by rw [others_items hi]; exact ht) ?_
  rw [body_eq hsame]
  rcases hcase with ⟨rfl, -⟩ | ⟨hcas, hon⟩
  · exact h.content.clean (fun _ hy => absurd rfl hy) (fun _ hy => absurd rfl hy) trivial nofun nofun
  · have hf := hcas.resolve_left nofun
    obtain ⟨r, hr, hfind⟩ := h.counted.wf.find_spec (s.table.item nit).key (s.table.item nit).hv
    obtain rfl := Except.ok.inj (hr.symm.trans hf)
    refine h.content.swap hcl ((hfind it).1 rfl).1 fun y => (hon y).trans ?_
    rw [hf]
    simp [@eq_comm _ it y]

/-- A step of the cleaner. -/
theorem clean (hl : ∀ x ∈ fresh, x ∉ s.table.live)
    (hc : (CleanAct.clean fresh junk).Apart jenkinsHash nbuckets s) :
    Holds jenkinsHash nbuckets (s.cleanStep nbuckets fresh junk) := by
  obtain ⟨hcount, hfree⟩ := hc
  rcases hcl : s.cleaner with _ | it | it | ⟨it, nit⟩ | ⟨it, nit⟩ | ⟨it, nit, todo⟩ | ⟨it, nit⟩ |
    ⟨it, nit⟩ | it
  · simp only [cleanStep, hcl]
    exact h.holds
  · simp only [cleanStep, hcl]
    split
    · exact h.moveOn (by rw [hcl]; rfl) trivial nofun nofun
    · exact h.moveOn (by rw [hcl]; rfl) trivial nofun nofun
  · rw [hcl] at hfree
    exact h.alloc hcl hl hfree
  · exact h.copyFields hcl
  · exact h.startCopy hcl
  · exact h.copyDone hcl
  · exact h.replace hcount hcl
  · obtain ⟨hu, hh⟩ := h.letGo (.unrefOld it) (x := nit) (l := [it]) (by rw [hcl]; rfl) rfl rfl
      rfl trivial
    simp only [cleanStep, hcl, hu, ok_bind]
    exact hh
  · obtain ⟨hu, hh⟩ := h.letGo .idle (x := it) (l := []) (by rw [hcl]; rfl) rfl rfl
      rfl trivial
    simp only [cleanStep, hcl, hu, ok_bind]
    exact hh

theorem enqueue (hc : ∀ x ∈ s.table.live, (s.table.item x).refcount ≠ 65535) :
    Holds jenkinsHash nbuckets ((CleanAct.enqueue x).next jenkinsHash nbuckets s) := by
  by_cases h0 : (s.table.item x).refcount = 0
  · simp only [CleanAct.next, itemTryref, h0, if_true]
    exact h.holds
  · simp only [CleanAct.next, itemTryref, h0, if_false]
    have hx := (h.counted.mem x).2 h0
    refine .inr ⟨_, L, rfl, ?_, ?_⟩
    · convert h.counted.itemRef hx (hc x hx) using 1
      funext y
      simp only [others, more, List.count_append, List.count_singleton, beq_iff_eq, @eq_comm _ x y,
        Nat.add_assoc]
    · rw [body_itemRef]
      exact h.content

theorem take {j : ℕ} : Holds jenkinsHash nbuckets ((CleanAct.take j).next jenkinsHash nbuckets s) := by
  simp only [CleanAct.next]
  split
  · rename_i x hcl hj
    refine .inr ⟨_, L, rfl, ?_, ?_⟩
    · convert h.counted using 1
      funext y
      have hcount : s.queue.count y = (s.queue.eraseIdx j).count y + if x = y then 1 else 0 := by
        have := countP_eq hj (· == y)
        simpa only [List.count, beq_iff_eq] using this
      rw [hcl]
      simp only [others, CleanPhase.items, List.count_singleton, List.count_nil, hcount, beq_iff_eq]
      omega
    · exact h.content.clean (fun _ hy => absurd rfl hy) (fun _ hy => absurd rfl hy) trivial nofun
        nofun
  · exact h.holds

/-- A worker comes to a request. -/
theorem request (hw : s.workers[i]? = some .idle) (hs : w'.sets = none) (hi : w'.item = none)
    (ho : w'.owns = none) (hok : WorkOk jenkinsHash s.table.body L w') :
    Holds jenkinsHash nbuckets (.ok (s.setWorker i w')) := by
  have hcount := h.counted
  rw [others_at hw] at hcount
  refine put hw w' (by rw [hi]; exact hcount) (h.content.setWorker hw hok hs ?_)
  rw [ho]
  exact nofun

theorem next {a : CleanAct} (hl : a.Legal s) (hc : a.Apart jenkinsHash nbuckets s) :
    Holds jenkinsHash nbuckets (a.next jenkinsHash nbuckets s) := by
  cases a with
  | enqueue x => exact h.enqueue hc.1
  | take j => exact h.take
  | clean fresh junk => exact h.clean hl hc
  | copyByte j junk =>
    simp only [CleanAct.next]
    split
    · rename_i hcl
      split
      · rename_i hj
        exact h.copyByte hcl hj
      · exact h.holds
    · exact h.holds
  | get i key =>
    simp only [CleanAct.next]
    split
    · rename_i hw
      exact h.request hw rfl rfl rfl trivial
    · exact h.holds
  | set i key value =>
    simp only [CleanAct.next]
    split
    · rename_i hw
      exact h.request hw rfl rfl rfl trivial
    · exact h.holds
  | work i fresh junk =>
    simp only [CleanAct.next]
    split
    · rename_i hw
      exact h.work hw hl hc
    · exact h.holds
  | storeByte i j =>
    simp only [CleanAct.next]
    split
    · rename_i hw
      split
      · rename_i hj
        exact h.storeByte hw hj
      · exact h.holds
    · exact h.holds

/-- Once all are done the table has the last values. -/
theorem noneLost (hf : s.Finished) : s.NoneLost jenkinsHash nbuckets := by
  intro key
  obtain ⟨r, hr, hfind⟩ := h.find key
  have hbusy : ∀ k, ¬ Busy s.workers k := by
    rintro k ⟨w, hw, hk⟩
    rw [hf.2 w hw] at hk
    cases hk
  rw [hr]
  rcases r with _ | x
  · refine congrArg Except.ok (Option.eq_none_iff_forall_ne_some.2 fun v hv => ?_).symm
    obtain ⟨x, hx, hk⟩ := h.content.found hv
    exact nomatch (hfind x).2 ⟨hx, hk⟩
  · obtain ⟨hx, hk⟩ := (hfind x).1 rfl
    have hlast := h.content.maps hx (hbusy _)
    rw [hk] at hlast
    exact congrArg Except.ok hlast.symm

end CleanRace.Inv

/-- As long as SET and cleaning keep apart, once all have finished the table has for each key the
value of the last SET. -/
theorem cleaning_loses_nothing (h : (cleanRace jenkinsHash nbuckets).Reach
    (fun s a => a.Legal s ∧ a.Apart jenkinsHash nbuckets s) s) (hf : s.Finished) :
    s.NoneLost jenkinsHash nbuckets := by
  have hi : ∃ L, s.Inv jenkinsHash nbuckets L := by
    refine h.invariant (I := fun s => ∃ L, s.Inv jenkinsHash nbuckets L) ?_ fun s a s' hs hc hn => ?_
    · rintro s ⟨n, rfl⟩
      have hidle : ∀ w ∈ List.replicate n WorkPhase.idle, w = .idle := fun w hw =>
        List.eq_of_mem_replicate hw
      have hno : ∀ {x}, ¬ On (fun _ _ => []) x := fun ⟨_, _, hx⟩ => nomatch hx
      refine ⟨fun _ _ => [], ?_, fun hx => (hno hx).elim, fun hx => (hno hx).elim, nofun, trivial,
        fun w hw => ?_, fun hv _ hk => ?_, nofun, nofun⟩
      · convert counted_empty using 1
        funext x
        simp [others, CleanPhase.items, List.countP_replicate, WorkPhase.item]
      · rw [hidle w hw]
        trivial
      · rw [hidle _ (List.mem_of_getElem? hv)] at hk
        cases hk
    · obtain ⟨L, hs⟩ := hs
      rcases hs.next hc.1 hc.2 with he | ⟨t, L', he, ht⟩
      · rcases hn with hn | hn <;> rw [he] at hn <;> cases hn
      · rcases hn with hn | hn <;> rw [he] at hn <;> cases hn
        exact ⟨L', ht⟩
  obtain ⟨L, hi⟩ := hi
  exact hi.noneLost hf

section Runs

private def junk0 : ℕ → UInt8 := fun _ => 0

private def setSeven : List CleanAct :=
  [.set 0 [7] [9, 8], .work 0 none junk0, .work 0 (some 40) junk0, .work 0 none junk0,
    .work 0 none junk0]

private def setSevenAgain : List CleanAct :=
  [.set 0 [7] [5, 4], .work 0 none junk0, .work 0 none junk0, .storeByte 0 1, .storeByte 0 0,
    .work 0 none junk0, .work 0 none junk0]

/-- Up to the copy. -/
private def cleanCopy : List CleanAct :=
  [.enqueue 40, .take 0, .clean none junk0, .clean (some 80) junk0, .clean none junk0,
    .clean none junk0, .copyByte 1 0, .copyByte 0 0, .clean none junk0]

private def cleanPut : List CleanAct := [.clean none junk0, .clean none junk0, .clean none junk0]

private theorem step_of_next {s s' : CleanRace} {a : CleanAct}
    (h : (a.next (fun _ => 5) 3 s).toOption = some s') : (cleanRace (fun _ => 5) 3).step s a s' := by
  rcases he : a.next (fun _ => 5) 3 s with e | t
  · rw [he] at h
    cases h
  · rw [he] at h
    exact .inl (he.trans (congrArg Except.ok (Option.some.inj h)))

/-- The item is cleaned while another worker reads it, and then written again. -/
theorem cleaning_loses_nothing_moved : ∃ s : CleanRace, s.Finished ∧ s.table.live = [80] ∧
    s.last [7] = some [5, 4] ∧ s.NoneLost (fun _ => 5) 3 := by
  obtain ⟨s, hs, hP⟩ := System.drive_reach (S := cleanRace (fun _ => 5) 3)
    (fun s a => (a.next (fun _ => 5) 3 s).toOption)
    (fun s a => a.Legal s ∧ a.Apart (fun _ => 5) 3 s) (fun _ _ _ => step_of_next) (fun _ _ => id)
    ⟨2, rfl⟩
    (setSeven ++ [.get 1 [7], .work 1 none junk0] ++ cleanCopy ++ cleanPut ++
      [.work 1 none junk0] ++ setSevenAgain)
    (fun s => s.cleaner = .idle ∧ s.workers = [.idle, .idle] ∧ s.table.live = [80] ∧
      s.last [7] = some [5, 4]) (by decide +kernel)
  obtain ⟨hc, hw, hl, hlast⟩ := of_decide_eq_true hP
  have hf : s.Finished := ⟨hc, fun w hm => by rw [hw] at hm; simpa using hm⟩
  exact ⟨s, hf, hl, hlast, cleaning_loses_nothing hs hf⟩

/-- A SET between the copy and the swap is lost. -/
theorem set_lost_to_cleaning : ∃ s : CleanRace,
    (cleanRace (fun _ => 5) 3).Reach (fun s a => a.Legal s) s ∧ s.Finished ∧
      ¬ s.NoneLost (fun _ => 5) 3 := by
  obtain ⟨s, hs, hP⟩ := System.drive_reach (S := cleanRace (fun _ => 5) 3)
    (fun s a => (a.next (fun _ => 5) 3 s).toOption) (fun s a => a.Legal s)
    (fun _ _ _ => step_of_next) (fun _ _ => id) ⟨1, rfl⟩
    (setSeven ++ cleanCopy ++ setSevenAgain ++ cleanPut)
    (fun s => s.cleaner = .idle ∧ s.workers = [.idle] ∧ s.last [7] = some [5, 4] ∧
      (s.table.find [7] 5 3).toOption = some (some 80) ∧ (s.table.item 80).value = [9, 8])
    (by decide +kernel)
  obtain ⟨hc, hw, hlast, hfind, hval⟩ := of_decide_eq_true hP
  refine ⟨s, hs, ⟨hc, fun w hm => by rw [hw] at hm; simpa using hm⟩, fun hn => ?_⟩
  have hkey := hn [7]
  rcases hr : s.table.find [7] 5 3 with e | r
  · rw [hr] at hfind
    cases hfind
  · rw [hr] at hfind hkey
    cases Option.some.inj hfind
    have hv : some (s.table.item 80).value = s.last [7] := Except.ok.inj hkey
    rw [hval, hlast] at hv
    exact absurd hv (by decide)

end Runs

end Steps

end FlexKvs

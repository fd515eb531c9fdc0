import HeMem.Lib.Linked
import HeMem.FlexKvs.SegmentLock

/-!
# A segment has one owner unless all are handed out

The lock is held by the one thread in a phase between `pthread_spin_lock` and `pthread_spin_unlock`,
and a segment is on the free list, in the hands of one thread, or with its owner.  Only the exit
without the lock breaks this.
-/

namespace FlexKvs

open Function

namespace SegPhase

/-- The phases in which a thread holds the lock. -/
def locked : SegPhase → Bool
  | readFree | takeFree | popFree _ | unlockFree _ | readAlloced | unlockFull | increment _
  | store _ _ | unlockNew _ | linkBack _ | putBack _ | unlockBack => true
  | _ => false

/-- The segment in a thread's hands. -/
def hand : SegPhase → Option ℕ
  | unlockFree h => h
  | unlockNew h | fresh h | init h | lockBack h | linkBack h | putBack h => some h
  | _ => none

end SegPhase

variable {T : Type} {s s' : SegLock T} {t : T} {q : SegPhase} {segmaxnum : ℕ}

namespace SegLock

/-- What a phase remembers of the shared variables. -/
def Recalls (s : SegLock T) : SegPhase → Prop
  | .takeFree => s.freeSegments ≠ none
  | .popFree h => h ≠ none ∧ h = s.freeSegments
  | .increment i => i = s.segAlloced
  | .store i n => i = s.segAlloced ∧ n = i + 1
  | .putBack h => s.next h = s.freeSegments
  | .unlockEarly => False
  | _ => True

/-- A segment that was handed out once and has no owner. -/
def Spare (s : SegLock T) (x : ℕ) : Prop := x < s.segAlloced ∧ s.owned x = false

structure Inv (s : SegLock T) : Prop where
  lock : ∀ t, (s.phase t).locked = true ↔ s.holder = some t
  list : ∃ l, Linked s.next s.freeSegments l ∧ l.Nodup ∧
    ∀ x ∈ l, s.Spare x ∧ ∀ t, (s.phase t).hand ≠ some x
  hand : ∀ t x, (s.phase t).hand = some x →
    s.Spare x ∧ ∀ t', (s.phase t').hand = some x → t' = t
  owned : ∀ x, s.owned x = true → x < s.segAlloced
  recalls : ∀ t, s.Recalls (s.phase t)

theorem inv_initial : Inv (initial : SegLock T) where
  lock t := by simp [initial, SegPhase.locked]
  list := ⟨[], rfl, List.nodup_nil, by simp⟩
  hand t x h := by simp [initial, SegPhase.hand] at h
  owned x h := by simp [initial] at h
  recalls t := trivial

/-- A thread that holds the lock is the only one. -/
theorem Inv.alone (h : s.Inv) (ht : (s.phase t).locked = true) {t' : T} (hne : t' ≠ t) :
    (s.phase t').locked = false := by
  by_contra hl
  have h1 := (h.lock t).1 ht
  have h2 := (h.lock t').1 (by simpa using hl)
  rw [h1, Option.some.injEq] at h2
  exact hne h2.symm

/-- Without the lock a phase remembers nothing that another thread may change. -/
theorem Recalls.of_unlocked {s' : SegLock T} (h : s.Recalls q) (hl : q.locked = false) :
    s'.Recalls q := by
  cases q <;> trivial

theorem Inv.oneOwner (h : s.Inv) : s.OneOwner := by
  refine ⟨fun t hu => (h.lock t).1 ?_, fun t x ht => (h.hand t x (by rw [ht]; rfl)).1.2⟩
  have hrec := h.recalls t
  unfold Unlocks at hu
  cases hp : s.phase t <;> simp only [hp] at hu hrec <;> first | rfl | exact hrec.elim

variable [DecidableEq T]

/-- A thread goes to another phase. -/
theorem Inv.goto (h : s.Inv) (hl : q.locked = (s.phase t).locked)
    (hh : ∀ x, q.hand = some x → (s.phase t).hand = some x) (hr : s.Recalls q) :
    (s.goto t q).Inv := by
  have hhand : ∀ t' x, (update s.phase t q t').hand = some x → (s.phase t').hand = some x := by
    intro t' x hx
    rcases eq_or_ne t' t with rfl | hne
    · rw [update_self] at hx
      exact hh x hx
    · rwa [update_of_ne hne] at hx
  refine ⟨fun t' => ?_, ?_, fun t' x hx => ?_, h.owned, fun t' => ?_⟩
  · rcases eq_or_ne t' t with rfl | hne
    · rw [goto_phase, update_self, hl]
      exact h.lock t'
    · rw [goto_phase, update_of_ne hne]
      exact h.lock t'
  · obtain ⟨l, hlink, hnd, hl⟩ := h.list
    exact ⟨l, hlink, hnd, fun x hx => ⟨(hl x hx).1, fun t' ht' => (hl x hx).2 t' (hhand t' x ht')⟩⟩
  · obtain ⟨hs, hu⟩ := h.hand t' x (hhand t' x hx)
    exact ⟨hs, fun t'' ht => hu t'' (hhand t'' x ht)⟩
  · rcases eq_or_ne t' t with rfl | hne
    · rw [goto_phase, update_self]
      exact hr
    · rw [goto_phase, update_of_ne hne]
      exact h.recalls t'

theorem Inv.lockStep (h : s.Inv) (hs : s.lock t q = some s') (hl : q.locked = true)
    (hh : q.hand = (s.phase t).hand) (hr : s.Recalls q) : s'.Inv := by
  unfold SegLock.lock at hs
  split at hs
  · rename_i hn
    cases hs
    have hfree : ∀ t, (s.phase t).locked = false := fun t => by
      by_contra hl
      have hl := (h.lock t).1 (by simpa using hl)
      rw [hn] at hl
      cases hl
    have hhand : ∀ t', (update s.phase t q t').hand = (s.phase t').hand := fun t' => by
      rcases eq_or_ne t' t with rfl | hne
      · rw [update_self, hh]
      · rw [update_of_ne hne]
    refine ⟨fun t' => ?_, ?_, fun t' x hx => ?_, h.owned, fun t' => ?_⟩
    · rcases eq_or_ne t' t with rfl | hne
      · simp [hl]
      · simp [hne, hfree t', hne.symm]
    · obtain ⟨l, hlink, hnd, hl⟩ := h.list
      exact ⟨l, hlink, hnd, fun x hx => ⟨(hl x hx).1, fun t' ht' =>
        (hl x hx).2 t' ((hhand t').symm.trans ht')⟩⟩
    · obtain ⟨hs, hu⟩ := h.hand t' x ((hhand t').symm.trans hx)
      exact ⟨hs, fun t'' ht => hu t'' ((hhand t'').symm.trans ht)⟩
    · rcases eq_or_ne t' t with rfl | hne
      · rw [goto_phase, update_self]
        exact hr
      · rw [goto_phase, update_of_ne hne]
        exact h.recalls t'
  · cases hs

theorem Inv.unlockStep (h : s.Inv) (ht : (s.phase t).locked = true) (hl : q.locked = false)
    (hh : q.hand = (s.phase t).hand) (hr : s.Recalls q) : (s.unlock t q).Inv := by
  have hhand : ∀ t', (update s.phase t q t').hand = (s.phase t').hand := fun t' => by
    rcases eq_or_ne t' t with rfl | hne
    · rw [update_self, hh]
    · rw [update_of_ne hne]
  refine ⟨fun t' => ?_, ?_, fun t' x hx => ?_, h.owned, fun t' => ?_⟩
  · rcases eq_or_ne t' t with rfl | hne
    · simp [hl]
    · simp [hne, h.alone ht hne]
  · obtain ⟨l, hlink, hnd, hl⟩ := h.list
    exact ⟨l, hlink, hnd, fun x hx => ⟨(hl x hx).1, fun t' ht' =>
      (hl x hx).2 t' ((hhand t').symm.trans ht')⟩⟩
  · obtain ⟨hs, hu⟩ := h.hand t' x ((hhand t').symm.trans hx)
    exact ⟨hs, fun t'' ht => hu t'' ((hhand t'').symm.trans ht)⟩
  · rcases eq_or_ne t' t with rfl | hne
    · rw [unlock_phase, update_self]
      exact hr
    · rw [unlock_phase, update_of_ne hne]
      exact h.recalls t'

/-- While `t` holds the lock, what the phases of other threads remember stays. -/
theorem Inv.recalls_update (h : s.Inv) (ht : (s.phase t).locked = true) (hr : s'.Recalls q)
    (hp : s'.phase = update s.phase t q) (t' : T) : s'.Recalls (s'.phase t') := by
  rw [hp]
  rcases eq_or_ne t' t with rfl | hne
  · rw [update_self]
    exact hr
  · rw [update_of_ne hne]
    exact (h.recalls t').of_unlocked (h.alone ht hne)

theorem Inv.lock_update (h : s.Inv) (hl : q.locked = (s.phase t).locked) (t' : T) :
    (update s.phase t q t').locked = true ↔ s.holder = some t' := by
  rcases eq_or_ne t' t with rfl | hne
  · rw [update_self, hl]
    exact h.lock t'
  · rw [update_of_ne hne]
    exact h.lock t'

/-- `free_segments = h->next` -/
theorem Inv.pop (h : s.Inv) {x : ℕ} (ht : s.phase t = .popFree (some x)) :
    ({ s with freeSegments := s.next x }.goto t (.unlockFree (some x))).Inv := by
  have hlock : (s.phase t).locked = true := by rw [ht]; rfl
  have hhead : some x = s.freeSegments := by
    have hr := h.recalls t
    rw [ht] at hr
    exact hr.2
  obtain ⟨l, hlink, hnd, hl⟩ := h.list
  rcases l with _ | ⟨y, l⟩
  · rw [hlink] at hhead
    cases hhead
  obtain ⟨hy, hlink⟩ := hlink
  rw [← hhead, Option.some.injEq] at hy
  subst hy
  obtain ⟨hx, hnd⟩ := List.nodup_cons.1 hnd
  obtain ⟨hspare, hnone⟩ := hl x (by simp)
  have hhand : ∀ t' y, (update s.phase t (.unlockFree (some x)) t').hand = some y →
      t' = t ∧ y = x ∨ t' ≠ t ∧ (s.phase t').hand = some y := fun t' y hy => by
    rcases eq_or_ne t' t with rfl | hne
    · rw [update_self] at hy
      exact .inl ⟨rfl, (Option.some.inj hy).symm⟩
    · rw [update_of_ne hne] at hy
      exact .inr ⟨hne, hy⟩
  refine ⟨h.lock_update (by rw [hlock]; rfl), ⟨l, hlink, hnd, fun y hy => ?_⟩, fun t' y hy => ?_,
    h.owned,
    h.recalls_update (q := .unlockFree (some x)) hlock trivial rfl⟩
  · refine ⟨(hl y (by simp [hy])).1, fun t' ht' => ?_⟩
    rcases hhand t' y ht' with ⟨-, rfl⟩ | ⟨-, ht'⟩
    · exact hx hy
    · exact (hl y (by simp [hy])).2 t' ht'
  · rcases hhand t' y hy with ⟨rfl, rfl⟩ | ⟨hne, hy'⟩
    · refine ⟨hspare, fun t'' ht'' => ?_⟩
      rcases hhand t'' y ht'' with ⟨rfl, -⟩ | ⟨-, ht''⟩
      · rfl
      · exact absurd ht'' (hnone t'')
    · obtain ⟨hs, hu⟩ := h.hand t' y hy'
      refine ⟨hs, fun t'' ht'' => ?_⟩
      rcases hhand t'' y ht'' with ⟨-, rfl⟩ | ⟨-, ht''⟩
      · exact absurd hy' (hnone t')
      · exact hu t'' ht''

/-- `seg_alloced++` writes. -/
theorem Inv.grow (h : s.Inv) {i n : ℕ} (ht : s.phase t = .store i n) :
    ({ s with segAlloced := n }.goto t (.unlockNew i)).Inv := by
  have hlock : (s.phase t).locked = true := by rw [ht]; rfl
  obtain ⟨rfl, rfl⟩ : i = s.segAlloced ∧ n = i + 1 := by
    have hr := h.recalls t
    rw [ht] at hr
    exact hr
  have hnew : ∀ y, s.Spare y → y ≠ s.segAlloced := fun y hy => Nat.ne_of_lt hy.1
  have hmore : ∀ y, s.Spare y → y < s.segAlloced + 1 ∧ s.owned y = false := fun y hy =>
    ⟨Nat.lt_succ_of_lt hy.1, hy.2⟩
  have hfree : s.owned s.segAlloced = false := by
    by_contra ho
    exact absurd (h.owned _ (by simpa using ho)) (Nat.lt_irrefl _)
  have hhand : ∀ t' y, (update s.phase t (.unlockNew s.segAlloced) t').hand = some y →
      t' = t ∧ y = s.segAlloced ∨ t' ≠ t ∧ (s.phase t').hand = some y := fun t' y hy => by
    rcases eq_or_ne t' t with rfl | hne
    · rw [update_self] at hy
      exact .inl ⟨rfl, (Option.some.inj hy).symm⟩
    · rw [update_of_ne hne] at hy
      exact .inr ⟨hne, hy⟩
  obtain ⟨l, hlink, hnd, hl⟩ := h.list
  refine ⟨h.lock_update (by rw [hlock]; rfl), ⟨l, hlink, hnd, fun y hy => ?_⟩, fun t' y hy => ?_,
    fun y hy => Nat.lt_succ_of_lt (h.owned y hy),
    h.recalls_update (q := .unlockNew s.segAlloced) hlock trivial rfl⟩
  · obtain ⟨hs, hno⟩ := hl y hy
    refine ⟨hmore y hs, fun t' ht' => ?_⟩
    rcases hhand t' y ht' with ⟨-, rfl⟩ | ⟨-, ht'⟩
    · exact hnew _ hs rfl
    · exact hno t' ht'
  · rcases hhand t' y hy with ⟨rfl, rfl⟩ | ⟨hne, hy'⟩
    · refine ⟨⟨Nat.lt_succ_self _, hfree⟩, fun t'' ht'' => ?_⟩
      rcases hhand t'' _ ht'' with ⟨rfl, -⟩ | ⟨-, ht''⟩
      · rfl
      · exact absurd rfl (hnew _ (h.hand t'' _ ht'').1)
    · obtain ⟨hs, hu⟩ := h.hand t' y hy'
      refine ⟨hmore y hs, fun t'' ht'' => ?_⟩
      rcases hhand t'' y ht'' with ⟨-, rfl⟩ | ⟨-, ht''⟩
      · exact absurd rfl (hnew _ hs)
      · exact hu t'' ht''

/-- `segment_alloc` returns. -/
theorem Inv.give (h : s.Inv) {x : ℕ} (ht : s.phase t = .init x) :
    ({ s with owned := update s.owned x true }.goto t .idle).Inv := by
  obtain ⟨hspare, honly⟩ := h.hand t x (by rw [ht]; rfl)
  have hhand : ∀ t' y, (update s.phase t .idle t').hand = some y →
      t' ≠ t ∧ (s.phase t').hand = some y := fun t' y hy => by
    rcases eq_or_ne t' t with rfl | hne
    · rw [update_self] at hy
      cases hy
    · rw [update_of_ne hne] at hy
      exact ⟨hne, hy⟩
  have hother : ∀ y, y ≠ x → s.Spare y →
      y < s.segAlloced ∧ update s.owned x true y = false := fun y hy hs => by
    rw [update_of_ne hy]
    exact hs
  obtain ⟨l, hlink, hnd, hl⟩ := h.list
  refine ⟨h.lock_update (by rw [ht]; rfl), ⟨l, hlink, hnd, fun y hy => ?_⟩, fun t' y hy => ?_,
    fun y hy => ?_, fun t' => ?_⟩
  · obtain ⟨hs, hno⟩ := hl y hy
    refine ⟨hother y ?_ hs, fun t' ht' => hno t' (hhand t' y ht').2⟩
    rintro rfl
    exact hno t (by rw [ht]; rfl)
  · obtain ⟨hne, hy'⟩ := hhand t' y hy
    obtain ⟨hs, hu⟩ := h.hand t' y hy'
    refine ⟨hother y ?_ hs, fun t'' ht'' => hu t'' (hhand t'' y ht'').2⟩
    rintro rfl
    exact hne (honly t' hy')
  · rcases eq_or_ne y x with rfl | hne
    · exact hspare.1
    · simp only [goto_owned, update_of_ne hne] at hy
      exact h.owned y hy
  · rw [goto_phase]
    rcases eq_or_ne t' t with rfl | hne
    · rw [update_self]
      trivial
    · rw [update_of_ne hne]
      exact h.recalls t'

/-- `segment_free` is called. -/
theorem Inv.take (h : s.Inv) {x : ℕ} (ht : s.phase t = .idle) (hx : s.owned x = true) :
    ({ s with owned := update s.owned x false }.goto t (.lockBack x)).Inv := by
  have hno : ∀ y, s.Spare y → y ≠ x := fun y hy => by
    rintro rfl
    rw [hy.2] at hx
    cases hx
  have hother : ∀ y, s.Spare y → y < s.segAlloced ∧ update s.owned x false y = false :=
    fun y hy => by
    rw [update_of_ne (hno y hy)]
    exact hy
  have hhand : ∀ t' y, (update s.phase t (.lockBack x) t').hand = some y →
      t' = t ∧ y = x ∨ t' ≠ t ∧ (s.phase t').hand = some y := fun t' y hy => by
    rcases eq_or_ne t' t with rfl | hne
    · rw [update_self] at hy
      exact .inl ⟨rfl, (Option.some.inj hy).symm⟩
    · rw [update_of_ne hne] at hy
      exact .inr ⟨hne, hy⟩
  obtain ⟨l, hlink, hnd, hl⟩ := h.list
  refine ⟨h.lock_update (by rw [ht]; rfl), ⟨l, hlink, hnd, fun y hy => ?_⟩, fun t' y hy => ?_,
    fun y hy => ?_, fun t' => ?_⟩
  · obtain ⟨hs, hn⟩ := hl y hy
    refine ⟨hother y hs, fun t' ht' => ?_⟩
    rcases hhand t' y ht' with ⟨-, rfl⟩ | ⟨-, ht'⟩
    · exact hno y hs rfl
    · exact hn t' ht'
  · rcases hhand t' y hy with ⟨rfl, rfl⟩ | ⟨hne, hy'⟩
    · refine ⟨⟨h.owned y hx, by simp⟩, fun t'' ht'' => ?_⟩
      rcases hhand t'' y ht'' with ⟨rfl, -⟩ | ⟨-, ht''⟩
      · rfl
      · exact absurd rfl (hno y (h.hand t'' y ht'').1)
    · obtain ⟨hs, hu⟩ := h.hand t' y hy'
      refine ⟨hother y hs, fun t'' ht'' => ?_⟩
      rcases hhand t'' y ht'' with ⟨-, rfl⟩ | ⟨-, ht''⟩
      · exact absurd rfl (hno y hs)
      · exact hu t'' ht''
  · rcases eq_or_ne y x with rfl | hne
    · exact h.owned y hx
    · simp only [goto_owned, update_of_ne hne] at hy
      exact h.owned y hy
  · rw [goto_phase]
    rcases eq_or_ne t' t with rfl | hne
    · rw [update_self]
      trivial
    · rw [update_of_ne hne]
      exact h.recalls t'

/-- `h->next = free_segments` -/
theorem Inv.link (h : s.Inv) {x : ℕ} (ht : s.phase t = .linkBack x) :
    ({ s with next := update s.next x s.freeSegments }.goto t (.putBack x)).Inv := by
  have hlock : (s.phase t).locked = true := by rw [ht]; rfl
  have hx : (s.phase t).hand = some x := by rw [ht]; rfl
  have hhand : ∀ t', (update s.phase t (.putBack x) t').hand = (s.phase t').hand := fun t' => by
    rcases eq_or_ne t' t with rfl | hne
    · rw [update_self, hx]
      rfl
    · rw [update_of_ne hne]
  obtain ⟨l, hlink, hnd, hl⟩ := h.list
  have hxl : ∀ y ∈ l, y ≠ x := by
    rintro y hy rfl
    exact (hl y hy).2 t hx
  refine ⟨h.lock_update (by rw [hlock]; rfl),
    ⟨l, hlink.congr fun y hy => update_of_ne (hxl y hy) _ _, hnd, fun y hy => ?_⟩,
    fun t' y hy => ?_, h.owned, h.recalls_update hlock ?_ rfl⟩
  · exact ⟨(hl y hy).1, fun t' ht' => (hl y hy).2 t' ((hhand t').symm.trans ht')⟩
  · obtain ⟨hs, hu⟩ := h.hand t' y ((hhand t').symm.trans hy)
    exact ⟨hs, fun t'' ht'' => hu t'' ((hhand t'').symm.trans ht'')⟩
  · exact update_self x _ _

/-- `free_segments = h` -/
theorem Inv.push (h : s.Inv) {x : ℕ} (ht : s.phase t = .putBack x) :
    ({ s with freeSegments := some x }.goto t .unlockBack).Inv := by
  have hlock : (s.phase t).locked = true := by rw [ht]; rfl
  have hx : (s.phase t).hand = some x := by rw [ht]; rfl
  have hnext : s.next x = s.freeSegments := by
    have hr := h.recalls t
    rwa [ht] at hr
  obtain ⟨hspare, honly⟩ := h.hand t x hx
  have hhand : ∀ t' y, (update s.phase t .unlockBack t').hand = some y →
      t' ≠ t ∧ (s.phase t').hand = some y := fun t' y hy => by
    rcases eq_or_ne t' t with rfl | hne
    · rw [update_self] at hy
      cases hy
    · rw [update_of_ne hne] at hy
      exact ⟨hne, hy⟩
  obtain ⟨l, hlink, hnd, hl⟩ := h.list
  have hxl : x ∉ l := fun hm => (hl x hm).2 t hx
  refine ⟨h.lock_update (by rw [hlock]; rfl), ⟨x :: l, ⟨rfl, ?_⟩, List.nodup_cons.2 ⟨hxl, hnd⟩,
    fun y hy => ?_⟩, fun t' y hy => ?_, h.owned,
    h.recalls_update (q := .unlockBack) hlock trivial rfl⟩
  · exact (congrArg (Linked s.next · l) hnext).mpr hlink
  · rcases List.mem_cons.1 hy with rfl | hy
    · exact ⟨hspare, fun t' ht' => (hhand t' y ht').1 (honly t' (hhand t' y ht').2)⟩
    · exact ⟨(hl y hy).1, fun t' ht' => (hl y hy).2 t' (hhand t' y ht').2⟩
  · obtain ⟨hne, hy'⟩ := hhand t' y hy
    obtain ⟨hs, hu⟩ := h.hand t' y hy'
    exact ⟨hs, fun t'' ht'' => hu t'' (hhand t'' y ht'').2⟩

/-- A thread's step. -/
theorem Inv.go (h : s.Inv) {ok : Bool} (hc : s.phase t = .checkAlloced → s.segAlloced < segmaxnum)
    (hs : s.go t segmaxnum ok = some s') : s'.Inv := by
  have hrec := h.recalls t
  unfold SegLock.go at hs
  cases hp : s.phase t with
  | idle => simp [hp] at hs
  | checkFree =>
    simp only [hp, Option.some.injEq] at hs
    subst hs
    split
    · exact h.goto (by rw [hp]; rfl) (fun x hx => by cases hx) trivial
    · exact h.goto (by rw [hp]; rfl) (fun x hx => by cases hx) trivial
  | lockFree =>
    simp only [hp] at hs
    exact h.lockStep hs rfl (by rw [hp]; rfl) trivial
  | readFree =>
    simp only [hp, Option.some.injEq] at hs
    subst hs
    split
    · rename_i hf
      refine h.goto (by rw [hp]; rfl) (fun x hx => by cases hx) ?_
      exact Option.isSome_iff_ne_none.1 hf
    · exact h.goto (by rw [hp]; rfl) (fun x hx => by cases hx) trivial
  | takeFree =>
    rw [hp] at hrec
    simp only [hp, Option.some.injEq] at hs
    subst hs
    exact h.goto (by rw [hp]; rfl) (fun x hx => by cases hx) ⟨hrec, rfl⟩
  | popFree x =>
    rcases x with _ | x
    · simp [hp] at hs
    · simp only [hp, Option.some.injEq] at hs
      exact hs ▸ h.pop hp
  | unlockFree x =>
    have hl : (s.phase t).locked = true := by rw [hp]; rfl
    rcases x with _ | x
    · simp only [hp, Option.some.injEq] at hs
      exact hs ▸ h.unlockStep hl rfl (by rw [hp]; rfl) trivial
    · simp only [hp, Option.some.injEq] at hs
      exact hs ▸ h.unlockStep hl rfl (by rw [hp]; rfl) trivial
  | checkAlloced =>
    simp only [hp, Option.some.injEq, ge_iff_le, if_neg (Nat.not_le.2 (hc hp))] at hs
    exact hs ▸ h.goto (by rw [hp]; rfl) (fun x hx => by cases hx) trivial
  | unlockEarly =>
    rw [hp] at hrec
    exact hrec.elim
  | lockAlloced =>
    simp only [hp] at hs
    exact h.lockStep hs rfl (by rw [hp]; rfl) trivial
  | readAlloced =>
    simp only [hp, Option.some.injEq] at hs
    subst hs
    split
    · exact h.goto (by rw [hp]; rfl) (fun x hx => by cases hx) trivial
    · exact h.goto (by rw [hp]; rfl) (fun x hx => by cases hx) rfl
  | unlockFull =>
    simp only [hp, Option.some.injEq] at hs
    exact hs ▸ h.unlockStep (by rw [hp]; rfl) rfl (by rw [hp]; rfl) trivial
  | increment i =>
    rw [hp] at hrec
    simp only [hp, Option.some.injEq] at hs
    refine hs ▸ h.goto (by rw [hp]; rfl) (fun x hx => by cases hx) ⟨hrec, ?_⟩
    rw [show i = s.segAlloced from hrec]
  | store i n =>
    simp only [hp, Option.some.injEq] at hs
    exact hs ▸ h.grow hp
  | unlockNew i =>
    simp only [hp, Option.some.injEq] at hs
    exact hs ▸ h.unlockStep (by rw [hp]; rfl) rfl (by rw [hp]; rfl) trivial
  | fresh i =>
    simp only [hp, Option.some.injEq] at hs
    subst hs
    split
    · exact h.goto (by rw [hp]; rfl) (fun x hx => by rw [hp]; exact hx) trivial
    · exact h.goto (by rw [hp]; rfl) (fun x hx => by cases hx) trivial
  | init x =>
    simp only [hp, Option.some.injEq] at hs
    exact hs ▸ h.give hp
  | lockBack x =>
    simp only [hp] at hs
    exact h.lockStep hs rfl (by rw [hp]; rfl) trivial
  | linkBack x =>
    simp only [hp, Option.some.injEq] at hs
    exact hs ▸ h.link hp
  | putBack x =>
    simp only [hp, Option.some.injEq] at hs
    exact hs ▸ h.push hp
  | unlockBack =>
    simp only [hp, Option.some.injEq] at hs
    exact hs ▸ h.unlockStep (by rw [hp]; rfl) rfl (by rw [hp]; rfl) trivial

theorem Inv.step (h : s.Inv) {a : SegAct T} (hc : a.FindsRoom segmaxnum s)
    (hs : a.next segmaxnum s = some s') : s'.Inv := by
  cases a with
  | alloc t =>
    simp only [SegAct.next, Option.ite_none_right_eq_some, Option.some.injEq] at hs
    obtain ⟨hp, rfl⟩ := hs
    exact h.goto (by rw [hp]; rfl) (fun x hx => by cases hx) trivial
  | free t x =>
    simp only [SegAct.next, Option.ite_none_right_eq_some, Option.some.injEq] at hs
    obtain ⟨⟨hp, hx⟩, rfl⟩ := hs
    exact h.take hp hx
  | go t ok => exact h.go hc hs

end SegLock

variable [DecidableEq T]

/-- While the check without the lock never finds all segments handed out, the lock is released by
the thread that holds it, and no segment is returned that has an owner. -/
theorem one_owner {s : SegLock T}
    (h : (segLock T segmaxnum).Reach (fun s a => a.FindsRoom segmaxnum s) s) : s.OneOwner :=
  (h.invariant (I := SegLock.Inv) (fun _ hs => hs ▸ SegLock.inv_initial)
    fun _ _ _ hI hc hs => hI.step hc hs).oneOwner

theorem segLock_reach (segmaxnum : ℕ) (D : SegLock T → SegAct T → Prop)
    [∀ s, DecidablePred (D s)] (acts : List (SegAct T)) (P : SegLock T → Bool)
    (h : (System.drive (fun s a => a.next segmaxnum s) D acts SegLock.initial).any P = true) :
    ∃ s, (segLock T segmaxnum).Reach D s ∧ P s = true :=
  System.drive_reach _ _ (fun _ _ _ => id) (fun _ _ => id) rfl acts P h

/-- Thread 0 gets a fresh segment, gives it back and takes it from the free list. -/
theorem one_owner_reused : ∃ s : SegLock (Fin 2), s.phase 0 = .init 0 ∧ s.OneOwner := by
  obtain ⟨s, hs, hP⟩ := segLock_reach (T := Fin 2) 1
    (fun s a => a.FindsRoom 1 s)
    ([.alloc 0] ++ List.replicate 9 (.go 0 true) ++ [.free 0 0] ++ List.replicate 4 (.go 0 true) ++
      [.alloc 0] ++ List.replicate 6 (.go 0 true))
    (fun s => s.phase 0 = .init 0) (by decide +kernel)
  exact ⟨s, of_decide_eq_true hP, one_owner hs⟩

/-- Thread 1 finds all segments handed out and opens the lock that thread 2 holds: threads 2 and 3
both take segment 0, which thread 0 has just given back. -/
theorem segment_returned_twice : ∃ s, (segLock (Fin 4) 1).Reach (fun _ _ => True) s ∧
    s.phase 3 = .init 0 ∧ s.owned 0 = true := by
  obtain ⟨s, hs, hP⟩ := segLock_reach (T := Fin 4) 1 (fun _ _ => True)
    ([.alloc 0] ++ List.replicate 9 (.go 0 true) ++ [.alloc 1, .go 1 true, .go 1 true] ++
      [.free 0 0] ++ List.replicate 4 (.go 0 true) ++
      [.alloc 2, .alloc 3, .go 2 true, .go 3 true, .go 2 true, .go 2 true, .go 2 true, .go 1 true,
        .go 3 true, .go 3 true, .go 3 true, .go 2 true, .go 3 true, .go 2 true, .go 3 true,
        .go 2 true])
    (fun s => s.phase 3 = .init 0 ∧ s.owned 0 = true) (by decide +kernel)
  exact ⟨s, hs, of_decide_eq_true hP⟩

end FlexKvs

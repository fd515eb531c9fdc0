import HeMem.Lib.Custody
import HeMem.MigrateRace
import HeMem.Proofs.Assertions

/-!
# When the migration loop loses no page

With the last try for a hot page the policy thread may again find no free DRAM page, move another
cold page down and leave the loop over tries with the hot page in its hands: the loop goes on to the
next page without it.
-/

namespace HeMem

open Hoare Function

variable {T : Type} {cfg : Config} {s u : State} {p np : PageId} {q : ListId} {n : ℕ}

section Lists

/-- Which pages are enforced. -/
def State.marks (s : State) : PageId → Bool := fun p => (s.page p).enforced

theorem onFifo_dequeue (hw : s.fifo.Wf) (q : ListId) :
    onFifo (dequeueFifo q) s = .ok (none, s) ∨
      ∃ p h, onFifo (dequeueFifo q) s = .ok (some p, { s with fifo := h }) ∧ h.Wf ∧
        s.fifo.listOf p = some q ∧ h.listOf = update s.fifo.listOf p none ∧
        (s.fifo.list q).last = some p := by
  rcases hw.dequeue q with ⟨he, -, -⟩ | ⟨p, h, he, hw', hc, hp, hl, -⟩
  · left
    unfold onFifo
    rw [he]
  · right
    refine ⟨p, h, ?_, hw', hp, hl, ?_⟩
    · unfold onFifo
      rw [he]
    · rw [hw.last_eq, hc, List.getLast?_concat]

theorem onFifo_enqueue (hw : s.fifo.Wf) (hp : s.fifo.listOf p = none) (q : ListId) :
    ∃ h, onFifo (enqueueFifo q p) s = .ok ((), { s with fifo := h }) ∧ h.Wf ∧
      h.listOf = update s.fifo.listOf p (some q) := by
  obtain ⟨h, he, hw', hl⟩ := hw.enqueue hp (q := q)
  refine ⟨h, ?_, hw', hl⟩
  unfold onFifo
  rw [he]

/-- A page in hands has been put on list `q`, and no mark has changed. -/
structure Put (s : State) (p : PageId) (q : ListId) (u : State) : Prop where
  wf : u.fifo.Wf
  listOf : u.fifo.listOf = update s.fifo.listOf p (some q)
  marks : u.marks = s.marks

theorem onFifo_put (hw : s.fifo.Wf) (hp : s.fifo.listOf p = none) (q : ListId) :
    Sat (onFifo (enqueueFifo q p)) (fun _ u => Put s p q u) (fun _ => False) s := by
  obtain ⟨h, he, hw', hl⟩ := onFifo_enqueue hw hp q
  exact (sat_of_ok he).2 ⟨hw', hl, rfl⟩

/-- The links and the marks. -/
def State.linksMarks (s : State) : Heap ListId PageId × (PageId → Bool) := (s.fifo, s.marks)

theorem marks_page {P : HememPage} (hP : P.enforced = (s.page p).enforced) :
    State.marks { s with page := update s.page p P } = s.marks := by
  funext x
  rcases eq_or_ne x p with rfl | hx
  · simp [State.marks, hP]
  · simp [State.marks, update_of_ne hx]

theorem linksMarks_page {P : HememPage} (hP : P.enforced = (s.page p).enforced) :
    State.linksMarks { s with page := update s.page p P } = s.linksMarks :=
  Prod.ext rfl (marks_page hP)

theorem frames_linksMarks_pebsMigrate {up : Bool} {offset : UInt64} :
    Frames State.linksMarks (pebsMigrate cfg up p offset) := by
  have hmigrate : Frames State.linksMarks (hememMigrate cfg up p offset) := by
    unfold hememMigrate
    refine frames_get.bind fun _ => Frames.bind (fun _ => rfl) fun _ => ?_
    refine frames_check.bind fun _ => frames_check.bind fun _ => frames_check.bind fun _ => ?_
    refine Frames.bind (fun _ => rfl) fun _ => Frames.bind (fun _ => rfl) fun _ => ?_
    exact frames_check.bind fun _ _ => linksMarks_page rfl
  have hdir : (if up then hememMigrateUp cfg else hememMigrateDown cfg) = hememMigrate cfg up := by
    cases up <;> rfl
  have hwp : Frames State.linksMarks (hememWpPage p true) :=
    frames_get.bind fun _ => frames_check.bind fun _ => frames_check.bind fun _ _ => rfl
  have hmove : Frames State.linksMarks (do
      modifyPage p ({ · with migrating := true })
      hememWpPage p true
      hememMigrate cfg up p offset
      modifyPage p ({ · with migrating := false })) :=
    Frames.bind (fun _ => linksMarks_page rfl) fun _ => hwp.bind fun _ => hmigrate.bind fun _ _ =>
      linksMarks_page rfl
  unfold pebsMigrate
  rw [hdir]
  cases up with
  | true => exact hmove
  | false => exact frames_get.bind fun _ => frames_ite frames_pure hmove

theorem moveFrame_put {up : Bool} (hw : s.fifo.Wf) (hp : s.fifo.listOf p = none) :
    Sat (moveFrame cfg up p np) (fun _ u => Put s p (if up then .dramHot else .nvmCold) u)
      (fun _ => True) s := by
  have hdir : (if up then pebsMigrateUp cfg else pebsMigrateDown cfg) = pebsMigrate cfg up := by
    cases up <;> rfl
  unfold moveFrame
  rw [hdir]
  refine sat_getPage.2 ?_
  rw [sat_bind, sat_check]
  refine ⟨fun _ => sat_getPage.2 (sat_getPage.2 ?_), fun _ => trivial⟩
  refine (frames_linksMarks_pebsMigrate s).bind fun _ u hu => sat_modifyPage.2 ?_
  obtain ⟨hf, hm⟩ := Prod.mk.inj hu
  refine (onFifo_put (hf ▸ hw) (hf ▸ hp) _).mono (fun _ w hw => ⟨hw.wf, ?_, ?_⟩) fun _ _ => trivial
  · rw [hw.listOf]
    exact congrArg (fun f : Heap ListId PageId => update f.listOf p _) hf
  · exact (hw.marks.trans (marks_page (by rfl))).trans hm

theorem judgePage_sat (hw : s.fifo.Wf) (hp : s.fifo.listOf p = none) :
    Sat (judgePage p) (fun r u => if r then u.linksMarks = s.linksMarks else Put s p .nvmCold u)
      (fun _ => False) s := by
  have hrest : ∀ t : State, t.linksMarks = s.linksMarks → Sat (do
      if (← getPage p).reads < hotReadThreshold then
        modifyPage p ({ · with hot := false })
        onFifo (enqueueFifo .nvmCold p)
        return false
      else
        return true)
      (fun r u => if r then u.linksMarks = s.linksMarks else Put s p .nvmCold u)
      (fun _ => False) t := fun t ht => by
    obtain ⟨hf, hm⟩ := Prod.mk.inj ht
    refine sat_getPage.2 ?_
    rw [sat_ite]
    refine ⟨fun _ => sat_modifyPage.2 ?_, fun _ => ht⟩
    refine (onFifo_put (hf ▸ hw) (hf ▸ hp) _).bind fun _ w hw => ⟨hw.wf, ?_, ?_⟩
    · rw [hw.listOf]
      exact congrArg (fun f : Heap ListId PageId => update f.listOf p _) hf
    · exact (hw.marks.trans (marks_page (by rfl))).trans hm
  unfold judgePage
  rw [sat_bind, sat_get, sat_ite]
  refine ⟨fun _ => ?_, fun _ => hrest s rfl⟩
  rw [sat_bind, sat_modify]
  exact hrest _ rfl

theorem handOut_put {dram : Bool} (hw : s.fifo.Wf) (hp : s.fifo.listOf p = none) :
    Sat (handOut dram p) (fun _ u => Put s p (coldList dram) u) (fun _ => True) s := by
  unfold handOut
  refine sat_getPage.2 ?_
  rw [sat_bind, sat_check]
  refine ⟨fun _ => sat_getPage.2 ?_, fun _ => trivial⟩
  rw [sat_bind, sat_check]
  refine ⟨fun _ => sat_modifyPage.2 ?_, fun _ => trivial⟩
  refine (onFifo_put (by exact hw) (by exact hp) _).mono (fun _ w hw => ⟨hw.wf, hw.listOf, ?_⟩)
    fun _ _ => trivial
  exact hw.marks.trans (marks_page (by rfl))

end Lists

namespace MigratePhase

/-- The tries left, where the thread is past the search of a try. -/
def tries : MigratePhase → Option ℕ
  | attempt _ _ n | takeNvm _ _ _ n | moveDown _ _ _ _ n | freeDram _ _ _ n => some n
  | _ => none

end MigratePhase

namespace MigrateRace

variable {s s' : MigrateRace T} {u : State}

/-- What each thread has in its hands; `none` is the policy thread. -/
def hands (s : MigrateRace T) : Option T → List PageId
  | none => s.policy.held
  | some t => (s.allocator t).page.toList

structure Inv (n : ℕ) (s : MigrateRace T) : Prop where
  wf : s.state.fifo.Wf
  plain : ∀ p, (s.state.page p).enforced = false
  custody : Custody s.state.fifo.listOf s.hands (· < n)
  tries : s.policy.tries ≠ some 0

theorem Starts.inv (h : s.Starts n) : s.Inv n where
  wf := h.wf
  plain := h.plain
  custody := by
    have hno : ∀ w, s.hands w = [] := fun w => by
      rcases w with _ | t
      · rw [hands, h.policy]
        rfl
      · rw [hands, h.allocator]
        rfl
    refine ⟨fun w x hx => ?_, fun w => ?_, fun v w x hx => ?_, fun x hx hp => ?_⟩
    · rw [hno] at hx
      cases hx
    · rw [hno]
      exact List.nodup_nil
    · rw [hno] at hx
      cases hx
    · exact absurd hp (h.listed x hx)
  tries := by
    rw [h.policy]
    nofun

theorem Inv.enforced (h : s.Inv n) (hm : u.marks = s.state.marks) (p : PageId) :
    (u.page p).enforced = false :=
  (congrFun hm p).trans (h.plain p)

/-- A holder takes a page off a list. -/
theorem Inv.take (h : s.Inv n) {w : Option T} (hw : s'.state.fifo.Wf)
    (hm : s'.state.marks = s.state.marks) (hp : s.state.fifo.listOf p = some q)
    (hl : s'.state.fifo.listOf = update s.state.fifo.listOf p none)
    (hr : (s'.hands w).Perm (p :: s.hands w)) (ho : ∀ v, v ≠ w → s'.hands v = s.hands v)
    (ht : s'.policy.tries ≠ some 0) : s'.Inv n :=
  ⟨hw, h.enforced hm, hl ▸ h.custody.take hp hr ho, ht⟩

/-- A holder puts a page on a list. -/
theorem Inv.give (h : s.Inv n) {w : Option T} (hu : Put s.state p q s'.state)
    (hr : (s.hands w).Perm (p :: s'.hands w)) (ho : ∀ v, v ≠ w → s'.hands v = s.hands v)
    (ht : s'.policy.tries ≠ some 0) : s'.Inv n :=
  ⟨hu.wf, h.enforced hu.marks, hu.listOf ▸ h.custody.give hr ho, ht⟩

/-- All holders go on with the same pages in their hands. -/
theorem Inv.stay (h : s.Inv n) (hu : s'.state.linksMarks = s.state.linksMarks)
    (hr : ∀ w, s'.hands w = s.hands w) (ht : s'.policy.tries ≠ some 0) : s'.Inv n := by
  obtain ⟨hf, hm⟩ := Prod.mk.inj hu
  refine ⟨hf ▸ h.wf, h.enforced hm, ?_, ht⟩
  have hc : Custody s'.state.fifo.listOf s.hands (· < n) := hf ▸ h.custody
  exact hc.congr fun w => by rw [hr w]

section Policy

variable {r : MigratePhase}

theorem hands_policy {v : Option T} (hv : v ≠ none) :
    ({ s with state := u, policy := r } : MigrateRace T).hands v = s.hands v := by
  cases v with
  | none => exact absurd rfl hv
  | some t => rfl

theorem Inv.policyStay (h : s.Inv n) (hu : u.linksMarks = s.state.linksMarks)
    (hr : r.held = s.policy.held) (ht : r.tries ≠ some 0) :
    ({ s with state := u, policy := r } : MigrateRace T).Inv n :=
  h.stay hu (fun w => by cases w <;> first | exact hr | rfl) ht

theorem Inv.policyTake (h : s.Inv n) {f : Heap ListId PageId} (hw : f.Wf)
    (hp : s.state.fifo.listOf p = some q) (hl : f.listOf = update s.state.fifo.listOf p none)
    (hr : r.held.Perm (p :: s.policy.held)) (ht : r.tries ≠ some 0) :
    ({ s with state := { s.state with fifo := f }, policy := r } : MigrateRace T).Inv n :=
  h.take (w := none) hw rfl hp hl hr (fun _ hv => hands_policy hv) ht

theorem Inv.policyGive (h : s.Inv n) (hu : Put s.state p q u)
    (hr : s.policy.held.Perm (p :: r.held)) (ht : r.tries ≠ some 0) :
    ({ s with state := u, policy := r } : MigrateRace T).Inv n :=
  h.give (w := none) hu hr (fun _ hv => hands_policy hv) ht

theorem policyDoes_eq_some {α : Type} {m : M α} {k : State → α → Option MigratePhase}
    (h : s.policyDoes m k = some s') : ∃ a u r, m s.state = .ok (a, u) ∧ k u a = some r ∧
      s' = { s with state := u, policy := r } := by
  obtain ⟨⟨a, u⟩, hm, hk⟩ := Option.bind_eq_some_iff.1 h
  obtain ⟨r, hr, rfl⟩ := Option.map_eq_some_iff.1 hk
  exact ⟨a, u, r, toOption_eq_some.1 hm, hr, rfl⟩

/-- A page in the hands of the policy thread is on no list. -/
theorem Inv.off (h : s.Inv n) (hp : p ∈ s.policy.held) : s.state.fifo.listOf p = none :=
  h.custody.off none p hp

/-- A step that takes a page off a list, or finds it empty. -/
theorem dequeue_eq_some (hw : s.state.fifo.Wf) {k : State → Option PageId → Option MigratePhase}
    (h : s.policyDoes (onFifo (dequeueFifo q)) k = some s') :
    (∃ r, k s.state none = some r ∧ s' = { s with policy := r }) ∨
      ∃ x f r, f.Wf ∧ s.state.fifo.listOf x = some q ∧
        f.listOf = update s.state.fifo.listOf x none ∧ (s.state.fifo.list q).last = some x ∧
        k { s.state with fifo := f } (some x) = some r ∧
        s' = { s with state := { s.state with fifo := f }, policy := r } := by
  obtain ⟨a, u, r, hm, hk, rfl⟩ := policyDoes_eq_some h
  rcases onFifo_dequeue hw q with he | ⟨x, f, he, hw, hx, hl, hlast⟩
  · rw [he] at hm
    cases hm
    exact .inl ⟨r, hk, rfl⟩
  · rw [he] at hm
    cases hm
    exact .inr ⟨x, f, r, hw, hx, hl, hlast, hk, rfl⟩

theorem Inv.policyStep (h : s.Inv n)
    (hsp : s.policy.lastSearch = true → (s.state.fifo.list .dramCold).last = none)
    (hs : s.policyStep cfg = some s') : s'.Inv n := by
  unfold MigrateRace.policyStep at hs
  cases hp : s.policy with
  | next bytes =>
    simp only [hp] at hs
    split at hs
    · obtain ⟨r, hk, rfl⟩ | ⟨x, f, r, hw, hx, hl, -, hk, rfl⟩ := dequeue_eq_some h.wf hs
      · cases hk
        exact h.policyStay rfl (by rw [hp]; rfl) nofun
      · cases hk
        exact h.policyTake hw hx hl (by rw [hp]; exact .refl _) nofun
    · cases hs
      exact h.policyStay rfl (by rw [hp]; rfl) nofun
  | judge p bytes =>
    simp only [hp] at hs
    obtain ⟨a, u, r, hm, hk, rfl⟩ := policyDoes_eq_some hs
    have hj := (judgePage_sat h.wf (h.off (by rw [hp]; exact .head _))).ok hm
    cases hk
    cases a
    · exact h.policyGive hj (by rw [hp]; exact .refl _) nofun
    · exact h.policyStay hj (by rw [hp]; rfl) (by simp [MigratePhase.tries])
  | attempt p bytes tries =>
    rcases tries with _ | tries
    · exact absurd (by rw [hp]; rfl) h.tries
    simp only [hp] at hs
    obtain ⟨r, hk, rfl⟩ | ⟨x, f, r, hw, hx, hl, -, hk, rfl⟩ := dequeue_eq_some h.wf hs
    · cases hk
      exact h.policyStay rfl (by rw [hp]; rfl) nofun
    · cases hk
      exact h.policyTake hw hx hl (by rw [hp]; exact .refl _) nofun
  | moveUp p np bytes =>
    simp only [hp] at hs
    obtain ⟨a, u, r, hm, hk, rfl⟩ := policyDoes_eq_some hs
    cases hk
    have hput := (moveFrame_put h.wf (h.off (p := p) (by rw [hp]; exact .tail _ (.head _)))).ok hm
    exact h.policyGive hput (by rw [hp]; exact .swap _ _ _) nofun
  | freeNvm p np bytes =>
    simp only [hp] at hs
    obtain ⟨a, u, r, hm, hk, rfl⟩ := policyDoes_eq_some hs
    cases hk
    have hput := (onFifo_put h.wf (h.off (p := np) (by rw [hp]; exact .head _)) _).ok hm
    exact h.policyGive hput (by rw [hp]; exact .refl _) nofun
  | victim p bytes tries =>
    simp only [hp] at hs
    obtain ⟨r, hk, rfl⟩ | ⟨x, f, r, hw, hx, hl, hlast, hk, rfl⟩ := dequeue_eq_some h.wf hs
    · cases hk
      exact h.policyStay rfl (by rw [hp]; rfl) nofun
    · have hx' : (s.state.page x).enforced = false := h.plain x
      simp only [hx', Bool.false_eq_true, if_false, Option.some.injEq] at hk
      subst hk
      refine h.policyTake hw hx hl (by rw [hp]; exact .refl _) fun ht => ?_
      obtain rfl : tries = 0 := by simpa [MigratePhase.tries] using ht
      rw [hsp (by rw [hp]; rfl)] at hlast
      cases hlast
  | putBack p =>
    simp only [hp] at hs
    obtain ⟨a, u, r, hm, hk, rfl⟩ := policyDoes_eq_some hs
    cases hk
    have hput := (onFifo_put h.wf (h.off (p := p) (by rw [hp]; exact .head _)) _).ok hm
    exact h.policyGive hput (by rw [hp]; exact .refl _) nofun
  | takeNvm p cp bytes tries =>
    simp only [hp] at hs
    obtain ⟨r, hk, rfl⟩ | ⟨x, f, r, hw, hx, hl, -, hk, rfl⟩ := dequeue_eq_some h.wf hs
    · cases hk
    · cases hk
      exact h.policyTake hw hx hl (by rw [hp]; exact .refl _) (hp ▸ h.tries :)
  | moveDown p cp np bytes tries =>
    simp only [hp] at hs
    obtain ⟨a, u, r, hm, hk, rfl⟩ := policyDoes_eq_some hs
    cases hk
    have hput := (moveFrame_put h.wf (h.off (p := cp) (by rw [hp]; exact .tail _ (.head _)))).ok hm
    exact h.policyGive hput (by rw [hp]; exact .swap _ _ _) (hp ▸ h.tries :)
  | freeDram p np bytes tries =>
    simp only [hp] at hs
    obtain ⟨a, u, r, hm, hk, rfl⟩ := policyDoes_eq_some hs
    cases hk
    have hput := (onFifo_put h.wf (h.off (p := np) (by rw [hp]; exact .head _)) _).ok hm
    exact h.policyGive hput (by rw [hp]; exact .refl _) (hp ▸ h.tries :)
  | out =>
    simp only [hp, Option.some.injEq] at hs
    subst hs
    exact h.policyStay rfl (by rw [hp]; rfl) nofun

end Policy

section Allocators

variable [DecidableEq T] {t : T} {r : AllocPhase}

theorem hands_allocator {v : Option T} (hv : v ≠ some t) :
    ({ s with state := u, allocator := update s.allocator t r } : MigrateRace T).hands v =
      s.hands v := by
  cases v with
  | none => rfl
  | some t' => exact congrArg (AllocPhase.page · |>.toList) (update_of_ne (fun h => hv (congrArg some h)) ..)

theorem hands_allocator_self :
    ({ s with state := u, allocator := update s.allocator t r } : MigrateRace T).hands (some t) =
      r.page.toList :=
  congrArg (AllocPhase.page · |>.toList) (update_self ..)

theorem Inv.allocatorStay (h : s.Inv n) (hr : r.page = (s.allocator t).page) :
    ({ s with allocator := update s.allocator t r } : MigrateRace T).Inv n :=
  h.stay rfl (fun w => by
    by_cases hw : w = some t
    · subst hw
      exact hands_allocator_self.trans (congrArg Option.toList hr)
    · exact hands_allocator hw) h.tries

theorem allocatorDoes_eq_some {α : Type} {m : M α} {k : α → Option AllocPhase}
    (h : s.allocatorDoes t m k = some s') : ∃ a u r, m s.state = .ok (a, u) ∧ k a = some r ∧
      s' = { s with state := u, allocator := update s.allocator t r } := by
  obtain ⟨⟨a, u⟩, hm, hk⟩ := Option.bind_eq_some_iff.1 h
  obtain ⟨r, hr, rfl⟩ := Option.map_eq_some_iff.1 hk
  exact ⟨a, u, r, toOption_eq_some.1 hm, hr, rfl⟩

/-- An allocating thread with empty hands looks for a free page. -/
theorem Inv.allocatorTake (h : s.Inv n) {k : Option PageId → Option AllocPhase}
    (hfree : (s.allocator t).page = none) (hnone : ∀ r, k none = some r → r.page = none)
    (hsome : ∀ x r, k (some x) = some r → r.page = some x)
    (hs : s.allocatorDoes t (onFifo (dequeueFifo q)) k = some s') : s'.Inv n := by
  obtain ⟨a, u, r, hm, hk, rfl⟩ := allocatorDoes_eq_some hs
  rcases onFifo_dequeue h.wf q with he | ⟨x, f, he, hw, hx, hl, -⟩
  · rw [he] at hm
    cases hm
    exact h.allocatorStay ((hnone r hk).trans hfree.symm)
  · rw [he] at hm
    cases hm
    refine h.take (w := some t) hw rfl hx hl ?_ (fun _ hv => hands_allocator hv) h.tries
    rw [hands_allocator_self, hsome x r hk, hands, hfree]
    exact .refl _

theorem Inv.allocatorStep (h : s.Inv n) (hs : s.allocatorStep t = some s') : s'.Inv n := by
  unfold MigrateRace.allocatorStep at hs
  cases ha : s.allocator t with
  | idle =>
    simp only [ha, Option.some.injEq] at hs
    subst hs
    exact h.allocatorStay (by rw [ha]; rfl)
  | takeDram =>
    simp only [ha] at hs
    refine h.allocatorTake (by rw [ha]; rfl) (fun r hr => ?_) (fun x r hr => ?_) hs
    all_goals
      cases hr
      rfl
  | takeNvm =>
    simp only [ha] at hs
    refine h.allocatorTake (by rw [ha]; rfl) (fun r hr => ?_) (fun x r hr => ?_) hs
    all_goals
      cases hr
    rfl
  | put dram p =>
    simp only [ha] at hs
    obtain ⟨a, u, r, hm, hk, rfl⟩ := allocatorDoes_eq_some hs
    cases hk
    have hmem : p ∈ s.hands (some t) := by
      rw [hands, ha]
      exact .head _
    have hput := (handOut_put h.wf (h.custody.off _ _ hmem)).ok hm
    refine h.give (w := some t) hput ?_ (fun _ hv => hands_allocator hv) h.tries
    rw [hands_allocator_self, hands, ha]
    exact .refl _

theorem Inv.step {a : MigrateAct T} (h : s.Inv n) (hsp : a.Spares s)
    (hs : a.next cfg s = some s') : s'.Inv n := by
  cases a with
  | policy => exact h.policyStep hsp hs
  | allocator t => exact h.allocatorStep hs

end Allocators

theorem Inv.accounted (h : s.Inv n) : s.Accounted n := by
  intro bytes hb p hp
  have hcount : ∀ q, (s.state.fifo.contents q).count p =
      if s.state.fifo.listOf p = some q then 1 else 0 := fun q => by
    rw [h.wf.nodup_contents.count]
    simp only [h.wf.mem_contents]
  cases hl : s.state.fifo.listOf p with
  | some q =>
    refine .inl ⟨⟨q, fun q' => ?_⟩, fun t ht => ?_⟩
    · rw [hcount, hl]
      simp only [Option.some.injEq, eq_comm]
    · have hoff := h.custody.off (some t) p (by rw [hands, ht]; exact .head _)
      rw [hoff] at hl
      cases hl
  | none =>
    refine .inr ⟨fun q => by rw [hcount, hl]; rfl, ?_⟩
    obtain ⟨w, hw⟩ := h.custody.kept p hp hl
    cases w with
    | none =>
      rw [hands, hb] at hw
      cases hw
    | some t =>
      refine ⟨t, fun t' => ⟨fun ht' => ?_, ?_⟩⟩
      · exact Option.some.inj
          (h.custody.alone (some t') (some t) p (by rw [hands, ht']; exact .head _) hw)
      · rintro rfl
        simpa [hands] using hw

end MigrateRace

section Main

variable [DecidableEq T] {kernel : Kernel} {l : State}

/-- No page is lost as long as no last search for a cold DRAM page finds one. -/
theorem migration_loses_none {s : MigrateRace T}
    (h : (migrateRace T cfg).Reach (fun s a => a.Spares s) s) : s.Accounted cfg.pages :=
  (h.invariant (fun _ h => h.inv) fun _ _ _ hi hsp hs => hi.step hsp hs).accounted

/-- The policy thread comes to its migration loop in state `u`, and no thread allocates. -/
def MigrateRace.start (u : State) : MigrateRace T := ⟨u, .next 0, fun _ => .idle⟩

omit [DecidableEq T] in
/-- A pass of a program that gives no hints comes to its migration loop in such a state. -/
theorem migration_starts {u : State}
    (h : (policy cfg kernel).Reach (fun s op => op.Legal cfg s ∧ op.Plain) l)
    (hb : beforeMigration l = .ok ((), u)) :
    (MigrateRace.start u : MigrateRace T).Starts cfg.pages := by
  obtain ⟨hg, hI, -⟩ := plain_reach h
  obtain ⟨hg', hm, -⟩ := ((beforeMigration_spec cfg Allow.none (.inl trivial)).at hg rfl).ok hb
  have hI' : Inv cfg.pages Allow.none u.view := inv_kept.moves hI hm
  exact ⟨hg'.fifo, hI'.listed.resolve_left id, hI'.enforced.resolve_left id, rfl, fun _ => rfl⟩

theorem migrateRace_reach (cfg : Config) (kernel : Kernel) (ops : List Op)
    (D : MigrateRace T → MigrateAct T → Prop) [∀ s, DecidablePred (D s)]
    (acts : List (MigrateAct T)) (P : MigrateRace T → Bool)
    (h : ((pebsInit cfg (State.blank kernel)).toOption.bind fun r =>
      System.drive (Op.next cfg · ·) (fun s op => op.Legal cfg s ∧ op.Plain) ops r.2).any (fun l =>
        (beforeMigration l).toOption.any fun r =>
          (System.drive (fun s a => a.next cfg s) D acts (MigrateRace.start r.2)).any P) = true) :
    ∃ l u, (policy cfg kernel).Reach (fun s op => op.Legal cfg s ∧ op.Plain) l ∧
      beforeMigration l = .ok ((), u) ∧ ∃ s, System.drive (fun s a => a.next cfg s) D acts
        (MigrateRace.start u) = some s ∧ (migrateRace T cfg).Reach D s ∧ P s = true := by
  obtain ⟨l, hl, hP⟩ := policy_reach cfg kernel _ (fun _ _ => id) ops _ h
  obtain ⟨⟨⟨⟩, u⟩, hu, hP⟩ := (Option.any_eq_true _ _).1 hP
  obtain ⟨s, hs, hP⟩ := (Option.any_eq_true _ _).1 hP
  have hb : beforeMigration l = .ok ((), u) := toOption_eq_some.1 hu
  have hinit : (migrateRace T cfg).Reach D (MigrateRace.start u) := .init (migration_starts hl hb)
  exact ⟨l, u, hl, hb, s, hs, hinit.drive (fun _ _ _ => id) (fun _ _ => id) hs, hP⟩

end Main

/-- Two frames in DRAM and three in NVM. -/
def fiveFrames : Config := ⟨2 * pageSize, 3 * pageSize, 0, 0⟩

/-- DRAM is given out, and page 2 in NVM is hot. -/
def hotInNvm : List Op :=
  [.allocate, .assign 0 hugepageSize, .allocate, .assign 1 (2 * hugepageSize), .allocate,
    .assign 2 (3 * hugepageSize)] ++ List.replicate 8 (.sample .nvmread 2)

/-- Page 2 moves up while a thread has page 4 in its hands. -/
theorem migration_loses_none_moved : ∃ s : MigrateRace (Fin 1),
    s.state.fifo.contents .dramHot = [2] ∧ (s.allocator 0).page = some 4 ∧
      s.Accounted fiveFrames.pages := by
  obtain ⟨-, -, -, -, s, -, hs, hP⟩ := migrateRace_reach fiveFrames Kernel.fresh hotInNvm
    (fun (s : MigrateRace (Fin 1)) a => a.Spares s)
    (List.replicate 6 .policy ++ List.replicate 3 (.allocator 0) ++ List.replicate 4 .policy)
    (fun s => s.state.fifo.contents .dramHot = [2] ∧ (s.allocator 0).page = some 4)
    (by decide +kernel)
  obtain ⟨h1, h2⟩ := of_decide_eq_true hP
  exact ⟨s, h1, h2, migration_loses_none hs⟩

/-- A thread takes the DRAM page that the first try for page 2 has freed, and the second try moves
another page down. -/
theorem migration_loses_page : ∃ l u, (policy fiveFrames Kernel.fresh).Reach
    (fun s op => op.Legal fiveFrames s ∧ op.Plain) l ∧ beforeMigration l = .ok ((), u) ∧
    ∃ (s : MigrateRace (Fin 1)) (acts : List (MigrateAct (Fin 1))),
      System.drive (fun s a => a.next fiveFrames s) (fun _ _ => True) acts
        (MigrateRace.start u) = some s ∧
      (migrateRace (Fin 1) fiveFrames).Reach (fun _ _ => True) s ∧
      s.policy = .next 0 ∧ s.allocator 0 = .idle ∧ (∀ q, (s.state.fifo.contents q).count 2 = 0) ∧
      ¬ s.Accounted fiveFrames.pages := by
  obtain ⟨l, u, hl, hb, s, hd, hs, hP⟩ := migrateRace_reach fiveFrames Kernel.fresh hotInNvm
    (fun (_ : MigrateRace (Fin 1)) _ => True)
    (List.replicate 7 .policy ++ List.replicate 3 (.allocator 0) ++ List.replicate 6 .policy)
    (fun s => s.policy = .next 0 ∧ s.allocator 0 = .idle ∧
      ∀ q ∈ [ListId.dramHot, .dramCold, .nvmHot, .nvmCold, .dramFree, .nvmFree],
        (s.state.fifo.contents q).count 2 = 0) (by decide +kernel)
  obtain ⟨hp, ha, hq⟩ := of_decide_eq_true hP
  have hno : ∀ q, (s.state.fifo.contents q).count 2 = 0 := fun q => hq q (by cases q <;> decide)
  refine ⟨l, u, hl, hb, s, _, hd, hs, hp, ha, hno, fun hacc => ?_⟩
  rcases hacc 0 hp 2 (by decide) with ⟨⟨q, hone⟩, -⟩ | ⟨-, t, ht⟩
  · have h1 := hone q
    rw [hno q, if_pos rfl] at h1
    cases h1
  · have h2 := (ht t).2 rfl
    rw [Subsingleton.elim t 0, ha] at h2
    cases h2

end HeMem

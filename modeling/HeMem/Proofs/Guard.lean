import HeMem.Guard
import HeMem.Proofs.Interpose

/-!
# When the flag nests

A function that sets the flag and calls no other that does keeps it set until it clears it.  A fault
hinted for DRAM that finds no free page there write-protects a page and moves it down, and each of
the two leaves the flag cleared; at most the first fault of a call is hinted.
-/

namespace HeMem

open Hoare Function

variable {α β : Type} {cfg : Config} {s : State} {t : Thread} {p np : PageId} {a b : UInt64}
  {up : Bool} {offset length : UInt64}

section Erasure

theorem erases_onState {m : M α} : Erases Thread.state (onState m) m := fun t => by
  unfold onState
  rcases m t.state with e | ⟨x, s⟩ <;> rfl

theorem erases_guarded {m : ThreadM α} {n : M α} (h : Erases Thread.state m n) :
    Erases Thread.state (guarded m) n := by
  have hend : ∀ x : α, Erases Thread.state (do
      setInternalCall false
      return x) (pure x : M α) := fun x => by
    refine Erases.silent (fun t => ?_) erases_pure
    rfl
  unfold guarded
  rw [← bind_pure n]
  refine Erases.silent (fun t => ?_) (h.bind hend)
  rfl

/-- What comes after a call of `libc_mmap` is noted. -/
theorem erases_issue {k : Unit → ThreadM α} {n : M α} (h : Erases Thread.state (k ()) n) :
    Erases Thread.state (issue >>= k) n := by
  refine Erases.silent (fun t => ?_) h
  rfl

theorem erases_hememMigrate :
    Erases Thread.state (Guarded.hememMigrate cfg up p offset) (hememMigrate cfg up p offset) := by
  refine erases_guarded ?_
  unfold hememMigrate
  refine erases_onState.bind fun P => erases_onState.bind fun _ => erases_check.bind fun _ => ?_
  refine erases_check.bind fun _ => erases_check.bind fun _ => erases_onState.bind fun _ => ?_
  exact erases_issue (erases_onState.bind fun _ => erases_check.bind fun _ => erases_onState)

theorem erases_pebsMigrate :
    Erases Thread.state (Guarded.pebsMigrate cfg up p offset) (pebsMigrate cfg up p offset) := by
  have hmigrate : Erases Thread.state
      ((if up then Guarded.hememMigrateUp cfg else Guarded.hememMigrateDown cfg) p offset)
      ((if up then hememMigrateUp cfg else hememMigrateDown cfg) p offset) := by
    cases up <;> exact erases_hememMigrate
  unfold Guarded.pebsMigrate pebsMigrate
  have hmove : Erases Thread.state (do
      onState (modifyPage p ({ · with migrating := true }))
      Guarded.hememWpPage p true
      (if up then Guarded.hememMigrateUp cfg else Guarded.hememMigrateDown cfg) p offset
      onState (modifyPage p ({ · with migrating := false }))) (do
      modifyPage p ({ · with migrating := true })
      hememWpPage p true
      (if up then hememMigrateUp cfg else hememMigrateDown cfg) p offset
      modifyPage p ({ · with migrating := false })) :=
    erases_onState.bind fun _ => (erases_guarded erases_onState).bind fun _ =>
      hmigrate.bind fun _ => erases_onState
  cases up
  · exact erases_onState.bind fun P => erases_ite erases_pure hmove
  · exact hmove

theorem erases_exchange :
    Erases Thread.state (Guarded.exchange cfg up p np) (exchange cfg up p np) := by
  have hmigrate : ∀ offset, Erases Thread.state
      ((if up then Guarded.pebsMigrateUp cfg else Guarded.pebsMigrateDown cfg) p offset)
      ((if up then pebsMigrateUp cfg else pebsMigrateDown cfg) p offset) := by
    cases up <;> exact fun _ => erases_pebsMigrate
  unfold Guarded.exchange exchange
  refine erases_onState.bind fun P => erases_onState.bind fun N => (hmigrate _).bind fun _ => ?_
  exact erases_onState.bind fun _ => erases_onState.bind fun _ => erases_onState

theorem erases_pebsPagefault :
    Erases Thread.state (Guarded.pebsPagefault cfg) (pebsPagefault cfg) := by
  have hinted : Erases Thread.state (Guarded.userHintedDramPebsAllocatePage cfg)
      (userHintedDramPebsAllocatePage cfg) := by
    unfold Guarded.userHintedDramPebsAllocatePage userHintedDramPebsAllocatePage
    refine erases_onState.bind fun r => ?_
    rcases r with _ | page
    · refine erases_onState.bind fun _ => erases_onState.bind fun cp => ?_
      refine erases_onState.bind fun fp => ?_
      rcases cp with _ | cp
      · exact erases_throw
      rcases fp with _ | fp
      · exact erases_throw
      refine erases_exchange.bind fun _ => erases_onState.bind fun r => ?_
      rcases r with _ | page
      · exact erases_throw
      · exact erases_pure
    · exact erases_pure
  intro t
  exact erases_ite (c := t.state.userHintTier = 0) hinted erases_onState t

theorem erases_populatePage :
    Erases Thread.state (Guarded.populatePage cfg a) (populatePage cfg a) :=
  erases_pebsPagefault.bind fun _ => erases_issue erases_onState

theorem erases_populateLoop : ∀ {turns : ℕ} {a : UInt64},
    Erases Thread.state (Guarded.populateLoop cfg b turns a) (populateLoop cfg b turns a)
  | 0, _ => erases_throw
  | turns + 1, a => by
    unfold Guarded.populateLoop populateLoop
    exact erases_ite (erases_populatePage.bind fun _ => erases_populateLoop) erases_pure

theorem erases_hememMmap : Erases Thread.state (Guarded.hememMmap cfg length offset a)
    (hememMmap cfg length offset a) := by
  have hpopulate : Erases Thread.state (Guarded.hememMmapPopulate cfg a (pageRoundUp length))
      (hememMmapPopulate cfg a (pageRoundUp length)) :=
    erases_check.bind fun _ => erases_check.bind fun _ => erases_populateLoop
  refine erases_guarded (erases_check.bind fun _ => erases_issue ?_)
  refine erases_check.bind fun _ => erases_onState.bind fun _ => hpopulate.bind fun _ => ?_
  exact erases_onState.bind fun _ => erases_pure

/-- Without the flag, the calls are those of the program. -/
theorem GuardedCall.erases (call : GuardedCall) :
    Erases Thread.state (call.run cfg) (call.unguarded cfg) := by
  cases call with
  | mmap length offset p => exact erases_hememMmap.bind fun _ => erases_pure
  | munmap addr length unmaps =>
    exact erases_guarded (erases_onState.bind fun _ => erases_issue
      (erases_ite erases_onState erases_pure))
  | migrateUp page dramOffset => exact erases_hememMigrate
  | migrateDown page nvmOffset => exact erases_hememMigrate
  | wpPage page protect => exact erases_guarded erases_onState
  | wpFault pageBoundry => exact erases_guarded erases_onState
  | missingFault pageBoundry =>
    exact erases_guarded (erases_check.bind fun _ => erases_populatePage.bind fun _ => erases_pure)

end Erasure

section Search

theorem dequeueFifo_none {q : ListId} : Sat (onFifo (dequeueFifo q))
    (fun r _ => r = none ↔ (s.fifo.list q).last = none) (fun _ => True) s := by
  have hdequeue : Sat (dequeueFifo q) (fun r _ => r = none ↔ (s.fifo.list q).last = none)
      (fun _ => True) s.fifo := by
    unfold dequeueFifo
    rw [sat_bind, sat_get]
    split
    · rename_i hl
      exact iff_of_true rfl hl
    · rename_i ret hl
      have hsome : ¬ some ret = none := by simp
      have hlast : ¬ (s.fifo.list q).last = none := by simp [hl]
      rw [sat_bind, sat_get, sat_bind, sat_modify]
      split <;>
      · iterate 4 refine sat_true.bind fun _ _ (_ : True) => ?_
        rw [sat_bind, sat_get, sat_bind, sat_check]
        refine ⟨fun _ => ?_, fun _ => trivial⟩
        refine sat_true.bind fun _ _ (_ : True) => ?_
        exact iff_of_false hsome hlast
  rcases hm : dequeueFifo q s.fifo with e | ⟨r, h⟩
  · have he : onFifo (dequeueFifo q) s = .error (.fifo e) := by
      unfold onFifo
      rw [hm]
    exact (sat_of_error he).2 trivial
  · exact (sat_onFifo hm).2 (hdequeue.ok hm)

theorem hintedTakeFree_none : Sat hintedTakeFree (fun r s' =>
    (r = none ↔ (s.fifo.list .dramFree).last = none) ∧ (r ≠ none → s'.userHintTier ≠ 0))
    (fun _ => True) s := by
  have reset : ∀ (t : State) (q : ListId) (x : PageId), Sat (do
        onFifo (enqueueFifo q x)
        modify fun s : State => { s with userHintTier := -1, userHintPriority := -1 }
        return some x : M (Option PageId)) (fun r s' => r ≠ none ∧ s'.userHintTier ≠ 0)
        (fun _ => True) t := fun t q x => by
    refine onFifo_frame.bind fun _ t' _ => ?_
    rw [sat_bind, sat_modify, sat_pure]
    exact ⟨by simp, (by decide : (-1 : ℤ) ≠ 0)⟩
  unfold hintedTakeFree
  refine dequeueFifo_none.bind fun r s₁ h => ?_
  rcases r with _ | x
  · exact ⟨h, fun hr => absurd rfl hr⟩
  have hfree : (s.fifo.list .dramFree).last ≠ none := fun hn => nomatch h.2 hn
  dsimp only
  rw [sat_getPage, sat_bind, sat_check]
  refine ⟨fun _ => ?_, fun _ => trivial⟩
  rw [sat_getPage, sat_bind, sat_check]
  refine ⟨fun _ => ?_, fun _ => trivial⟩
  rw [sat_bind, sat_get, sat_modifyPage, sat_bind, sat_get, sat_ite]
  exact ⟨fun _ => (reset _ _ x).post fun _ _ ⟨hr, ht⟩ => ⟨iff_of_false hr hfree, fun _ => ht⟩,
    fun _ => (reset _ _ x).post fun _ _ ⟨hr, ht⟩ => ⟨iff_of_false hr hfree, fun _ => ht⟩⟩

/-- The search skips the enforced pages. -/
theorem coldVictim_flexible : ∀ {fuel : ℕ} {s : State}, Sat (coldVictim fuel)
    (fun r s' => ∀ cp, r = some cp → (s'.page cp).enforced = false) (fun _ => True) s
  | 0, _ => trivial
  | fuel + 1, s => by
    unfold coldVictim
    refine onFifo_frame.bind fun r t _ => ?_
    rcases r with _ | c
    · rintro _ ⟨⟩
    dsimp only
    rw [sat_getPage, sat_ite]
    refine ⟨fun _ => coldVictim_flexible, fun he => ?_⟩
    rintro _ ⟨⟩
    exact Bool.eq_false_iff.2 he

end Search

section Flag

/-- The flag is set, has been since `w` was written, and was wherever HeMem has mapped. -/
def Thread.Steady (w : List Bool) (t : Thread) : Prop :=
  t.internalCall = true ∧ t.written = w ∧ ∀ b ∈ t.issued, b = true

/-- The flag has been cleared. -/
def Thread.Lapsed (t : Thread) : Prop := false ∈ t.written

/-- What a thread keeps as long as it does not write the flag. -/
structure Lasting (P : Thread → Prop) : Prop where
  state : ∀ t s, P t → P { t with state := s }
  issue : ∀ t, P t → P { t with issued := t.internalCall :: t.issued }

theorem lasting_steady {w : List Bool} : Lasting (Thread.Steady w) where
  state _ _ h := h
  issue t h := ⟨h.1, h.2.1, fun b hb => by
    rcases List.mem_cons.1 hb with rfl | hb
    · exact h.1
    · exact h.2.2 b hb⟩

theorem lasting_lapsed : Lasting Thread.Lapsed := ⟨fun _ _ => id, fun _ => id⟩

theorem sat_onState {m : M α} {Q : α → Thread → Prop} {E : Abort → Prop} :
    Sat (onState m) Q E t ↔ Sat m (fun x s => Q x { t with state := s }) E t.state := by
  unfold Sat onState
  rcases m t.state with e | ⟨x, s⟩ <;> rfl

theorem onState_sat {m : M α} {Q : α → State → Prop} {E : Abort → Prop} (h : Sat m Q E t.state) :
    Sat (onState m) (fun x t' => Q x t'.state) E t :=
  sat_onState.2 h

/-- A page struct is read. -/
theorem sat_readPage {f : HememPage → ThreadM β} {Q : β → Thread → Prop} {E : Abort → Prop} :
    Sat (onState (getPage p) >>= f) Q E t ↔ Sat (f (t.state.page p)) Q E t := Iff.rfl

/-- A function leaves the flag cleared. -/
theorem guarded_lapsed {m : ThreadM α} :
    Sat (guarded m) (fun _ t' => t'.Lapsed) (fun _ => True) t := by
  unfold guarded
  refine sat_true.bind fun _ t₁ (_ : True) => sat_true.bind fun x t₂ (_ : True) => ?_
  exact List.mem_cons_self

variable {P : Thread → Prop}

theorem Lasting.onState (hP : Lasting P) (ht : P t) {m : M α} :
    Sat (onState m) (fun _ => P) (fun _ => True) t :=
  sat_onState.2 (sat_true.post fun _ s _ => hP.state t s ht)

theorem pebsMigrateDown_lapsed (he : (t.state.page p).enforced = false) :
    Sat (Guarded.pebsMigrateDown cfg p offset) (fun _ t' => t'.Lapsed) (fun _ => True) t := by
  unfold Guarded.pebsMigrateDown Guarded.pebsMigrate
  refine sat_readPage.2 (sat_ite.2 ⟨fun h => ?_, fun _ => ?_⟩)
  · simp [he] at h
  refine sat_true.bind fun _ t₁ (_ : True) => sat_true.bind fun _ t₂ (_ : True) => ?_
  exact guarded_lapsed.bind fun _ t₃ ht => lasting_lapsed.onState ht

theorem exchange_lapsed (he : (t.state.page p).enforced = false) :
    Sat (Guarded.exchange cfg false p np) (fun _ t' => t'.Lapsed) (fun _ => True) t := by
  unfold Guarded.exchange
  refine sat_readPage.2 (sat_readPage.2 ?_)
  refine (pebsMigrateDown_lapsed he).bind fun _ t₁ h₁ => ?_
  refine (lasting_lapsed.onState h₁).bind fun _ t₂ h₂ => ?_
  exact (lasting_lapsed.onState h₂).bind fun _ t₃ h₃ => lasting_lapsed.onState h₃

/-- A hinted fault: it writes the flag if and only if DRAM has no free page. -/
theorem userHinted_flag (hP : Lasting P) (ht : P t) :
    Sat (Guarded.userHintedDramPebsAllocatePage cfg) (fun _ t' => t'.state.userHintTier ≠ 0 ∧
      ((t.state.fifo.list .dramFree).last ≠ none → P t') ∧
      ((t.state.fifo.list .dramFree).last = none → t'.Lapsed)) (fun _ => True) t := by
  unfold Guarded.userHintedDramPebsAllocatePage
  have htake : ∀ (P : Thread → Prop) (_ : Lasting P) (t : Thread) (_ : P t),
      Sat (onState hintedTakeFree) (fun r t' => P t' ∧
        (r = none ↔ (t.state.fifo.list .dramFree).last = none) ∧
        (r ≠ none → t'.state.userHintTier ≠ 0)) (fun _ => True) t := fun P hP t ht =>
    (hP.onState ht).and (onState_sat hintedTakeFree_none)
  refine (htake P hP t ht).bind fun r t₁ ⟨h₁, hr, htier⟩ => ?_
  rcases r with _ | page
  · have hnone := hr.1 rfl
    refine sat_true.bind fun _ t₂ (_ : True) => ?_
    refine (onState_sat coldVictim_flexible).bind fun cp t₃ hcp => ?_
    have hpage : Frames State.page (onFifo (dequeueFifo .nvmFree)) := frames_onFifo fun _ _ => rfl
    refine (onState_sat (hpage t₃.state)).bind fun fp t₄ h₄ => ?_
    rcases cp with _ | cp
    · trivial
    rcases fp with _ | fp
    · trivial
    have hflexible : (t₄.state.page cp).enforced = false := by
      rw [h₄]
      exact hcp cp rfl
    refine (exchange_lapsed hflexible).bind fun _ t₅ h₅ => ?_
    refine (htake _ lasting_lapsed t₅ h₅).bind fun r t₆ ⟨h₆, _, htier⟩ => ?_
    rcases r with _ | page
    · trivial
    · exact ⟨htier (by simp), fun h => absurd hnone h, fun _ => h₆⟩
  · have hsome : (t.state.fifo.list .dramFree).last ≠ none := fun h => nomatch hr.2 h
    exact ⟨htier (by simp), fun _ => h₁, fun h => absurd h hsome⟩

theorem pebsPagefault_flag (hP : Lasting P) (ht : P t) :
    Sat (Guarded.pebsPagefault cfg) (fun _ t' => t'.state.userHintTier ≠ 0 ∧
      (¬ t.state.Displaces → P t') ∧ (t.state.Displaces → t'.Lapsed)) (fun _ => True) t := by
  unfold Guarded.pebsPagefault State.Displaces
  rw [sat_bind, sat_get, sat_ite]
  refine ⟨fun htier => ?_, fun htier => ?_⟩
  · refine (userHinted_flag hP ht).post fun _ t' ⟨h, hP', hl⟩ =>
      ⟨h, fun hn => ?_, fun hd => hl hd.2⟩
    exact hP' fun hlast => hn ⟨htier, hlast⟩
  · have hkeeps : Sat (onState pebsAllocatePage)
        (fun _ t' => P t' ∧ t'.state.userHintTier = t.state.userHintTier) (fun _ => True) t :=
      (hP.onState ht).and (onState_sat (quiet_tier.calm.pebsAllocatePage t.state))
    exact hkeeps.post fun _ t' ⟨h, hh⟩ => ⟨hh ▸ htier, fun _ => h, fun hd => absurd hd.1 htier⟩

theorem Lasting.mapPage (hP : Lasting P) (ht : P t) :
    Sat (Guarded.mapPage p a) (fun _ t' => P t' ∧ t'.state.userHintTier = t.state.userHintTier)
      (fun _ => True) t := by
  have hframes : Frames State.userHintTier (HeMem.mapPage p a) := by
    unfold HeMem.mapPage
    refine frames_getPage.bind fun _ => quiet_tier.calm.onKernel.bind fun _ => ?_
    refine quiet_tier.modifyPage.bind fun _ => frames_check.bind fun _ => ?_
    refine frames_check.bind fun _ => quiet_tier.modifyPage.bind fun _ => ?_
    refine Frames.bind (frames_modify fun _ => rfl) fun _ => ?_
    refine Frames.bind ?_ fun _ => frames_pure
    exact frames_getPage.bind fun _ => frames_get.bind fun _ => frames_check.bind fun _ =>
      frames_modify fun _ => rfl
  have htier := onState_sat (t := { t with issued := t.internalCall :: t.issued }) (hframes t.state)
  exact (hP.onState (hP.issue t ht)).and htier

theorem populatePage_flag (hP : Lasting P) (ht : P t) :
    Sat (Guarded.populatePage cfg a) (fun _ t' => t'.state.userHintTier ≠ 0 ∧
      (¬ t.state.Displaces → P t') ∧ (t.state.Displaces → t'.Lapsed)) (fun _ => True) t := by
  refine (pebsPagefault_flag hP ht).bind fun page t₁ ⟨htier, hkept, hlapsed⟩ => ?_
  by_cases hd : t.state.Displaces
  · refine (lasting_lapsed.mapPage (hlapsed hd)).post fun _ t₂ ⟨h, hh⟩ => ?_
    exact ⟨hh ▸ htier, fun hn => absurd hd hn, fun _ => h⟩
  · refine (hP.mapPage (hkept hd)).post fun _ t₂ ⟨h, hh⟩ => ?_
    exact ⟨hh ▸ htier, fun _ => h, fun hd' => absurd hd' hd⟩

/-- Past the first page, no fault is hinted. -/
theorem Lasting.populateLoop (hP : Lasting P) : ∀ {turns : ℕ} {a : UInt64} {t : Thread}, P t →
    t.state.userHintTier ≠ 0 →
    Sat (Guarded.populateLoop cfg b turns a) (fun _ => P) (fun _ => True) t
  | 0, _, _, _, _ => trivial
  | turns + 1, a, t, ht, htier => by
    unfold Guarded.populateLoop
    refine sat_ite.2 ⟨fun _ => ?_, fun _ => ht⟩
    refine (populatePage_flag hP ht).bind fun _ t₁ ⟨htier₁, hkept, _⟩ => ?_
    exact Lasting.populateLoop hP (hkept fun hd => htier hd.1) htier₁

theorem hememMmapPopulate_flag (hP : Lasting P) (ht : P t) :
    Sat (Guarded.hememMmapPopulate cfg a length) (fun _ t' =>
      (¬ (a < a + length ∧ t.state.Displaces) → P t') ∧
        (a < a + length ∧ t.state.Displaces → t'.Lapsed)) (fun _ => True) t := by
  have hpos : 0 < loopTurns := by
    rw [loopTurns]
    exact Nat.two_pow_pos 54
  obtain ⟨turns, hturns⟩ := Nat.exists_eq_succ_of_ne_zero hpos.ne'
  unfold Guarded.hememMmapPopulate
  rw [sat_bind, sat_check]
  refine ⟨fun _ => ?_, fun _ => trivial⟩
  rw [sat_bind, sat_check]
  refine ⟨fun _ => ?_, fun _ => trivial⟩
  rw [hturns, Guarded.populateLoop, sat_ite]
  refine ⟨fun hlt => ?_, fun hlt => ⟨fun _ => ht, fun hd => absurd hd.1 hlt⟩⟩
  refine (populatePage_flag hP ht).bind fun _ t₁ ⟨htier, hkept, hlapsed⟩ => ?_
  by_cases hd : t.state.Displaces
  · refine (lasting_lapsed.populateLoop (hlapsed hd) htier).post fun _ t₂ h => ?_
    exact ⟨fun hn => absurd ⟨hlt, hd⟩ hn, fun _ => h⟩
  · refine (hP.populateLoop (hkept hd) htier).post fun _ t₂ h => ?_
    exact ⟨fun _ => h, fun hd' => absurd hd'.2 hd⟩

end Flag

section Nesting

variable {entry : Bool} {D : Prop} {m : ThreadM α}

/-- A function that runs between setting and clearing the flag nests if it does not write it. -/
theorem guarded_nests (h : ∀ t, t.state = s → t.Steady [true] → Sat m
      (fun _ t' => (¬ D → t'.Steady [true]) ∧ (D → t'.Lapsed)) (fun _ => True) t) :
    Sat (guarded m) (fun _ t' => t'.Nests entry ↔ entry = false ∧ ¬ D) (fun _ => True)
      (s.thread entry) := by
  change Sat (m >>= fun x => do
    setInternalCall false
    return x) _ _ ⟨s, true, [true], []⟩
  refine (h ⟨s, true, [true], []⟩ rfl ⟨rfl, rfl, by simp⟩).bind fun x t ⟨hsteady, hlapsed⟩ => ?_
  change (⟨t.state, false, false :: t.written, t.issued⟩ : Thread).Nests entry ↔ _
  constructor
  · refine fun hn => ⟨hn.restored.symm, fun hd => ?_⟩
    exact nomatch hn.inside false (hlapsed hd)
  · rintro ⟨rfl, hd⟩
    obtain ⟨_, hwritten, hissued⟩ := hsteady hd
    exact ⟨rfl, by simp [hwritten], hissued⟩

/-- A function that calls no other of them. -/
theorem guarded_nests_of_steady (h : ∀ t : Thread, t.Steady [true] →
      Sat m (fun _ t' => t'.Steady [true]) (fun _ => True) t) :
    Sat (guarded m) (fun _ t' => t'.Nests entry ↔ entry = false ∧ ¬ False) (fun _ => True)
      (s.thread entry) :=
  guarded_nests fun t _ ht => (h t ht).post fun _ _ h' => ⟨fun _ => h', False.elim⟩

theorem check_keeps {c : Prop} [Decidable c] {e : Abort} {P : Thread → Prop} (ht : P t) :
    Sat (check c e) (fun _ => P) (fun _ => True) t :=
  sat_check.2 ⟨fun _ => ht, fun _ => trivial⟩

theorem hememMigrate_nests : Sat (Guarded.hememMigrate cfg up p offset)
    (fun _ t' => t'.Nests entry ↔ entry = false ∧ ¬ False) (fun _ => True) (s.thread entry) := by
  have hP := @lasting_steady [true]
  refine guarded_nests_of_steady fun t ht => ?_
  refine (hP.onState ht).bind fun P t₁ h₁ => (hP.onState h₁).bind fun _ t₂ h₂ => ?_
  refine (check_keeps h₂).bind fun _ t₃ h₃ => (check_keeps h₃).bind fun _ t₄ h₄ => ?_
  refine (check_keeps h₄).bind fun _ t₅ h₅ => (hP.onState h₅).bind fun _ t₆ h₆ => ?_
  rw [issue, sat_bind, sat_modify]
  refine (hP.onState (hP.issue t₆ h₆)).bind fun _ t₇ h₇ => ?_
  exact (check_keeps h₇).bind fun _ t₈ h₈ => hP.onState h₈

theorem hememMunmap_nests {unmaps : Bool} : Sat (Guarded.hememMunmap a length unmaps)
    (fun _ t' => t'.Nests entry ↔ entry = false ∧ ¬ False) (fun _ => True) (s.thread entry) := by
  have hP := @lasting_steady [true]
  refine guarded_nests_of_steady fun t ht => (hP.onState ht).bind fun _ t₁ h₁ => ?_
  rw [issue, sat_bind, sat_modify, sat_ite]
  exact ⟨fun _ => hP.onState (hP.issue t₁ h₁), fun _ => hP.issue t₁ h₁⟩

theorem hememMmap_nests : Sat (Guarded.hememMmap cfg length offset a)
    (fun _ t' => t'.Nests entry ↔ entry = false ∧ ¬ (a < a + pageRoundUp length ∧ s.Displaces))
    (fun _ => True) (s.thread entry) := by
  have hP := @lasting_steady [true]
  refine guarded_nests ?_
  rintro t rfl ht
  rw [sat_bind, sat_check]
  refine ⟨fun _ => ?_, fun _ => trivial⟩
  rw [issue, sat_bind, sat_modify, sat_bind, sat_check]
  refine ⟨fun _ => ?_, fun _ => trivial⟩
  have hkernel : ∀ (t : Thread) (g : Kernel → Kernel), t.Steady [true] → Sat (onState (onKernel g))
      (fun _ t' => t'.Steady [true] ∧ (t'.state.Displaces ↔ t.state.Displaces)) (fun _ => True) t :=
    fun t g ht => ⟨hP.state t _ ht, Iff.rfl⟩
  have hend : ∀ (P : Thread → Prop), Lasting P → ∀ t, P t → Sat (do
      onState (modify ({ · with memMmaped := pageRoundUp length }))
      return a) (fun _ => P) (fun _ => True) t := fun P hP t ht =>
    (hP.onState ht).bind fun _ _ h => h
  refine (hkernel _ _ (hP.issue t ht)).bind fun _ t₁ ⟨h₁, hd⟩ => ?_
  refine (hememMmapPopulate_flag hP h₁).bind fun _ t₂ h₂ => ?_
  rw [hd] at h₂
  by_cases hD : a < a + pageRoundUp length ∧ t.state.Displaces
  · exact (hend _ lasting_lapsed t₂ (h₂.2 hD)).post fun _ _ h =>
      ⟨fun hn => absurd hD hn, fun _ => h⟩
  · exact (hend _ hP t₂ (h₂.1 hD)).post fun _ _ h => ⟨fun _ => h, fun hd => absurd hd hD⟩

theorem handleMissingFault_nests : Sat (Guarded.handleMissingFault cfg a)
    (fun _ t' => t'.Nests entry ↔ entry = false ∧ ¬ s.Displaces) (fun _ => True)
    (s.thread entry) := by
  refine guarded_nests ?_
  rintro t rfl ht
  rw [sat_bind, sat_check]
  refine ⟨fun _ => ?_, fun _ => trivial⟩
  exact (populatePage_flag lasting_steady ht).bind fun _ _ h => h.2

theorem GuardedCall.nests (call : GuardedCall) : Sat (call.run cfg)
    (fun _ t' => t'.Nests entry ↔ entry = false ∧ ¬ call.Displacing s) (fun _ => True)
    (s.thread entry) := by
  cases call with
  | mmap length offset p => exact hememMmap_nests.bind fun _ _ h => h
  | munmap addr length unmaps => exact hememMunmap_nests
  | migrateUp page dramOffset => exact hememMigrate_nests
  | migrateDown page nvmOffset => exact hememMigrate_nests
  | wpPage page protect => exact guarded_nests_of_steady fun t ht => lasting_steady.onState ht
  | wpFault pageBoundry => exact guarded_nests_of_steady fun t ht => lasting_steady.onState ht
  | missingFault pageBoundry => exact handleMissingFault_nests

/-- With the flag set, an `mmap` that is no hint is forwarded, and nothing else is done. -/
theorem mmapFilter_internal {lib : Library} {answer : Answer} {prot flags fd : Int32}
    {off : Int64} {tierCode persistence priority : Int32} (hlib : lib.internalCall = true)
    (hfd : fd ≠ hintFd) : mmapFilter cfg lib answer a length prot flags fd off tierCode persistence
      priority s = .ok ((true, none), s) := by
  unfold mmapFilter
  rw [if_neg hfd]
  by_cases hinit : lib.isInit = true
  · rw [if_neg (by simp [hinit]), if_pos hlib]
    rfl
  · rw [if_pos (by simpa using hinit)]
    rfl

theorem munmapFilter_internal {lib : Library} {answer : Answer} (hlib : lib.internalCall = true) :
    munmapFilter lib answer a length s = .ok ((true, none), s) := by
  unfold munmapFilter
  rw [if_pos hlib]
  rfl

/-- A call that returns keeps the flag set until it ends and gives it back as it was if and only if
the flag was clear and no page had to move down for the call. -/
theorem guard_nests_iff {call : GuardedCall} (h : call.run cfg (s.thread entry) = .ok ((), t)) :
    t.Nests entry ↔ entry = false ∧ ¬ call.Displacing s :=
  call.nests.ok h

/-- Without a hint, a page is mapped with the flag set at both calls of `libc_mmap`. -/
theorem guard_nests_mmap : ∃ (s : State) (t : Thread),
    (GuardedCall.mmap hugepageSize 0 hugepageSize).run fourFrames (s.thread false) = .ok ((), t) ∧
      t.issued.length = 2 ∧ t.Nests false := by
  obtain ⟨m, _, hc⟩ := launch_reach fourFrames Kernel.fresh (fun _ _ => True) []
    (fun m => m.state.userHintTier ≠ 0 &&
      match (GuardedCall.mmap hugepageSize 0 hugepageSize).run fourFrames
        (m.state.thread false) with
      | .ok (_, t) => t.issued.length = 2
      | .error _ => false) (by decide +kernel)
  simp only [Bool.and_eq_true, decide_eq_true_eq] at hc
  obtain ⟨htier, hc⟩ := hc
  split at hc
  · rename_i t hr
    refine ⟨m.state, t, hr, of_decide_eq_true hc, ?_⟩
    exact (guard_nests_iff hr).2 ⟨rfl, fun hd => htier hd.2.1⟩
  · cases hc

/-- DRAM is full and asked for: the page that moves down clears the flag, and the new page is mapped
with the flag cleared. -/
theorem guard_cleared_inside : ∃ (m : Memory) (t : Thread),
    (hemem fourFrames Kernel.fresh).Reach (fun _ _ => True) m ∧
    (GuardedCall.mmap hugepageSize 0 (8 * hugepageSize)).run fourFrames (m.state.thread false) =
      .ok ((), t) ∧ t.written = [false, false, true, false, true, true] ∧
    t.issued = [false, true, true] ∧ ¬ t.Nests false := by
  obtain ⟨m, hm, hc⟩ := launch_reach fourFrames Kernel.fresh (fun _ _ => True)
    [.mmap (2 * hugepageSize) 0 hugepageSize, .hint 0 0 0]
    (fun m => match (GuardedCall.mmap hugepageSize 0 (8 * hugepageSize)).run fourFrames
        (m.state.thread false) with
      | .ok (_, t) => t.written = [false, false, true, false, true, true] ∧
          t.issued = [false, true, true]
      | .error _ => false) (by decide +kernel)
  split at hc
  · rename_i t hr
    obtain ⟨hwritten, hissued⟩ := of_decide_eq_true hc
    refine ⟨m, t, hm, hr, hwritten, hissued, fun hn => ?_⟩
    exact nomatch hn.issued false (by simp [hissued])
  · cases hc

end Nesting

end HeMem

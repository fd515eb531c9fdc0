import HeMem.WriteFault

/-!
# No write is lost

While the page is copied its mapping is protected, so the copy is what the page holds when the copy
is mapped.  A write that is blocked has left a message, and after each message that it has handled
the fault thread wakes all who wait.
-/

namespace HeMem

open Function

/-- The steps that a migration still takes, the copying being one. -/
def MigratingPhase.left {L : Type} : MigratingPhase L → ℕ
  | .idle => 0
  | .clear => 1
  | .setTier _ => 2
  | .setOffset _ _ => 3
  | .remap _ _ => 4
  | .copy _ _ _ _ => 5
  | .start _ _ => 6
  | .protect _ _ => 7

namespace WriteFault

variable {T L V : Type} {cfg : Config} {data : L → V} {program : T → List (PageWrite L V)}
  {s s' u : WriteFault T L V} {t : T} {up : Bool} {newOffset offset : UInt64}

/-- A frame of the tier at the offset is within the tier. -/
def Room (cfg : Config) (page : HememPage) (dram : Bool) (offset : UInt64) : Prop :=
  cfg.InRange dram offset (ptToPagesize page.pt)

/-- The page is mapped to the frame its struct names. -/
structure Settled (cfg : Config) (page : HememPage) (mapped : Device × UInt64) (wp : Bool) :
    Prop where
  wp : wp = false
  mapped : mapped = page.frame
  room : Room cfg page page.inDram page.devdaxOffset

/-- The page is still on its old tier and there is a frame for it on the other. -/
structure Leaves (cfg : Config) (page : HememPage) (mapped : Device × UInt64) (up : Bool)
    (newOffset : UInt64) : Prop where
  tier : page.inDram = !up
  mapped : mapped = frameAt (!up) page.devdaxOffset
  old : Room cfg page (!up) page.devdaxOffset
  new : Room cfg page up newOffset

/-- What holds of the mapping and of the two frames where the policy thread stands. -/
def Agrees (cfg : Config) (s : WriteFault T L V) : Prop :=
  match s.policy with
  | .idle => s.page.migrating = false ∧ Settled cfg s.page s.mapped s.wp
  | .protect up newOffset => s.wp = false ∧ Leaves cfg s.page s.mapped up newOffset
  | .start up newOffset => s.wp = true ∧ Leaves cfg s.page s.mapped up newOffset
  | .copy up newOffset old done => s.wp = true ∧ Leaves cfg s.page s.mapped up newOffset ∧
      old = s.mapped ∧ ∀ l, done l = true → s.data (frameAt up newOffset) l = s.data s.mapped l
  | .remap up newOffset => s.wp = true ∧ Room cfg s.page up newOffset ∧
      s.data (frameAt up newOffset) = s.data s.mapped
  | .setOffset up newOffset => s.wp = false ∧ s.mapped = frameAt up newOffset ∧
      Room cfg s.page up newOffset
  | .setTier up => s.wp = false ∧ s.mapped = frameAt up s.page.devdaxOffset ∧
      Room cfg s.page up s.page.devdaxOffset
  | .clear => Settled cfg s.page s.mapped s.wp

theorem frameAt_ne : frameAt up newOffset ≠ frameAt (!up) offset := by
  intro h
  have := congrArg Prod.fst h
  cases up <;> simp [frameAt, deviceOf] at this

/-- A write that is made does not meet a copy. -/
theorem Agrees.write (h : s.Agrees cfg) (hwp : s.wp = false) {d : L → V}
    {todo : T → List (PageWrite L V)} {l : List (T × PageWrite L V)} :
    Agrees cfg { s with data := update s.data s.mapped d, todo := todo, applied := l } := by
  unfold Agrees at h ⊢
  dsimp only
  split <;> rename_i hp <;> rw [hp] at h
  · exact h
  · exact h
  · exact absurd h.1 (by simp [hwp])
  · exact absurd h.1 (by simp [hwp])
  · exact absurd h.1 (by simp [hwp])
  · exact h
  · exact h
  · exact h

variable [DecidableEq T]

structure Inv (cfg : Config) (data : L → V) (program : T → List (PageWrite L V))
    (s : WriteFault T L V) : Prop where
  va : s.page.va ≠ 0
  align : s.page.va % hugepageSize = 0
  agrees : s.Agrees cfg
  held : s.data s.mapped = replay data s.applied
  order : ∀ t, s.appliedBy t ++ s.todo t = program t
  awaited : ∀ t, s.blocked t = true → s.messages ≠ [] ∨ s.msg ≠ []

theorem Starts.inv (h : s.Starts cfg data program) : s.Inv cfg data program where
  va := h.va
  align := h.align
  agrees := by
    unfold Agrees
    rw [h.policy]
    exact ⟨h.migrating, h.wp, h.mapped, h.range⟩
  held := by
    rw [h.data, h.applied]
    rfl
  order t := by
    rw [appliedBy, h.applied, h.todo]
    rfl
  awaited t ht := by simp [h.blocked] at ht

theorem Inv.write (hI : s.Inv cfg data program) (hs : s.write t = some s') :
    s'.Inv cfg data program := by
  unfold WriteFault.write at hs
  split at hs
  · rename_i w rest htodo hfree
    split_ifs at hs with hwp <;> cases hs
    · exact ⟨hI.va, hI.align, hI.agrees, hI.held, hI.order, fun u _ => .inl (by simp)⟩
    · refine ⟨hI.va, hI.align, hI.agrees.write (by simpa using hwp), ?_, fun u => ?_,
        hI.awaited⟩
      · simp [replay, hI.held]
      · rw [← hI.order u]
        rcases eq_or_ne t u with rfl | hu
        · simp [appliedBy, htodo]
        · simp [appliedBy, hu, hu.symm]
  · cases hs

theorem Inv.migrate (hI : s.Inv cfg data program) (htier : s.page.inDram = !up)
    (hroom : Room cfg s.page up newOffset) (hs : s.migrate up newOffset = some s') :
    s'.Inv cfg data program := by
  have hA := hI.agrees
  unfold Agrees at hA
  unfold WriteFault.migrate at hs
  split at hs
  · rename_i hp
    rw [hp] at hA
    split_ifs at hs <;> cases hs
    · exact hI
    · obtain ⟨-, hwp, hmap, hold⟩ := hA
      rw [htier] at hold
      refine ⟨hI.va, hI.align, ⟨hwp, htier, ?_, hold, hroom⟩, hI.held, hI.order, hI.awaited⟩
      rw [hmap, HememPage.frame, htier]
      rfl
  · cases hs

/-- Pieces go to the frame that is not mapped. -/
theorem Inv.copyPiece (hI : s.Inv cfg data program) {piece : L → Bool}
    (hs : s.copyPiece piece = some s') : s'.Inv cfg data program := by
  have hA := hI.agrees
  unfold Agrees at hA
  unfold WriteFault.copyPiece at hs
  split at hs
  · rename_i up newOffset old done hp
    cases hs
    rw [hp] at hA
    obtain ⟨hwp, hleaves, rfl, hdone⟩ := hA
    have hne : s.mapped ≠ frameAt up newOffset := by
      rw [hleaves.mapped]
      exact frameAt_ne.symm
    refine ⟨hI.va, hI.align, ⟨hwp, hleaves, rfl, fun l hl => ?_⟩, ?_, hI.order, hI.awaited⟩
    · dsimp only at hl ⊢
      rw [update_self, update_of_ne hne]
      split_ifs with hpiece
      · rfl
      · exact hdone l (by simpa [hpiece] using hl)
    · dsimp only
      rw [update_of_ne hne]
      exact hI.held
  · cases hs

theorem Inv.policyStep [Fintype L] (hI : s.Inv cfg data program)
    (hs : s.policyStep cfg = some s') : s'.Inv cfg data program := by
  have hA := hI.agrees
  unfold Agrees at hA
  unfold WriteFault.policyStep at hs
  split at hs <;> rename_i hp <;> rw [hp] at hA
  · cases hs
  · split_ifs at hs
    cases hs
    exact ⟨hI.va, hI.align, ⟨rfl, hA.2⟩, hI.held, hI.order, hI.awaited⟩
  · split_ifs at hs
    cases hs
    exact ⟨hI.va, hI.align, ⟨hA.1, hA.2, hA.2.mapped.symm, fun _ h => by cases h⟩, hI.held,
      hI.order, hI.awaited⟩
  · split_ifs at hs with hall
    cases hs
    exact ⟨hI.va, hI.align, ⟨hA.1, hA.2.1.new, funext fun l => hA.2.2.2 l (hall l)⟩, hI.held,
      hI.order, hI.awaited⟩
  · cases hs
    exact ⟨hI.va, hI.align, ⟨rfl, rfl, hA.2.1⟩, hA.2.2.trans hI.held, hI.order, hI.awaited⟩
  · split_ifs at hs
    cases hs
    exact ⟨hI.va, hI.align, hA, hI.held, hI.order, hI.awaited⟩
  · cases hs
    exact ⟨hI.va, hI.align, ⟨hA.1, hA.2.1, hA.2.2⟩, hI.held, hI.order, hI.awaited⟩
  · cases hs
    exact ⟨hI.va, hI.align, ⟨rfl, hA.1, hA.2, hA.3⟩, hI.held, hI.order, hI.awaited⟩

/-- A message that is read is still there to be handled. -/
theorem Inv.read (hI : s.Inv cfg data program) (hs : s.read = some s') :
    s'.Inv cfg data program := by
  unfold WriteFault.read at hs
  split at hs
  · rename_i hm
    cases hs
    refine ⟨hI.va, hI.align, hI.agrees, hI.held, hI.order, fun u hu => ?_⟩
    have hne := (hI.awaited u hu).resolve_right (fun h => h hm)
    by_contra! hno
    refine hne ((List.take_append_drop maxUffdMsgs s.messages).symm.trans ?_)
    exact (congrArg₂ (· ++ ·) hno.2 hno.1)
  · cases hs

theorem Inv.faultStep (hI : s.Inv cfg data program) (hs : s.faultStep = some s') :
    s'.Inv cfg data program := by
  unfold WriteFault.faultStep at hs
  split at hs
  · cases hs
  · cases hs
    exact ⟨hI.va, hI.align, hI.agrees, hI.held, hI.order, hI.awaited⟩
  · split_ifs at hs
    cases hs
    exact ⟨hI.va, hI.align, hI.agrees, hI.held, hI.order, hI.awaited⟩
  · cases hs
    exact ⟨hI.va, hI.align, hI.agrees, hI.held, hI.order, fun u hu => by cases hu⟩

variable [Fintype L]

theorem Inv.step (hI : s.Inv cfg data program) {a : WriteAct L T} (hl : a.Legal cfg s)
    (hs : a.next cfg s = some s') : s'.Inv cfg data program := by
  cases a with
  | write t => exact hI.write hs
  | migrate up newOffset => exact hI.migrate hl.1 hl.2 hs
  | copy piece => exact hI.copyPiece hs
  | policy => exact hI.policyStep hs
  | read => exact hI.read hs
  | fault => exact hI.faultStep hs

theorem Inv.continues (hI : s.Inv cfg data program) (h : s.Continues cfg s') :
    s'.Inv cfg data program := by
  induction h with
  | refl => exact hI
  | @step _ _ _ a hs ha _ ih =>
    refine ih (hI.step (a := a) ?_ hs)
    cases a with
    | migrate up newOffset => exact absurd rfl (ha up newOffset)
    | _ => trivial

section Progress

theorem Continues.trans (h : s.Continues cfg s') (h' : s'.Continues cfg u) : s.Continues cfg u := by
  induction h with
  | refl => exact h'
  | step hs ha _ ih => exact .step hs ha (ih h')

theorem Continues.policy (hs : s.policyStep cfg = some s') : s.Continues cfg s' :=
  .step (a := .policy) hs nofun .refl

theorem Continues.fault (hs : s.faultStep = some s') : s.Continues cfg s' :=
  .step (a := .fault) hs nofun .refl

/-- A migration that has begun goes on. -/
theorem Inv.advances (hI : s.Inv cfg data program) (hp : s.policy ≠ .idle) :
    ∃ s', s.Continues cfg s' ∧ s'.policy.left < s.policy.left ∧ s'.todo = s.todo := by
  have hA := hI.agrees
  unfold Agrees at hA
  rcases hphase : s.policy with _ | ⟨up, newOffset⟩ | ⟨up, newOffset⟩ | ⟨up, newOffset, old, done⟩ |
    ⟨up, newOffset⟩ | ⟨up, newOffset⟩ | up | _ <;> rw [hphase] at hA
  · exact absurd hphase hp
  · have hstep : s.policyStep cfg = some { s with wp := true, policy := .start up newOffset } := by
      rw [WriteFault.policyStep, hphase]
      exact if_pos ⟨hI.va, hI.align⟩
    exact ⟨_, .policy hstep, by simp [MigratingPhase.left], rfl⟩
  · have hstep : s.policyStep cfg = some { s with
        policy := .copy up newOffset (frameAt (!up) s.page.devdaxOffset) fun _ => false } := by
      rw [WriteFault.policyStep, hphase]
      exact if_pos ⟨hA.2.tier, hA.2.old, hA.2.new⟩
    exact ⟨_, .policy hstep, by simp [MigratingPhase.left], rfl⟩
  · have hcopy : s.copyPiece (fun _ => true) = some { s with
        data := update s.data (frameAt up newOffset) (s.data old)
        policy := .copy up newOffset old fun l => done l || true } := by
      rw [WriteFault.copyPiece, hphase]
      simp
    refine ⟨_, .step (a := .copy fun _ => true) hcopy nofun (.policy (if_pos ?_)), ?_, rfl⟩
    · exact fun l => Bool.or_true _
    · simp [MigratingPhase.left]
  · have hstep : s.policyStep cfg = some { s with
        mapped := frameAt up newOffset, wp := false, policy := .setOffset up newOffset } := by
      rw [WriteFault.policyStep, hphase]
    exact ⟨_, .policy hstep, by simp [MigratingPhase.left], rfl⟩
  · have hstep : s.policyStep cfg = some { s with
        page := { s.page with devdaxOffset := newOffset }, policy := .setTier up } := by
      rw [WriteFault.policyStep, hphase]
      exact if_pos hI.align
    exact ⟨_, .policy hstep, by simp [MigratingPhase.left], rfl⟩
  · have hstep : s.policyStep cfg = some { s with
        page := { s.page with inDram := up }, policy := .clear } := by
      rw [WriteFault.policyStep, hphase]
    exact ⟨_, .policy hstep, by simp [MigratingPhase.left], rfl⟩
  · have hstep : s.policyStep cfg = some { s with
        page := { s.page with migrating := false }, policy := .idle } := by
      rw [WriteFault.policyStep, hphase]
    exact ⟨_, .policy hstep, by simp [MigratingPhase.left], rfl⟩

/-- It comes to its end. -/
theorem Inv.settles (hI : s.Inv cfg data program) :
    ∃ s', s.Continues cfg s' ∧ s'.policy = .idle ∧ s'.todo = s.todo := by
  induction hn : s.policy.left using Nat.strong_induction_on generalizing s with
  | h n ih =>
    by_cases hp : s.policy = .idle
    · exact ⟨s, .refl, hp, rfl⟩
    · obtain ⟨s', hs, hlt, htodo⟩ := hI.advances hp
      obtain ⟨u, hu, hidle, htodo'⟩ := ih _ (hn ▸ hlt) (hI.continues hs) rfl
      exact ⟨u, hs.trans hu, hidle, htodo'.trans htodo⟩

/-- With a message at hand and no migration the fault thread comes to the wake. -/
theorem wakes (cfg : Config) (hp : s.policy = .idle) (hmig : s.page.migrating = false) (hmsg : s.msg ≠ []) :
    ∃ s', s.Continues cfg s' ∧ s'.policy = .idle ∧ (∀ t, s'.blocked t = false) ∧
      s'.todo = s.todo := by
  obtain ⟨m, rest, hm⟩ := List.exists_cons_of_ne_nil hmsg
  have hwake : ∀ v : WriteFault T L V, v.fault = .wake → v.msg = m :: rest →
      ∃ s', v.Continues cfg s' ∧ s'.policy = v.policy ∧ (∀ t, s'.blocked t = false) ∧
        s'.todo = v.todo := fun v hf hv => by
    have hstep : v.faultStep = some { v with
        blocked := fun _ => false, messages := [], msg := rest, fault := .find } := by
      rw [faultStep, hv, hf]
    exact ⟨_, .fault hstep, rfl, fun _ => rfl, rfl⟩
  have hwait : ∀ v : WriteFault T L V, v.fault = .wait → v.msg = m :: rest →
      v.page.migrating = false → ∃ s', v.Continues cfg s' ∧ s'.policy = v.policy ∧
        (∀ t, s'.blocked t = false) ∧ s'.todo = v.todo := fun v hf hv hmig => by
    obtain ⟨s', hs, h⟩ := hwake { v with fault := .wake } rfl hv
    have hstep : v.faultStep = some { v with fault := .wake } := by
      rw [faultStep, hv, hf]
      simp [hmig]
    exact ⟨s', (Continues.fault hstep).trans hs, h⟩
  rw [← hp]
  cases hf : s.fault with
  | find =>
    obtain ⟨s', hs, h⟩ := hwait { s with fault := .wait } rfl hm hmig
    have hstep : s.faultStep = some { s with fault := .wait } := by rw [faultStep, hm, hf]
    exact ⟨s', (Continues.fault hstep).trans hs, h⟩
  | wait => exact hwait s hf hm hmig
  | wake => exact hwake s hf hm

/-- Who waits is woken. -/
theorem Inv.unblocks (hI : s.Inv cfg data program) (hp : s.policy = .idle) (t : T) :
    ∃ s', s.Continues cfg s' ∧ s'.policy = .idle ∧ s'.blocked t = false ∧ s'.todo = s.todo := by
  have hmig : s.page.migrating = false := by
    have hA := hI.agrees
    rw [Agrees, hp] at hA
    exact hA.1
  by_cases hb : s.blocked t = false
  · exact ⟨s, .refl, hp, hb, rfl⟩
  by_cases hmsg : s.msg = []
  · have hne := (hI.awaited t (by simpa using hb)).resolve_right fun h => h hmsg
    obtain ⟨m, rest, hm⟩ := List.exists_cons_of_ne_nil hne
    have hread : s.read = some { s with msg := [m], messages := rest } := by
      rw [WriteFault.read, hmsg, hm]
      rfl
    obtain ⟨s', hs, hidle, hfree, htodo⟩ :=
      wakes (s := { s with msg := [m], messages := rest }) cfg hp hmig (by simp)
    exact ⟨s', .step (a := .read) hread nofun hs, hidle, hfree t, htodo⟩
  · obtain ⟨s', hs, hidle, hfree, htodo⟩ := wakes cfg hp hmig hmsg
    exact ⟨s', hs, hidle, hfree t, htodo⟩

/-- With no migration a thread that does not wait makes all its writes. -/
theorem Inv.finishes (hI : s.Inv cfg data program) (hp : s.policy = .idle)
    (hb : s.blocked t = false) : ∃ s', s.Continues cfg s' ∧ s'.todo t = [] := by
  induction htodo : s.todo t generalizing s with
  | nil => exact ⟨s, .refl, htodo⟩
  | cons w rest ih =>
    have hA := hI.agrees
    rw [Agrees, hp] at hA
    have hstep : s.write t = some { s with
        data := update s.data s.mapped (w (s.data s.mapped))
        todo := update s.todo t rest
        applied := s.applied ++ [(t, w)] } := by
      rw [WriteFault.write, htodo, hb]
      simp [hA.2.wp]
    obtain ⟨s', hs, hdone⟩ := ih (hI.write hstep) hp hb (update_self t rest s.todo)
    exact ⟨s', .step (a := .write t) hstep nofun hs, hdone⟩

end Progress

/-- In every order of the steps each thread's writes are made once each and in their order, the
frame that is mapped holds what the writes made so far come to, and so does the frame that the
struct names once a migration has ended.  A thread's writes that are not made yet can still be made,
whatever has happened, with no help of another migration. -/
theorem writes_kept (h : (writeFault cfg data program).Reach (fun s a => a.Legal cfg s) s) :
    (∀ t, s.appliedBy t ++ s.todo t = program t) ∧ s.data s.mapped = replay data s.applied ∧
      (s.policy = .idle → s.data s.page.frame = replay data s.applied) ∧
      ∀ t, ∃ s', s.Continues cfg s' ∧ s'.appliedBy t = program t := by
  have hI : s.Inv cfg data program := h.invariant (fun _ hs => Starts.inv hs)
    fun _ _ _ hI hl hs => hI.step hl hs
  refine ⟨hI.order, hI.held, fun hp => ?_, fun t => ?_⟩
  · have hA := hI.agrees
    rw [Agrees, hp] at hA
    rw [← hA.2.mapped]
    exact hI.held
  obtain ⟨s₁, h₁, hp₁, -⟩ := hI.settles
  obtain ⟨s₂, h₂, hp₂, hb₂, -⟩ := (hI.continues h₁).unblocks hp₁ t
  have hI₂ := (hI.continues h₁).continues h₂
  obtain ⟨s₃, h₃, htodo⟩ := hI₂.finishes hp₂ hb₂
  refine ⟨s₃, (h₁.trans h₂).trans h₃, ?_⟩
  rw [← (hI₂.continues h₃).order t, htodo, List.append_nil]

/-- A write meets a migration up, waits for its end and is made on DRAM. -/
theorem writes_kept_woken : ∃ s : WriteFault Bool (Fin 2) ℕ, s.mapped = (.dram, 0) ∧
    s.data s.mapped 0 = 5 ∧ s.data s.mapped = replay (fun _ => 0) s.applied := by
  let cfg : Config := ⟨hugepageSize, hugepageSize, 0, 0⟩
  let program : Bool → List (PageWrite (Fin 2) ℕ) :=
    fun t => if t then [fun d => update d 0 5] else []
  obtain ⟨s, hs, hP⟩ := System.drive_reach (S := writeFault cfg (fun _ => 0) program)
    (fun s a => a.next cfg s) (fun s a => a.Legal cfg s) (fun _ _ _ hn => hn) (fun _ _ hl => hl)
    (s := { page := { va := hugepageSize, present := true }, mapped := (.nvm, 0),
            data := fun _ _ => 0, todo := program })
    ⟨by decide, by decide, by decide, rfl, rfl, rfl, rfl, rfl, rfl, rfl, rfl, rfl, rfl, rfl⟩
    ([.migrate true 0, .policy, .policy, .write true, .copy fun _ => true] ++
      List.replicate 5 .policy ++ [.read, .fault, .fault, .fault, .write true])
    (fun s => decide (s.mapped = (.dram, 0) ∧ s.data s.mapped 0 = 5)) (by decide +kernel)
  obtain ⟨hmapped, hdata⟩ := of_decide_eq_true hP
  exact ⟨s, hmapped, hdata, (writes_kept hs).2.1⟩

end WriteFault

end HeMem

import HeMem.Proofs.Allocate
import HeMem.Run

/-!
# Who changes the hints

The policy thread, the sampler and the removal leave the hints alone.  A fault hinted for DRAM uses
up the tier and the priority, but not the persistence.
-/

namespace HeMem

open Hoare Function

variable {α γ : Type} {cfg : Config} {s : State} {p np : PageId} {f : State → γ}

theorem frames_getPage : Frames f (getPage p) := frames_get.bind fun _ => frames_pure

theorem frames_getList : Frames f (getList p) := frames_get.bind fun _ => frames_pure

theorem frames_listLength {q : ListId} : Frames f (listLength q) :=
  frames_get.bind fun _ => frames_pure

/-- What the policy changes only by a sample: it writes links, rings, cursors, flags, the kernel's
side, and the page structs but for their clocks. -/
structure Calm (f : State → γ) : Prop where
  fifo : ∀ s h, f { s with fifo := h } = f s
  page : ∀ s p P, P.localClock = (s.page p).localClock →
    f { s with page := update s.page p P } = f s
  kernel : ∀ s k, f { s with kernel := k } = f s
  calls : ∀ s c, f { s with calls := c } = f s
  request : ∀ s hot r, f (s.setRequestRing hot r) = f s
  free : ∀ s r, f { s with freePageRing := r } = f s
  cur : ∀ s dram c, f (s.setCur dram c) = f s
  startDram : ∀ s p need, f { s with startDramPage := p, needCoolDram := need } = f s
  startNvm : ∀ s p need, f { s with startNvmPage := p, needCoolNvm := need } = f s

/-- What the policy does not write: it writes links, page structs, rings, cursors, clocks and the
kernel's side. -/
structure Quiet (f : State → γ) : Prop where
  fifo : ∀ s h, f { s with fifo := h } = f s
  page : ∀ s g, f { s with page := g } = f s
  kernel : ∀ s k, f { s with kernel := k } = f s
  calls : ∀ s c, f { s with calls := c } = f s
  request : ∀ s hot r, f (s.setRequestRing hot r) = f s
  free : ∀ s r, f { s with freePageRing := r } = f s
  cur : ∀ s dram c, f (s.setCur dram c) = f s
  clock : ∀ s c dram nvm,
    f { s with globalClock := c, needCoolDram := dram, needCoolNvm := nvm } = f s
  startDram : ∀ s p need, f { s with startDramPage := p, needCoolDram := need } = f s
  startNvm : ∀ s p need, f { s with startNvmPage := p, needCoolNvm := need } = f s

namespace Calm

variable (hf : Calm f)
include hf

theorem onFifo {m : FifoM ListId PageId α} : Frames f (onFifo m) := frames_onFifo hf.fifo

theorem modifyPage {g : HememPage → HememPage}
    (hg : ∀ P, (g P).localClock = P.localClock) : Frames f (modifyPage p g) :=
  fun _ => hf.page _ _ _ (hg _)

theorem onKernel {g : Kernel → Kernel} : Frames f (onKernel g) := fun _ => hf.kernel _ _

theorem coldVictim : ∀ {fuel : ℕ}, Frames f (coldVictim fuel)
  | 0 => frames_throw
  | fuel + 1 => by
    unfold HeMem.coldVictim
    refine hf.onFifo.bind fun r => ?_
    rcases r with _ | c
    · exact frames_pure
    · exact frames_get.bind fun _ => frames_ite coldVictim frames_pure

theorem hememMigrate {up : Bool} {offset : UInt64} : Frames f (hememMigrate cfg up p offset) := by
  unfold HeMem.hememMigrate
  refine frames_get.bind fun _ => Frames.bind (fun _ => hf.calls _ _) fun _ => ?_
  refine frames_check.bind fun _ => frames_check.bind fun _ => frames_check.bind fun _ => ?_
  refine hf.onKernel.bind fun _ => hf.onKernel.bind fun _ => ?_
  exact frames_check.bind fun _ => hf.modifyPage (by intro; rfl)

theorem pebsMigrate {up : Bool} {offset : UInt64} : Frames f (pebsMigrate cfg up p offset) := by
  have hmigrate : (if up then hememMigrateUp cfg else hememMigrateDown cfg) =
      HeMem.hememMigrate cfg up := by
    cases up <;> rfl
  have hwp : Frames f (hememWpPage p true) := by
    unfold hememWpPage
    exact frames_get.bind fun _ => frames_check.bind fun _ => frames_check.bind fun _ => hf.onKernel
  have hmove : Frames f (do
      HeMem.modifyPage p ({ · with migrating := true })
      hememWpPage p true
      HeMem.hememMigrate cfg up p offset
      HeMem.modifyPage p ({ · with migrating := false })) :=
    (hf.modifyPage (by intro; rfl)).bind fun _ => hwp.bind fun _ => hf.hememMigrate.bind fun _ =>
      hf.modifyPage (by intro; rfl)
  unfold HeMem.pebsMigrate
  rw [hmigrate]
  cases up with
  | true => exact hmove
  | false => exact frames_get.bind fun _ => frames_ite frames_pure hmove

theorem exchange {up : Bool} : Frames f (exchange cfg up p np) := by
  have hmigrate : (if up then pebsMigrateUp cfg else pebsMigrateDown cfg) =
      HeMem.pebsMigrate cfg up := by
    cases up <;> rfl
  unfold HeMem.exchange
  rw [hmigrate]
  refine frames_get.bind fun _ => frames_get.bind fun _ => hf.pebsMigrate.bind fun _ => ?_
  exact (hf.modifyPage (by intro; rfl)).bind fun _ => hf.onFifo.bind fun _ => hf.onFifo

theorem updateCurrentCoolPage : Frames f (updateCurrentCoolPage p) := by
  have hone : ∀ dram, Frames f (updateCursor dram p) := fun dram => by
    unfold updateCursor
    refine frames_get.bind fun _ => frames_ite (frames_get.bind fun _ => ?_) frames_pure
    exact frames_check.bind fun _ => hf.onFifo.bind fun _ _ => hf.cur _ _ _
  exact (hone true).bind fun _ => hone false

theorem drainFreePageRing : ∀ {fuel : ℕ}, Frames f (drainFreePageRing fuel)
  | 0 => frames_throw
  | fuel + 1 => by
    unfold HeMem.drainFreePageRing takeFree
    refine Frames.bind (frames_get.bind fun _ => Frames.bind (fun _ => hf.free _ _)
      fun _ => frames_pure) fun r => ?_
    rcases r with _ | x
    · exact frames_pure
    refine Frames.bind ?_ fun _ => drainFreePageRing
    unfold drainPage
    refine frames_getList.bind fun l => ?_
    rcases l with _ | q
    · exact frames_throw
    · exact hf.updateCurrentCoolPage.bind fun _ => hf.onFifo.bind fun _ =>
        frames_getPage.bind fun _ => hf.onFifo

theorem setHot {hot : Bool} : Frames f (setHot hot p) := by
  unfold HeMem.setHot
  refine frames_getPage.bind fun _ => frames_check.bind fun _ => frames_ite ?_ ?_
  · exact frames_getList.bind fun _ => frames_check
  · exact frames_getList.bind fun _ => frames_check.bind fun _ => hf.onFifo.bind fun _ =>
      (hf.modifyPage (by intro; rfl)).bind fun _ => hf.onFifo

theorem serveRequests {hot : Bool} {threshold : ℕ} : ∀ {fuel reqs : ℕ},
    Frames f (serveRequests hot threshold fuel reqs)
  | 0, _ => frames_throw
  | fuel + 1, reqs => by
    unfold HeMem.serveRequests takeRequest
    refine frames_ite (Frames.bind (frames_get.bind fun _ =>
      Frames.bind (fun _ => hf.request _ _ _) fun _ => frames_pure) fun r => ?_) frames_pure
    rcases r with _ | x
    · exact frames_pure
    refine Frames.bind ?_ fun _ => serveRequests
    have hset : (if hot then makeHot else makeCold) = HeMem.setHot hot := by cases hot <;> rfl
    unfold serveRequest
    rw [hset]
    refine frames_getPage.bind fun _ => frames_ite ?_ ?_
    · exact frames_getList.bind fun _ => frames_check.bind fun _ => frames_pure
    · exact hf.updateCurrentCoolPage.bind fun _ => (hf.modifyPage (by intro; rfl)).bind fun _ =>
        hf.setHot.bind fun _ => frames_pure

theorem migrateTries {bytes : UInt64} : ∀ {tries : ℕ}, Frames f (migrateTries cfg p bytes tries)
  | 0 => frames_pure
  | tries + 1 => by
    unfold HeMem.migrateTries
    refine hf.onFifo.bind fun r => ?_
    rcases r with _ | x
    · refine frames_listLength.bind fun _ => hf.coldVictim.bind fun r => ?_
      rcases r with _ | cp
      · exact hf.onFifo.bind fun _ => frames_pure
      refine hf.onFifo.bind fun r => ?_
      rcases r with _ | np
      · exact frames_throw
      · exact frames_getPage.bind fun _ => frames_check.bind fun _ => hf.exchange.bind fun _ =>
          migrateTries
    · exact frames_getPage.bind fun _ => frames_check.bind fun _ => hf.exchange.bind fun _ =>
        frames_getPage.bind fun _ => frames_pure

theorem migrateLoop : ∀ {fuel : ℕ} {bytes : UInt64}, Frames f (migrateLoop cfg fuel bytes)
  | 0, _ => frames_throw
  | fuel + 1, bytes => by
    unfold HeMem.migrateLoop
    refine frames_ite (Frames.bind ?_ fun r => ?_) frames_pure
    · unfold migrateTurn
      refine hf.onFifo.bind fun r => ?_
      rcases r with _ | x
      · exact frames_pure
      have hrest : Frames f (do
          if (← getPage x).reads < hotReadThreshold then
            HeMem.modifyPage x ({ · with hot := false })
            HeMem.onFifo (enqueueFifo .nvmCold x)
            return .next bytes
          else
            HeMem.migrateTries cfg x bytes 2) :=
        frames_getPage.bind fun _ => frames_ite
          ((hf.modifyPage (by intro; rfl)).bind fun _ => hf.onFifo.bind fun _ => frames_pure)
          hf.migrateTries
      exact frames_get.bind fun _ => frames_ite (Frames.bind (fun _ => hf.cur _ _ _) fun _ => hrest)
        hrest
    · rcases r with b | _ | _
      · exact migrateLoop
      · exact frames_pure
      · exact frames_pure

theorem coolPage {hot cold : ListId} {dram : Bool} : Frames f (coolPage hot cold dram p) := by
  have hrest : Frames f (do
      if !(← getPage p).hot then
        let current := ((← get).fifo.node p).next
        HeMem.onFifo (pageListRemovePage hot p)
        HeMem.onFifo (enqueueFifo cold p)
        return current
      else
        return some p) :=
    frames_getPage.bind fun _ => frames_ite (frames_get.bind fun _ => hf.onFifo.bind fun _ =>
      hf.onFifo.bind fun _ => frames_pure) frames_pure
  have hnvm : Frames f (do
      if !dram && (← get).startNvmPage = some p then
        modify fun s : State => { s with startNvmPage := none, needCoolNvm := false }
      if !(← getPage p).hot then
        let current := ((← get).fifo.node p).next
        HeMem.onFifo (pageListRemovePage hot p)
        HeMem.onFifo (enqueueFifo cold p)
        return current
      else
        return some p) :=
    frames_get.bind fun _ => frames_ite (Frames.bind (fun _ => hf.startNvm _ _ _) fun _ => hrest)
      hrest
  unfold HeMem.coolPage
  refine frames_getPage.bind fun _ => frames_check.bind fun _ => frames_get.bind fun _ => ?_
  exact (hf.modifyPage (by intro P; dsimp only; split <;> rfl)).bind fun _ =>
    frames_get.bind fun _ => frames_ite
    (Frames.bind (fun _ => hf.startDram _ _ _) fun _ => hnvm) hnvm

theorem coolLoop {hot cold : ListId} {dram : Bool} : ∀ {turns : ℕ} {current : Option PageId},
    Frames f (coolLoop hot cold dram turns current)
  | 0, _ => frames_pure
  | turns + 1, current => by
    unfold HeMem.coolLoop
    refine hf.onFifo.bind fun r => ?_
    rcases r with _ | x
    · exact frames_pure
    · exact hf.coolPage.bind fun _ => coolLoop

theorem partialCool {hot cold : ListId} {dram : Bool} {current : Option PageId} :
    Frames f (partialCool hot cold dram current) := by
  have hnvm : Frames f (do
      if (← get).startNvmPage = none ∧ !dram then
        modify fun s : State => { s with startNvmPage := (s.fifo.list hot).last }
      HeMem.coolLoop hot cold dram coolingPages current) :=
    frames_get.bind fun _ => frames_ite
      (Frames.bind (fun s => hf.startNvm s (s.fifo.list hot).last s.needCoolNvm)
        fun _ => hf.coolLoop) hf.coolLoop
  unfold HeMem.partialCool
  refine frames_get.bind fun _ => frames_ite frames_pure ?_
  refine frames_get.bind fun _ => frames_ite frames_pure ?_
  exact frames_get.bind fun _ => frames_ite
    (Frames.bind (fun s => hf.startDram s (s.fifo.list hot).last s.needCoolDram) fun _ => hnvm) hnvm

theorem beforeMigration : Frames f beforeMigration :=
  frames_get.bind fun _ => hf.drainFreePageRing.bind fun _ => frames_get.bind fun _ =>
    hf.serveRequests.bind fun _ => frames_get.bind fun _ => hf.serveRequests

theorem pebsPolicyPass : Frames f (pebsPolicyPass cfg) := by
  unfold HeMem.pebsPolicyPass coolBoth
  refine hf.beforeMigration.bind fun _ => ?_
  refine frames_listLength.bind fun _ => hf.migrateLoop.bind fun _ => frames_ite ?_ frames_pure
  refine frames_get.bind fun _ => hf.partialCool.bind fun _ =>
    Frames.bind (fun _ => hf.cur _ _ _) fun _ => ?_
  exact frames_get.bind fun _ => hf.partialCool.bind fun _ _ => hf.cur _ _ _

theorem pebsAllocatePage : Frames f pebsAllocatePage := by
  unfold HeMem.pebsAllocatePage
  refine hf.onFifo.bind fun r => ?_
  rcases r with _ | x
  · refine hf.onFifo.bind fun r => ?_
    rcases r with _ | x
    · exact frames_throw
    · exact frames_getPage.bind fun _ => frames_check.bind fun _ => frames_getPage.bind fun _ =>
        frames_check.bind fun _ => (hf.modifyPage (by intro; rfl)).bind fun _ =>
          hf.onFifo.bind fun _ => frames_pure
  · exact frames_getPage.bind fun _ => frames_check.bind fun _ => frames_getPage.bind fun _ =>
      frames_check.bind fun _ => (hf.modifyPage (by intro; rfl)).bind fun _ =>
        hf.onFifo.bind fun _ => frames_pure

theorem pebsRemovePage : Frames f (pebsRemovePage p) := by
  unfold HeMem.pebsRemovePage
  exact frames_get.bind fun _ => frames_ite frames_throw
    (Frames.bind (fun _ => hf.free _ _) fun _ => hf.modifyPage (by intro; rfl))

theorem pebsInit (hpage : ∀ s g, f { s with page := g } = f s) : Frames f (pebsInit cfg) := by
  have hframes : ∀ dram first n, Frames f (initFrames cfg dram first n) := fun dram first n => by
    induction n with
    | zero => exact frames_pure
    | succ n ih =>
      unfold initFrames
      exact ih.bind fun _ => Frames.bind (fun _ => hpage _ _) fun _ => hf.onFifo
  have hring : Frames f initRing := by
    unfold initRing
    split
    · exact frames_pure
    · exact frames_throw
  unfold HeMem.pebsInit
  refine (hframes _ _ _).bind fun _ => (hframes _ _ _).bind fun _ => hring.bind fun r => ?_
  refine Frames.bind (fun s => hf.request s true r) fun _ => hring.bind fun r => ?_
  refine Frames.bind (fun s => hf.request s false r) fun _ => hring.bind fun _ => ?_
  exact fun _ => hf.free _ _

section Hinted

variable (hreset : ∀ s, f { s with userHintTier := -1, userHintPriority := -1 } = f s)
include hreset

theorem hintedTakeFree : Frames f hintedTakeFree := by
  unfold HeMem.hintedTakeFree
  refine hf.onFifo.bind fun r => ?_
  rcases r with _ | p
  · exact frames_pure
  refine frames_get.bind fun _ => frames_check.bind fun _ => frames_get.bind fun _ => ?_
  refine frames_check.bind fun _ => frames_get.bind fun _ =>
    (hf.modifyPage (by intro; rfl)).bind fun _ => ?_
  have hend : Frames f (do
      modify fun s : State => { s with userHintTier := -1, userHintPriority := -1 }
      return some p : M (Option PageId)) := Frames.bind (frames_modify hreset) fun _ => frames_pure
  exact frames_get.bind fun _ => frames_ite (hf.onFifo.bind fun _ => hend)
    (hf.onFifo.bind fun _ => hend)

/-- A fault changes the hints, and otherwise what the policy does. -/
theorem pebsPagefault : Frames f (pebsPagefault cfg) := by
  unfold HeMem.pebsPagefault userHintedDramPebsAllocatePage
  refine frames_get.bind fun _ => frames_ite ?_ hf.pebsAllocatePage
  refine (hf.hintedTakeFree hreset).bind fun r => ?_
  rcases r with _ | p
  · refine frames_listLength.bind fun _ => hf.coldVictim.bind fun cp => ?_
    refine hf.onFifo.bind fun np => ?_
    rcases cp with _ | cp
    · exact frames_throw
    rcases np with _ | np
    · exact frames_throw
    refine hf.exchange.bind fun _ => (hf.hintedTakeFree hreset).bind fun r => ?_
    rcases r with _ | p
    · exact frames_throw
    · exact frames_pure
  · exact frames_pure

end Hinted

end Calm

namespace Quiet

variable (hf : Quiet f)
include hf

theorem calm : Calm f :=
  ⟨hf.fifo, fun _ _ _ _ => hf.page _ _, hf.kernel, hf.calls, hf.request, hf.free, hf.cur,
    hf.startDram, hf.startNvm⟩

theorem modifyPage {g : HememPage → HememPage} : Frames f (modifyPage p g) := fun _ => hf.page _ _

theorem samplePage {j : PbufType} : Frames f (samplePage j p) := by
  have hreq : ∀ hot, Frames f (makeRequest hot p) := fun hot =>
    hf.modifyPage.bind fun _ _ => hf.request _ _ _
  unfold HeMem.samplePage
  refine frames_getPage.bind fun _ => frames_ite (hf.modifyPage.bind fun _ => ?_) frames_pure
  refine Frames.bind ?_ fun _ => frames_get.bind fun _ => hf.modifyPage.bind fun _ =>
    frames_getPage.bind fun _ => frames_ite (fun _ => hf.clock _ _ _ _) frames_pure
  unfold sampleRequest
  exact frames_getPage.bind fun _ => frames_ite (frames_ite (hreq true) frames_pure)
    (frames_ite (frames_ite (hreq false) frames_pure) frames_pure)

theorem pebsInit : Frames f (pebsInit cfg) := hf.calm.pebsInit hf.page

end Quiet

section Persistence

theorem quiet_tier : Quiet State.userHintTier where
  fifo _ _ := rfl
  page _ _ := rfl
  kernel _ _ := rfl
  calls _ _ := rfl
  request _ hot _ := by cases hot <;> rfl
  free _ _ := rfl
  cur _ dram _ := by cases dram <;> rfl
  clock _ _ _ _ := rfl
  startDram _ _ _ := rfl
  startNvm _ _ _ := rfl

theorem quiet_persistence : Quiet State.userHintPersistence where
  fifo _ _ := rfl
  page _ _ := rfl
  kernel _ _ := rfl
  calls _ _ := rfl
  request _ hot _ := by cases hot <;> rfl
  free _ _ := rfl
  cur _ dram _ := by cases dram <;> rfl
  clock _ _ _ _ := rfl
  startDram _ _ _ := rfl
  startNvm _ _ _ := rfl

theorem frames_hintedTakeFree : Frames State.userHintPersistence hintedTakeFree :=
  quiet_persistence.calm.hintedTakeFree fun _ => rfl

/-- A page that a hinted fault takes is enforced if the hint says so. -/
theorem hintedTakeFree_enforced : Sat hintedTakeFree (fun r s' => ∀ p, r = some p →
    (s'.page p).enforced = decide (s.userHintPersistence = 1)) (fun _ => True) s := by
  have reset : ∀ (t : State) (q : ListId) (x : PageId), (t.page x).enforced =
      decide (s.userHintPersistence = 1) → Sat (do
        onFifo (enqueueFifo q x)
        modify fun s : State => { s with userHintTier := -1, userHintPriority := -1 }
        return some x : M (Option PageId)) (fun r s' => ∀ p, r = some p →
          (s'.page p).enforced = decide (s.userHintPersistence = 1)) (fun _ => True) t := by
    intro t q x ht
    refine onFifo_frame.bind fun _ t' ⟨h, ht'⟩ => ?_
    rw [sat_bind, sat_modify, sat_pure]
    rintro _ ⟨⟩
    exact ht' ▸ ht
  unfold hintedTakeFree
  refine (quiet_persistence.calm.onFifo s).bind fun r s₁ h₁ => ?_
  rcases r with _ | x
  · exact fun p hp => by cases hp
  dsimp only
  rw [sat_getPage, sat_bind, sat_check]
  refine ⟨fun _ => ?_, fun _ => trivial⟩
  rw [sat_getPage, sat_bind, sat_check]
  refine ⟨fun _ => ?_, fun _ => trivial⟩
  rw [sat_bind, sat_get, sat_modifyPage, sat_bind, sat_get, sat_ite]
  have hx : (update s₁.page x { s₁.page x with
      present := true, enforced := decide (s₁.userHintPersistence = 1) } x).enforced =
      decide (s.userHintPersistence = 1) := by
    rw [update_self, h₁]
  exact ⟨fun _ => reset _ _ x hx, fun _ => reset _ _ x hx⟩

/-- The page of a hinted fault is enforced if the hint is persistent. -/
theorem userHintedDramPebsAllocatePage_enforced : Sat (userHintedDramPebsAllocatePage cfg)
    (fun p s' => (s'.page p).enforced = decide (s.userHintPersistence = 1)) (fun _ => True) s := by
  unfold userHintedDramPebsAllocatePage
  refine (hintedTakeFree_enforced.and (frames_hintedTakeFree s)).bind fun r s₁ ⟨he, h₁⟩ => ?_
  rcases r with _ | p
  · rw [listLength, sat_bind, sat_bind, sat_get, sat_pure]
    refine (quiet_persistence.calm.coldVictim s₁).bind fun cp s₃ h₃ => (quiet_persistence.calm.onFifo s₃).bind fun np s₄ h₄ => ?_
    rcases cp with _ | cp
    · trivial
    rcases np with _ | np
    · trivial
    refine (quiet_persistence.calm.exchange s₄).bind fun _ s₅ h₅ => hintedTakeFree_enforced.bind fun r s₆ h₆ => ?_
    rcases r with _ | p
    · trivial
    · have hs : s₅.userHintPersistence = s.userHintPersistence := by rw [h₅, h₄, h₃, h₁]
      have hp := h₆ p rfl
      rwa [hs] at hp
  · exact he p rfl

theorem frames_pebsPagefault : Frames State.userHintPersistence (pebsPagefault cfg) :=
  quiet_persistence.calm.pebsPagefault fun _ => rfl

/-- Only a hint sets the persistence. -/
theorem Op.run_persistence {op : Op} (h : ∀ tier persistence priority,
    op ≠ .hint tier persistence priority) : Frames State.userHintPersistence (op.run cfg) := by
  cases op with
  | hint tier persistence priority => exact absurd rfl (h _ _ _)
  | allocate => exact quiet_persistence.calm.pebsAllocatePage.bind fun _ => frames_pure
  | fault => exact frames_pebsPagefault.bind fun _ => frames_pure
  | assign page va => exact fun _ => rfl
  | remove page => exact quiet_persistence.calm.pebsRemovePage
  | sample j page => exact quiet_persistence.samplePage
  | pass => exact quiet_persistence.calm.pebsPolicyPass

end Persistence

end HeMem

import HeMem.PassRace
import HeMem.Proofs.RemoveRace

/-!
# Where a page is while passes, page faults and removals interleave

A page has one keeper at a time, twice over: with respect to lists it is on one or in the hands of
one thread, and with respect to use it is present, on a free list, or with one of the ring, the
policy thread and the threads that hand pages out.
-/

namespace HeMem

open Hoare Function

variable {T : Type} {cfg : Config} {s u : State} {p np : PageId} {q : ListId} {n : ℕ}

/-! The programs of the steps, put together, are the functions of the policy. -/

section Steps

variable {hot dram : Bool} {page : PageId} {j : PbufType} {current : Option PageId}

theorem drainPage_steps : drainPage page = (unlistPage page >>= fun _ => freePage page) := by
  unfold drainPage unlistPage freePage
  simp only [bind_assoc]
  refine bind_congr fun l => ?_
  cases l with
  | none => rfl
  | some list => simp only [bind_assoc]

theorem serveRequest_steps : serveRequest hot page = (do
    if (← getPage page).present then
      noteRequest page
      setHot hot page
      return true
    else
      checkFree page
      return false) := by
  unfold serveRequest noteRequest checkFree
  funext s
  change (if !(s.page page).present then _ else _ : M Bool) s =
    (if (s.page page).present then _ else _ : M Bool) s
  cases (s.page page).present <;> cases hot <;> simp [bind_assoc, makeHot, makeCold]
  all_goals rfl

theorem setHot_steps : setHot hot page = (unlistRequest hot page >>= fun r =>
    r.elim (pure ()) fun dram => enlistRequest hot dram page) := by
  unfold setHot unlistRequest enlistRequest
  simp only [bind_assoc]
  refine bind_congr fun P => bind_congr fun _ => ?_
  by_cases h : P.hot = hot
  · simp only [h, if_true, bind_assoc, pure_bind, Option.elim, bind_pure_unit]
    cases hot <;> rfl
  · simp only [h, if_false, bind_assoc, pure_bind, Option.elim]
    cases hot <;> rfl

theorem partialCool_steps : partialCool (hotList dram) (coldList dram) dram current = (do
    if ← startCool dram then
      coolLoop (hotList dram) (coldList dram) dram coolingPages current
    else
      return current) := by
  unfold partialCool startCool
  simp only [bind_assoc]
  refine bind_congr fun u => ?_
  split
  · rfl
  · simp only [bind_assoc]
    refine bind_congr fun u => ?_
    split
    · rfl
    · simp only [bind_assoc]
      refine bind_congr fun u => ?_
      split
      · simp only [bind_assoc]
        refine bind_congr fun _ => bind_congr fun u => ?_
        split <;> rfl
      · simp only [bind_assoc]
        refine bind_congr fun u => ?_
        split <;> rfl

theorem coolPage_steps : coolPage (hotList dram) (coldList dram) dram p =
    (coolUnlist dram p >>= fun r => r.elim (pure (some p)) fun current => do
      onFifo (enqueueFifo (coldList dram) p)
      return current) := by
  have hend : (do
      if !(← getPage p).hot then
        let current := ((← get).fifo.node p).next
        onFifo (pageListRemovePage (hotList dram) p)
        onFifo (enqueueFifo (coldList dram) p)
        return current
      else
        return some p : M (Option PageId)) = (getPage p >>= fun P => (if !P.hot then do
        let current := ((← get).fifo.node p).next
        onFifo (pageListRemovePage (hotList dram) p)
        return some current
      else
        return none : M (Option (Option PageId))) >>= fun r =>
          r.elim (pure (some p)) fun current => do
            onFifo (enqueueFifo (coldList dram) p)
            return current) := by
    refine bind_congr fun P => ?_
    split <;> simp only [bind_assoc, pure_bind, Option.elim]
  unfold coolPage coolUnlist coolMark
  simp only [bind_assoc]
  refine bind_congr fun P => bind_congr fun _ => bind_congr fun u => bind_congr fun _ =>
    bind_congr fun u => ?_
  split <;> simp only [bind_assoc]
  · refine bind_congr fun _ => bind_congr fun u => ?_
    split
    · exact bind_congr fun _ => hend
    · exact hend
  · refine bind_congr fun u => ?_
    split
    · exact bind_congr fun _ => hend
    · exact hend

theorem samplePage_steps : samplePage j page = (do
    if (← getPage page).va ≠ 0 then
      modifyPage page (·.counted j)
      sampleRequest page
      shiftSample j page) := by
  unfold samplePage shiftSample
  rfl

end Steps

section Programs

/-- What a page struct says about who may have the page. -/
@[ext] structure Tag where
  present : Bool
  inDram : Bool
  enforced : Bool

def HememPage.tag (P : HememPage) : Tag := ⟨P.present, P.inDram, P.enforced⟩

def State.tags (s : State) : PageId → Tag := fun p => (s.page p).tag

def State.rings (s : State) : RingBuf PageId × (Bool → RingBuf PageId) :=
  (s.freePageRing, s.requestRing)

/-- What is left alone by all but list and ring operations, migrations, allocation and removal. -/
def State.keeping (s : State) :
    Heap ListId PageId × (RingBuf PageId × (Bool → RingBuf PageId)) × (PageId → Tag) :=
  (s.fifo, s.rings, s.tags)

theorem tags_update {P : HememPage} :
    State.tags { s with page := update s.page p P } = update s.tags p P.tag := by
  funext x
  rcases eq_or_ne x p with rfl | hx
  · simp [State.tags]
  · simp [State.tags, update_of_ne hx]

theorem tags_page {P : HememPage} (hP : P.tag = (s.page p).tag) :
    State.tags { s with page := update s.page p P } = s.tags := by
  rw [tags_update, hP]
  exact update_eq_self p s.tags

theorem keeping_page {P : HememPage} (hP : P.tag = (s.page p).tag) :
    State.keeping { s with page := update s.page p P } = s.keeping :=
  congrArg₂ Prod.mk rfl (congrArg₂ Prod.mk rfl (tags_page hP))

/-- Page `p`, on no list before, is on `q`, and the tags are `F`. -/
structure Relisted (s : State) (p : PageId) (q : ListId) (F : PageId → Tag) (u : State) :
    Prop where
  wf : u.fifo.Wf
  listOf : u.fifo.listOf = update s.fifo.listOf p (some q)
  rings : u.rings = s.rings
  tags : u.tags = F

theorem onFifo_relisted (hw : s.fifo.Wf) (hp : s.fifo.listOf p = none) (q : ListId) :
    Sat (onFifo (enqueueFifo q p)) (fun _ u => Relisted s p q s.tags u) (fun _ => True) s := by
  obtain ⟨h, he, hw', hl⟩ := onFifo_enqueue hw hp q
  exact (sat_of_ok he).2 ⟨hw', hl, rfl, rfl⟩

/-- The same after a program that kept what the list operation is about. -/
theorem Relisted.after {t : State} {F : PageId → Tag} (h : Relisted t p q F u)
    (hf : t.fifo = s.fifo) (hr : t.rings = s.rings) : Relisted s p q F u :=
  ⟨h.wf, hf ▸ h.listOf, h.rings.trans hr, h.tags⟩

/-- Page `p` has been taken off the list it was on. -/
structure Delisted (s : State) (p : PageId) (q : ListId) (u : State) : Prop where
  wf : u.fifo.Wf
  was : s.fifo.listOf p = some q
  listOf : u.fifo.listOf = update s.fifo.listOf p none
  rings : u.rings = s.rings
  tags : u.tags = s.tags

theorem onFifo_delisted (hw : s.fifo.Wf) (hp : s.fifo.listOf p = some q) :
    Sat (onFifo (pageListRemovePage q p)) (fun _ u => Delisted s p q u) (fun _ => True) s := by
  obtain ⟨h, he, hw', hl⟩ := hw.remove hp
  rw [sat_onFifo he]
  exact ⟨hw', hp, hl, rfl, rfl⟩

theorem Delisted.after {t : State} (h : Delisted t p q u) (hk : t.keeping = s.keeping) :
    Delisted s p q u := by
  have hf : t.fifo = s.fifo := congrArg (·.1) hk
  have hr : t.rings = s.rings := congrArg (·.2.1) hk
  have ht : t.tags = s.tags := congrArg (·.2.2) hk
  exact ⟨h.wf, hf ▸ h.was, hf ▸ h.listOf, h.rings.trans hr, h.tags.trans ht⟩

theorem unlistPage_delisted (hw : s.fifo.Wf) :
    Sat (unlistPage p) (fun _ u => ∃ q, Delisted s p q u) (fun _ => True) s := by
  unfold unlistPage
  rw [sat_bind]
  have hlist : getList p s = .ok (s.fifo.listOf p, s) := rfl
  refine (sat_of_ok hlist).2 ?_
  rcases hq : s.fifo.listOf p with _ | q
  · trivial
  have hcur : Frames State.keeping (updateCurrentCoolPage p) :=
    updateCurrentCoolPage_frames fun s dram c => by cases dram <;> rfl
  refine (hcur s).bind fun _ u hu => ?_
  have hf : u.fifo = s.fifo := congrArg (·.1) hu
  exact (onFifo_delisted (hf ▸ hw) (hf ▸ hq)).post fun _ _ h => ⟨q, h.after hu⟩

theorem freePage_relisted (hw : s.fifo.Wf) (hp : s.fifo.listOf p = none) :
    Sat (freePage p) (fun _ u => Relisted s p (freeList (s.tags p).inDram) s.tags u)
      (fun _ => True) s := by
  unfold freePage
  exact sat_getPage.2 (onFifo_relisted hw hp _)

theorem frames_checkFree : Frames State.keeping (checkFree p) := by
  unfold checkFree
  exact frames_get.bind fun _ => Frames.bind (frames_get.bind fun _ => frames_pure) fun _ =>
    frames_check

theorem frames_noteRequest : Frames State.keeping (noteRequest p) := by
  unfold noteRequest
  exact (updateCurrentCoolPage_frames fun s dram c => by cases dram <;> rfl).bind fun _ _ =>
    keeping_page rfl

/-- A page that `make_hot` or `make_cold` takes off a list was on one of the other kind. -/
theorem unlistRequest_sat {hot : Bool} (hw : s.fifo.Wf) : Sat (unlistRequest hot p)
    (fun r u => match r with
      | none => u = s
      | some dram => dram = (s.tags p).inDram ∧ Delisted s p (usedList dram !hot) u)
    (fun _ => True) s := by
  unfold unlistRequest
  refine sat_getPage.2 ?_
  rw [sat_bind, sat_check]
  refine ⟨fun _ => ?_, fun _ => trivial⟩
  have hlist : getList p s = .ok (s.fifo.listOf p, s) := rfl
  rw [sat_ite]
  refine ⟨fun _ => ?_, fun _ => ?_⟩
  · rw [sat_bind]
    refine (sat_of_ok hlist).2 ?_
    rw [sat_bind, sat_check]
    exact ⟨fun _ => rfl, fun _ => trivial⟩
  · rw [sat_bind]
    refine (sat_of_ok hlist).2 ?_
    rw [sat_bind, sat_check]
    refine ⟨fun hq => ?_, fun _ => trivial⟩
    exact (onFifo_delisted hw hq).bind fun _ _ h => ⟨rfl, h⟩

theorem enlistRequest_relisted {hot dram : Bool} (hw : s.fifo.Wf) (hp : s.fifo.listOf p = none) :
    Sat (enlistRequest hot dram p) (fun _ u => Relisted s p (usedList dram hot) s.tags u)
      (fun _ => True) s := by
  unfold enlistRequest
  refine sat_modifyPage.2 ?_
  refine (onFifo_relisted (by exact hw) (by exact hp) _).post fun _ _ h =>
    ⟨h.wf, h.listOf, h.rings, h.tags.trans (tags_page rfl)⟩

theorem frames_startCool {dram : Bool} : Frames State.keeping (startCool dram) := by
  unfold startCool
  refine frames_get.bind fun _ => frames_ite frames_pure ?_
  refine frames_get.bind fun _ => frames_ite frames_pure ?_
  have hrest : Frames State.keeping (do
      if (← get).startNvmPage = none ∧ !dram then
        modify fun s => { s with startNvmPage := (s.fifo.list (hotList dram)).last }
      return true : M Bool) :=
    frames_get.bind fun _ => frames_ite (Frames.bind (fun _ => rfl) fun _ => frames_pure)
      frames_pure
  exact frames_get.bind fun _ => frames_ite (Frames.bind (fun _ => rfl) fun _ => hrest) hrest

theorem coolMark_sat {dram : Bool} : Sat (coolMark dram p)
    (fun _ u => (s.tags p).inDram = dram ∧ u.keeping = s.keeping) (fun _ => True) s := by
  unfold coolMark
  refine sat_getPage.2 ?_
  rw [sat_bind, sat_check]
  refine ⟨fun hd => ?_, fun _ => trivial⟩
  rw [sat_bind, sat_get]
  refine sat_modifyPage.2 ?_
  have hrest : ∀ t : State, t.keeping = s.keeping → Sat (do
      if dram && (← get).startDramPage = some p then
        modify ({ · with startDramPage := none, needCoolDram := false })
      if !dram && (← get).startNvmPage = some p then
        modify ({ · with startNvmPage := none, needCoolNvm := false }) : M Unit)
      (fun _ u => u.keeping = s.keeping) (fun _ => True) t := fun t ht => by
    have hnvm : Frames State.keeping (do
        if !dram && (← get).startNvmPage = some p then
          modify ({ · with startNvmPage := none, needCoolNvm := false }) : M Unit) :=
      frames_get.bind fun _ => frames_ite (fun _ => rfl) frames_pure
    have hframes : Frames State.keeping (do
        if dram && (← get).startDramPage = some p then
          modify ({ · with startDramPage := none, needCoolDram := false })
        if !dram && (← get).startNvmPage = some p then
          modify ({ · with startNvmPage := none, needCoolNvm := false }) : M Unit) :=
      frames_get.bind fun _ => frames_ite (Frames.bind (fun _ => rfl) fun _ => hnvm) hnvm
    exact (hframes t).post fun _ _ h => h.trans ht
  refine (hrest _ (keeping_page ?_)).post fun _ _ h => ⟨hd, h⟩
  dsimp only
  split <;> rfl

theorem coolUnlist_sat {dram : Bool} (hw : s.fifo.Wf) (hp : s.fifo.listOf p = some (hotList dram)) :
    Sat (coolUnlist dram p) (fun r u => (s.tags p).inDram = dram ∧ match r with
      | none => u.keeping = s.keeping
      | some _ => Delisted s p (hotList dram) u) (fun _ => True) s := by
  unfold coolUnlist
  refine coolMark_sat.bind fun _ t ht => ?_
  have hf : t.fifo = s.fifo := congrArg (·.1) ht.2
  refine sat_getPage.2 ?_
  rw [sat_ite]
  refine ⟨fun _ => ?_, fun _ => ⟨ht.1, ht.2⟩⟩
  rw [sat_bind, sat_get]
  exact (onFifo_delisted (hf ▸ hw) (hf ▸ hp)).bind fun _ _ h => ⟨ht.1, h.after ht.2⟩

theorem judgePage_relisted (hw : s.fifo.Wf) (hp : s.fifo.listOf p = none) :
    Sat (judgePage p) (fun r u => if r then u.keeping = s.keeping
      else Relisted s p .nvmCold s.tags u) (fun _ => True) s := by
  have hrest : ∀ t : State, t.keeping = s.keeping → Sat (do
      if (← getPage p).reads < hotReadThreshold then
        modifyPage p ({ · with hot := false })
        onFifo (enqueueFifo .nvmCold p)
        return false
      else
        return true)
      (fun r u => if r then u.keeping = s.keeping else Relisted s p .nvmCold s.tags u)
      (fun _ => True) t := fun t ht => by
    have hf : t.fifo = s.fifo := congrArg (·.1) ht
    have hr : t.rings = s.rings := congrArg (·.2.1) ht
    have htags : t.tags = s.tags := congrArg (·.2.2) ht
    refine sat_getPage.2 ?_
    rw [sat_ite]
    refine ⟨fun _ => sat_modifyPage.2 ?_, fun _ => ht⟩
    refine (onFifo_relisted (by exact hf ▸ hw) (by exact hf ▸ hp) _).bind fun _ _ h => ?_
    exact ⟨h.wf, h.listOf.trans (by rw [← hf]), h.rings.trans hr,
      (h.tags.trans (tags_page rfl)).trans htags⟩
  unfold judgePage
  rw [sat_bind, sat_get, sat_ite]
  refine ⟨fun _ => ?_, fun _ => hrest s rfl⟩
  rw [sat_bind, sat_modify]
  exact hrest _ rfl

/-- A migration that is not skipped moves the page to the other tier. -/
theorem pebsMigrate_tags {up : Bool} {offset : UInt64} (hp : (s.tags p).enforced = false) :
    Sat (pebsMigrate cfg up p offset) (fun _ u => u.fifo = s.fifo ∧ u.rings = s.rings ∧
      u.tags = update s.tags p { s.tags p with inDram := up }) (fun _ => True) s := by
  have hmigrate : ∀ t : State, t.keeping = s.keeping → Sat (hememMigrate cfg up p offset)
      (fun _ u => u.fifo = s.fifo ∧ u.rings = s.rings ∧
        u.tags = update s.tags p { s.tags p with inDram := up }) (fun _ => True) t := fun t ht => by
    unfold hememMigrate
    refine sat_getPage.2 ?_
    rw [sat_bind, sat_modify, sat_bind, sat_check]
    refine ⟨fun _ => ?_, fun _ => trivial⟩
    rw [sat_bind, sat_check]
    refine ⟨fun _ => ?_, fun _ => trivial⟩
    rw [sat_bind, sat_check]
    refine ⟨fun _ => ?_, fun _ => trivial⟩
    unfold onKernel
    rw [sat_bind, sat_modify, sat_bind, sat_modify, sat_bind, sat_check]
    refine ⟨fun _ => ⟨congrArg (·.1) ht, congrArg (·.2.1) ht, ?_⟩, fun _ => trivial⟩
    have htags : t.tags = s.tags := congrArg (·.2.2) ht
    rw [← htags]
    exact tags_update
  have hdir : (if up then hememMigrateUp cfg else hememMigrateDown cfg) = hememMigrate cfg up := by
    cases up <;> rfl
  have hmove : Sat (do
      modifyPage p ({ · with migrating := true })
      hememWpPage p true
      hememMigrate cfg up p offset
      modifyPage p ({ · with migrating := false }))
      (fun _ u => u.fifo = s.fifo ∧ u.rings = s.rings ∧
        u.tags = update s.tags p { s.tags p with inDram := up }) (fun _ => True) s := by
    have hwp : Frames State.keeping (hememWpPage p true) :=
      frames_get.bind fun _ => frames_check.bind fun _ => frames_check.bind fun _ _ => rfl
    refine sat_modifyPage.2 ((hwp _).bind fun _ t ht => ?_)
    refine (hmigrate t (ht.trans (keeping_page rfl))).bind fun _ u hu => ?_
    refine ⟨hu.1, hu.2.1, ?_⟩
    rw [← hu.2.2]
    exact tags_page rfl
  unfold pebsMigrate
  rw [hdir]
  cases up with
  | true => exact hmove
  | false =>
    refine sat_getPage.2 ?_
    have hno : (s.page p).enforced = false := hp
    rw [hno]
    exact hmove

theorem moveFrame_relisted {up : Bool} (hw : s.fifo.Wf) (hp : s.fifo.listOf p = none)
    (he : (s.tags p).enforced = false) (hne : np ≠ p) : Sat (moveFrame cfg up p np)
      (fun _ u => (s.tags np).present = false ∧
        Relisted s p (if up then .dramHot else .nvmCold) (update (update s.tags p
          { s.tags p with inDram := up }) np { s.tags np with inDram := !up }) u)
      (fun _ => True) s := by
  have hdir : (if up then pebsMigrateUp cfg else pebsMigrateDown cfg) = pebsMigrate cfg up := by
    cases up <;> rfl
  unfold moveFrame
  rw [hdir]
  refine sat_getPage.2 ?_
  rw [sat_bind, sat_check]
  refine ⟨fun hpr => sat_getPage.2 (sat_getPage.2 ?_), fun _ => trivial⟩
  refine (pebsMigrate_tags he).bind fun _ t ht => sat_modifyPage.2 ?_
  obtain ⟨hf, hr, htags⟩ := ht
  refine (onFifo_relisted (by exact hf ▸ hw) (by exact hf ▸ hp) _).post fun _ _ h =>
    ⟨hpr, h.wf, h.listOf.trans (by rw [← hf]), h.rings.trans hr, ?_⟩
  rw [h.tags, tags_update, htags]
  congr 1
  have hnp : t.tags np = s.tags np := by rw [htags, update_of_ne hne]
  have henf : (t.page np).enforced = (s.tags np).enforced := congrArg Tag.enforced hnp
  exact Tag.ext (Eq.symm hpr) rfl henf

theorem handOut_relisted {dram : Bool} (hw : s.fifo.Wf) (hp : s.fifo.listOf p = none) :
    Sat (handOut dram p) (fun _ u => Relisted s p (coldList dram)
      (update s.tags p { s.tags p with present := true }) u) (fun _ => True) s := by
  unfold handOut
  refine sat_getPage.2 ?_
  rw [sat_bind, sat_check]
  refine ⟨fun _ => sat_getPage.2 ?_, fun _ => trivial⟩
  rw [sat_bind, sat_check]
  refine ⟨fun _ => sat_modifyPage.2 ?_, fun _ => trivial⟩
  refine (onFifo_relisted (by exact hw) (by exact hp) _).post fun _ _ h =>
    ⟨h.wf, h.listOf, h.rings, h.tags.trans tags_update⟩

theorem frames_shiftSample {j : PbufType} : Frames State.keeping (shiftSample j p) := by
  unfold shiftSample
  refine frames_get.bind fun _ => Frames.bind (fun _ => keeping_page rfl) fun _ => ?_
  exact frames_get.bind fun _ => frames_ite (fun _ => rfl) frames_pure

end Programs

section Keeping

/-- The pages on no list that the policy thread has. -/
def PassPhase.held : PassPhase → List PageId
  | drain phase => phase.hands
  | enlist _ _ _ p | coolEnlist _ _ _ p => [p]
  | migrate phase => phase.held
  | _ => []

/-- Which tier the pages in the hands of the migration loop are in. -/
def MigratePhase.Tiered (tier : PageId → Bool) : MigratePhase → Prop
  | judge p _ | attempt p _ _ | victim p _ _ | putBack p | takeNvm p _ _ _ | moveDown p _ _ _ _ =>
    tier p = false
  | freeNvm _ np _ => tier np = false
  | freeDram p np _ _ => tier p = false ∧ tier np = true
  | _ => True

def PassPhase.Tiered (tier : PageId → Bool) : PassPhase → Prop
  | enlist _ _ dram p | coolEnlist dram _ _ p => tier p = dram
  | migrate phase => phase.Tiered tier
  | _ => True

/-- The page that the cooling has come to, with the hot list it is on. -/
def PassPhase.cooling : PassPhase → Option (PageId × ListId)
  | coolPage dram _ p => some (p, hotList dram)
  | _ => none

/-- What a page is there for: in use, or free to be. -/
inductive Use
  | live
  | free

def useOf (list : PageId → Option ListId) (tags : PageId → Tag) (p : PageId) : Option Use :=
  if (tags p).present then some .live
  else if (list p).any (·.kind = .free) then some .free else none

variable {list : PageId → Option ListId} {tags tags' : PageId → Tag} {ring ring' : List PageId}
  {r r' : PassPhase} {thread thread' : T → AllocPhase} {a : AllocPhase} {t : T}

def handsOf (r : PassPhase) (thread : T → AllocPhase) : Option T → List PageId
  | none => r.held
  | some t => (thread t).page.toList

def vacantsOf (ring : List PageId) (r : PassPhase) (thread : T → AllocPhase) :
    Vacancy T → List PageId
  | .free _ => []
  | .ring => ring
  | .policy => r.vacant
  | .thread t => (thread t).page.toList

/-- A page is on a list of its tier, and on a free list only if it is not present. -/
structure Tag.Fits (g : Tag) (q : ListId) : Prop where
  tier : g.inDram = q.dram
  free : q.kind = .free → g.present = false

/-- Each page has one keeper in either sense and is on lists that it fits, and none is enforced. -/
structure Keepers (n : ℕ) (list : PageId → Option ListId) (tags : PageId → Tag) (ring : List PageId)
    (r : PassPhase) (thread : T → AllocPhase) : Prop where
  held : Custody list (handsOf r thread) fun _ => False
  use : Custody (useOf list tags) (vacantsOf ring r thread) (· < n)
  fits : ∀ p q, list p = some q → (tags p).Fits q
  plain : ∀ p, (tags p).enforced = false
  phase : r.Tiered fun p => (tags p).inDram
  cooling : ∀ p q, r.cooling = some (p, q) → list p = some q
  handed : ∀ t dram p, thread t = .put dram p → (tags p).inDram = dram

section Uses

theorem useOf_congr (h : ∀ p, (tags' p).present = (tags p).present) :
    useOf list tags' = useOf list tags :=
  funext fun p => by rw [useOf, useOf, h p]

theorem useOf_eq_none : useOf list tags p = none ↔
    (tags p).present = false ∧ ∀ q, list p = some q → q.kind ≠ .free := by
  unfold useOf
  rcases (tags p).present with _ | _ <;> rcases list p with _ | q <;> simp

/-- A page that is present or kept for use is on no free list, so it makes no difference to its use
where else it is put. -/
theorem useOf_update {l : Option ListId} (hp : ∀ q, list p = some q → q.kind ≠ .free)
    (hl : ∀ q, l = some q → q.kind ≠ .free) : useOf (update list p l) tags = useOf list tags := by
  funext x
  rcases eq_or_ne x p with rfl | hx
  · have hany : ∀ l : Option ListId, (∀ q, l = some q → q.kind ≠ .free) →
        l.any (·.kind = .free) = false := fun l h => by
      cases l with
      | none => rfl
      | some q => simpa using h q rfl
    rw [useOf, useOf, update_self, hany _ hp, hany _ hl]
  · rw [useOf, useOf, update_of_ne hx]

theorem useOf_take (hp : (tags p).present = false) :
    useOf (update list p none) tags = update (useOf list tags) p none := by
  funext x
  rcases eq_or_ne x p with rfl | hx
  · simp [useOf, hp]
  · rw [update_of_ne hx, useOf, useOf, update_of_ne hx]

theorem useOf_give (hp : (tags p).present = false) (hq : q.kind = .free) :
    useOf (update list p (some q)) tags = update (useOf list tags) p (some .free) := by
  funext x
  rcases eq_or_ne x p with rfl | hx
  · simp [useOf, hp, hq]
  · rw [update_of_ne hx, useOf, useOf, update_of_ne hx]

theorem useOf_out {l : Option ListId} {g : Tag} (hg : g.present = true) :
    useOf (update list p l) (update tags p g) = update (useOf list tags) p (some .live) := by
  funext x
  rcases eq_or_ne x p with rfl | hx
  · simp [useOf, hg]
  · rw [update_of_ne hx, useOf, useOf, update_of_ne hx, update_of_ne hx]

theorem useOf_remove {g : Tag} (hg : g.present = false)
    (hp : ∀ q, list p = some q → q.kind ≠ .free) :
    useOf list (update tags p g) = update (useOf list tags) p none := by
  funext x
  rcases eq_or_ne x p with rfl | hx
  · rw [update_self, useOf_eq_none, update_self]
    exact ⟨hg, hp⟩
  · rw [update_of_ne hx, useOf, useOf, update_of_ne hx]

end Uses

theorem handsOf_ne_none {v : Option T} (hv : v ≠ none) :
    handsOf r' thread v = handsOf r thread v := by
  cases v with
  | none => exact (hv rfl).elim
  | some t => rfl

theorem vacantsOf_congr (hv : r'.vacant = r.vacant) :
    vacantsOf ring r' thread = vacantsOf ring r thread := by
  funext v
  cases v with
  | policy => exact hv
  | free dram => rfl
  | ring => rfl
  | thread t => rfl

theorem vacantsOf_ne_policy {v : Vacancy T} (hv : v ≠ .policy) :
    vacantsOf ring r' thread v = vacantsOf ring r thread v := by
  cases v with
  | policy => exact (hv rfl).elim
  | free dram => rfl
  | ring => rfl
  | thread t => rfl

section Threads

variable [DecidableEq T]

theorem handsOf_ne {v : Option T} (hv : v ≠ some t) :
    handsOf r (update thread t a) v = handsOf r thread v := by
  cases v with
  | none => rfl
  | some t' =>
    rw [handsOf, handsOf, update_of_ne fun h => hv (congrArg some h)]

theorem vacantsOf_ne {v : Vacancy T} (hv : v ≠ .thread t) :
    vacantsOf ring r (update thread t a) v = vacantsOf ring r thread v := by
  cases v with
  | thread t' =>
    rw [vacantsOf, vacantsOf, update_of_ne fun h => hv (congrArg Vacancy.thread h)]
  | free dram => rfl
  | ring => rfl
  | policy => rfl

theorem handsOf_update (ha : a.page = (thread t).page) :
    handsOf r (update thread t a) = handsOf r thread := by
  funext v
  by_cases hv : v = some t
  · subst hv
    rw [handsOf, handsOf, update_self, ha]
  · exact handsOf_ne hv

theorem vacantsOf_update (ha : a.page = (thread t).page) :
    vacantsOf ring r (update thread t a) = vacantsOf ring r thread := by
  funext v
  by_cases hv : v = .thread t
  · subst hv
    rw [vacantsOf, vacantsOf, update_self, ha]
  · exact vacantsOf_ne hv

end Threads

theorem kind_cooling (h : r.cooling = some (p, q)) : q.kind ≠ .free := by
  cases r with
  | coolPage dram turns x =>
    cases h
    cases dram <;> nofun
  | _ => cases h

/-- What holds of pages on lists still does when one is taken off. -/
theorem forall_off {P : PageId → ListId → Prop} (h : ∀ x q, list x = some q → P x q) (x : PageId)
    (q : ListId) (hx : update list p none x = some q) : P x q := by
  rcases eq_or_ne x p with rfl | hxp
  · rw [update_self] at hx
    cases hx
  · rw [update_of_ne hxp] at hx
    exact h x q hx

/-- It does when one is put on a list, if it holds of that one. -/
theorem forall_on {P : PageId → ListId → Prop} (hp : P p q)
    (h : ∀ x, x ≠ p → ∀ q, list x = some q → P x q) (x : PageId) (q' : ListId)
    (hx : update list p (some q) x = some q') : P x q' := by
  rcases eq_or_ne x p with rfl | hxp
  · rw [update_self] at hx
    cases hx
    exact hp
  · rw [update_of_ne hxp] at hx
    exact h x hxp q' hx

namespace Keepers

/-- A page not in use that somebody has is on no free list. -/
theorem kind_ne (h : Keepers n list tags ring r thread) {w : Vacancy T}
    (hp : p ∈ vacantsOf ring r thread w) (hq : list p = some q) : q.kind ≠ .free :=
  (useOf_eq_none.1 (h.use.off w p hp)).2 q hq

theorem present (h : Keepers n list tags ring r thread) {w : Vacancy T}
    (hp : p ∈ vacantsOf ring r thread w) : (tags p).present = false :=
  (useOf_eq_none.1 (h.use.off w p hp)).1

/-- The policy thread goes on, with at most the pages it had. -/
theorem next (h : Keepers n list tags ring r thread) (hh : r'.held.Sublist r.held)
    (hv : r'.vacant = r.vacant) (ht : r'.Tiered fun p => (tags p).inDram)
    (hc : ∀ p q, r'.cooling = some (p, q) → list p = some q) :
    Keepers n list tags ring r' thread where
  held := h.held.drop fun w => by
    cases w with
    | none => exact hh
    | some t => exact .refl _
  use := by
    rw [vacantsOf_congr hv]
    exact h.use
  fits := h.fits
  plain := h.plain
  phase := ht
  cooling := hc
  handed := h.handed

/-- The policy thread takes a page off a list that is not a free list. -/
theorem pickUp (h : Keepers n list tags ring r thread) (hp : list p = some q) (hq : q.kind ≠ .free)
    (hh : r'.held.Perm (p :: r.held)) (hv : r'.vacant = r.vacant)
    (ht : r'.Tiered fun p => (tags p).inDram) (hc : r'.cooling = none) :
    Keepers n (update list p none) tags ring r' thread where
  held := h.held.take hp (w := none) hh fun _ hv => handsOf_ne_none hv
  use := by
    have hkind : ∀ q', list p = some q' → q'.kind ≠ .free := fun q' hq' => by
      rw [hp] at hq'
      cases hq'
      exact hq
    rw [useOf_update hkind (by nofun), vacantsOf_congr hv]
    exact h.use
  fits := forall_off h.fits
  plain := h.plain
  phase := ht
  cooling x q' hx := by
    rw [hc] at hx
    cases hx
  handed := h.handed

/-- It takes a page off a free list. -/
theorem pickFree (h : Keepers n list tags ring r thread) (hp : list p = some q)
    (hq : q.kind = .free) (hh : r'.held.Perm (p :: r.held)) (hv : r'.vacant.Perm (p :: r.vacant))
    (ht : r'.Tiered fun p => (tags p).inDram) (hc : r'.cooling = none) :
    Keepers n (update list p none) tags ring r' thread where
  held := h.held.take hp (w := none) hh fun _ hv => handsOf_ne_none hv
  use := by
    have hpres := (h.fits p q hp).free hq
    have huse : useOf list tags p = some .free := by simp [useOf, hpres, hp, hq]
    rw [useOf_take hpres]
    exact h.use.take huse (w := .policy) hv fun _ hv => vacantsOf_ne_policy hv
  fits := forall_off h.fits
  plain := h.plain
  phase := ht
  cooling x q' hx := by
    rw [hc] at hx
    cases hx
  handed := h.handed

/-- It puts a page on a list that is not a free list, and may have moved the page before. -/
theorem putDown (h : Keepers n list tags ring r thread) (hh : r.held.Perm (p :: r'.held))
    (hv : r'.vacant = r.vacant) (hq : q.kind ≠ .free)
    (hpres : ∀ x, (tags' x).present = (tags x).present)
    (hin : ∀ x, x ∉ r.held → (tags' x).inDram = (tags x).inDram)
    (hpl : ∀ x, (tags' x).enforced = (tags x).enforced) (hd : (tags' p).inDram = q.dram)
    (ht : r'.Tiered fun p => (tags' p).inDram) (hc : r'.cooling = none) :
    Keepers n (update list p (some q)) tags' ring r' thread where
  held := h.held.give (w := none) hh fun _ hv => handsOf_ne_none hv
  use := by
    have hoff : list p = none := h.held.off none p (hh.mem_iff.2 List.mem_cons_self)
    rw [useOf_update (fun q' hq' => by rw [hoff] at hq'; cases hq') fun q' hq' => by
      cases hq'
      exact hq, useOf_congr hpres, vacantsOf_congr hv]
    exact h.use
  fits := forall_on ⟨hd, fun hk => (hq hk).elim⟩ fun x _ q' hx => by
    have hno : x ∉ r.held := fun hm => by
      rw [h.held.off none x hm] at hx
      cases hx
    exact ⟨(hin x hno).trans (h.fits x q' hx).tier,
      fun hk => (hpres x).trans ((h.fits x q' hx).free hk)⟩
  plain x := (hpl x).trans (h.plain x)
  phase := ht
  cooling x q' hx := by
    rw [hc] at hx
    cases hx
  handed t dram x hx := by
    have hno : x ∉ r.held := fun hm => by
      cases h.held.alone none (some t) x hm (by simp [handsOf, hx, AllocPhase.page])
    exact (hin x hno).trans (h.handed t dram x hx)

/-- It puts a page on a free list. -/
theorem putFree (h : Keepers n list tags ring r thread) (hh : r.held.Perm (p :: r'.held))
    (hv : r.vacant.Perm (p :: r'.vacant)) (hq : q.kind = .free) (hd : (tags p).inDram = q.dram)
    (ht : r'.Tiered fun p => (tags p).inDram) (hc : r'.cooling = none) :
    Keepers n (update list p (some q)) tags ring r' thread where
  held := h.held.give (w := none) hh fun _ hv => handsOf_ne_none hv
  use := by
    have hpres := h.present (w := .policy) (hv.mem_iff.2 List.mem_cons_self)
    rw [useOf_give hpres hq]
    exact h.use.give (w := .policy) hv fun _ hv => vacantsOf_ne_policy hv
  fits := forall_on
    ⟨hd, fun _ => h.present (w := .policy) (hv.mem_iff.2 List.mem_cons_self)⟩ fun x _ => h.fits x
  plain := h.plain
  phase := ht
  cooling x q' hx := by
    rw [hc] at hx
    cases hx
  handed := h.handed

/-- It gets a page from the free-page ring. -/
theorem get (h : Keepers n list tags (p :: ring) r thread) (hh : r'.held = r.held)
    (hv : r'.vacant.Perm (p :: r.vacant)) (ht : r'.Tiered fun p => (tags p).inDram)
    (hc : r'.cooling = none) : Keepers n list tags ring r' thread where
  held := h.held.congr fun w => by
    cases w with
    | none => exact .of_eq hh
    | some t => exact .refl _
  use := by
    refine h.use.pass (v := .ring) (w := .policy) nofun (.refl _) hv fun v hr hp => ?_
    cases v with
    | policy => exact (hp rfl).elim
    | ring => exact (hr rfl).elim
    | free dram => rfl
    | thread t => rfl
  fits := h.fits
  plain := h.plain
  phase := ht
  cooling x q' hx := by
    rw [hc] at hx
    cases hx
  handed := h.handed

/-- A page in use is removed. -/
theorem remove (h : Keepers n list tags ring r thread) (hp : (tags p).present = true) :
    Keepers n list (update tags p { tags p with present := false }) (ring ++ [p]) r thread := by
  have hsame : ∀ x, (update tags p { tags p with present := false } x).inDram = (tags x).inDram ∧
      (update tags p { tags p with present := false } x).enforced = (tags x).enforced := fun x => by
    rcases eq_or_ne x p with rfl | hx
    · simp
    · simp [hx]
  have hlist : ∀ q, list p = some q → q.kind ≠ .free := fun q hq hk => by
    rw [(h.fits p q hq).free hk] at hp
    cases hp
  refine ⟨h.held, ?_, fun x q hx => ⟨(hsame x).1.trans (h.fits x q hx).tier, fun hk => ?_⟩,
    fun x => (hsame x).2.trans (h.plain x), ?_, h.cooling,
    fun t dram x hx => (hsame x).1.trans (h.handed t dram x hx)⟩
  · rw [useOf_remove rfl hlist]
    refine h.use.take (q := .live) (w := .ring) (by simp [useOf, hp]) ?_ fun v hv => ?_
    · exact List.perm_append_singleton p ring
    · cases v with
      | ring => exact (hv rfl).elim
      | policy => rfl
      | free dram => rfl
      | thread t => rfl
  · rcases eq_or_ne x p with rfl | hxp
    · simp
    · simpa [hxp] using (h.fits x q hx).free hk
  · have htier : (fun x => (update tags p { tags p with present := false } x).inDram) =
        fun x => (tags x).inDram := funext fun x => (hsame x).1
    rw [htier]
    exact h.phase

section Threads

variable [DecidableEq T]

/-- A thread goes on with the page it had, or with none if it had none. -/
theorem threadNext (h : Keepers n list tags ring r thread) (ha : a.page = (thread t).page)
    (hd : ∀ dram p, a = .put dram p → (tags p).inDram = dram) :
    Keepers n list tags ring r (update thread t a) where
  held := by
    rw [handsOf_update ha]
    exact h.held
  use := by
    rw [vacantsOf_update ha]
    exact h.use
  fits := h.fits
  plain := h.plain
  phase := h.phase
  cooling := h.cooling
  handed t' dram p hp := by
    rcases eq_or_ne t' t with rfl | hne
    · rw [update_self] at hp
      exact hd dram p hp
    · rw [update_of_ne hne] at hp
      exact h.handed t' dram p hp

/-- It takes a page off a free list. -/
theorem threadTake (h : Keepers n list tags ring r thread) (hp : list p = some q)
    (hq : q.kind = .free) (ht : (thread t).page = none) :
    Keepers n (update list p none) tags ring r (update thread t (.put q.dram p)) where
  held := by
    refine h.held.take hp (w := some t) ?_ fun v hv => handsOf_ne hv
    rw [handsOf, handsOf, update_self, ht]
    exact .refl _
  use := by
    have hpres := (h.fits p q hp).free hq
    have huse : useOf list tags p = some .free := by simp [useOf, hpres, hp, hq]
    rw [useOf_take hpres]
    refine h.use.take huse (w := .thread t) ?_ fun v hv => vacantsOf_ne hv
    rw [vacantsOf, vacantsOf, update_self, ht]
    exact .refl _
  fits := forall_off h.fits
  plain := h.plain
  phase := h.phase
  cooling x q' hx := by
    have hq' := h.cooling x q' hx
    rcases eq_or_ne x p with rfl | hxp
    · rw [hp] at hq'
      cases hq'
      exact absurd hq (kind_cooling hx)
    · rwa [update_of_ne hxp]
  handed t' dram x hx := by
    rcases eq_or_ne t' t with rfl | hne
    · rw [update_self] at hx
      cases hx
      exact (h.fits p q hp).tier
    · rw [update_of_ne hne] at hx
      exact h.handed t' dram x hx

/-- It puts the page that it hands out on a cold list. -/
theorem threadPut {dram : Bool} (h : Keepers n list tags ring r thread)
    (ht : thread t = .put dram p) (ha : a.page = none) : Keepers n (update list p (some (coldList dram)))
      (update tags p { tags p with present := true }) ring r (update thread t a) := by
  have hself : ∀ t' dram' x, update thread t a t' = .put dram' x →
      thread t' = .put dram' x := fun t' dram' x hx => by
    rcases eq_or_ne t' t with rfl | hne
    · rw [update_self] at hx
      rw [hx] at ha
      cases ha
    · rwa [update_of_ne hne] at hx
  have hsame : ∀ x, (update tags p { tags p with present := true } x).inDram = (tags x).inDram ∧
      (update tags p { tags p with present := true } x).enforced = (tags x).enforced := fun x => by
    rcases eq_or_ne x p with rfl | hx
    · simp
    · simp [hx]
  have hpage : (thread t).page = some p := congrArg AllocPhase.page ht
  have hoff : list p = none := h.held.off (some t) p (by simp [handsOf, hpage])
  refine ⟨?_, ?_, ?_, fun x => (hsame x).2.trans (h.plain x), ?_, fun x q hx => ?_,
    fun t' dram' x hx => (hsame x).1.trans (h.handed t' dram' x (hself t' dram' x hx))⟩
  · refine h.held.give (w := some t) ?_ fun v hv => handsOf_ne hv
    rw [handsOf, handsOf, update_self, hpage, ha]
    exact .refl _
  · rw [useOf_out rfl]
    refine h.use.give (w := .thread t) ?_ fun v hv => vacantsOf_ne hv
    rw [vacantsOf, vacantsOf, update_self, hpage, ha]
    exact .refl _
  · refine forall_on ⟨?_, fun hk => ?_⟩ fun x hx q hq => ?_
    · rw [(hsame p).1, h.handed t dram p ht]
      exact (dram_usedList dram false).symm
    · cases dram <;> cases hk
    · rw [update_of_ne hx]
      exact h.fits x q hq
  · have htier : (fun x => (update tags p { tags p with present := true } x).inDram) =
        fun x => (tags x).inDram := funext fun x => (hsame x).1
    rw [htier]
    exact h.phase
  · have hxp : x ≠ p := by
      rintro rfl
      rw [h.cooling x q hx] at hoff
      cases hoff
    rw [update_of_ne hxp]
    exact h.cooling x q hx

end Threads

end Keepers

end Keeping

def PassPhase.drains : PassPhase → Bool
  | drain _ => true
  | _ => false

/-- The page taken from a request ring whose `present` matters next. -/
def PassPhase.request : PassPhase → Option PageId
  | readPresent _ _ p | checkFree _ _ p => some p
  | _ => none

def SamplePhase.page : SamplePhase → Option PageId
  | idle => none
  | setFlag _ _ p | put _ _ p | shift _ p => some p

namespace PassRace

variable {s s' : PassRace T} {u : State} {r : PassPhase}

structure Inv (n : ℕ) (s : PassRace T) : Prop where
  wf : s.state.fifo.Wf
  ring : s.state.freePageRing.Wf
  keepers : Keepers n s.state.fifo.listOf s.state.tags s.state.freePageRing.entries s.policy
    s.allocator
  late : s.policy.drains = false →
    ∀ p, p ∈ s.state.freePageRing.entries ↔ s.removed p = true
  requests : ∀ hot, (s.state.requestRing hot).Wf ∧ ∀ p ∈ (s.state.requestRing hot).entries, p < n
  sampler : ∀ p ∈ s.sampler.page, p < n
  request : ∀ p ∈ s.policy.request, p < n

/-- Any step that leaves the rings alone. -/
theorem Inv.goes {k : SamplePhase} {thread : T → AllocPhase} (h : s.Inv n) (hw : u.fifo.Wf)
    (hr : u.rings = s.state.rings)
    (hk : Keepers n u.fifo.listOf u.tags s.state.freePageRing.entries r thread)
    (hd : r.drains = false → s.policy.drains = false) (hs : ∀ p ∈ k.page, p < n)
    (hq : ∀ p ∈ r.request, p < n) : Inv n ⟨u, r, k, thread, s.removed⟩ := by
  have hfree : u.freePageRing = s.state.freePageRing := congrArg (·.1) hr
  have hreq : u.requestRing = s.state.requestRing := congrArg (·.2) hr
  refine ⟨hw, hfree ▸ h.ring, ?_, fun hr p => ?_, fun hot => ?_, hs, hq⟩
  · dsimp only
    rw [hfree]
    exact hk
  · dsimp only
    rw [hfree]
    exact h.late (hd hr) p
  · dsimp only
    rw [hreq]
    exact h.requests hot

section Policy

/-- The policy thread takes a step that leaves the rings alone. -/
theorem Inv.policy (h : s.Inv n) (hw : u.fifo.Wf) (hr : u.rings = s.state.rings)
    (hk : Keepers n u.fifo.listOf u.tags s.state.freePageRing.entries r s.allocator)
    (hd : r.drains = false → s.policy.drains = false) (hq : ∀ p ∈ r.request, p < n) :
    ({ s with state := u, policy := r } : PassRace T).Inv n :=
  h.goes hw hr hk hd h.sampler hq

/-- It only looks, or changes what no keeper is about. -/
theorem Inv.looks (h : s.Inv n) (hu : u.keeping = s.state.keeping)
    (hh : r.held.Sublist s.policy.held) (hv : r.vacant = s.policy.vacant)
    (ht : r.Tiered fun p => (s.state.tags p).inDram)
    (hc : ∀ p q, r.cooling = some (p, q) → s.state.fifo.listOf p = some q)
    (hd : r.drains = false → s.policy.drains = false) (hq : ∀ p ∈ r.request, p < n) :
    ({ s with state := u, policy := r } : PassRace T).Inv n := by
  have hf : u.fifo = s.state.fifo := congrArg (·.1) hu
  have htags : u.tags = s.state.tags := congrArg (·.2.2) hu
  refine h.policy (hf ▸ h.wf) (congrArg (·.2.1) hu) ?_ hd hq
  rw [hf, htags]
  exact h.keepers.next hh hv ht hc

theorem policyDoes_eq_some {α : Type} {m : M α} {k : α → PassPhase}
    (h : s.policyDoes m k = some s') :
    ∃ a u, m s.state = .ok (a, u) ∧ s' = { s with state := u, policy := k a } := by
  obtain ⟨⟨a, u⟩, hm, rfl⟩ := Option.map_eq_some_iff.1 h
  exact ⟨a, u, toOption_eq_some.1 hm, rfl⟩

theorem Inv.head (h : s.Inv n) (hp : s.policy = .drain .head)
    (hs : ((takeFree s.state).toOption.map fun r => match r.1 with
      | none => { s with state := r.2, policy := .requests true 0, removed := fun _ => false }
      | some p => { s with state := r.2, policy := .drain (.unlist p) }) = some s') : s'.Inv n := by
  have htake : takeFree s.state = .ok ((ringBufGet s.state.freePageRing).1,
      { s.state with freePageRing := (ringBufGet s.state.freePageRing).2 }) := rfl
  rw [htake] at hs
  have hk := h.keepers
  rw [hp] at hk
  rcases h.ring.get with ⟨he, hr⟩ | ⟨x, ring, hr, hw, he⟩
  · rw [hr] at hs
    cases hs
    refine ⟨h.wf, h.ring, hk.next (.refl _) rfl trivial nofun, fun _ p => ?_, h.requests,
      h.sampler, nofun⟩
    dsimp only
    rw [he]
    simp
  · rw [hr] at hs
    cases hs
    rw [he] at hk
    exact ⟨h.wf, hw, hk.get rfl (.refl _) trivial rfl, nofun, h.requests, h.sampler, nofun⟩

theorem Inv.unlist (h : s.Inv n) (hp : s.policy = .drain (.unlist p))
    (hs : s.policyDoes (unlistPage p) (fun _ => .drain (.free p)) = some s') : s'.Inv n := by
  obtain ⟨a, u, hm, rfl⟩ := policyDoes_eq_some hs
  obtain ⟨q, hu⟩ := (unlistPage_delisted h.wf).ok hm
  have hk := h.keepers
  rw [hp] at hk
  have hq : q.kind ≠ .free := hk.kind_ne (w := .policy) (.head _) hu.was
  refine h.policy hu.wf hu.rings ?_ nofun nofun
  rw [hu.listOf, hu.tags]
  exact hk.pickUp hu.was hq (.refl _) rfl trivial rfl

theorem Inv.free (h : s.Inv n) (hp : s.policy = .drain (.free p))
    (hs : s.policyDoes (freePage p) (fun _ => .drain .head) = some s') : s'.Inv n := by
  obtain ⟨a, u, hm, rfl⟩ := policyDoes_eq_some hs
  have hk := h.keepers
  rw [hp] at hk
  have hu := (freePage_relisted h.wf (hk.held.off none p (.head _))).ok hm
  refine h.policy hu.wf hu.rings ?_ nofun nofun
  rw [hu.listOf, hu.tags]
  exact hk.putFree (.refl _) (.refl _) (kind_freeList _) (dram_freeList _).symm trivial rfl

/-- It leaves the loop over a request ring. -/
theorem Inv.leave {hot : Bool} {reqs : ℕ} (h : s.Inv n) (hp : s.policy = .requests hot reqs) :
    ({ s with policy := afterRequests hot } : PassRace T).Inv n := by
  cases hot <;> exact h.looks (u := s.state) rfl (by rw [hp]; exact .refl _) (by rw [hp]; rfl)
    trivial nofun (fun _ => by rw [hp]; rfl) nofun

theorem Inv.take {hot : Bool} {reqs : ℕ} (h : s.Inv n) (hp : s.policy = .requests hot reqs)
    (hs : s.policyDoes (takeRequest hot) (fun
      | none => afterRequests hot
      | some p => .readPresent hot reqs p) = some s') : s'.Inv n := by
  obtain ⟨a, u, hm, rfl⟩ := policyDoes_eq_some hs
  have htake : takeRequest hot s.state = .ok ((ringBufGet (s.state.requestRing hot)).1,
      s.state.setRequestRing hot (ringBufGet (s.state.requestRing hot)).2) := rfl
  rw [htake] at hm
  obtain ⟨hring, hknown⟩ := h.requests hot
  rcases hring.get with ⟨he, hr⟩ | ⟨x, ring, hr, hw, he⟩
  · rw [hr] at hm
    cases hm
    have hsame : s.state.setRequestRing hot (s.state.requestRing hot) = s.state := by
      cases hot <;> rfl
    dsimp only
    rw [hsame]
    exact h.leave hp
  · rw [hr] at hm
    cases hm
    rw [he] at hknown
    have hk := h.keepers
    rw [hp] at hk
    have hrest : ∀ hot', ((s.state.setRequestRing hot ring).requestRing hot').Wf ∧
        ∀ p ∈ ((s.state.setRequestRing hot ring).requestRing hot').entries, p < n := fun hot' => by
      rcases eq_or_ne hot' hot with rfl | hne
      · rw [requestRing_setRequestRing, if_pos rfl]
        exact ⟨hw, fun p hp => hknown p (List.mem_cons_of_mem _ hp)⟩
      · rw [requestRing_setRequestRing, if_neg hne]
        exact h.requests hot'
    refine ⟨?_, ?_, ?_, fun _ => ?_, hrest, h.sampler, fun p hp => ?_⟩
    · cases hot <;> exact h.wf
    · cases hot <;> exact h.ring
    · have hnext : Keepers n s.state.fifo.listOf s.state.tags s.state.freePageRing.entries
          (.readPresent hot reqs x) s.allocator := hk.next (.refl _) rfl trivial nofun
      cases hot <;> exact hnext
    · have hlate := h.late (by rw [hp]; rfl)
      cases hot <;> exact hlate
    · cases hp
      exact hknown _ List.mem_cons_self

theorem Inv.requestOff {hot : Bool} {reqs : ℕ} (h : s.Inv n)
    (hp : s.policy = .unlist hot reqs p)
    (hs : s.policyDoes (unlistRequest hot p) (fun
      | none => .requests hot reqs
      | some dram => .enlist hot reqs dram p) = some s') : s'.Inv n := by
  obtain ⟨a, u, hm, rfl⟩ := policyDoes_eq_some hs
  have hu := (unlistRequest_sat h.wf).ok hm
  cases a with
  | none =>
    dsimp only at hu
    subst hu
    exact h.looks rfl (by rw [hp]; exact .refl _) (by rw [hp]; rfl) trivial nofun
      (fun _ => by rw [hp]; rfl) nofun
  | some dram =>
    obtain ⟨hd, hu⟩ := hu
    have hk := h.keepers
    rw [hp] at hk
    refine h.policy hu.wf hu.rings ?_ (fun _ => by rw [hp]; rfl) nofun
    rw [hu.listOf, hu.tags]
    exact hk.pickUp hu.was (by simp; cases hot <;> simp) (.refl _) rfl hd.symm rfl

theorem Inv.requestOn {hot dram : Bool} {reqs : ℕ} (h : s.Inv n)
    (hp : s.policy = .enlist hot reqs dram p)
    (hs : s.policyDoes (enlistRequest hot dram p) (fun _ => .requests hot reqs) = some s') :
    s'.Inv n := by
  obtain ⟨a, u, hm, rfl⟩ := policyDoes_eq_some hs
  have hk := h.keepers
  rw [hp] at hk
  have hu := (enlistRequest_relisted h.wf (hk.held.off none p (.head _))).ok hm
  have hd : (s.state.tags p).inDram = dram := hk.phase
  refine h.policy hu.wf hu.rings ?_ (fun _ => by rw [hp]; rfl) nofun
  rw [hu.listOf, hu.tags]
  exact hk.putDown (.refl _) rfl (by simp; cases hot <;> simp) (fun _ => rfl) (fun _ _ => rfl)
    (fun _ => rfl) (by rw [hd, dram_usedList]) trivial rfl

section Migrate

variable {phase phase' : MigratePhase}

/-- The migration loop only looks. -/
theorem Inv.migrateLooks (h : s.Inv n) (hp : s.policy = .migrate phase)
    (hu : u.keeping = s.state.keeping) (hr : afterMigrate phase phase' = r)
    (hh : r.held.Sublist phase.held) (hv : r.vacant = phase.spare)
    (ht : r.Tiered fun p => (s.state.tags p).inDram) (hc : r.cooling = none)
    (hq : r.request = none) :
    ({ s with state := u, policy := afterMigrate phase phase' } : PassRace T).Inv n := by
  subst hr
  refine h.looks hu (by rw [hp]; exact hh) (by rw [hp]; exact hv) ht (fun x q hx => ?_)
    (fun _ => by rw [hp]; rfl) fun x hx => ?_
  · rw [hc] at hx
    cases hx
  · rw [hq] at hx
    cases hx

/-- It takes a page off a list. -/
theorem Inv.migrateTakes (h : s.Inv n) (hp : s.policy = .migrate phase) {f : Heap ListId PageId}
    (hw : f.Wf) (hx : s.state.fifo.listOf p = some q)
    (hl : f.listOf = update s.state.fifo.listOf p none)
    (hr : afterMigrate phase phase' = .migrate phase')
    (hh : phase'.held.Perm (p :: phase.held))
    (hv : if q.kind = .free then phase'.spare.Perm (p :: phase.spare)
      else phase'.spare = phase.spare)
    (ht : phase'.Tiered fun p => (s.state.tags p).inDram) :
    ({ s with state := { s.state with fifo := f }, policy := afterMigrate phase phase' } :
      PassRace T).Inv n := by
  have hk := h.keepers
  rw [hp] at hk
  rw [hr]
  refine h.policy (u := { s.state with fifo := f }) hw rfl ?_ (fun _ => by rw [hp]; rfl) nofun
  dsimp only
  rw [hl]
  split at hv
  · exact hk.pickFree hx ‹_› hh hv ht rfl
  · exact hk.pickUp hx ‹_› hh hv ht rfl

/-- It puts a page on a list that is not a free list, and may have moved it before. -/
theorem Inv.migratePuts (h : s.Inv n) (hp : s.policy = .migrate phase) {F : PageId → Tag}
    (hu : Relisted s.state p q F u) (hr : afterMigrate phase phase' = r)
    (hh : phase.held.Perm (p :: r.held)) (hv : r.vacant = phase.spare) (hq : q.kind ≠ .free)
    (hF : ∀ x, (F x).present = (s.state.tags x).present ∧
      (x ∉ phase.held → (F x).inDram = (s.state.tags x).inDram) ∧
      (F x).enforced = (s.state.tags x).enforced)
    (hd : (F p).inDram = q.dram) (ht : r.Tiered fun p => (F p).inDram) (hc : r.cooling = none)
    (hreq : r.request = none) :
    ({ s with state := u, policy := afterMigrate phase phase' } : PassRace T).Inv n := by
  subst hr
  have hk := h.keepers
  rw [hp] at hk
  refine h.policy hu.wf hu.rings ?_ (fun _ => by rw [hp]; rfl) fun x hx => ?_
  · rw [hu.listOf, hu.tags]
    exact hk.putDown hh hv hq (fun x => (hF x).1) (fun x => (hF x).2.1) (fun x => (hF x).2.2) hd
      ht hc
  · rw [hreq] at hx
    cases hx

/-- It puts a free page on a free list. -/
theorem Inv.migrateFrees (h : s.Inv n) (hp : s.policy = .migrate phase)
    (hu : Relisted s.state p q s.state.tags u) (hr : afterMigrate phase phase' = .migrate phase')
    (hh : phase.held.Perm (p :: phase'.held)) (hv : phase.spare.Perm (p :: phase'.spare))
    (hq : q.kind = .free) (hd : (s.state.tags p).inDram = q.dram)
    (ht : phase'.Tiered fun p => (s.state.tags p).inDram) :
    ({ s with state := u, policy := afterMigrate phase phase' } : PassRace T).Inv n := by
  have hk := h.keepers
  rw [hp] at hk
  rw [hr]
  refine h.policy hu.wf hu.rings ?_ (fun _ => by rw [hp]; rfl) nofun
  rw [hu.listOf, hu.tags]
  exact hk.putFree hh hv hq hd ht rfl

/-- What a migration does to the tags. -/
theorem moved_tags {tags : PageId → Tag} {up : Bool} {l : List PageId} (hp : p ∈ l) (hnp : np ∈ l)
    (x : PageId) : (update (update tags p { tags p with inDram := up }) np
      { tags np with inDram := !up } x).present = (tags x).present ∧
    (x ∉ l → (update (update tags p { tags p with inDram := up }) np
      { tags np with inDram := !up } x).inDram = (tags x).inDram) ∧
    (update (update tags p { tags p with inDram := up }) np
      { tags np with inDram := !up } x).enforced = (tags x).enforced := by
  rcases eq_or_ne x np with rfl | hxn
  · simp [hnp]
  · rcases eq_or_ne x p with rfl | hxp
    · simp [hxn, hp]
    · simp [hxn, hxp]

theorem Inv.migrate (h : s.Inv n) (hp : s.policy = .migrate phase)
    (hs : (MigrateRace.policyStep cfg ⟨s.state, phase, s.allocator⟩).map (fun r =>
      { s with state := r.state, policy := afterMigrate phase r.policy }) = some s') :
    s'.Inv n := by
  obtain ⟨m, hm, rfl⟩ := Option.map_eq_some_iff.1 hs
  have hk := h.keepers
  rw [hp] at hk
  have hphase : phase.Tiered fun p => (s.state.tags p).inDram := hk.phase
  have hoff : ∀ x ∈ phase.held, s.state.fifo.listOf x = none := hk.held.off none
  have hnodup : phase.held.Nodup := hk.held.nodup none
  have hfits : ∀ x q, s.state.fifo.listOf x = some q → (s.state.tags x).inDram = q.dram :=
    fun x q hx => (hk.fits x q hx).tier
  unfold MigrateRace.policyStep at hm
  cases phase with
  | next bytes =>
    dsimp only at hm
    split at hm
    · obtain ⟨r, hr, rfl⟩ | ⟨x, f, r, hw, hx, hl, -, hr, rfl⟩ := MigrateRace.dequeue_eq_some h.wf hm
      · cases hr
        exact h.migrateLooks hp rfl rfl (.refl _) rfl trivial rfl rfl
      · cases hr
        exact h.migrateTakes hp hw hx hl rfl (.refl _) rfl (hfits x _ hx)
    · cases hm
      exact h.migrateLooks hp rfl rfl (.refl _) rfl trivial rfl rfl
  | judge p bytes =>
    obtain ⟨a, u, r, hj, hr, rfl⟩ := MigrateRace.policyDoes_eq_some hm
    have hu := (judgePage_relisted h.wf (hoff p (.head _))).ok hj
    cases hr
    cases a
    · exact h.migratePuts hp hu rfl (.refl _) rfl (by decide) (fun _ => ⟨rfl, fun _ => rfl, rfl⟩)
        hphase trivial rfl rfl
    · exact h.migrateLooks hp hu rfl (.refl _) rfl hphase rfl rfl
  | attempt p bytes tries =>
    rcases tries with _ | tries
    · cases hm
      exact h.migrateLooks hp rfl rfl (List.nil_sublist _) rfl trivial rfl rfl
    obtain ⟨r, hr, rfl⟩ | ⟨x, f, r, hw, hx, hl, -, hr, rfl⟩ := MigrateRace.dequeue_eq_some h.wf hm
    · cases hr
      exact h.migrateLooks hp rfl rfl (.refl _) rfl hphase rfl rfl
    · cases hr
      exact h.migrateTakes hp hw hx hl rfl (.refl _) (.refl _) trivial
  | moveUp p np bytes =>
    obtain ⟨a, u, r, hj, hr, rfl⟩ := MigrateRace.policyDoes_eq_some hm
    have hne : np ≠ p := fun he => (List.nodup_cons.1 hnodup).1 (he ▸ .head _)
    have hu := ((moveFrame_relisted h.wf (hoff p (.tail _ (.head _))) (hk.plain p) hne).ok hj).2
    cases hr
    exact h.migratePuts hp hu rfl (.swap _ _ _) rfl (by decide)
      (moved_tags (.tail _ (.head _)) (.head _)) (by simp [hne.symm, ListId.dram])
      (by simp [afterMigrate, PassPhase.Tiered, MigratePhase.Tiered]) rfl rfl
  | freeNvm p np bytes =>
    obtain ⟨a, u, r, hj, hr, rfl⟩ := MigrateRace.policyDoes_eq_some hm
    have hu := (onFifo_relisted h.wf (hoff np (.head _)) _).ok hj
    cases hr
    exact h.migrateFrees hp hu rfl (.refl _) (.refl _) rfl hphase trivial
  | victim p bytes tries =>
    obtain ⟨r, hr, rfl⟩ | ⟨x, f, r, hw, hx, hl, -, hr, rfl⟩ := MigrateRace.dequeue_eq_some h.wf hm
    · cases hr
      exact h.migrateLooks hp rfl rfl (.refl _) rfl hphase rfl rfl
    · have hno : (s.state.page x).enforced = false := hk.plain x
      simp only [hno, Bool.false_eq_true, if_false, Option.some.injEq] at hr
      subst hr
      exact h.migrateTakes hp hw hx hl rfl (.refl _) rfl hphase
  | putBack p =>
    obtain ⟨a, u, r, hj, hr, rfl⟩ := MigrateRace.policyDoes_eq_some hm
    have hu := (onFifo_relisted h.wf (hoff p (.head _)) _).ok hj
    cases hr
    exact h.migratePuts hp hu rfl (.refl _) rfl (by decide) (fun _ => ⟨rfl, fun _ => rfl, rfl⟩)
      hphase trivial rfl rfl
  | takeNvm p cp bytes tries =>
    obtain ⟨r, hr, rfl⟩ | ⟨x, f, r, hw, hx, hl, -, hr, rfl⟩ := MigrateRace.dequeue_eq_some h.wf hm
    · cases hr
    · cases hr
      exact h.migrateTakes hp hw hx hl rfl (.refl _) (.refl _) hphase
  | moveDown p cp np bytes tries =>
    obtain ⟨a, u, r, hj, hr, rfl⟩ := MigrateRace.policyDoes_eq_some hm
    obtain ⟨hnp, hcp⟩ := List.nodup_cons.1 hnodup
    have hne : np ≠ cp := fun he => hnp (he ▸ .head _)
    have hpn : p ≠ np := fun he => hnp (he ▸ .tail _ (.head _))
    have hpc : p ≠ cp := fun he => (List.nodup_cons.1 hcp).1 (he ▸ .head _)
    have hu := ((moveFrame_relisted h.wf (hoff cp (.tail _ (.head _))) (hk.plain cp) hne).ok hj).2
    cases hr
    refine h.migratePuts hp hu rfl (.swap _ _ _) rfl (by decide)
      (moved_tags (.tail _ (.head _)) (.head _)) (by simp [hne.symm, ListId.dram]) ?_ rfl rfl
    have hp : (s.state.tags p).inDram = false := hphase
    exact ⟨by simpa [hpn, hpc] using hp, by simp⟩
  | freeDram p np bytes tries =>
    obtain ⟨a, u, r, hj, hr, rfl⟩ := MigrateRace.policyDoes_eq_some hm
    have hu := (onFifo_relisted h.wf (hoff np (.head _)) _).ok hj
    cases hr
    exact h.migrateFrees hp hu rfl (.refl _) (.refl _) rfl hphase.2 hphase.1
  | out =>
    cases hm
    exact h.migrateLooks hp rfl rfl (.refl _) rfl trivial rfl rfl

end Migrate

section Cool

variable {dram : Bool} {turns : ℕ}

theorem onFifo_nextPage {w : State} {c : Option PageId} (hw : w.fifo.Wf) :
    Sat (onFifo (nextPage q c)) (fun r u => u = w ∧ ∀ y, r = some y → w.fifo.listOf y = some q)
      (fun _ => True) w := by
  by_cases hc : ∀ p, c = some p → w.fifo.listOf p = some q
  · obtain ⟨r, he, hr⟩ := hw.nextPage hc
    rw [sat_onFifo he]
    exact ⟨rfl, fun y hy => (hr y hy).1⟩
  · push Not at hc
    obtain ⟨p, rfl, hp⟩ := hc
    have he : nextPage q (some p) w.fifo = .error .nextList := by
      have hsat : Sat (nextPage q (some p)) (fun _ _ => False) (· = .nextList) w.fifo := by
        unfold nextPage
        rw [sat_bind, sat_get, sat_bind, sat_get, sat_bind, sat_check]
        exact ⟨fun h => (hp h).elim, fun _ => rfl⟩
      rcases hn : nextPage q (some p) w.fifo with e | ⟨a, f⟩
      · exact congrArg _ (hsat.error hn)
      · exact (hsat.ok hn).elim
    have hf : onFifo (nextPage q (some p)) w = .error (.fifo .nextList) := by
      unfold onFifo
      rw [he]
    exact (sat_of_error hf).2 trivial

/-- A cooling is over, with the cursor it leaves. -/
theorem Inv.coolEnds (h : s.Inv n) (hu : u.keeping = s.state.keeping) (hh : s.policy.held = [])
    (hv : s.policy.vacant = []) (hd : s.policy.drains = false) :
    ({ s with state := u, policy := afterCool dram } : PassRace T).Inv n := by
  cases dram <;> exact h.looks hu (by rw [hh]; exact .refl _) (by rw [hv]; rfl) trivial nofun
    (fun _ => hd) nofun

theorem Inv.cool (h : s.Inv n) (hp : s.policy = .cool dram)
    (hs : s.policyDoes (startCool dram) (fun begun =>
      if begun then .coolNext dram coolingPages (s.state.cur dram) else afterCool dram) = some s') :
    s'.Inv n := by
  obtain ⟨a, u, hm, rfl⟩ := policyDoes_eq_some hs
  have hu := (frames_startCool s.state).ok hm
  cases a
  · exact h.coolEnds hu (by rw [hp]; rfl) (by rw [hp]; rfl) (by rw [hp]; rfl)
  · exact h.looks hu (by rw [hp]; exact .refl _) (by rw [hp]; rfl) trivial nofun
      (fun _ => by rw [hp]; rfl) nofun

theorem Inv.coolNext {current : Option PageId} (h : s.Inv n)
    (hp : s.policy = .coolNext dram (turns + 1) current)
    (hs : ((onFifo (nextPage (hotList dram) current) s.state).toOption.map fun r => match r.1 with
      | none => { s with state := r.2.setCur dram current, policy := afterCool dram }
      | some p => { s with state := r.2, policy := .coolPage dram turns p }) = some s') :
    s'.Inv n := by
  obtain ⟨⟨a, u⟩, hm, rfl⟩ := Option.map_eq_some_iff.1 hs
  obtain ⟨rfl, hnext⟩ := (onFifo_nextPage h.wf).ok (toOption_eq_some.1 hm)
  cases a with
  | none =>
    exact h.coolEnds (by cases dram <;> rfl) (by rw [hp]; rfl) (by rw [hp]; rfl) (by rw [hp]; rfl)
  | some p =>
    refine h.looks rfl (by rw [hp]; exact .refl _) (by rw [hp]; rfl) trivial (fun x q hx => ?_)
      (fun _ => by rw [hp]; rfl) nofun
    cases hx
    exact hnext _ rfl

theorem Inv.coolPage (h : s.Inv n) (hp : s.policy = .coolPage dram turns p)
    (hs : s.policyDoes (coolUnlist dram p) (fun
      | none => .coolNext dram turns (some p)
      | some current => .coolEnlist dram turns current p) = some s') : s'.Inv n := by
  obtain ⟨a, u, hm, rfl⟩ := policyDoes_eq_some hs
  have hk := h.keepers
  rw [hp] at hk
  obtain ⟨hd, hu⟩ := (coolUnlist_sat h.wf (hk.cooling p _ rfl)).ok hm
  cases a with
  | none =>
    exact h.looks hu (by rw [hp]; exact .refl _) (by rw [hp]; rfl) trivial nofun
      (fun _ => by rw [hp]; rfl) nofun
  | some current =>
    dsimp only at hu
    refine h.policy hu.wf hu.rings ?_ (fun _ => by rw [hp]; rfl) nofun
    rw [hu.listOf, hu.tags]
    exact hk.pickUp hu.was (by rw [kind_hotList]; nofun) (.refl _) rfl hd rfl

theorem Inv.coolEnlist {current : Option PageId} (h : s.Inv n)
    (hp : s.policy = .coolEnlist dram turns current p)
    (hs : s.policyDoes (onFifo (enqueueFifo (coldList dram) p))
      (fun _ => .coolNext dram turns current) = some s') : s'.Inv n := by
  obtain ⟨a, u, hm, rfl⟩ := policyDoes_eq_some hs
  have hk := h.keepers
  rw [hp] at hk
  have hu := (onFifo_relisted h.wf (hk.held.off none p (.head _)) _).ok hm
  have hd : (s.state.tags p).inDram = dram := hk.phase
  refine h.policy hu.wf hu.rings ?_ (fun _ => by rw [hp]; rfl) nofun
  rw [hu.listOf, hu.tags]
  exact hk.putDown (.refl _) rfl (by cases dram <;> nofun) (fun _ => rfl) (fun _ _ => rfl)
    (fun _ => rfl) (by rw [hd]; cases dram <;> rfl) trivial rfl

end Cool

theorem Inv.policyStep (h : s.Inv n) (hs : s.policyStep cfg = some s') : s'.Inv n := by
  unfold PassRace.policyStep at hs
  split at hs
  case h_1 hp => exact h.head hp hs
  case h_2 p hp => exact h.unlist hp hs
  case h_3 p hp => exact h.free hp hs
  case h_4 hot reqs hp =>
    split at hs
    · exact h.take hp hs
    · cases hs
      exact h.leave hp
  case h_5 hot reqs p hp =>
    cases hs
    have hknown := h.request
    rw [hp] at hknown
    split
    · exact h.looks rfl (by rw [hp]; exact .refl _) (by rw [hp]; rfl) trivial nofun
        (fun _ => by rw [hp]; rfl) nofun
    · exact h.looks rfl (by rw [hp]; exact .refl _) (by rw [hp]; rfl) trivial nofun
        (fun _ => by rw [hp]; rfl) hknown
  case h_6 hot reqs p hp =>
    obtain ⟨a, u, hm, rfl⟩ := policyDoes_eq_some hs
    exact h.looks ((frames_checkFree s.state).ok hm) (by rw [hp]; exact .refl _) (by rw [hp]; rfl)
      trivial nofun (fun _ => by rw [hp]; rfl) nofun
  case h_7 hot reqs p hp =>
    obtain ⟨a, u, hm, rfl⟩ := policyDoes_eq_some hs
    exact h.looks ((frames_noteRequest s.state).ok hm) (by rw [hp]; exact .refl _) (by rw [hp]; rfl)
      trivial nofun (fun _ => by rw [hp]; rfl) nofun
  case h_8 hot reqs p hp => exact h.requestOff hp hs
  case h_9 hot reqs dram p hp => exact h.requestOn hp hs
  case h_10 phase hp => exact h.migrate hp hs
  case h_11 dram hp => exact h.cool hp hs
  case h_12 dram current hp =>
    cases hs
    exact h.coolEnds (by cases dram <;> rfl) (by rw [hp]; rfl) (by rw [hp]; rfl) (by rw [hp]; rfl)
  case h_13 dram turns current hp => exact h.coolNext hp hs
  case h_14 dram turns p hp => exact h.coolPage hp hs
  case h_15 dram turns current p hp => exact h.coolEnlist hp hs

end Policy

section Others

/-- A step of others that changes what no keeper is about. -/
theorem Inv.beside (h : s.Inv n) {k : SamplePhase} (hu : u.keeping = s.state.keeping)
    (hk : ∀ p ∈ k.page, p < n) : ({ s with state := u, sampler := k } : PassRace T).Inv n := by
  have hf : u.fifo = s.state.fifo := congrArg (·.1) hu
  have htags : u.tags = s.state.tags := congrArg (·.2.2) hu
  refine h.goes (hf ▸ h.wf) (congrArg (·.2.1) hu) ?_ id hk h.request
  rw [hf, htags]
  exact h.keepers

theorem samplerDoes_eq_some {m : M Unit} {k : SamplePhase} (h : s.samplerDoes m k = some s') :
    ∃ u, m s.state = .ok ((), u) ∧ s' = { s with state := u, sampler := k } := by
  obtain ⟨⟨a, u⟩, hm, rfl⟩ := Option.map_eq_some_iff.1 h
  exact ⟨u, toOption_eq_some.1 hm, rfl⟩

theorem Inv.samplerStep (h : s.Inv n) (hs : s.samplerStep = some s') : s'.Inv n := by
  unfold PassRace.samplerStep at hs
  have hpage := h.sampler
  split at hs
  case h_1 => cases hs
  case h_2 j hot page hp =>
    obtain ⟨u, hm, rfl⟩ := samplerDoes_eq_some hs
    rw [hp] at hpage
    cases hm
    exact h.beside (keeping_page rfl) hpage
  case h_3 j hot page hp =>
    obtain ⟨u, hm, rfl⟩ := samplerDoes_eq_some hs
    rw [hp] at hpage
    cases hm
    obtain ⟨hring, hknown⟩ := h.requests hot
    obtain ⟨hw, he⟩ := hring.put (x := page)
    have hrest : ∀ hot', ((s.state.setRequestRing hot
          (ringBufPut (s.state.requestRing hot) page)).requestRing hot').Wf ∧
        ∀ p ∈ ((s.state.setRequestRing hot
          (ringBufPut (s.state.requestRing hot) page)).requestRing hot').entries, p < n :=
      fun hot' => by
        rcases eq_or_ne hot' hot with rfl | hne
        · rw [requestRing_setRequestRing, if_pos rfl, he]
          refine ⟨hw, fun p hp => ?_⟩
          rcases List.mem_append.1 hp with hp | hp
          · split at hp
            · exact hknown p (List.mem_of_mem_tail hp)
            · exact hknown p hp
          · exact List.mem_singleton.1 hp ▸ hpage page rfl
        · rw [requestRing_setRequestRing, if_neg hne]
          exact h.requests hot'
    refine ⟨?_, ?_, ?_, ?_, hrest, hpage, h.request⟩
    · cases hot <;> exact h.wf
    · cases hot <;> exact h.ring
    · cases hot <;> exact h.keepers
    · cases hot <;> exact h.late
  case h_4 j page hp =>
    obtain ⟨u, hm, rfl⟩ := samplerDoes_eq_some hs
    exact h.beside ((frames_shiftSample s.state).ok hm) nofun

variable {t : T} {thread : T → AllocPhase}

/-- A thread in `pebs_pagefault` takes a step. -/
theorem Inv.threads (h : s.Inv n) (hw : u.fifo.Wf) (hr : u.rings = s.state.rings)
    (hk : Keepers n u.fifo.listOf u.tags s.state.freePageRing.entries s.policy thread) :
    ({ s with state := u, allocator := thread } : PassRace T).Inv n :=
  h.goes hw hr hk id h.sampler h.request

variable [DecidableEq T]

/-- A thread with no page looks for one on the free list of a tier. -/
theorem Inv.threadDequeue {d : Bool} {k : Option PageId → Option AllocPhase}
    {r : MigrateRace T} (h : s.Inv n) (ht : (s.allocator t).page = none)
    (hnone : ∀ a, k none = some a → a.page = none)
    (hsome : ∀ p, k (some p) = some (.put d p))
    (hr : MigrateRace.allocatorDoes ⟨s.state, .out, s.allocator⟩ t
      (onFifo (dequeueFifo (freeList d))) k = some r) :
    ({ s with state := r.state, allocator := r.allocator } : PassRace T).Inv n := by
  obtain ⟨a, u, b, hm, hk, rfl⟩ := MigrateRace.allocatorDoes_eq_some hr
  rcases onFifo_dequeue h.wf (freeList d) with he | ⟨x, f, he, hw, hx, hl, -⟩
  · rw [he] at hm
    cases hm
    refine h.threads h.wf rfl (h.keepers.threadNext ((hnone b hk).trans ht.symm) fun d' p hp => ?_)
    have hno := hnone b hk
    rw [hp] at hno
    cases hno
  · rw [he] at hm
    cases hm
    rw [hsome] at hk
    cases hk
    refine h.threads (u := { s.state with fifo := f }) hw rfl ?_
    dsimp only
    rw [hl]
    have htake := h.keepers.threadTake hx (kind_freeList d) ht
    rwa [dram_freeList] at htake

theorem Inv.allocatorStep (h : s.Inv n) (hs : s.allocatorStep t = some s') : s'.Inv n := by
  obtain ⟨r, hr, rfl⟩ := Option.map_eq_some_iff.1 hs
  unfold MigrateRace.allocatorStep at hr
  cases ha : s.allocator t with
  | idle =>
    simp only [ha, Option.some.injEq] at hr
    subst hr
    exact h.threads h.wf rfl (h.keepers.threadNext (by rw [ha]; rfl) nofun)
  | takeDram =>
    simp only [ha] at hr
    refine h.threadDequeue (d := true) (by rw [ha]; rfl) (fun a hk => ?_) (fun _ => rfl) hr
    cases hk
    rfl
  | takeNvm =>
    simp only [ha] at hr
    refine h.threadDequeue (d := false) (by rw [ha]; rfl) (fun a hk => ?_) (fun _ => rfl) hr
    cases hk
  | put dram p =>
    simp only [ha] at hr
    obtain ⟨a, u, b, hm, hk, rfl⟩ := MigrateRace.allocatorDoes_eq_some hr
    have hoff : s.state.fifo.listOf p = none :=
      h.keepers.held.off (some t) p (by simp [handsOf, ha, AllocPhase.page])
    have hu := (handOut_relisted h.wf hoff).ok hm
    cases hk
    refine h.threads hu.wf hu.rings ?_
    rw [hu.listOf, hu.tags]
    exact h.keepers.threadPut ha rfl

omit [DecidableEq T] in
theorem Inv.remove (h : s.Inv n) (hp : (s.state.page p).present = true)
    (hs : ((pebsRemovePage p s.state).toOption.map fun r =>
      { s with state := r.2, removed := update s.removed p true }) = some s') : s'.Inv n := by
  obtain ⟨⟨a, u⟩, hm, rfl⟩ := Option.map_eq_some_iff.1 hs
  have hsat : Sat (pebsRemovePage p) (fun _ u => ringBufFull s.state.freePageRing = false ∧
      u.fifo = s.state.fifo ∧ u.freePageRing = ringBufPut s.state.freePageRing p ∧
      u.requestRing = s.state.requestRing ∧
      u.tags = update s.state.tags p { s.state.tags p with present := false })
      (fun _ => True) s.state := by
    unfold pebsRemovePage
    rw [sat_bind, sat_get, sat_ite]
    refine ⟨fun _ => trivial, fun hfull => ?_⟩
    rw [sat_bind, sat_modify]
    exact ⟨by simpa using hfull, rfl, rfl, rfl, tags_update⟩
  obtain ⟨hfull, hf, hring, hreq, htags⟩ := hsat.ok (toOption_eq_some.1 hm)
  obtain ⟨hw, he⟩ := h.ring.put_of_not_full (x := p) hfull
  have hk := h.keepers.remove hp
  refine ⟨hf ▸ h.wf, hring ▸ hw, ?_, fun hd x => ?_, ?_, h.sampler, h.request⟩ <;> dsimp only
  · rw [hf, hring, he, htags]
    exact hk
  · rw [hring, he, List.mem_append, List.mem_singleton, h.late hd x, update_apply]
    by_cases hx : x = p <;> simp [hx]
  · rw [hreq]
    exact h.requests

theorem Inv.step (h : s.Inv cfg.pages) {a : PassAct T} (hl : a.Legal cfg s)
    (hs : a.next cfg s = some s') : s'.Inv cfg.pages := by
  cases a with
  | policy => exact h.policyStep hs
  | allocator t => exact h.allocatorStep hs
  | sample j page =>
    simp only [PassAct.next] at hs
    split at hs
    · cases hs
      refine h.beside (keeping_page ?_) fun p hp => ?_
      · dsimp only
        split <;> rfl
      · have hpage : p = page := by
          split_ifs at hp
          · cases hp
          · split at hp <;> exact (Option.some.inj hp).symm
        rw [hpage]
        exact hl
    · cases hs
  | sampler => exact h.samplerStep hs
  | remove page => exact h.remove hl hs
  | setVa page va =>
    cases hs
    exact h.beside (keeping_page rfl) h.sampler

end Others

section Results

/-- Who has a page not in use is its keeper, with the free lists apart. -/
theorem Inv.has (h : s.Inv n) {v : Vacancy T} (hv : v.Has s p) :
    (∃ dram, v = .free dram) ∧ useOf s.state.fifo.listOf s.state.tags p = some .free ∨
      p ∈ vacantsOf s.state.freePageRing.entries s.policy s.allocator v ∧
        useOf s.state.fifo.listOf s.state.tags p = none := by
  have hk := h.keepers
  cases v with
  | free dram =>
    have hlist : s.state.fifo.listOf p = some (freeList dram) := hv
    have hpres := (hk.fits p _ hlist).free (kind_freeList dram)
    exact .inl ⟨⟨dram, rfl⟩, by simp [useOf, hpres, hlist]⟩
  | ring => exact .inr ⟨hv, hk.use.off .ring p hv⟩
  | policy => exact .inr ⟨hv, hk.use.off .policy p hv⟩
  | thread t =>
    have hp : p ∈ (s.allocator t).page.toList := Option.mem_toList.2 hv
    exact .inr ⟨hp, hk.use.off (.thread t) p hp⟩

theorem Inv.alone (h : s.Inv n) {v w : Vacancy T} (hv : v.Has s p) (hw : w.Has s p) : v = w := by
  rcases h.has hv with ⟨⟨d, rfl⟩, hu⟩ | ⟨hvp, hu⟩ <;>
    rcases h.has hw with ⟨⟨e, rfl⟩, hu'⟩ | ⟨hwp, hu'⟩
  · have hd : s.state.fifo.listOf p = some (freeList d) := hv
    have he : s.state.fifo.listOf p = some (freeList e) := hw
    rw [hd] at he
    have hde := congrArg ListId.dram (Option.some.inj he)
    rw [dram_freeList, dram_freeList] at hde
    rw [hde]
  · rw [hu] at hu'
    cases hu'
  · rw [hu] at hu'
    cases hu'
  · exact h.keepers.use.alone v w p hvp hwp

theorem Inv.sorted (h : s.Inv n) : s.Sorted n where
  tier p q hp := (h.keepers.fits p q hp).tier
  used p hp v hv := by
    have hlive : useOf s.state.fifo.listOf s.state.tags p = some .live := if_pos hp
    rcases h.has hv with ⟨-, hu⟩ | ⟨-, hu⟩ <;> rw [hlive] at hu <;> cases hu
  vacant p hn hp := by
    have hpres : (s.state.tags p).present = false := hp
    rcases hu : useOf s.state.fifo.listOf s.state.tags p with _ | k
    · obtain ⟨v, hv⟩ := h.keepers.use.kept p hn hu
      refine ⟨v, ?_⟩
      cases v with
      | free dram => cases hv
      | ring => exact hv
      | policy => exact hv
      | thread t => exact Option.mem_toList.1 hv
    · by_cases hq : ∃ q, s.state.fifo.listOf p = some q ∧ q.kind = .free
      · obtain ⟨q, hq, hk⟩ := hq
        refine ⟨.free q.dram, hq.trans (congrArg some ?_)⟩
        cases q <;> first | rfl | cases hk
      · rw [useOf_eq_none.2 ⟨hpres, fun q hq' hk => hq ⟨q, hq', hk⟩⟩] at hu
        cases hu
  alone _ _ _ := h.alone
  once := h.keepers.use.nodup .ring
  handed := h.keepers.handed
  cooled dram turns p hp := by
    have hlist := h.keepers.cooling p (hotList dram) (by rw [hp]; rfl)
    exact (h.keepers.fits p _ hlist).tier.trans (dram_hotList dram)

theorem Starts.inv (h : s.Starts n) : s.Inv n := by
  have hhands : ∀ w, handsOf s.policy s.allocator w = [] := fun w => by
    cases w with
    | none => rw [h.policy]; rfl
    | some t => rw [handsOf, h.allocator]; rfl
  have hvacants : ∀ w, vacantsOf s.state.freePageRing.entries s.policy s.allocator w = [] :=
    fun w => by
      cases w with
      | free dram => rfl
      | ring => exact h.rings.1
      | policy => rw [h.policy]; rfl
      | thread t => rw [vacantsOf, h.allocator]; rfl
  refine ⟨h.good.1, h.good.2.1, ⟨⟨?_, ?_, ?_, ?_⟩, ⟨?_, ?_, ?_, fun x hx hp => ?_⟩,
    fun x q hx => ⟨h.tier x q hx, h.free x q hx⟩, h.plain, ?_, ?_, ?_⟩, ?_, fun hot => ?_, ?_, ?_⟩
  · simp [hhands]
  · simp [hhands]
  · simp [hhands]
  · exact fun _ hx => hx.elim
  · simp [hvacants]
  · simp [hvacants]
  · simp [hvacants]
  · obtain ⟨hpres, hno⟩ := useOf_eq_none.1 hp
    obtain ⟨dram, hlist⟩ := h.used x hx hpres
    exact (hno _ hlist (kind_freeList dram)).elim
  · rw [h.policy]
    trivial
  · rw [h.policy]
    nofun
  · simp [h.allocator]
  · rw [h.policy]
    nofun
  · rw [h.rings.2 hot]
    exact ⟨h.good.2.2 hot, nofun⟩
  · rw [h.sampler]
    nofun
  · rw [h.policy]
    nofun

variable [DecidableEq T]

theorem reach_inv (h : (passRace T cfg).Reach (fun s a => a.Legal cfg s) s) : s.Inv cfg.pages :=
  h.invariant (fun _ => Starts.inv) fun _ _ _ hi hl hs => hi.step hl hs

/-- Whole passes, page faults and removals, in any order, keep each page in its tier and, present or
not, with one keeper. -/
theorem pass_sorted (h : (passRace T cfg).Reach (fun s a => a.Legal cfg s) s) :
    s.Sorted cfg.pages :=
  (reach_inv h).sorted

/-- The assertion on a stale request holds exactly where the page is still not present, has not been
removed since the free-page ring was last found empty and is not about to be handed out. -/
theorem stale_request {hot : Bool} {reqs : ℕ}
    (h : (passRace T cfg).Reach (fun s a => a.Legal cfg s) s)
    (hp : s.policy = .checkFree hot reqs p) :
    s.state.fifo.listOf p = some (freeList (s.state.page p).inDram) ↔
      (s.state.page p).present = false ∧ s.removed p = false ∧
        ∀ t, (s.allocator t).page ≠ some p := by
  have hi := reach_inv h
  have hsorted := hi.sorted
  have hlate := hi.late (by rw [hp]; rfl) p
  constructor
  · intro hlist
    have hfree : Vacancy.Has s p (.free (s.state.page p).inDram : Vacancy T) := hlist
    refine ⟨?_, ?_, fun t ht => ?_⟩
    · by_contra hpres
      exact hsorted.used p (by simpa using hpres) _ hfree
    · by_contra hrem
      have hring : Vacancy.Has s p (.ring : Vacancy T) := hlate.2 (by simpa using hrem)
      cases hi.alone hfree hring
    · cases hi.alone hfree (w := .thread t) ht
  · rintro ⟨hpres, hrem, hno⟩
    have hknown : p < cfg.pages := hi.request p (by rw [hp]; rfl)
    obtain ⟨v, hv⟩ := hsorted.vacant p hknown hpres
    cases v with
    | free dram =>
      have hlist : s.state.fifo.listOf p = some (freeList dram) := hv
      rw [hlist, hsorted.tier p _ hlist, dram_freeList]
    | ring =>
      rw [hlate.1 hv] at hrem
      cases hrem
    | policy =>
      have hmem : p ∈ s.policy.vacant := hv
      rw [hp] at hmem
      cases hmem
    | thread t => exact (hno t hv).elim

end Results

variable (T) in
/-- No thread has begun. -/
def start (u : State) : PassRace T := ⟨u, .drain .head, .idle, fun _ => .idle, fun _ => false⟩

/-- `pebs_init` leaves such a start. -/
theorem pebsInit_starts {kernel : Kernel} (h : pebsInit cfg (State.blank kernel) = .ok ((), u)) :
    (start T u).Starts cfg.pages := by
  obtain ⟨hg, hv⟩ := pebsInit_sat.ok h
  have hpage : u.page = (View.initial cfg kernel).page := congrArg View.page hv
  have hlist : u.fifo.listOf = (View.initial cfg kernel).list := congrArg View.list hv
  refine ⟨⟨hg.fifo, hg.free, hg.requests⟩, ⟨congrArg View.free hv,
    fun hot => congrFun (congrArg View.requests hv) hot⟩, fun p q hq => ?_, fun p q _ _ => ?_,
    fun p hp _ => ?_, fun p => ?_, rfl, rfl, fun _ => rfl⟩
  · change u.fifo.listOf p = some q at hq
    change (u.page p).inDram = q.dram
    rw [hlist] at hq
    rw [hpage]
    simp only [View.initial, initPage] at hq ⊢
    split_ifs at hq ⊢ <;> cases hq <;> rfl
  · change (u.page p).present = false
    rw [hpage]
    simp only [View.initial, initPage]
    split_ifs <;> rfl
  · change ∃ dram, u.fifo.listOf p = some (freeList dram)
    rw [hlist]
    simp only [View.initial]
    by_cases hd : (p : ℕ) < cfg.count true
    · exact ⟨true, if_pos hd⟩
    · exact ⟨false, by rw [if_neg hd, if_pos hp]; rfl⟩
  · change (u.page p).enforced = false
    rw [hpage]
    simp only [View.initial, initPage]
    split_ifs <;> rfl

variable [DecidableEq T]

variable (cfg) (kernel : Kernel) in
theorem passRace_reach (acts : List (PassAct T)) (P : PassRace T → Bool)
    (h : (((pebsInit cfg (State.blank kernel)).toOption.map fun r => start T r.2).bind
      (System.drive (fun s a => a.next cfg s) (fun s a => a.Legal cfg s) acts)).any P = true) :
    ∃ s, (passRace T cfg).Reach (fun s a => a.Legal cfg s) s ∧ P s = true :=
  System.drive_reach_of (S := passRace T cfg) (fun s a => a.next cfg s)
    (fun s a => a.Legal cfg s) (fun _ _ _ => id) (fun _ _ => id) (fun s hs => by
      obtain ⟨⟨⟨⟩, u⟩, hu, rfl⟩ := Option.map_eq_some_iff.1 hs
      exact pebsInit_starts (toOption_eq_some.1 hu)) acts P h

end PassRace

/-- A thread allocates page 0, and enough samples are counted for a hot request. -/
def requestedPage (t : T) : List (PassAct T) :=
  List.replicate 3 (.allocator t) ++ [.setVa 0 hugepageSize] ++
    (List.replicate 7 [.sample .dramread 0, .sampler]).flatten ++
      [.sample .dramread 0, .sampler, .sampler, .sampler]

/-- Page 0 is removed when the drain is over, and its request is stale before the page is free. -/
theorem PassRace.stale_request_removed : ∃ s : PassRace (Fin 2), s.policy = .checkFree true 0 0 ∧
    s.state.fifo.listOf 0 ≠ some (freeList (s.state.page 0).inDram) ∧
    s.policyStep fourFrames = none := by
  obtain ⟨s, hs, hP⟩ := passRace_reach (T := Fin 2) fourFrames Kernel.fresh
    (requestedPage 0 ++ [.policy, .remove 0, .policy, .policy])
    (fun s => s.policy = .checkFree true 0 0 ∧ s.removed 0 = true ∧
      (s.policyStep fourFrames).isNone)
    (by decide +kernel)
  obtain ⟨hp, hrem, hstep⟩ := of_decide_eq_true hP
  refine ⟨s, hp, fun hlist => ?_, Option.isNone_iff_eq_none.1 hstep⟩
  have hno := ((stale_request hs hp).1 hlist).2.1
  rw [hrem] at hno
  cases hno

/-- Page 0 is removed before the drain, and another thread is about to hand it out again when the
cooling of the pass comes to its end. -/
theorem PassRace.pass_sorted_reused : ∃ s : PassRace (Fin 2), s.policy = .drain .head ∧
    s.allocator 1 = .put true 0 ∧ (s.state.page 0).present = false ∧ s.Sorted fourFrames.pages := by
  obtain ⟨s, hs, hP⟩ := passRace_reach (T := Fin 2) fourFrames Kernel.fresh
    (requestedPage 0 ++ List.replicate 3 (.allocator 1) ++ [.remove 0] ++
      List.replicate 12 .policy ++ List.replicate 2 (.allocator 1))
    (fun s => s.policy = .drain .head ∧ s.allocator 1 = .put true 0 ∧
      (s.state.page 0).present = false)
    (by decide +kernel)
  obtain ⟨hp, ht, hpres⟩ := of_decide_eq_true hP
  exact ⟨s, hp, ht, hpres, pass_sorted hs⟩

end HeMem

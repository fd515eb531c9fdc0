import HeMem.Proofs.MigrateRace
import HeMem.RemoveRace

/-!
# When removal and reuse of a page stay apart

A page that is removed leaves those handed out for the free-page ring, then for the policy thread's
hands, then for a free list, where it is spare.  It is spare in time if its removal has written both
flags before the policy thread puts it on the free list.
-/

namespace HeMem

open Hoare Function

variable {T : Type} {cfg : Config} {s u : State} {p : PageId}

section Programs

/-- What removals and page faults look at. -/
def State.standing (s : State) : Heap ListId PageId × RingBuf PageId × (PageId → Bool × Bool) :=
  (s.fifo, s.freePageRing, fun p => ((s.page p).present, (s.page p).hot))

theorem standing_page {P : HememPage}
    (hP : P.present = (s.page p).present ∧ P.hot = (s.page p).hot) :
    State.standing { s with page := update s.page p P } = s.standing := by
  refine congrArg₂ Prod.mk rfl (congrArg₂ Prod.mk rfl (funext fun x => ?_))
  rcases eq_or_ne x p with rfl | hx
  · simp [hP]
  · simp [update_of_ne hx]

theorem frames_standing_pebsMigrate {up : Bool} {offset : UInt64} :
    Frames State.standing (pebsMigrate cfg up p offset) := by
  have hmigrate : Frames State.standing (hememMigrate cfg up p offset) := by
    unfold hememMigrate
    refine frames_get.bind fun _ => Frames.bind (fun _ => rfl) fun _ => ?_
    refine frames_check.bind fun _ => frames_check.bind fun _ => frames_check.bind fun _ => ?_
    refine Frames.bind (fun _ => rfl) fun _ => Frames.bind (fun _ => rfl) fun _ => ?_
    exact frames_check.bind fun _ _ => standing_page ⟨rfl, rfl⟩
  have hdir : (if up then hememMigrateUp cfg else hememMigrateDown cfg) = hememMigrate cfg up := by
    cases up <;> rfl
  have hwp : Frames State.standing (hememWpPage p true) :=
    frames_get.bind fun _ => frames_check.bind fun _ => frames_check.bind fun _ _ => rfl
  have hmove : Frames State.standing (do
      modifyPage p ({ · with migrating := true })
      hememWpPage p true
      hememMigrate cfg up p offset
      modifyPage p ({ · with migrating := false })) :=
    Frames.bind (fun _ => standing_page ⟨rfl, rfl⟩) fun _ => hwp.bind fun _ => hmigrate.bind
      fun _ _ => standing_page ⟨rfl, rfl⟩
  unfold pebsMigrate
  rw [hdir]
  cases up with
  | true => exact hmove
  | false => exact frames_get.bind fun _ => frames_ite frames_pure hmove

theorem frames_nextPage {q : ListId} {c : Option PageId} :
    Frames (fun h => h) (nextPage q c : FifoM ListId PageId (Option PageId)) := by
  unfold nextPage
  cases c with
  | none => exact frames_get.bind fun _ => frames_pure
  | some p => exact frames_get.bind fun _ => frames_get.bind fun _ => frames_check.bind fun _ =>
      frames_pure

/-- Of each page whether it is present and whether it is hot. -/
def State.flags (s : State) : PageId → Bool × Bool := fun p => ((s.page p).present, (s.page p).hot)

theorem flags_update {P : HememPage} : State.flags { s with page := update s.page p P } =
    update s.flags p (P.present, P.hot) := by
  funext x
  rcases eq_or_ne x p with rfl | hx
  · simp [State.flags]
  · simp [State.flags, update_of_ne hx]

/-- The list operation at the end of a step puts `p` on `q`; the flags are `F` after it. -/
structure PutOn (s : State) (p : PageId) (q : ListId) (F : PageId → Bool × Bool) (u : State) :
    Prop where
  wf : u.fifo.Wf
  listOf : u.fifo.listOf = update s.fifo.listOf p (some q)
  ring : u.freePageRing = s.freePageRing
  flags : u.flags = F

theorem onFifo_putOn (hw : s.fifo.Wf) (hp : s.fifo.listOf p = none) (q : ListId) :
    Sat (onFifo (enqueueFifo q p)) (fun _ u => PutOn s p q s.flags u) (fun _ => True) s := by
  obtain ⟨h, he, hw', hl⟩ := onFifo_enqueue hw hp q
  exact (sat_of_ok he).2 ⟨hw', hl, rfl, rfl⟩

theorem allocate_putOn {dram : Bool} (hw : s.fifo.Wf) (hp : s.fifo.listOf p = none) :
    Sat (allocate dram p) (fun _ u => (s.page p).present = false ∧
      PutOn s p (coldList dram) (update s.flags p (true, (s.page p).hot)) u) (fun _ => True) s := by
  unfold allocate
  refine sat_getPage.2 ?_
  rw [sat_bind, sat_check]
  refine ⟨fun _ => sat_getPage.2 ?_, fun _ => trivial⟩
  rw [sat_bind, sat_check]
  refine ⟨fun hpr => sat_modifyPage.2 ?_, fun _ => trivial⟩
  refine (onFifo_putOn (by exact hw) (by exact hp) _).post fun _ w hw => ⟨hpr, hw.wf, hw.listOf,
    hw.ring, ?_⟩
  exact hw.flags.trans flags_update

/-- A page that is still present fails the assertion. -/
theorem allocate_of_present {dram : Bool} (hd : (s.page p).inDram = dram)
    (hp : (s.page p).present = true) : allocate dram p s = .error .allocPresent := by
  have hsat : Sat (allocate dram p) (fun _ _ => False) (· = .allocPresent) s := by
    unfold allocate
    refine sat_getPage.2 ?_
    rw [sat_bind, sat_check]
    refine ⟨fun _ => sat_getPage.2 ?_, fun h => (h hd).elim⟩
    rw [sat_bind, sat_check]
    exact ⟨fun h => absurd (hp.symm.trans h) nofun, fun _ => rfl⟩
  rcases hm : allocate dram p s with e | ⟨a, u⟩
  · exact congrArg _ (hsat.error hm)
  · exact (hsat.ok hm).elim

theorem hintedAllocate_putOn (hw : s.fifo.Wf) (hp : s.fifo.listOf p = none) :
    Sat (hintedAllocate p) (fun _ u => (s.page p).present = false ∧ ∃ q : ListId, q.kind ≠ .free ∧
      PutOn s p q (update s.flags p (true, (s.page p).hot)) u) (fun _ => True) s := by
  unfold hintedAllocate
  refine sat_getPage.2 ?_
  rw [sat_bind, sat_check]
  refine ⟨fun _ => sat_getPage.2 ?_, fun _ => trivial⟩
  rw [sat_bind, sat_check]
  refine ⟨fun hpr => ?_, fun _ => trivial⟩
  rw [sat_bind, sat_get]
  refine sat_modifyPage.2 ?_
  rw [sat_bind, sat_get]
  refine (onFifo_putOn (by exact hw) (by exact hp) _).bind fun _ w hw => ?_
  rw [sat_modify]
  refine ⟨hpr, _, ?_, hw.wf, hw.listOf, hw.ring, hw.flags.trans flags_update⟩
  dsimp only
  split <;> simp [ListId.kind]

theorem demotePage_putOn {c np : PageId} (hw : s.fifo.Wf) (hc : s.fifo.listOf c = none) :
    Sat (demotePage cfg c np) (fun _ u => PutOn s c .nvmCold (update s.flags np (false, false)) u)
      (fun _ => True) s := by
  unfold demotePage
  refine sat_getPage.2 (sat_getPage.2 ?_)
  refine (frames_standing_pebsMigrate s).bind fun _ u hu => sat_modifyPage.2 ?_
  have hf : u.fifo = s.fifo := congrArg (·.1) hu
  have hr : u.freePageRing = s.freePageRing := congrArg (·.2.1) hu
  have hflags : u.flags = s.flags := congrArg (·.2.2) hu
  refine (onFifo_putOn (by exact hf ▸ hw) (by exact hf ▸ hc) _).post fun _ w hw =>
    ⟨hw.wf, ?_, ?_, ?_⟩
  · rw [hw.listOf]
    exact congrArg (fun h : Heap ListId PageId => update h.listOf c _) hf
  · exact hw.ring.trans hr
  · rw [hw.flags, flags_update, hflags]
    rfl

theorem updateCurrentCoolPage_frames {γ : Type} {f : State → γ}
    (hc : ∀ s dram c, f (State.setCur s dram c) = f s) : Frames f (updateCurrentCoolPage p) := by
  have hnext : ∀ {q : ListId} {c : Option PageId}, Frames f (onFifo (nextPage q c)) := by
    intro q c s
    have hn := frames_nextPage (q := q) (c := c) s.fifo
    rcases hm : nextPage q c s.fifo with e | ⟨r, h⟩
    · refine (sat_of_error (e := .fifo e) ?_).2 trivial
      unfold onFifo
      rw [hm]
    · rw [sat_onFifo hm, show h = s.fifo from hn.ok hm]
  have hcursor : ∀ dram, Frames f (updateCursor dram p) := fun dram => by
    unfold updateCursor
    refine frames_get.bind fun _ => frames_ite ?_ frames_pure
    refine Frames.bind (frames_get.bind fun _ => frames_pure) fun _ => frames_check.bind fun _ => ?_
    exact hnext.bind fun _ => frames_modify fun s => hc s dram _
  exact (hcursor true).bind fun _ => hcursor false

/-- The policy thread takes a page that it has got from the ring off its list. -/
theorem unlistPage_off (hw : s.fifo.Wf) : Sat (unlistPage p) (fun _ u => ∃ q h, h.Wf ∧
    s.fifo.listOf p = some q ∧ h.listOf = update s.fifo.listOf p none ∧ u.fifo = h ∧
    u.freePageRing = s.freePageRing ∧ u.flags = s.flags) (fun _ => True) s := by
  unfold unlistPage
  rw [sat_bind]
  have hlist : getList p s = .ok (s.fifo.listOf p, s) := rfl
  refine (sat_of_ok hlist).2 ?_
  rcases hq : s.fifo.listOf p with _ | q
  · trivial
  have hcur : Frames State.standing (updateCurrentCoolPage p) :=
    updateCurrentCoolPage_frames fun s dram c => by cases dram <;> rfl
  refine (hcur s).bind fun _ u hu => ?_
  have hf : u.fifo = s.fifo := congrArg (·.1) hu
  obtain ⟨h, he, hw', hl⟩ := hw.remove hq
  rw [sat_onFifo (hf ▸ he)]
  exact ⟨q, h, hw', rfl, hl, rfl, congrArg (·.2.1) hu, congrArg (·.2.2) hu⟩

end Programs

section Stages

/-- Where a page stands between being handed out and being spare. -/
inductive Stage (T : Type)
  | spare
  /-- handed out -/
  | live
  /-- about to be put into the free-page ring by a thread -/
  | leaving (t : T)
  /-- in the ring or with the policy thread -/
  | removed
  /-- on no list from the start -/
  | lost

/-- Free lists have the spare pages that are on a list, and the threads know which of the pages in
their hands are spare. -/
structure Located (list : PageId → Option ListId) (hands : Option T → List PageId)
    (spares : T → List PageId) (spare : PageId → Prop) : Prop where
  custody : Custody list hands fun _ => False
  listed : ∀ p q, list p = some q → (q.kind = .free ↔ spare p)
  held : ∀ t p, p ∈ hands (some t) → (p ∈ spares t ↔ spare p)

namespace Located

variable {list : PageId → Option ListId} {hands hands' : Option T → List PageId}
  {spares spares' : T → List PageId} {spare spare' : PageId → Prop} {q : ListId} {w : Option T}

theorem congr (h : Located list hands spares spare) (hs : ∀ p, spare' p ↔ spare p) :
    Located list hands spares spare' where
  custody := h.custody
  listed p q hq := (h.listed p q hq).trans (hs p).symm
  held t p hp := (h.held t p hp).trans (hs p).symm

/-- A page is taken off its list. -/
theorem take (h : Located list hands spares spare) (hp : list p = some q)
    (hw : (hands' w).Perm (p :: hands w)) (ho : ∀ v, v ≠ w → hands' v = hands v)
    (hs : ∀ t x, x ∈ hands' (some t) → (x ∈ spares' t ↔ spare x)) :
    Located (update list p none) hands' spares' spare where
  custody := h.custody.take hp hw ho
  listed x q' hx := by
    rcases eq_or_ne x p with rfl | hxp
    · simp at hx
    · exact h.listed x q' (by simpa [hxp] using hx)
  held := hs

/-- It is lost where nobody keeps it. -/
theorem lose (h : Located list hands spares spare) :
    Located (update list p none) hands spares spare where
  custody := ⟨fun w x hx => by
    rcases eq_or_ne x p with rfl | hxp
    · exact update_self ..
    · rw [update_of_ne hxp]
      exact h.custody.off w x hx, h.custody.nodup, h.custody.alone, fun _ h => h.elim⟩
  listed x q' hx := by
    rcases eq_or_ne x p with rfl | hxp
    · simp at hx
    · exact h.listed x q' (by simpa [hxp] using hx)
  held := h.held

/-- A page is put on a list, and is spare from then on if that is a free list. -/
theorem give (h : Located list hands spares spare) (hw : (hands w).Perm (p :: hands' w))
    (ho : ∀ v, v ≠ w → hands' v = hands v) (hp : q.kind = .free ↔ spare' p)
    (hs : ∀ x, x ≠ p → (spare' x ↔ spare x))
    (hheld : ∀ t x, x ∈ hands' (some t) → (x ∈ spares' t ↔ x ∈ spares t)) :
    Located (update list p (some q)) hands' spares' spare' where
  custody := h.custody.give hw ho
  listed x q' hx := by
    rcases eq_or_ne x p with rfl | hxp
    · rw [update_self] at hx
      cases hx
      exact hp
    · rw [hs x hxp]
      exact h.listed x q' (by simpa [hxp] using hx)
  held t x hx := by
    have hc := h.custody.give (q := q) hw ho
    have hxp : x ≠ p := by
      rintro rfl
      have hoff := hc.off (some t) x hx
      simp at hoff
    have hx' : x ∈ hands (some t) := by
      rcases eq_or_ne (some t) w with rfl | hv
      · exact hw.mem_iff.2 (List.mem_cons_of_mem _ hx)
      · rwa [ho _ hv] at hx
    rw [hheld t x hx, hs x hxp]
    exact h.held t x hx'

end Located

/-- Who has been handed out, who is on the way to the ring, and who is there or further on. -/
structure Staged (stage : PageId → Stage T) (returned : PageId → Bool) (thread : T → ThreadPhase)
    (waiting : List PageId) : Prop where
  returned : ∀ p, returned p = true ↔ stage p = .live
  leaving : ∀ t p, thread t = .put p ↔ stage p = .leaving t
  removed : ∀ p, p ∈ waiting ↔ stage p = .removed
  nodup : waiting.Nodup
  writing : ∀ t p, thread t = .setPresent p → stage p = .removed

/-- What the flags of a page are at each stage. -/
structure Flagged (stage : PageId → Stage T) (flags : PageId → Bool × Bool)
    (thread : T → ThreadPhase) : Prop where
  spare : ∀ p, stage p = .spare → flags p = (false, false)
  live : ∀ p, stage p = .live → (flags p).1 = true
  leaving : ∀ t p, stage p = .leaving t → (flags p).1 = true
  present : ∀ p, stage p = .removed → (flags p).1 = false ∨ ∃ t, thread t = .setPresent p
  hot : ∀ p, stage p = .removed → (flags p).2 = false ∨ (∃ t, thread t = .setPresent p) ∨
    ∃ t, thread t = .setHot p

/-- Neither on its way to the ring nor writing flags. -/
def ThreadPhase.plain : ThreadPhase → Bool
  | put _ | setPresent _ | setHot _ => false
  | _ => true

variable [DecidableEq T] {stage : PageId → Stage T} {returned : PageId → Bool}
  {thread : T → ThreadPhase} {waiting : List PageId} {flags : PageId → Bool × Bool} {t : T}
  {r : ThreadPhase}

/-- A thread goes on from a plain phase to another. -/
theorem plain_iff (ht : (thread t).plain = true) (hr : r.plain = true) {k : ThreadPhase}
    (hk : k.plain = false) (t' : T) : update thread t r t' = k ↔ thread t' = k := by
  rcases eq_or_ne t' t with rfl | hne
  · rw [update_self]
    constructor
    · rintro rfl
      rw [hk] at hr
      cases hr
    · rintro rfl
      rw [hk] at ht
      cases ht
  · rw [update_of_ne hne]

/-- Another thread is still where it was. -/
theorem still {k : ThreadPhase} (hk : thread t ≠ k) (h : ∃ t', thread t' = k) :
    ∃ t', update thread t r t' = k := by
  obtain ⟨t', ht'⟩ := h
  refine ⟨t', ?_⟩
  rwa [update_of_ne]
  rintro rfl
  exact hk ht'

theorem Staged.goes (h : Staged stage returned thread waiting) (ht : (thread t).plain = true)
    (hr : r.plain = true) : Staged stage returned (update thread t r) waiting where
  returned := h.returned
  leaving t' p := (plain_iff ht hr rfl t').trans (h.leaving t' p)
  removed := h.removed
  nodup := h.nodup
  writing t' p ht' := h.writing t' p ((plain_iff ht hr rfl t').1 ht')

theorem Flagged.goes (h : Flagged stage flags thread) (ht : (thread t).plain = true) :
    Flagged stage flags (update thread t r) where
  spare := h.spare
  live := h.live
  leaving := h.leaving
  present p hp := (h.present p hp).imp_right
    (still (by rintro h; simp [h, ThreadPhase.plain] at ht))
  hot p hp := (h.hot p hp).imp_right <| Or.imp
    (still (by rintro h; simp [h, ThreadPhase.plain] at ht))
    (still (by rintro h; simp [h, ThreadPhase.plain] at ht))

/-- A page handed out is to be removed. -/
theorem Staged.remove (h : Staged stage returned thread waiting) (ht : thread t = .idle)
    (hp : returned p = true) : Staged (update stage p (.leaving t)) (update returned p false)
      (update thread t (.put p)) waiting := by
  obtain ⟨h1, h2, h3, h4, h5⟩ := h
  constructor <;> grind [update_apply]

theorem Flagged.remove (h : Flagged stage flags thread) (ht : thread t = .idle)
    (hp : stage p = .live) :
    Flagged (update stage p (.leaving t)) flags (update thread t (.put p)) := by
  obtain ⟨h1, h2, h3, h4, h5⟩ := h
  refine ⟨?_, ?_, ?_, fun x hx => ?_, fun x hx => ?_⟩
  · grind [update_apply]
  · grind [update_apply]
  · grind [update_apply]
  · have hxp : stage x = .removed := by grind [update_apply]
    exact (h4 x hxp).imp_right (still (by simp [ht]))
  · have hxp : stage x = .removed := by grind [update_apply]
    exact (h5 x hxp).imp_right (Or.imp (still (by simp [ht])) (still (by simp [ht])))

/-- It is put into the ring. -/
theorem Staged.put (h : Staged stage returned thread waiting) (ht : thread t = .put p) :
    Staged (update stage p .removed) returned (update thread t (.setPresent p))
      (waiting ++ [p]) := by
  obtain ⟨h1, h2, h3, h4, h5⟩ := h
  constructor <;> grind [update_apply]

theorem Flagged.put (h : Flagged stage flags thread) (ht : thread t = .put p) :
    Flagged (update stage p .removed) flags (update thread t (.setPresent p)) := by
  obtain ⟨h1, h2, h3, h4, h5⟩ := h
  refine ⟨?_, ?_, ?_, fun x hx => ?_, fun x hx => ?_⟩
  · grind [update_apply]
  · grind [update_apply]
  · grind [update_apply]
  · rcases eq_or_ne x p with rfl | hxp
    · exact .inr ⟨t, update_self ..⟩
    · exact (h4 x (by simpa [hxp] using hx)).imp_right (still (by simp [ht]))
  · rcases eq_or_ne x p with rfl | hxp
    · exact .inr (.inl ⟨t, update_self ..⟩)
    · exact (h5 x (by simpa [hxp] using hx)).imp_right
        (Or.imp (still (by simp [ht])) (still (by simp [ht])))

/-- The removal writes `present`. -/
theorem Staged.setPresent (h : Staged stage returned thread waiting)
    (ht : thread t = .setPresent p) :
    Staged stage returned (update thread t (.setHot p)) waiting := by
  obtain ⟨h1, h2, h3, h4, h5⟩ := h
  constructor <;> grind [update_apply]

theorem Flagged.setPresent (h : Flagged stage flags thread) (ht : thread t = .setPresent p)
    (hp : stage p = .removed) :
    Flagged stage (update flags p (false, (flags p).2)) (update thread t (.setHot p)) := by
  obtain ⟨h1, h2, h3, h4, h5⟩ := h
  refine ⟨?_, ?_, ?_, fun x hx => ?_, fun x hx => ?_⟩
  · grind [update_apply]
  · grind [update_apply]
  · grind [update_apply]
  · rcases eq_or_ne x p with rfl | hxp
    · exact .inl (by simp)
    · rw [update_of_ne hxp]
      exact (h4 x hx).imp_right (still (by simp [ht, hxp.symm]))
  · rcases eq_or_ne x p with rfl | hxp
    · exact .inr (.inr ⟨t, update_self ..⟩)
    · rw [update_of_ne hxp]
      exact (h5 x hx).imp_right (Or.imp (still (by simp [ht, hxp.symm])) (still (by simp [ht])))

/-- The removal writes `hot`. -/
theorem Staged.setHot (h : Staged stage returned thread waiting) (ht : thread t = .setHot p)
    (hr : r.plain = true) : Staged stage returned (update thread t r) waiting := by
  obtain ⟨h1, h2, h3, h4, h5⟩ := h
  constructor <;> grind [update_apply, ThreadPhase.plain]

theorem Flagged.setHot (h : Flagged stage flags thread) (ht : thread t = .setHot p) :
    Flagged stage (update flags p ((flags p).1, false)) (update thread t r) := by
  obtain ⟨h1, h2, h3, h4, h5⟩ := h
  refine ⟨?_, ?_, ?_, fun x hx => ?_, fun x hx => ?_⟩
  · grind [update_apply]
  · grind [update_apply]
  · grind [update_apply]
  · have hx1 : (update flags p ((flags p).1, false) x).1 = (flags x).1 := by grind [update_apply]
    rw [hx1]
    exact (h4 x hx).imp_right (still (by simp [ht]))
  · rcases eq_or_ne x p with rfl | hxp
    · exact .inl (by simp)
    · rw [update_of_ne hxp]
      exact (h5 x hx).imp_right (Or.imp (still (by simp [ht])) (still (by simp [ht, hxp.symm])))

/-- A spare page is handed out. -/
theorem Staged.hand (h : Staged stage returned thread waiting) (ht : (thread t).plain = true)
    (hp : stage p = .spare) : Staged (update stage p .live) (update returned p true)
      (update thread t .idle) waiting := by
  obtain ⟨h1, h2, h3, h4, h5⟩ := h
  constructor <;> grind [update_apply, ThreadPhase.plain]

theorem Flagged.hand (h : Flagged stage flags thread) (ht : (thread t).plain = true)
    (hp : stage p = .spare) :
    Flagged (update stage p .live) (update flags p (true, (flags p).2))
      (update thread t .idle) := by
  have hidle : Flagged stage flags (update thread t .idle) := h.goes ht
  obtain ⟨h1, h2, h3, h4, h5⟩ := hidle
  constructor <;> grind [update_apply]

omit [DecidableEq T] in
/-- The policy thread frees a page whose removal has written both flags. -/
theorem Staged.free (h : Staged stage returned thread (p :: waiting))
    (ht : ∀ t, thread t ≠ .setPresent p) :
    Staged (update stage p .spare) returned thread waiting := by
  obtain ⟨h1, h2, h3, h4, h5⟩ := h
  constructor <;> grind [update_apply]

omit [DecidableEq T] in
theorem Flagged.free (h : Flagged stage flags thread) (hp : stage p = .removed)
    (ht : ∀ t, thread t ≠ .setPresent p ∧ (thread t = .setHot p → (flags p).2 = false)) :
    Flagged (update stage p .spare) flags thread := by
  obtain ⟨h1, h2, h3, h4, h5⟩ := h
  constructor <;> grind [update_apply]

end Stages

/-- What a thread has in its hands. -/
def ThreadPhase.hands (r : ThreadPhase) : List PageId := r.spares ++ r.cold.toList

/-- The page that the policy thread has got from the ring. -/
def DrainPhase.page : DrainPhase → Option PageId
  | head => none
  | unlist p | free p => some p

/-- That page once it is off its list. -/
def DrainPhase.hands : DrainPhase → List PageId
  | free p => [p]
  | _ => []

namespace RemoveRace

variable [DecidableEq T] {s s' : RemoveRace T} {stage : PageId → Stage T} {t : T} {r : ThreadPhase}
  {u : State} {q : ListId} {F : PageId → Bool × Bool}

def hands (s : RemoveRace T) : Option T → List PageId
  | none => s.policy.hands
  | some t => (s.thread t).hands

def waiting (s : RemoveRace T) : List PageId :=
  s.policy.page.toList ++ s.state.freePageRing.entries

structure Inv (stage : PageId → Stage T) (s : RemoveRace T) : Prop where
  wf : s.state.fifo.Wf
  ring : s.state.freePageRing.Wf
  placed : Located s.state.fifo.listOf s.hands (fun t => (s.thread t).spares) (stage · = .spare)
  staged : Staged stage s.returned s.thread s.waiting
  flagged : Flagged stage s.state.flags s.thread

omit [DecidableEq T] in
theorem Starts.inv (h : s.Starts) : ∃ stage, Inv stage s := by
  have hands : ∀ w, s.hands w = [] := fun w => by
    cases w with
    | none => simp [RemoveRace.hands, h.policy, DrainPhase.hands]
    | some t => simp [RemoveRace.hands, h.thread, ThreadPhase.hands, ThreadPhase.spares,
        ThreadPhase.cold]
  have hwait : s.waiting = [] := by simp [RemoveRace.waiting, h.policy, DrainPhase.page, h.ring]
  refine ⟨fun p => if s.returned p then .live else if s.state.fifo.listOf p = none then .lost
    else .spare, h.good.1, h.good.2, ⟨⟨by simp [hands], by simp [hands], by simp [hands],
      fun _ h => h.elim⟩, fun p q hq => ?_, by simp [hands]⟩, ⟨fun p => ?_, fun t p => ?_,
      fun p => ?_, by simp [hwait], by simp [h.thread]⟩, ⟨fun p hp => ?_, fun p hp => ?_, fun t p hp => ?_,
      fun p hp => ?_, fun p hp => ?_⟩⟩
  · have hr := h.returned p
    simp only [hq, Option.some.injEq, exists_eq_left'] at hr
    by_cases hk : q.kind = .free <;> simp_all
  · by_cases hr : s.returned p = true <;> by_cases hl : s.state.fifo.listOf p = none <;>
      simp [hr, hl]
  · by_cases hr : s.returned p = true <;> by_cases hl : s.state.fifo.listOf p = none <;>
      simp [hr, hl, h.thread]
  · by_cases hr : s.returned p = true <;> by_cases hl : s.state.fifo.listOf p = none <;>
      simp [hr, hl, hwait]
  · split_ifs at hp with hr hl
    obtain ⟨q, hq⟩ := Option.ne_none_iff_exists'.1 hl
    have hk : q.kind = .free := by
      by_contra hk
      exact hr ((h.returned p).2 ⟨q, hq, hk⟩)
    obtain ⟨dram, rfl⟩ : ∃ dram, q = freeList dram := by
      cases q <;> simp [ListId.kind] at hk
      · exact ⟨true, rfl⟩
      · exact ⟨false, rfl⟩
    exact Prod.ext (h.free p dram hq).1 (h.free p dram hq).2
  · split_ifs at hp with hr
    exact h.present p hr
  all_goals split_ifs at hp

section Assembly

variable {stage' : PageId → Stage T} {R : PageId → Bool} {f : Heap ListId PageId} {x : PageId}

theorem hands_ne {v : Option T} (hv : v ≠ some t) :
    RemoveRace.hands ⟨u, s.policy, update s.thread t r, R⟩ v = s.hands v := by
  cases v with
  | none => rfl
  | some t' => exact congrArg ThreadPhase.hands (update_of_ne (fun h => hv (congrArg some h)) ..)

theorem hands_self :
    RemoveRace.hands ⟨u, s.policy, update s.thread t r, R⟩ (some t) = r.hands :=
  congrArg ThreadPhase.hands (update_self ..)

/-- Spares do not change but for the thread that goes on. -/
theorem spares_iff {v : T} {y : PageId} (h : v = t → (y ∈ r.spares ↔ y ∈ (s.thread t).spares)) :
    y ∈ (update s.thread t r v).spares ↔ y ∈ (s.thread v).spares := by
  rcases eq_or_ne v t with rfl | hv
  · rw [update_self]
    exact h rfl
  · rw [update_of_ne hv]

/-- No list operation. -/
theorem Inv.stay (h : Inv stage s) (hf : u.fifo = s.state.fifo) (hring : u.freePageRing.Wf)
    (hspare : ∀ p, stage' p = .spare ↔ stage p = .spare) (hh : r.hands = (s.thread t).hands)
    (hs : r.spares = (s.thread t).spares)
    (hst : Staged stage' R (update s.thread t r) (s.policy.page.toList ++ u.freePageRing.entries))
    (hfl : Flagged stage' u.flags (update s.thread t r)) :
    Inv stage' ⟨u, s.policy, update s.thread t r, R⟩ := by
  have hhands : RemoveRace.hands ⟨u, s.policy, update s.thread t r, R⟩ = s.hands :=
    funext fun w => by
      by_cases hw : w = some t
      · subst hw
        exact hands_self.trans hh
      · exact hands_ne hw
  refine ⟨by rw [hf]; exact h.wf, hring, ?_, hst, hfl⟩
  rw [hhands, hf]
  refine ⟨h.placed.custody, fun p q hq => (h.placed.listed p q hq).trans (hspare p).symm,
    fun v p hp => ?_⟩
  rw [hspare, ← h.placed.held v p hp]
  exact spares_iff fun _ => by rw [hs]

/-- A thread goes on with the same pages in its hands. -/
theorem Inv.goes (h : Inv stage s) (ht : (s.thread t).plain = true) (hr : r.plain = true)
    (hh : r.hands = (s.thread t).hands) (hs : r.spares = (s.thread t).spares) :
    Inv stage (s.goes t r) :=
  h.stay rfl h.ring (fun _ => Iff.rfl) hh hs (h.staged.goes ht hr) (h.flagged.goes ht)

/-- A thread takes a page off a list. -/
theorem Inv.take (h : Inv stage s) (hw : f.Wf) (hx : s.state.fifo.listOf x = some q)
    (hl : f.listOf = update s.state.fifo.listOf x none) (ht : (s.thread t).plain = true)
    (hr : r.plain = true) (hh : r.hands.Perm (x :: (s.thread t).hands))
    (hs : ∀ y, y ∈ r.spares ↔ y ∈ (s.thread t).spares ∨ y = x ∧ q.kind = .free) :
    Inv stage ⟨{ s.state with fifo := f }, s.policy, update s.thread t r, s.returned⟩ := by
  have hno : x ∉ (s.thread t).hands := fun hm => by
    have hoff := h.placed.custody.off (some t) x hm
    rw [hx] at hoff
    cases hoff
  refine ⟨hw, h.ring, ?_, h.staged.goes ht hr, h.flagged.goes ht⟩
  change Located f.listOf _ _ _
  rw [hl]
  refine h.placed.take hx (w := some t) ?_ (fun v hv => hands_ne hv) fun v y hy => ?_
  · rw [hands_self]
    exact hh
  · by_cases hv : v = t
    · subst hv
      rw [hands_self, hh.mem_iff, List.mem_cons] at hy
      change y ∈ (update s.thread v r v).spares ↔ _
      rw [update_self, hs y]
      rcases hy with rfl | hy
      · have hsp : y ∉ (s.thread v).spares := fun hm => hno (List.mem_append_left _ hm)
        simpa [hsp] using h.placed.listed y q hx
      · have hyx : y ≠ x := ne_of_mem_of_not_mem hy hno
        simpa [hyx] using h.placed.held v y hy
    · rw [hands_ne fun he => hv (Option.some.inj he)] at hy
      change y ∈ (update s.thread t r v).spares ↔ _
      rw [update_of_ne hv]
      exact h.placed.held v y hy

/-- A thread puts a page on a list. -/
theorem Inv.give (h : Inv stage s) (hu : PutOn s.state p q F u)
    (hh : (s.thread t).hands.Perm (p :: r.hands))
    (hs : ∀ y ∈ r.hands, y ∈ r.spares ↔ y ∈ (s.thread t).spares)
    (hp : q.kind = .free ↔ stage' p = .spare)
    (hspare : ∀ x, x ≠ p → (stage' x = .spare ↔ stage x = .spare))
    (hst : Staged stage' R (update s.thread t r) s.waiting)
    (hfl : Flagged stage' F (update s.thread t r)) :
    Inv stage' ⟨u, s.policy, update s.thread t r, R⟩ := by
  refine ⟨hu.wf, by rw [hu.ring]; exact h.ring, ?_, ?_, by rw [hu.flags]; exact hfl⟩
  · rw [hu.listOf]
    refine h.placed.give (w := some t) ?_ (fun v hv => hands_ne hv) hp hspare fun v y hy => ?_
    · rw [hands_self]
      exact hh
    · refine spares_iff fun hv => ?_
      subst hv
      rw [hands_self] at hy
      exact hs y hy
  · rw [RemoveRace.waiting, hu.ring]
    exact hst

end Assembly

section Steps

theorem threadDoes_eq_some {α : Type} {m : M α} {k : α → State → Option ThreadPhase}
    (h : s.threadDoes t m k = some s') : ∃ a u r, m s.state = .ok (a, u) ∧ k a u = some r ∧
      s' = ⟨u, s.policy, update s.thread t r, s.returned⟩ := by
  obtain ⟨⟨a, u⟩, hm, hk⟩ := Option.bind_eq_some_iff.1 h
  obtain ⟨r, hr, rfl⟩ := Option.map_eq_some_iff.1 hk
  exact ⟨a, u, r, toOption_eq_some.1 hm, hr, rfl⟩

theorem returns_eq_some {m : M Unit} (h : s.returns t m p = some s') :
    ∃ u, m s.state = .ok ((), u) ∧
      s' = ⟨u, s.policy, update s.thread t .idle, update s.returned p true⟩ := by
  obtain ⟨⟨_, u⟩, hm, rfl⟩ := Option.map_eq_some_iff.1 h
  exact ⟨u, toOption_eq_some.1 hm, rfl⟩

theorem dequeue_cases (hw : s.state.fifo.Wf) {k : Option PageId → State → Option ThreadPhase}
    (h : s.threadDoes t (onFifo (dequeueFifo q)) k = some s') :
    (∃ r, k none s.state = some r ∧ s' = s.goes t r) ∨
      ∃ x f r, f.Wf ∧ s.state.fifo.listOf x = some q ∧
        f.listOf = update s.state.fifo.listOf x none ∧
        k (some x) { s.state with fifo := f } = some r ∧
        s' = ⟨{ s.state with fifo := f }, s.policy, update s.thread t r, s.returned⟩ := by
  obtain ⟨a, u, r, hm, hk, rfl⟩ := threadDoes_eq_some h
  rcases onFifo_dequeue hw q with he | ⟨x, f, he, hw, hx, hl, -⟩
  · rw [he] at hm
    cases hm
    exact .inl ⟨r, hk, rfl⟩
  · rw [he] at hm
    cases hm
    exact .inr ⟨x, f, r, hw, hx, hl, hk, rfl⟩

omit [DecidableEq T] in
theorem spare_update {y : PageId} {g : Stage T} (hp : stage p ≠ .spare) (hg : g ≠ .spare) :
    update stage p g y = .spare ↔ stage y = .spare := by
  rcases eq_or_ne y p with rfl | hy
  · simp [hp, hg]
  · simp [hy]

theorem Inv.remove (h : Inv stage s) (hi : s.thread t = .idle) (hp : s.returned p = true) :
    Inv (update stage p (.leaving t)) ⟨s.state, s.policy, update s.thread t (.put p),
      update s.returned p false⟩ := by
  have hlive := (h.staged.returned p).1 hp
  refine h.stay rfl h.ring (fun y => spare_update (by simp [hlive]) nofun) ?_ ?_
    (h.staged.remove hi hp) (h.flagged.remove hi hlive)
  · rw [hi]
    rfl
  · rw [hi]
    rfl

theorem Inv.put (h : Inv stage s) (ht : s.thread t = .put p)
    (hs : s.threadDoes t (putFree p) (fun _ _ => some (.setPresent p)) = some s') :
    Inv (update stage p .removed) s' := by
  obtain ⟨a, u, r, hm, hk, rfl⟩ := threadDoes_eq_some hs
  cases hk
  have hsat : Sat (putFree p) (fun _ u => ringBufFull s.state.freePageRing = false ∧
      u = { s.state with freePageRing := ringBufPut s.state.freePageRing p })
      (fun _ => True) s.state := by
    unfold putFree
    rw [sat_bind, sat_get]
    split
    · trivial
    · rename_i hfull
      exact ⟨by simpa using hfull, rfl⟩
  obtain ⟨hfull, rfl⟩ := hsat.ok hm
  obtain ⟨hw, he⟩ := h.ring.put_of_not_full (x := p) hfull
  have hleave := (h.staged.leaving t p).1 ht
  refine h.stay rfl hw (fun y => spare_update (by simp [hleave]) nofun) ?_ ?_ ?_ (h.flagged.put ht)
  · rw [ht]
    rfl
  · rw [ht]
    rfl
  · rw [he, ← List.append_assoc]
    exact h.staged.put ht

theorem Inv.setPresent (h : Inv stage s) (ht : s.thread t = .setPresent p)
    (hs : s.threadDoes t (modifyPage p ({ · with present := false }))
      (fun _ _ => some (.setHot p)) = some s') : Inv stage s' := by
  obtain ⟨a, u, r, hm, hk, rfl⟩ := threadDoes_eq_some hs
  cases hk
  cases hm
  refine h.stay (by rfl) h.ring (fun _ => Iff.rfl) ?_ ?_ (h.staged.setPresent ht) ?_
  · rw [ht]
    rfl
  · rw [ht]
    rfl
  · refine Eq.subst (motive := fun F => Flagged stage F _) flags_update.symm ?_
    exact h.flagged.setPresent ht (h.staged.writing t p ht)

theorem Inv.setHot (h : Inv stage s) (ht : s.thread t = .setHot p)
    (hs : s.threadDoes t (modifyPage p ({ · with hot := false }))
      (fun _ _ => some (.zero p allCounters)) = some s') : Inv stage s' := by
  obtain ⟨a, u, r, hm, hk, rfl⟩ := threadDoes_eq_some hs
  cases hk
  cases hm
  refine h.stay (by rfl) h.ring (fun _ => Iff.rfl) ?_ ?_ (h.staged.setHot ht rfl) ?_
  · rw [ht]
    rfl
  · rw [ht]
    rfl
  · exact Eq.subst (motive := fun F => Flagged stage F _) flags_update.symm (h.flagged.setHot ht)

/-- Zeroing a counter leaves both flags. -/
theorem Inv.zero (h : Inv stage s) {c : Counter} {left : List Counter}
    (ht : s.thread t = .zero p (c :: left))
    (hs : s.threadDoes t (modifyPage p (·.zero c)) (fun _ _ => some (.zero p left)) = some s') :
    Inv stage s' := by
  obtain ⟨a, u, r, hm, hk, rfl⟩ := threadDoes_eq_some hs
  cases hk
  have hflags : ∀ P : HememPage, (P.zero c).present = P.present ∧ (P.zero c).hot = P.hot :=
    fun P => by
      unfold HememPage.zero
      split <;> exact ⟨rfl, rfl⟩
  have hframe : Frames State.standing (modifyPage p (·.zero c)) :=
    frames_modify fun _ => standing_page (hflags _)
  have hu : u.standing = s.state.standing := (hframe s.state).ok hm
  have hring : u.freePageRing = s.state.freePageRing := congrArg (·.2.1) hu
  have hplain : (s.thread t).plain = true := by
    rw [ht]
    rfl
  refine h.stay (congrArg (·.1) hu) (hring ▸ h.ring) (fun _ => Iff.rfl) ?_ ?_ ?_ ?_
  · rw [ht]
    rfl
  · rw [ht]
    rfl
  · rw [hring]
    exact h.staged.goes hplain rfl
  · refine Eq.subst (motive := fun F => Flagged stage F _) (congrArg (·.2.2) hu).symm ?_
    exact h.flagged.goes hplain

/-- A spare page is handed out. -/
theorem Inv.hand (h : Inv stage s) (hp : (s.thread t).enlists = some p) {m : M Unit}
    (hm : Sat m (fun _ u => ∃ q : ListId, q.kind ≠ .free ∧
      PutOn s.state p q (update s.state.flags p (true, (s.state.page p).hot)) u)
      (fun _ => True) s.state) (hs : s.returns t m p = some s') :
    Inv (update stage p .live) s' := by
  obtain ⟨u, hu, rfl⟩ := returns_eq_some hs
  obtain ⟨q, hq, hput⟩ := hm.ok hu
  have hplain : (s.thread t).plain = true := by
    cases ht : s.thread t <;> rw [ht] at hp <;> first | rfl | cases hp
  have hhands : (s.thread t).hands = [p] ∧ (s.thread t).spares = [p] := by
    cases ht : s.thread t <;> rw [ht] at hp <;> cases hp <;> exact ⟨rfl, rfl⟩
  have hspare : stage p = .spare := by
    refine (h.placed.held t p ?_).1 ?_
    · change p ∈ (s.thread t).hands
      simp [hhands.1]
    · simp [hhands.2]
  refine h.give hput ?_ ?_ ?_ (fun x hx => by simp [hx]) (h.staged.hand hplain hspare)
    (h.flagged.hand hplain hspare)
  · rw [hhands.1]
    exact .refl _
  · simp [ThreadPhase.hands, ThreadPhase.spares, ThreadPhase.cold]
  · simp [hq]

/-- A victim that is enforced is dropped. -/
theorem Inv.lose {f : Heap ListId PageId} {x : PageId} (h : Inv stage s) (hw : f.Wf)
    (hl : f.listOf = update s.state.fifo.listOf x none) (ht : (s.thread t).plain = true)
    (hr : r.plain = true) (hh : r.hands = (s.thread t).hands)
    (hs : r.spares = (s.thread t).spares) :
    Inv stage ⟨{ s.state with fifo := f }, s.policy, update s.thread t r, s.returned⟩ := by
  have hgoes := h.goes ht hr hh hs
  refine ⟨hw, h.ring, ?_, hgoes.staged, hgoes.flagged⟩
  change Located f.listOf _ _ _
  rw [hl]
  exact hgoes.placed.lose

theorem Inv.demote (h : Inv stage s) {c np : PageId} (ht : s.thread t = .demote c np)
    (hs : s.threadDoes t (demotePage cfg c np) (fun _ _ => some (.release np)) = some s') :
    Inv stage s' := by
  obtain ⟨a, u, r, hm, hk, rfl⟩ := threadDoes_eq_some hs
  cases hk
  have hhands : s.hands (some t) = [np, c] := congrArg ThreadPhase.hands ht
  have hspares : (s.thread t).spares = [np] := congrArg ThreadPhase.spares ht
  have hplain : (s.thread t).plain = true := congrArg ThreadPhase.plain ht
  have hoff : s.state.fifo.listOf c = none := h.placed.custody.off (some t) c (by simp [hhands])
  have hne : c ≠ np := by
    have hnd := h.placed.custody.nodup (some t)
    rw [hhands] at hnd
    simpa [eq_comm] using hnd
  have hnp : stage np = .spare :=
    (h.placed.held t np (by simp [hhands])).1 (by simp [hspares])
  have hc : stage c ≠ .spare := fun hc => by
    have hin := (h.placed.held t c (by simp [hhands])).2 hc
    rw [hspares, List.mem_singleton] at hin
    exact hne hin
  have hput : PutOn s.state c .nvmCold (update s.state.flags np (false, false)) u :=
    (demotePage_putOn h.wf hoff).ok hm
  have hflags : update s.state.flags np (false, false) = s.state.flags := by
    rw [← h.flagged.spare np hnp, update_eq_self]
  rw [hflags] at hput
  refine h.give hput ?_ ?_ ?_ (fun _ _ => Iff.rfl) (h.staged.goes hplain rfl)
    (h.flagged.goes hplain)
  · exact (List.Perm.of_eq hhands).trans (.swap ..)
  · rw [hspares]
    exact fun _ _ => Iff.rfl
  · exact ⟨nofun, fun he => (hc he).elim⟩

theorem Inv.release (h : Inv stage s) {np : PageId} (ht : s.thread t = .release np)
    (hs : s.threadDoes t (onFifo (enqueueFifo .dramFree np)) (fun _ _ => some (.hintedTake true))
      = some s') : Inv stage s' := by
  obtain ⟨a, u, r, hm, hk, rfl⟩ := threadDoes_eq_some hs
  cases hk
  have hhands : s.hands (some t) = [np] := congrArg ThreadPhase.hands ht
  have hspares : (s.thread t).spares = [np] := congrArg ThreadPhase.spares ht
  have hplain : (s.thread t).plain = true := congrArg ThreadPhase.plain ht
  have hoff : s.state.fifo.listOf np = none := h.placed.custody.off (some t) np (by simp [hhands])
  have hnp : stage np = .spare :=
    (h.placed.held t np (by simp [hhands])).1 (by simp [hspares])
  refine h.give ((onFifo_putOn h.wf hoff .dramFree).ok hm) (.of_eq hhands) nofun ?_
    (fun _ _ => Iff.rfl) (h.staged.goes hplain rfl) (h.flagged.goes hplain)
  exact ⟨fun _ => hnp, fun _ => rfl⟩

omit [DecidableEq T] in
theorem Inv.enlists_off (h : Inv stage s) (ht : (s.thread t).enlists = some p) :
    s.state.fifo.listOf p = none := by
  refine h.placed.custody.off (some t) p ?_
  change p ∈ (s.thread t).hands
  cases hph : s.thread t <;> rw [hph] at ht <;> cases ht <;> exact .head _

/-- A thread takes a step. -/
theorem Inv.thread (h : Inv stage s) (hs : s.threadStep cfg t = some s') :
    ∃ stage', Inv stage' s' := by
  unfold threadStep at hs
  split at hs
  case h_1 => cases hs
  case h_2 p ht => exact ⟨_, h.put ht hs⟩
  case h_3 p ht => exact ⟨_, h.setPresent ht hs⟩
  case h_4 p ht => exact ⟨_, h.setHot ht hs⟩
  case h_5 p ht =>
    cases hs
    have hplain : (s.thread t).plain = true := congrArg ThreadPhase.plain ht
    exact ⟨_, h.goes hplain rfl (congrArg ThreadPhase.hands ht).symm
      (congrArg ThreadPhase.spares ht).symm⟩
  case h_6 p c left ht => exact ⟨_, h.zero ht hs⟩
  case h_7 ht =>
    have hplain : (s.thread t).plain = true := congrArg ThreadPhase.plain ht
    rcases dequeue_cases h.wf hs with ⟨r, hr, rfl⟩ | ⟨x, f, r, hw, hx, hl, hr, rfl⟩
    · cases hr
      exact ⟨_, h.goes hplain rfl (congrArg ThreadPhase.hands ht).symm
        (congrArg ThreadPhase.spares ht).symm⟩
    · cases hr
      refine ⟨_, h.take hw hx hl hplain rfl ?_ ?_⟩ <;> rw [ht]
      · exact .refl _
      · simp [ThreadPhase.spares, ListId.kind]
  case h_8 ht =>
    have hplain : (s.thread t).plain = true := congrArg ThreadPhase.plain ht
    rcases dequeue_cases h.wf hs with ⟨r, hr, rfl⟩ | ⟨x, f, r, hw, hx, hl, hr, rfl⟩
    · cases hr
    · cases hr
      refine ⟨_, h.take hw hx hl hplain rfl ?_ ?_⟩ <;> rw [ht]
      · exact .refl _
      · simp [ThreadPhase.spares, ListId.kind]
  case h_9 dram p ht =>
    have hp : (s.thread t).enlists = some p := congrArg ThreadPhase.enlists ht
    refine ⟨_, h.hand hp ((allocate_putOn h.wf (h.enlists_off hp)).post fun _ u hu => ?_) hs⟩
    exact ⟨_, by cases dram <;> simp [coldList, ListId.kind], hu.2⟩
  case h_10 retry ht =>
    have hplain : (s.thread t).plain = true := congrArg ThreadPhase.plain ht
    rcases dequeue_cases h.wf hs with ⟨r, hr, rfl⟩ | ⟨x, f, r, hw, hx, hl, hr, rfl⟩
    · cases retry <;> cases hr
      exact ⟨_, h.goes hplain rfl (congrArg ThreadPhase.hands ht).symm
        (congrArg ThreadPhase.spares ht).symm⟩
    · cases hr
      refine ⟨_, h.take hw hx hl hplain rfl ?_ ?_⟩ <;> rw [ht]
      · exact .refl _
      · simp [ThreadPhase.spares, ListId.kind]
  case h_11 p ht =>
    have hp : (s.thread t).enlists = some p := congrArg ThreadPhase.enlists ht
    exact ⟨_, h.hand hp ((hintedAllocate_putOn h.wf (h.enlists_off hp)).post fun _ _ hu => hu.2) hs⟩
  case h_12 ht =>
    have hplain : (s.thread t).plain = true := congrArg ThreadPhase.plain ht
    rcases dequeue_cases h.wf hs with ⟨r, hr, rfl⟩ | ⟨x, f, r, hw, hx, hl, hr, rfl⟩
    · cases hr
      exact ⟨_, h.goes hplain rfl (congrArg ThreadPhase.hands ht).symm
        (congrArg ThreadPhase.spares ht).symm⟩
    · cases hr
      split
      · exact ⟨_, h.lose hw hl hplain rfl (congrArg ThreadPhase.hands ht).symm
          (congrArg ThreadPhase.spares ht).symm⟩
      · refine ⟨_, h.take hw hx hl hplain rfl ?_ ?_⟩ <;> rw [ht]
        · exact .refl _
        · simp [ThreadPhase.spares, ListId.kind]
  case h_13 c ht =>
    have hplain : (s.thread t).plain = true := congrArg ThreadPhase.plain ht
    rcases dequeue_cases h.wf hs with ⟨r, hr, rfl⟩ | ⟨x, f, r, hw, hx, hl, hr, rfl⟩
    · cases c <;> cases hr
    · cases c <;> cases hr
      refine ⟨_, h.take hw hx hl hplain rfl ?_ ?_⟩ <;> rw [ht]
      · exact .refl _
      · simp [ThreadPhase.spares, ListId.kind]
  case h_14 c np ht => exact ⟨_, h.demote ht hs⟩
  case h_15 np ht => exact ⟨_, h.release ht hs⟩

end Steps

section Policy

omit [DecidableEq T] in
theorem policyDoes_eq_some {α : Type} {m : M α} {k : α → DrainPhase}
    (h : s.policyDoes m k = some s') :
    ∃ a u, m s.state = .ok (a, u) ∧ s' = ⟨u, k a, s.thread, s.returned⟩ := by
  obtain ⟨⟨a, u⟩, hm, rfl⟩ := Option.map_eq_some_iff.1 h
  exact ⟨a, u, toOption_eq_some.1 hm, rfl⟩

omit [DecidableEq T] in
theorem Inv.head (h : Inv stage s) (hp : s.policy = .head)
    (hs : s.policyDoes takeFree (fun | none => .head | some p => .unlist p) = some s') :
    Inv stage s' := by
  obtain ⟨a, u, hm, rfl⟩ := policyDoes_eq_some hs
  have hhands : s.hands none = [] := congrArg DrainPhase.hands hp
  have hwait : s.waiting = s.state.freePageRing.entries := by
    rw [RemoveRace.waiting, hp]
    rfl
  have hst := hwait ▸ h.staged
  have hplaced : ∀ {r : DrainPhase} {u : State}, u.fifo = s.state.fifo → r.hands = [] →
      Located u.fifo.listOf (RemoveRace.hands ⟨u, r, s.thread, s.returned⟩)
        (fun t => (s.thread t).spares) (stage · = .spare) := fun {r u} hu hr => by
    have he : RemoveRace.hands ⟨u, r, s.thread, s.returned⟩ = s.hands := funext fun w => by
      cases w with
      | none => exact hr.trans hhands.symm
      | some t => rfl
    rw [he, hu]
    exact h.placed
  have htake : takeFree s.state = .ok ((ringBufGet s.state.freePageRing).1,
      { s.state with freePageRing := (ringBufGet s.state.freePageRing).2 }) := rfl
  rw [htake] at hm
  rcases h.ring.get with ⟨-, hr⟩ | ⟨x, ring, hr, hw, he⟩
  · rw [hr] at hm
    cases hm
    exact ⟨h.wf, h.ring, hplaced rfl rfl, hst, h.flagged⟩
  · rw [hr] at hm
    cases hm
    refine ⟨h.wf, hw, hplaced rfl rfl, ?_, h.flagged⟩
    rw [he] at hst
    exact hst

omit [DecidableEq T] in
theorem Inv.unlist (h : Inv stage s) (hp : s.policy = .unlist p)
    (hs : s.policyDoes (unlistPage p) (fun _ => .free p) = some s') : Inv stage s' := by
  obtain ⟨a, u, hm, rfl⟩ := policyDoes_eq_some hs
  obtain ⟨q, f, hf, hq, hl, rfl, hring, hflags⟩ := (unlistPage_off h.wf).ok hm
  have hhands : s.hands none = [] := congrArg DrainPhase.hands hp
  refine ⟨hf, hring ▸ h.ring, ?_, ?_, hflags ▸ h.flagged⟩
  · rw [hl]
    refine h.placed.take hq (w := none) ?_ (fun v hv => ?_) h.placed.held
    · rw [hhands]
      exact .refl _
    · cases v with
      | none => exact (hv rfl).elim
      | some t => rfl
  · have hst := h.staged
    rw [RemoveRace.waiting, hp] at hst
    rw [RemoveRace.waiting, hring]
    exact hst

omit [DecidableEq T] in
/-- The policy thread frees a page in time. -/
theorem Inv.free (h : Inv stage s) (hp : s.policy = .free p) (hu : ¬ s.Unwritten p)
    (hs : s.policyDoes (freePage p) (fun _ => .head) = some s') :
    Inv (update stage p .spare) s' := by
  obtain ⟨a, u, hm, rfl⟩ := policyDoes_eq_some hs
  have hhands : s.hands none = [p] := congrArg DrainPhase.hands hp
  have hoff : s.state.fifo.listOf p = none := h.placed.custody.off none p (by simp [hhands])
  have hwait : s.waiting = p :: s.state.freePageRing.entries := by
    rw [RemoveRace.waiting, hp]
    rfl
  have hst := hwait ▸ h.staged
  have hremoved : stage p = .removed := (hst.removed p).1 List.mem_cons_self
  have hwritten : ∀ t, s.thread t ≠ .setPresent p ∧
      (s.thread t = .setHot p → (s.state.flags p).2 = false) := fun t =>
    ⟨fun ht => hu ⟨t, .inl ht⟩, fun ht => by
      by_contra hhot
      exact hu ⟨t, .inr ⟨ht, by simpa [State.flags] using hhot⟩⟩⟩
  have hput : PutOn s.state p (freeList (s.state.page p).inDram) s.state.flags u := by
    have hsat : Sat (freePage p) (fun _ u =>
        PutOn s.state p (freeList (s.state.page p).inDram) s.state.flags u) (fun _ => True)
        s.state := by
      unfold freePage
      exact sat_getPage.2 (onFifo_putOn h.wf hoff _)
    exact hsat.ok hm
  refine ⟨hput.wf, hput.ring ▸ h.ring, ?_, ?_, ?_⟩
  · rw [hput.listOf]
    refine h.placed.give (w := none) (.of_eq hhands) (fun v hv => ?_) ?_ (fun x hx => by simp [hx])
      fun _ _ _ => Iff.rfl
    · cases v with
      | none => exact (hv rfl).elim
      | some t => rfl
    · cases (s.state.page p).inDram <;> simp [freeList, ListId.kind]
  · change Staged _ _ _ ([] ++ u.freePageRing.entries)
    rw [hput.ring]
    exact hst.free fun t => (hwritten t).1
  · rw [hput.flags]
    exact h.flagged.free hremoved hwritten

omit [DecidableEq T] in
theorem Inv.policy (h : Inv stage s) (hu : ∀ p, s.policy = .free p → ¬ s.Unwritten p)
    (hs : s.policyStep = some s') : ∃ stage', Inv stage' s' := by
  unfold policyStep at hs
  split at hs
  case h_1 hp => exact ⟨_, h.head hp hs⟩
  case h_2 p hp => exact ⟨_, h.unlist hp hs⟩
  case h_3 p hp => exact ⟨_, h.free hp (hu p hp) hs⟩

end Policy

theorem Inv.step (h : Inv stage s) {a : RemoveAct T} (hl : a.Legal s) (hc : s.Careful a)
    (hs : a.next cfg s = some s') : ∃ stage', Inv stage' s' := by
  cases a with
  | remove t p =>
    simp only [RemoveAct.next] at hs
    split at hs
    · rename_i hi
      cases hs
      exact ⟨_, h.remove hi hl⟩
    · cases hs
  | pagefault t =>
    simp only [RemoveAct.next] at hs
    split at hs
    · rename_i hi
      cases hs
      refine ⟨_, h.goes (by rw [hi]; rfl) ?_ ?_ ?_⟩
      · split <;> rfl
      · rw [hi]
        split <;> rfl
      · rw [hi]
        split <;> rfl
    · cases hs
  | thread t => exact h.thread hs
  | policy => exact h.policy hc hs
  | hint tier persistence priority =>
    cases hs
    exact ⟨stage, h.wf, h.ring, h.placed, h.staged, h.flagged⟩

omit [DecidableEq T] in
theorem Inv.apart (h : Inv stage s) : s.Apart where
  free p dram hp := by
    have hspare : stage p = .spare := (h.placed.listed p _ hp).1 (by cases dram <;> rfl)
    have hflags := h.flagged.spare p hspare
    exact ⟨congrArg Prod.fst hflags, congrArg Prod.snd hflags⟩
  handed t p ht := by
    have hmem : p ∈ (s.thread t).hands ∧ p ∈ (s.thread t).spares := by
      cases hph : s.thread t <;> rw [hph] at ht <;> cases ht <;> exact ⟨.head _, .head _⟩
    have hspare : stage p = .spare := (h.placed.held t p hmem.1).1 hmem.2
    exact congrArg Prod.fst (h.flagged.spare p hspare)
  returned p hp := h.flagged.live p ((h.staged.returned p).1 hp)

/-- Free pages are neither present nor hot, and pages handed out stay present, as long as each page
is freed only when its removal has written both flags. -/
theorem removal_apart (h : (removeRace T cfg).Reach (fun s a => a.Legal s ∧ s.Careful a) s) :
    s.Apart := by
  obtain ⟨stage, hi⟩ : ∃ stage, Inv stage s :=
    h.invariant (I := fun s => ∃ stage, Inv stage s) (fun _ h => h.inv)
      fun _ _ _ hi hc hs => hi.elim fun _ hi => hi.step hc.1 hc.2 hs
  exact hi.apart

variable (T) in
/-- No page has been handed out. -/
def start (u : State) : RemoveRace T := ⟨u, .head, fun _ => .idle, fun _ => false⟩

omit [DecidableEq T] in
/-- `pebs_init` leaves such a start. -/
theorem pebsInit_starts {kernel : Kernel} (h : pebsInit cfg (State.blank kernel) = .ok ((), u)) :
    (start T u).Starts := by
  obtain ⟨hg, hv⟩ := pebsInit_sat.ok h
  have hpage : u.page = (View.initial cfg kernel).page := congrArg View.page hv
  have hlist : u.fifo.listOf = (View.initial cfg kernel).list := congrArg View.list hv
  have hfree : ∀ p q, u.fifo.listOf p = some q → q.kind = .free := fun p q hq => by
    rw [hlist] at hq
    simp only [View.initial] at hq
    split_ifs at hq <;> cases hq <;> simp [ListId.kind]
  refine ⟨⟨hg.fifo, hg.free⟩, congrArg View.free hv, fun p dram _ => ?_, fun p => ?_,
    fun _ hp => (Bool.false_ne_true hp).elim, rfl, fun _ => rfl⟩
  · change (u.page p).present = false ∧ (u.page p).hot = false
    rw [hpage]
    simp only [View.initial, initPage]
    split_ifs <;> exact ⟨rfl, rfl⟩
  · refine ⟨fun hp => (Bool.false_ne_true hp).elim, ?_⟩
    rintro ⟨q, hq, hk⟩
    exact (hk (hfree p q hq)).elim

variable (cfg) (kernel : Kernel) in
theorem removeRace_reach {C : RemoveRace T → RemoveAct T → Prop}
    (D : RemoveRace T → RemoveAct T → Prop) [∀ s, DecidablePred (D s)] (hC : ∀ s a, D s a → C s a)
    (acts : List (RemoveAct T)) (P : RemoveRace T → Bool)
    (h : (((pebsInit cfg (State.blank kernel)).toOption.map fun r => start T r.2).bind
      (System.drive (fun s a => a.next cfg s) D acts)).any P = true) :
    ∃ s, (removeRace T cfg).Reach C s ∧ P s = true :=
  System.drive_reach_of (fun s a => a.next cfg s) D (fun _ _ _ => id) hC (fun s hs => by
    obtain ⟨⟨⟨⟩, u⟩, hu, rfl⟩ := Option.map_eq_some_iff.1 hs
    exact pebsInit_starts (toOption_eq_some.1 hu)) acts P h

end RemoveRace

/-- Page 0 is freed while its removal zeroes counters, and a thread takes it again. -/
theorem RemoveRace.removal_apart_reused : ∃ s : RemoveRace (Fin 2),
    s.thread 0 = .zero 0 allCounters ∧ s.thread 1 = .enlist true 0 ∧ s.Apart := by
  have hcareful : ∀ (s : RemoveRace (Fin 2)) (a : RemoveAct (Fin 2)),
      a.Legal s ∧ (s.policy.hands = [] ∨ ∀ t, (s.thread t).plain = true) →
        a.Legal s ∧ s.Careful a := by
    rintro s a ⟨hl, hd⟩
    refine ⟨hl, ?_⟩
    cases a with
    | policy =>
      rintro p hp ⟨t, ht⟩
      rw [hp] at hd
      have hplain := hd.resolve_left nofun t
      rcases ht with ht | ⟨ht, -⟩ <;> rw [ht] at hplain <;> cases hplain
    | _ => trivial
  obtain ⟨s, hs, hP⟩ := removeRace_reach fourFrames Kernel.fresh
    (fun (s : RemoveRace (Fin 2)) a => a.Legal s ∧
      (s.policy.hands = [] ∨ ∀ t, (s.thread t).plain = true))
    hcareful
    ([.pagefault 0, .thread 0, .thread 0, .pagefault 1, .thread 1, .thread 1, .remove 0 0,
      .thread 0, .policy, .thread 0, .thread 0, .policy, .policy, .pagefault 1, .thread 1])
    (fun s => s.thread 0 = .zero 0 allCounters ∧ s.thread 1 = .enlist true 0)
    (by decide +kernel)
  obtain ⟨h0, h1⟩ := of_decide_eq_true hP
  exact ⟨s, h0, h1, removal_apart hs⟩

/-- Page 0 is freed before its removal clears `present`, and a thread that takes it fails its
assertion. -/
theorem RemoveRace.removal_overlaps : ∃ s : RemoveRace (Fin 2),
    (removeRace (Fin 2) fourFrames).Reach (fun s a => a.Legal s) s ∧
      s.thread 0 = .setPresent 0 ∧ s.state.fifo.listOf 0 = some .dramFree ∧
      (s.state.page 0).present = true ∧
      (∃ s', s.threadStep fourFrames 1 = some s' ∧ s'.thread 1 = .enlist true 0 ∧
        allocate true 0 s'.state = .error .allocPresent) ∧ ¬ s.Apart := by
  obtain ⟨s, hs, hP⟩ := removeRace_reach fourFrames Kernel.fresh
    (fun (s : RemoveRace (Fin 2)) a => a.Legal s) (fun _ _ => id)
    ([.pagefault 0, .thread 0, .thread 0, .pagefault 1, .thread 1, .thread 1, .remove 0 0,
      .thread 0, .policy, .policy, .policy, .pagefault 1])
    (fun s => s.thread 0 = .setPresent 0 ∧ s.state.fifo.listOf 0 = some .dramFree ∧
      (s.state.page 0).present = true ∧ (s.threadStep fourFrames 1).any fun s' =>
        s'.thread 1 = .enlist true 0 ∧ (s'.state.page 0).inDram = true ∧
          (s'.state.page 0).present = true)
    (by decide +kernel)
  obtain ⟨h0, hl, hp, hstep⟩ := of_decide_eq_true hP
  obtain ⟨s', hs', hstep⟩ := (Option.any_eq_true _ _).1 hstep
  obtain ⟨h1', hd', hp'⟩ := of_decide_eq_true hstep
  refine ⟨s, hs, h0, hl, hp, ⟨s', hs', h1', allocate_of_present hd' hp'⟩, fun ha => ?_⟩
  have hno := (ha.free 0 true hl).1
  rw [hp] at hno
  cases hno

end HeMem

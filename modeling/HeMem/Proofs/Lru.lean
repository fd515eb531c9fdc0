import HeMem.Proofs.Frames
import HeMem.Lru

/-!
# The lists of `lru.c`

Every page is on one list, of its tier, free or not as its flag says, and holds a frame of its
tier.  A turn of the migration loop leaves a free NVM page behind, so a pass that does not fail in
its first turn does not fail.
-/

namespace HeMem

open Hoare Function

variable {α : Type} {cfg : Config} {kernel : Kernel} {s t : LruState} {p np x : PageId}
  {q : LruList} {e : LruAbort} {E : LruAbort → Prop}

section Rules

theorem sat_onHemem {m : M α} {Q : α → LruState → Prop} : Sat (onHemem m) Q E s ↔
    Sat m (fun a h => Q a { s with hemem := h }) (fun e => E (.hemem e)) s.hemem := by
  unfold Sat onHemem
  rcases m s.hemem with e | ⟨a, h⟩ <;> rfl

/-- The struct of page `p` is edited. -/
def LruState.edit (s : LruState) (p : PageId) (g : HememPage → HememPage) : LruState :=
  { s with hemem := { s.hemem with page := update s.page p (g (s.page p)) } }

@[simp] theorem edit_fifo {g : HememPage → HememPage} : (s.edit p g).fifo = s.fifo := rfl

@[simp] theorem edit_page {g : HememPage → HememPage} :
    (s.edit p g).page = update s.page p (g (s.page p)) := rfl

theorem sat_editPage {g : HememPage → HememPage} {f : Unit → LruM α} {Q : α → LruState → Prop} :
    Sat (onHemem (modifyPage p g) >>= f) Q E s ↔ Sat (f ()) Q E (s.edit p g) := Iff.rfl

theorem sat_onLists {m : FifoM LruList PageId α} {a : α} {h : Heap LruList PageId}
    {Q : α → LruState → Prop} (hm : m s.fifo = .ok (a, h)) :
    Sat (onLists m) Q E s ↔ Q a { s with fifo := h } := by
  apply sat_of_ok
  unfold onLists
  rw [hm]

theorem sat_enqueue (hw : s.fifo.Wf) (hp : s.fifo.listOf p = none) :
    Sat (onLists (enqueueFifo q p)) (fun _ t => ∃ h, h.Wf ∧
      h.listOf = update s.fifo.listOf p (some q) ∧ t = { s with fifo := h }) E s := by
  obtain ⟨h, he, hw', hl⟩ := hw.enqueue (q := q) hp
  exact (sat_onLists he).2 ⟨h, hw', hl, rfl⟩

theorem sat_dequeue (hw : s.fifo.Wf) : Sat (onLists (dequeueFifo q))
    (fun r t => r = none ∧ s = t ∧ (∀ p, s.fifo.listOf p ≠ some q) ∨
      ∃ p h, r = some p ∧ h.Wf ∧ s.fifo.listOf p = some q ∧
        h.listOf = update s.fifo.listOf p none ∧ t = { s with fifo := h }) E s := by
  rcases hw.dequeue q with ⟨he, -, hn⟩ | ⟨p, h, he, hw', -, hp, hl, -⟩
  · exact (sat_onLists he).2 (.inl ⟨rfl, rfl, hn⟩)
  · exact (sat_onLists he).2 (.inr ⟨p, h, rfl, hw', hp, hl, rfl⟩)

end Rules

section Invariant

variable {l : PageId → Option LruList} {page : PageId → HememPage}

/-- What holds of page `p` with struct `P` on list `q`. -/
structure LruPage (cfg : Config) (p : PageId) (q : Option LruList) (P : HememPage) : Prop where
  listed : q ≠ none ↔ p < cfg.pages
  tier : ∀ q' ∈ q, P.inDram = q'.dram
  present : ∀ q' ∈ q, P.present = !q'.free
  pt : P.pt = .hugep
  align : P.va % hugepageSize = 0

structure LruInv (cfg : Config) (l : PageId → Option LruList) (page : PageId → HememPage) :
    Prop where
  each : ∀ p, LruPage cfg p (l p) (page p)
  bij : Set.BijOn (fun p => (page p).frame) {p | p < cfg.pages} (initialFrames cfg)

def LruState.Ok (cfg : Config) (s : LruState) : Prop :=
  s.fifo.Wf ∧ LruInv cfg s.fifo.listOf s.page

@[simp] theorem dram_lruFreeList (dram : Bool) : (lruFreeList dram).dram = dram := by
  cases dram <;> rfl

@[simp] theorem free_lruFreeList (dram : Bool) : (lruFreeList dram).free = true := by
  cases dram <;> rfl

section Page

variable {P P' : HememPage} {q' : LruList}

theorem LruPage.owned (h : LruPage cfg p (some q) P) : p < cfg.pages := h.listed.1 (by simp)

/-- A page goes to another list, its struct edited in step. -/
theorem LruPage.relist (h : LruPage cfg p (some q) P) (hd : P'.inDram = q'.dram)
    (hpr : P'.present = !q'.free) (hpt : P'.pt = P.pt) (hva : P'.va = P.va) :
    LruPage cfg p (some q') P' where
  listed := ⟨fun _ => h.owned, fun _ => by simp⟩
  tier := fun q'' hq => by
    cases hq
    exact hd
  present := fun q'' hq => by
    cases hq
    exact hpr
  pt := hpt.trans h.pt
  align := hva ▸ h.align

end Page

theorem LruInv.at (h : LruInv cfg l page) (hp : l p = some q) :
    LruPage cfg p (some q) (page p) := hp ▸ h.each p

theorem LruInv.inRange (h : LruInv cfg l page) (hp : l p = some q) {dram : Bool}
    (hd : q.dram = dram) : cfg.InRange dram (page p).devdaxOffset hugepageSize := by
  obtain ⟨dram', i, hi, he⟩ := h.bij.mapsTo (h.at hp).owned
  simp only [HememPage.frame, Prod.mk.injEq] at he
  rw [he.2, ← hd, ← (h.at hp).tier q rfl, deviceOf_inj he.1]
  exact inRange_initial hi

theorem each_update (h : ∀ x, LruPage cfg x (l x) (page x)) {o : Option LruList} {P : HememPage}
    (hp : LruPage cfg p o P) (x : PageId) :
    LruPage cfg x (update l p o x) (update page p P x) := by
  rcases eq_or_ne x p with rfl | hx
  · simpa using hp
  · simpa [hx] using h x

/-- A page that keeps its frame changes its list and its struct. -/
theorem LruInv.update (h : LruInv cfg l page) {o : Option LruList} {P : HememPage}
    (hp : LruPage cfg p o P) (hf : P.frame = (page p).frame) :
    LruInv cfg (update l p o) (update page p P) where
  each := each_update h.each hp
  bij := by
    have hframe : (fun x => (Function.update page p P x).frame) = fun x => (page x).frame := by
      funext x
      rcases eq_or_ne x p with rfl | hx
      · simpa using hf
      · simp [hx]
    rw [hframe]
    exact h.bij

/-- A page in use goes to another list of its tier. -/
theorem LruInv.relist (h : LruInv cfg l page) {q' : LruList} (hp : l p = some q)
    (hd : q'.dram = q.dram) (hf : q'.free = q.free) :
    LruInv cfg (Function.update l p (some q')) page := by
  have hP := h.at hp
  have hpr : (page p).present = !q'.free := by rw [hf, hP.present q rfl]
  simpa using h.update (hP.relist ((hP.tier q rfl).trans hd.symm) hpr rfl rfl) rfl

/-- A page goes to a list of its tier, free or not as its flag is set to say. -/
theorem LruInv.mark (h : LruInv cfg l page) {q' : LruList} (hp : l p = some q)
    (hd : q'.dram = q.dram) : LruInv cfg (Function.update l p (some q'))
      (Function.update page p { page p with present := !q'.free }) :=
  h.update ((h.at hp).relist (((h.at hp).tier q rfl).trans hd.symm) rfl rfl rfl) rfl

theorem LruInv.assign (h : LruInv cfg l page) {va : UInt64} (hva : va % hugepageSize = 0) :
    LruInv cfg l (Function.update page p { page p with va := va }) := by
  have hP := h.each p
  have hu := h.update (p := p) (o := l p) (P := { page p with va := va })
    ⟨hP.listed, hP.tier, hP.present, hP.pt, hva⟩ rfl
  simpa using hu

/-- The list of the other tier that a page in use moves to. -/
def movedList (up : Bool) : LruList := if up then .activeList else .nvmInactiveList

/-- The page structs after `p` has moved to the frame of the free page `np`. -/
def swapped (page : PageId → HememPage) (up : Bool) (p np : PageId) : PageId → HememPage :=
  Function.update (Function.update page p { page p with
    devdaxOffset := (page np).devdaxOffset, inDram := up, migrating := false })
    np { page np with devdaxOffset := (page p).devdaxOffset, inDram := !up, present := false }

theorem swapped_frame {up : Bool} (hne : p ≠ np) (hp : (page p).inDram = !up)
    (hn : (page np).inDram = up) (x : PageId) :
    (swapped page up p np x).frame = (page (Equiv.swap p np x)).frame := by
  unfold swapped
  rcases eq_or_ne x np with rfl | hxn
  · simp [HememPage.frame, hp]
  rcases eq_or_ne x p with rfl | hxp
  · simp [HememPage.frame, hne, hn]
  · simp [Equiv.swap_apply_of_ne_of_ne hxp hxn, hxn, hxp]

theorem LruInv.swap (h : LruInv cfg l page) {up : Bool} (hp : l p = some q) (hd : q.dram = !up)
    (hf : q.free = false) (hn : l np = some (lruFreeList up)) :
    LruInv cfg (Function.update (Function.update l p (some (movedList up))) np
      (some (lruFreeList !up))) (swapped page up p np) := by
  have hP := h.at hp
  have hN := h.at hn
  have hmoved : (movedList up).dram = up ∧ (movedList up).free = false := by
    cases up <;> exact ⟨rfl, rfl⟩
  have hpr : (page p).present = !(movedList up).free := by rw [hmoved.2, hP.present q rfl, hf]
  have hinP : (page p).inDram = !up := by rw [hP.tier q rfl, hd]
  have hinN : (page np).inDram = up := by rw [hN.tier _ rfl, dram_lruFreeList]
  have hne : p ≠ np := by
    rintro rfl
    rw [hinP] at hinN
    cases up <;> cases hinN
  have hp' : LruPage cfg p (some (movedList up)) { page p with
      devdaxOffset := (page np).devdaxOffset, inDram := up, migrating := false } :=
    hP.relist hmoved.1.symm hpr rfl rfl
  have hn' : LruPage cfg np (some (lruFreeList !up)) { page np with
      devdaxOffset := (page p).devdaxOffset, inDram := !up, present := false } :=
    hN.relist (by simp) (by simp) rfl rfl
  refine ⟨each_update (each_update h.each hp') hn', ?_⟩
  rw [funext (swapped_frame hne hinP hinN)]
  exact h.bij.comp (Equiv.swap_bijOn_self (by simp [hP.owned, hN.owned]))

/-- Addresses and `present` flags are the same. -/
def SameUse (page page' : PageId → HememPage) : Prop :=
  ∀ x, (page' x).va = (page x).va ∧ (page' x).present = (page x).present

theorem SameUse.trans {page' page'' : PageId → HememPage} (h : SameUse page page')
    (h' : SameUse page' page'') : SameUse page page'' := fun x =>
  ⟨(h' x).1.trans (h x).1, (h' x).2.trans (h x).2⟩

theorem swapped_sameUse {up : Bool} (hn : (page np).present = false) :
    SameUse page (swapped page up p np) := fun x => by
  simp only [swapped, update_apply]
  grind

end Invariant

section Exchange

variable {s : State}

theorem hememWpPage_sat {protect : Bool} (hal : (s.page p).va % hugepageSize = 0) :
    Sat (hememWpPage p protect) (fun _ t => t.page = s.page)
      (fun e => e = .wpVa ∧ (s.page p).va = 0) s := by
  unfold hememWpPage
  rw [sat_getPage, sat_bind, sat_check]
  refine ⟨fun hva => ?_, fun hva => ⟨rfl, not_not.1 hva⟩⟩
  rw [sat_bind, sat_check]
  exact ⟨fun _ => rfl, fun h => absurd hal h⟩

theorem hememMigrate_sat {up : Bool} {offset : UInt64} (hin : (s.page p).inDram = !up)
    (hr : cfg.InRange (!up) (s.page p).devdaxOffset hugepageSize)
    (hr' : cfg.InRange up offset hugepageSize) (hpt : (s.page p).pt = .hugep)
    (hal : (s.page p).va % hugepageSize = 0) :
    Sat (hememMigrate cfg up p offset) (fun _ t => t.page = update s.page p { s.page p with
      devdaxOffset := offset, inDram := up }) (fun _ => False) s := by
  unfold hememMigrate
  rw [sat_getPage, sat_bind, sat_modify, sat_bind, sat_check]
  refine ⟨fun _ => ?_, fun h => h hin⟩
  rw [hpt, sat_bind, sat_check]
  refine ⟨fun _ => ?_, fun h => h hr⟩
  rw [sat_bind, sat_check]
  refine ⟨fun _ => ?_, fun h => h hr'⟩
  rw [onKernel, sat_bind, sat_modify, onKernel, sat_bind, sat_modify, sat_bind, sat_check]
  exact ⟨fun _ => rfl, fun h => h hal⟩

theorem lruSwapFrames_sat {up : Bool} (hin : (s.page p).inDram = !up)
    (hr : cfg.InRange (!up) (s.page p).devdaxOffset hugepageSize)
    (hr' : cfg.InRange up (s.page np).devdaxOffset hugepageSize) (hpt : (s.page p).pt = .hugep)
    (hal : (s.page p).va % hugepageSize = 0) (hne : p ≠ np) :
    Sat (lruSwapFrames cfg up p np) (fun _ t => t.page = swapped s.page up p np)
      (fun e => e = .wpVa ∧ (s.page p).va = 0) s := by
  have hdir : (if up then lruMigrateUp cfg else lruMigrateDown cfg) = lruMigrate cfg up := by
    cases up <;> rfl
  have hdir' : (if up then hememMigrateUp cfg else hememMigrateDown cfg) = hememMigrate cfg up := by
    cases up <;> rfl
  unfold lruSwapFrames
  rw [sat_getPage, sat_getPage, hdir, sat_bind]
  unfold lruMigrate
  rw [sat_modifyPage, hdir']
  refine (hememWpPage_sat (by simpa using hal)).mono (fun _ _ => id) (fun e he => by simpa using he)
    |>.bind fun _ t ht => ?_
  have htp : t.page p = { s.page p with migrating := true } := by simp [ht]
  refine (hememMigrate_sat (by simpa [htp]) (by simpa [htp]) hr' (by simpa [htp])
    (by simpa [htp])).mono (fun _ _ => id) (fun _ => False.elim) |>.bind fun _ u hu => ?_
  refine sat_modify.2 (sat_modify.2 ?_)
  simp [hu, ht, swapped, update_of_ne hne.symm]

end Exchange

section Kswapd

variable {l : PageId → Option LruList}

theorem lruExchange_sat {u : Bool} (hw : s.fifo.Wf) (hI : LruInv cfg l s.page) (hp : l p = some q)
    (hd : q.dram = !u) (hn : l np = some (lruFreeList u)) (hlp : s.fifo.listOf p = none)
    (hln : s.fifo.listOf np = none) (hne : p ≠ np) :
    Sat (lruExchange cfg u p np) (fun _ t => t.fifo.Wf ∧ t.page = swapped s.page u p np ∧
        t.fifo.listOf = update (update s.fifo.listOf p (some (movedList u))) np
          (some (lruFreeList !u)))
      (fun e => e = .hemem .wpVa ∧ (s.page p).va = 0) s := by
  have hP := hI.at hp
  have hN := hI.at hn
  unfold lruExchange
  rw [sat_bind, sat_onHemem]
  refine (lruSwapFrames_sat ((hP.tier q rfl).trans hd) (hI.inRange hp hd)
    (hI.inRange hn (dram_lruFreeList u)) hP.pt hP.align hne).mono (fun _ h hh => ?_)
    fun e he => ⟨by rw [he.1], he.2⟩
  refine (sat_enqueue (s := { s with hemem := h }) (q := movedList u) hw hlp).bind
    fun _ t ⟨h', hw', hl', ht⟩ => ?_
  subst ht
  refine (sat_enqueue (q := lruFreeList !u) hw' ?_).post fun _ t ⟨h'', hw'', hl'', ht⟩ => ?_
  · rw [hl', update_of_ne hne.symm]
    exact hln
  · subst ht
    exact ⟨hw'', hh, by rw [hl'', hl']⟩

/-- A page waits to be moved up. -/
def LruList.source (q : LruList) : Prop := q = .nvmWrittenList ∨ q = .nvmActiveList

theorem LruList.source.nvm_used {q : LruList} (hs : q.source) : q.dram = false ∧ q.free = false := by
  rcases hs with rfl | rfl <;> exact ⟨rfl, rfl⟩

/-- A page that is given out and has no address yet. -/
def Unaddressed (cfg : Config) (page : PageId → HememPage) : Prop :=
  ∃ p < cfg.pages, (page p).present = true ∧ (page p).va = 0

theorem Unaddressed.sameUse {page page' : PageId → HememPage} (h : SameUse page page')
    (hu : Unaddressed cfg page') : Unaddressed cfg page := by
  obtain ⟨p, hp, hpr, hva⟩ := hu
  exact ⟨p, hp, (h p).2 ▸ hpr, (h p).1 ▸ hva⟩

/-- What a turn that moves `p` up leaves, from lists `l`. -/
structure Moved (cfg : Config) (l : PageId → Option LruList) (s : LruState) (p : PageId)
    (t : LruState) : Prop where
  ok : t.Ok cfg
  use : SameUse s.page t.page
  room : ∃ x, t.fifo.listOf x = some .nvmFreeList
  source : ∀ x q, t.fifo.listOf x = some q → q.source → x ≠ p ∧ ∃ q, l x = some q ∧ q.source

/-- A try that finds a free DRAM page. -/
theorem kswapdTries_free {b : UInt64} {n : ℕ} (hw : s.fifo.Wf) (hI : LruInv cfg l s.page)
    (hp : l p = some q) (hs : q.source) (hl : s.fifo.listOf = update l p none)
    (hn : l np = some .dramFreeList) :
    Sat (kswapdTries cfg q p b (n + 1)) (fun r t => (∃ b', r = .next b') ∧ Moved cfg l s p t)
      (fun e => e = .hemem .wpVa ∧ Unaddressed cfg s.page) s := by
  have hqd := hs.nvm_used
  have hpn : ∀ x, l x = some .dramFreeList → x ≠ p := fun x hx hxp => by
    rw [hxp, hp] at hx
    cases hx
    exact absurd hqd.1 (by decide)
  unfold kswapdTries
  refine (sat_dequeue hw).bind fun r t hr => ?_
  rcases hr with ⟨-, -, hno⟩ | ⟨x, h, rfl, hw', hx, hl', rfl⟩
  · refine absurd ?_ (hno np)
    rw [hl, update_of_ne (hpn np hn)]
    exact hn
  have hxp : x ≠ p := fun hxp => by simp [hl, hxp] at hx
  have hx : l x = some .dramFreeList := by rwa [hl, update_of_ne hxp] at hx
  have hxpr : (s.page x).present = false := (hI.at hx).present _ rfl
  have hpr : (s.page p).present = true := by simp [(hI.at hp).present q rfl, hqd.2]
  rw [hl] at hl'
  dsimp only
  rw [sat_bind, sat_get, sat_bind, sat_check]
  refine ⟨fun _ => ?_, fun h => absurd hxpr h⟩
  refine ((lruExchange_sat (s := { s with fifo := h }) (u := true) hw' hI hp hqd.1 hx
    (by simp [hl', hxp.symm])
    (by simp [hl']) hxp.symm).mono (fun _ _ => id)
    fun e he => ⟨he.1, p, (hI.at hp).owned, hpr, he.2⟩) |>.bind fun _ t ⟨hwt, hpage, hlt⟩ => ?_
  change (∃ b', _ = LruTurn.next b') ∧ Moved cfg l s p t
  refine ⟨⟨_, rfl⟩, ⟨hwt, ?_⟩, ?_, ⟨x, ?_⟩, fun y q' hy hs' => ?_⟩
  · have hlist : t.fifo.listOf = update (update l p (some (movedList true))) x
        (some (lruFreeList false)) := by
      rw [hlt, hl']
      funext y
      simp only [update_apply]
      split_ifs <;> rfl
    rw [hlist]
    unfold LruState.page
    rw [show t.hemem.page = _ from hpage]
    exact hI.swap hp hqd.1 hqd.2 hx
  · unfold LruState.page
    rw [show t.hemem.page = _ from hpage]
    exact swapped_sameUse hxpr
  · rw [hlt]
    simp [lruFreeList]
  · rw [hlt, hl'] at hy
    simp only [update_apply] at hy
    have hmove : ¬ (movedList true).source ∧ ¬ (lruFreeList (!true)).source := by
      simp [movedList, lruFreeList, LruList.source]
    split_ifs at hy with h1 h2
    · cases hy
      exact absurd hs' hmove.2
    · cases hy
      exact absurd hs' hmove.1
    · exact ⟨‹_›, q', hy, hs'⟩

/-- No page of either tier is free, one of DRAM is inactive and one of NVM waits to move up. -/
def StarvedLists (l : PageId → Option LruList) : Prop :=
  (∀ p, l p ≠ some .dramFreeList) ∧ (∀ p, l p ≠ some .nvmFreeList) ∧
    (∃ p, l p = some .inactiveList) ∧ ∃ p q, l p = some q ∧ q.source

/-- What a turn leaves. -/
def TurnPost (cfg : Config) (l : PageId → Option LruList) (s : LruState) (p : PageId)
    (r : LruTurn) (t : LruState) : Prop :=
  (r = .out ∧ t.Ok cfg ∧ SameUse s.page t.page) ∨ (∃ b, r = .next b) ∧ Moved cfg l s p t

/-- The page goes back where it was. -/
theorem enqueue_back (hw : s.fifo.Wf) (hI : LruInv cfg l s.page) (hp : l p = some q)
    (hl : s.fifo.listOf = update l p none) : Sat (do
      onLists (enqueueFifo q p)
      return LruTurn.out) (fun r t => r = .out ∧ t.Ok cfg ∧ SameUse s.page t.page)
      (fun _ => False) s := by
  refine (sat_enqueue hw (by simp [hl])).bind fun _ t ⟨h, hw', hl', ht⟩ => ?_
  subst ht
  refine ⟨rfl, ⟨hw', ?_⟩, fun x => ⟨rfl, rfl⟩⟩
  have hback : h.listOf = l := by
    rw [hl', hl]
    funext x
    simp only [update_apply]
    split_ifs with hxp
    · rw [hxp, hp]
    · rfl
  exact hback ▸ hI

/-- An inactive page of DRAM goes down, and its frame is free for the next try. -/
theorem kswapdTries_exchange {b : UInt64} {cp : PageId} (hw : s.fifo.Wf) (hI : LruInv cfg l s.page)
    (hp : l p = some q) (hs : q.source) (hc : l cp = some .inactiveList)
    (hn : l np = some .nvmFreeList)
    (hl : s.fifo.listOf = update (update (update l p none) cp none) np none) : Sat (do
      lruExchange cfg false cp np
      kswapdTries cfg q p b 1) (fun r t => (∃ b', r = .next b') ∧ Moved cfg l s p t)
      (fun e => e = .hemem .wpVa ∧ Unaddressed cfg s.page) s := by
  have hcp : p ≠ cp := by
    rintro rfl
    rw [hp] at hc
    cases hc
    exact absurd hs.nvm_used.1 (by decide)
  have hnp : p ≠ np := by
    rintro rfl
    rw [hp] at hn
    cases hn
    exact absurd hs.nvm_used.2 (by decide)
  have hnc : np ≠ cp := by
    rintro rfl
    rw [hc] at hn
    cases hn
  have hnpr : (s.page np).present = false := (hI.at hn).present _ rfl
  refine ((lruExchange_sat (u := false) hw hI hc rfl hn (by simp [hl, hnc.symm])
    (by simp [hl]) hnc.symm).mono (fun _ _ => id) fun e he =>
      ⟨he.1, cp, (hI.at hc).owned, (hI.at hc).present _ rfl, he.2⟩)
    |>.bind fun _ t ⟨hwt, hpage, hlt⟩ => ?_
  have huse : SameUse s.page t.page := by
    unfold LruState.page
    rw [show t.hemem.page = _ from hpage]
    exact swapped_sameUse hnpr
  have hI' : LruInv cfg (update (update l cp (some (movedList false))) np (some (lruFreeList true)))
      t.page := by
    unfold LruState.page
    rw [show t.hemem.page = _ from hpage]
    exact hI.swap hc rfl rfl hn
  refine ((kswapdTries_free (n := 0) hwt hI' (by rw [update_of_ne hnp, update_of_ne hcp, hp]) hs ?_
    (update_self np _ _)).mono (fun r u h => ⟨h.1, h.2.ok, huse.trans h.2.use, h.2.room,
      fun x q' hx hs' => ?_⟩) fun e he => ⟨he.1, he.2.sameUse huse⟩)
  · rw [hlt, hl]
    funext x
    simp only [update_apply]
    split_ifs with h1 h2 h3 h3 <;> simp_all
  · obtain ⟨hxp, q'', hx', hs''⟩ := h.2.source x q' hx hs'
    simp only [update_apply] at hx'
    have hmove : ¬ (movedList false).source ∧ ¬ (lruFreeList true).source := by
      simp [movedList, lruFreeList, LruList.source]
    split_ifs at hx' with h1 h2
    · cases hx'
      exact absurd hs'' hmove.2
    · cases hx'
      exact absurd hs'' hmove.1
    · exact ⟨hxp, q'', hx', hs''⟩

theorem kswapdTries_sat {b : UInt64} (hw : s.fifo.Wf) (hI : LruInv cfg l s.page)
    (hp : l p = some q) (hs : q.source) (hl : s.fifo.listOf = update l p none) :
    Sat (kswapdTries cfg q p b 2) (fun r t => ¬ StarvedLists l ∧ TurnPost cfg l s p r t)
      (fun e => e = .kswapdNp ∧ StarvedLists l ∨
        e = .hemem .wpVa ∧ ¬ StarvedLists l ∧ Unaddressed cfg s.page) s := by
  by_cases hfree : ∃ np, l np = some .dramFreeList
  · obtain ⟨np, hn⟩ := hfree
    have hno : ¬ StarvedLists l := fun h => h.1 np hn
    exact (kswapdTries_free hw hI hp hs hl hn).mono (fun r t h => ⟨hno, .inr h⟩)
      fun e he => .inr ⟨he.1, hno, he.2⟩
  have hfree : ∀ np, l np ≠ some .dramFreeList := fun np hn => hfree ⟨np, hn⟩
  have hoff : ∀ x q', s.fifo.listOf x = some q' → x ≠ p ∧ l x = some q' := fun x q' hx => by
    rw [hl, update_apply] at hx
    split_ifs at hx with hxp
    exact ⟨hxp, hx⟩
  have hother : ∀ x q', l x = some q' → q'.dram = true ∨ q'.free = true → x ≠ p := by
    rintro x q' hx hq' rfl
    rw [hp] at hx
    cases hx
    simp [hs.nvm_used] at hq'
  unfold kswapdTries
  refine (sat_dequeue hw).bind fun r t hr => ?_
  rcases hr with ⟨rfl, rfl, -⟩ | ⟨x, h, rfl, -, hx, -, rfl⟩
  swap
  · exact absurd (hoff x _ hx).2 (hfree x)
  dsimp only
  refine (sat_dequeue hw).bind fun r u hr => ?_
  rcases hr with ⟨rfl, rfl, hin⟩ | ⟨cp, h, rfl, hwc, hcp, hlc, rfl⟩
  · -- all of DRAM is active
    have hno : ¬ StarvedLists l := fun h => by
      obtain ⟨x, hx⟩ := h.2.2.1
      refine hin x ?_
      rw [hl, update_of_ne (hother x _ hx (.inl rfl))]
      exact hx
    exact (enqueue_back hw hI hp hl).mono (fun r t h => ⟨hno, .inl h⟩) fun _ => False.elim
  obtain ⟨hcpp, hcpl⟩ := hoff cp _ hcp
  dsimp only
  refine (sat_dequeue hwc).bind fun r u hr => ?_
  rcases hr with ⟨rfl, rfl, hnf⟩ | ⟨np, h', rfl, hwn, hnp, hln, rfl⟩
  · refine .inl ⟨rfl, hfree, fun x hx => ?_, ⟨cp, hcpl⟩, p, q, hp, hs⟩
    have hxp : x ≠ p := hother x _ hx (.inr rfl)
    have hxc : x ≠ cp := fun hxc => by
      rw [hxc, hcpl] at hx
      cases hx
    exact hnf x (by rw [hlc, update_of_ne hxc, hl, update_of_ne hxp, hx])
  have hnpc : np ≠ cp := fun hn => by simp [hlc, hn] at hnp
  obtain ⟨hnpp, hnpl⟩ := hoff np _ (by rwa [hlc, update_of_ne hnpc] at hnp)
  have hnppr : (s.page np).present = false := (hI.at hnpl).present _ rfl
  have hno : ¬ StarvedLists l := fun h => h.2.1 np hnpl
  dsimp only
  rw [sat_bind, sat_get, sat_bind, sat_check]
  refine ⟨fun _ => ?_, fun h => absurd hnppr h⟩
  exact (kswapdTries_exchange (s := { s with fifo := h' }) hwn hI hp hs hcpl hnpl
    (by rw [← hl, ← hlc]; exact hln)).mono
    (fun r t h => ⟨hno, .inr ⟨h.1, h.2.ok, h.2.use, h.2.room, h.2.source⟩⟩)
    fun e he => .inr ⟨he.1, hno, he.2⟩

theorem kswapdTurn_sat {b : UInt64} (h : s.Ok cfg) : Sat (kswapdTurn cfg b)
    (fun r t => ¬ StarvedLists s.fifo.listOf ∧
      ((∀ b, r ≠ .next b) ∧ t.Ok cfg ∨ ∃ p q, s.fifo.listOf p = some q ∧ q.source ∧
        TurnPost cfg s.fifo.listOf s p r t))
      (fun e => e = .kswapdNp ∧ StarvedLists s.fifo.listOf ∨
        e = .hemem .wpVa ∧ ¬ StarvedLists s.fifo.listOf ∧ Unaddressed cfg s.page) s := by
  have htries : ∀ {p : PageId} {q : LruList} {h' : Heap LruList PageId}, q.source → h'.Wf →
      s.fifo.listOf p = some q → h'.listOf = update s.fifo.listOf p none →
      Sat (kswapdTries cfg q p b 2) (fun r t => ¬ StarvedLists s.fifo.listOf ∧
        ((∀ b, r ≠ .next b) ∧ t.Ok cfg ∨ ∃ p q, s.fifo.listOf p = some q ∧ q.source ∧
          TurnPost cfg s.fifo.listOf s p r t))
        (fun e => e = .kswapdNp ∧ StarvedLists s.fifo.listOf ∨
          e = .hemem .wpVa ∧ ¬ StarvedLists s.fifo.listOf ∧ Unaddressed cfg s.page)
        { s with fifo := h' } := fun {p q h'} hs hw hp hl => by
    refine (kswapdTries_sat (s := { s with fifo := h' }) hw h.2 hp hs hl).mono
      (fun r t ht => ⟨ht.1, .inr ⟨p, q, hp, hs, ?_⟩⟩) fun e he => he
    rcases ht.2 with ⟨hr, hok, hu⟩ | ⟨hr, hm⟩
    · exact .inl ⟨hr, hok, hu⟩
    · exact .inr ⟨hr, hm.ok, hm.use, hm.room, hm.source⟩
  unfold kswapdTurn
  refine (sat_dequeue h.1).bind fun r t hr => ?_
  rcases hr with ⟨rfl, rfl, hno⟩ | ⟨p, h', rfl, hw, hp, hl, rfl⟩
  swap
  · exact htries (.inl rfl) hw hp hl
  dsimp only
  refine (sat_dequeue h.1).bind fun r t hr => ?_
  rcases hr with ⟨rfl, rfl, hno'⟩ | ⟨p, h', rfl, hw, hp, hl, rfl⟩
  · refine ⟨fun hst => ?_, .inl ⟨fun b hb => (by cases hb), h⟩⟩
    obtain ⟨p, q, hp, rfl | rfl⟩ := hst.2.2.2
    · exact hno p hp
    · exact hno' p hp
  · exact htries (.inr rfl) hw hp hl

theorem kswapdLoop_sat : ∀ {fuel : ℕ} {s : LruState} {b : UInt64} {l : List PageId}, s.Ok cfg →
    (∀ x q, s.fifo.listOf x = some q → q.source → x ∈ l) → l.length < fuel →
    Sat (kswapdLoop cfg fuel b)
      (fun _ t => (b < kswapdMigrateRate → ¬ StarvedLists s.fifo.listOf) ∧ t.Ok cfg)
      (fun e => e = .kswapdNp ∧ StarvedLists s.fifo.listOf ∨
        e = .hemem .wpVa ∧ ¬ StarvedLists s.fifo.listOf ∧ Unaddressed cfg s.page) s
  | 0, _, _, _, _, _, hlen => absurd hlen (Nat.not_lt_zero _)
  | fuel + 1, s, b, l, h, hl, hlen => by
    unfold kswapdLoop
    rw [sat_ite]
    refine ⟨fun _ => ?_, fun hb => ⟨fun hlt => absurd hlt hb, h⟩⟩
    refine (kswapdTurn_sat h).bind fun r t ⟨hno, ht⟩ => ?_
    rcases ht with ⟨hr, hok⟩ | ⟨p, q, hp, hs, ⟨rfl, hok, -⟩ | ⟨⟨b', rfl⟩, hm⟩⟩
    · rcases r with b' | _ | _
      · exact absurd rfl (hr b')
      · exact ⟨fun _ => hno, hok⟩
      · exact ⟨fun _ => hno, hok⟩
    · exact ⟨fun _ => hno, hok⟩
    · have hno' : ¬ StarvedLists t.fifo.listOf := fun hst => by
        obtain ⟨x, hx⟩ := hm.room
        exact hst.2.1 x hx
      have hmem : p ∈ l := hl p q hp hs
      refine (kswapdLoop_sat (l := l.erase p) hm.ok (fun x q' hx hs' => ?_) ?_).mono
        (fun _ u hu => ⟨fun _ => hno, hu.2⟩) fun e he => ?_
      · obtain ⟨hne, q'', hx', hs''⟩ := hm.source x q' hx hs'
        exact (List.mem_erase_of_ne hne).2 (hl x q'' hx' hs'')
      · rw [List.length_erase_of_mem hmem]
        have := List.length_pos_of_mem hmem
        omega
      · rcases he with ⟨-, hst⟩ | ⟨he, -, hu⟩
        · exact absurd hst hno'
        · exact .inr ⟨he, hno, hu.sameUse hm.use⟩

theorem starved_iff (hw : s.fifo.Wf) : s.Starved ↔ StarvedLists s.fifo.listOf := by
  have hnil : ∀ q, s.fifo.contents q = [] ↔ ∀ p, s.fifo.listOf p ≠ some q := fun q => by
    rw [List.eq_nil_iff_forall_not_mem]
    simp only [hw.mem_contents, ne_eq]
  have hcons : ∀ q, s.fifo.contents q ≠ [] ↔ ∃ p, s.fifo.listOf p = some q := fun q => by
    rw [Ne, hnil]
    push Not
    rfl
  unfold LruState.Starved StarvedLists
  rw [hnil, hnil, hcons, hcons, hcons]
  refine and_congr_right fun _ => and_congr_right fun _ => and_congr_right fun _ => ⟨?_, ?_⟩
  · rintro (⟨p, hp⟩ | ⟨p, hp⟩)
    · exact ⟨p, _, hp, .inl rfl⟩
    · exact ⟨p, _, hp, .inr rfl⟩
  · rintro ⟨p, q, hp, rfl | rfl⟩
    · exact .inl ⟨p, hp⟩
    · exact .inr ⟨p, hp⟩

/-- A pass finds no free NVM page exactly if it starts starved. -/
theorem lruKswapd_sat (h : s.Ok cfg) : Sat (lruKswapd cfg) (fun _ t => ¬ s.Starved ∧ t.Ok cfg)
    (fun e => e = .kswapdNp ∧ s.Starved ∨
      e = .hemem .wpVa ∧ ¬ s.Starved ∧ Unaddressed cfg s.page) s := by
  have hst := starved_iff h.1
  unfold lruKswapd
  rw [sat_bind, sat_get]
  refine (kswapdLoop_sat (l := s.fifo.contents .nvmWrittenList ++ s.fifo.contents .nvmActiveList)
    h (fun x q hx hs => ?_) ?_).mono (fun _ t ht => ⟨?_, ht.2⟩) fun e he => ?_
  · rw [List.mem_append, h.1.mem_contents, h.1.mem_contents]
    rcases hs with rfl | rfl
    · exact .inl hx
    · exact .inr hx
  · rw [List.length_append, h.1.length_contents, h.1.length_contents]
    exact Nat.lt_succ_self _
  · exact hst.not.2 (ht.1 (by decide))
  · exact he.imp (fun he => ⟨he.1, hst.2 he.2⟩) fun he => ⟨he.1, hst.not.2 he.2.1, he.2.2⟩

end Kswapd

section Scan

variable {bits : PageId → UInt64} {a i w : LruList} {m : LruM Unit}

/-- From any state with `p` on no list, `m` puts `p` on one of three lists and leaves the page
structs alone. -/
def Relists (p : PageId) (a i w : LruList) (m : LruM Unit) : Prop :=
  ∀ s : LruState, s.fifo.Wf → s.fifo.listOf p = none → Sat m (fun _ t => t.fifo.Wf ∧
    t.hemem = s.hemem ∧ ∃ q, (q = a ∨ q = i ∨ q = w) ∧
      t.fifo.listOf = update s.fifo.listOf p (some q)) (fun _ => True) s

theorem relists_enqueue (hq : q = a ∨ q = i ∨ q = w) :
    Relists p a i w (onLists (enqueueFifo q p)) := fun s hw hp => by
  refine (sat_enqueue hw hp).post fun _ t ⟨h, hw', hl, ht⟩ => ?_
  subst ht
  exact ⟨hw', rfl, q, hq, hl⟩

/-- Lists and page structs apart. -/
def LruState.links (s : LruState) : Heap LruList PageId × State := (s.fifo, s.hemem)

theorem Relists.after {α : Type} {m : LruM α} {k : α → LruM Unit}
    (hm : Frames LruState.links m) (hk : ∀ r, Relists p a i w (k r)) :
    Relists p a i w (m >>= k) := fun s hw hp => by
  refine (hm s).bind fun r t ht => ?_
  have hf : t.fifo = s.fifo := congrArg Prod.fst ht
  have hh : t.hemem = s.hemem := congrArg Prod.snd ht
  have hr := hk r t (hf ▸ hw) (hf ▸ hp)
  rwa [hf, hh] at hr

theorem relists_ite {c : Prop} [Decidable c] {m' : LruM Unit} (h : Relists p a i w m)
    (h' : Relists p a i w m') : Relists p a i w (if c then m else m') := by
  split
  · exact h
  · exact h'

theorem frames_getBits : Frames LruState.links (hememGetBits bits p) :=
  frames_get.bind fun _ => frames_check.bind fun _ => frames_pure

theorem frames_setWritten {b : Bool} : Frames LruState.links (setWritten p b) :=
  frames_modify fun _ => rfl

theorem frames_setNaccesses {n : UInt64} : Frames LruState.links (setNaccesses p n) :=
  frames_modify fun _ => rfl

theorem frames_recordVa : Frames LruState.links (recordVa p) :=
  frames_get.bind fun _ => frames_check.bind fun _ => frames_modify fun _ => rfl

theorem shrinkPage_relists : Relists p a i w (shrinkPage bits a i w p) := by
  have ha : Relists p a i w (onLists (enqueueFifo a p)) := relists_enqueue (.inl rfl)
  have hi : Relists p a i w (onLists (enqueueFifo i p)) := relists_enqueue (.inr (.inl rfl))
  have hw : Relists p a i w (onLists (enqueueFifo w p)) := relists_enqueue (.inr (.inr rfl))
  refine .after frames_getBits fun _ => relists_ite (relists_ite ?_ ?_) ?_
  · exact .after frames_setWritten fun _ => .after frames_recordVa fun _ => hw
  · exact .after frames_setWritten fun _ => .after frames_recordVa fun _ => ha
  · exact .after frames_setNaccesses fun _ => hi

theorem expandPage_relists : Relists p a i w (expandPage bits a i w p) := by
  have ha : Relists p a i w (onLists (enqueueFifo a p)) := relists_enqueue (.inl rfl)
  have hi : Relists p a i w (onLists (enqueueFifo i p)) := relists_enqueue (.inr (.inl rfl))
  have hw : Relists p a i w (onLists (enqueueFifo w p)) := relists_enqueue (.inr (.inr rfl))
  refine .after frames_getBits fun _ => relists_ite (relists_ite ?_ ?_) ?_
  · exact .after frames_setWritten fun _ => hw
  · refine .after frames_setWritten fun _ => .after frames_get fun _ => relists_ite ?_ ?_
    · exact .after frames_setNaccesses fun _ => ha
    · exact .after frames_setNaccesses fun _ => .after frames_recordVa fun _ => hi
  · exact .after frames_setNaccesses fun _ => hi

theorem checkPage_relists : Relists p a i w (checkPage bits a i w p) := by
  have ha : Relists p a i w (onLists (enqueueFifo a p)) := relists_enqueue (.inl rfl)
  have hi : Relists p a i w (onLists (enqueueFifo i p)) := relists_enqueue (.inr (.inl rfl))
  have hw : Relists p a i w (onLists (enqueueFifo w p)) := relists_enqueue (.inr (.inr rfl))
  refine .after frames_getBits fun _ => relists_ite (relists_ite ?_ ?_) hi
  · exact .after frames_setWritten fun _ => .after frames_recordVa fun _ => hw
  · exact .after frames_setWritten fun _ => ha

/-- The three lists hold pages in use of one tier. -/
def OneTier (a i w : LruList) : Prop :=
  a.free = false ∧ i.free = false ∧ w.free = false ∧ i.dram = a.dram ∧ w.dram = a.dram

theorem OneTier.same (h : OneTier a i w) {q q' : LruList} (hq : q = a ∨ q = i ∨ q = w)
    (hq' : q' = a ∨ q' = i ∨ q' = w) : q'.dram = q.dram ∧ q'.free = q.free := by
  obtain ⟨h1, h2, h3, h4, h5⟩ := h
  rcases hq with rfl | rfl | rfl <;> rcases hq' with rfl | rfl | rfl <;> simp_all

/-- A turn of a scan takes `p` off its list and puts it on one of the three. -/
theorem Relists.turn (h : s.Ok cfg) (ho : OneTier a i w) {q : LruList}
    (hq : q = a ∨ q = i ∨ q = w) {h' : Heap LruList PageId} (hw : h'.Wf)
    (hp : s.fifo.listOf p = some q) (hl : h'.listOf = update s.fifo.listOf p none)
    (hm : Relists p a i w m) : Sat m (fun _ t => t.Ok cfg ∧ t.hemem = s.hemem) (fun _ => True)
      { s with fifo := h' } := by
  refine (hm { s with fifo := h' } hw (by simp [hl])).post fun _ t ⟨hwt, hh, q', hq', hlt⟩ => ?_
  refine ⟨⟨hwt, ?_⟩, hh⟩
  have hlist : t.fifo.listOf = update s.fifo.listOf p (some q') := by
    rw [hlt, hl, update_idem]
  obtain ⟨hd, hf⟩ := ho.same hq hq'
  rw [hlist, LruState.page, hh]
  exact h.2.relist hp hd hf

theorem scanLoop_sat {list : LruList} {body : PageId → LruM Unit} (ho : OneTier a i w)
    (hq : list = a ∨ list = i ∨ list = w) (hb : ∀ p, Relists p a i w (body p)) :
    ∀ {n : ℕ} {s : LruState}, s.Ok cfg → Sat (scanLoop list body n)
      (fun _ t => t.Ok cfg ∧ t.hemem = s.hemem) (fun _ => True) s
  | 0, _, h => ⟨h, rfl⟩
  | n + 1, s, h => by
    unfold scanLoop
    refine (sat_dequeue h.1).bind fun r t hr => ?_
    rcases hr with ⟨rfl, rfl, -⟩ | ⟨p, h', rfl, hw, hp, hl, rfl⟩
    · exact ⟨h, rfl⟩
    · refine ((hb p).turn h ho hq hw hp hl).bind fun _ t ⟨ht, hh⟩ => ?_
      exact (scanLoop_sat ho hq hb ht).post fun _ u ⟨hu, hh'⟩ => ⟨hu, hh'.trans hh⟩

theorem shrinkLoop_sat (ho : OneTier a i w) : ∀ {n : ℕ} {s : LruState}, s.Ok cfg →
    Sat (shrinkLoop bits a i w n) (fun _ t => t.Ok cfg ∧ t.hemem = s.hemem) (fun _ => True) s
  | 0, _, h => ⟨h, rfl⟩
  | n + 1, s, h => by
    unfold shrinkLoop
    rw [sat_bind, sat_get, sat_ite]
    refine ⟨fun _ => ?_, fun _ => ⟨h, rfl⟩⟩
    refine (sat_dequeue h.1).bind fun r t hr => ?_
    rcases hr with ⟨rfl, rfl, -⟩ | ⟨p, h', rfl, hw, hp, hl, rfl⟩
    · trivial
    · refine (shrinkPage_relists.turn h ho (.inl rfl) hw hp hl).bind fun _ t ⟨ht, hh⟩ => ?_
      exact (shrinkLoop_sat ho ht).post fun _ u ⟨hu, hh'⟩ => ⟨hu, hh'.trans hh⟩

theorem clearBits_frames : ∀ {l : List UInt64}, Frames id (clearBits l)
  | [] => frames_pure
  | _ :: _ => frames_check.bind fun _ => clearBits_frames

section Sweeps

variable (ho : OneTier a i w) (h : s.Ok cfg)
include ho h

theorem checkWrites_sat : Sat (checkWrites bits a i w) (fun _ t => t.Ok cfg ∧ t.hemem = s.hemem)
    (fun _ => True) s :=
  scanLoop_sat ho (.inr (.inr rfl)) (fun _ => checkPage_relists) h

theorem shrinkCaches_sat : Sat (shrinkCaches bits a i w) (fun _ t => t.Ok cfg ∧ t.hemem = s.hemem)
    (fun _ => True) s :=
  shrinkLoop_sat ho h

theorem expandCaches_sat : Sat (expandCaches bits a i w) (fun _ t => t.Ok cfg ∧ t.hemem = s.hemem)
    (fun _ => True) s :=
  scanLoop_sat ho (.inr (.inl rfl)) (fun _ => expandPage_relists) h

end Sweeps

theorem lruKscand_sat {b : ScanBits} (h : s.Ok cfg) : Sat (lruKscand b)
    (fun _ t => t.Ok cfg ∧ t.hemem = s.hemem) (fun _ => True) s := by
  have ho : OneTier .activeList .inactiveList .writtenList := ⟨rfl, rfl, rfl, rfl, rfl⟩
  have ho' : OneTier .nvmActiveList .nvmInactiveList .nvmWrittenList := ⟨rfl, rfl, rfl, rfl, rfl⟩
  have hsweep : ∀ {bits a i w} {t : LruState}, OneTier a i w → t.Ok cfg → t.hemem = s.hemem →
      Sat (checkWrites bits a i w) (fun _ u => u.Ok cfg ∧ u.hemem = s.hemem) (fun _ => True) t ∧
      Sat (shrinkCaches bits a i w) (fun _ u => u.Ok cfg ∧ u.hemem = s.hemem) (fun _ => True) t ∧
      Sat (expandCaches bits a i w) (fun _ u => u.Ok cfg ∧ u.hemem = s.hemem) (fun _ => True) t :=
    fun ho ht hh => ⟨(checkWrites_sat ho ht).post fun _ u hu => ⟨hu.1, hu.2.trans hh⟩,
      (shrinkCaches_sat ho ht).post fun _ u hu => ⟨hu.1, hu.2.trans hh⟩,
      (expandCaches_sat ho ht).post fun _ u hu => ⟨hu.1, hu.2.trans hh⟩⟩
  unfold lruKscand
  rw [sat_bind, sat_modify]
  refine (hsweep (t := { s with vas := [] }) ho h rfl).1.bind fun _ t ⟨h1, hh1⟩ => ?_
  refine (hsweep ho' h1 hh1).1.bind fun _ t ⟨h2, hh2⟩ => ?_
  refine (hsweep ho h2 hh2).2.1.bind fun _ t ⟨h3, hh3⟩ => ?_
  refine (hsweep ho' h3 hh3).2.1.bind fun _ t ⟨h4, hh4⟩ => ?_
  refine (hsweep ho h4 hh4).2.2.bind fun _ t ⟨h5, hh5⟩ => ?_
  refine (hsweep ho' h5 hh5).2.2.bind fun _ t ⟨h6, hh6⟩ => ?_
  rw [sat_bind, sat_get]
  refine (clearBits_frames t).post fun _ u hu => ?_
  obtain rfl : u = t := hu
  exact ⟨h6, hh6⟩

end Scan

section Allocation

/-- An allocation that finds no page has found none on either free list. -/
theorem lruAllocatePage_sat (h : s.Ok cfg) : Sat lruAllocatePage (fun _ t => t.Ok cfg)
    (fun e => e = .outOfMemory ∧ ∀ p < cfg.pages, (s.page p).present = true) s := by
  have htake : ∀ {p : PageId} {d : Bool} {q : LruList} {h' : Heap LruList PageId},
      s.fifo.listOf p = some (lruFreeList d) → h'.Wf →
      h'.listOf = update s.fifo.listOf p none → q.dram = d → q.free = false →
      Sat (do
        onHemem (modifyPage p ({ · with present := true }))
        onLists (enqueueFifo q p)
        return p) (fun _ t => t.Ok cfg)
        (fun e => e = .outOfMemory ∧ ∀ p < cfg.pages, (s.page p).present = true)
        { s with fifo := h' } := fun {p d q h'} hp hw hl hd hf => by
    rw [sat_editPage]
    refine (sat_enqueue (by exact hw) (by simp [hl])).bind fun _ t ⟨h'', hw', hl', ht⟩ => ?_
    subst ht
    refine ⟨hw', ?_⟩
    have hlist : h''.listOf = update s.fifo.listOf p (some q) := by
      rw [hl', edit_fifo, hl, update_idem]
    have hmark := h.2.mark hp (hd.trans (dram_lruFreeList d).symm)
    rw [hf] at hmark
    exact hlist ▸ hmark
  unfold lruAllocatePage
  refine (sat_dequeue h.1).bind fun r t hr => ?_
  rcases hr with ⟨rfl, rfl, hno⟩ | ⟨p, h', rfl, hw, hp, hl, rfl⟩
  swap
  · have hP := h.2.at hp
    dsimp only
    rw [sat_bind, sat_get, sat_bind, sat_check]
    refine ⟨fun _ => ?_, fun hn => absurd (hP.tier _ rfl) hn⟩
    rw [sat_bind, sat_get, sat_bind, sat_check]
    exact ⟨fun _ => htake (d := true) hp hw hl rfl rfl,
      fun hn => absurd (hP.present _ rfl) hn⟩
  dsimp only
  refine (sat_dequeue h.1).bind fun r t hr => ?_
  rcases hr with ⟨rfl, rfl, hno'⟩ | ⟨p, h', rfl, hw, hp, hl, rfl⟩
  swap
  · have hP := h.2.at hp
    dsimp only
    rw [sat_bind, sat_get, sat_bind, sat_check]
    refine ⟨fun _ => ?_, fun hn => absurd (hP.tier _ rfl) hn⟩
    rw [sat_bind, sat_get, sat_bind, sat_check]
    exact ⟨fun _ => htake (d := false) hp hw hl rfl rfl,
      fun hn => absurd (hP.present _ rfl) hn⟩
  · refine ⟨rfl, fun p hp => ?_⟩
    obtain ⟨q, hq⟩ := Option.ne_none_iff_exists'.1 ((h.2.each p).listed.2 hp)
    have hf : q.free = false := by
      rcases q <;> first | rfl | exact absurd hq (hno p) | exact absurd hq (hno' p)
    rw [(h.2.at hq).present q rfl, hf]
    rfl

theorem lruRemovePage_sat (h : s.Ok cfg) : Sat (lruRemovePage p) (fun _ t => t.Ok cfg)
    (fun _ => True) s := by
  unfold lruRemovePage
  rw [sat_bind, sat_get]
  rcases hp : s.fifo.listOf p with _ | q
  · trivial
  have hP := h.2.at hp
  obtain ⟨h', he, hw, hl⟩ := h.1.remove hp
  dsimp only
  rw [sat_bind, sat_onLists he, sat_editPage, sat_bind, sat_get]
  refine (sat_enqueue (by exact hw) (by simp [hl])).post fun _ t ⟨h'', hw', hl', ht⟩ => ?_
  subst ht
  have hlist : h''.listOf = update s.fifo.listOf p (some (lruFreeList (s.page p).inDram)) := by
    rw [hl', edit_fifo, hl, update_idem, edit_page, update_self]
  have hmark := h.2.mark hp ((dram_lruFreeList _).trans (hP.tier q rfl))
  rw [free_lruFreeList] at hmark
  exact ⟨hw', hlist ▸ hmark⟩

theorem lruInitFrames_sat {dram : Bool} {first : ℕ} : ∀ {n : ℕ} {s : LruState}, s.fifo.Wf →
    (∀ x : ℕ, first ≤ x → s.fifo.listOf x = none) → Sat (lruInitFrames cfg dram first n)
      (fun _ t => t.fifo.Wf ∧
        (∀ x : ℕ, t.fifo.listOf x = if first ≤ x ∧ x < first + n then some (lruFreeList dram)
          else s.fifo.listOf x) ∧
        ∀ x : ℕ, t.page x = if first ≤ x ∧ x < first + n then initPage cfg dram (x - first)
          else s.page x) (fun _ => False) s
  | 0, s, hw, _ => by
    refine ⟨hw, fun x => ?_, fun x => ?_⟩ <;> rw [if_neg (by omega)]
  | n + 1, s, hw, hn => by
    unfold lruInitFrames
    refine (lruInitFrames_sat hw hn).bind fun _ t ⟨hw', hl, hp⟩ => ?_
    have hnone : t.fifo.listOf (first + n) = none := by
      rw [hl, if_neg (by omega)]
      exact hn _ (by omega)
    rw [sat_editPage]
    refine (sat_enqueue (by exact hw') (by exact hnone)).post fun _ u ⟨h', hw'', hl', hu⟩ => ?_
    subst hu
    rw [edit_fifo] at hl'
    refine ⟨hw'', fun x => ?_, fun x => ?_⟩
    · rcases eq_or_ne x (first + n) with rfl | hx
      · simp [hl']
      · simp only [hl', update_of_ne hx, hl]
        congr 1
        rw [eq_iff_iff]
        omega
    · change update t.page (first + n) _ x = _
      rcases eq_or_ne x (first + n) with rfl | hx
      · simp [initPage]
      · rw [update_of_ne hx, hp]
        congr 1
        rw [eq_iff_iff]
        omega

theorem lruInit_sat : Sat (lruInit cfg) (fun _ s => s.Ok cfg) (fun _ => False)
    (LruState.blank kernel) := by
  unfold lruInit
  refine (lruInitFrames_sat ⟨_, Rep.empty⟩ fun _ _ => rfl).bind fun _ t ⟨hw, hl, hp⟩ => ?_
  refine (lruInitFrames_sat hw fun x hx => ?_).post fun _ u ⟨hw', hl', hp'⟩ => ?_
  · rw [hl, if_neg (by omega)]
    rfl
  have hpage : u.page = (View.initial cfg kernel).page := by
    funext (x : ℕ)
    rw [hp', hp]
    simp only [View.initial, Config.pages]
    by_cases h : x < cfg.count true
    · rw [if_neg (by omega), if_pos (by omega), if_pos h]
      rfl
    · rw [if_neg (by omega : ¬ (0 ≤ x ∧ x < 0 + cfg.count true)), if_neg h]
      congr 1
      rw [eq_iff_iff]
      omega
  refine ⟨hw', fun (x : ℕ) => ?_, hpage ▸ (framed_initial cfg kernel).bij⟩
  have hzero : (0 : UInt64) % hugepageSize = 0 := by decide
  rw [hl', hl, hp', hp]
  by_cases h1 : x < cfg.count true
  · rw [if_neg (by omega), if_pos (by omega), if_neg (by omega), if_pos (by omega)]
    refine ⟨iff_of_true (by simp) (Nat.lt_add_right _ h1), ?_, ?_, rfl, hzero⟩ <;>
      simp [lruFreeList, initPage, LruList.dram, LruList.free]
  by_cases h2 : x < cfg.pages
  · have h3 : x < cfg.count true + cfg.count false := h2
    rw [if_pos (by omega), if_pos (by omega)]
    refine ⟨iff_of_true (by simp) h2, ?_, ?_, rfl, hzero⟩ <;>
      simp [lruFreeList, initPage, LruList.dram, LruList.free]
  · have h3 : ¬ x < cfg.count true + cfg.count false := h2
    rw [if_neg (by omega), if_neg (by omega), if_neg (by omega), if_neg (by omega)]
    refine ⟨iff_of_false (fun h => h rfl) h2, ?_, ?_, rfl, hzero⟩ <;>
      simp [LruState.blank, Heap.empty, Heap.listOf]

end Allocation

section Reach

theorem lru_step (h : s.Ok cfg) {op : LruOp} (hl : op.Legal cfg s) :
    Sat (op.run cfg) (fun _ t => t.Ok cfg) (fun _ => True) s := by
  cases op with
  | allocate =>
    exact ((lruAllocatePage_sat h).mono (fun _ _ => id) fun _ _ => trivial).bind fun _ t ht => ht
  | assign p va =>
    rw [LruOp.run, sat_onHemem, modifyPage, sat_modify]
    exact ⟨h.1, h.2.assign hl.2.2⟩
  | remove p => exact lruRemovePage_sat h
  | scan bits => exact (lruKscand_sat h).post fun _ t ht => ht.1
  | startScan => exact h
  | sweep k dram bits =>
    have ho : OneTier (if dram then .activeList else .nvmActiveList)
        (if dram then .inactiveList else .nvmInactiveList)
        (if dram then .writtenList else .nvmWrittenList) := by
      cases dram <;> exact ⟨rfl, rfl, rfl, rfl, rfl⟩
    cases k with
    | checkWrites => exact (checkWrites_sat ho h).post fun _ t ht => ht.1
    | shrinkCaches => exact (shrinkCaches_sat ho h).post fun _ t ht => ht.1
    | expandCaches => exact (expandCaches_sat ho h).post fun _ t ht => ht.1
  | pass => exact (lruKswapd_sat h).mono (fun _ t ht => ht.2) fun _ _ => trivial

theorem lru_reach (h : (lruPolicy cfg kernel).Reach (LruOp.Legal cfg) s) : s.Ok cfg :=
  h.invariant (fun _ hs => lruInit_sat.ok hs) fun _ _ _ hI hl hs => (lru_step hI hl).ok hs

/-- Each page is on exactly one list. -/
theorem LruState.Ok.one_list (h : s.Ok cfg) (hp : p < cfg.pages) :
    ∃ q, ∀ q', (s.fifo.contents q').count p = if q' = q then 1 else 0 := by
  obtain ⟨q, hq⟩ := Option.ne_none_iff_exists'.1 ((h.2.each p).listed.2 hp)
  refine ⟨q, fun q' => ?_⟩
  rw [List.Nodup.count h.1.nodup_contents]
  simp only [h.1.mem_contents, hq, Option.some.injEq, eq_comm]

/-- Every page is on one of the eight lists, of its tier, a free one exactly if it is not present;
the page structs name the initial frames one to one; and an allocation runs out of memory only
when every page is present. -/
theorem lru_lists_agree (h : (lruPolicy cfg kernel).Reach (LruOp.Legal cfg) s) :
    (∀ p < cfg.pages, ∃ q, ∀ q', (s.fifo.contents q').count p = if q' = q then 1 else 0) ∧
    (∀ p q, p ∈ s.fifo.contents q → (s.page p).inDram = q.dram) ∧
    (∀ p < cfg.pages, (s.page p).present = true ↔ ∀ q, q.free = true → p ∉ s.fifo.contents q) ∧
    Set.BijOn (fun p => (s.page p).frame) {p | p < cfg.pages} (initialFrames cfg) ∧
    (lruAllocatePage s = .error .outOfMemory → ∀ p < cfg.pages, (s.page p).present = true) := by
  have hok := lru_reach h
  have hlist : ∀ p < cfg.pages, ∃ q, s.fifo.listOf p = some q := fun p hp =>
    Option.ne_none_iff_exists'.1 ((hok.2.each p).listed.2 hp)
  refine ⟨fun p hp => hok.one_list hp, fun p q hp => ?_, fun p hp => ?_, hok.2.bij,
    fun he => ((lruAllocatePage_sat hok).error he).2⟩
  · exact (hok.2.at (hok.1.mem_contents.1 hp)).tier q rfl
  · obtain ⟨q, hq⟩ := hlist p hp
    have hpr := (hok.2.at hq).present q rfl
    constructor
    · intro htrue q' hf hm
      rw [hok.1.mem_contents, hq] at hm
      cases hm
      rw [htrue, hf] at hpr
      cases hpr
    · intro hno
      rcases hf : q.free with _ | _
      · rw [hpr, hf]
        rfl
      · exact absurd (hok.1.mem_contents.2 hq) (hno q hf)

theorem lru_reach_run (cfg : Config) (kernel : Kernel) (ops : List LruOp) (P : LruState → Bool)
    (h : ((lruInit cfg (LruState.blank kernel)).toOption.bind fun r =>
      System.drive (LruOp.next cfg) (LruOp.Legal cfg) ops r.2).any P = true) :
    ∃ s, (lruPolicy cfg kernel).Reach (LruOp.Legal cfg) s ∧ P s = true := by
  obtain ⟨t, ht, hP⟩ := (Option.any_eq_true P _).1 h
  obtain ⟨⟨⟨⟩, s⟩, hs, ht⟩ := Option.bind_eq_some_iff.1 ht
  refine ⟨t, (System.Reach.init (toOption_eq_some.1 hs)).drive (fun s op s' hn => ?_)
    (fun _ _ hl => hl) ht, hP⟩
  obtain ⟨⟨⟨⟩, u⟩, hu, rfl⟩ := Option.map_eq_some_iff.1 hn
  exact toOption_eq_some.1 hu

/-- Three pages are allocated, one of them in NVM; a scan finds none accessed, and that page is
found written in the next; a pass moves page 0 down and it up. -/
def lruMoved : List LruOp :=
  [.allocate, .assign 0 hugepageSize, .allocate, .allocate, .assign 2 (2 * hugepageSize),
    .scan ⟨fun _ _ => 0, fun _ p => if p = 2 then 0x60 else 0, fun _ _ => 0⟩, .pass]

/-- A scan finds the page in NVM accessed, and a pass moves it up. -/
theorem lru_lists_agree_moved : ∃ s : LruState, (s.page 2).inDram = true ∧
    ∀ p < fourFrames.pages, ∃ q, ∀ q', (s.fifo.contents q').count p = if q' = q then 1 else 0 := by
  obtain ⟨s, hs, hP⟩ := lru_reach_run fourFrames Kernel.fresh lruMoved
    (fun s => (s.page 2).inDram) (by decide +kernel)
  exact ⟨s, hP, (lru_lists_agree hs).1⟩

end Reach

end HeMem

import HeMem.Proofs.Fifo
import HeMem.Proofs.Frames
import HeMem.Proofs.Lists
import HeMem.Simple
import Mathlib.Order.Interval.Finset.Nat

/-!
# The simple policy hands no page out twice

A page is on a free list, handed out, or in the hands of one thread.  What a thread does to the
struct of the page it has is seen by no other thread, and the counters are right as long as their
updates do not meet.
-/

namespace HeMem

open Hoare Function

variable {cfg : Config} {T : Type} [DecidableEq T]

section Init

theorem sat_onSimple {α : Type} {m : FifoM Bool PageId α} {s : SimpleState} {a : α}
    {h : Heap Bool PageId} {Q : α → SimpleState → Prop} {E : SimpleAbort → Prop}
    (hm : m s.fifo = .ok (a, h)) : Sat (onSimple m) Q E s ↔ Q a { s with fifo := h } := by
  apply sat_of_ok
  unfold onSimple
  rw [hm]

/-- The page struct `simple_init` makes for frame `i` of a tier is that of `pebs_init`. -/
theorem simpleFrames_sat {dram : Bool} {first : ℕ} : ∀ {n : ℕ} {s : SimpleState}, s.fifo.Wf →
    (∀ x : ℕ, first ≤ x → s.fifo.listOf x = none) → Sat (simpleFrames cfg dram first n)
      (fun _ s' => s'.fifo.Wf ∧
        (∀ x : ℕ, s'.fifo.listOf x = if first ≤ x ∧ x < first + n then some dram
          else s.fifo.listOf x) ∧
        (∀ x : ℕ, s'.page x = if first ≤ x ∧ x < first + n then initPage cfg dram (x - first)
          else s.page x) ∧ s'.mem = s.mem) (fun _ => False) s
  | 0, s, hw, _ => by
    refine ⟨hw, fun x => ?_, fun x => ?_, rfl⟩ <;> rw [if_neg (by omega)]
  | n + 1, s, hw, hn => by
    unfold simpleFrames
    refine (simpleFrames_sat hw hn).bind fun _ s' ⟨hw', hl, hp, hm⟩ => ?_
    have hnone : s'.fifo.listOf (first + n) = none := by
      rw [hl, if_neg (by omega)]
      exact hn _ (by omega)
    obtain ⟨h', he, hw'', hl'⟩ := hw'.enqueue (q := dram) hnone
    dsimp only
    rw [sat_bind, sat_modify]
    refine (sat_onSimple (by exact he)).2 ⟨hw'', fun x => ?_, fun x => ?_, hm⟩
    · rcases eq_or_ne x (first + n) with rfl | hx
      · simp [hl']
      · simp only [hl', update_of_ne hx, hl]
        congr 1
        rw [eq_iff_iff]
        omega
    · rcases eq_or_ne x (first + n) with rfl | hx
      · simp [initPage]
      · simp only [update_of_ne hx, hp]
        congr 1
        rw [eq_iff_iff]
        omega

/-- What `simple_init` leaves. -/
structure SimpleState.Fresh (cfg : Config) (s : SimpleState) : Prop where
  wf : s.fifo.Wf
  list : ∀ x : ℕ, s.fifo.listOf x = if x < cfg.count true then some true
    else if x < cfg.pages then some false else none
  page : ∀ x : ℕ, s.page x = if x < cfg.count true then initPage cfg true x
    else if x < cfg.pages then initPage cfg false (x - cfg.count true) else {}
  mem : ∀ dram, s.mem dram = 0

theorem simpleInit_fresh : Sat (simpleInit cfg) (fun _ s => s.Fresh cfg) (fun _ => False)
    SimpleState.blank := by
  unfold simpleInit
  have hw : (Heap.empty : Heap Bool PageId).Wf := ⟨_, Rep.empty⟩
  refine (simpleFrames_sat hw fun _ _ => rfl).bind fun _ s ⟨hw₁, hl₁, hp₁, hm₁⟩ => ?_
  have hnone : ∀ x : ℕ, cfg.count true ≤ x → s.fifo.listOf x = none := fun x hx => by
    rw [hl₁, if_neg (by omega)]
    rfl
  refine (simpleFrames_sat hw₁ hnone).post fun _ s' ⟨hw₂, hl₂, hp₂, hm₂⟩ =>
    ⟨hw₂, fun x => ?_, fun x => ?_, fun dram => by rw [hm₂, hm₁]; rfl⟩
  · rw [hl₂, hl₁]
    unfold Config.pages
    split_ifs <;> first | omega | rfl
  · rw [hp₂, hp₁]
    unfold Config.pages
    split_ifs <;> first | omega | rfl

end Init

namespace SimpleRace

variable {s : SimpleRace T} {t : T} {p : PageId} {r : SimplePhase}

/-- What a thread relies on. -/
def Fits (page : PageId → HememPage) : SimplePhase → Prop
  | .put dram p | .claim dram p => (page p).present = false ∧ (page p).inDram = dram
  | .load dram (some p) | .store dram (some p) _ =>
    (page p).present = true ∧ (page p).inDram = dram
  | .failed a => a = .full ∨ a = .noPage
  | _ => True

/-- A thread relies on nothing but the page in its hands. -/
theorem Fits.congr {page page' : PageId → HememPage} (h : Fits page r)
    (hp : ∀ p, r.page = some p → page' p = page p) : Fits page' r := by
  cases r with
  | put dram p | claim dram p =>
    change (page' p).present = false ∧ (page' p).inDram = dram
    rw [hp p rfl]
    exact h
  | load dram o | store dram o _ =>
    cases o with
    | none => trivial
    | some p =>
      change (page' p).present = true ∧ (page' p).inDram = dram
      rw [hp p rfl]
      exact h
  | failed a => exact h
  | _ => trivial

structure Inv (cfg : Config) (s : SimpleRace T) : Prop extends s.Kept cfg where
  wf : s.state.fifo.Wf
  tier : ∀ p < cfg.pages, (s.state.page p).inDram = decide (p < cfg.count true)
  owned : ∀ p, s.place p ≠ none ∨ (∃ t, (s.thread t).page = some p) → p < cfg.pages
  fits : ∀ t, Fits s.state.page (s.thread t)

omit [DecidableEq T] in
theorem Inv.off (h : Inv cfg s) (ht : (s.thread t).page = some p) :
    s.returned p = false ∧ s.state.fifo.listOf p = none := by
  have hoff := h.custody.off t p (by simp [ht])
  unfold place at hoff
  split at hoff
  · cases hoff
  · rename_i hr
    exact ⟨by simpa using hr, by simpa using hoff⟩

omit [DecidableEq T] in
theorem Inv.alone (h : Inv cfg s) {t' : T} (ht : (s.thread t).page = some p)
    (ht' : (s.thread t').page = some p) : t = t' :=
  h.custody.alone t t' p (by simp [ht]) (by simp [ht'])

theorem hands_goes (s : SimpleRace T) (hr : r.page = (s.thread t).page) (t' : T) :
    ((update s.thread t r t').page.toList).Perm ((s.thread t').page.toList) := by
  rcases eq_or_ne t' t with rfl | ht
  · rw [update_self, hr]
  · rw [update_of_ne ht]

theorem page_goes (hr : r.page = (s.thread t).page) (t' : T) :
    (update s.thread t r t').page = (s.thread t').page := by
  rcases eq_or_ne t' t with rfl | ht
  · rw [update_self, hr]
  · rw [update_of_ne ht]

theorem Inv.fits_update (h : Inv cfg s) (hf : Fits s.state.page r) (t' : T) :
    Fits s.state.page (update s.thread t r t') := by
  rcases eq_or_ne t' t with rfl | ht
  · rw [update_self]
    exact hf
  · rw [update_of_ne ht]
    exact h.fits t'

/-- A thread goes on with the page it has, or none. -/
theorem Inv.goes (h : Inv cfg s) (hr : r.page = (s.thread t).page) (hf : Fits s.state.page r) :
    Inv cfg (s.goes t r) where
  custody := h.custody.congr (hands_goes s hr)
  frames := h.frames
  free := h.free
  returned := h.returned
  wf := h.wf
  tier := h.tier
  owned p hp := h.owned p (hp.imp_right fun ⟨t', ht'⟩ => ⟨t', (page_goes hr t').symm.trans ht'⟩)
  fits := h.fits_update hf

omit [DecidableEq T] in
theorem Inv.setMem (h : Inv cfg s) {dram : Bool} {mem : UInt64} : Inv cfg (s.setMem dram mem) :=
  ⟨⟨h.custody, h.frames, h.free, h.returned⟩, h.wf, h.tier, h.owned, h.fits⟩

/-- A thread writes `present` of the page that it has. -/
theorem Inv.setPresent (h : Inv cfg s) {present : Bool} (ht : (s.thread t).page = some p)
    (hr : r.page = some p)
    (hf : Fits (update s.state.page p { s.state.page p with present }) r) :
    Inv cfg ((s.setPresent p present).goes t r) := by
  have hpage : ∀ q, (update s.state.page p { s.state.page p with present } q).frame =
      (s.state.page q).frame ∧ (update s.state.page p { s.state.page p with present } q).inDram =
      (s.state.page q).inDram := by
    intro q
    rcases eq_or_ne q p with rfl | hq
    · simp [HememPage.frame]
    · simp [hq]
  have hne : ∀ q, q ≠ p → update s.state.page p { s.state.page p with present } q =
      s.state.page q := fun q hq => update_of_ne hq _ _
  obtain ⟨hret, hlist⟩ := h.off ht
  refine ⟨⟨h.custody.congr (hands_goes s (hr.trans ht.symm)), ?_, fun q dram hq => ?_,
    fun q hq => ?_⟩, h.wf, fun q hq => (hpage q).2.trans (h.tier q hq), fun q hq => ?_, fun t' => ?_⟩
  · refine h.frames.congr fun q _ => ?_
    exact ((hpage q).1).symm
  · obtain ⟨h1, h2, h3⟩ := h.free q dram hq
    refine ⟨h1, ?_, (hpage q).2.trans h3⟩
    refine Eq.trans (congrArg HememPage.present (hne q ?_)) h2
    rintro rfl
    rw [show s.state.fifo.listOf q = some dram from hq] at hlist
    cases hlist
  · refine Eq.trans (congrArg HememPage.present (hne q ?_)) (h.returned q hq)
    rintro rfl
    rw [show s.returned q = true from hq] at hret
    cases hret
  · rcases hq with hq | hq
    · exact h.owned q (.inl hq)
    obtain ⟨t', ht'⟩ := hq
    exact h.owned q (.inr ⟨t', (page_goes (hr.trans ht.symm) t').symm.trans ht'⟩)
  · change Fits _ (update s.thread t r t')
    rcases eq_or_ne t' t with rfl | htt
    · rw [update_self]
      exact hf
    · rw [update_of_ne htt]
      refine (h.fits t').congr fun q hq => hne q ?_
      rintro rfl
      exact htt (h.alone hq ht)

/-- A thread takes a page from where it is. -/
theorem Inv.grab (h : Inv cfg s) (f : Heap Bool PageId) (returned : PageId → Bool)
    {src : Option Bool} (ht : (s.thread t).page = none) (hin : s.place p = some src) (hw : f.Wf)
    (hr : r.page = some p) (hf : Fits s.state.page r)
    (hplace : ({ s with
      state := { s.state with fifo := f }, thread := update s.thread t r, returned } :
        SimpleRace T).place = update s.place p none)
    (hfree : ∀ q dram, f.listOf q = some dram → returned q = false ∧
      (s.state.page q).present = false ∧ (s.state.page q).inDram = dram)
    (hret : ∀ q, returned q = true → (s.state.page q).present = true) :
    Inv cfg { s with
      state := { s.state with fifo := f }, thread := update s.thread t r, returned } := by
  refine ⟨⟨?_, h.frames, hfree, hret⟩, hw, h.tier, fun q hq => ?_, h.fits_update hf⟩
  · rw [hplace]
    refine h.custody.take (w := t) hin ?_ fun t' ht' => ?_
    · simp [hr, ht]
    · simp [ht']
  · rcases hq with hq | ⟨t', ht'⟩
    · rw [hplace, update_apply] at hq
      split at hq
      · exact (hq rfl).elim
      · exact h.owned q (.inl hq)
    · change (update s.thread t r t').page = some q at ht'
      rcases eq_or_ne t' t with rfl | htt
      · rw [update_self, hr] at ht'
        cases ht'
        exact h.owned p (.inl (by rw [hin]; exact Option.some_ne_none _))
      · rw [update_of_ne htt] at ht'
        exact h.owned q (.inr ⟨t', ht'⟩)

/-- A thread takes a page off a free list. -/
theorem Inv.take (h : Inv cfg s) {dram : Bool} {f : Heap Bool PageId}
    (ht : (s.thread t).page = none) (hp : s.state.fifo.listOf p = some dram) (hw : f.Wf)
    (hl : f.listOf = update s.state.fifo.listOf p none) (hr : r.page = some p)
    (hf : Fits s.state.page r) :
    Inv cfg (({ s with state := { s.state with fifo := f } } : SimpleRace T).goes t r) := by
  have hret : s.returned p = false := (h.free p dram hp).1
  have hin : s.place p = some (some dram) := by
    unfold place
    rw [hret, hp]
    rfl
  have hlist : ∀ q d, f.listOf q = some d → s.state.fifo.listOf q = some d := by
    intro q d hq
    rw [hl, update_apply] at hq
    split at hq
    · cases hq
    · exact hq
  refine h.grab f s.returned ht hin hw hr hf ?_ (fun q d hq => h.free q d (hlist q d hq)) h.returned
  funext q
  change (if s.returned q then some none else (f.listOf q).map some) = update s.place p none q
  rw [hl]
  rcases eq_or_ne q p with rfl | hq
  · rw [update_self, update_self, if_neg (by simp [hret])]
    rfl
  · rw [update_of_ne hq, update_of_ne hq]
    rfl

/-- A thread puts the page that it has somewhere. -/
theorem Inv.give (h : Inv cfg s) (f : Heap Bool PageId) (returned : PageId → Bool)
    (dest : Option Bool) (ht : (s.thread t).page = some p) (hw : f.Wf) (hr : r.page = none)
    (hf : Fits s.state.page r)
    (hplace : ({ s with
      state := { s.state with fifo := f }, thread := update s.thread t r, returned } :
        SimpleRace T).place = update s.place p (some dest))
    (hfree : ∀ q dram, f.listOf q = some dram → returned q = false ∧
      (s.state.page q).present = false ∧ (s.state.page q).inDram = dram)
    (hret : ∀ q, returned q = true → (s.state.page q).present = true) :
    Inv cfg { s with
      state := { s.state with fifo := f }, thread := update s.thread t r, returned } := by
  refine ⟨⟨?_, h.frames, hfree, hret⟩, hw, h.tier, fun q hq => ?_, h.fits_update hf⟩
  · rw [hplace]
    refine h.custody.give (w := t) ?_ fun t' ht' => ?_
    · simp [hr, ht]
    · simp [ht']
  · rcases hq with hq | ⟨t', ht'⟩
    · rw [hplace, update_apply] at hq
      split at hq
      · rename_i hqp
        exact hqp ▸ h.owned p (.inr ⟨t, ht⟩)
      · exact h.owned q (.inl hq)
    · change (update s.thread t r t').page = some q at ht'
      rcases eq_or_ne t' t with rfl | htt
      · rw [update_self, hr] at ht'
        cases ht'
      · rw [update_of_ne htt] at ht'
        exact h.owned q (.inr ⟨t', ht'⟩)

theorem Inv.put (h : Inv cfg s) {dram : Bool} {f : Heap Bool PageId}
    (ht : s.thread t = .put dram p) (hw : f.Wf)
    (hl : f.listOf = update s.state.fifo.listOf p (some dram)) :
    Inv cfg (({ s with state := { s.state with fifo := f } } : SimpleRace T).goes t
      (.load dram none)) := by
  have hpage : (s.thread t).page = some p := by rw [ht]; rfl
  obtain ⟨hret, -⟩ := h.off hpage
  have hfit : Fits s.state.page (.put dram p) := ht ▸ h.fits t
  refine h.give f s.returned (some dram) hpage hw rfl trivial ?_ (fun q d hq => ?_) h.returned
  · funext q
    change (if s.returned q then some none else (f.listOf q).map some) =
      update s.place p (some (some dram)) q
    rw [hl]
    rcases eq_or_ne q p with rfl | hq
    · rw [update_self, update_self, if_neg (by simp [hret])]
      rfl
    · rw [update_of_ne hq, update_of_ne hq]
      rfl
  · rw [hl, update_apply] at hq
    split at hq
    · rename_i hqp
      subst hqp
      cases hq
      exact ⟨hret, hfit⟩
    · exact h.free q d hq

/-- `simple_pagefault` returns. -/
theorem Inv.handOut (h : Inv cfg s) {dram : Bool} {mem : UInt64}
    (ht : s.thread t = .store dram (some p) mem) : Inv cfg (s.returns t (some p)) := by
  have hpage : (s.thread t).page = some p := by rw [ht]; rfl
  obtain ⟨-, hlist⟩ := h.off hpage
  have hfit : Fits s.state.page (.store dram (some p) mem) := ht ▸ h.fits t
  refine h.give s.state.fifo (update s.returned p true) none hpage
    h.wf rfl trivial ?_ (fun q d hq => ?_) fun q hq => ?_
  · funext q
    change (if update s.returned p true q then some none else (s.state.fifo.listOf q).map some) =
      update s.place p (some none) q
    rcases eq_or_ne q p with rfl | hq
    · rw [update_self, update_self, if_pos rfl]
    · rw [update_of_ne hq, update_of_ne hq]
      rfl
  · obtain ⟨h1, h2, h3⟩ := h.free q d hq
    refine ⟨?_, h2, h3⟩
    rw [update_of_ne, h1]
    rintro rfl
    rw [hlist] at hq
    cases hq
  · rw [update_apply] at hq
    split at hq
    · rename_i hqp
      exact hqp ▸ hfit.1
    · exact h.returned q hq

/-- `simple_remove_page` is called. -/
theorem Inv.call (h : Inv cfg s) (ht : s.thread t = .idle) (hp : s.returned p = true) :
    Inv cfg { s with
      thread := update s.thread t (.clear p), returned := update s.returned p false } := by
  have hnone : s.state.fifo.listOf p = none := by
    cases hl : s.state.fifo.listOf p with
    | none => rfl
    | some d =>
      rw [(h.free p d hl).1] at hp
      cases hp
  have hin : s.place p = some none := by
    unfold place
    rw [hp]
    rfl
  have hidle : (s.thread t).page = none := by rw [ht]; rfl
  refine h.grab s.state.fifo (update s.returned p false) hidle hin h.wf rfl trivial ?_
    (fun q d hq => ?_) fun q hq => ?_
  · funext q
    change (if update s.returned p false q then some none else (s.state.fifo.listOf q).map some) =
      update s.place p none q
    rcases eq_or_ne q p with rfl | hq
    · rw [update_self, update_self, if_neg Bool.false_ne_true, hnone]
      rfl
    · rw [update_of_ne hq, update_of_ne hq]
      rfl
  · obtain ⟨h1, h2, h3⟩ := h.free q d hq
    refine ⟨?_, h2, h3⟩
    rw [update_apply, h1]
    split <;> rfl
  · rw [update_apply] at hq
    split at hq
    · cases hq
    · exact h.returned q hq

theorem Inv.threadStep {s' : SimpleRace T} (h : Inv cfg s) (hs : s.threadStep cfg t = some s') :
    Inv cfg s' := by
  unfold SimpleRace.threadStep at hs
  have hfit := h.fits t
  cases ht : s.thread t with
  | idle | failed a =>
    rw [ht] at hs
    cases hs
  | clear p =>
    rw [ht] at hs
    cases hs
    exact h.setPresent (by rw [ht]; rfl) rfl (by simp [Fits])
  | put dram p =>
    rw [ht] at hs
    cases hs
    obtain ⟨f, he, hw, hl⟩ := h.wf.enqueue (q := dram) (h.off (by rw [ht]; rfl)).2
    unfold onList
    rw [he]
    exact h.put ht hw hl
  | takeDram =>
    rw [ht] at hs
    cases hs
    unfold onList
    rcases h.wf.dequeue true with ⟨he, -, -⟩ | ⟨p, f, he, hw, -, hp, hl, -⟩
    · rw [he]
      exact h.goes (by rw [ht]; rfl) trivial
    · rw [he]
      exact h.take (by rw [ht]; rfl) hp hw hl rfl (h.free p true hp).2
  | checkSlow =>
    rw [ht] at hs
    cases hs
    split
    · exact h.goes (by rw [ht]; rfl) trivial
    · exact h.goes (by rw [ht]; rfl) (.inl rfl)
  | takeNvm =>
    rw [ht] at hs
    cases hs
    unfold onList
    rcases h.wf.dequeue false with ⟨he, -, -⟩ | ⟨p, f, he, hw, -, hp, hl, -⟩
    · rw [he]
      exact h.goes (by rw [ht]; rfl) (.inr rfl)
    · rw [he]
      exact h.take (by rw [ht]; rfl) hp hw hl rfl (h.free p false hp).2
  | claim dram p =>
    rw [ht] at hs hfit
    cases hs
    rw [if_neg (by simp [hfit.1])]
    exact h.setPresent (by rw [ht]; rfl) rfl (by simp [Fits, hfit.2])
  | load dram o =>
    rw [ht] at hs hfit
    cases hs
    cases o with
    | none => exact h.goes (by rw [ht]; rfl) trivial
    | some p => exact h.goes (by rw [ht]; rfl) hfit
  | store dram o mem =>
    rw [ht] at hs
    cases hs
    cases o with
    | none => exact (h.setMem).goes (by change _ = (s.thread t).page; rw [ht]; rfl) trivial
    | some p => exact (h.setMem).handOut ht

theorem Inv.next {s' : SimpleRace T} {a : SimpleAct T} (h : Inv cfg s) (hl : a.Legal s)
    (hs : a.next cfg s = some s') : Inv cfg s' := by
  cases a with
  | remove t p =>
    simp only [SimpleAct.next] at hs
    split at hs
    · cases hs
      exact h.call ‹_› hl
    · cases hs
  | pagefault t =>
    simp only [SimpleAct.next] at hs
    split at hs
    · rename_i ht
      cases hs
      exact h.goes (by rw [ht]; rfl) trivial
    · cases hs
  | thread t => exact h.threadStep hs

theorem inv_init (hs : (simpleRace T cfg).init s) : Inv cfg s := by
  obtain ⟨hinit, hidle, hret⟩ := hs
  have hf : s.state.Fresh cfg := simpleInit_fresh.ok hinit
  have hnohand : ∀ t, (s.thread t).page = none := fun t => by rw [hidle]; rfl
  have hplace : ∀ p, s.place p = (s.state.fifo.listOf p).map some := fun p => by
    unfold place
    rw [hret]
    rfl
  refine ⟨⟨⟨?_, ?_, ?_, fun p hp hn => ?_⟩, ?_, fun p d hp => ?_, fun p hp => ?_⟩, hf.wf,
    fun p hp => ?_, fun p hp => ?_, fun t => ?_⟩
  · intro t p hp
    simp [hnohand t] at hp
  · intro t
    simp [hnohand t]
  · intro t t' p hp
    simp [hnohand t] at hp
  · rw [hplace, hf.list] at hn
    have hp : p < cfg.pages := hp
    split_ifs at hn <;> cases hn
  · have hcounts : ∀ p : ℕ, p < cfg.pages → ∃ dram i, i < cfg.count dram ∧
        p = (if dram then i else cfg.count true + i) ∧ (s.state.page p).frame =
          (deviceOf dram, UInt64.ofNat i * pageSize + cfg.offset dram) := fun p hp => by
      rcases Nat.lt_or_ge p (cfg.count true) with h | h
      · exact ⟨true, p, h, by simp, by simp [hf.page, h, initPage, HememPage.frame]⟩
      · unfold Config.pages at hp
        refine ⟨false, p - cfg.count true, by omega, by simp; omega, ?_⟩
        simp [hf.page, Config.pages, Nat.not_lt.2 h, hp, initPage, HememPage.frame]
    intro p hp q hq he
    obtain ⟨dram, i, hi, rfl, hfr⟩ := hcounts p hp
    obtain ⟨dram', j, hj, rfl, hfr'⟩ := hcounts q hq
    simp only [hfr, hfr', Prod.mk.injEq] at he
    obtain rfl := deviceOf_inj he.1
    rw [offset_inj hi hj he.2]
  · rw [hf.list] at hp
    rw [hf.page]
    refine ⟨hret p, ?_⟩
    split_ifs at hp ⊢ <;> cases hp <;> exact ⟨rfl, rfl⟩
  · rw [hret] at hp
    cases hp
  · rw [hf.page]
    split_ifs with h1
    · simp [initPage, h1]
    · simp [initPage, h1]
  · rcases hp with hp | ⟨t, ht⟩
    · by_contra hno
      have hcount : ¬ p < cfg.count true := fun hlt => hno (Nat.lt_add_right _ hlt)
      rw [hplace, hf.list, if_neg hcount, if_neg hno] at hp
      exact hp rfl
    · rw [hnohand] at ht
      cases ht
  · rw [hidle]
    trivial

end SimpleRace

/-- In any interleaving, each page is on a free list, handed out or in the hands of one thread, no
two pages handed out share a frame, and no call fails but for want of a page. -/
theorem simple_keeps {s : SimpleRace T}
    (h : (simpleRace T cfg).Reach (fun s a => a.Legal s) s) : s.Kept cfg ∧
      ∀ t a, s.thread t = .failed a → a = .full ∨ a = .noPage := by
  have hI : s.Inv cfg := h.invariant (fun _ => SimpleRace.inv_init) fun _ _ _ hI hl hs => hI.next hl hs
  refine ⟨hI.toKept, fun t a ht => ?_⟩
  have hfit := hI.fits t
  rw [ht] at hfit
  exact hfit

/-- No thread has called yet. -/
def SimpleRace.start (cfg : Config) : Option (SimpleRace Bool) :=
  (simpleInit cfg SimpleState.blank).toOption.map fun r =>
    ⟨r.2, fun _ => .idle, fun _ => false⟩

theorem SimpleRace.start_init {s : SimpleRace Bool} (h : SimpleRace.start cfg = some s) :
    (simpleRace Bool cfg).init s := by
  obtain ⟨r, hr, rfl⟩ := Option.map_eq_some_iff.1 h
  exact ⟨toOption_eq_some.1 hr, fun _ => rfl, fun _ => rfl⟩

/-- Two threads fault at once, and the first removes its page while the second has yet to count
its own. -/
theorem simple_keeps_two : ∃ s : SimpleRace Bool, s.thread true = .put true 0 ∧
    s.thread false = .load true (some 1) ∧ s.Kept fourFrames := by
  obtain ⟨s, hs, hP⟩ := System.drive_reach_of (fun s a => a.next fourFrames s)
    (fun s a => a.Legal s) (S := simpleRace Bool fourFrames) (fun _ _ _ => id) (fun _ _ => id)
    (fun _ => SimpleRace.start_init)
    ([.pagefault true, .pagefault false, .thread true, .thread false, .thread false] ++
      List.replicate 3 (.thread true) ++ [.remove true 0, .thread true])
    (fun s => s.thread true = .put true 0 ∧ s.thread false = .load true (some 1))
    (by decide +kernel)
  obtain ⟨h0, h1⟩ := of_decide_eq_true hP
  exact ⟨s, h0, h1, (simple_keeps hs).1⟩

namespace SimpleRace

variable {s s' : SimpleRace T} {t : T} {p : PageId} {r : SimplePhase} {dram : Bool}

omit [DecidableEq T] in
/-- The tiers of the pages and what has been handed out are as before. -/
theorem out_congr (hr : s'.returned = s.returned)
    (hp : ∀ p, (s'.state.page p).inDram = (s.state.page p).inDram) :
    s'.out cfg dram = s.out cfg dram := by
  unfold out
  rw [hr]
  exact Finset.filter_congr fun p _ => by rw [hp]

omit [DecidableEq T] in
theorem removes_congr (hp : ∀ p, (s'.state.page p).inDram = (s.state.page p).inDram) :
    s'.removes dram r = s.removes dram r := by
  cases r with
  | clear p => exact congrArg (· == dram) (hp p)
  | load _ o | store _ o _ => cases o <;> rfl
  | _ => rfl

omit [DecidableEq T] in
/-- One more page of the tier has been handed out. -/
theorem card_out_add (hp : ∀ p, (s'.state.page p).inDram = (s.state.page p).inDram)
    (hr : s'.returned = update s.returned p true) (hret : s.returned p = false)
    (hlt : p < cfg.pages) :
    (s'.out cfg dram).card =
      (s.out cfg dram).card + if (s.state.page p).inDram = dram then 1 else 0 := by
  split
  · rename_i hd
    have hnot : p ∉ s.out cfg dram := by simp [out, hret]
    have hins : s'.out cfg dram = insert p (s.out cfg dram) := by
      ext q
      rw [Finset.mem_insert]
      simp only [out, Finset.mem_filter, Finset.mem_range, hr, hp, update_apply]
      rcases eq_or_ne q p with rfl | hq
      · simp [hlt, hd]
      · simp [hq]
    rw [hins, Finset.card_insert_of_notMem hnot]
  · rename_i hd
    rw [Nat.add_zero]
    refine congrArg Finset.card ?_
    ext q
    simp only [out, Finset.mem_filter, Finset.mem_range, hr, hp, update_apply]
    rcases eq_or_ne q p with rfl | hq
    · simp [hd]
    · simp [hq]

variable [Fintype T]

/-- The counters are right, and what a thread has read of one is still there. -/
structure Counted (cfg : Config) (s : SimpleRace T) : Prop where
  mem : ∀ dram, s.state.mem dram = pageSize * UInt64.ofNat (s.owed cfg dram)
  read : ∀ t dram o mem, s.thread t = .store dram o mem → mem = s.state.mem dram
  alone : ∀ t t' dram, (s.thread t).updates = some dram → (s.thread t').updates = some dram → t = t'

omit [DecidableEq T] in
theorem mem_removers : t ∈ s.removers dram ↔ s.removes dram (s.thread t) = true := by
  simp [removers]

omit [DecidableEq T] in
/-- One thread has gone on, and removes no more and no less than before. -/
theorem removers_congr (hp : ∀ p, (s'.state.page p).inDram = (s.state.page p).inDram)
    (ho : ∀ t', t' ≠ t → s'.thread t' = s.thread t')
    (ht : s.removes dram (s'.thread t) = s.removes dram (s.thread t)) :
    s'.removers dram = s.removers dram := by
  ext t'
  rw [mem_removers, mem_removers, removes_congr hp]
  rcases eq_or_ne t' t with rfl | htt
  · rw [ht]
  · rw [ho t' htt]

/-- One thread has begun to remove a page of the tier. -/
theorem card_removers_add (hp : ∀ p, (s'.state.page p).inDram = (s.state.page p).inDram)
    (ho : ∀ t', t' ≠ t → s'.thread t' = s.thread t')
    (ht : s.removes dram (s.thread t) = false) (ht' : s.removes dram (s'.thread t) = true) :
    (s'.removers dram).card = (s.removers dram).card + 1 := by
  have hnot : t ∉ s.removers dram := by simp [mem_removers, ht]
  have hins : s'.removers dram = insert t (s.removers dram) := by
    ext t'
    rw [Finset.mem_insert, mem_removers, mem_removers, removes_congr hp]
    rcases eq_or_ne t' t with rfl | htt
    · simp [ht']
    · simp [ho t' htt, htt]
  rw [hins, Finset.card_insert_of_notMem hnot]

/-- Nothing is counted that was not, and no counter has changed. -/
theorem Counted.same (h : Counted cfg s) (hm : s'.state.mem = s.state.mem)
    (ho : ∀ t', t' ≠ t → s'.thread t' = s.thread t')
    (howed : ∀ dram, s'.owed cfg dram = s.owed cfg dram)
    (ht : ∀ dram o mem, s'.thread t = .store dram o mem → mem = s.state.mem dram ∧
      ∀ t', t' ≠ t → (s.thread t').updates ≠ some dram) : Counted cfg s' := by
  have hupd : ∀ t' dram, (s'.thread t').updates = some dram → t' ≠ t →
      (s.thread t').updates = some dram := fun t' d hu htt => by rwa [ho t' htt] at hu
  have hself : ∀ dram, (s'.thread t).updates = some dram →
      ∀ t', t' ≠ t → (s.thread t').updates ≠ some dram := by
    intro d hu
    cases hr : s'.thread t with
    | store d' o m =>
      rw [hr] at hu
      cases hu
      exact (ht _ _ _ hr).2
    | _ =>
      rw [hr] at hu
      cases hu
  refine ⟨fun d => by rw [hm, howed, h.mem], fun t' d o m ht' => ?_, fun t₁ t₂ d h₁ h₂ => ?_⟩
  · rw [hm]
    rcases eq_or_ne t' t with rfl | htt
    · exact (ht d o m ht').1
    · exact h.read t' d o m ((ho t' htt).symm.trans ht')
  · by_cases e₁ : t₁ = t <;> by_cases e₂ : t₂ = t
    · exact e₁.trans e₂.symm
    · subst e₁
      exact (hself d h₁ t₂ e₂ (hupd t₂ d h₂ e₂)).elim
    · subst e₂
      exact (hself d h₂ t₁ e₁ (hupd t₁ d h₁ e₁)).elim
    · exact h.alone t₁ t₂ d (hupd t₁ d h₁ e₁) (hupd t₂ d h₂ e₂)

omit [DecidableEq T] in
/-- A thread writes the counter that it has read. -/
theorem Counted.wrote (h : Counted cfg s) {o : Option PageId} {mem mem' : UInt64}
    (ht : s.thread t = .store dram o mem) (ht' : s'.thread t = .idle)
    (ho : ∀ t', t' ≠ t → s'.thread t' = s.thread t')
    (hm : s'.state.mem = update s.state.mem dram mem')
    (hself : mem' = pageSize * UInt64.ofNat (s'.owed cfg dram))
    (hother : ∀ d, d ≠ dram → s'.owed cfg d = s.owed cfg d) : Counted cfg s' := by
  have hne : ∀ t' d, (s'.thread t').updates = some d → t' ≠ t := by
    rintro t' d hu rfl
    rw [ht'] at hu
    cases hu
  refine ⟨fun d => ?_, fun t' d o m hst => ?_, fun t₁ t₂ d h₁ h₂ => ?_⟩
  · rw [hm]
    rcases eq_or_ne d dram with rfl | hd
    · rw [update_self, hself]
    · rw [update_of_ne hd, hother d hd, h.mem]
  · have htt : t' ≠ t := hne t' d (by rw [hst]; rfl)
    rw [ho t' htt] at hst
    have hd : d ≠ dram := by
      rintro rfl
      exact htt (h.alone t' t d (by rw [hst]; rfl) (by rw [ht]; rfl))
    rw [hm, update_of_ne hd]
    exact h.read t' d o m hst
  · rw [ho t₁ (hne t₁ d h₁)] at h₁
    rw [ho t₂ (hne t₂ d h₂)] at h₂
    exact h.alone t₁ t₂ d h₁ h₂

theorem pageSize_mul_succ (n : ℕ) :
    pageSize * UInt64.ofNat (n + 1) = pageSize * UInt64.ofNat n + pageSize := by
  have hone : UInt64.ofNat 1 = 1 := rfl
  rw [UInt64.ofNat_add, UInt64.mul_add, hone, UInt64.mul_one]

omit [DecidableEq T] in
/-- Only one thread has gone on, and it removes no more and no less than before. -/
theorem owed_congr (hr : s'.returned = s.returned)
    (hp : ∀ p, (s'.state.page p).inDram = (s.state.page p).inDram)
    (ho : ∀ t', t' ≠ t → s'.thread t' = s.thread t')
    (ht : s.removes dram (s'.thread t) = s.removes dram (s.thread t)) :
    s'.owed cfg dram = s.owed cfg dram := by
  unfold owed
  rw [out_congr hr hp, removers_congr hp ho ht]

/-- A thread goes on in a call. -/
theorem Counted.goes (h : Counted cfg s) (hm : s'.state.mem = s.state.mem)
    (hr : s'.returned = s.returned)
    (hp : ∀ p, (s'.state.page p).inDram = (s.state.page p).inDram)
    (hth : s'.thread = update s.thread t r)
    (ht : ∀ dram, s.removes dram r = s.removes dram (s.thread t))
    (hst : ∀ dram o mem, r = .store dram o mem → mem = s.state.mem dram ∧
      ∀ t', t' ≠ t → (s.thread t').updates ≠ some dram) : Counted cfg s' := by
  have ho : ∀ t', t' ≠ t → s'.thread t' = s.thread t' := fun t' htt => by
    rw [hth, update_of_ne htt]
  have hself : s'.thread t = r := by rw [hth, update_self]
  exact h.same hm ho (fun d => owed_congr hr hp ho (by rw [hself, ht])) fun d o mem he =>
    hst d o mem (hself.symm.trans he)

theorem Counted.call (h : Counted cfg s) (hI : Inv cfg s) (ht : s.thread t = .idle)
    (hp : s.returned p = true) (hs : s'.state = s.state)
    (hth : s'.thread = update s.thread t (.clear p))
    (hr : s'.returned = update s.returned p false) : Counted cfg s' := by
  have hlt : p < cfg.pages := hI.owned p (.inl (by simp [place, hp]))
  have ho : ∀ t', t' ≠ t → s'.thread t' = s.thread t' := fun t' htt => by
    rw [hth, update_of_ne htt]
  have hself : s'.thread t = .clear p := by rw [hth, update_self]
  have hd : ∀ q, (s'.state.page q).inDram = (s.state.page q).inDram := fun q => by rw [hs]
  refine h.same (by rw [hs]) ho (fun d => ?_) fun d o mem he => ?_
  · have hout : (s.out cfg d).card =
        (s'.out cfg d).card + if (s'.state.page p).inDram = d then 1 else 0 :=
      card_out_add (fun q => (hd q).symm) (by simp [hr, ← hp]) (by simp [hr]) hlt
    rw [hd] at hout
    unfold owed
    by_cases hpd : (s.state.page p).inDram = d
    · have hadd : (s'.removers d).card = (s.removers d).card + 1 :=
        card_removers_add hd ho (by rw [ht]; rfl) (by simp [hself, removes, hpd])
      rw [if_pos hpd] at hout
      omega
    · have hsame : s'.removers d = s.removers d :=
        removers_congr hd ho (by rw [ht, hself]; simp [removes, hpd])
      rw [if_neg hpd] at hout
      rw [hsame]
      omega
  · rw [hself] at he
    cases he

/-- The removal of a page ends. -/
theorem Counted.removed (h : Counted cfg s) {mem : UInt64} (ht : s.thread t = .store dram none mem)
    (hs : s'.state = { s.state with mem := update s.state.mem dram (mem - pageSize) })
    (hth : s'.thread = update s.thread t .idle) (hr : s'.returned = s.returned) :
    Counted cfg s' := by
  have ho : ∀ t', t' ≠ t → s'.thread t' = s.thread t' := fun t' htt => by
    rw [hth, update_of_ne htt]
  have hself : s'.thread t = .idle := by rw [hth, update_self]
  have hd : ∀ q, (s'.state.page q).inDram = (s.state.page q).inDram := fun q => by rw [hs]
  have hsub : s.owed cfg dram = s'.owed cfg dram + 1 := by
    have hadd : (s.removers dram).card = (s'.removers dram).card + 1 :=
      card_removers_add (fun q => (hd q).symm) (fun t' htt => (ho t' htt).symm)
        (by rw [hself]; rfl) (by rw [ht]; simp [removes])
    unfold owed
    rw [hadd, out_congr hr hd, Nat.add_assoc]
  refine h.wrote ht hself ho (by rw [hs]) ?_ fun d hne => ?_
  · rw [h.read t dram none mem ht, h.mem, hsub, pageSize_mul_succ, UInt64.add_sub_cancel]
  · exact owed_congr hr hd ho (by rw [ht, hself]; simp [removes, hne.symm])

/-- `simple_pagefault` returns. -/
theorem Counted.handOut (h : Counted cfg s) (hI : Inv cfg s) {mem : UInt64}
    (ht : s.thread t = .store dram (some p) mem)
    (hs : s'.state = { s.state with mem := update s.state.mem dram (mem + pageSize) })
    (hth : s'.thread = update s.thread t .idle) (hr : s'.returned = update s.returned p true) :
    Counted cfg s' := by
  have hpage : (s.thread t).page = some p := by rw [ht]; rfl
  have hfit : Fits s.state.page (.store dram (some p) mem) := ht ▸ hI.fits t
  have ho : ∀ t', t' ≠ t → s'.thread t' = s.thread t' := fun t' htt => by
    rw [hth, update_of_ne htt]
  have hself : s'.thread t = .idle := by rw [hth, update_self]
  have hd : ∀ q, (s'.state.page q).inDram = (s.state.page q).inDram := fun q => by rw [hs]
  have howed : ∀ d, s'.owed cfg d = s.owed cfg d + if dram = d then 1 else 0 := fun d => by
    have hout : (s'.out cfg d).card =
        (s.out cfg d).card + if (s.state.page p).inDram = d then 1 else 0 :=
      card_out_add hd hr (hI.off hpage).1 (hI.owned p (.inr ⟨t, hpage⟩))
    have hsame : s'.removers d = s.removers d := removers_congr hd ho (by rw [ht, hself]; rfl)
    rw [hfit.2] at hout
    unfold owed
    rw [hout, hsame]
    omega
  refine h.wrote ht hself ho (by rw [hs]) ?_ fun d hne => ?_
  · rw [h.read t dram _ mem ht, h.mem, howed, if_pos rfl, pageSize_mul_succ]
  · rw [howed, if_neg hne.symm, Nat.add_zero]

theorem Counted.threadStep (h : Counted cfg s) (hI : Inv cfg s)
    (ha : (SimpleAct.thread t).Apart s) (hs : s.threadStep cfg t = some s') : Counted cfg s' := by
  unfold SimpleRace.threadStep at hs
  have hset : ∀ (p q : PageId) (b : Bool),
      (update s.state.page p { s.state.page p with present := b } q).inDram =
        (s.state.page q).inDram := by
    intro p q b
    rcases eq_or_ne q p with rfl | hq
    · simp
    · simp [hq]
  cases ht : s.thread t with
  | idle | failed a =>
    rw [ht] at hs
    cases hs
  | clear p =>
    rw [ht] at hs
    cases hs
    exact h.goes rfl rfl (fun q => hset p q false) rfl (fun d => by rw [ht]; rfl)
      fun _ _ _ he => by cases he
  | put dram p =>
    rw [ht] at hs
    cases hs
    obtain ⟨f, he, -, -⟩ := hI.wf.enqueue (q := dram) (hI.off (by rw [ht]; rfl)).2
    unfold onList
    rw [he]
    exact h.goes rfl rfl (fun _ => rfl) rfl (fun d => by rw [ht]; rfl) fun _ _ _ he => by cases he
  | takeDram =>
    rw [ht] at hs
    cases hs
    unfold onList
    rcases hI.wf.dequeue true with ⟨he, -, -⟩ | ⟨p, f, he, -, -, -, -, -⟩ <;> rw [he]
    all_goals
      exact h.goes rfl rfl (fun _ => rfl) rfl (fun d => by rw [ht]; rfl) fun _ _ _ he => by cases he
  | checkSlow =>
    rw [ht] at hs
    cases hs
    split
    all_goals
      exact h.goes rfl rfl (fun _ => rfl) rfl (fun d => by rw [ht]; rfl) fun _ _ _ he => by cases he
  | takeNvm =>
    rw [ht] at hs
    cases hs
    unfold onList
    rcases hI.wf.dequeue false with ⟨he, -, -⟩ | ⟨p, f, he, -, -, -, -, -⟩ <;> rw [he]
    all_goals
      exact h.goes rfl rfl (fun _ => rfl) rfl (fun d => by rw [ht]; rfl) fun _ _ _ he => by cases he
  | claim dram p =>
    have hfit := hI.fits t
    rw [ht] at hs hfit
    cases hs
    rw [if_neg (by simp [hfit.1])]
    exact h.goes rfl rfl (fun q => hset p q true) rfl (fun d => by rw [ht]; rfl)
      fun _ _ _ he => by cases he
  | load dram o =>
    rw [ht] at hs
    cases hs
    refine h.goes rfl rfl (fun _ => rfl) rfl (fun d => by rw [ht]; cases o <;> rfl)
      fun d o' m he => ?_
    cases he
    exact ⟨rfl, fun t' _ => ha dram (by rw [ht]; rfl) t'⟩
  | store dram o mem =>
    rw [ht] at hs
    cases hs
    cases o with
    | none => exact h.removed ht rfl rfl rfl
    | some p => exact h.handOut hI ht rfl rfl rfl

theorem Counted.next {a : SimpleAct T} (h : Counted cfg s) (hI : Inv cfg s) (hl : a.Legal s)
    (ha : a.Apart s) (hs : a.next cfg s = some s') : Counted cfg s' := by
  cases a with
  | remove t p =>
    simp only [SimpleAct.next] at hs
    split at hs
    · rename_i ht
      cases hs
      exact h.call hI ht hl rfl rfl rfl
    · cases hs
  | pagefault t =>
    simp only [SimpleAct.next] at hs
    split at hs
    · rename_i ht
      cases hs
      exact h.goes rfl rfl (fun _ => rfl) rfl (fun d => by rw [ht]; rfl) fun _ _ _ he => by cases he
    · cases hs
  | thread t => exact h.threadStep hI ha hs

theorem counted_init (hs : (simpleRace T cfg).init s) : Counted cfg s := by
  obtain ⟨hinit, hidle, hret⟩ := hs
  have hf : s.state.Fresh cfg := simpleInit_fresh.ok hinit
  refine ⟨fun d => ?_, fun t d o m ht => ?_, fun t t' d ht => ?_⟩
  · have howed : s.owed cfg d = 0 := by
      simp [owed, out, removers, hret, hidle, removes]
    rw [howed, hf.mem]
    rfl
  · rw [hidle] at ht
    cases ht
  · rw [hidle] at ht
    cases ht

end SimpleRace

omit [DecidableEq T] in
/-- With no thread else in a call and a page of NVM free, `slowmem` is below `nvmsize`. -/
theorem SimpleRace.Counted.room [Fintype T] {s : SimpleRace T} {t : T} {p : PageId}
    (h : s.Counted cfg) (hI : s.Inv cfg) (ho : ∀ t', t' ≠ t → s.thread t' = .idle)
    (ht : s.thread t = .checkSlow) (hp : s.state.fifo.listOf p = some false) :
    s.state.mem false < cfg.size false := by
  have hnone : s.removers false = ∅ := by
    refine Finset.eq_empty_of_forall_notMem fun t' hm => ?_
    rw [mem_removers] at hm
    rcases eq_or_ne t' t with rfl | htt
    · rw [ht] at hm
      cases hm
    · rw [ho t' htt] at hm
      cases hm
  have hplt : p < cfg.pages := by
    refine hI.owned p (.inl ?_)
    simp [place, (hI.free p false hp).1, hp]
  have hnvm : ∀ q < cfg.pages, (s.state.page q).inDram = false → cfg.count true ≤ q :=
    fun q hq hd => by
      rw [hI.tier q hq] at hd
      exact Nat.not_lt.1 (by simpa using hd)
  have hsub : s.out cfg false ⊆ (Finset.Ico (cfg.count true) cfg.pages).erase p := by
    intro q hq
    obtain ⟨hq, hret, hd⟩ := Finset.mem_filter.1 hq
    have hqlt := Finset.mem_range.1 hq
    refine Finset.mem_erase.2 ⟨?_, Finset.mem_Ico.2 ⟨hnvm q hqlt hd, hqlt⟩⟩
    rintro rfl
    rw [(hI.free q false hp).1] at hret
    cases hret
  have hcard := Finset.card_le_card hsub
  rw [Finset.card_erase_of_mem (Finset.mem_Ico.2 ⟨hnvm p hplt (hI.free p false hp).2.2, hplt⟩),
    Nat.card_Ico] at hcard
  have hcount : cfg.pages - cfg.count true = cfg.count false := Nat.add_sub_cancel_left _ _
  have hpos : cfg.count true < cfg.pages :=
    Nat.lt_of_le_of_lt (hnvm p hplt (hI.free p false hp).2.2) hplt
  have hle := count_mul_le cfg false
  have hsize : (cfg.size false).toNat < 2 ^ 64 := UInt64.toNat_lt _
  have howed : s.owed cfg false = (s.out cfg false).card := by
    unfold owed
    rw [hnone, Finset.card_empty, Nat.add_zero]
  have hpage : pageSize.toNat = 2 ^ 21 := rfl
  rw [hpage] at hle
  rw [UInt64.lt_iff_toNat_lt, h.mem, howed, UInt64.toNat_mul, hpage,
    UInt64.toNat_ofNat_of_lt' (by change _ < 2 ^ 64; omega), Nat.mod_eq_of_lt (by omega)]
  omega

/-- As long as no two updates of a counter meet, `fastmem` and `slowmem` count the pages that are
handed out or are being taken back, and a call alone fails only where no page is free. -/
theorem simple_accounts [Fintype T] {s : SimpleRace T}
    (h : (simpleRace T cfg).Reach (fun s a => a.Legal s ∧ a.Apart s) s) :
    (∀ dram, s.state.mem dram = pageSize * UInt64.ofNat (s.owed cfg dram)) ∧
      ∀ t p, (∀ t', t' ≠ t → s.thread t' = .idle) → s.thread t = .checkSlow →
        s.state.fifo.listOf p = some false → s.state.mem false < cfg.size false := by
  obtain ⟨hI, hc⟩ : s.Inv cfg ∧ s.Counted cfg :=
    h.invariant (I := fun s => s.Inv cfg ∧ s.Counted cfg)
      (fun _ hs => ⟨SimpleRace.inv_init hs, SimpleRace.counted_init hs⟩)
      fun _ _ _ ⟨hI, hc⟩ ⟨hl, ha⟩ hs => ⟨hI.next hl hs, hc.next hI hl ha hs⟩
  exact ⟨hc.mem, fun t p ho ht hp => hc.room hI ho ht hp⟩

/-- The fourth call, with one page of NVM left. -/
theorem simple_accounts_fourth : ∃ s : SimpleRace Bool, s.thread true = .checkSlow ∧
    s.state.mem true = pageSize * UInt64.ofNat (s.owed fourFrames true) ∧
    s.state.mem false < fourFrames.size false := by
  obtain ⟨s, hs, hP⟩ := System.drive_reach_of (fun s a => a.next fourFrames s)
    (fun s a => a.Legal s ∧ a.Apart s) (S := simpleRace Bool fourFrames) (fun _ _ _ => id)
    (fun _ _ => id) (fun _ => SimpleRace.start_init)
    (.pagefault true :: List.replicate 4 (.thread true) ++
      .pagefault true :: List.replicate 4 (.thread true) ++
      .pagefault true :: List.replicate 6 (.thread true) ++ [.pagefault true, .thread true])
    (fun s => s.thread true = .checkSlow ∧ s.thread false = .idle ∧
      s.state.fifo.listOf 3 = some false) (by decide +kernel)
  obtain ⟨h0, h1, h2⟩ := of_decide_eq_true hP
  obtain ⟨hm, hroom⟩ := simple_accounts hs
  refine ⟨s, h0, hm true, hroom true 3 (fun t' ht' => ?_) h0 h2⟩
  cases t' with
  | true => exact (ht' rfl).elim
  | false => exact h1

/-- Where they meet, an update is lost: two pages have been handed out and one is counted. -/
theorem simple_update_lost : ∃ s : SimpleRace Bool,
    (simpleRace Bool fourFrames).Reach (fun s a => a.Legal s) s ∧ s.state.mem true = pageSize ∧
      s.returned 0 = true ∧ s.returned 1 = true ∧ ∀ t, s.thread t = .idle := by
  obtain ⟨s, hs, hP⟩ := System.drive_reach_of (fun s a => a.next fourFrames s)
    (fun s a => a.Legal s) (S := simpleRace Bool fourFrames) (fun _ _ _ => id) (fun _ _ => id)
    (fun _ => SimpleRace.start_init)
    ([.pagefault true, .pagefault false, .thread true, .thread true, .thread true] ++
      List.replicate 4 (.thread false) ++ [.thread true])
    (fun s => s.state.mem true = pageSize ∧ s.returned 0 = true ∧ s.returned 1 = true ∧
      ∀ t, s.thread t = .idle) (by decide +kernel)
  exact ⟨s, hs, of_decide_eq_true hP⟩

end HeMem

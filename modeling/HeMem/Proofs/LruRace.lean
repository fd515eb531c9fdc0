import HeMem.LruRace
import HeMem.Proofs.Lru

/-!
# A removal beside a scan

A page that is on no list is in the scanner's hands or about to be put on its free list, and never
both.  A remover that reads `page->list` outside the scanner's hands finds a list, and the page
stays on it until it takes it off, unless the scanner does.
-/

namespace HeMem

open Hoare Function

variable {T : Type} {cfg : Config} {kernel : Kernel}

namespace LruRace

variable {s s' : LruRace T} {t : T} {p : PageId} {q : LruList} {l l' : LruState}
  {r r' : RemovePhase}

/-- Where a remover has its page. -/
def Stands (l : LruState) : RemovePhase → Prop
  | .remove p q => l.fifo.listOf p = some q
  | .enqueue p => l.fifo.listOf p = none
  | .unlock p => l.fifo.listOf p = some (lruFreeList (l.page p).inDram)
  | .failed _ => False
  | _ => True

structure Inv (cfg : Config) (s : LruRace T) : Prop where
  wf : s.lru.fifo.Wf
  known : ∀ t p, (s.remover t).page = some p → p < cfg.pages
  alone : ∀ t t' p, (s.remover t).page = some p → (s.remover t').page = some p → t = t'
  stands : ∀ t, Stands s.lru (s.remover t)
  held : ∀ p, s.scan.page = some p → s.lru.fifo.listOf p = none ∧ ∀ t, s.remover t ≠ .enqueue p
  lost : ∀ p < cfg.pages, s.lru.fifo.listOf p = none →
    s.scan.page = some p ∨ ∃ t, s.remover t = .enqueue p

theorem reading_iff : r.reading = some p ↔ r = .readList p := by
  cases r <;> simp [RemovePhase.reading]

theorem removing_iff : r.removing = some p ↔ ∃ q, r = .remove p q := by
  cases r <;> simp [RemovePhase.removing]

theorem Stands.congr (h : Stands l r) (hl : ∀ x, r.page = some x →
    l'.fifo.listOf x = l.fifo.listOf x ∧ (l'.page x).inDram = (l.page x).inDram) :
    Stands l' r := by
  cases r with
  | remove x q => exact (hl x rfl).1.trans h
  | enqueue x => exact (hl x rfl).1.trans h
  | unlock x =>
    obtain ⟨h1, h2⟩ := hl x rfl
    change l'.fifo.listOf x = some (lruFreeList (l'.page x).inDram)
    rw [h1, h2]
    exact h
  | _ => exact h

theorem after_eq_some {α : Type} {m : LruM α} {a : α} (h : s.after m = some (a, s')) :
    ∃ l, m s.lru = .ok (a, l) ∧ s' = { s with lru := l } := by
  obtain ⟨⟨b, l⟩, hm, hl⟩ := Option.map_eq_some_iff.1 h
  cases hl
  exact ⟨l, toOption_eq_some.1 hm, rfl⟩

theorem Inv.setLock (h : s.Inv cfg) {x : Option T} :
    ({ s with globalLock := x } : LruRace T).Inv cfg :=
  ⟨h.wf, h.known, h.alone, h.stands, h.held, h.lost⟩

theorem Inv.other (h : s.Inv cfg) {x : T} (hx : x ≠ t) (hp : (s.remover t).page = some p) :
    (s.remover x).page ≠ some p :=
  fun hxp => hx (h.alone x t p hxp hp)

/-- The scanner goes on with nothing in its hands. -/
theorem Inv.scan (h : s.Inv cfg) (hn : s.scan.page = none) {k : ScanPhase} (hk : k.page = none) {b : Bool}
    {v : List UInt64} : ({ s with inKscand := b, lru := { s.lru with vas := v }, scan := k } :
      LruRace T).Inv cfg := by
  refine ⟨h.wf, h.known, h.alone, fun x => (h.stands x).congr fun _ _ => ⟨rfl, rfl⟩,
    fun p hp => ?_, fun p hp hl => ?_⟩
  · rw [show k.page = some p from hp] at hk
    cases hk
  · refine (h.lost p hp hl).imp_left fun hs => ?_
    rw [hn] at hs
    cases hs

/-- The scanner takes a page that no remover is about to take. -/
theorem Inv.take (h : s.Inv cfg) (hn : s.scan.page = none) {k : ScanPhase} (hk : k.page = some p)
    (hf : q.free = false) (hp : s.lru.fifo.listOf p = some q) (hw : l.fifo.Wf)
    (hl : l.fifo.listOf = update s.lru.fifo.listOf p none) (hh : l.page = s.lru.page)
    (hc : ∀ t q, s.remover t ≠ .remove p q) :
    ({ s with lru := l, scan := k } : LruRace T).Inv cfg := by
  have hne : ∀ t, s.remover t ≠ .enqueue p := fun t ht => by
    have hs := h.stands t
    rw [ht] at hs
    rw [show s.lru.fifo.listOf p = none from hs] at hp
    cases hp
  have hun : ∀ t, s.remover t ≠ .unlock p := fun t ht => by
    have hs := h.stands t
    rw [ht] at hs
    rw [show s.lru.fifo.listOf p = _ from hs] at hp
    cases hp
    rw [free_lruFreeList] at hf
    cases hf
  have hother : ∀ y, y ≠ p → l.fifo.listOf y = s.lru.fifo.listOf y := fun y hy => by
    rw [hl, update_of_ne hy]
  refine ⟨hw, h.known, h.alone, fun x => ?_, fun y hy => ?_, fun y hy hny => ?_⟩
  · have hs := h.stands x
    change Stands l (s.remover x)
    rcases hx : s.remover x with _ | y | y | y | ⟨y, q'⟩ | y | y | y <;> rw [hx] at hs
    · trivial
    · trivial
    · trivial
    · trivial
    · exact (hother y fun hy => hc x q' (hy ▸ hx)).trans hs
    · exact (hother y fun hy => hne x (hy ▸ hx)).trans hs
    · refine hs.congr fun z hz => ?_
      cases hz
      exact ⟨hother y fun hy => hun x (hy ▸ hx), by rw [hh]⟩
    · exact hs
  · rw [show k.page = some y from hy] at hk
    cases hk
    exact ⟨by simp [hl], hne⟩
  · rcases eq_or_ne y p with rfl | hyp
    · exact .inl hk
    · refine (h.lost y hy (hother y hyp ▸ hny)).imp_left fun hs => ?_
      rw [hn] at hs
      cases hs

/-- The scanner puts the page in its hands on a list. -/
theorem Inv.put (h : s.Inv cfg) (hp : s.scan.page = some p) {k : ScanPhase} (hk : k.page = none) (hw : l.fifo.Wf)
    (hl : l.fifo.listOf = update s.lru.fifo.listOf p (some q)) (hh : l.hemem = s.lru.hemem) :
    ({ s with lru := l, scan := k } : LruRace T).Inv cfg := by
  obtain ⟨hnone, hne⟩ := h.held p hp
  have hpage : l.page = s.lru.page := congrArg State.page hh
  have hother : ∀ y, y ≠ p → l.fifo.listOf y = s.lru.fifo.listOf y := fun y hy => by
    rw [hl, update_of_ne hy]
  refine ⟨hw, h.known, h.alone, fun x => ?_, fun y hy => ?_, fun y hy hny => ?_⟩
  · have hs := h.stands x
    change Stands l (s.remover x)
    rcases hx : s.remover x with _ | y | y | y | ⟨y, q'⟩ | y | y | y <;> rw [hx] at hs
    · trivial
    · trivial
    · trivial
    · trivial
    · refine (hother y fun hy => ?_).trans hs
      rw [hy] at hs
      rw [show s.lru.fifo.listOf p = _ from hs] at hnone
      cases hnone
    · exact (hother y fun hy => hne x (hy ▸ hx)).trans hs
    · refine hs.congr fun z hz => ?_
      cases hz
      refine ⟨hother y fun hy => ?_, by rw [hpage]⟩
      rw [hy] at hs
      rw [show s.lru.fifo.listOf p = _ from hs] at hnone
      cases hnone
    · exact hs
  · rw [show k.page = some y from hy] at hk
    cases hk
  · have hyp : y ≠ p := fun hyp => by simp [hyp, hl] at hny
    refine (h.lost y hy (hother y hyp ▸ hny)).imp_left fun hs => ?_
    rw [hp] at hs
    cases hs
    exact absurd rfl hyp

theorem Inv.safe (h : s.Inv cfg) : s.Safe := fun t => by
  have hs := h.stands t
  rcases hr : s.remover t with _ | p | p | p | ⟨p, q⟩ | p | p | p <;> rw [hr] at hs
  · trivial
  · trivial
  · trivial
  · trivial
  · exact hs
  · trivial
  · intro q
    rw [List.Nodup.count h.wf.nodup_contents]
    simp only [h.wf.mem_contents, show s.lru.fifo.listOf p = _ from hs, Option.some.injEq, eq_comm]
  · exact hs

theorem onLists_ok {α : Type} {m : FifoM LruList PageId α} {a : α} {l : LruState} :
    onLists m s.lru = .ok (a, l) ↔ ∃ h, m s.lru.fifo = .ok (a, h) ∧ l = { s.lru with fifo := h } := by
  unfold onLists
  rcases m s.lru.fifo with e | ⟨b, h⟩ <;> simp [eq_comm]

/-- What a `dequeue_fifo` of the scanner takes. -/
theorem Inv.dequeue (h : s.Inv cfg) {r : Option PageId} {l : LruState}
    (hr : onLists (dequeueFifo q) s.lru = .ok (r, l)) : (s.lru.fifo.list q).last = r ∧
      (r = none ∧ l = s.lru ∨ ∃ p, r = some p ∧ s.lru.fifo.listOf p = some q ∧ l.fifo.Wf ∧
        l.fifo.listOf = update s.lru.fifo.listOf p none ∧ l.page = s.lru.page) := by
  obtain ⟨f, hf, rfl⟩ := onLists_ok.1 hr
  rw [h.wf.last_eq]
  rcases h.wf.dequeue q with ⟨he, hc, -⟩ | ⟨p, f', he, hw, hc, hp, hl, -⟩ <;> rw [he] at hf <;>
    cases hf
  · rw [hc]
    exact ⟨rfl, .inl ⟨rfl, rfl⟩⟩
  · rw [hc, List.getLast?_append, List.getLast?_singleton]
    exact ⟨rfl, .inr ⟨p, rfl, hp, hw, hl, rfl⟩⟩

section Remover

variable [DecidableEq T]

theorem goto_remover {x : T} : (s.goto t r).remover x = if x = t then r else s.remover x :=
  update_apply ..

namespace Inv

variable (h : s.Inv cfg)
include h

/-- A remover goes on and the lists stay as they are. -/
theorem goto (hr : ∀ x, r.page = some x → (s.remover t).page = some x) (hs : Stands s.lru r)
    (ho : ∀ x, s.remover t ≠ .enqueue x) (hn : ∀ x, r ≠ .enqueue x) :
    (s.goto t r).Inv cfg := by
  have hpage : ∀ x p, ((s.goto t r).remover x).page = some p → (s.remover x).page = some p := by
    intro x p hx
    rw [goto_remover] at hx
    split_ifs at hx with hxt
    · exact hxt ▸ hr p hx
    · exact hx
  have hput : ∀ x p, (s.goto t r).remover x = .enqueue p ↔ s.remover x = .enqueue p := by
    intro x p
    rw [goto_remover]
    split_ifs with hxt
    · exact iff_of_false (hn p) (hxt ▸ ho p)
    · rfl
  refine ⟨h.wf, fun x p hx => h.known x p (hpage x p hx), fun x y p hx hy =>
    h.alone x y p (hpage x p hx) (hpage y p hy), fun x => ?_, fun p hp => ?_, fun p hp hl => ?_⟩
  · rw [goto_remover]
    split_ifs
    · exact hs
    · exact h.stands x
  · exact ⟨(h.held p hp).1, fun x hx => (h.held p hp).2 x ((hput x p).1 hx)⟩
  · exact (h.lost p hp hl).imp_right fun ⟨x, hx⟩ => ⟨x, (hput x p).2 hx⟩

theorem call (hi : s.remover t = .idle) (hp : p < cfg.pages)
    (hn : ∀ x, (s.remover x).page ≠ some p) : (s.goto t (.wait p)).Inv cfg := by
  have hpage : ∀ x y, ((s.goto t (.wait p)).remover x).page = some y →
      x = t ∧ y = p ∨ (s.remover x).page = some y := by
    intro x y hx
    rw [goto_remover] at hx
    split_ifs at hx with hxt
    · cases hx
      exact .inl ⟨hxt, rfl⟩
    · exact .inr hx
  have hput : ∀ x y, (s.goto t (.wait p)).remover x = .enqueue y ↔ s.remover x = .enqueue y := by
    intro x y
    rw [goto_remover]
    split_ifs with hxt
    · simp [hxt, hi]
    · rfl
  refine ⟨h.wf, fun x y hx => ?_, fun x x' y hx hx' => ?_, fun x => ?_, fun y hy => ?_,
    fun y hy hl => ?_⟩
  · rcases hpage x y hx with ⟨-, rfl⟩ | hx
    · exact hp
    · exact h.known x y hx
  · rcases hpage x y hx with ⟨hxt, hyp⟩ | hx <;> rcases hpage x' y hx' with ⟨hxt', hyp'⟩ | hx'
    · rw [hxt, hxt']
    · exact absurd (hyp ▸ hx') (hn x')
    · exact absurd (hyp' ▸ hx) (hn x)
    · exact h.alone x x' y hx hx'
  · rw [goto_remover]
    split_ifs
    · trivial
    · exact h.stands x
  · exact ⟨(h.held y hy).1, fun x hx => (h.held y hy).2 x ((hput x y).1 hx)⟩
  · exact (h.lost y hy hl).imp_right fun ⟨x, hx⟩ => ⟨x, (hput x y).2 hx⟩

/-- A remover takes its page off its list. -/
theorem remove (hr : s.remover t = .remove p q) (hw : l.fifo.Wf)
    (hl : l.fifo.listOf = update s.lru.fifo.listOf p none) (hp : l.page = s.lru.page) :
    (({ s with lru := l } : LruRace T).goto t (.enqueue p)).Inv cfg := by
  have hlist : s.lru.fifo.listOf p = some q := by
    have hs := h.stands t
    rwa [hr] at hs
  have hpage : (s.remover t).page = some p := by rw [hr]; rfl
  have hscan : s.scan.page ≠ some p := fun hs => by
    rw [(h.held p hs).1] at hlist
    cases hlist
  have hother : ∀ y, y ≠ p → l.fifo.listOf y = s.lru.fifo.listOf y := fun y hy => by
    rw [hl, update_of_ne hy]
  have hsame : ∀ x y, ((({ s with lru := l } : LruRace T).goto t (.enqueue p)).remover x).page =
      some y ↔ (s.remover x).page = some y := by
    intro x y
    rw [goto_remover]
    split_ifs with hxt
    · rw [hxt, hpage]
      rfl
    · rfl
  refine ⟨hw, fun x y hx => h.known x y ((hsame x y).1 hx), fun x x' y hx hx' =>
    h.alone x x' y ((hsame x y).1 hx) ((hsame x' y).1 hx'), fun x => ?_, fun y hy => ?_,
    fun y hy hn => ?_⟩
  · rw [goto_remover]
    split_ifs with hxt
    · change l.fifo.listOf p = none
      simp [hl]
    · refine (h.stands x).congr fun y hy => ⟨?_, congrArg HememPage.inDram (congrFun hp y)⟩
      exact hother y fun hyp => h.other hxt hpage (hyp ▸ hy)
  · have hyp : y ≠ p := fun hyp => hscan (hyp ▸ hy)
    refine ⟨(hother y hyp).trans (h.held y hy).1, fun x hx => ?_⟩
    rw [goto_remover] at hx
    split_ifs at hx
    · cases hx
      exact hyp rfl
    · exact (h.held y hy).2 x hx
  · rcases eq_or_ne y p with rfl | hyp
    · exact .inr ⟨t, by simp [goto_remover]⟩
    · refine (h.lost y hy ((hother y hyp).symm.trans hn)).imp_right fun ⟨x, hx⟩ => ⟨x, ?_⟩
      have hxt : x ≠ t := fun hxt => by
        rw [hxt, hr] at hx
        cases hx
      rw [goto_remover, if_neg hxt]
      exact hx

/-- A remover puts its page on its free list. -/
theorem enqueue (hr : s.remover t = .enqueue p) (hw : l.fifo.Wf)
    (hl : l.fifo.listOf = update s.lru.fifo.listOf p (some (lruFreeList (l.page p).inDram)))
    (hp : ∀ x, (l.page x).inDram = (s.lru.page x).inDram) :
    (({ s with lru := l } : LruRace T).goto t (.unlock p)).Inv cfg := by
  have hpage : (s.remover t).page = some p := by rw [hr]; rfl
  have hother : ∀ y, y ≠ p → l.fifo.listOf y = s.lru.fifo.listOf y := fun y hy => by
    rw [hl, update_of_ne hy]
  have hsame : ∀ x y, ((({ s with lru := l } : LruRace T).goto t (.unlock p)).remover x).page =
      some y ↔ (s.remover x).page = some y := by
    intro x y
    rw [goto_remover]
    split_ifs with hxt
    · rw [hxt, hpage]
      rfl
    · rfl
  refine ⟨hw, fun x y hx => h.known x y ((hsame x y).1 hx), fun x x' y hx hx' =>
    h.alone x x' y ((hsame x y).1 hx) ((hsame x' y).1 hx'), fun x => ?_, fun y hy => ?_,
    fun y hy hn => ?_⟩
  · rw [goto_remover]
    split_ifs with hxt
    · change l.fifo.listOf p = some (lruFreeList (l.page p).inDram)
      simp [hl]
    · refine (h.stands x).congr fun y hy => ⟨?_, hp y⟩
      exact hother y fun hyp => h.other hxt hpage (hyp ▸ hy)
  · have hyp : y ≠ p := fun hyp => (h.held y hy).2 t (hyp ▸ hr)
    refine ⟨(hother y hyp).trans (h.held y hy).1, fun x hx => ?_⟩
    rw [goto_remover] at hx
    split_ifs at hx
    exact (h.held y hy).2 x hx
  · have hyp : y ≠ p := fun hyp => by
      have hlp : l.fifo.listOf p = none := hyp ▸ hn
      simp [hl] at hlp
    refine (h.lost y hy ((hother y hyp).symm.trans hn)).imp_right fun ⟨x, hx⟩ => ⟨x, ?_⟩
    have hxt : x ≠ t := fun hxt => by
      rw [hxt, hr] at hx
      cases hx
      exact hyp rfl
    rw [goto_remover, if_neg hxt]
    exact hx

theorem readList (hr : s.remover t = .readList p) (hn : s.removeStep t = some s') :
    if s.scan.page = some p then ¬ s'.Safe else s'.Inv cfg := by
  unfold LruRace.removeStep at hn
  rw [hr] at hn
  dsimp only at hn
  split_ifs with hp
  · rw [(h.held p hp).1] at hn
    cases hn
    intro hs
    have hf := hs t
    rw [goto_remover, if_pos rfl] at hf
    exact hf
  · rcases hl : s.lru.fifo.listOf p with _ | q <;> rw [hl] at hn <;> cases hn
    · rcases h.lost p (h.known t p (by rw [hr]; rfl)) hl with hs | ⟨x, hx⟩
      · exact absurd hs hp
      · have hxt := h.alone x t p (by rw [hx]; rfl) (by rw [hr]; rfl)
        rw [hxt, hr] at hx
        cases hx
    · exact h.goto (fun x hx => by rw [hr]; exact hx) hl (fun x => by simp [hr]) (by simp)

theorem removeStep (hr : ∀ p, s.remover t ≠ .readList p) (hn : s.removeStep t = some s') :
    s'.Inv cfg := by
  unfold LruRace.removeStep at hn
  rcases hp : s.remover t with _ | p | p | p | ⟨p, q⟩ | p | p | p <;> simp only [hp] at hn
  · cases hn
  · obtain ⟨-, hn⟩ := Option.ite_none_left_eq_some.1 hn
    cases hn
    exact h.goto (fun x hx => by rw [hp]; exact hx) trivial (fun x => by simp [hp]) (by simp)
  · obtain ⟨-, hn⟩ := Option.ite_none_right_eq_some.1 hn
    cases hn
    exact h.setLock.goto (fun x hx => (congrArg RemovePhase.page hp).trans hx) trivial
      (fun x => by simp [hp]) (by simp)
  · exact absurd hp (hr p)
  · obtain ⟨⟨⟨⟩, u⟩, hu, rfl⟩ := Option.map_eq_some_iff.1 hn
    obtain ⟨l, hl, rfl⟩ := after_eq_some hu
    have hs := h.stands t
    rw [hp] at hs
    obtain ⟨h', he, hw, hlist⟩ := h.wf.remove hs
    have hok : l = { s.lru with fifo := h' } := by
      unfold onLists at hl
      rw [he] at hl
      cases hl
      rfl
    subst hok
    exact h.remove hp hw hlist rfl
  · obtain ⟨⟨⟨⟩, u⟩, hu, rfl⟩ := Option.map_eq_some_iff.1 hn
    obtain ⟨l, hl, rfl⟩ := after_eq_some hu
    have hs := h.stands t
    rw [hp] at hs
    have hput : Sat (onHemem (modifyPage p ({ · with present := false })) >>= fun _ =>
        get >>= fun l => onLists (enqueueFifo (lruFreeList (l.page p).inDram) p))
        (fun _ l => ∃ h, h.Wf ∧ h.listOf = update s.lru.fifo.listOf p
            (some (lruFreeList (s.lru.page p).inDram)) ∧
          l = { s.lru.edit p ({ · with present := false }) with fifo := h })
        (fun _ => True) s.lru := by
      rw [sat_editPage, sat_bind, sat_get]
      have hin : ((s.lru.edit p ({ · with present := false })).page p).inDram =
          (s.lru.page p).inDram := by
        simp
      rw [hin]
      exact sat_enqueue h.wf hs
    obtain ⟨h', hw, hlist, rfl⟩ := hput.ok hl
    have hin : ∀ x, (update s.lru.page p { s.lru.page p with present := false } x).inDram =
        (s.lru.page x).inDram := fun x => by
      rcases eq_or_ne x p with rfl | hx
      · simp
      · simp [hx]
    refine h.enqueue hp hw ?_ hin
    rw [hlist]
    congr 2
    exact congrArg lruFreeList (hin p).symm
  · cases hn
    exact h.setLock.goto (fun x hx => by cases hx) trivial (fun x => by simp [hp]) (by simp)
  · cases hn

end Inv

end Remover

section Scanner

variable {bits : PageId → UInt64}

theorem body_relists {dram : Bool} (k : Sweep) :
    Relists p (activeOf dram) (inactiveOf dram) (writtenOf dram) (k.body dram bits p) := by
  cases k with
  | checkWrites => exact checkPage_relists
  | shrinkCaches => exact shrinkPage_relists
  | expandCaches => exact expandPage_relists

/-- The scanner takes a page that a remover is about to take off its list. -/
theorem Inv.scanStep_unsafe (h : s.Inv cfg) (hp : s.takes = some p) (hr : s.remover t = .remove p q)
    (hn : s.scanStep bits = some s') : ¬ s'.Safe := by
  unfold takes at hp
  unfold LruRace.scanStep at hn
  split at hp
  · rename_i k dram rest n hk
    rw [hk] at hn
    obtain ⟨⟨r, u⟩, hu, rfl⟩ := Option.map_eq_some_iff.1 hn
    obtain ⟨l, hl, rfl⟩ := after_eq_some hu
    obtain ⟨hlast, ⟨rfl, -⟩ | ⟨x, rfl, -, -, hlist, -⟩⟩ := h.dequeue hl
    · rw [hlast] at hp
      cases hp
    · rw [hlast] at hp
      cases hp
      intro hs
      have hs := hs t
      rw [show LruRace.remover _ t = _ from hr] at hs
      have hq : l.fifo.listOf p = some q := hs
      simp [hlist] at hq
  · cases hp

theorem Inv.scanStep (h : s.Inv cfg) (hc : ∀ p ∈ s.takes, ∀ t q, s.remover t ≠ .remove p q)
    (hn : s.scanStep bits = some s') : s'.Inv cfg := by
  unfold LruRace.scanStep at hn
  unfold takes at hc
  split at hn
  · rename_i hk
    cases hn
    exact h.scan (by rw [hk]; rfl) rfl
  · rename_i hk
    cases hn
    exact h.scan (by rw [hk]; rfl) rfl
  · rename_i hk
    cases hn
    exact h.scan (by rw [hk]; rfl) rfl
  · rename_i hk
    cases hn
    exact h.scan (by rw [hk]; rfl) rfl
  · rename_i k dram rest n hk
    rw [hk] at hc
    obtain ⟨⟨r, u⟩, hu, rfl⟩ := Option.map_eq_some_iff.1 hn
    obtain ⟨l, hl, rfl⟩ := after_eq_some hu
    obtain ⟨hlast, ⟨rfl, rfl⟩ | ⟨p, rfl, hp, hw, hlist, hpage⟩⟩ := h.dequeue hl
    · exact h.scan (by rw [hk]; rfl) rfl
    · exact h.take (by rw [hk]; rfl) rfl (k.free_source) hp hw hlist hpage (hc p hlast)
  · rename_i k dram rest n p hk
    obtain ⟨⟨⟨⟩, u⟩, hu, rfl⟩ := Option.map_eq_some_iff.1 hn
    obtain ⟨l, hl, rfl⟩ := after_eq_some hu
    have hp : s.scan.page = some p := by rw [hk]; rfl
    obtain ⟨hw, hh, q, -, hlist⟩ := (body_relists k s.lru h.wf (h.held p hp).1).ok hl
    exact h.put hp rfl hw hlist hh

end Scanner

variable [DecidableEq T]

theorem Inv.step (h : s.Inv cfg) {a : RaceAct T} (hl : a.Legal cfg s) (hn : a.next s = some s') :
    (a.Clear s → s'.Inv cfg) ∧ (s'.Safe → a.Clear s) := by
  cases a with
  | call t p =>
    obtain ⟨hi, hn⟩ := Option.ite_none_right_eq_some.1 hn
    cases hn
    exact ⟨fun _ => h.call hi hl.1 hl.2.2, fun _ => trivial⟩
  | remover t =>
    by_cases hr : ∃ p, s.remover t = .readList p
    · obtain ⟨p, hr⟩ := hr
      have hstep := h.readList hr hn
      have hread : (s.remover t).reading = some p := by rw [hr]; rfl
      split_ifs at hstep with hp
      · exact ⟨fun hc => absurd hp (hc p hread), fun hs => absurd hs hstep⟩
      · refine ⟨fun _ => hstep, fun _ x hx => ?_⟩
        rw [hread] at hx
        cases hx
        exact hp
    · have hne : ∀ p, s.remover t ≠ .readList p := fun p hp => hr ⟨p, hp⟩
      exact ⟨fun _ => h.removeStep hne hn, fun _ p hp => absurd (reading_iff.1 hp) (hne p)⟩
  | scanner bits =>
    refine ⟨fun hc => h.scanStep (fun p hp t q hr => ?_) hn, fun hs p hp t hr => ?_⟩
    · exact hc p hp t (removing_iff.2 ⟨q, hr⟩)
    · obtain ⟨q, hr⟩ := removing_iff.1 hr
      exact h.scanStep_unsafe hp hr hn hs

theorem Inv.initial (hs : (lruRace T cfg kernel).init s) : s.Inv cfg := by
  obtain ⟨lru, hr, rfl⟩ := hs
  have hok := lru_reach hr
  exact ⟨hok.1, fun t p hp => (by cases hp), fun t _ p hp => (by cases hp), fun t => trivial,
    fun p hp => (by cases hp), fun p hp hl => absurd hl ((hok.2.each p).listed.2 hp)⟩

end LruRace

section Main

variable [DecidableEq T] {s : LruRace T}

/-- While no remover reads `page->list` of a page in the scanner's hands, and the scanner takes no
page between that read and its removal, removals are safe; and they are after the next step exactly
if that is such a step. -/
theorem lru_removal_safe (h : (lruRace T cfg kernel).Reach
      (fun s a => a.Legal cfg s ∧ a.Clear s) s) :
    s.Safe ∧ ∀ (a : RaceAct T) (s' : LruRace T), a.Legal cfg s → a.next s = some s' →
      (s'.Safe ↔ a.Clear s) := by
  have hI : s.Inv cfg := h.invariant (fun _ => LruRace.Inv.initial)
    fun _ _ _ hI hc hs => (hI.step hc.1 hs).1 hc.2
  refine ⟨hI.safe, fun a s' hl hn => ?_⟩
  obtain ⟨hinv, hclear⟩ := hI.step hl hn
  exact ⟨hclear, fun hc => (hinv hc).safe⟩

theorem lruRace_reach (cfg : Config) (kernel : Kernel) (ops : List LruOp)
    (D : LruRace T → RaceAct T → Prop) [∀ s, DecidablePred (D s)] (acts : List (RaceAct T))
    (P : LruRace T → Bool)
    (h : ((lruInit cfg (LruState.blank kernel)).toOption.bind fun r =>
      System.drive (LruOp.next cfg) (LruOp.Legal cfg) ops r.2).any (fun l =>
        (System.drive (fun s a => a.next s) D acts (LruRace.start l)).any P) = true) :
    ∃ s, (lruRace T cfg kernel).Reach D s ∧ P s = true := by
  obtain ⟨l, hl, hP⟩ := lru_reach_run cfg kernel ops _ h
  exact System.drive_reach (S := lruRace T cfg kernel) _ _ (fun _ _ _ => id) (fun _ _ => id)
    ⟨l, hl, rfl⟩ acts P hP

end Main

/-- Two pages are in use; the scanner holds page 0 while a thread removes page 1. -/
theorem lru_removal_safe_scanning : ∃ s : LruRace (Fin 1), s.remover 0 = .unlock 1 ∧
    s.scan.page = some 0 ∧ s.Safe := by
  obtain ⟨s, hs, hP⟩ := lruRace_reach fourFrames Kernel.fresh
    [.allocate, .assign 0 hugepageSize, .allocate, .assign 1 (2 * hugepageSize)]
    (fun (s : LruRace (Fin 1)) a => a.Legal fourFrames s ∧ a.Clear s)
    ([.call 0 1, .remover 0, .remover 0, .remover 0] ++
      List.replicate 7 (.scanner fun _ => 0) ++ [.remover 0, .remover 0])
    (fun s => s.remover 0 = .unlock 1 ∧ s.scan.page = some 0) (by decide +kernel)
  obtain ⟨h1, h2⟩ := of_decide_eq_true hP
  exact ⟨s, h1, h2, (lru_removal_safe hs).1⟩

/-- A scan starts after the thread has found `in_kscand` clear, and holds page 0 when the thread
reads its list. -/
theorem removal_finds_no_list : ∃ s, (lruRace (Fin 1) fourFrames Kernel.fresh).Reach
    (fun s a => a.Legal fourFrames s) s ∧ s.remover 0 = .failed 0 := by
  obtain ⟨s, hs, hP⟩ := lruRace_reach fourFrames Kernel.fresh
    [.allocate, .assign 0 hugepageSize]
    (fun (s : LruRace (Fin 1)) a => a.Legal fourFrames s)
    ([.call 0 0, .remover 0] ++ List.replicate 7 (.scanner fun _ => 0) ++
      [.remover 0, .remover 0])
    (fun s => s.remover 0 = .failed 0) (by decide +kernel)
  exact ⟨s, hs, of_decide_eq_true hP⟩

end HeMem

import HeMem.Proofs.Available
import HeMem.Proofs.Lru

/-!
# When the migration loop finds no free NVM page

Migrations leave the number of free pages as it is, so the loop fails to find a free NVM page for a
cold page only if no page of either tier is free.  Then all pages are present, and the pass fails
if there is a hot page to move up and a cold one to make room for it.
-/

namespace HeMem

open Hoare Function

variable {α : Type} {cfg : Config} {A : Allow} {kernel : Kernel} {s t : State} {v w : View}
  {p np : PageId} {n : ℕ} {hot : Bool}

section Avoids

/-- What a pass aborts with only once it has come to its migration loop. -/
def Abort.late : Abort → Bool
  | .policyNp | .outOfMemory | .wpVa => true
  | _ => false

variable {e e' : Abort}

theorem ne_late (he : e.late = true) (h : e'.late = false) : e' ≠ e := by
  rintro rfl
  simp [h] at he

theorem avoids_getPage : Avoids e (getPage p) := avoids_get.bind fun _ => avoids_pure

theorem avoids_getList : Avoids e (getList p) := avoids_get.bind fun _ => avoids_pure

section Late

variable (he : e.late = true)
include he

theorem avoids_onFifo {m : FifoM ListId PageId α} : Avoids e (onFifo m) := fun s => by
  unfold Sat onFifo
  split
  · trivial
  · rename_i h
    split at h
    · cases h
    · cases h
      exact ne_late he rfl

theorem avoids_updateCurrentCoolPage : Avoids e (updateCurrentCoolPage p) := by
  have hone : ∀ dram, Avoids e (updateCursor dram p) := fun dram => by
    unfold updateCursor
    refine avoids_get.bind fun _ => avoids_ite (avoids_getList.bind fun _ => ?_) avoids_pure
    exact (avoids_check (ne_late he rfl)).bind fun _ => (avoids_onFifo he).bind fun _ => avoids_modify
  exact (hone true).bind fun _ => hone false

theorem avoids_drainFreePageRing : ∀ {fuel : ℕ}, Avoids e (drainFreePageRing fuel)
  | 0 => avoids_throw (ne_late he rfl)
  | fuel + 1 => by
    unfold drainFreePageRing takeFree
    refine Avoids.bind (avoids_get.bind fun _ => avoids_modify.bind fun _ => avoids_pure)
      fun r => ?_
    rcases r with _ | x
    · exact avoids_pure
    refine Avoids.bind ?_ fun _ => avoids_drainFreePageRing
    unfold drainPage
    refine avoids_getList.bind fun l => ?_
    rcases l with _ | q
    · exact avoids_throw (ne_late he rfl)
    · exact (avoids_updateCurrentCoolPage he).bind fun _ => (avoids_onFifo he).bind fun _ =>
        avoids_getPage.bind fun _ => (avoids_onFifo he)

theorem avoids_setHot : Avoids e (setHot hot p) := by
  unfold setHot
  refine avoids_getPage.bind fun _ => (avoids_check (ne_late he (by cases hot <;> rfl))).bind fun _ =>
    avoids_ite ?_ ?_
  · exact avoids_getList.bind fun _ => avoids_check (ne_late he (by cases hot <;> rfl))
  · exact avoids_getList.bind fun _ => (avoids_check (ne_late he (by cases hot <;> rfl))).bind fun _ =>
      (avoids_onFifo he).bind fun _ => avoids_modify.bind fun _ => (avoids_onFifo he)

theorem avoids_serveRequests {threshold : ℕ} : ∀ {fuel reqs : ℕ},
    Avoids e (serveRequests hot threshold fuel reqs)
  | 0, _ => avoids_throw (ne_late he rfl)
  | fuel + 1, reqs => by
    unfold serveRequests takeRequest
    refine avoids_ite (Avoids.bind (avoids_get.bind fun _ => avoids_modify.bind fun _ =>
      avoids_pure) fun r => ?_) avoids_pure
    rcases r with _ | x
    · exact avoids_pure
    refine Avoids.bind ?_ fun _ => avoids_serveRequests
    have hset : (if hot then makeHot else makeCold) = setHot hot := by cases hot <;> rfl
    unfold serveRequest
    rw [hset]
    refine avoids_getPage.bind fun _ => avoids_ite ?_ ?_
    · exact avoids_getList.bind fun _ => (avoids_check (ne_late he rfl)).bind fun _ => avoids_pure
    · exact (avoids_updateCurrentCoolPage he).bind fun _ => avoids_modify.bind fun _ =>
        (avoids_setHot he).bind fun _ => avoids_pure

theorem avoids_beforeMigration : Avoids e beforeMigration := by
  unfold beforeMigration
  exact avoids_get.bind fun _ => (avoids_drainFreePageRing he).bind fun _ => avoids_get.bind fun _ =>
    (avoids_serveRequests he).bind fun _ => avoids_get.bind fun _ => (avoids_serveRequests he)

theorem avoids_coolPage {hot cold : ListId} {dram : Bool} :
    Avoids e (coolPage hot cold dram p) := by
  have hrest : Avoids e (do
      if !(← getPage p).hot then
        let current := ((← get).fifo.node p).next
        onFifo (pageListRemovePage hot p)
        onFifo (enqueueFifo cold p)
        return current
      else
        return some p) :=
    avoids_getPage.bind fun _ => avoids_ite (avoids_get.bind fun _ => (avoids_onFifo he).bind fun _ =>
      (avoids_onFifo he).bind fun _ => avoids_pure) avoids_pure
  have hnvm : Avoids e (do
      if !dram && (← get).startNvmPage = some p then
        modify fun s : State => { s with startNvmPage := none, needCoolNvm := false }
      if !(← getPage p).hot then
        let current := ((← get).fifo.node p).next
        onFifo (pageListRemovePage hot p)
        onFifo (enqueueFifo cold p)
        return current
      else
        return some p) :=
    avoids_get.bind fun _ => avoids_ite (avoids_modify.bind fun _ => hrest) hrest
  unfold coolPage
  refine avoids_getPage.bind fun _ => (avoids_check (ne_late he rfl)).bind fun _ => avoids_get.bind
    fun _ => ?_
  exact avoids_modify.bind fun _ => avoids_get.bind fun _ => avoids_ite
    (avoids_modify.bind fun _ => hnvm) hnvm

theorem avoids_partialCool {hot cold : ListId} {dram : Bool} {current : Option PageId} :
    Avoids e (partialCool hot cold dram current) := by
  have hloop : ∀ turns current, Avoids e (coolLoop hot cold dram turns current) := by
    intro turns
    induction turns with
    | zero => exact fun _ => avoids_pure
    | succ turns ih =>
      intro current
      unfold coolLoop
      refine (avoids_onFifo he).bind fun r => ?_
      rcases r with _ | x
      · exact avoids_pure
      · exact (avoids_coolPage he).bind ih
  unfold partialCool
  refine avoids_get.bind fun _ => avoids_ite avoids_pure ?_
  refine avoids_get.bind fun _ => avoids_ite avoids_pure ?_
  have hnvm : Avoids e (do
      if (← get).startNvmPage = none ∧ !dram then
        modify fun s : State => { s with startNvmPage := (s.fifo.list hot).last }
      coolLoop hot cold dram coolingPages current) :=
    avoids_get.bind fun _ => avoids_ite (avoids_modify.bind fun _ => hloop _ _) (hloop _ _)
  exact avoids_get.bind fun _ => avoids_ite (avoids_modify.bind fun _ => hnvm) hnvm

theorem avoids_coolBoth : Avoids e coolBoth := by
  unfold coolBoth
  exact avoids_get.bind fun _ => (avoids_partialCool he).bind fun _ => avoids_modify.bind fun _ =>
    avoids_get.bind fun _ => (avoids_partialCool he).bind fun _ => avoids_modify

end Late

section Loop

variable (he : e = .policyNp ∨ e = .outOfMemory)
include he

theorem avoids_exchange {up : Bool} : Avoids e (exchange cfg up p np) := by
  have hmigrate : (if up then pebsMigrateUp cfg else pebsMigrateDown cfg) = pebsMigrate cfg up := by
    cases up <;> rfl
  have hdir : (if up then hememMigrateUp cfg else hememMigrateDown cfg) = hememMigrate cfg up := by
    cases up <;> rfl
  have hlate : e.late = true := by rcases he with rfl | rfl <;> rfl
  have hva : Abort.wpVa ≠ e := by rcases he with rfl | rfl <;> simp
  unfold exchange
  rw [hmigrate]
  refine avoids_getPage.bind fun _ => avoids_getPage.bind fun _ => Avoids.bind ?_ fun _ =>
    avoids_modify.bind fun _ => (avoids_onFifo hlate).bind fun _ => avoids_onFifo hlate
  unfold pebsMigrate
  rw [hdir]
  refine avoids_getPage.bind fun _ => avoids_ite avoids_pure (avoids_modify.bind fun _ =>
    Avoids.bind ?_ fun _ => Avoids.bind ?_ fun _ => avoids_modify)
  · unfold hememWpPage
    exact avoids_getPage.bind fun _ => (avoids_check hva).bind fun _ =>
      (avoids_check (ne_late hlate rfl)).bind fun _ => avoids_modify
  · unfold hememMigrate
    exact avoids_getPage.bind fun _ => avoids_modify.bind fun _ =>
      (avoids_check (ne_late hlate rfl)).bind fun _ =>
      (avoids_check (ne_late hlate rfl)).bind fun _ =>
      (avoids_check (ne_late hlate rfl)).bind fun _ => avoids_modify.bind fun _ =>
      avoids_modify.bind fun _ => (avoids_check (ne_late hlate rfl)).bind fun _ => avoids_modify

end Loop

theorem avoids_coldVictim (he : e.late = true) : ∀ {fuel : ℕ}, Avoids e (coldVictim fuel)
  | 0 => avoids_throw (ne_late he rfl)
  | fuel + 1 => by
    unfold coldVictim
    refine (avoids_onFifo he).bind fun r => ?_
    rcases r with _ | x
    · exact avoids_pure
    · exact avoids_getPage.bind fun _ => avoids_ite (avoids_coldVictim he) avoids_pure

theorem avoids_migrateTries {b : UInt64} : ∀ {tries : ℕ},
    Avoids .outOfMemory (migrateTries cfg p b tries)
  | 0 => avoids_pure
  | tries + 1 => by
    have hlate : Abort.outOfMemory.late = true := rfl
    unfold migrateTries
    refine (avoids_onFifo hlate).bind fun r => ?_
    rcases r with _ | x
    · refine (avoids_get.bind fun _ => avoids_pure).bind fun _ =>
        (avoids_coldVictim hlate).bind fun r => ?_
      rcases r with _ | cp
      · exact (avoids_onFifo hlate).bind fun _ => avoids_pure
      refine (avoids_onFifo hlate).bind fun r => ?_
      rcases r with _ | np
      · exact avoids_throw (by simp)
      · exact avoids_getPage.bind fun _ => (avoids_check (by simp)).bind fun _ =>
          (avoids_exchange (.inr rfl)).bind fun _ => avoids_migrateTries
    · exact avoids_getPage.bind fun _ => (avoids_check (by simp)).bind fun _ =>
        (avoids_exchange (.inr rfl)).bind fun _ => avoids_getPage.bind fun _ => avoids_pure

theorem avoids_migrateLoop : ∀ {fuel : ℕ} {b : UInt64},
    Avoids .outOfMemory (migrateLoop cfg fuel b)
  | 0, _ => avoids_throw (by simp)
  | fuel + 1, b => by
    have hlate : Abort.outOfMemory.late = true := rfl
    unfold migrateLoop
    refine avoids_ite (Avoids.bind ?_ fun r => ?_) avoids_pure
    · unfold migrateTurn
      refine (avoids_onFifo hlate).bind fun r => ?_
      rcases r with _ | x
      · exact avoids_pure
      have hrest : Avoids .outOfMemory (do
          if (← getPage x).reads < hotReadThreshold then
            modifyPage x ({ · with hot := false })
            onFifo (enqueueFifo .nvmCold x)
            return .next b
          else
            migrateTries cfg x b 2 : M Turn) :=
        avoids_getPage.bind fun _ => avoids_ite (avoids_modify.bind fun _ =>
          (avoids_onFifo hlate).bind fun _ => avoids_pure) avoids_migrateTries
      exact avoids_get.bind fun _ => avoids_ite (avoids_modify.bind fun _ => hrest) hrest
    · rcases r with b' | _ | _
      · exact avoids_migrateLoop
      · exact avoids_pure
      · exact avoids_pure

theorem avoids_pebsPolicyPass : Avoids .outOfMemory (pebsPolicyPass cfg) :=
  (avoids_beforeMigration rfl).bind fun _ => (avoids_get.bind fun _ => avoids_pure).bind fun _ =>
    avoids_migrateLoop.bind fun _ => avoids_ite (avoids_coolBoth rfl) avoids_pure

end Avoids

section Requests

/-- The hot flags in `w` are those of `v` once the pages of `l` have been made `hot`. -/
structure Served (v w : View) (hot : Bool) (l : List PageId) : Prop where
  flag : ∀ x, (w.page x).hot = if x ∈ l then hot else (v.page x).hot
  present : ∀ x, (w.page x).present = (v.page x).present
  inDram : ∀ x, (w.page x).inDram = (v.page x).inDram
  reads : ∀ x, (w.page x).reads = (v.page x).reads
  requests : w.requests (!hot) = v.requests (!hot)

theorem Served.refl : Served v v hot [] :=
  ⟨fun _ => rfl, fun _ => rfl, fun _ => rfl, fun _ => rfl, rfl⟩

theorem Served.cons {l : List PageId} {v' : View} (h : Served v' w hot l)
    (hs : Served v v' hot [p]) : Served v w hot (p :: l) where
  flag x := by
    rw [h.flag, hs.flag]
    by_cases hx : x ∈ l <;> simp [hx]
  present x := (h.present x).trans (hs.present x)
  inDram x := (h.inDram x).trans (hs.inDram x)
  reads x := (h.reads x).trans (hs.reads x)
  requests := h.requests.trans hs.requests

/-- Where the requests served are for present pages, each gives its page its flag. -/
theorem serveRequests_served {threshold : ℕ} : ∀ {fuel reqs : ℕ} {v : View},
    (v.requests hot).length < fuel →
    (∀ p ∈ (v.requests hot).take (threshold - reqs), (v.page p).present = true) →
    Spec (serveRequests hot threshold fuel reqs) v (fun _ v' =>
      Served v v' hot ((v.requests hot).take (threshold - reqs))) (fun _ => True)
  | 0, _, _, h, _ => absurd h (by omega)
  | fuel + 1, reqs, v, h, hp => by
    unfold serveRequests
    refine spec_ite (fun hlt => ?_) fun hge => spec_pure ?_
    · refine spec_takeRequest (fun hr => spec_pure ?_) fun p rest hr => ?_
      · rw [hr, List.take_nil]
        exact .refl
      obtain ⟨k, hk⟩ := Nat.exists_eq_succ_of_ne_zero (Nat.sub_ne_zero_of_lt hlt)
      rw [hr, hk, List.take_succ_cons] at hp ⊢
      have hpr := hp p List.mem_cons_self
      refine (serveRequest_spec.mono (fun _ _ => id) fun _ _ => trivial).bind fun r v' hv' => ?_
      obtain ⟨hr1, ⟨hno, -⟩ | ⟨-, -, c, -, hv'⟩⟩ := hv'
      · exact absurd (hno.symm.trans hpr) (by simp)
      have hr1 : r = true := hr1.trans hpr
      have hs : Served v v' hot [p] := by
        subst hv'
        refine ⟨fun x => ?_, fun x => ?_, fun x => ?_, fun x => ?_, by simp⟩
        all_goals
          simp only [View.put, View.edit, View.setRequests, update_apply, List.mem_singleton]
          split <;> simp_all [HememPage.reads]
      have hrest : v'.requests hot = rest := by
        rw [hv']
        simp
      have hsub : threshold - (if r = true then reqs + 1 else reqs) = k := by
        rw [if_pos hr1]
        omega
      have hnext := @serveRequests_served threshold fuel (if r = true then reqs + 1 else reqs) v'
      rw [hrest, hsub] at hnext
      refine (hnext ?_ fun x hx => ?_).mono (fun _ w hw => hw.cons hs) fun _ => id
      · simpa [hr] using h
      · exact (hs.present x).trans (hp x (List.mem_cons_of_mem _ hx))
    · rw [Nat.sub_eq_zero_of_le (Nat.not_lt.1 hge), List.take_zero]
      exact .refl

/-- With all pages present, a pass comes to its migration loop with the flags served. -/
theorem beforeMigration_served (hg : s.Good) (hI : Inv cfg.pages Allow.none s.view)
    (hpr : ∀ p < cfg.pages, (s.page p).present = true) : Sat beforeMigration
      (fun _ t => ∀ x, (t.page x).hot = s.view.flagServed x ∧
        (t.page x).inDram = (s.page x).inDram ∧ (t.page x).reads = (s.page x).reads)
      (fun _ => True) s := by
  have hfree : s.view.free = [] := List.eq_nil_iff_forall_not_mem.2 fun p hp => by
    obtain ⟨hn, hno, -⟩ := hI.ring p hp
    exact absurd (hno.symm.trans (hpr p (hn.resolve_right id))) (by simp)
  have htake : ∀ hot k, ∀ p ∈ (s.view.requests hot).take k, (s.view.page p).present = true :=
    fun hot k p hp => hpr p (hI.request hot p (List.mem_of_mem_take hp)).1
  have hcount : ∀ t : State, (t.view.requests true).length < t.hotRing.count + 1 ∧
      (t.view.requests false).length < t.coldRing.count + 1 := fun t => by
    rw [← RingBuf.length_entries, ← RingBuf.length_entries]
    exact ⟨Nat.lt_succ_self _, Nat.lt_succ_self _⟩
  have hspec : Spec beforeMigration s.view (fun _ v => ∀ x, (v.page x).hot = s.view.flagServed x ∧
      (v.page x).inDram = (s.view.page x).inDram ∧ (v.page x).reads = (s.view.page x).reads)
      (fun _ => True) := by
    unfold beforeMigration
    refine spec_get fun s₀ _ hv => ?_
    have hlen : s.view.free.length < s₀.freePageRing.count + 1 := by simp [hfree]
    refine ((@drainFreePageRing_spec cfg Allow.none _ _ hlen).mono (fun _ _ => id)
      fun _ _ => trivial).bind fun _ v₁ ⟨_, _, hr₁, hp₁⟩ => spec_get fun s₁ _ hv₁ => ?_
    have hserve₁ := @serveRequests_served true hotRingReqsThreshold (s₁.hotRing.count + 1) 0 v₁
      (hv₁ ▸ (hcount s₁).1)
    rw [hr₁, hp₁] at hserve₁
    refine (hserve₁ (htake true _)).bind fun _ v₂ h₂ => spec_get fun s₂ _ hv₂ => ?_
    have hserve₂ := @serveRequests_served false coldRingReqsThreshold (s₂.coldRing.count + 1) 0 v₂
      (hv₂ ▸ (hcount s₂).2)
    have hr₂ : v₂.requests false = s.view.requests false := h₂.requests.trans (congrFun hr₁ false)
    rw [hr₂] at hserve₂
    refine (hserve₂ fun p hp => ?_).mono (fun _ v₃ h₃ x => ⟨?_, ?_, ?_⟩) fun _ => id
    · rw [h₂.present, hp₁]
      exact htake false _ p hp
    · rw [h₃.flag, h₂.flag, hp₁, View.flagServed]
      rfl
    · rw [h₃.inDram, h₂.inDram, hp₁]
    · rw [h₃.reads, h₂.reads, hp₁]
  exact (hspec.at hg rfl).post fun _ t h => h.2

end Requests

section Full

/-- No page of either tier is free. -/
def View.Full (v : View) : Prop := ∀ x q, v.list x = some q → q.kind ≠ .free

/-- A page of DRAM is cold, and one of NVM hot is read enough. -/
def View.Wants (v : View) : Prop :=
  (∃ c, v.list c = some .dramCold) ∧
    ∃ p, v.list p = some .nvmHot ∧ hotReadThreshold ≤ (v.page p).reads

theorem View.Full.dequeue {q : ListId} (h : s.view.Full) (hg : s.Good) (hq : q.kind = .free) :
    dequeueFifo q s.fifo = .ok (none, s.fifo) := by
  rcases hg.fifo.dequeue q with ⟨he, -⟩ | ⟨x, -, -, -, -, hx, -⟩
  · exact he
  · exact absurd hq (h x q hx)

theorem victim_eq_none (hg : s.Good) (hen : ∀ p, (s.page p).enforced = false)
    (h : s.victim = none) (c : PageId) : s.view.list c ≠ some .dramCold := fun hc => by
  have hmem := hg.fifo.mem_contents.2 hc
  have hall := List.find?_eq_none.1 h c (List.mem_reverse.2 hmem)
  simp [hen] at hall

/-- The tries for a page that is read enough, with no free page. -/
theorem migrateTries_full {b : UInt64} {t : ℕ} (hg : s.Good) (hfull : s.view.Full)
    (hen : ∀ p, (s.page p).enforced = false) (hp : s.view.list p = none) :
    Sat (migrateTries cfg p b (t + 1)) (fun r _ => r = .out ∧ ∀ c, s.view.list c ≠ some .dramCold)
      (fun e => e = .policyNp ∧ ∃ c, s.view.list c = some .dramCold) s := by
  unfold migrateTries
  rw [sat_bind, sat_onFifo (hfull.dequeue hg (q := .dramFree) rfl)]
  dsimp only
  rw [listLength, sat_bind, sat_bind, sat_get, sat_pure]
  have hlen : (s.fifo.contents .dramCold).length < (s.fifo.list .dramCold).numentries + 1 := by
    rw [hg.fifo.length_contents]
    omega
  refine ((coldVictim_sat hg hlen).mono (fun _ _ => id) fun _ => False.elim).bind
    fun r s' h => ?_
  obtain ⟨hg', hvic, l, -, hl, hn, hr⟩ := h
  rw [hl fun c _ => hen c] at hn hr
  rcases r with _ | cp
  · refine Spec.at (Q := fun r _ => r = Turn.out ∧ ∀ c, s.view.list c ≠ some .dramCold) ?_ hg'
      (hn rfl) |>.post fun _ _ h => h.2
    exact spec_enqueue hp (spec_pure ⟨rfl, victim_eq_none hg hen hvic.symm⟩)
  · obtain ⟨hcp, -, hv'⟩ := hr cp rfl
    have hfull' : s'.view.Full := fun x q hx => by
      rw [hv', View.off_list, update_apply] at hx
      split at hx
      · cases hx
      · exact hfull x q hx
    rw [sat_bind, sat_onFifo (hfull'.dequeue hg' (q := .nvmFree) rfl)]
    exact ⟨rfl, cp, hcp⟩

/-- A page that is not read enough may go from NVM hot to NVM cold. -/
theorem wants_cool {c : Bool → Option PageId} (hp : v.list p = some .nvmHot)
    (hr : (v.page p).reads < hotReadThreshold) : ((({ v with cur := c } : View).edit p
      ({ · with hot := false })).put .nvmCold p).Wants ↔ v.Wants := by
  have hread : ∀ x, ((update v.page p { v.page p with hot := false }) x).reads =
      (v.page x).reads := fun x => by
    rw [update_apply]
    split
    · rename_i hx
      rw [hx]
      rfl
    · rfl
  unfold View.Wants
  simp only [View.put_list, View.edit_list, View.put_page, View.edit_page, update_apply]
  simp only [update_apply] at hread
  simp only [hread]
  refine and_congr (exists_congr fun x => ?_) (exists_congr fun x => ?_)
  · split_ifs with hx
    · simp [hx, hp]
    · rfl
  · split_ifs with hx
    · simp [hx, hp, UInt64.not_le.2 hr]
    · rfl

/-- The view in which page `p` has been put from NVM hot on NVM cold. -/
def View.cooled (v : View) (c : Bool → Option PageId) (p : PageId) : View :=
  (({ v with cur := c } : View).edit p ({ · with hot := false })).put .nvmCold p

theorem View.cooled_list {c : Bool → Option PageId} (x : PageId) :
    (v.cooled c p).list x = if x = p then some .nvmCold else v.list x := by
  rw [View.cooled, View.put_list, update_apply, View.edit_list]

theorem View.Full.off (h : v.Full) {c : Bool → Option PageId} :
    (({ v with cur := c } : View).off p).Full := fun x q hx => by
  rw [View.off_list, update_apply] at hx
  split at hx
  · cases hx
  · exact h x q hx

theorem View.Full.cooled (h : v.Full) {c : Bool → Option PageId} : (v.cooled c p).Full :=
  fun x q hx => by
    rw [View.cooled_list] at hx
    split at hx
    · cases hx
      simp [ListId.kind]
    · exact h x q hx

/-- What a turn does with a page of NVM hot, with no free page: it puts it on NVM cold if it is not
read enough, and else looks for a free page in vain. -/
theorem migrateJudge_full {b : UInt64} {c : Bool → Option PageId} {s' : State} (hg : s'.Good)
    (hpage : s'.page = s.page) (hv : s'.view = ({ s.view with cur := c } : View).off p)
    (hfull : s.view.Full) (hen : ∀ x, (s.page x).enforced = false)
    (hp : s.view.list p = some .nvmHot) : Sat (do
      if (← getPage p).reads < hotReadThreshold then
        modifyPage p ({ · with hot := false })
        onFifo (enqueueFifo .nvmCold p)
        return .next b
      else
        migrateTries cfg p b 2) (fun r t => (r = .next b ∧ (s.page p).reads < hotReadThreshold ∧
          t.Good ∧ t.view = s.view.cooled c p) ∨ r = .out ∧ ¬ s.view.Wants)
      (fun e => e = .policyNp ∧ s.view.Wants) s' := by
  have hget : s'.page p = s.page p := congrFun hpage p
  have hlist : ∀ x, s'.view.list x = if x = p then none else s.view.list x := fun x => by
    rw [hv, View.off_list, update_apply]
  rw [getPage, sat_bind, sat_bind, sat_get, sat_pure, hget, sat_ite]
  refine ⟨fun hlt => ?_, fun hge => ?_⟩
  · refine (Spec.at (Q := fun r v' => r = Turn.next b ∧ v' = s.view.cooled c p) ?_ hg hv).mono
      (fun r t ht => .inl ⟨ht.2.1, hlt, ht.1, ht.2.2⟩) fun _ => False.elim
    refine spec_modifyPage (spec_enqueue (by simp) (spec_pure ⟨rfl, ?_⟩))
    simp [View.cooled, View.put, View.off, View.edit]
  · refine (migrateTries_full (t := 1) hg (hv ▸ hfull.off) (fun x => ?_) ?_).mono
      (fun r t ht => ?_) fun e he => ?_
    · rw [hpage]
      exact hen x
    · rw [hlist, if_pos rfl]
    · obtain ⟨rfl, hno⟩ := ht
      refine .inr ⟨rfl, ?_⟩
      rintro ⟨⟨x, hx⟩, -⟩
      have hxp : x ≠ p := by
        rintro rfl
        exact absurd (hx.symm.trans hp) (by simp)
      exact hno x (by rw [hlist, if_neg hxp, hx])
    · obtain ⟨he, x, hx⟩ := he
      refine ⟨he, ⟨x, ?_⟩, p, hp, UInt64.not_lt.1 hge⟩
      rw [hlist] at hx
      split at hx
      · cases hx
      · exact hx

/-- What a turn of the loop does, with no free page. -/
theorem migrateTurn_full {b : UInt64} (hg : s.Good) (hfull : s.view.Full)
    (hen : ∀ x, (s.page x).enforced = false) : Sat (migrateTurn cfg b)
      (fun r t => (r = .bail ∨ r = .out) ∧ ¬ s.view.Wants ∨ r = .next b ∧ ∃ p c,
        s.view.list p = some .nvmHot ∧ (s.page p).reads < hotReadThreshold ∧ t.Good ∧
          t.view = s.view.cooled c p) (fun e => e = .policyNp ∧ s.view.Wants) s := by
  unfold migrateTurn
  rcases hg.fifo.dequeue .nvmHot with ⟨he, -, hno⟩ | ⟨p, h', he, hw, -, hp, hlist, -⟩
  · rw [sat_bind, sat_onFifo he]
    refine .inl ⟨.inl rfl, ?_⟩
    rintro ⟨-, p, hp, -⟩
    exact hno p hp
  have hg₁ : ({ s with fifo := h' } : State).Good := ⟨hw, hg.requests, hg.free⟩
  have hv₁ : ({ s with fifo := h' } : State).view = s.view.off p :=
    congrArg (fun l => { s.view with list := l }) hlist
  rw [sat_bind, sat_onFifo he]
  dsimp only
  rw [sat_bind, sat_get, sat_ite]
  refine ⟨fun _ => ?_, fun _ => ?_⟩
  · rw [sat_bind, sat_modify]
    obtain ⟨hg₂, hv₂⟩ := hg₁.setCur false (h'.list .nvmHot).first
    refine (migrateJudge_full (s := s) (c := update s.view.cur false (h'.list .nvmHot).first) hg₂ rfl
      ?_ hfull hen hp).post fun r t ht => ?_
    · rw [hv₂, hv₁]
      rfl
    · exact ht.symm.imp (fun h => ⟨.inr h.1, h.2⟩) fun h => ⟨h.1, p, _, hp, h.2⟩
  · refine (migrateJudge_full (s := s) (c := s.view.cur) hg₁ rfl hv₁ hfull hen hp).post fun r t ht => ?_
    exact ht.symm.imp (fun h => ⟨.inr h.1, h.2⟩) fun h => ⟨h.1, p, _, hp, h.2⟩

/-- With no free page, the loop fails to find one exactly if a page of DRAM is cold and one of NVM
hot is read enough. -/
theorem migrateLoop_full : ∀ {fuel : ℕ} {s : State} {b : UInt64} {l : List PageId}, s.Good →
    s.view.Full → (∀ p, (s.page p).enforced = false) →
    (∀ x, s.view.list x = some .nvmHot → x ∈ l) → l.length < fuel → b < pebsKswapdMigrateRate →
    Sat (migrateLoop cfg fuel b) (fun _ _ => ¬ s.view.Wants)
      (fun e => e = .policyNp ∧ s.view.Wants) s
  | 0, _, _, _, _, _, _, _, h, _ => absurd h (by omega)
  | fuel + 1, s, b, l, hg, hfull, hen, hl, hlen, hb => by
    unfold migrateLoop
    rw [sat_ite]
    refine ⟨fun _ => (migrateTurn_full hg hfull hen).bind fun r t ht => ?_, fun hn => absurd hb hn⟩
    rcases ht with ⟨rfl | rfl, hno⟩ | ⟨rfl, p, c, hp, hlt, hg', hw⟩
    · exact hno
    · exact hno
    have hwant : t.view.Wants ↔ s.view.Wants := by
      rw [hw]
      exact wants_cool hp hlt
    have hpl := hl p hp
    refine (migrateLoop_full (l := l.erase p) hg' (hw ▸ hfull.cooled) (fun x => ?_)
      (fun x hx => ?_) ?_ hb).mono (fun _ _ hn h => hn (hwant.2 h)) fun e h => ⟨h.1, hwant.1 h.2⟩
    · change (t.view.page x).enforced = false
      rw [hw, View.cooled, View.put_page, View.edit_page, update_apply]
      split <;> exact hen _
    · rw [hw, View.cooled_list] at hx
      split at hx
      · cases hx
      · rename_i hxp
        exact (List.mem_erase_of_ne hxp).2 (hl x hx)
    · have := List.length_pos_of_mem hpl
      rw [List.length_erase_of_mem hpl]
      omega

end Full

section Room

/-- A page of either tier is free. -/
def View.Roomy (v : View) : Prop := ∃ x q, v.list x = some q ∧ q.kind = .free

/-- A try that finds a free DRAM page. -/
theorem migrateTries_finds {b : UInt64} {t : ℕ} (hg : s.Good)
    (hx : ∃ x, s.view.list x = some .dramFree) :
    Sat (migrateTries cfg p b (t + 1)) (fun _ _ => True) (· ≠ .policyNp) s := by
  obtain ⟨x, hx⟩ := hx
  unfold migrateTries
  rcases hg.fifo.dequeue .dramFree with ⟨-, -, hno⟩ | ⟨np, h', he, -⟩
  · exact absurd hx (hno x)
  · rw [sat_bind, sat_onFifo he]
    have hrest : Avoids .policyNp (do
        check ((← getPage np).present = false) .policyPresent
        exchange cfg true p np
        return Turn.next (b + ptToPagesize (← getPage p).pt)) :=
      avoids_getPage.bind fun _ => (avoids_check (by simp)).bind fun _ =>
        (avoids_exchange (.inl rfl)).bind fun _ => avoids_getPage.bind fun _ => avoids_pure
    exact hrest _

theorem migrateTries_roomy {b : UInt64} (hg : s.Good) (hroom : s.view.Roomy)
    (hen : ∀ p, (s.page p).enforced = false) :
    Sat (migrateTries cfg p b 2) (fun _ _ => True) (· ≠ .policyNp) s := by
  obtain ⟨x, q, hx, hk⟩ := hroom
  rcases hg.fifo.dequeue .dramFree with ⟨he, -, hno⟩ | ⟨y, -, -, -, -, hy, -⟩
  · have hxn : s.view.list x = some .nvmFree := by
      cases q <;> simp [ListId.kind] at hk
      · exact absurd hx (hno x)
      · exact hx
    unfold migrateTries
    rw [sat_bind, sat_onFifo he]
    dsimp only
    rw [listLength, sat_bind, sat_bind, sat_get, sat_pure]
    refine ((coldVictim_finds hg hen).mono (fun _ _ => id) fun _ => False.elim).bind
      fun r s' h => ?_
    obtain ⟨hg', -, hr⟩ := h
    rcases r with _ | cp
    · exact ((avoids_onFifo (e := .policyNp) rfl).bind fun _ => avoids_pure) _
    obtain ⟨hcp, hv'⟩ := hr cp rfl
    rcases hg'.fifo.dequeue .nvmFree with ⟨-, -, hno⟩ | ⟨np, h', he', hw, -, hnp, hl, -⟩
    · have hxc : x ≠ cp := by
        rintro rfl
        simp [hcp] at hxn
      refine absurd ?_ (hno x)
      change s'.view.list x = _
      rw [hv', View.off_list, update_of_ne hxc, hxn]
    have hne : cp ≠ np := by
      rintro rfl
      have hnp : s'.view.list cp = some .nvmFree := hnp
      simp [hv'] at hnp
    have hg₁ : ({ s' with fifo := h' } : State).Good := ⟨hw, hg'.requests, hg'.free⟩
    have hv₁ : ({ s' with fifo := h' } : State).view = (s.view.off cp).off np := by
      rw [← hv']
      exact congrArg (fun l => { s'.view with list := l }) hl
    rw [sat_bind, sat_onFifo he']
    dsimp only
    rw [sat_getPage, sat_bind, sat_check]
    refine ⟨fun _ => ?_, fun _ => by simp⟩
    refine ((exchange_spec false cp np (by simp [hne]) (by simp) hne fun _ => hen cp).at hg₁
      hv₁ |>.mono (fun _ _ => id) fun e he => ?_).bind fun _ s₂ h₂ => ?_
    · rintro rfl
      cases he
    · obtain ⟨hg₂, -, hv₂⟩ := h₂
      exact migrateTries_finds hg₂ ⟨np, by rw [hv₂, exchange_list_apply, if_pos rfl]; rfl⟩
  · exact migrateTries_finds hg ⟨y, hy⟩

theorem migrateTurn_roomy {b : UInt64} (hg : s.Good) (hroom : s.view.Roomy)
    (hen : ∀ p, (s.page p).enforced = false) :
    Sat (migrateTurn cfg b) (fun _ _ => True) (· ≠ .policyNp) s := by
  unfold migrateTurn
  rcases hg.fifo.dequeue .nvmHot with ⟨he, -, -⟩ | ⟨p, h', he, hw, -, hp, hl, -⟩
  · rw [sat_bind, sat_onFifo he]
    trivial
  have hg₁ : ({ s with fifo := h' } : State).Good := ⟨hw, hg.requests, hg.free⟩
  have hroom₁ : View.Roomy (State.view { s with fifo := h' }) := by
    obtain ⟨x, q, hx, hk⟩ := hroom
    have hxp : x ≠ p := by
      rintro rfl
      cases hx.symm.trans hp
      cases hk
    refine ⟨x, q, ?_, hk⟩
    change h'.listOf x = _
    rw [hl, update_of_ne hxp]
    exact hx
  rw [sat_bind, sat_onFifo he]
  dsimp only
  have rest : ∀ s' : State, s'.Good → s'.view.Roomy → s'.page = s.page → Sat (do
      if (← getPage p).reads < hotReadThreshold then
        modifyPage p ({ · with hot := false })
        onFifo (enqueueFifo .nvmCold p)
        return .next b
      else
        migrateTries cfg p b 2) (fun _ _ => True) (· ≠ .policyNp) s' := by
    intro s' hg' hroom' hpage
    rw [sat_getPage, sat_ite]
    refine ⟨fun _ => ?_, fun _ => migrateTries_roomy hg' hroom' fun x => hpage ▸ hen x⟩
    have hcold : Avoids .policyNp (do
        modifyPage p ({ · with hot := false })
        onFifo (enqueueFifo .nvmCold p)
        return Turn.next b) := avoids_modify.bind fun _ => (avoids_onFifo (e := .policyNp) rfl).bind fun _ => avoids_pure
    exact hcold s'
  rw [sat_bind, sat_get, sat_ite]
  refine ⟨fun _ => ?_, fun _ => rest _ hg₁ hroom₁ rfl⟩
  rw [sat_bind, sat_modify]
  obtain ⟨hg₂, hv₂⟩ := hg₁.setCur false (h'.list .nvmHot).first
  refine rest _ hg₂ ?_ rfl
  rw [hv₂]
  exact hroom₁

/-- Not all pages are present, and those that are not are free. -/
structure Spare (cfg : Config) (s : State) : Prop where
  good : s.Good
  inv : Inv cfg.pages Allow.none s.view
  free : s.view.free = []
  spare : ∃ p < cfg.pages, (s.page p).present = false

theorem Spare.roomy (h : Spare cfg s) : s.view.Roomy := by
  obtain ⟨p, hp, hpr⟩ := h.spare
  refine ⟨p, _, (h.inv.waiting p hp hpr).resolve_left ?_, kind_freeList _⟩
  simp [h.free]

theorem Spare.moves (h : Spare cfg s) (hg : t.Good) (hm : Moves Allow.none s.view t.view) :
    Spare cfg t where
  good := hg
  inv := inv_kept.moves h.inv hm
  free := hm.free_nil h.free
  spare := h.spare.imp fun p hp => ⟨hp.1, (hm.present h.inv p).trans hp.2⟩

theorem migrateLoop_spare : ∀ {fuel : ℕ} {s : State} {b : UInt64}, Spare cfg s →
    Sat (migrateLoop cfg fuel b) (fun _ _ => True) (· ≠ .policyNp) s
  | 0, _, _, _ => by
    change Abort.diverges ≠ .policyNp
    simp
  | fuel + 1, s, b, h => by
    unfold migrateLoop
    rw [sat_ite]
    refine ⟨fun _ => ?_, fun _ => trivial⟩
    have hen : ∀ p, (s.page p).enforced = false := h.inv.enforced.resolve_left id
    have hturn : Sat (migrateTurn cfg b) _ (Doomed cfg Allow.none s.view) s :=
      migrateTurn_sat h.good h.free (.inr (h.inv.notSkips id))
    refine ((sat_iff.2 ⟨fun r t hr => hturn.ok hr, fun e he =>
      (migrateTurn_roomy h.good h.roomy hen).error he⟩)).bind fun r t ht => ?_
    obtain ⟨hg, hr⟩ := ht
    have hnext : Spare cfg t := by
      rcases hr with ⟨-, hv⟩ | ⟨p, -, hm, -⟩
      · exact h.moves hg (hv ▸ .refl)
      · exact h.moves hg hm
    rcases r with b' | _ | _
    · exact migrateLoop_spare hnext
    · trivial
    · trivial

end Room

section Pass

theorem used_iff (hI : Inv n Allow.none v) (hpr : ∀ p < n, (v.page p).present = true)
    (dram hot : Bool) :
    v.list p = some (usedList dram hot) ↔ p < n ∧ (v.page p).inDram = dram ∧
      (v.page p).hot = hot := by
  refine ⟨fun hl => ?_, fun ⟨hn, hd, hh⟩ => ?_⟩
  · have hn := hI.owned p _ hl
    have hu := hI.used id id hn (hpr p hn)
    rw [hl] at hu
    refine ⟨hn, ?_⟩
    revert hu
    cases dram <;> cases hot <;> cases (v.page p).inDram <;> cases (v.page p).hot <;>
      simp [usedList, hotList, coldList]
  · rw [hI.used id id hn (hpr p hn), hd, hh]

/-- With all pages present, the migration loop starts with the pages a starved pass has. -/
theorem wants_iff (hI : Inv cfg.pages Allow.none w)
    (hall : ∀ p < cfg.pages, (v.page p).present = true)
    (hpr : ∀ p < cfg.pages, (w.page p).present = true) (hs : ∀ x, (w.page x).hot = v.flagServed x ∧
      (w.page x).inDram = (v.page x).inDram ∧ (w.page x).reads = (v.page x).reads) :
    w.Wants ↔ v.Starved cfg := by
  have hcold : ∀ c, w.list c = some .dramCold ↔ _ := fun c =>
    used_iff hI hpr true false
  have hnvm : ∀ c, w.list c = some .nvmHot ↔ _ := fun c =>
    used_iff hI hpr false true
  unfold View.Wants View.Starved
  simp only [hcold, hnvm, (hs _).1, (hs _).2.1, (hs _).2.2, and_assoc]
  exact ⟨fun h => ⟨hall, h⟩, fun h => h.2⟩

/-- Before its migration loop a pass of a plain run does not abort. -/
theorem beforeMigration_returns (hg : s.Good) (hI : Inv cfg.pages Allow.none s.view)
    (hF : Framed cfg s.view) : Sat beforeMigration (fun _ t => t.Good ∧
      Moves Allow.none s.view t.view ∧ t.view.free = []) (fun _ => False) s := by
  have hspec := (beforeMigration_spec cfg Allow.none (.inl trivial)).at hg rfl
  refine sat_iff.2 ⟨fun _ _ hr => hspec.ok hr, fun e he => ?_⟩
  have hlate : e.late = false := by
    by_contra hl
    exact (avoids_beforeMigration (Bool.eq_true_of_not_eq_false hl) s).error he rfl
  obtain ⟨v, hm, hf⟩ := hspec.error he
  obtain ⟨hI', hF'⟩ := framed_kept.moves ⟨hI, hF⟩ hm
  rcases hI'.fails hF' hf with rfl | rfl | ⟨rfl, -⟩ <;> cases hlate

/-- A pass of a plain run fails to find a free NVM page exactly if it is starved. -/
theorem pebsPolicyPass_np (hg : s.Good) (hI : Inv cfg.pages Allow.none s.view)
    (hF : Framed cfg s.view) : Sat (pebsPolicyPass cfg) (fun _ _ => ¬ s.view.Starved cfg)
      (fun e => e = .policyNp ↔ s.view.Starved cfg) s := by
  have hcool : ∀ (r : Bool) (t : State), ¬ s.view.Starved cfg → Sat (if r then coolBoth else pure ())
      (fun _ _ => ¬ s.view.Starved cfg) (fun e => e = .policyNp ↔ s.view.Starved cfg) t := by
    intro r t hno
    refine (avoids_ite (avoids_coolBoth (e := .policyNp) rfl) avoids_pure t).mono (fun _ _ _ => hno) fun e he => ?_
    simp [he, hno]
  have hbefore := beforeMigration_returns hg hI hF
  unfold pebsPolicyPass
  by_cases hall : ∀ p < cfg.pages, (s.page p).present = true
  · refine (hbefore.run.mono (fun _ _ => id) fun _ => False.elim).bind
      fun _ t ht => ?_
    obtain ⟨hr, hg', hm, hf⟩ := ht
    have hI' : Inv cfg.pages Allow.none t.view := inv_kept.moves hI hm
    have hpr : ∀ p < cfg.pages, (t.view.page p).present = true := fun p hp =>
      (hm.present hI p).trans (hall p hp)
    have hwants : t.view.Wants ↔ s.view.Starved cfg :=
      wants_iff hI' hall hpr ((beforeMigration_served hg hI hall).ok hr)
    have hfull : t.view.Full := fun x q hx hk => by
      exact absurd (hpr x (hI'.owned x q hx)) (by simp [hI'.free x q hx hk])
    rw [listLength, sat_bind, sat_bind, sat_get, sat_pure]
    have hlen : (t.fifo.contents .nvmHot).length < (t.fifo.list .nvmHot).numentries + 1 := by
      rw [hg'.fifo.length_contents]
      exact Nat.lt_succ_self _
    refine ((migrateLoop_full hg' hfull (hI'.enforced.resolve_left id)
      (fun x hx => hg'.fifo.mem_contents.2 hx) hlen (by decide)).mono (fun _ _ => id)
      fun e he => ?_).bind fun r u hno => hcool r u (hwants.not.1 hno)
    simp [he.1, hwants.1 he.2]
  · have hno : ¬ s.view.Starved cfg := fun h => hall h.1
    refine (hbefore.mono (fun _ _ => id) fun _ => False.elim).bind fun _ t ht => ?_
    obtain ⟨hg', hm, hf⟩ := ht
    have hspare : Spare cfg t := by
      refine ⟨hg', inv_kept.moves hI hm, hf, ?_⟩
      by_contra hn
      refine hall fun p hp => ?_
      by_contra hpr
      exact hn ⟨p, hp, (hm.present hI p).trans (Bool.eq_false_iff.2 hpr)⟩
    rw [listLength, sat_bind, sat_bind, sat_get, sat_pure]
    refine ((migrateLoop_spare hspare).mono (fun _ _ => id) fun e he => ?_).bind
      fun r u _ => hcool r u hno
    simp [he, hno]

/-- A pass of a plain run ends exactly if it is not starved, and so does a migration pass of
`lru_kswapd`. -/
theorem pass_ends_iff :
    (∀ s, (policy cfg kernel).Reach (fun s op => op.Legal cfg s ∧ op.Plain) s →
      (s.PassEnds cfg ↔ ¬ s.view.Starved cfg)) ∧
    ∀ s, (lruPolicy cfg kernel).Reach (LruOp.Legal cfg) s → (s.PassEnds cfg ↔ ¬ s.Starved) := by
  refine ⟨fun s h => ?_, fun s h => ?_⟩
  · obtain ⟨hg, hI, hF⟩ := plain_reach h
    obtain ⟨herr, hok⟩ := plain_run_asserts h
    have hnp := pebsPolicyPass_np hg hI hF
    constructor
    · rintro ⟨hends, -⟩ hst
      rcases hr : pebsPolicyPass cfg s with e | ⟨⟨⟩, t⟩
      · rw [(hnp.error hr).2 hst] at hr
        exact absurd (hends _ hr).1 (by simp)
      · exact hnp.ok hr hst
    · refine fun hno => ⟨fun e he => ?_, fun t ht p hp hpr hin => ?_⟩
      · rcases herr .pass trivial trivial e he with rfl | rfl | he' | ⟨-, _, h⟩
        · exact absurd rfl ((avoids_pebsPolicyPass s).error he)
        · exact absurd ((hnp.error he).1 rfl) hno
        · exact he'
        · cases h
      · have hm := ((hok t ht).1 p hp).1 hpr
        rw [hin] at hm
        cases hhot : (t.page p).hot
        · exact .inr (by rwa [hhot] at hm)
        · exact .inl (by rwa [hhot] at hm)
  · have hok := lru_reach h
    have hsat := lruKswapd_sat hok
    constructor
    · rintro ⟨hends, -⟩ hst
      rcases hr : lruKswapd cfg s with e | ⟨⟨⟩, t⟩
      · rcases hsat.error hr with ⟨rfl, -⟩ | ⟨-, hno, -⟩
        · exact absurd (hends _ hr).1 (by simp)
        · exact hno hst
      · exact (hsat.ok hr).1 hst
    · refine fun hno => ⟨fun e he => ?_, fun t ht p hp hpr hin => ?_⟩
      · rcases hsat.error he with ⟨-, hst⟩ | ⟨he, -, hu⟩
        · exact absurd hst hno
        · exact ⟨he, hu⟩
      · obtain ⟨-, hokt⟩ := hsat.ok ht
        obtain ⟨q, hq⟩ := Option.ne_none_iff_exists'.1 ((hokt.2.each p).listed.2 hp)
        have hP := hokt.2.at hq
        have hf := hP.present q rfl
        rw [hpr] at hf
        exact ⟨q, by rw [← hP.tier q rfl, hin], by simpa using hf.symm, hokt.1.mem_contents.2 hq⟩

/-- All four pages are given out and have their addresses. -/
def allGiven : List Op :=
  [.allocate, .assign 0 hugepageSize, .allocate, .assign 1 (2 * hugepageSize),
    .allocate, .assign 2 (3 * hugepageSize), .allocate, .assign 3 (4 * hugepageSize)]

/-- The same for `lru.c`. -/
def lruAllGiven : List LruOp :=
  [.allocate, .assign 0 hugepageSize, .allocate, .assign 1 (2 * hugepageSize),
    .allocate, .assign 2 (3 * hugepageSize), .allocate, .assign 3 (4 * hugepageSize)]

/-- All pages are given out, and none of NVM is hot; for `lru.c` none of DRAM is inactive. -/
theorem pass_ends_iff_given : ∃ (s : State) (s' : LruState),
    (∀ p < fourFrames.pages, (s.page p).present = true) ∧ s.PassEnds fourFrames ∧
      (∀ p < fourFrames.pages, (s'.page p).present = true) ∧ s'.PassEnds fourFrames := by
  obtain ⟨hpebs, hlru⟩ := @pass_ends_iff fourFrames Kernel.fresh
  obtain ⟨s, hs, hP⟩ := policy_reach fourFrames Kernel.fresh
    (fun s op => op.Legal fourFrames s ∧ op.Plain) (fun _ _ => id) allGiven
    (fun s => (∀ p < fourFrames.pages, (s.page p).present = true) ∧ ¬ s.view.Starved fourFrames)
    (by decide +kernel)
  obtain ⟨s', hs', hP'⟩ := lru_reach_run fourFrames Kernel.fresh lruAllGiven
    (fun s => (∀ p < fourFrames.pages, (s.page p).present = true) ∧ ¬ s.Starved)
    (by decide +kernel)
  obtain ⟨h1, h2⟩ := of_decide_eq_true hP
  obtain ⟨h3, h4⟩ := of_decide_eq_true hP'
  exact ⟨s, s', h1, (hpebs s hs).2 h2, h3, (hlru s' hs').2 h4⟩

/-- Page 2, in NVM, is read eight times: no free page takes the cold page that would make room. -/
theorem full_machine_crashes : ∃ s, (policy fourFrames Kernel.fresh).Reach
    (fun s op => op.Legal fourFrames s ∧ op.Plain) s ∧
      pebsPolicyPass fourFrames s = .error .policyNp := by
  obtain ⟨s, hs, hP⟩ := policy_reach fourFrames Kernel.fresh
    (fun s op => op.Legal fourFrames s ∧ op.Plain) (fun _ _ => id)
    (allGiven ++ List.replicate 8 (.sample .nvmread 2))
    (fun s => match pebsPolicyPass fourFrames s with
      | .error e => e = .policyNp
      | .ok _ => false) (by decide +kernel)
  refine ⟨s, hs, ?_⟩
  rcases hr : pebsPolicyPass fourFrames s with e | r
  · simp only [hr, decide_eq_true_eq] at hP
    rw [hP]
  · simp [hr] at hP

end Pass

end HeMem

import HeMem.Proofs.Sweep
import HeMem.Rotate

/-!
# The two builds of the cooling sweep agree

Both judge the pages of the hot list from its end to its start.  In place, the pages that stay lie
behind the cursor; with rotation they come round to the front.  Once all have been judged the first
build has no next page, and the second only turns the list on: a page judged twice is as it was.
-/

namespace HeMem

open Hoare Function

variable {s t u : State} {dram : Bool} {hot cold : ListId} {current : Option PageId} {p : PageId}
  {T H C seen : List PageId} {α : Type} {Q : α → State → Prop} {E : Abort → Prop}

section Steps

/-- The sweep of a tier is over. -/
def State.ended (t : State) (dram : Bool) : State :=
  if dram then { t with startDramPage := none, needCoolDram := false }
  else { t with startNvmPage := none, needCoolNvm := false }

/-- The page has been judged, and its counters are what they were. -/
def State.judged (t : State) (dram : Bool) (p : PageId) : State :=
  let u := { t with page := update t.page p ((t.page p).cooled t.globalClock) }
  if t.startPage dram = some p then u.ended dram else u

/-- How both builds judge a page. -/
theorem sat_judge {k : M α} : Sat (do
      check ((← getPage p).inDram = dram) .coolInDram
      let clock := (← get).globalClock
      modifyPage p fun q =>
        let tmpAccesses := fun j => q.accesses j >>> (clock - q.localClock)
        if tmpAccesses .dramread + tmpAccesses .nvmread < hotReadThreshold then
          { q with hot := false }
        else q
      if dram && (← get).startDramPage = some p then
        modify ({ · with startDramPage := none, needCoolDram := false })
      if !dram && (← get).startNvmPage = some p then
        modify ({ · with startNvmPage := none, needCoolNvm := false })
      k) Q E t ↔
    ((t.page p).inDram = dram → Sat k Q E (t.judged dram p)) ∧
      ((t.page p).inDram ≠ dram → E .coolInDram) := by
  rw [sat_getPage, sat_bind, sat_check]
  refine and_congr_left' (forall_congr' fun _ => ?_)
  rw [sat_bind, sat_get, sat_modifyPage, sat_bind, sat_get]
  unfold State.judged
  by_cases hp : t.startPage dram = some p
  · rw [if_pos hp]
    cases dram
    · rw [if_neg (by simp), sat_bind, sat_get, if_pos (by simpa [State.startPage] using hp),
        sat_bind, sat_modify]
      rfl
    · rw [if_pos (by simpa [State.startPage] using hp), sat_bind, sat_modify, sat_bind, sat_get,
        if_neg (by simp)]
      rfl
  · rw [if_neg hp]
    cases dram
    · rw [if_neg (by simp), sat_bind, sat_get, if_neg (by simpa [State.startPage] using hp)]
      rfl
    · rw [if_neg (by simpa [State.startPage] using hp), sat_bind, sat_get, if_neg (by simp)]
      rfl

/-- How both builds remember where the sweep ends. -/
theorem sat_remember {k : M α} : Sat (do
      if (← get).startDramPage = none ∧ dram then
        modify fun s => { s with startDramPage := (s.fifo.list hot).last }
      if (← get).startNvmPage = none ∧ !dram then
        modify fun s => { s with startNvmPage := (s.fifo.list hot).last }
      k) Q E t ↔ Sat k Q E (t.begun hot dram) := by
  unfold State.begun
  rw [sat_bind, sat_get]
  by_cases hs : t.startPage dram = none
  · rw [if_pos hs]
    cases dram
    · rw [if_neg (by simp), sat_bind, sat_get, if_pos (by simpa [State.startPage] using hs),
        sat_bind, sat_modify]
      rfl
    · rw [if_pos (by simpa [State.startPage] using hs), sat_bind, sat_modify, sat_bind, sat_get,
        if_neg (by simp)]
      rfl
  · rw [if_neg hs]
    cases dram
    · rw [if_neg (by simp), sat_bind, sat_get, if_neg (by simpa [State.startPage] using hs)]
    · rw [if_neg (by simpa [State.startPage] using hs), sat_bind, sat_get, if_neg (by simp)]

/-- How both builds begin. -/
theorem sat_begin {a : α} {k : M α} : Sat (do
      if dram && !(← get).needCoolDram then
        return a
      if !dram && !(← get).needCoolNvm then
        return a
      if (← get).startDramPage = none ∧ dram then
        modify fun s => { s with startDramPage := (s.fifo.list hot).last }
      if (← get).startNvmPage = none ∧ !dram then
        modify fun s => { s with startNvmPage := (s.fifo.list hot).last }
      k) Q E t ↔
    (t.needCool dram = true → Sat k Q E (t.begun hot dram)) ∧
      (t.needCool dram = false → Q a t) := by
  rw [← sat_remember, sat_bind, sat_get]
  rcases hn : t.needCool dram
  · simp only [Bool.false_eq_true, false_imp_iff, true_and, forall_const]
    cases dram
    · rw [if_neg (by simp), sat_bind, sat_get, if_pos (by simpa [State.needCool] using hn),
        sat_pure]
    · rw [if_pos (by simpa [State.needCool] using hn), sat_pure]
  · simp only [Bool.true_eq_false, false_imp_iff, and_true, forall_const]
    cases dram
    · rw [if_neg (by simp), sat_bind, sat_get, if_neg (by simpa [State.needCool] using hn)]
    · rw [if_neg (by simpa [State.needCool] using hn), sat_bind, sat_get, if_neg (by simp)]

end Steps

section Judged

/-- The page stays on the hot list. -/
def State.stays (s : State) (p : PageId) : Bool := ((s.page p).cooled s.globalClock).hot

/-- The sweep has come to its end. -/
def State.EndIn (s : State) (dram : Bool) (seen : List PageId) : Prop :=
  ∃ p ∈ seen, s.startPage dram = some p

/-- Since `s`, the pages `seen` have been judged. -/
structure Judged (s : State) (dram : Bool) (seen : List PageId) (t : State) : Prop where
  page : ∀ p, t.page p = if p ∈ seen then (s.page p).cooled s.globalClock else s.page p
  clock : t.globalClock = s.globalClock
  ends : s.EndIn dram seen → t.needCool dram = false ∧ t.startPage dram = none
  goes : ∀ tier, (tier = dram → ¬ s.EndIn dram seen) →
    t.needCool tier = s.needCool tier ∧ t.startPage tier = s.startPage tier
  tier : ∀ p ∈ seen, (s.page p).inDram = dram

theorem HememPage.cooled_cooled (P : HememPage) (clock : UInt64) :
    (P.cooled clock).cooled clock = P.cooled clock := by
  unfold HememPage.cooled
  split_ifs <;> simp_all

theorem HememPage.cooled_inDram (P : HememPage) (clock : UInt64) :
    (P.cooled clock).inDram = P.inDram := by
  unfold HememPage.cooled
  split <;> rfl

theorem Judged.init : Judged s dram [] s where
  page _ := by simp
  clock := rfl
  ends := nofun
  goes _ _ := ⟨rfl, rfl⟩
  tier _ hp := absurd hp List.not_mem_nil

/-- The pages that have been judged, and no others, say what has changed. -/
theorem Judged.congr {seen' : List PageId} (h : Judged s dram seen t)
    (hs : ∀ p, p ∈ seen' ↔ p ∈ seen) : Judged s dram seen' t where
  page p := by simp only [h.page, hs]
  clock := h.clock
  ends he := h.ends (by simpa only [State.EndIn, hs] using he)
  goes tier ht := h.goes tier (by simpa only [State.EndIn, hs] using ht)
  tier p hp := h.tier p ((hs p).1 hp)

theorem Judged.links (h : Judged s dram seen t) {f : Heap ListId PageId} :
    Judged s dram seen { t with fifo := f } :=
  ⟨h.page, h.clock, h.ends, h.goes, h.tier⟩

theorem Judged.inDram (h : Judged s dram seen t) (p : PageId) :
    (t.page p).inDram = (s.page p).inDram := by
  rw [h.page]
  split
  · exact (s.page p).cooled_inDram _
  · rfl

/-- Judging a page again changes nothing. -/
theorem Judged.cooled (h : Judged s dram seen t) (p : PageId) :
    (t.page p).cooled t.globalClock = (s.page p).cooled s.globalClock := by
  rw [h.page, h.clock]
  split
  · exact HememPage.cooled_cooled _ _
  · rfl

@[simp] theorem State.judged_fifo : (t.judged dram p).fifo = t.fifo := by
  unfold State.judged State.ended
  split
  · cases dram <;> rfl
  · rfl

@[simp] theorem State.judged_globalClock : (t.judged dram p).globalClock = t.globalClock := by
  unfold State.judged State.ended
  split
  · cases dram <;> rfl
  · rfl

theorem State.judged_page : (t.judged dram p).page =
    update t.page p ((t.page p).cooled t.globalClock) := by
  unfold State.judged State.ended
  split
  · cases dram <;> rfl
  · rfl

theorem State.judged_ends (hp : t.startPage dram = some p) :
    (t.judged dram p).needCool dram = false ∧ (t.judged dram p).startPage dram = none := by
  unfold State.judged State.ended
  rw [if_pos hp]
  cases dram <;> exact ⟨rfl, rfl⟩

theorem State.judged_goes {tier : Bool} (hp : tier = dram → t.startPage dram ≠ some p) :
    (t.judged dram p).needCool tier = t.needCool tier ∧
      (t.judged dram p).startPage tier = t.startPage tier := by
  unfold State.judged State.ended
  by_cases hs : t.startPage dram = some p
  · rw [if_pos hs]
    cases dram <;> cases tier
    · exact absurd hs (hp rfl)
    · exact ⟨rfl, rfl⟩
    · exact ⟨rfl, rfl⟩
    · exact absurd hs (hp rfl)
  · rw [if_neg hs]
    exact ⟨rfl, rfl⟩

/-- One more page is judged. -/
theorem Judged.judge (h : Judged s dram seen t) (hp : (s.page p).inDram = dram) :
    Judged s dram (p :: seen) (t.judged dram p) := by
  refine ⟨fun q => ?_, State.judged_globalClock.trans h.clock, fun he => ?_, fun tier hg => ?_,
    List.forall_mem_cons.2 ⟨hp, h.tier⟩⟩
  · rw [State.judged_page, h.cooled, update_apply]
    by_cases hq : q = p
    · rw [if_pos hq, if_pos (List.mem_cons.2 (.inl hq)), hq]
    · rw [if_neg hq, h.page]
      simp [hq]
  · by_cases hs : t.startPage dram = some p
    · exact State.judged_ends hs
    have hgo : (t.judged dram p).needCool dram = t.needCool dram ∧
        (t.judged dram p).startPage dram = t.startPage dram := State.judged_goes fun _ => hs
    rw [hgo.1, hgo.2]
    refine h.ends ?_
    obtain ⟨q, hq, hsq⟩ := he
    by_contra hn
    rw [(h.goes dram fun _ => hn).2] at hs
    rcases List.mem_cons.1 hq with rfl | hq
    · exact hs hsq
    · exact hn ⟨q, hq, hsq⟩
  · have hold := h.goes tier fun ht he => hg ht <| he.imp fun q hq => ⟨.tail _ hq.1, hq.2⟩
    have hnew : tier = dram → t.startPage dram ≠ some p := fun ht hs => by
      subst ht
      exact hg rfl ⟨p, .head _, hold.2 ▸ hs⟩
    rw [(State.judged_goes hnew).1, (State.judged_goes hnew).2]
    exact hold

theorem State.stays_of_judged (h : Judged s dram seen t) :
    ((t.judged dram p).page p).hot = s.stays p := by
  rw [State.judged_page, update_self, h.cooled]
  rfl

end Judged

section Lists

/-- The last page is taken off the hot list. -/
theorem State.Holds.dequeue (h : t.Holds hot cold (H ++ [p]) C) (hne : hot ≠ cold) :
    ∃ f, dequeueFifo hot t.fifo = .ok (some p, f) ∧ f.listOf p = none ∧
      ∀ u : State, u.fifo = f → u.Holds hot cold H C := by
  obtain ⟨L, hr, hH, hC⟩ := h
  obtain ⟨r, f, hf, hrr, hr'⟩ := (dequeueFifo_rep hr (q := hot)).returns
  have hd := hr.nodup hot
  rw [hH] at hd hrr hr'
  rw [List.getLast?_concat] at hrr
  rw [List.dropLast_concat] at hr'
  subst hrr
  refine ⟨f, hf, hr.off_of_removed hr' (by simp [hH]) fun hx =>
    (List.disjoint_of_nodup_append hd) hx (by simp), fun u hu => ⟨_, hu ▸ hr', ?_, ?_⟩⟩
  · rw [update_self]
  · rw [update_of_ne hne.symm, hC]

theorem State.Holds.enqueue (h : t.Holds hot cold H C) (hne : hot ≠ cold)
    (hoff : t.fifo.listOf p = none) :
    Sat (onFifo (enqueueFifo hot p))
      (fun _ u => u.Holds hot cold (p :: H) C ∧ ∃ f, u = { t with fifo := f }) (fun _ => False) t ∧
    Sat (onFifo (enqueueFifo cold p))
      (fun _ u => u.Holds hot cold H (p :: C) ∧ ∃ f, u = { t with fifo := f })
      (fun _ => False) t := by
  obtain ⟨L, hr, hH, hC⟩ := h
  constructor
  · obtain ⟨_, f, hf, hr'⟩ := (enqueueFifo_rep (q := hot) hr hoff).returns
    rw [sat_onFifo hf]
    exact ⟨⟨_, hr', by rw [update_self, hH], by rw [update_of_ne hne.symm, hC]⟩, f, rfl⟩
  · obtain ⟨_, f, hf, hr'⟩ := (enqueueFifo_rep (q := cold) hr hoff).returns
    rw [sat_onFifo hf]
    exact ⟨⟨_, hr', by rw [update_of_ne hne, hH], by rw [update_self, hC]⟩, f, rfl⟩

end Lists

section Loops

/-- The pages judged that are still hot, the last one judged first. -/
def State.kept (s : State) (seen : List PageId) : List PageId := seen.filter s.stays

/-- The pages judged that are cold now. -/
def State.left (s : State) (seen : List PageId) : List PageId := seen.filter (!s.stays ·)

theorem coolPage_judged (hne : hot ≠ cold) (hj : Judged s dram seen t)
    (h : t.Holds hot cold (T ++ p :: s.kept seen) (s.left seen ++ C)) :
    Sat (coolPage hot cold dram p) (fun c u => Judged s dram (p :: seen) u ∧
      u.Holds hot cold (T ++ s.kept (p :: seen)) (s.left (p :: seen) ++ C) ∧
      c = (s.kept (p :: seen)).head?)
      (fun e => e = .coolInDram ∧ (s.page p).inDram ≠ dram) t := by
  unfold HeMem.coolPage
  refine sat_judge.2 ⟨fun hp => ?_, fun hp => ⟨rfl, hj.inDram p ▸ hp⟩⟩
  have hu := hj.judge (hj.inDram p ▸ hp)
  have hh : (t.judged dram p).Holds hot cold (T ++ p :: s.kept seen) (s.left seen ++ C) := by
    unfold State.Holds
    rw [State.judged_fifo]
    exact h
  refine sat_getPage.2 ?_
  rw [State.stays_of_judged hj, sat_ite]
  unfold State.kept State.left at *
  refine ⟨fun hs => ?_, fun hs => ?_⟩
  · obtain ⟨hnext, hmove⟩ := hh.move hne
    have hs : s.stays p = false := by simpa using hs
    rw [sat_bind, sat_get, ← bind_assoc]
    refine (hmove.mono (fun _ _ => id) fun _ => False.elim).bind fun _ u ⟨hu', f, hf⟩ => ?_
    subst hf
    simp only [sat_pure, List.filter_cons, hs]
    exact ⟨hu.links, hu', hnext⟩
  · have hs : s.stays p = true := by simpa using hs
    simp only [sat_pure, List.filter_cons, hs]
    exact ⟨hu, hh, rfl⟩

theorem rotating_coolPage_judged (hne : hot ≠ cold) (hj : Judged s dram seen t)
    (hoff : t.fifo.listOf p = none) (h : t.Holds hot cold H C) :
    Sat (Rotating.coolPage hot cold dram p) (fun _ u => Judged s dram (p :: seen) u ∧
      u.Holds hot cold (if s.stays p then p :: H else H) (if s.stays p then C else p :: C))
      (fun e => e = .coolInDram ∧ (s.page p).inDram ≠ dram) t := by
  unfold Rotating.coolPage
  refine sat_judge.2 ⟨fun hp => ?_, fun hp => ⟨rfl, hj.inDram p ▸ hp⟩⟩
  have hu := hj.judge (hj.inDram p ▸ hp)
  have hh : (t.judged dram p).Holds hot cold H C := by
    unfold State.Holds
    rw [State.judged_fifo]
    exact h
  obtain ⟨hstay, hleave⟩ := hh.enqueue hne (by rw [State.judged_fifo]; exact hoff)
  refine sat_getPage.2 ?_
  rw [State.stays_of_judged hj, sat_ite]
  refine ⟨fun hs => ?_, fun hs => ?_⟩
  · rw [if_pos hs, if_pos hs]
    refine hstay.mono (fun _ u ⟨hu', f, hf⟩ => ?_) fun _ => False.elim
    subst hf
    exact ⟨hu.links, hu'⟩
  · rw [if_neg hs, if_neg hs]
    refine hleave.mono (fun _ u ⟨hu', f, hf⟩ => ?_) fun _ => False.elim
    subst hf
    exact ⟨hu.links, hu'⟩

/-- In place, the loop judges every page and leaves those that stay in their order. -/
theorem coolLoop_judged (hne : hot ≠ cold) : ∀ {turns : ℕ} {T seen : List PageId} {t : State},
    T.length ≤ turns → Judged s dram seen t →
      t.Holds hot cold (T ++ s.kept seen) (s.left seen ++ C) →
        Sat (coolLoop hot cold dram turns (s.kept seen).head?) (fun _ u =>
          Judged s dram (T ++ seen) u ∧
            u.Holds hot cold (s.kept (T ++ seen)) (s.left (T ++ seen) ++ C))
          (fun e => e = .coolInDram ∧ ∃ p ∈ T, (s.page p).inDram ≠ dram) t
  | 0, T, seen, t, hlen, hj, h => by
    obtain rfl : T = [] := List.eq_nil_of_length_eq_zero (Nat.le_zero.1 hlen)
    unfold coolLoop
    exact ⟨hj, h⟩
  | turns + 1, T, seen, t, hlen, hj, h => by
    unfold coolLoop
    obtain ⟨r, f, hn, rfl, hr⟩ := h.nextPage.returns
    rw [sat_bind, sat_onFifo hn]
    rcases List.eq_nil_or_concat' T with rfl | ⟨T, p, rfl⟩
    · obtain rfl : r = none := hr
      exact ⟨hj, h⟩
    rw [List.getLast?_concat] at hr
    subst hr
    rw [List.append_assoc, List.singleton_append] at h
    rw [List.length_append] at hlen
    refine ((coolPage_judged hne hj h).mono (fun _ _ => id) fun e he => ?_).bind
      fun c u hu => ?_
    · exact ⟨he.1, p, by simp, he.2⟩
    obtain ⟨hu, hh, rfl⟩ := hu
    rw [List.append_assoc, List.singleton_append]
    refine (coolLoop_judged hne (Nat.le_of_lt_succ hlen) hu hh).mono (fun _ _ => id) fun e he => ?_
    exact ⟨he.1, he.2.imp fun q hq => ⟨List.mem_append_left _ hq.1, hq.2⟩⟩

/-- Once all pages have been judged, the loop turns the list on and changes nothing else. -/
theorem rotating_coolLoop_still (hne : hot ≠ cold) : ∀ {turns : ℕ} {H : List PageId} {t : State},
    Judged s dram seen t → t.Holds hot cold H C → (∀ p ∈ H, p ∈ seen ∧ s.stays p = true) →
      Sat (Rotating.coolLoop hot cold dram turns) (fun _ u => Judged s dram seen u ∧
        ∃ H', u.Holds hot cold H' C ∧ H' ~r H) (fun _ => False) t
  | 0, H, t, hj, h, _ => ⟨hj, H, h, .refl _⟩
  | turns + 1, H, t, hj, h, hH => by
    unfold Rotating.coolLoop
    rcases List.eq_nil_or_concat' H with rfl | ⟨H, p, rfl⟩
    · obtain ⟨L, hr, hL, hC⟩ := h
      rw [sat_bind, sat_onFifo (dequeueFifo_empty (by rw [hr.last, hL]; rfl))]
      exact ⟨hj, [], ⟨L, hr, hL, hC⟩, .refl _⟩
    obtain ⟨f, hf, hoff, hh⟩ := h.dequeue hne
    obtain ⟨hp, hs⟩ := hH p (by simp)
    rw [sat_bind, sat_onFifo hf]
    refine ((rotating_coolPage_judged hne (hj.links (f := f)) hoff (hh _ rfl)).mono
      (fun _ _ => id) fun e he => he.2 (hj.tier p hp)).bind fun _ u ⟨hu, hu'⟩ => ?_
    rw [if_pos hs, if_pos hs] at hu'
    have hjp : Judged s dram seen u := hu.congr fun q => by
      simp only [List.mem_cons]
      exact ⟨.inr, fun hq => hq.elim (fun hq => hq ▸ hp) id⟩
    refine (rotating_coolLoop_still hne hjp hu' fun q hq => hH q ?_).post
      fun _ w ⟨hw, H', hw', hrot⟩ => ⟨hw, H', hw', hrot.trans ?_⟩
    · simpa [or_comm] using hq
    · exact List.isRotated_append (l := [p])

/-- With rotation, the loop judges every page and then turns on. -/
theorem rotating_coolLoop_judged (hne : hot ≠ cold) :
    ∀ {turns : ℕ} {T seen : List PageId} {t : State}, T.length ≤ turns → Judged s dram seen t →
      t.Holds hot cold (s.kept seen ++ T) (s.left seen ++ C) →
        Sat (Rotating.coolLoop hot cold dram turns) (fun _ u => Judged s dram (T ++ seen) u ∧
          ∃ H, u.Holds hot cold H (s.left (T ++ seen) ++ C) ∧ H ~r s.kept (T ++ seen))
          (fun e => e = .coolInDram ∧ ∃ p ∈ T, (s.page p).inDram ≠ dram) t
  | turns, [], seen, t, _, hj, h => by
    rw [List.append_nil] at h
    exact (rotating_coolLoop_still hne hj h fun p hp => List.mem_filter.1 hp).mono
      (fun _ _ => id) fun _ => False.elim
  | 0, q :: T, seen, t, hlen, _, _ => absurd hlen (Nat.not_succ_le_zero _)
  | turns + 1, q :: T, seen, t, hlen, hj, h => by
    obtain ⟨T', p, hT⟩ := (List.eq_nil_or_concat' (q :: T)).resolve_left (List.cons_ne_nil q T)
    rw [hT] at h hlen ⊢
    rw [← List.append_assoc] at h
    rw [List.length_append] at hlen
    unfold Rotating.coolLoop
    obtain ⟨f, hf, hoff, hh⟩ := h.dequeue hne
    rw [sat_bind, sat_onFifo hf]
    refine ((rotating_coolPage_judged hne (hj.links (f := f)) hoff (hh _ rfl)).mono
      (fun _ _ => id) fun e he => ?_).bind fun _ u ⟨hu, hu'⟩ => ?_
    · exact ⟨he.1, p, by simp, he.2⟩
    have hu' : u.Holds hot cold (s.kept (p :: seen) ++ T') (s.left (p :: seen) ++ C) := by
      unfold State.kept State.left at *
      rcases hs : s.stays p <;> simpa [List.filter_cons, hs] using hu'
    rw [List.append_assoc, List.singleton_append]
    refine (rotating_coolLoop_judged hne (Nat.le_of_lt_succ hlen) hu hu').mono (fun _ _ => id)
      fun e he => ?_
    exact ⟨he.1, he.2.imp fun q hq => ⟨List.mem_append_left _ hq.1, hq.2⟩⟩

end Loops

section Agreement

/-- What has been judged says all of the state but the links. -/
theorem Judged.agree (ht : Judged s dram seen t) (hu : Judged s dram seen u) :
    t.page = u.page ∧ ∀ tier, t.needCool tier = u.needCool tier ∧
      t.startPage tier = u.startPage tier := by
  refine ⟨funext fun p => (ht.page p).trans (hu.page p).symm, fun tier => ?_⟩
  by_cases he : tier = dram → ¬ s.EndIn dram seen
  · rw [(ht.goes tier he).1, (ht.goes tier he).2]
    exact ⟨(hu.goes tier he).1.symm, (hu.goes tier he).2.symm⟩
  · rw [Classical.not_imp, not_not] at he
    obtain ⟨rfl, he⟩ := he
    rw [(ht.ends he).1, (ht.ends he).2]
    exact ⟨(hu.ends he).1.symm, (hu.ends he).2.symm⟩

/-- Called with a null cursor on a hot list that one call goes through, the build in place and the
rotating one do the same up to a rotation of the hot list. -/
theorem partial_cool_builds_agree (hw : s.fifo.Wf) (hne : hot ≠ cold)
    (hlen : (s.fifo.contents hot).length ≤ coolingPages) :
    SameOutcome hot cold (partialCool hot cold dram none s)
      (Rotating.partialCool hot cold dram s) := by
  rcases hn : s.needCool dram
  · have hplace : Sat (partialCool hot cold dram none) (fun _ t => t = s) (fun _ => False) s :=
      sat_begin.2 ⟨fun h => absurd (hn.symm.trans h) (by decide), fun _ => rfl⟩
    have hturn : Sat (Rotating.partialCool hot cold dram) (fun _ t => t = s) (fun _ => False) s :=
      sat_begin.2 ⟨fun h => absurd (hn.symm.trans h) (by decide), fun _ => rfl⟩
    obtain ⟨c, t, ht, rfl⟩ := hplace.returns
    obtain ⟨_, u, hu, rfl⟩ := hturn.returns
    rw [ht, hu]
    exact ⟨rfl, .refl _, fun _ => rfl, fun _ => rfl, fun _ => rfl⟩
  · have hh : (s.begun hot dram).Holds hot cold (s.fifo.contents hot) (s.fifo.contents cold) := by
      obtain ⟨L, hr⟩ := hw
      refine ⟨L, ?_, (hr.contents hot).symm, (hr.contents cold).symm⟩
      rw [(State.begun_steady hot).1]
      exact hr
    have hoff : s.needCool dram ≠ false := fun h => absurd (hn.symm.trans h) (by decide)
    have hinit : Judged (s.begun hot dram) dram [] (s.begun hot dram) := .init
    have hplace := coolLoop_judged hne hlen hinit (by simpa [State.kept, State.left] using hh)
    have hturn := rotating_coolLoop_judged hne hlen hinit
      (by simpa [State.kept, State.left] using hh)
    rw [List.append_nil] at hplace hturn
    have hplace : Sat (partialCool hot cold dram none) _ _ s :=
      sat_begin.2 ⟨fun _ => hplace, fun h => absurd h hoff⟩
    have hturn : Sat (Rotating.partialCool hot cold dram) _ _ s :=
      sat_begin.2 ⟨fun _ => hturn, fun h => absurd h hoff⟩
    rcases hp : partialCool hot cold dram none s with e | ⟨c, t⟩ <;>
      rcases hr : Rotating.partialCool hot cold dram s with e' | ⟨⟨⟩, u⟩
    · exact (hplace.error hp).1.trans (hturn.error hr).1.symm
    · obtain ⟨-, p, hmem, hne⟩ := hplace.error hp
      exact hne ((hturn.ok hr).1.tier p hmem)
    · obtain ⟨-, p, hmem, hne⟩ := hturn.error hr
      exact hne ((hplace.ok hp).1.tier p hmem)
    · obtain ⟨ht, hth⟩ := hplace.ok hp
      obtain ⟨hu, H, huh, hrot⟩ := hturn.ok hr
      obtain ⟨hpage, hflags⟩ := ht.agree hu
      refine ⟨hth.contents.2.trans huh.contents.2.symm, ?_, fun p => by rw [hpage],
        fun tier => (hflags tier).1, fun tier => (hflags tier).2⟩
      rw [hth.contents.1, huh.contents.1]
      exact hrot.symm

/-- Five pages, of which the three that stay are rotated and come round again. -/
theorem partial_cool_builds_agree_five : ∃ s : State,
    s.fifo.contents .dramHot = [0, 1, 2, 3, 4] ∧
      (partialCool .dramHot .dramCold true none s).toOption.map
        (fun r => (r.2.fifo.contents .dramHot, r.2.fifo.contents .dramCold)) =
          some ([1, 3, 4], [0, 2]) ∧
      SameOutcome .dramHot .dramCold (partialCool .dramHot .dramCold true none s)
        (Rotating.partialCool .dramHot .dramCold true s) := by
  obtain ⟨s, hw, hf, hc⟩ : ∃ s : State, s.fifo.Wf ∧ s.fifo.contents .dramHot = [0, 1, 2, 3, 4] ∧
      (partialCool .dramHot .dramCold true none s).toOption.map
        (fun r => (r.2.fifo.contents .dramHot, r.2.fifo.contents .dramCold)) =
          some ([1, 3, 4], [0, 2]) :=
    ⟨fiveHot none, (fiveHot_fifo none).1, (fiveHot_fifo none).2, by decide +kernel⟩
  have hlen : (s.fifo.contents .dramHot).length ≤ coolingPages := by
    rw [hf]
    decide
  exact ⟨s, hf, hc, partial_cool_builds_agree hw (by decide) hlen⟩

end Agreement

end HeMem

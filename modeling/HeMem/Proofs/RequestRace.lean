import HeMem.Proofs.Hints
import HeMem.Proofs.Ring
import HeMem.Proofs.Run
import HeMem.RequestRace
import Mathlib.Data.List.Perm.Subperm

/-!
# One request for a page at a time

A page is pending while it is in a request ring, about to be put into one or just taken from one.
No page is pending twice, and a pending page has `ring_present` set: the sampler puts a page only
after it has seen the flag clear, and the policy thread clears it when the page is pending no
longer.  With fewer page structs than slots no ring is ever full when a page is put.
-/

namespace HeMem

open Hoare Function

variable {n capacity : ℕ} {p page : PageId} {hot : Bool}

section Requests

theorem State.requestRing_set (s : State) (hot : Bool) (r : RingBuf PageId) (b : Bool) :
    (s.setRequestRing hot r).requestRing b = if b = hot then r else s.requestRing b := by
  cases hot <;> cases b <;> rfl

theorem State.page_set (s : State) (hot : Bool) (r : RingBuf PageId) :
    (s.setRequestRing hot r).page = s.page := by
  cases hot <;> rfl

/-- What a step of other code leaves alone. -/
def State.requestPart (s : State) : (PageId → Bool) × (Bool → RingBuf PageId) :=
  (fun page => (s.page page).ringPresent, s.requestRing)

theorem sameRequests_of_part {s t : State} (h : t.requestPart = s.requestPart) :
    s.SameRequests t :=
  ⟨fun page => congrFun (congrArg Prod.fst h) page, fun hot => congrFun (congrArg Prod.snd h) hot⟩

theorem frames_modifyPage_part {f : HememPage → HememPage}
    (hf : ∀ p, (f p).ringPresent = p.ringPresent) :
    Frames State.requestPart (modifyPage page f) := fun s => by
  refine Prod.ext (funext fun x => ?_) rfl
  rcases eq_or_ne x page with rfl | hx
  · exact (congrArg HememPage.ringPresent (update_self ..)).trans (hf _)
  · exact congrArg HememPage.ringPresent (update_of_ne hx ..)

/-- A removal is a step that leaves requests alone. -/
theorem pebsRemovePage_sameRequests : Frames State.requestPart (pebsRemovePage page) := by
  unfold pebsRemovePage
  refine frames_get.bind fun s => frames_ite frames_throw ?_
  refine Frames.bind (frames_modify ?_) fun _ => frames_modifyPage_part ?_
  all_goals exact fun _ => rfl

/-- So is a reallocation. -/
theorem pebsAllocatePage_sameRequests : Frames State.requestPart pebsAllocatePage := by
  have hfifo : ∀ {α : Type} {m : FifoM ListId PageId α},
      Frames State.requestPart (onFifo m) := fun {α m} => frames_onFifo fun _ _ => rfl
  have htake : ∀ (dram : Bool) (q : ListId) (p : PageId), Frames State.requestPart (do
      check ((← getPage p).inDram = dram) .allocInDram
      check ((← getPage p).present = false) .allocPresent
      modifyPage p ({ · with present := true })
      onFifo (enqueueFifo q p)
      return p) := fun dram q p => by
    refine frames_getPage.bind fun _ => frames_check.bind fun _ => frames_getPage.bind fun _ =>
      frames_check.bind fun _ => Frames.bind (frames_modifyPage_part ?_) fun _ =>
        hfifo.bind fun _ => frames_pure
    exact fun _ => rfl
  unfold pebsAllocatePage
  refine hfifo.bind fun r => ?_
  rcases r with _ | p
  · refine hfifo.bind fun r => ?_
    rcases r with _ | p
    · exact frames_throw
    · exact htake false .nvmCold p
  · exact htake true .dramCold p

end Requests

namespace RequestRace

variable {s s' : RequestRace}

section Pending

/-- How often a page is pending. -/
def pending (s : RequestRace) (p : PageId) : ℕ :=
  (s.state.requestRing true).entries.count p + (s.state.requestRing false).entries.count p +
    s.sampler.putting.toList.count p + s.policy.serving.toList.count p

structure Inv (n capacity : ℕ) (s : RequestRace) : Prop where
  wf : ∀ hot, (s.state.requestRing hot).Wf
  slots : ∀ hot, (s.state.requestRing hot).capacity = capacity
  once : ∀ p, s.pending p ≤ 1
  known : ∀ p, 0 < s.pending p → p < n ∧ (s.state.page p).ringPresent = true
  decided : ∀ hot p, s.sampler = .setFlag hot p → p < n ∧ (s.state.page p).ringPresent = false
  order : n < capacity → ∀ hot, s.puts hot = s.gets hot ++ (s.state.requestRing hot).entries

theorem count_some (p q : PageId) : (some p).toList.count q = if p = q then 1 else 0 := by
  simp [List.count_singleton]

/-- While a page is about to be put, its ring has a slot for it. -/
theorem Inv.room (h : s.Inv n capacity) (hn : n < capacity) (hp : s.sampler = .put hot page) :
    ringBufFull (s.state.requestRing hot) = false := by
  have hput : s.sampler.putting = some page := by rw [hp]; rfl
  have hone : ∀ p, (page :: (s.state.requestRing hot).entries).count p ≤ s.pending p := fun p => by
    have hc : (page :: (s.state.requestRing hot).entries).count p =
        (s.state.requestRing hot).entries.count p + if page = p then 1 else 0 := by
      simp [List.count_cons]
    rw [hc]
    unfold pending
    rw [hput, count_some]
    cases hot <;> omega
  have hnodup : (page :: (s.state.requestRing hot).entries).Nodup :=
    List.nodup_iff_count_le_one.2 fun p => Nat.le_trans (hone p) (h.once p)
  have hsub : (page :: (s.state.requestRing hot).entries) ⊆ List.range n := fun p hmem => by
    have hpos := List.count_pos_iff.2 hmem
    exact List.mem_range.2 (h.known p (Nat.lt_of_lt_of_le hpos (hone p))).1
  have hlen := (List.subperm_of_subset hnodup hsub).length_le
  rw [List.length_cons, List.length_range, RingBuf.length_entries] at hlen
  rw [← Bool.not_eq_true, (h.wf hot).full_iff, h.slots hot]
  omega

theorem Inv.start (h : Starts capacity s) : s.Inv n capacity := by
  have hring : ∀ hot, (s.state.requestRing hot).Wf ∧ (s.state.requestRing hot).entries = [] ∧
      (s.state.requestRing hot).capacity = capacity := fun hot => by
    obtain ⟨buffer, hb⟩ := h.ring hot
    have hcap : 2 ≤ capacity := by
      by_contra hlt
      obtain rfl | rfl : capacity = 0 ∨ capacity = 1 := by omega
      all_goals simp [ringBufInit, ringBufReset, ringBufEmpty, ringBufFull, RingBuf.wrap] at hb
    obtain ⟨r, hr, hw, he, hc⟩ := ringBufInit_wf (b := buffer) hcap
    rw [hr] at hb
    cases hb
    exact ⟨hw, he, hc⟩
  have hpending : ∀ p, s.pending p = 0 := fun p => by
    simp [pending, (hring _).2.1, h.sampler, h.policy, SamplerPhase.putting, ServePhase.serving]
  refine ⟨fun hot => (hring hot).1, fun hot => (hring hot).2.2, fun p => by rw [hpending]; omega,
    fun p hp => ?_, fun hot p hs => ?_, fun _ hot => ?_⟩
  · rw [hpending] at hp
    omega
  · rw [h.sampler] at hs
    cases hs
  · rw [h.puts, h.gets, (hring hot).2.1]
    rfl

/-- A step that makes no page pending and leaves rings and flags alone. -/
theorem Inv.congr (h : s.Inv n capacity) (hs : s.state.SameRequests s'.state)
    (hle : ∀ p, s'.pending p ≤ s.pending p)
    (hd : ∀ hot p, s'.sampler = .setFlag hot p → p < n ∧ (s'.state.page p).ringPresent = false)
    (hp : s'.puts = s.puts) (hg : s'.gets = s.gets) : s'.Inv n capacity where
  wf hot := hs.ring hot ▸ h.wf hot
  slots hot := hs.ring hot ▸ h.slots hot
  once p := Nat.le_trans (hle p) (h.once p)
  known p hpos := by
    rw [hs.flag]
    exact h.known p (Nat.lt_of_lt_of_le hpos (hle p))
  decided := hd
  order hn hot := by
    rw [hp, hg, hs.ring]
    exact h.order hn hot

theorem Inv.other (h : s.Inv n capacity) {t : State} (ht : s.state.SameRequests t) :
    ({ s with state := t } : RequestRace).Inv n capacity := by
  refine h.congr ht (fun p => ?_) (fun hot p hp => ?_) rfl rfl
  · unfold pending
    rw [ht.ring, ht.ring]
  · have hd := h.decided hot p hp
    rwa [← ht.flag] at hd

theorem sameRequests_edit {t : State} {f : HememPage → HememPage}
    (hf : ∀ p, (f p).ringPresent = p.ringPresent) : t.SameRequests (t.editPage page f) := by
  refine ⟨fun x => ?_, fun b => by cases b <;> rfl⟩
  rcases eq_or_ne x page with rfl | hx
  · exact (congrArg HememPage.ringPresent (update_self ..)).trans (hf _)
  · exact congrArg HememPage.ringPresent (update_of_ne hx ..)

theorem Inv.sample {j : PbufType} (h : s.Inv n capacity) (hp : page < n)
    (hi : s.sampler = .idle) : ({ s with
      state := s.state.editPage page fun p => if p.va ≠ 0 then p.counted j else p
      sampler := match s.state.sampleRequests j page with
        | none => .idle
        | some hot => .setFlag hot page } : RequestRace).Inv n capacity := by
  have hsame : s.state.SameRequests (s.state.editPage page
      fun p => if p.va ≠ 0 then p.counted j else p) := sameRequests_edit fun p => by
    split <;> rfl
  refine h.congr hsame (fun p => ?_) (fun hot p hd => ?_) rfl rfl
  · unfold pending
    dsimp only
    rw [hsame.ring, hsame.ring, hi]
    split <;> exact Nat.le_refl _
  · dsimp only at hd ⊢
    rw [hsame.flag]
    split at hd
    · cases hd
    · rename_i b hb
      cases hd
      refine ⟨hp, ?_⟩
      unfold State.sampleRequests HememPage.request at hb
      dsimp only at hb
      have hc : ((s.state.page page).counted j).ringPresent = (s.state.page page).ringPresent := rfl
      rw [hc] at hb
      rcases hr : (s.state.page page).ringPresent
      · rfl
      · simp [hr] at hb

/-- The sampler sets the flag of a page that is not pending. -/
theorem Inv.setFlag (h : s.Inv n capacity) (hs : s.sampler = .setFlag hot page) : ({ s with
      state := s.state.editPage page ({ · with ringPresent := true })
      sampler := .put hot page } : RequestRace).Inv n capacity := by
  obtain ⟨hp, hflag⟩ := h.decided hot page hs
  have hzero : s.pending page = 0 := by
    by_contra hne
    rw [(h.known page (Nat.pos_of_ne_zero hne)).2] at hflag
    cases hflag
  have hpending : ∀ p, pending { s with
      state := s.state.editPage page ({ · with ringPresent := true })
      sampler := .put hot page } p = s.pending p + if page = p then 1 else 0 := fun p => by
    unfold pending
    have hring : ∀ b, (s.state.editPage page ({ · with ringPresent := true })).requestRing b =
        s.state.requestRing b := fun b => by cases b <;> rfl
    rw [hring, hring, hs]
    simp only [SamplerPhase.putting, count_some, Option.toList_none, List.count_nil]
    omega
  refine ⟨fun b => ?_, fun b => ?_, fun p => ?_, fun p hpos => ?_, nofun, fun hn b => ?_⟩
  · cases b <;> exact h.wf _
  · cases b <;> exact h.slots _
  · rw [hpending]
    have hone := h.once p
    split
    · rename_i he
      rw [← he, hzero]
    · exact hone
  · rw [hpending] at hpos
    rcases eq_or_ne p page with rfl | hne
    · exact ⟨hp, by simp [State.editPage]⟩
    · rw [if_neg hne.symm] at hpos
      obtain ⟨hlt, hf⟩ := h.known p hpos
      exact ⟨hlt, (congrArg HememPage.ringPresent (update_of_ne hne ..)).trans hf⟩
  · have ho := h.order hn b
    cases b <;> exact ho

/-- The sampler puts the page into its ring. -/
theorem Inv.put (h : s.Inv n capacity) (hs : s.sampler = .put hot page) : ({ s with
      state := s.state.setRequestRing hot (ringBufPut (s.state.requestRing hot) page)
      sampler := .idle
      puts := update s.puts hot (s.puts hot ++ [page]) } : RequestRace).Inv n capacity := by
  obtain ⟨hw, he⟩ := (h.wf hot).put (x := page)
  have hcap : (ringBufPut (s.state.requestRing hot) page).capacity =
      (s.state.requestRing hot).capacity := by
    unfold ringBufPut advancePointer
    split <;> rfl
  have hentries : ∀ p, (ringBufPut (s.state.requestRing hot) page).entries.count p ≤
      (s.state.requestRing hot).entries.count p + if page = p then 1 else 0 := fun p => by
    rw [he, List.count_append, List.count_singleton]
    have htail := (List.tail_sublist (s.state.requestRing hot).entries).count_le p
    split <;> simp only [beq_iff_eq] <;> omega
  have hle : ∀ p, pending { s with
      state := s.state.setRequestRing hot (ringBufPut (s.state.requestRing hot) page)
      sampler := .idle
      puts := update s.puts hot (s.puts hot ++ [page]) } p ≤ s.pending p := fun p => by
    have hp := hentries p
    unfold pending
    simp only [State.requestRing_set, hs, SamplerPhase.putting, count_some, Option.toList_none,
      List.count_nil]
    cases hot <;> simp <;> omega
  refine ⟨fun b => ?_, fun b => ?_, fun p => Nat.le_trans (hle p) (h.once p), fun p hpos => ?_,
    nofun, fun hn b => ?_⟩
  · dsimp only
    rw [State.requestRing_set]
    split
    · exact hw
    · exact h.wf b
  · dsimp only
    rw [State.requestRing_set]
    split
    · exact hcap.trans (h.slots hot)
    · exact h.slots b
  · dsimp only
    rw [State.page_set]
    exact h.known p (Nat.lt_of_lt_of_le hpos (hle p))
  · dsimp only
    rw [State.requestRing_set, update_apply]
    split
    · rw [he, h.room hn hs, h.order hn hot]
      subst b
      simp
    · exact h.order hn b

/-- The policy thread takes a page from a ring. -/
theorem Inv.get (h : s.Inv n capacity) (hi : s.policy = .idle) {r : RingBuf PageId}
    (hr : ringBufGet (s.state.requestRing hot) = (some page, r)) : ({ s with
      state := s.state.setRequestRing hot r
      policy := .readPresent page
      gets := update s.gets hot (s.gets hot ++ [page]) } : RequestRace).Inv n capacity := by
  obtain ⟨-, hnone⟩ | ⟨x, r', hx, hw, he⟩ := (h.wf hot).get
  · rw [hnone] at hr
    cases hr
  rw [hx] at hr
  cases hr
  have hcap : r.capacity = (s.state.requestRing hot).capacity := by
    unfold ringBufGet at hx
    split at hx <;> cases hx
    rfl
  have heq : ∀ p, pending { s with
      state := s.state.setRequestRing hot r
      policy := .readPresent page
      gets := update s.gets hot (s.gets hot ++ [page]) } p = s.pending p := fun p => by
    have hp : (s.state.requestRing hot).entries.count p = r.entries.count p +
        if page = p then 1 else 0 := by
      rw [he, List.count_cons]
      simp
    unfold pending
    simp only [State.requestRing_set, hi, ServePhase.serving, count_some, Option.toList_none,
      List.count_nil]
    cases hot <;> simp <;> omega
  refine ⟨fun b => ?_, fun b => ?_, fun p => heq p ▸ h.once p, fun p hpos => ?_,
    fun b p hd => ?_, fun hn b => ?_⟩
  · dsimp only
    rw [State.requestRing_set]
    split
    · exact hw
    · exact h.wf b
  · dsimp only
    rw [State.requestRing_set]
    split
    · exact hcap.trans (h.slots hot)
    · exact h.slots b
  · dsimp only
    rw [State.page_set]
    exact h.known p (heq p ▸ hpos)
  · dsimp only
    rw [State.page_set]
    exact h.decided b p hd
  · dsimp only
    rw [State.requestRing_set, update_apply]
    split
    · subst b
      rw [h.order hn hot, he]
      simp
    · exact h.order hn b

theorem Inv.readPresent (h : s.Inv n capacity) (hs : s.policy = .readPresent page) : ({ s with
      policy := if (s.state.page page).present then .clearFlag page else .idle } :
        RequestRace).Inv n capacity := by
  refine h.congr ⟨fun _ => rfl, fun _ => rfl⟩ (fun p => ?_) h.decided rfl rfl
  unfold pending
  dsimp only
  rw [hs]
  split
  · exact Nat.le_refl _
  · simp [ServePhase.serving]

/-- The policy thread clears the flag of the page it has taken, which is pending no longer. -/
theorem Inv.clearFlag (h : s.Inv n capacity) (hs : s.policy = .clearFlag page) : ({ s with
      state := s.state.editPage page ({ · with ringPresent := false })
      policy := .idle } : RequestRace).Inv n capacity := by
  have hpending : ∀ p, s.pending p = pending { s with
      state := s.state.editPage page ({ · with ringPresent := false })
      policy := .idle } p + if page = p then 1 else 0 := fun p => by
    unfold pending
    have hring : ∀ b, (s.state.editPage page ({ · with ringPresent := false })).requestRing b =
        s.state.requestRing b := fun b => by cases b <;> rfl
    dsimp only
    rw [hring, hring, hs]
    simp only [ServePhase.serving, count_some, Option.toList_none, List.count_nil]
    omega
  refine ⟨fun b => ?_, fun b => ?_, fun p => ?_, fun p hpos => ?_, fun b p hd => ?_,
    fun hn b => ?_⟩
  · cases b <;> exact h.wf _
  · cases b <;> exact h.slots _
  · have hone := h.once p
    rw [hpending] at hone
    omega
  · have hone := h.once p
    rw [hpending] at hone
    have hne : p ≠ page := by
      rintro rfl
      rw [if_pos rfl] at hone
      omega
    obtain ⟨hlt, hf⟩ := h.known p (by rw [hpending]; omega)
    exact ⟨hlt, (congrArg HememPage.ringPresent (update_of_ne hne ..)).trans hf⟩
  · obtain ⟨hlt, hf⟩ := h.decided b p hd
    refine ⟨hlt, ?_⟩
    rcases eq_or_ne p page with rfl | hne
    · simp [State.editPage]
    · exact (congrArg HememPage.ringPresent (update_of_ne hne ..)).trans hf
  · have ho := h.order hn b
    cases b <;> exact ho

end Pending

section Runs

theorem Inv.step (h : s.Inv n capacity) {a : RequestAct} (hl : a.Legal n s)
    (hn : a.next s = some s') : s'.Inv n capacity := by
  cases a with
  | sample j page =>
    simp only [RequestAct.next] at hn
    split at hn
    · rename_i hi
      cases hn
      exact h.sample hl hi
    · cases hn
  | sampler =>
    simp only [RequestAct.next, samplerStep] at hn
    split at hn
    · cases hn
    · rename_i hs
      cases hn
      exact h.setFlag hs
    · rename_i hs
      cases hn
      exact h.put hs
  | get hot =>
    simp only [RequestAct.next] at hn
    split at hn
    · rename_i hi
      split at hn
      · cases hn
        exact h
      · rename_i hr
        cases hn
        exact h.get hi hr
    · cases hn
  | policy =>
    simp only [RequestAct.next, policyStep] at hn
    split at hn
    · cases hn
    · rename_i hs
      cases hn
      exact h.readPresent hs
    · rename_i hs
      cases hn
      exact h.clearFlag hs
  | other t =>
    cases hn
    exact h.other hl

end Runs

end RequestRace

/-- `pebs_init` leaves such a start. -/
theorem pebsInit_starts {cfg : Config} {kernel : Kernel} {s : State}
    (h : pebsInit cfg (State.blank kernel) = .ok ((), s)) :
    RequestRace.Starts ringCapacity ⟨s, .idle, .idle, fun _ => [], fun _ => []⟩ := by
  have hring : ∀ t, Sat initRing (fun r t' => t' = t ∧ ∃ buffer,
      ringBufInit buffer ringCapacity = some r) (fun _ => True) t := fun t => by
    unfold initRing
    split
    · rename_i r hr
      exact ⟨rfl, _, hr⟩
    · trivial
  have hrings : Sat (pebsInit cfg) (fun _ t => ∀ hot, ∃ buffer,
      ringBufInit buffer ringCapacity = some (t.requestRing hot)) (fun _ => True)
      (State.blank kernel) := by
    unfold pebsInit
    refine sat_true.bind fun _ t _ => sat_true.bind fun _ t _ => ?_
    refine (hring t).bind fun r₁ _ ⟨ht₁, h₁⟩ => sat_bind.2 (sat_modify.2 ?_)
    refine (hring _).bind fun r₂ _ ⟨ht₂, h₂⟩ => sat_bind.2 (sat_modify.2 ?_)
    refine (hring _).bind fun r₃ _ ⟨ht₃, _⟩ => sat_modify.2 fun hot => ?_
    subst ht₁ ht₂ ht₃
    cases hot
    · exact h₂
    · exact h₁
  obtain ⟨-, hv⟩ := pebsInit_sat.ok h
  refine ⟨hrings.ok h, fun page => ?_, rfl, rfl, rfl, rfl⟩
  have hp : s.page page = s.view.page page := rfl
  dsimp only
  rw [hp, hv]
  simp only [View.initial]
  split
  · rfl
  · split <;> rfl

/-- What the run below does: samples of two pages, and no other steps of the program. -/
private def RequestAct.near : RequestAct → Bool
  | .sample _ page => page < 2
  | .other _ => false
  | _ => true

end HeMem

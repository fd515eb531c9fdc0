import HeMem.Proofs.Enforced

/-!
# What a sample does

The sampler counts the access, then asks whether the page is to be requested, and decays the
counters last.
-/

namespace HeMem

open Hoare Function

variable {cfg : Config} {s t : State} {p : PageId} {j : PbufType} {hot : Bool}

section Sample

/-- The request `r` has been made for the page `p`. -/
structure Requested (s : State) (p : PageId) (r : Option Bool) (t : State) : Prop where
  ring : ∀ hot, t.requestRing hot =
    if r = some hot then ringBufPut (s.requestRing hot) p else s.requestRing hot
  page : t.page = update s.page p
    { s.page p with ringPresent := r.isSome || (s.page p).ringPresent }
  clock : t.globalClock = s.globalClock

theorem requested_none : Requested s p none s where
  ring _ := rfl
  page := by simp
  clock := rfl

theorem makeRequest_requested : Sat (makeRequest hot p) (fun _ => Requested s p (some hot))
    (fun _ => False) s := by
  unfold makeRequest
  rw [sat_modifyPage, sat_modify]
  refine ⟨fun hot' => ?_, ?_, ?_⟩
  · rw [requestRing_setRequestRing]
    rcases eq_or_ne hot' hot with rfl | hne
    · rw [if_pos rfl, if_pos rfl]
      cases hot' <;> rfl
    · rw [if_neg hne, if_neg fun h => hne (Option.some.inj h).symm]
      cases hot' <;> rfl
  · cases hot <;> rfl
  · cases hot <;> rfl

theorem sampleRequest_requested : Sat (sampleRequest p)
    (fun _ => Requested s p ((s.page p).request (s.page p).reads)) (fun _ => False) s := by
  unfold sampleRequest HememPage.request
  rw [sat_getPage, sat_ite]
  refine ⟨fun hr => ?_, fun hr => ?_⟩
  · rw [if_pos hr, sat_ite]
    refine ⟨fun hh => ?_, fun hh => ?_⟩
    · rw [if_pos hh]
      exact makeRequest_requested
    · rw [if_neg hh]
      exact requested_none
  · rw [if_neg hr, if_pos (UInt64.not_le.1 hr), sat_ite]
    refine ⟨fun hh => ?_, fun hh => ?_⟩
    · rw [if_pos hh]
      exact makeRequest_requested
    · rw [if_neg hh]
      exact requested_none

/-- A sample of type `j` on `p` has been handled. -/
structure Handled (s : State) (j : PbufType) (p : PageId) (t : State) : Prop where
  ring : ∀ hot, t.requestRing hot = if s.sampleRequests j p = some hot then
    ringBufPut (s.requestRing hot) p else s.requestRing hot
  other : ∀ x, x ≠ p → t.page x = s.page x
  ringPresent : (t.page p).ringPresent =
    ((s.sampleRequests j p).isSome || (s.page p).ringPresent)
  accesses : ∀ i, (t.page p).accesses i =
    ((s.page p).counted j).accesses i >>> (s.globalClock - (s.page p).localClock)
  localClock : (t.page p).localClock = s.globalClock
  globalClock : t.globalClock = if (t.page p).accesses j > pebsCoolingThreshold then
    s.globalClock + 1 else s.globalClock

theorem samplePage_handled (hva : (s.page p).va ≠ 0) :
    Sat (samplePage j p) (fun _ => Handled s j p) (fun _ => False) s := by
  unfold samplePage
  rw [sat_getPage, sat_ite]
  refine ⟨fun _ => ?_, fun h => absurd hva h⟩
  rw [sat_modifyPage]
  have hreq : ((s.page p).counted j).request ((s.page p).counted j).reads =
      s.sampleRequests j p := (if_neg hva).symm
  have hcount : update s.page p ((s.page p).counted j) p = (s.page p).counted j := update_self ..
  refine sampleRequest_requested.bind fun _ s₁ ⟨hring, hpage, hclock⟩ => ?_
  simp only [HememPage.counted] at hcount hreq
  simp only [hcount, hreq] at hring hpage
  have hp₁ : s₁.page p = { (s.page p).counted j with
      ringPresent := (s.sampleRequests j p).isSome || (s.page p).ringPresent } := by
    rw [hpage, update_self]
    rfl
  have ho₁ : ∀ x, x ≠ p → s₁.page x = s.page x := fun x hx => by
    rw [hpage, update_of_ne hx, update_of_ne hx]
  have hclock : s₁.globalClock = s.globalClock := hclock
  rw [sat_bind, sat_get, sat_modifyPage, sat_getPage, sat_ite]
  have hlast : ∀ clock dram nvm, clock = (if ((s.page p).counted j).accesses j >>>
      (s.globalClock - (s.page p).localClock) > pebsCoolingThreshold then s.globalClock + 1
      else s.globalClock) → Handled s j p { s₁ with
        page := update s₁.page p { s₁.page p with
          accesses := fun i => (s₁.page p).accesses i >>> (s₁.globalClock - (s₁.page p).localClock)
          localClock := s₁.globalClock }
        globalClock := clock, needCoolDram := dram, needCoolNvm := nvm } := by
    intro clock dram nvm hc
    refine ⟨fun hot => hring hot, fun x hx => ?_, ?_, fun i => ?_, ?_, ?_⟩
    · simp only [update_of_ne hx]
      exact ho₁ x hx
    · simp only [update_self, hp₁]
    · simp only [update_self, hp₁, hclock]
      rfl
    · simp only [update_self, hclock]
    · simp only [update_self, hp₁, hclock]
      exact hc
  simp only [update_self, hp₁, hclock]
  refine ⟨fun hgt => ?_, fun hle => ?_⟩
  · rw [sat_modify]
    have h := hlast (s.globalClock + 1) true true (if_pos hgt).symm
    simp only [hp₁, hclock] at h
    exact h
  · have h := hlast s.globalClock s₁.needCoolDram s₁.needCoolNvm (if_neg hle).symm
    simp only [hp₁, hclock] at h
    exact h

end Sample

end HeMem

import HeMem.Proofs.Memory
import HeMem.UnmapRace

/-!
# When `hemem_munmap` leaves nothing mapped

What is mapped and not tracked lies in the range passed to `hemem_munmap`, and `libc_munmap` comes
after the last removal.  Only a migration that maps its frame later than that leaves it mapped.
-/

namespace HeMem

open Hoare Function

section Places

/-- What `find_page` finds, where the page structs say they are, and what is mapped. -/
def State.places (s : State) : (UInt64 → Option PageId) × (PageId → UInt64 × PageType) ×
    (UInt64 → Bool) :=
  (s.pages, fun q => ((s.page q).va, (s.page q).pt), fun a => (s.kernel.mapping a).isSome)

theorem places_modifyPage {page : PageId} {f : HememPage → HememPage}
    (hf : ∀ p, (f p).va = p.va ∧ (f p).pt = p.pt) : Frames State.places (modifyPage page f) := by
  refine frames_modify fun _ => ?_
  refine congrArg₂ Prod.mk rfl (congrArg₂ Prod.mk (funext fun q => ?_) rfl)
  rcases eq_or_ne q page with rfl | hq
  · simp [hf]
  · simp [hq]

theorem places_onKernel {f : Kernel → Kernel}
    (hf : ∀ k a, ((f k).mapping a).isSome = (k.mapping a).isSome) :
    Frames State.places (onKernel f) :=
  frames_modify fun _ => congrArg₂ Prod.mk rfl (congrArg₂ Prod.mk rfl (funext fun a => hf _ a))

theorem places_getPage {page : PageId} : Frames State.places (getPage page) :=
  frames_get.bind fun _ => frames_pure

theorem places_hememWpPage {page : PageId} : Frames State.places (hememWpPage page true) := by
  refine places_getPage.bind fun p => frames_check.bind fun _ => frames_check.bind fun _ => ?_
  refine places_onKernel fun k a => ?_
  unfold Kernel.writeprotect
  dsimp only
  split <;> simp

theorem places_clearPage {page : PageId} : Frames State.places (clearPage page) := by
  unfold clearPage
  refine Frames.bind (places_modifyPage ?_) fun _ => places_getPage.bind fun _ => ?_
  · exact fun _ => ⟨rfl, rfl⟩
  · exact Frames.bind (frames_modify (by exact fun _ => rfl)) fun _ => frames_pure

end Places

namespace UnmapRace

variable {cfg : Config} {args : UnmapArgs} {va : UInt64} {s s' : UnmapRace}

theorem within {b a : UInt64} (h : args.Covers b) (ha : a - b < hugepageSize) :
    a - args.addr < args.length := by
  have hsize : hugepageSize.toNat = 2 ^ 21 := by decide
  unfold UnmapArgs.Covers at h
  rw [UInt64.lt_iff_toNat_lt, UInt64.toNat_sub] at ha ⊢
  rw [UInt64.toNat_sub] at h
  have h₁ := a.toNat_lt
  have h₂ := b.toNat_lt
  have h₃ := args.addr.toNat_lt
  omega

/-- What is mapped and not tracked is yet to be unmapped. -/
structure Inv (args : UnmapArgs) (va : UInt64) (s : UnmapRace) : Prop where
  sound : s.state.Sound
  place : (s.state.page args.page).va = va ∧ (s.state.page args.page).pt = .hugep
  align : va % hugepageSize = 0
  tracked : s.state.pages va = some args.page ∨ s.state.pages va = none ∧ args.Covers va
  found : ∀ q b, s.munmap = .remove q b → s.state.pages b = some q
  mapped : ∀ a, (s.state.kernel.mapping a).isSome = true →
    s.state.pages (a &&& hugePfnMask) ≠ none ∨ s.munmap ≠ .done ∧ a - args.addr < args.length

theorem Starts.inv (h : s.Starts args) : Inv args (s.state.page args.page).va s where
  sound := h.sound
  place := ⟨rfl, (h.sound _ _ h.tracked).2.2⟩
  align := (h.sound _ _ h.tracked).2.1
  tracked := .inl h.tracked
  found q b hb := by simp [h.munmap] at hb
  mapped a ha := .inl fun hn => by simp [h.mapped a hn] at ha

/-- Steps that change no place keep it. -/
theorem Inv.congr (hI : Inv args va s) {u : State} (hu : u.places = s.state.places)
    {k : MunmapPhase} (hk : ∀ q b, k = .remove q b → s.state.pages b = some q)
    (hd : k = .done → s.munmap = .done) (m : RemapPhase) : Inv args va ⟨u, k, m⟩ := by
  have hpages : u.pages = s.state.pages := congrArg Prod.fst hu
  have hplace : ∀ q, (u.page q).va = (s.state.page q).va ∧ (u.page q).pt = (s.state.page q).pt :=
    fun q => Prod.ext_iff.1 (congrFun (congrArg (·.2.1) hu) q)
  have hmaps : ∀ a, (u.kernel.mapping a).isSome = (s.state.kernel.mapping a).isSome :=
    congrFun (congrArg (·.2.2) hu)
  refine ⟨fun a q hq => ?_, ?_, hI.align, ?_, fun q b hb => ?_, fun a ha => ?_⟩
  · rw [(hplace q).1, (hplace q).2]
    exact hI.sound a q (hpages ▸ hq)
  · rw [(hplace _).1, (hplace _).2]
    exact hI.place
  · dsimp only
    rw [hpages]
    exact hI.tracked
  · dsimp only
    rw [hpages]
    exact hk q b hb
  · dsimp only at ha ⊢
    rw [hpages]
    rw [hmaps] at ha
    exact (hI.mapped a ha).imp_right fun h => ⟨fun hk => h.1 (hd hk), h.2⟩

theorem munmapDoes_eq_some {α : Type} {m : M α} {k : α → MunmapPhase}
    (h : s.munmapDoes m k = some s') :
    ∃ a u, m s.state = .ok (a, u) ∧ s' = ⟨u, k a, s.migrate⟩ := by
  obtain ⟨⟨a, u⟩, hm, rfl⟩ := Option.map_eq_some_iff.1 h
  exact ⟨a, u, toOption_eq_some.1 hm, rfl⟩

theorem migrateDoes_eq_some {α : Type} {m : M α} {k : α → RemapPhase}
    (h : s.migrateDoes m k = some s') : ∃ a u, m s.state = .ok (a, u) ∧ s' = ⟨u, s.munmap, k a⟩ := by
  obtain ⟨⟨a, u⟩, hm, rfl⟩ := Option.map_eq_some_iff.1 h
  exact ⟨a, u, toOption_eq_some.1 hm, rfl⟩

/-- The page that is removed lies in the range. -/
theorem Inv.remove (hI : Inv args va s) {q : PageId} {b : UInt64} (hb : s.state.pages b = some q)
    (hc : args.Covers b) (hs : s.munmapDoes (removePage q) (fun _ => .put q b) = some s') :
    Inv args va s' := by
  obtain ⟨_, u, hu, rfl⟩ := munmapDoes_eq_some hs
  obtain ⟨hva, hal, -⟩ := hI.sound b q hb
  have hu : u = { s.state with pages := update s.state.pages b none } := by
    rw [← hva]
    exact (Prod.ext_iff.1 (Except.ok.inj hu.symm)).2
  subst hu
  refine ⟨fun a p hp => ?_, hI.place, hI.align, ?_, by simp, fun a ha => ?_⟩
  · rcases eq_or_ne a b with rfl | hab
    · simp at hp
    · exact hI.sound a p (by simpa [hab] using hp)
  · rcases eq_or_ne va b with rfl | hvb
    · exact .inr ⟨update_self .., hc⟩
    · simpa [hvb] using hI.tracked
  · rcases eq_or_ne (a &&& hugePfnMask) b with hab | hab
    · exact .inr ⟨nofun, within hc ((and_hugePfnMask_eq_iff hal).1 hab)⟩
    · refine (hI.mapped a ha).imp (fun h => ?_) fun h => ⟨nofun, h.2⟩
      simpa [hab] using h

theorem Inv.munmapStep (hI : Inv args va s) (hc : s.munmap.Covered args)
    (hs : s.munmapStep args = some s') : Inv args va s' := by
  unfold UnmapRace.munmapStep at hs
  split at hs <;> rename_i hm
  · split_ifs at hs
    · obtain ⟨r, u, hu, rfl⟩ := munmapDoes_eq_some hs
      obtain ⟨rfl, rfl⟩ := Prod.ext_iff.1 (Except.ok.inj hu.symm)
      refine hI.congr rfl (fun q b hb => ?_) (fun hd => ?_) _
      · dsimp only at hb
        split at hb <;> cases hb
        assumption
      · dsimp only at hd
        split at hd <;> cases hd
    · cases hs
      exact hI.congr rfl (by simp) (by simp) _
  · rw [hm] at hc
    exact hI.remove (hI.found _ _ hm) hc hs
  · split_ifs at hs
    cases hs
    refine hI.congr ?_ ?_ ?_ _
    · rfl
    · simp
    · simp
  · obtain ⟨r, u, hu, rfl⟩ := munmapDoes_eq_some hs
    refine hI.congr ((places_clearPage s.state).ok hu) ?_ ?_ _
    · simp
    · simp
  · cases hs
  · cases hs

theorem Inv.libcMunmap (hI : Inv args va s) (hs : s.libcMunmap args true = some s') :
    Inv args va s' := by
  unfold UnmapRace.libcMunmap at hs
  split at hs
  · obtain ⟨_, u, hu, rfl⟩ := munmapDoes_eq_some hs
    cases hu
    refine ⟨hI.sound, hI.place, hI.align, hI.tracked, by simp, fun a ha => .inl ?_⟩
    dsimp only [Kernel.munmap] at ha
    split_ifs at ha with hin
    · cases ha
    · exact (hI.mapped a ha).resolve_right fun h => hin h.2
  · cases hs

theorem Inv.remap (hI : Inv args va s) (hc : s.munmap = .done → s.Tracked args) {k : RemapPhase}
    (hs : s.migrateDoes (do
      let p ← getPage args.page
      onKernel (·.mmapFixed p.va (ptToPagesize p.pt) (deviceOf args.up) args.newOffset)) (fun _ => k) =
        some s') : Inv args va s' := by
  obtain ⟨_, u, hu, rfl⟩ := migrateDoes_eq_some hs
  cases hu
  refine ⟨hI.sound, hI.place, hI.align, hI.tracked, hI.found, fun a ha => ?_⟩
  dsimp only [Kernel.mmapFixed] at ha
  rw [hI.place.1, hI.place.2] at ha
  split_ifs at ha with hin
  · rw [(and_hugePfnMask_eq_iff hI.align).2 hin]
    rcases hI.tracked with ht | ⟨ht, hcov⟩
    · exact .inl (by simp [ht])
    · refine .inr ⟨fun hd => ?_, within hcov hin⟩
      have htr := hc hd
      rw [Tracked, hI.place.1, ht] at htr
      cases htr
  · exact hI.mapped a ha

theorem Inv.migrateStep (hI : Inv args va s)
    (hc : s.migrate = .remap → s.munmap = .done → s.Tracked args)
    (hs : s.migrateStep cfg args = some s') : Inv args va s' := by
  have quiet : ∀ {α : Type} {m : M α} {k : α → RemapPhase}, s.migrateDoes m k = some s' →
      Frames State.places m → Inv args va s' := fun hs hm => by
    obtain ⟨a, u, hu, rfl⟩ := migrateDoes_eq_some hs
    exact hI.congr ((hm s.state).ok hu) hI.found id _
  unfold UnmapRace.migrateStep at hs
  split at hs <;> rename_i hm
  · split_ifs at hs
    · cases hs
      exact hI.congr rfl hI.found id _
    · exact quiet hs (places_modifyPage fun _ => ⟨rfl, rfl⟩)
  · exact quiet hs places_hememWpPage
  · exact quiet hs (places_getPage.bind fun _ => frames_check.bind fun _ => frames_check.bind
      fun _ => frames_check.bind fun _ => frames_pure)
  · exact quiet hs (places_getPage.bind fun _ => places_onKernel fun _ _ => rfl)
  · exact hI.remap (hc hm) hs
  · exact quiet hs (places_getPage.bind fun _ => frames_check.bind fun _ =>
      places_modifyPage fun _ => ⟨rfl, rfl⟩)
  · exact quiet hs (places_modifyPage fun _ => ⟨rfl, rfl⟩)
  · exact quiet hs (places_modifyPage fun _ => ⟨rfl, rfl⟩)
  · cases hs

theorem Inv.step (hI : Inv args va s) {a : UnmapAct} (hc : a.Careful args s)
    (hs : a.next cfg args s = some s') : Inv args va s' := by
  cases a with
  | munmap => exact hI.munmapStep hc hs
  | libcMunmap unmaps =>
    obtain rfl : unmaps = true := hc
    exact hI.libcMunmap hs
  | migrate => exact hI.migrateStep hc hs

/-- Nothing stays mapped that is not tracked, if the range has all of each page that is removed,
`libc_munmap` succeeds, and no frame is mapped for a removed page after it. -/
theorem munmap_leaves_none (h : (unmapRace cfg args).Reach (fun s a => a.Careful args s) s)
    (hd : s.munmap = .done) : s.NoneUntracked := by
  obtain ⟨va, hI⟩ : ∃ va, Inv args va s := by
    refine h.invariant (I := fun s => ∃ va, Inv args va s) (fun _ hs => ⟨_, Starts.inv hs⟩) ?_
    rintro s a s' ⟨va, hI⟩ hc hs
    exact ⟨va, hI.step hc hs⟩
  intro a ha
  by_contra hm
  exact (hI.mapped a (Option.isSome_iff_ne_none.2 hm)).elim (fun h => h ha) fun h => h.1 hd

/-- One page on NVM, to be migrated up and to be unmapped. -/
private def onePage : UnmapRace where
  state := { State.blank ⟨fun a => if a - hugepageSize < hugepageSize then
      some ⟨.nvm, a - hugepageSize, false⟩ else none, fun _ _ => 0⟩ with
    freePageRing := ⟨fun _ => 0, 0, 0, 4⟩
    page := fun _ => { va := hugepageSize, present := true }
    pages := fun a => if a = hugepageSize then some 0 else none }
  munmap := .look hugepageSize
  migrate := .begin

/-- `hemem_munmap` of that page beside its migration to the first DRAM frame. -/
def onePageArgs : UnmapArgs := ⟨hugepageSize, hugepageSize, 0, true, 0⟩

private theorem onePage_starts : onePage.Starts onePageArgs where
  sound a q hq := by
    dsimp only [onePage] at hq
    split_ifs at hq with ha
    subst ha
    exact ⟨rfl, by decide, rfl⟩
  tracked := rfl
  mapped a ha := by
    have hal : hugepageSize % hugepageSize = 0 := by decide
    dsimp only [onePage] at ha ⊢
    split_ifs at ha with hn
    exact if_neg fun hlt => hn ((and_hugePfnMask_eq_iff hal).2 hlt)
  munmap := rfl
  migrate := rfl

/-- The migration maps its frame between the removal and `libc_munmap`. -/
theorem munmap_leaves_none_remapped : ∃ s : UnmapRace, s.munmap = .done ∧ s.migrate = .done ∧
    (s.state.page 0).inDram = true ∧ s.NoneUntracked := by
  obtain ⟨s, hs, hP⟩ := System.drive_reach (S := unmapRace ⟨hugepageSize, hugepageSize, 0, 0⟩ onePageArgs)
    (fun s a => a.next ⟨hugepageSize, hugepageSize, 0, 0⟩ onePageArgs s) (fun s a => a.Careful onePageArgs s)
    (fun _ _ _ hn => hn) (fun _ _ hc => hc) onePage_starts
    (List.replicate 3 .munmap ++ List.replicate 5 .migrate ++
      [.munmap, .munmap, .libcMunmap true] ++ List.replicate 3 .migrate)
    (fun s => decide (s.munmap = .done ∧ s.migrate = .done ∧ (s.state.page 0).inDram = true))
    (by decide +kernel)
  obtain ⟨hd, hm, hin⟩ := of_decide_eq_true hP
  exact ⟨s, hd, hm, hin, munmap_leaves_none hs hd⟩

/-- It maps its frame after `libc_munmap`: the frame stays mapped. -/
theorem munmap_leaves_frame : ∃ s : UnmapRace,
    (unmapRace ⟨hugepageSize, hugepageSize, 0, 0⟩ onePageArgs).Reach (fun _ _ => True) s ∧
      s.munmap = .done ∧ s.migrate = .done ∧ ¬ s.NoneUntracked := by
  obtain ⟨s, hs, hP⟩ := System.drive_reach (S := unmapRace ⟨hugepageSize, hugepageSize, 0, 0⟩ onePageArgs)
    (fun s a => a.next ⟨hugepageSize, hugepageSize, 0, 0⟩ onePageArgs s) (fun _ _ => True)
    (fun _ _ _ hn => hn) (fun _ _ hc => hc) onePage_starts
    (List.replicate 4 .migrate ++ List.replicate 5 .munmap ++ [.libcMunmap true] ++
      List.replicate 4 .migrate)
    (fun s => decide (s.munmap = .done ∧ s.migrate = .done) &&
      ((s.state.pages (hugepageSize &&& hugePfnMask)).isNone &&
        (s.state.kernel.mapping hugepageSize).isSome)) (by decide +kernel)
  rw [Bool.and_eq_true, Bool.and_eq_true] at hP
  obtain ⟨hd, hm⟩ := of_decide_eq_true hP.1
  refine ⟨s, hs, hd, hm, fun hn => ?_⟩
  have hnone := hn hugepageSize (Option.isNone_iff_eq_none.1 hP.2.1)
  rw [hnone] at hP
  cases hP.2.2

end UnmapRace

end HeMem

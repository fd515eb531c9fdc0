import HeMem.Proofs.Build
import HeMem.Proofs.Lru

/-!
# The build with `ALLOC_LRU` preserves memory

`lru.c` is a policy as `hemem.c` relies on it: a fault takes a page off a free list, a removal puts
one there, a scan moves pages between lists only, and a pass of `lru_kswapd` is a sequence of moves
of present pages to frames of free ones.
-/

namespace HeMem

open Hoare Function

variable {cfg : Config} {kernel : Kernel} {s t : LruState} {p np : PageId} {q : LruList}
  {l : PageId → Option LruList} {α : Type}

section Steps

theorem frames_onLists {m : FifoM LruList PageId α} : Frames LruState.hemem (onLists m) := by
  intro s
  unfold Sat onLists
  rcases m s.fifo with e | ⟨a, h⟩
  · trivial
  · rfl

/-- The lists and the page structs still agree. -/
theorem LruState.Ok.harmless {h : State} (hs : s.Ok cfg) (hh : Harmless s.hemem h) :
    LruState.Ok cfg { s with hemem := h } := by
  have hin : ∀ x, (h.page x).inDram = (s.page x).inDram := by
    intro x
    have hf := hh.frame x
    simp only [HememPage.frame, Prod.mk.injEq] at hf
    exact deviceOf_inj hf.1
  refine ⟨hs.1, fun x => ?_, ?_⟩
  · have hP := hs.2.each x
    refine ⟨hP.listed, fun q hq => (hin x).trans (hP.tier q hq),
      fun q hq => (hh.present x).trans (hP.present q hq), (hh.pt x).trans hP.pt, ?_⟩
    rcases hh.align x with hva | hal
    · exact (congrArg (· % hugepageSize) hva).trans hP.align
    · exact hal
  · change Set.BijOn (fun x => (h.page x).frame) _ _
    rw [funext hh.frame]
    exact hs.2.bij

theorem lruAllocatePage_gives (h : s.Ok cfg) : Sat lruAllocatePage (fun p t => p < cfg.pages ∧
    (s.page p).present = false ∧ t.hemem = (s.edit p ({ · with present := true })).hemem)
    (fun _ => True) s := by
  have give : ∀ {p : PageId} {d : Bool} {q : LruList} {h' : Heap LruList PageId},
      s.fifo.listOf p = some (lruFreeList d) → Sat (do
        onHemem (modifyPage p ({ · with present := true }))
        onLists (enqueueFifo q p)
        return p) (fun p t => p < cfg.pages ∧ (s.page p).present = false ∧
          t.hemem = (s.edit p ({ · with present := true })).hemem)
        (fun _ => True) { s with fifo := h' } := by
    intro p d q h' hp
    rw [sat_editPage]
    refine (frames_onLists _).bind fun _ t ht => ⟨(h.2.at hp).owned, ?_, ht⟩
    exact ((h.2.at hp).present _ rfl).trans (by rw [free_lruFreeList]; rfl)
  unfold lruAllocatePage
  refine (sat_dequeue h.1).bind fun r t hr => ?_
  rcases hr with ⟨rfl, rfl, -⟩ | ⟨p, h', rfl, -, hp, -, rfl⟩
  swap
  · dsimp only
    rw [sat_bind, sat_get, sat_bind, sat_check]
    refine ⟨fun _ => ?_, fun _ => trivial⟩
    rw [sat_bind, sat_get, sat_bind, sat_check]
    exact ⟨fun _ => give (d := true) hp, fun _ => trivial⟩
  dsimp only
  refine (sat_dequeue h.1).bind fun r t hr => ?_
  rcases hr with ⟨rfl, rfl, -⟩ | ⟨p, h', rfl, -, hp, -, rfl⟩
  · trivial
  · dsimp only
    rw [sat_bind, sat_get, sat_bind, sat_check]
    refine ⟨fun _ => ?_, fun _ => trivial⟩
    rw [sat_bind, sat_get, sat_bind, sat_check]
    exact ⟨fun _ => give (d := false) hp, fun _ => trivial⟩

theorem lruRemovePage_takes : Sat (lruRemovePage p)
    (fun _ t => t.hemem = (s.edit p ({ · with present := false })).hemem) (fun _ => True) s := by
  unfold lruRemovePage
  rw [sat_bind, sat_get]
  rcases s.fifo.listOf p with _ | q
  · trivial
  dsimp only
  refine (frames_onLists _).bind fun _ t ht => ?_
  rw [sat_editPage, sat_bind, sat_get]
  refine (frames_onLists _).post fun _ u hu => hu.trans ?_
  have hpage : t.page = s.page := congrArg State.page ht
  simp only [LruState.edit, ht, hpage]

/-- The `present` flag of a page is written. -/
theorem marks_edit {present : Bool} (ht : t.hemem = (s.edit p ({ · with present })).hemem) :
    Marks p present s.hemem.view t.hemem.view := by
  rw [ht]
  refine ⟨fun x => ?_, fun x => ?_, fun x => ?_, fun x => ?_, rfl, rfl⟩ <;>
    rcases eq_or_ne x p with rfl | hx <;> simp_all [LruState.edit, State.view, HememPage.frame]

end Steps

section Pass

theorem lruSwapFrames_kernel {s : State} {up : Bool} : Sat (lruSwapFrames cfg up p np)
    (fun _ t => t.pages = s.pages ∧
      t.kernel = (s.view.remap up p (s.page np).devdaxOffset).kernel) (fun _ => True) s := by
  have hdir : (if up then lruMigrateUp cfg else lruMigrateDown cfg) = lruMigrate cfg up := by
    cases up <;> rfl
  have hdir' : (if up then hememMigrateUp cfg else hememMigrateDown cfg) = hememMigrate cfg up := by
    cases up <;> rfl
  unfold lruSwapFrames
  rw [sat_getPage, sat_getPage, hdir, sat_bind]
  unfold lruMigrate
  rw [sat_modifyPage, hdir']
  unfold hememWpPage hememMigrate
  simp only [getPage, onKernel, bind_assoc, sat_bind, sat_get, sat_pure, sat_modify, sat_check,
    modifyPage, update_self]
  refine ⟨fun _ => ⟨fun _ => ⟨fun _ => ⟨fun _ => ⟨fun _ => ⟨fun _ => ⟨trivial, ?_⟩, ?_⟩, ?_⟩, ?_⟩, ?_⟩,
    ?_⟩, ?_⟩
  · rfl
  all_goals exact fun _ => trivial

/-- A page in use moves to the frame of a free one. -/
theorem lruExchange_relocates {u : Bool} (hI : LruInv cfg l s.page) (hp : l p = some q)
    (hd : q.dram = !u) (hf : q.free = false) (hn : l np = some (lruFreeList u)) (hne : p ≠ np) :
    Sat (lruExchange cfg u p np)
      (fun _ t => Relocates cfg s.hemem.view t.hemem.view u p np) (fun _ => True) s := by
  have hP := hI.at hp
  have hN := hI.at hn
  have hin : (s.page p).inDram = !u := (hP.tier q rfl).trans hd
  have hin' : (s.page np).inDram = u := (hN.tier _ rfl).trans (dram_lruFreeList u)
  have hspare : (s.page np).present = false := by
    rw [hN.present _ rfl, free_lruFreeList]
    rfl
  have hlive : (s.page p).present = true := by
    rw [hP.present q rfl, hf]
    rfl
  unfold lruExchange
  rw [sat_bind, sat_onHemem]
  refine ((lruSwapFrames_sat hin (hI.inRange hp hd) (hI.inRange hn (dram_lruFreeList u)) hP.pt
    hP.align hne).and lruSwapFrames_kernel).mono (fun _ h hh => ?_) fun _ _ => trivial
  obtain ⟨hpage, hpages, hk⟩ := hh
  refine (frames_onLists _).bind fun _ t ht => ?_
  refine (frames_onLists _).post fun _ w hw => ?_
  have hh : w.hemem = h := hw.trans ht
  have hq : ∀ x, w.hemem.view.page x = swapped s.page u p np x := fun x =>
    (congrArg (fun h => h.page x) hh).trans (congrFun hpage x)
  refine ⟨hP.owned, hN.owned, hlive, hspare, hin, hin', ?_, fun x => ?_, fun x => ?_, fun x => ?_,
    fun x => ?_, ?_⟩
  · exact (congrArg State.kernel hh).trans hk
  · rw [hq]
    exact swapped_frame hne hin hin' x
  · rw [hq]
    simp only [swapped, update_apply]
    split_ifs with h1 h2 <;> simp_all [State.view]
  · rw [hq]
    exact (swapped_sameUse hspare x).1
  · rw [hq]
    exact (swapped_sameUse hspare x).2
  · exact (congrArg State.pages hh).trans hpages

/-- The tries for a page that waits to be moved up, taken off its list. -/
theorem kswapdTries_relocated {b : UInt64} : ∀ {n : ℕ} {s : LruState}
    {l : PageId → Option LruList}, s.fifo.Wf → LruInv cfg l s.page → l p = some q → q.source →
    s.fifo.listOf = update l p none → Sat (kswapdTries cfg q p b n)
      (fun _ t => Relocated cfg s.hemem.view t.hemem.view) (fun _ => True) s
  | 0, s, l, _, _, _, _, _ => .refl
  | n + 1, s, l, hw, hI, hp, hs, hl => by
    have hqd := hs.nvm_used
    have hoff : ∀ x q', s.fifo.listOf x = some q' → x ≠ p ∧ l x = some q' := by
      intro x q' hx
      rw [hl, update_apply] at hx
      split_ifs at hx with hxp
      exact ⟨hxp, hx⟩
    unfold kswapdTries
    refine (sat_dequeue hw).bind fun r t hr => ?_
    rcases hr with ⟨rfl, rfl, -⟩ | ⟨np, h, rfl, hw', hnp, hl', rfl⟩
    swap
    · obtain ⟨hne, hnpl⟩ := hoff np _ hnp
      dsimp only
      rw [sat_bind, sat_get, sat_bind, sat_check]
      refine ⟨fun _ => ?_, fun _ => trivial⟩
      refine (lruExchange_relocates (s := { s with fifo := h }) (u := true) hI hp hqd.1 hqd.2 hnpl
        hne.symm).bind fun _ t ht => ?_
      exact .single ⟨true, p, np, ht⟩
    dsimp only
    refine (sat_dequeue hw).bind fun r u hr => ?_
    rcases hr with ⟨rfl, rfl, -⟩ | ⟨cp, h, rfl, hwc, hcp, hlc, rfl⟩
    · refine (frames_onLists _).bind fun _ t ht => ?_
      change Relocated cfg s.hemem.view t.hemem.view
      rw [show t.hemem = s.hemem from ht]
      exact .refl
    obtain ⟨hcpp, hcpl⟩ := hoff cp _ hcp
    dsimp only
    refine (sat_dequeue hwc).bind fun r u hr => ?_
    rcases hr with ⟨rfl, rfl, -⟩ | ⟨np, h', rfl, hwn, hnp, hln, rfl⟩
    · trivial
    have hnpc : np ≠ cp := by
      rintro rfl
      have hnp : h.listOf np = some .nvmFreeList := hnp
      rw [hlc, update_self] at hnp
      cases hnp
    obtain ⟨hnpp, hnpl⟩ := hoff np _ (by
      have hnp : h.listOf np = some .nvmFreeList := hnp
      rwa [hlc, update_of_ne hnpc] at hnp)
    dsimp only
    rw [sat_bind, sat_get, sat_bind, sat_check]
    refine ⟨fun _ => ?_, fun _ => trivial⟩
    -- the frame that the victim leaves is the one for `p`
    refine (((lruExchange_sat (s := { s with fifo := h' }) (u := false) hwn hI hcpl rfl hnpl
      (by simp [hln, hlc, hnpc.symm]) (by simp [hln]) hnpc.symm).mono (fun _ _ => id)
      fun _ _ => trivial).and (lruExchange_relocates (s := { s with fifo := h' }) (u := false) hI
        hcpl rfl rfl hnpl hnpc.symm)).mono (fun _ _ => id) (fun _ _ => trivial) |>.bind
      fun _ t ht => ?_
    obtain ⟨⟨hwt, hpage, hlt⟩, hm⟩ := ht
    have hpage : t.page = swapped s.page false cp np := hpage
    refine (kswapdTries_relocated (l := update (update l cp (some (movedList false))) np
      (some (lruFreeList true))) hwt (hpage ▸ hI.swap hcpl rfl rfl hnpl) ?_ hs ?_).post
      fun _ u hu => .head ⟨false, cp, np, hm⟩ hu
    · rw [update_of_ne hnpp.symm, update_of_ne hcpp.symm, hp]
    · rw [hlt, hln, hlc, hl]
      funext x
      simp only [update_apply]
      split_ifs with h1 h2 h3 h3 <;> simp_all

theorem kswapdTurn_relocated {b : UInt64} (h : s.Ok cfg) : Sat (kswapdTurn cfg b)
    (fun _ t => Relocated cfg s.hemem.view t.hemem.view) (fun _ => True) s := by
  unfold kswapdTurn
  refine (sat_dequeue h.1).bind fun r t hr => ?_
  rcases hr with ⟨rfl, rfl, -⟩ | ⟨p, h', rfl, hw, hp, hl, rfl⟩
  swap
  · exact kswapdTries_relocated (s := { s with fifo := h' }) hw h.2 hp (.inl rfl) hl
  dsimp only
  refine (sat_dequeue h.1).bind fun r t hr => ?_
  rcases hr with ⟨rfl, rfl, -⟩ | ⟨p, h', rfl, hw, hp, hl, rfl⟩
  · exact .refl
  · exact kswapdTries_relocated (s := { s with fifo := h' }) hw h.2 hp (.inr rfl) hl

theorem kswapdLoop_relocated : ∀ {fuel : ℕ} {s : LruState} {b : UInt64}, s.Ok cfg →
    Sat (kswapdLoop cfg fuel b) (fun _ t => Relocated cfg s.hemem.view t.hemem.view)
      (fun _ => True) s
  | 0, _, _, _ => trivial
  | fuel + 1, s, b, h => by
    unfold kswapdLoop
    rw [sat_ite]
    refine ⟨fun _ => ?_, fun _ => .refl⟩
    have hturn := ((kswapdTurn_sat h).mono (fun _ _ => id) fun _ _ => trivial).and
      (kswapdTurn_relocated (b := b) h)
    refine (hturn.mono (fun _ _ => id) fun _ _ => trivial).bind fun r t ht => ?_
    obtain ⟨⟨-, hpost⟩, hm⟩ := ht
    rcases r with b' | _ | _
    · have hok : t.Ok cfg := by
        rcases hpost with ⟨-, hok⟩ | ⟨p, q, -, -, ⟨-, hok, -⟩ | ⟨-, hmoved⟩⟩
        · exact hok
        · exact hok
        · exact hmoved.ok
      exact (kswapdLoop_relocated hok).post fun _ u hu => hm.trans hu
    · exact hm
    · exact hm

theorem lruKswapd_relocated (h : s.Ok cfg) : Sat (lruKswapd cfg)
    (fun _ t => Relocated cfg s.hemem.view t.hemem.view) (fun _ => True) s := by
  unfold lruKswapd
  rw [sat_bind, sat_get]
  exact kswapdLoop_relocated h

end Pass

section Init

/-- No page has been given out, nor tracked. -/
def Untouched (s : State) : Prop :=
  (∀ p, (s.page p).present = false ∧ (s.page p).va = 0) ∧ ∀ a, s.pages a = none

theorem lruInitFrames_untouched {dram : Bool} {first : ℕ} : ∀ {n : ℕ} {s : LruState},
    Untouched s.hemem → Sat (lruInitFrames cfg dram first n) (fun _ t => Untouched t.hemem)
      (fun _ => True) s
  | 0, _, h => h
  | n + 1, s, h => by
    unfold lruInitFrames
    refine (lruInitFrames_untouched h).bind fun _ t ht => ?_
    rw [sat_editPage]
    refine (frames_onLists _).post fun _ u hu => ?_
    rw [show u.hemem = (t.edit (first + n) _).hemem from hu]
    refine ⟨fun p => ?_, ht.2⟩
    rcases eq_or_ne p (first + n) with rfl | hp
    · simp [LruState.edit]
    · simpa [LruState.edit, hp] using ht.1 p

theorem lruInit_untouched : Sat (lruInit cfg) (fun _ t => Untouched t.hemem) (fun _ => True)
    (LruState.blank kernel) := by
  unfold lruInit
  refine (lruInitFrames_untouched ⟨fun _ => ⟨rfl, rfl⟩, fun _ => rfl⟩).bind fun _ t ht => ?_
  exact lruInitFrames_untouched ht

end Init

section Reach

/-- `lru.c` is what `hemem.c` relies on. -/
theorem lru_sound : (lruBuild cfg).Sound cfg kernel (LruState.Ok cfg) where
  onHemem m Q s hI hm :=
    sat_onHemem.2 (hm.mono (fun _ _ hq => ⟨hI.harmless hq.2, hq.1⟩) fun _ _ => trivial)
  pagingInit := by
    refine ((lruInit_sat.mono (fun _ _ => id) fun _ _ => trivial).and lruInit_untouched).mono
      (fun _ s hs => ⟨hs.1, ⟨hs.1.2.bij, fun p => (hs.1.2.each p).pt⟩, hs.2.1, hs.2.2⟩)
      fun _ _ => trivial
  pagefault s hI := by
    refine ((lruAllocatePage_sat hI).and (lruAllocatePage_gives hI)).mono (fun p t ht => ?_)
      fun _ _ => trivial
    obtain ⟨hok, hp, hspare, hh⟩ := ht
    exact ⟨hok, hp, hspare, marks_edit hh⟩
  mmgrRemove s p hI :=
    ((lruRemovePage_sat hI).and lruRemovePage_takes).mono
      (fun _ t ht => ⟨ht.1, marks_edit ht.2⟩) fun _ _ => trivial
  thread s step hI := by
    cases step with
    | scan bits =>
      refine (lruKscand_sat hI).post fun _ t ht => ⟨ht.1, ?_⟩
      change Relocated cfg s.hemem.view t.hemem.view
      rw [ht.2]
      exact .refl
    | pass =>
      exact ((lruKswapd_sat hI).and (lruKswapd_relocated hI)).mono
        (fun _ t ht => ⟨ht.1.2, ht.2⟩) fun _ _ => trivial

/-- In every run of the build with `ALLOC_LRU`, the mappings of tracked pages are their frames, no
two of them the same, and every byte reads as it was last written there. -/
theorem lru_memory_preserved {m : BuildMemory LruState}
    (h : ((lruBuild cfg).system cfg kernel).Reach (fun m c => c.Tidy cfg m.state.hemem) m) :
    (∀ va p, m.state.hemem.pages va = some p → va ≠ 0 → ∀ x, x &&& hugePfnMask = va →
      m.state.hemem.kernel.mapping x = some ((m.state.page p).pte (x - va))) ∧
    (∀ va va' p p', m.state.hemem.pages va = some p → m.state.hemem.pages va' = some p' →
      va ≠ 0 → va' ≠ 0 → va ≠ va' → (m.state.page p).frame ≠ (m.state.page p').frame) ∧
    ∀ x b, x &&& hugePfnMask ≠ 0 → m.state.hemem.pages (x &&& hugePfnMask) ≠ none →
      m.written x = some b → m.state.hemem.kernel.load x = some b :=
  (lru_sound.reach h).2.sees

/-- The next call writes to a tracked page, or is a step of the threads. -/
def BuildMemory.goesOn (cfg : Config) (m : BuildMemory LruState) : BuildCall LruStep → Bool
  | .write addr _ => (m.state.hemem.pages (addr &&& hugePfnMask)).any (· < cfg.pages)
  | .thread _ => true
  | _ => false

theorem BuildMemory.goesOn_tidy {m : BuildMemory LruState} {c : BuildCall LruStep}
    (h : m.goesOn cfg c = true) : c.Tidy cfg m.state.hemem := by
  cases c with
  | write addr byte =>
    obtain ⟨p, hp, hn⟩ := (Option.any_eq_true _ _).1 h
    exact ⟨p, hp, of_decide_eq_true hn⟩
  | thread step => trivial
  | _ => cases h

/-- What a first region, writes to it and steps of the threads lead to. -/
theorem lru_reach_build (cfg : Config) (kernel : Kernel) (length offset a : UInt64)
    (ha : hugepageSize ≤ a) (hl : a.toNat + (pageRoundUp length).toNat ≤ 2 ^ 64)
    (cs : List (BuildCall LruStep)) (P : BuildMemory LruState → Bool)
    (h : (((lruBuild cfg).hememInit cfg (LruState.blank kernel)).toOption.bind fun r =>
      (BuildCall.next (lruBuild cfg) cfg ⟨r.2, fun _ => none⟩ (.mmap length offset a)).bind
        (System.drive (BuildCall.next (lruBuild cfg) cfg) (fun m c => m.goesOn cfg c = true)
          cs)).any P = true) :
    ∃ m, ((lruBuild cfg).system cfg kernel).Reach (fun m c => c.Tidy cfg m.state.hemem) m ∧
      P m = true := by
  obtain ⟨t, ht, hP⟩ := (Option.any_eq_true P _).1 h
  obtain ⟨⟨⟨⟩, s⟩, hs, ht⟩ := Option.bind_eq_some_iff.1 ht
  obtain ⟨m, hm, ht⟩ := Option.bind_eq_some_iff.1 ht
  have hnext : ∀ m c m', BuildCall.next (lruBuild cfg) cfg m c = some m' →
      ((lruBuild cfg).system cfg kernel).step m c m' := by
    intro m c m' hn
    obtain ⟨⟨⟨⟩, u⟩, hu, rfl⟩ := Option.map_eq_some_iff.1 hn
    exact ⟨toOption_eq_some.1 hu, rfl⟩
  have hinit : ((lruBuild cfg).system cfg kernel).init ⟨s, fun _ => none⟩ :=
    ⟨toOption_eq_some.1 hs, rfl⟩
  have hfirst := lru_sound.tidy_initial (o := offset) hinit ha hl
  exact ⟨t, (System.Reach.step (.init hinit) hfirst (hnext _ _ _ hm)).drive hnext
    (fun _ _ hc => BuildMemory.goesOn_tidy hc) ht, hP⟩

/-- Two pages of DRAM and one of NVM are mapped, and the one of NVM is written.  A scan finds it
written, and a pass of `lru_kswapd` brings it to DRAM. -/
theorem lru_memory_preserved_written : ∃ m : BuildMemory LruState,
    (m.state.page 2).inDram = true ∧ m.state.hemem.kernel.load (3 * hugepageSize) = some 7 := by
  obtain ⟨m, hm, hP⟩ := lru_reach_build fourFrames Kernel.fresh (3 * hugepageSize) 0
    hugepageSize (by decide) (by decide)
    [.write (3 * hugepageSize) 7,
      .thread (.scan ⟨fun _ _ => 0, fun _ p => if p = 2 then 0x60 else 0, fun _ _ => 0⟩),
      .thread .pass]
    (fun m => (m.state.page 2).inDram && m.state.hemem.pages (3 * hugepageSize) = some 2 &&
      m.written (3 * hugepageSize) = some 7) (by decide +kernel)
  simp only [Bool.and_eq_true, decide_eq_true_eq] at hP
  refine ⟨m, hP.1.1, (lru_memory_preserved hm).2.2 (3 * hugepageSize) 7 (by decide) ?_ hP.2⟩
  rw [show 3 * hugepageSize &&& hugePfnMask = 3 * hugepageSize by decide, hP.1.2]
  simp

end Reach

end HeMem

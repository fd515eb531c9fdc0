import HeMem.Proofs.Mmap

/-!
# Only live pages are migrated

A removed page stays on its list until the free-page ring is drained.  The policy thread drains the
ring before it looks for a page to move; a hinted fault does not.  As long as no hinted fault comes
to a removed page, every page moved is present and is the one tracked at its address.
-/

namespace HeMem

open Hoare Function

variable {cfg : Config} {A : Allow} {kernel : Kernel} {s : State} {m : Memory} {v w : View}
  {p : PageId} {a : UInt64} {n : ℕ}

section Calls

/-- Every page moved so far was present, and the one tracked at its address. -/
def View.Alive (v : View) : Prop := ∀ c ∈ v.calls, c.present = true ∧ c.found = some c.page

theorem View.Alive.exchange {up : Bool} {np : PageId} (h : v.Alive) (hp : p < n)
    (hpr : (v.page p).present = true) (ht : Tracked n v) : (v.exchange up p np).Alive := by
  intro c hc
  rcases List.mem_cons.1 hc with rfl | hc
  · exact ⟨hpr, ht.found p hp hpr⟩
  · exact h c hc

theorem View.Alive.move (h : v.Alive) (hI : Inv n A v) (ht : Tracked n v) (hs : ¬ A.stale)
    (hm : Move A v w) : w.Alive := by
  rcases hm.exchanges with ⟨up, p, np, he, rfl⟩ | hst
  · exact h.exchange (hI.owned _ _ he.list) (he.present hI hs) ht
  · unfold View.Alive
    rw [hst.calls]
    exact h

/-- What the views of a run have whose hinted faults come to no removed page. -/
structure Lively (n : ℕ) (A : Allow) (v : View) : Prop where
  inv : Inv n A v
  tracked : Tracked n v
  alive : v.Alive

theorem Lively.setKernel (h : Lively n A v) (k : Kernel) : Lively n A { v with kernel := k } :=
  ⟨h.inv.congr rfl rfl rfl rfl (fun _ => rfl) (fun _ => rfl) (fun _ => rfl) (fun _ => rfl)
    fun _ => rfl, ⟨h.tracked.found, h.tracked.va, h.tracked.live⟩, h.alive⟩

theorem Lively.setPriority (h : Lively n A v) (k : ℤ) : Lively n A (v.setPriority k) :=
  ⟨h.inv.congr rfl rfl rfl rfl (fun _ => rfl) (fun _ => rfl) (fun _ => rfl) (fun _ => rfl)
    fun _ => rfl, ⟨h.tracked.found, h.tracked.va, h.tracked.live⟩, h.alive⟩

theorem Lively.moves (h : Lively n A v) (hs : ¬ A.stale) (hm : Moves A v w) : Lively n A w :=
  hm.invariant h fun _ _ h hm =>
    ⟨h.inv.move hm, h.tracked.move h.inv hm, h.alive.move h.inv h.tracked hs hm⟩

theorem Lively.faulted (h : Lively cfg.pages A v) (hs : ¬ A.stale) (hf : Faulted A v p w)
    (hn : w.pages a = none) (ha : a ≠ 0) (hal : a % hugepageSize = 0) :
    Lively cfg.pages A (w.populate p a) where
  inv := (inv_kept.faulted h.inv hf).populate ha hal
  tracked := h.tracked.faulted h.inv hf hn ha
  alive := by
    obtain ⟨v₁, hm, ⟨dram, rfl, -, rfl⟩ | ⟨-, q, e, -, -, rfl⟩⟩ := hf
    · exact h.alive
    · exact (h.moves hs hm).alive

end Calls

section Runs

/-- What a run may go through: all but moving down a removed page. -/
def Allow.live : Allow := ⟨True, True, True, False, True, True⟩

/-- No hinted fault of this call moves down a page that is no longer present. -/
def Call.NoStale (s : State) : Call → Prop
  | mmap length _ p => p < p + pageRoundUp length → ¬ s.FaultStale
  | populate addr length => addr < addr + length → ¬ s.FaultStale
  | missingFault _ => ¬ s.FaultStale
  | _ => True

instance (s : State) : Decidable s.FaultStale :=
  decidable_of_iff (s.userHintTier = 0 ∧ (s.fifo.list .dramFree).last = none ∧
    (s.fifo.list .nvmFree).last ≠ none ∧ s.victim.any (fun c => !(s.page c).present) = true) (by
      simp [State.FaultStale, Option.any_eq_true])

instance (s : State) : DecidablePred (Call.NoStale s) := fun c => by
  cases c <;> unfold Call.NoStale <;> infer_instance

theorem populatePage_live (hg : s.Good) (h : Lively cfg.pages Allow.live s.view)
    (hst : ¬ s.FaultStale) : Sat (populatePage cfg a)
      (fun _ s' => s'.Good ∧ Lively cfg.pages Allow.live s'.view ∧ ¬ s'.FaultStale)
      (fun _ => True) s := by
  refine (populatePage_sat (A := Allow.live) hg (.inl trivial) (.inl trivial) (.inr hst)
    (.inl trivial)).run.post fun r s' ⟨hr, hg', p, v', hf, ha, hal, hn, _, hv'⟩ => ⟨hg', ?_, ?_⟩
  · rw [hv']
    exact h.faulted id hf hn ha hal
  · exact fun hst => populatePage_tier.ok hr hst.1

theorem hememMmapPopulate_live {length : UInt64} (hg : s.Good)
    (h : Lively cfg.pages Allow.live s.view) (hst : a < a + length → ¬ s.FaultStale) :
    Sat (hememMmapPopulate cfg a length)
      (fun _ s' => s'.Good ∧ Lively cfg.pages Allow.live s'.view) (fun _ => True) s := by
  refine hememMmapPopulate_sat (fun _ _ => trivial) (I := fun b s => s.Good ∧ Lively cfg.pages Allow.live s.view ∧
    (b < a + length → ¬ s.FaultStale)) (fun b s hs hb => ?_) (fun _ s hs _ => ⟨hs.1, hs.2.1⟩)
    ⟨hg, h, hst⟩
  exact (populatePage_live hs.1 hs.2.1 (hs.2.2 hb)).post
    fun _ s' h => ⟨h.1, h.2.1, fun _ => h.2.2⟩

theorem hememMunmap_live {length : UInt64} {unmaps : Bool} (hg : s.Good)
    (h : Lively cfg.pages Allow.live s.view) : Sat (hememMunmap a length unmaps)
      (fun _ s' => s'.Good ∧ Lively cfg.pages Allow.live s'.view) (fun _ => True) s := by
  unfold hememMunmap
  refine (munmapLoop_sat trivial (I := fun _ s => s.Good ∧ Lively cfg.pages Allow.live s.view)
    (fun a s p hs _ hp => ?_) (fun _ _ hs _ _ => hs) (fun _ _ hs _ => hs) ⟨hg, h⟩).bind
    fun _ s' ⟨hg', h'⟩ => ?_
  · refine (munmapPage_spec.at hs.1 rfl).mono (fun r s' ⟨hg', _, hv'⟩ => ⟨hg', ?_⟩)
      fun _ _ => trivial
    rw [hv']
    exact ⟨hs.2.inv.release hs.2.tracked trivial hp, hs.2.tracked.release hp, hs.2.alive⟩
  · rw [sat_ite]
    exact ⟨fun _ => ⟨⟨hg'.fifo, hg'.requests, hg'.free⟩, h'.setKernel _⟩, fun _ => ⟨hg', h'⟩⟩

theorem State.FaultStale.ofKernel {k : Kernel} (h : State.FaultStale { s with kernel := k }) :
    s.FaultStale := h

theorem hememMmap_live {length offset : UInt64} (hg : s.Good)
    (h : Lively cfg.pages Allow.live s.view) (hst : a < a + pageRoundUp length → ¬ s.FaultStale) :
    Sat (hememMmap cfg length offset a)
      (fun _ s' => s'.Good ∧ Lively cfg.pages Allow.live s'.view) (fun _ => True) s := by
  unfold hememMmap
  rw [sat_bind, sat_check]
  refine ⟨fun _ => ?_, fun _ => trivial⟩
  dsimp only
  rw [sat_bind, sat_check]
  refine ⟨fun _ => ?_, fun _ => trivial⟩
  rw [onKernel, sat_bind, sat_modify]
  generalize s.kernel.mmapFixed a (pageRoundUp length) .dram (offset + cfg.dramoffset) = k
  have hpop : Sat (hememMmapPopulate cfg a (pageRoundUp length)) (fun _ s' => s'.Good ∧
      Lively cfg.pages Allow.live s'.view) (fun _ => True) { s with kernel := k } := by
    refine hememMmapPopulate_live (hg.setKernel k) ?_ fun ha hf => hst ha hf.ofKernel
    rw [State.view_setKernel]
    exact h.setKernel k
  refine hpop.bind fun _ s' hs' => ?_
  obtain ⟨hg', h'⟩ := hs'
  rw [sat_bind, sat_modify, sat_pure, State.view_setMmaped]
  exact ⟨hg'.setMmaped _, h'⟩

theorem Call.run_live {c : Call} (hg : s.Good) (h : Lively cfg.pages Allow.live s.view)
    (hc : c.NoStale s) : Sat (c.run cfg)
      (fun _ s' => s'.Good ∧ Lively cfg.pages Allow.live s'.view) (fun _ => True) s := by
  cases c with
  | hint tier persistence priority =>
    exact ⟨⟨hg.fifo, hg.requests, hg.free⟩, h.setPriority priority⟩
  | mmap length offset p =>
    exact (hememMmap_live hg h hc).bind fun _ s' h => sat_pure.2 h
  | populate addr length => exact hememMmapPopulate_live hg h hc
  | missingFault pageBoundry =>
    change Sat (handleMissingFault cfg pageBoundry) _ _ s
    unfold handleMissingFault
    rw [sat_bind, sat_check]
    refine ⟨fun _ => ?_, fun _ => trivial⟩
    exact (populatePage_live hg h hc).bind fun _ s' h => ⟨h.1, h.2.1⟩
  | munmap addr length unmaps =>
    exact hememMunmap_live hg h
  | sample addr j =>
    refine (pebsScanSample_spec.at hg rfl).mono (fun _ s' h' => ⟨h'.1, ?_⟩) fun _ _ => trivial
    rcases h'.2 with hv | ⟨p, hp, hs⟩
    · rwa [hv]
    · refine ⟨h.inv.sampled h.tracked hp hs, h.tracked.sampled hs, ?_⟩
      rcases hs with hv | ⟨-, hot, l, c, r, a, t, -, hv⟩ <;> rw [hv] <;> exact h.alive
  | pass =>
    exact (pebsPolicyPass_sat hg (.inl trivial) (.inl trivial)).mono
      (fun _ s' h' => ⟨h'.1, h.moves id h'.2.1⟩) fun _ _ => trivial
  | write addr byte =>
    change Sat (appWrite addr byte) _ _ s
    unfold appWrite
    rw [sat_bind, sat_get]
    rcases s.kernel.mapping addr with _ | e
    · trivial
    rw [sat_bind, sat_check]
    exact ⟨fun _ => ⟨⟨hg.fifo, hg.requests, hg.free⟩, h.setKernel _⟩, fun _ => trivial⟩

/-- In a run whose hinted faults come to no removed page, whenever a page is migrated it is present
and `find_page` returns it for its address. -/
theorem only_live_migrated (h : (hemem cfg kernel).Reach (fun m c => c.NoStale m.state) m) :
    ∀ c ∈ m.state.calls, c.present = true ∧ c.found = some c.page := by
  have hlive : m.state.Good ∧ Lively cfg.pages Allow.live m.state.view := by
    refine h.invariant (I := fun m => m.state.Good ∧ Lively cfg.pages Allow.live m.state.view)
      (fun m hm => ?_) fun m c m' hI hc hs => (c.run_live hI.1 hI.2 hc).ok hs.1
    obtain ⟨hg, hv⟩ := hememInit_sat.ok hm.1
    rw [hv]
    exact ⟨hg, (inv_initial kernel).congr rfl rfl rfl rfl (fun _ => rfl) (fun _ => rfl)
      (fun _ => rfl) (fun _ => rfl) fun _ => rfl, tracked_initial, by simp [View.Alive, View.initial]⟩
  exact hlive.2.alive

/-- A page is unmapped, drained and mapped again, the fault of a page hinted for DRAM moves page 1
down, and once that one has been sampled enough a pass exchanges it with page 0. -/
theorem only_live_migrated_mapped : ∃ m : Memory,
    m.state.calls.map (fun c => (c.page, c.up)) = [(1, true), (0, false), (1, false)] ∧
      ∀ c ∈ m.state.calls, c.present = true ∧ c.found = some c.page := by
  obtain ⟨m, hm, hcalls⟩ := launch_reach fourFrames Kernel.fresh (fun m c => c.NoStale m.state)
    ([.mmap (2 * hugepageSize) 0 hugepageSize, .munmap hugepageSize hugepageSize true, .pass,
      .mmap hugepageSize 0 hugepageSize, .hint 0 0 0, .mmap hugepageSize 0 (8 * hugepageSize),
      .hint (-1) 0 0] ++ List.replicate 8 (.sample (2 * hugepageSize) .nvmread) ++ [.pass])
    (fun m => m.state.calls.map (fun c => (c.page, c.up)) = [(1, true), (0, false), (1, false)])
    (by decide +kernel)
  exact ⟨m, of_decide_eq_true hcalls, only_live_migrated hm⟩

/-- Both DRAM pages are given out, one of them is unmapped, and a hinted fault finds it at the back
of DRAM cold before the ring is drained. -/
theorem stale_page_migrated : ∃ m : Memory,
    (hemem fourFrames Kernel.fresh).Reach (fun _ _ => True) m ∧
      ∃ c ∈ m.state.calls, c.present = false ∧ c.found = none := by
  obtain ⟨m, hm, hc⟩ := launch_reach fourFrames Kernel.fresh (fun _ _ => True)
    [.mmap (2 * hugepageSize) 0 hugepageSize, .munmap hugepageSize hugepageSize true,
      .hint 0 0 0, .missingFault hugepageSize]
    (fun m => m.state.calls.any fun c => !c.present && c.found == none) (by decide +kernel)
  obtain ⟨c, hc, hp⟩ := List.any_eq_true.1 hc
  exact ⟨m, hm, c, hc, by simpa using hp⟩

end Runs

end HeMem

import HeMem.Accounting
import HeMem.Proofs.Unmap

/-!
# The sizes in a run

What is tracked is what is given out, so both sizes are a count of present pages.  A region that is
mapped while nothing is tracked sets both to its length.  The second region mapped sets one of them
to less than there is, and unmapping then takes more from it than it holds.
-/

namespace HeMem

open Hoare Function

variable {cfg : Config} {kernel : Kernel} {s t : State} {m : Memory} {v w : View} {p q : PageId}
  {a b c addr length stop : UInt64} {n i : ℕ}

section Counting

/-- One element more satisfies the predicate. -/
theorem countP_succ {x : ℕ} {f g : ℕ → Bool} (hx : x < n) (hf : f x = false) (hg : g x = true)
    (hsame : ∀ y, y ≠ x → g y = f y) :
    (List.range n).countP g = (List.range n).countP f + 1 := by
  induction n with
  | zero => omega
  | succ n ih =>
    simp only [List.range_succ, List.countP_append, List.countP_singleton]
    rcases Nat.lt_succ_iff_lt_or_eq.1 hx with hlt | rfl
    · rw [ih hlt, hsame n (by omega)]
      omega
    · have hcongr : (List.range x).countP g = (List.range x).countP f :=
        List.countP_congr fun y hy => by rw [hsame y (by have := List.mem_range.1 hy; omega)]
      rw [hcongr, hf, hg]
      simp

/-- A fault gives out one page. -/
theorem Faulted.present {A : Allow} (h : Inv cfg.pages A v) (hf : Faulted A v p w) : p < cfg.pages ∧
    (v.page p).present = false ∧ (w.page p).present = true ∧
      ∀ q, q ≠ p → (w.page q).present = (v.page q).present := by
  obtain ⟨v₁, hm, ⟨dram, rfl, hf, rfl⟩ | ⟨-, l, e, hf, -, rfl⟩⟩ := hf
  · exact ⟨h.owned p _ hf.list, hf.present, by simp [View.alloc],
      fun q hq => by simp [View.alloc, hq]⟩
  · have h₁ := inv_kept.moves h hm
    have hpr := Moves.present h hm
    exact ⟨h₁.owned p _ hf.list, (hpr p).symm.trans hf.present, by simp [View.alloc],
      fun q hq => by simp [View.alloc, hq, hpr]⟩

end Counting

section Sizes

/-- Both sizes. -/
def State.sizes (s : State) : UInt64 × UInt64 := (s.memAllocated, s.memMmaped)

theorem quiet_sizes : Quiet State.sizes where
  fifo _ _ := rfl
  page _ _ := rfl
  kernel _ _ := rfl
  calls _ _ := rfl
  request _ hot _ := by cases hot <;> rfl
  free _ _ := rfl
  cur _ dram _ := by cases dram <;> rfl
  clock _ _ _ _ := rfl
  startDram _ _ _ := rfl
  startNvm _ _ _ := rfl

/-- Both sizes are that of the pages given out. -/
structure Sized (cfg : Config) (s : State) : Prop where
  allocated : s.memAllocated.toNat = 2 ^ 21 * s.presentPages cfg
  mmaped : s.memMmaped.toNat = 2 ^ 21 * s.presentPages cfg

theorem Sized.congr (h : Sized cfg s) (hs : t.sizes = s.sizes)
    (hp : ∀ p, (t.page p).present = (s.page p).present) : Sized cfg t := by
  obtain ⟨h1, h2⟩ := Prod.mk.inj hs
  have hcount : t.presentPages cfg = s.presentPages cfg := by
    simp only [State.presentPages, hp]
  exact ⟨by rw [h1, hcount, h.allocated], by rw [h2, hcount, h.mmaped]⟩

/-- The pages tracked are those given out. -/
theorem trackedSize_eq (h : s.view.Kept cfg) : s.trackedSize cfg = 2 ^ 21 * s.presentPages cfg := by
  have htracked : ∀ p ∈ List.range cfg.pages,
      decide (s.pages (s.page p).va = some p) = (s.page p).present := fun p hp => by
    have hn := List.mem_range.1 hp
    rcases hpr : (s.page p).present with _ | _
    · refine decide_eq_false fun hfound => ?_
      rcases h.2.1.live _ p hfound with ⟨-, -, hlive⟩ | ⟨-, hdummy, -⟩
      · exact absurd (hpr.symm.trans hlive) nofun
      · exact absurd hdummy (Nat.ne_of_lt hn)
    · exact decide_eq_true (h.2.1.found p hn hpr)
  have hsize : ∀ p ∈ (List.range cfg.pages).filter (fun p => (s.page p).present),
      (ptToPagesize (s.page p).pt).toNat = 2 ^ 21 := fun p _ => by
    have hpt : (s.page p).pt = .hugep := h.2.2 p
    rw [hpt]
    rfl
  rw [State.trackedSize, List.filter_congr htracked, List.map_congr_left hsize, List.map_const',
    List.sum_replicate_nat, State.presentPages, List.countP_eq_length_filter, Nat.mul_comm]

theorem Sized.accounted (h : Sized cfg s) (hk : s.view.Kept cfg) : s.Accounted cfg :=
  ⟨h.allocated.trans (trackedSize_eq hk).symm, h.mmaped.trans (trackedSize_eq hk).symm⟩

end Sizes

section Mapping

theorem mapPage_grows : Sat (mapPage p a) (fun r t => t.memAllocated = s.memAllocated + r)
    (fun _ => True) s := by
  simp only [mapPage, getPage, modifyPage, onKernel, addPage, bind_assoc, sat_bind, sat_get,
    sat_pure, sat_modify, sat_check]
  exact ⟨fun _ => ⟨fun _ => ⟨fun _ => trivial, fun _ => trivial⟩, fun _ => trivial⟩, fun _ => trivial⟩

theorem populatePage_grows : Sat (populatePage cfg a)
    (fun r t => t.memAllocated = s.memAllocated + r) (fun _ => True) s := by
  unfold populatePage
  refine (quiet_sizes.calm.pebsPagefault (fun _ => rfl) s).bind fun p t ht => ?_
  exact mapPage_grows.post fun r u hu => by rw [hu, (Prod.mk.inj ht).1]

/-- Populating a page gives out one page more. -/
theorem populatePage_counts (h : Holds (View.Kept cfg) s) : Sat (populatePage cfg a)
    (fun r t => Holds (View.Kept cfg) t ∧ a % hugepageSize = 0 ∧ r = hugepageSize ∧
      t.memAllocated = s.memAllocated + hugepageSize ∧
      t.presentPages cfg = s.presentPages cfg + 1) (fun _ => True) s := by
  have hfault := @populatePage_sat cfg Allow.any s a h.1 (.inl trivial)
    (.inl trivial) (.inl trivial) (.inl trivial)
  refine ((hfault.and (kept_kept.populatePage h)).and populatePage_grows).post
    fun r t ⟨⟨⟨_, p, w, hf, _, hal, _, hr, hv⟩, hk⟩, hgrow⟩ => ?_
  obtain ⟨hn, hfree, hpr, hsame⟩ := Faulted.present h.2.1 hf
  have hpt : (w.page p).pt = .hugep := by
    have hpt : (t.view.page p).pt = .hugep := hk.2.2.2 p
    rw [hv] at hpt
    simpa [View.populate] using hpt
  have hpage : ∀ x, (t.page x).present = (w.page x).present := fun x => by
    change (t.view.page x).present = _
    rw [hv]
    rcases eq_or_ne x p with rfl | hx
    · simp [View.populate]
    · simp [View.populate, hx]
  have hr : r = hugepageSize := by
    rw [hr, hpt]
    rfl
  subst hr
  exact ⟨hk, hal, rfl, hgrow, countP_succ hn hfree ((hpage p).trans hpr)
    fun x hx => (hpage x).trans (hsame x hx)⟩

/-- How far `hemem_mmap_populate` has come in a region at `a`, the first there is: at the boundary
`b`, after `i` pages. -/
structure Growing (cfg : Config) (a length : UInt64) (b : UInt64) (s : State) : Prop where
  kept : Holds (View.Kept cfg) s
  addr : b.toNat = a.toNat + 2 ^ 21 * s.presentPages cfg
  le : 2 ^ 21 * s.presentPages cfg ≤ length.toNat
  allocated : s.memAllocated.toNat = 2 ^ 21 * s.presentPages cfg

theorem Growing.next (h : Growing cfg a length b s) (hb : b < a + length)
    (hroom : a.toNat + length.toNat ≤ taskSize) (hlen : length % hugepageSize = 0) :
    Sat (populatePage cfg b) (fun r t => Growing cfg a length (b + r) t) (fun _ => True) s := by
  refine (populatePage_counts h.kept).post fun r t ⟨hk, hal, hr, hmem, hcount⟩ => ?_
  subst hr
  have haddr := h.addr
  have hle := h.le
  have hmem' := h.allocated
  have htask : taskSize = 2 ^ 56 := rfl
  rw [aligned_iff] at hal hlen
  rw [UInt64.lt_iff_toNat_lt, UInt64.toNat_add, Nat.mod_eq_of_lt (by omega)] at hb
  refine ⟨hk, ?_, ?_, ?_⟩
  · rw [UInt64.toNat_add, toNat_hugepageSize, hcount, Nat.mod_eq_of_lt (by omega)]
    omega
  · rw [hcount]
    omega
  · rw [hmem, UInt64.toNat_add, toNat_hugepageSize, hcount, Nat.mod_eq_of_lt (by omega)]
    omega

theorem presentPages_eq_zero (hk : s.view.Kept cfg) (hn : ∀ a, a ≠ 0 → s.pages a = none) :
    s.presentPages cfg = 0 := by
  refine List.countP_eq_zero.2 fun p hp hpr => ?_
  have hfound : s.pages (s.page p).va = some p := hk.2.1.found p (List.mem_range.1 hp) hpr
  rcases hk.2.1.live _ p hfound with ⟨hva, -, -⟩ | ⟨-, hdummy, -⟩
  · rw [hn _ hva] at hfound
    cases hfound
  · exact absurd hdummy (Nat.ne_of_lt (List.mem_range.1 hp))

theorem growing_start (hk : Holds (View.Kept cfg) s) (hs : Sized cfg s)
    (hn : ∀ a, a ≠ 0 → s.pages a = none) : Growing cfg a length a s := by
  refine ⟨hk, ?_, ?_, hs.allocated⟩ <;> rw [presentPages_eq_zero hk.2 hn, Nat.mul_zero]
  · rfl
  · exact Nat.zero_le _

theorem hememMmapPopulate_grows (hroom : a.toNat + length.toNat ≤ taskSize)
    (hlen : length % hugepageSize = 0) (h : Growing cfg a length a s) :
    Sat (hememMmapPopulate cfg a length) (fun _ t => Holds (View.Kept cfg) t ∧
      t.memAllocated.toNat = 2 ^ 21 * t.presentPages cfg ∧
      length.toNat = 2 ^ 21 * t.presentPages cfg) (fun _ => True) s := by
  refine hememMmapPopulate_sat (fun _ _ => trivial) (I := Growing cfg a length)
    (fun b t ht hb => ht.next hb hroom hlen) (fun b t ht hb => ⟨ht.kept, ht.allocated, ?_⟩) h
  have htask : taskSize = 2 ^ 56 := rfl
  have haddr := ht.addr
  have hle := ht.le
  rw [UInt64.lt_iff_toNat_lt, UInt64.toNat_add, Nat.mod_eq_of_lt (by omega)] at hb
  omega

theorem growing_setKernel {k : Kernel} (hk : Holds (View.Kept cfg) s) (hs : Sized cfg s)
    (hn : ∀ a, a ≠ 0 → s.pages a = none) : Growing cfg a length a { s with kernel := k } :=
  growing_start (kept_kept.setKernel hk k) (hs.congr rfl fun _ => rfl) hn

theorem sized_setMmaped {x : UInt64} (hk : Holds (View.Kept cfg) s)
    (h : s.memAllocated.toNat = 2 ^ 21 * s.presentPages cfg)
    (hx : x.toNat = 2 ^ 21 * s.presentPages cfg) :
    Holds (View.Kept cfg) { s with memMmaped := x } ∧ Sized cfg { s with memMmaped := x } :=
  ⟨⟨hk.1.setMmaped x, by rw [State.view_setMmaped]; exact hk.2⟩, h, hx⟩

theorem hememMmap_sized {offset : UInt64} (hk : Holds (View.Kept cfg) s) (hs : Sized cfg s)
    (hroom : a.toNat + (pageRoundUp length).toNat ≤ taskSize)
    (hn : ∀ a, a ≠ 0 → s.pages a = none) : Sat (hememMmap cfg length offset a)
      (fun _ t => Holds (View.Kept cfg) t ∧ Sized cfg t) (fun _ => True) s := by
  unfold hememMmap
  rw [sat_bind, sat_check]
  refine ⟨fun _ => ?_, fun _ => trivial⟩
  dsimp only
  rw [sat_bind, sat_check]
  refine ⟨fun _ => ?_, fun _ => trivial⟩
  rw [onKernel, sat_bind, sat_modify]
  generalize s.kernel.mmapFixed a (pageRoundUp length) .dram (offset + cfg.dramoffset) = k
  have hstart : Growing cfg a (pageRoundUp length) a { s with kernel := k } :=
    growing_setKernel hk hs hn
  rw [sat_bind]
  refine (hememMmapPopulate_grows hroom (pageRoundUp_aligned length) hstart).post
    fun _ t ht => ?_
  obtain ⟨hk', hall, hround⟩ := ht
  rw [sat_bind, sat_modify, sat_pure]
  exact sized_setMmaped hk' hall hround

end Mapping

section Unmapping

/-- How far `hemem_munmap` has come at the boundary `b`. -/
structure Shrinking (cfg : Config) (addr b : UInt64) (s : State) : Prop where
  kept : Holds (View.Kept cfg) s
  sized : Sized cfg s
  le : addr.toNat ≤ b.toNat
  base : b.toNat % 2 ^ 12 = 0

variable {unmaps : Bool} (hc : (Call.munmap addr length unmaps).OfRegions)
include hc

theorem Shrinking.hole (h : Shrinking cfg addr b s) (hb : b < addr + length) :
    Shrinking cfg addr (b + basepageSize) s := by
  obtain ⟨-, ha, hl, hno⟩ := hc
  have hle := h.le
  have hbase := h.base
  rw [aligned_iff] at ha hl
  rw [UInt64.lt_iff_toNat_lt, UInt64.toNat_add, Nat.mod_eq_of_lt hno] at hb
  have hnext : (b + basepageSize).toNat = b.toNat + 2 ^ 12 := by
    rw [UInt64.toNat_add, toNat_basepageSize, Nat.mod_eq_of_lt (by omega)]
  exact ⟨h.kept, h.sized, by omega, by omega⟩

/-- A page that is found is one of the application's, and given out. -/
theorem Shrinking.found (h : Shrinking cfg addr b s) (hp : s.pages b = some p) :
    p < cfg.pages ∧ (s.page p).present = true ∧ 0 < s.presentPages cfg := by
  have hb : b ≠ 0 := by
    rintro rfl
    have hle := h.le
    rw [UInt64.toNat_zero] at hle
    exact hc.1 (by rw [← UInt64.toNat_inj, UInt64.toNat_zero]; omega)
  rcases h.kept.2.2.1.live b p hp with ⟨-, hn, hpr⟩ | ⟨h0, -⟩
  · exact ⟨hn, hpr, List.countP_pos_iff.2 ⟨p, List.mem_range.2 hn, hpr⟩⟩
  · exact absurd h0 hb

theorem Shrinking.subtracts (h : Shrinking cfg addr b s) (hp : s.pages b = some p) :
    ptToPagesize (s.page p).pt ≤ s.memAllocated ∧ ptToPagesize (s.page p).pt ≤ s.memMmaped := by
  obtain ⟨-, -, hpos⟩ := h.found hc hp
  have hpt : (s.page p).pt = .hugep := h.kept.2.2.2 p
  rw [hpt, ptToPagesize, UInt64.le_iff_toNat_le, UInt64.le_iff_toNat_le, h.sized.allocated,
    h.sized.mmaped, toNat_hugepageSize]
  omega

theorem Shrinking.page {r : UInt64} (h : Shrinking cfg addr b s) (hb : b < addr + length)
    (hp : s.pages b = some p) (hr : munmapPage p s = .ok (r, t)) :
    Shrinking cfg addr (b + r) t := by
  obtain ⟨hn, hpr, hpos⟩ := h.found hc hp
  obtain ⟨hsub, hsub'⟩ := h.subtracts hc hp
  obtain ⟨hg, -, hv⟩ := (munmapPage_spec.at h.kept.1 rfl).ok hr
  have hk : Holds (View.Kept cfg) t := ⟨hg, hv ▸ kept_kept.release h.kept.2 hp⟩
  have hpt : (s.page p).pt = .hugep := h.kept.2.2.2 p
  have hal := aligned_iff.1 (h.kept.2.sound b p hp).2.1
  rw [munmapPage_eq, hpt] at hr
  split at hr
  · cases hr
  cases hr
  obtain ⟨-, ha, hl, hno⟩ := hc
  have hle := h.le
  rw [aligned_iff] at ha hl
  rw [UInt64.lt_iff_toNat_lt, UInt64.toNat_add, Nat.mod_eq_of_lt hno] at hb
  have hnext : (b + hugepageSize).toNat = b.toNat + 2 ^ 21 := by
    rw [UInt64.toNat_add, toNat_hugepageSize, Nat.mod_eq_of_lt (by omega)]
  have hcount : s.presentPages cfg = State.presentPages cfg (s.drop p) + 1 :=
    countP_succ hn (by simp [State.drop, HememPage.clearCounters]) hpr
      fun x hx => by simp [State.drop, hx]
  rw [hpt, ptToPagesize] at hsub hsub'
  have hall : (s.drop p).memAllocated.toNat = s.memAllocated.toNat - 2 ^ 21 := by
    rw [← toNat_hugepageSize, ← UInt64.toNat_sub_of_le _ _ hsub, State.drop, hpt]
    rfl
  have hmap : (s.drop p).memMmaped.toNat = s.memMmaped.toNat - 2 ^ 21 := by
    rw [← toNat_hugepageSize, ← UInt64.toNat_sub_of_le _ _ hsub', State.drop, hpt]
    rfl
  have hall' := h.sized.allocated
  have hmap' := h.sized.mmaped
  refine ⟨hk, ⟨by omega, by omega⟩, ?_, ?_⟩
  · rw [ptToPagesize, hnext]
    omega
  · rw [ptToPagesize, hnext]
    omega

/-- What holds at the head of the loop holds wherever it comes. -/
theorem Shrinking.head (h : Shrinking cfg addr a s) (hh : MunmapHead (addr + length) a s b t) :
    Shrinking cfg addr b t := by
  induction hh with
  | here a s => exact h
  | hole ha hp _ ih => exact ih (h.hole hc ha)
  | page ha hp hr _ ih => exact ih (h.page hc ha hp hr)

theorem hememMunmap_sized (hk : Holds (View.Kept cfg) s) (hs : Sized cfg s) :
    Sat (hememMunmap addr length unmaps) (fun _ t => Holds (View.Kept cfg) t ∧ Sized cfg t)
      (fun _ => True) s := by
  have hstart : Shrinking cfg addr addr s := by
    have ha := aligned_iff.1 hc.2.1
    exact ⟨hk, hs, Nat.le_refl _, by omega⟩
  unfold hememMunmap
  refine (munmapLoop_sat trivial (I := Shrinking cfg addr)
    (J := fun t => Holds (View.Kept cfg) t ∧ Sized cfg t)
    (fun b t p ht hb hp => sat_iff.2 ⟨fun r u hr => ht.page hc hb hp hr, fun _ _ => trivial⟩)
    (fun b t ht hb _ => ht.hole hc hb) (fun b t ht _ => ⟨ht.kept, ht.sized⟩) hstart).bind
    fun _ t ⟨hk', hs'⟩ => ?_
  rw [sat_ite]
  refine ⟨fun _ => ?_, fun _ => ⟨hk', hs'⟩⟩
  rw [onKernel, sat_modify]
  generalize t.kernel.munmap addr length = k
  exact ⟨kept_kept.setKernel hk' k, hs'.congr rfl fun _ => rfl⟩

end Unmapping

section Runs

theorem untracked_initial (hm : hememInit cfg (State.blank kernel) = .ok ((), s)) :
    ∀ a, a ≠ 0 → s.pages a = none := fun a ha => by
  obtain ⟨-, hv⟩ := hememInit_sat.ok hm
  change s.view.pages a = none
  rw [hv]
  exact (update_of_ne ha _ _ : update (fun _ => none) 0 (some (dummyPage cfg)) a = none)

theorem sized_initial (hm : hememInit cfg (State.blank kernel) = .ok ((), s)) : Sized cfg s := by
  have hsizes : Frames State.sizes (hememInit cfg) := by
    unfold hememInit addPage
    refine quiet_sizes.pebsInit.bind fun _ => frames_getPage.bind fun _ =>
      frames_get.bind fun _ => frames_check.bind fun _ => frames_modify fun _ => rfl
  obtain ⟨h1, h2⟩ := Prod.mk.inj ((hsizes _).ok hm)
  have hzero := presentPages_eq_zero (kept_initial hm).2 (untracked_initial hm)
  exact ⟨by rw [h1, hzero]; rfl, by rw [h2, hzero]; rfl⟩

theorem Call.run_sized {c : Call} (hc : c.OfRegions) (ha : c.Alone s) (hk : Holds (View.Kept cfg) s)
    (hs : Sized cfg s) : Sat (c.run cfg) (fun _ t => Holds (View.Kept cfg) t ∧ Sized cfg t)
      (fun _ => True) s := by
  cases c with
  | hint tier persistence priority =>
    exact ⟨⟨⟨hk.1.fifo, hk.1.requests, hk.1.free⟩, kept_kept.priority priority hk.2⟩,
      hs.congr rfl fun _ => rfl⟩
  | mmap length offset p => exact (hememMmap_sized hk hs hc ha).bind fun _ _ h => sat_pure.2 h
  | populate _ _ | missingFault _ => exact hc.elim
  | munmap addr length unmaps => exact hememMunmap_sized hc hk hs
  | sample addr j =>
    have hquiet : Frames State.sizes (pebsScanSample addr j) := by
      refine frames_ite ?_ frames_pure
      refine (frames_get.bind fun _ => frames_pure).bind fun r => ?_
      rcases r with _ | p
      · exact frames_pure
      · exact quiet_sizes.samplePage
    refine ((kept_kept.run (c := .sample addr j) hk).and (((pebsScanSample_spec.at hk.1 rfl).mono
      (fun _ _ => id) fun _ _ => trivial).and (hquiet s))).post fun _ t ht => ?_
    obtain ⟨hk', h, hsz⟩ := ht
    refine ⟨hk', hs.congr hsz fun x => ?_⟩
    change (t.view.page x).present = (s.view.page x).present
    rcases h.2 with hv | ⟨p, -, hv | ⟨-, hot, l, c, r, acc, tot, -, hv⟩⟩
    · rw [hv]
    · rw [hv]
    · rw [hv]
      rcases eq_or_ne x p with rfl | hx
      · simp [View.edit, View.setRequests]
      · simp [View.edit, View.setRequests, hx]
  | pass =>
    refine ((kept_kept.run (c := .pass) hk).and (((pebsPolicyPass_sat (A := Allow.any) hk.1
      (.inl trivial) (.inl trivial)).mono (fun _ _ => id) fun _ _ => trivial).and
      (quiet_sizes.calm.pebsPolicyPass s))).post fun _ t ht => ?_
    obtain ⟨hk', h, hsz⟩ := ht
    exact ⟨hk', hs.congr hsz (Moves.present hk.2.1 h.2.1)⟩
  | write addr byte =>
    change Sat (appWrite addr byte) _ _ s
    unfold appWrite
    rw [sat_bind, sat_get]
    rcases s.kernel.mapping addr with _ | e
    · trivial
    rw [sat_bind, sat_check]
    refine ⟨fun _ => ?_, fun _ => trivial⟩
    rw [onKernel, sat_modify]
    exact ⟨kept_kept.setKernel hk _, hs.congr rfl fun _ => rfl⟩

/-- In runs that map a region only while no page is tracked, both sizes are that of the pages tracked,
and no unmapping takes more from them than they hold. -/
theorem sizes_accounted (h : (hemem cfg kernel).Reach
    (fun m c => c.OfRegions ∧ c.Alone m.state) m) :
    m.state.Accounted cfg ∧ ∀ addr length unmaps, (Call.munmap addr length unmaps).OfRegions →
      m.state.Subtracts addr length := by
  have hI : Holds (View.Kept cfg) m.state ∧ Sized cfg m.state := by
    refine h.invariant (I := fun m => Holds (View.Kept cfg) m.state ∧ Sized cfg m.state)
      (fun m hm => ⟨kept_initial hm.1, sized_initial hm.1⟩) fun m c m' hI hc hst => ?_
    exact (Call.run_sized hc.1 hc.2 hI.1 hI.2).ok hst.1
  refine ⟨hI.2.accounted hI.1.2, fun addr length unmaps hc b t page hh _ hp => ?_⟩
  have ha := aligned_iff.1 hc.2.1
  have hstart : Shrinking cfg addr addr m.state := ⟨hI.1, hI.2, Nat.le_refl _, by omega⟩
  exact (hstart.head hc hh).subtracts hc hp

/-- A region of two pages is mapped, and one of them is unmapped. -/
theorem sizes_accounted_part : ∃ m : Memory, m.state.pages hugepageSize = none ∧
    m.state.pages (2 * hugepageSize) = some 1 ∧ m.state.Accounted fourFrames ∧
      m.state.Subtracts (2 * hugepageSize) hugepageSize := by
  obtain ⟨m, hm, hc⟩ := launch_reach_of_first fourFrames Kernel.fresh
    (fun _ c => c = .munmap hugepageSize hugepageSize true)
    (K := fun m c => c.OfRegions ∧ c.Alone m.state) (D := fun _ => True)
    (.mmap (2 * hugepageSize) 0 hugepageSize) [.munmap hugepageSize hugepageSize true]
    (fun m => (m.state.pages hugepageSize).isNone && m.state.pages (2 * hugepageSize) = some 1)
    (fun m hm _ => ⟨by decide, untracked_initial hm.1⟩)
    (fun _ c hc => hc ▸ ⟨by decide, trivial⟩) (by decide +kernel)
  simp only [Bool.and_eq_true, decide_eq_true_eq, Option.isNone_iff_eq_none] at hc
  obtain ⟨h1, h2⟩ := sizes_accounted hm
  exact ⟨m, hc.1, hc.2, h1, h2 _ _ true (by decide)⟩

/-- Two regions are mapped, and both are unmapped. -/
theorem sizes_wrap : ∃ m m' : Memory,
    (hemem fourFrames Kernel.fresh).Reach (fun _ c => c.OfRegions) m ∧
      m.state.memAllocated = 2 * hugepageSize ∧ m.state.memMmaped = hugepageSize ∧
      (hemem fourFrames Kernel.fresh).Reach (fun _ c => c.OfRegions) m' ∧
      m'.state.memAllocated = 0 ∧ m'.state.memMmaped = -hugepageSize := by
  obtain ⟨m, hm, hc⟩ := launch_reach fourFrames Kernel.fresh (fun _ c => c.OfRegions)
    [.mmap hugepageSize 0 hugepageSize, .mmap hugepageSize 0 (2 * hugepageSize)]
    (fun m => m.state.memAllocated = 2 * hugepageSize && m.state.memMmaped = hugepageSize)
    (by decide +kernel)
  obtain ⟨m', hm', hc'⟩ := launch_reach fourFrames Kernel.fresh (fun _ c => c.OfRegions)
    [.mmap hugepageSize 0 hugepageSize, .mmap hugepageSize 0 (2 * hugepageSize),
      .munmap hugepageSize (2 * hugepageSize) true]
    (fun m => m.state.memAllocated = 0 && m.state.memMmaped = -hugepageSize)
    (by decide +kernel)
  simp only [Bool.and_eq_true, decide_eq_true_eq] at hc hc'
  exact ⟨m, m', hm, hc.1, hc.2, hm', hc'.1, hc'.2⟩

end Runs

end HeMem

import HeMem.Interpose
import HeMem.Proofs.Application

/-!
# What becomes of a hint

`hook` reads tier code zero as no tier at all, so a hint for DRAM reaches the allocators as none:
the next pages are given out as without it, from the free DRAM pages first, cold, and with whatever
mark their last owner left on them.
-/

namespace HeMem

open Hoare Function

variable {cfg : Config} {kernel : Kernel} {s t : State} {m m' : Memory} {v w : View} {p : PageId}
  {a b length offset : UInt64} {n i : ℕ} {I : View → Prop}

section Calls

/-- A run may go through everything. -/
def Allow.any : Allow := ⟨True, True, True, True, True, True⟩

/-- What is kept, in the view, by all that a call consists of. -/
structure CallKept (cfg : Config) (I : View → Prop) : Prop where
  move : ∀ {v w}, I v → Move Allow.any v w → I w
  populate : ∀ {v w p a}, I v → Faulted Allow.any v p w → w.pages a = none → a ≠ 0 →
    a % hugepageSize = 0 → I (w.populate p a)
  release : ∀ {v p a}, I v → v.pages a = some p → I (v.release p)
  sampled : ∀ {v w p a}, I v → v.pages a = some p → Sampled v p w → I w
  kernel : ∀ {v} (k : Kernel), I v → I { v with kernel := k }
  priority : ∀ {v} (n : ℤ), I v → I (v.setPriority n)

/-- The state is well formed and its view has the property. -/
def Holds (I : View → Prop) (s : State) : Prop := s.Good ∧ I s.view

variable (hk : CallKept cfg I)
include hk

theorem CallKept.moves (hm : Moves Allow.any v w) (h : I v) : I w :=
  hm.invariant h fun _ _ => hk.move

theorem CallKept.populatePage (h : Holds I s) :
    Sat (populatePage cfg a) (fun _ => Holds I) (fun _ => True) s :=
  (populatePage_sat (A := Allow.any) h.1 (.inl trivial) (.inl trivial) (.inl trivial)
    (.inl trivial)).post fun _ _ ⟨hg, _, _, hf, ha, hal, hn, _, hv⟩ =>
      ⟨hg, hv ▸ hk.populate h.2 hf hn ha hal⟩

theorem CallKept.hememMmapPopulate (h : Holds I s) :
    Sat (hememMmapPopulate cfg a length) (fun _ => Holds I) (fun _ => True) s :=
  hememMmapPopulate_sat (fun _ _ => trivial) (I := fun _ => Holds I) (fun _ _ h _ => hk.populatePage h)
    (fun _ _ h _ => h) h

theorem CallKept.setKernel (h : Holds I s) (k : Kernel) : Holds I { s with kernel := k } :=
  ⟨h.1.setKernel k, by
    rw [State.view_setKernel]
    exact hk.kernel k h.2⟩

theorem CallKept.hememMmap (h : Holds I s) :
    Sat (hememMmap cfg length offset a) (fun _ => Holds I) (fun _ => True) s := by
  unfold HeMem.hememMmap
  rw [sat_bind, sat_check]
  refine ⟨fun _ => ?_, fun _ => trivial⟩
  dsimp only
  rw [sat_bind, sat_check]
  refine ⟨fun _ => ?_, fun _ => trivial⟩
  rw [onKernel, sat_bind, sat_modify]
  generalize s.kernel.mmapFixed a (pageRoundUp length) .dram (offset + cfg.dramoffset) = k
  refine (hk.hememMmapPopulate (hk.setKernel h k)).bind fun _ s' h' => ?_
  rw [sat_bind, sat_modify, sat_pure, Holds, State.view_setMmaped]
  exact ⟨h'.1.setMmaped _, h'.2⟩

theorem CallKept.hememMunmap {unmaps : Bool} (h : Holds I s) :
    Sat (hememMunmap a length unmaps) (fun _ => Holds I) (fun _ => True) s := by
  unfold HeMem.hememMunmap
  refine (munmapLoop_sat trivial (I := fun _ => Holds I) (fun a s p hs _ hp => ?_) (fun _ _ hs _ _ => hs)
    (fun _ _ hs _ => hs) h).bind fun _ s' h' => ?_
  · exact (munmapPage_spec.at hs.1 rfl).mono
      (fun r s' ⟨hg, _, hv⟩ => ⟨hg, hv ▸ hk.release hs.2 hp⟩) fun _ _ => trivial
  · rw [sat_ite]
    refine ⟨fun _ => ?_, fun _ => h'⟩
    rw [onKernel, sat_modify]
    generalize s'.kernel.munmap a length = k
    exact hk.setKernel h' k

/-- Every call keeps it. -/
theorem CallKept.run {c : Call} (h : Holds I s) :
    Sat (c.run cfg) (fun _ => Holds I) (fun _ => True) s := by
  cases c with
  | hint tier persistence priority =>
    exact ⟨⟨h.1.fifo, h.1.requests, h.1.free⟩, hk.priority priority h.2⟩
  | mmap length offset p => exact (hk.hememMmap h).bind fun _ _ h => sat_pure.2 h
  | populate addr length => exact hk.hememMmapPopulate h
  | missingFault pageBoundry =>
    change Sat (handleMissingFault cfg pageBoundry) _ _ s
    unfold handleMissingFault
    rw [sat_bind, sat_check]
    refine ⟨fun _ => ?_, fun _ => trivial⟩
    exact (hk.populatePage h).bind fun _ _ h => h
  | munmap addr length unmaps => exact hk.hememMunmap h
  | sample addr j =>
    refine (pebsScanSample_spec.at h.1 rfl).mono (fun _ s' h' => ⟨h'.1, ?_⟩) fun _ _ => trivial
    rcases h'.2 with hv | ⟨p, hp, hs⟩
    · exact hv ▸ h.2
    · exact hk.sampled h.2 hp hs
  | pass =>
    exact (pebsPolicyPass_sat h.1 (.inl trivial) (.inl trivial)).mono
      (fun _ s' h' => ⟨h'.1, hk.moves h'.2.1 h.2⟩) fun _ _ => trivial
  | write addr byte =>
    change Sat (appWrite addr byte) _ _ s
    unfold appWrite
    rw [sat_bind, sat_get]
    rcases s.kernel.mapping addr with _ | e
    · trivial
    rw [sat_bind, sat_check]
    refine ⟨fun _ => ?_, fun _ => trivial⟩
    rw [onKernel, sat_modify]
    exact hk.setKernel h _

theorem CallKept.reach {S : System Memory Call} {C : Memory → Call → Prop}
    (hi : ∀ m, S.init m → Holds I m.state)
    (hs : ∀ m c m', S.step m c m' → c.run cfg m.state = .ok ((), m'.state)) (h : S.Reach C m) :
    Holds I m.state :=
  h.invariant hi fun m c m' hI _ hst => (hk.run hI).ok (hs m c m' hst)

end Calls

section Huge

/-- Every page struct is one of a huge page. -/
def View.Huge (v : View) : Prop := ∀ p, (v.page p).pt = .hugep

theorem View.Huge.edit (h : v.Huge) {f : HememPage → HememPage} (hf : ∀ P, (f P).pt = P.pt) :
    (v.edit p f).Huge := fun x => (edit_pt hf x).trans (h x)

theorem View.Huge.move {A : Allow} (h : v.Huge) (hm : Move A v w) : w.Huge := by
  rcases hm.exchanges with ⟨up, p, np, -, rfl⟩ | hs
  · exact fun x => (exchange_pt x).trans (h x)
  · exact fun x => (hs.pt x).trans (h x)

theorem huge_kept : CallKept cfg View.Huge where
  move := View.Huge.move
  populate := fun {v w p a} h hf _ _ _ => by
    have hw : w.Huge := by
      obtain ⟨v₁, hm, ⟨dram, rfl, -, rfl⟩ | ⟨-, q, e, -, -, rfl⟩⟩ := hf
      · exact h.edit (f := ({ · with present := true, enforced := _ })) fun _ => rfl
      · exact (hm.invariant (I := View.Huge) h fun _ _ => .move).edit
          (f := ({ · with present := true, enforced := e })) fun _ => rfl
    exact hw.edit (f := ({ · with va := a, migrating := false })) fun _ => rfl
  release := fun {v p a} h _ => View.Huge.edit (v := { v with
      pages := update v.pages (v.page p).va none, free := v.free ++ [p] }) h
    (f := fun P => HememPage.clearCounters { P with present := false, hot := false }) fun _ => rfl
  sampled h _ hs := by
    rcases hs with rfl | ⟨-, hot, l, c, r, a, t, -, rfl⟩
    · exact h
    · exact View.Huge.edit (v := View.setRequests _ hot l) h fun _ => rfl
  kernel _ h := h
  priority _ h := h

theorem huge_initial (hm : hememInit cfg (State.blank kernel) = .ok ((), s)) :
    Holds View.Huge s := by
  obtain ⟨hg, hv⟩ := hememInit_sat.ok hm
  refine ⟨hg, fun p => ?_⟩
  rw [hv]
  exact (framed_initial cfg kernel).pt p

end Huge

section Tier

theorem frames_munmapLoop : ∀ {turns : ℕ} {a b : UInt64},
    Frames State.userHintTier (munmapLoop b turns a)
  | 0, _, _ => frames_throw
  | turns + 1, a, b => by
    unfold munmapLoop
    refine frames_ite ?_ frames_pure
    refine (frames_get.bind fun _ => frames_pure).bind fun r => ?_
    rcases r with _ | p
    · exact frames_munmapLoop
    · exact frames_munmapPage.bind fun _ => frames_munmapLoop

/-- A call that maps nothing and is no hint leaves the hinted tier alone. -/
theorem Call.run_tier {c : Call} (hc : c.MapsNothing) : Frames State.userHintTier (c.run cfg) := by
  cases c with
  | hint _ _ _ | mmap _ _ _ | populate _ _ | missingFault _ => exact hc.elim
  | munmap addr length unmaps =>
    exact frames_munmapLoop.bind fun _ => frames_ite quiet_tier.calm.onKernel frames_pure
  | sample addr j =>
    refine frames_ite ?_ frames_pure
    refine (frames_get.bind fun _ => frames_pure).bind fun r => ?_
    rcases r with _ | p
    · exact frames_pure
    · exact quiet_tier.samplePage
  | pass => exact quiet_tier.calm.pebsPolicyPass
  | write addr byte =>
    refine frames_get.bind fun s => ?_
    rcases s.kernel.mapping addr with _ | e
    · exact frames_throw
    · exact frames_check.bind fun _ => quiet_tier.calm.onKernel

end Tier

section Granting

/-- How far `hemem_mmap_populate` has come in a region of `n` pages from `a` on, at its `i`-th page:
the pages behind are the first `i` that were free. -/
structure Granting (s : State) (a : UInt64) (n i : ℕ) (b : UInt64) (t : State) : Prop where
  good : t.Good
  tier : t.userHintTier ≠ 0
  huge : t.view.Huge
  le : i ≤ n
  addr : b.toNat = a.toNat + i * hugepageSize.toNat
  free : t.freePages = s.freePages.drop i
  enforced : ∀ p, (t.page p).enforced = (s.page p).enforced
  rest : ∀ p, p ∉ s.freePages.take i → t.fifo.listOf p = s.fifo.listOf p
  given : ∀ k < i, ∃ p, s.freePages[k]? = some p ∧
    t.pages (a + UInt64.ofNat k * hugepageSize) = some p ∧ (t.page p).inDram = true ∧
      t.fifo.listOf p = some .dramCold

theorem nodup_freePages (hg : s.Good) : s.freePages.Nodup := by
  unfold State.freePages
  rw [List.nodup_append]
  refine ⟨List.nodup_reverse.2 hg.fifo.nodup_contents, List.nodup_reverse.2 hg.fifo.nodup_contents,
    fun x hx y hy => ?_⟩
  rintro rfl
  have h1 := hg.fifo.mem_contents.1 (List.mem_reverse.1 hx)
  have h2 := hg.fifo.mem_contents.1 (List.mem_reverse.1 hy)
  simp [h1] at h2

/-- The first free pages are those of DRAM. -/
theorem list_freePages (hg : s.Good) (hi : i < (s.fifo.list .dramFree).numentries)
    (hp : s.freePages[i]? = some p) : s.fifo.listOf p = some .dramFree := by
  have hlen : i < (s.fifo.contents .dramFree).reverse.length := by
    rwa [List.length_reverse, hg.fifo.length_contents]
  rw [State.freePages, List.getElem?_append_left hlen] at hp
  exact hg.fifo.mem_contents.1 (List.mem_reverse.1 (List.mem_of_getElem? hp))

/-- The page boundary `k` pages behind `a`. -/
theorem toNat_boundary {k : ℕ} (hk : a.toNat + k * hugepageSize.toNat < 2 ^ 64) :
    (a + UInt64.ofNat k * hugepageSize).toNat = a.toNat + k * hugepageSize.toNat := by
  have hsize : hugepageSize.toNat = 2 ^ 21 := by decide
  rw [hsize] at hk
  rw [UInt64.toNat_add, UInt64.toNat_mul, UInt64.toNat_ofNat', hsize]
  omega

theorem Granting.next (h : Granting s a n i b t) (hg : s.Good) (hi : i < n)
    (hn : n ≤ (s.fifo.list .dramFree).numentries)
    (hroom : a.toNat + n * hugepageSize.toNat < 2 ^ 64) : Sat (populatePage cfg b)
      (fun r t' => Granting s a n (i + 1) (b + r) t') (fun _ => True) t := by
  refine ((populatePage_takes h.good h.tier).and (huge_kept.populatePage ⟨h.good, h.huge⟩)).mono
    (fun r t' ⟨⟨hg', ht, p, dram, hfree, hf, hb0, hal, hnone, hr, hv⟩, _, hhuge⟩ => ?_)
    fun _ _ => trivial
  have hsize : hugepageSize.toNat = 2 ^ 21 := by decide
  have hp : s.freePages[i]? = some p := by
    rw [← List.head?_drop, ← h.free, hfree]
    rfl
  have hnodup := nodup_freePages hg
  have hfirst : ∀ k < i, s.freePages[k]? ≠ some p := fun k hk hkp => by
    have hlen := (List.getElem?_eq_some_iff.1 hkp).1
    exact absurd ((List.getElem?_inj hlen hnodup).1 (hkp.trans hp.symm)) (by omega)
  have hfresh : p ∉ s.freePages.take i := fun hmem => by
    obtain ⟨k, hk, hkp⟩ := List.mem_take_iff_getElem.1 hmem
    exact hfirst k (by omega) (List.getElem?_eq_some_iff.2 ⟨by omega, hkp⟩)
  have hdram : dram = true := by
    have hl := (h.rest p hfresh).trans (list_freePages hg (by omega) hp)
    have hl : t.view.list p = some .dramFree := hl
    rw [hf.list] at hl
    cases dram
    · cases hl
    · rfl
  subst hdram
  have hpages : ∀ c, t'.pages c = if c = b then some p else t.pages c := fun c => by
    change t'.view.pages c = _
    rw [hv]
    simp [View.populate, View.alloc, View.edit, View.put, update_apply]
    rfl
  have hlist : ∀ x, t'.fifo.listOf x = if x = p then some .dramCold else t.fifo.listOf x := by
    intro x
    change t'.view.list x = _
    rw [hv]
    simp [View.populate, View.alloc, View.edit, View.put, update_apply, coldList]
    rfl
  have hpage : ∀ x, (t'.page x).inDram = (t.page x).inDram ∧
      (t'.page x).enforced = (t.page x).enforced := by
    intro x
    change (t'.view.page x).inDram = _ ∧ (t'.view.page x).enforced = _
    rw [hv]
    rcases eq_or_ne x p with rfl | hx
    · simp [View.populate, View.alloc, View.edit, View.put]
      rfl
    · simp [View.populate, View.alloc, View.edit, View.put, hx]
      exact ⟨rfl, rfl⟩
  have hbound : ∀ k ≤ n, a.toNat + k * hugepageSize.toNat < 2 ^ 64 := fun k hk =>
    (Nat.add_le_add_left (Nat.mul_le_mul_right _ hk) _).trans_lt hroom
  have hb : a + UInt64.ofNat i * hugepageSize = b := by
    rw [← UInt64.toNat_inj, toNat_boundary (hbound i h.le), h.addr]
  refine ⟨hg', ht, hhuge, hi, ?_, ?_, fun x => ?_, fun x hx => ?_, fun k hk => ?_⟩
  · have hpt : (t.page p).pt = .hugep := h.huge p
    have haddr := h.addr
    rw [hr, hpt, ptToPagesize, UInt64.toNat_add, haddr, hsize]
    rw [hsize] at hroom
    rw [Nat.mod_eq_of_lt] <;> omega
  · rw [← List.drop_drop, ← h.free, hfree]
    rfl
  · rw [(hpage x).2, h.enforced]
  · rw [List.take_add_one, hp] at hx
    simp only [Option.toList_some, List.mem_append, List.mem_singleton, not_or] at hx
    rw [hlist, if_neg hx.2, h.rest x hx.1]
  · rcases Nat.lt_succ_iff_lt_or_eq.1 hk with hk | rfl
    · obtain ⟨q, hq, hqb, hqd, hql⟩ := h.given k hk
      have hne : q ≠ p := by
        rintro rfl
        exact hfirst k hk hq
      have hkb : a + UInt64.ofNat k * hugepageSize ≠ b := by
        rw [← hb, ne_eq, ← UInt64.toNat_inj, toNat_boundary (hbound k (by omega)),
          toNat_boundary (hbound i h.le), hsize]
        omega
      exact ⟨q, hq, by rw [hpages, if_neg hkb, hqb], (hpage q).1.trans hqd,
        by rw [hlist, if_neg hne, hql]⟩
    · refine ⟨p, hp, ?_, (hpage p).1.trans hf.inDram, ?_⟩
      · rw [hb, hpages, if_pos rfl]
      · rw [hlist, if_pos rfl]

theorem Granting.ofKernel {k : Kernel} (h : Granting { s with kernel := k } a n i b t) :
    Granting s a n i b t :=
  ⟨h.good, h.tier, h.huge, h.le, h.addr, h.free, h.enforced, h.rest, h.given⟩

theorem Granting.setMmaped (h : Granting s a n i b t) (x : UInt64) :
    Granting s a n i b { t with memMmaped := x } :=
  ⟨h.good.setMmaped x, h.tier, h.huge, h.le, h.addr, h.free, h.enforced, h.rest, h.given⟩

/-- A rounded length is that of its pages. -/
theorem pageCount_mul (x : UInt64) :
    pageCount (pageRoundUp x) * hugepageSize.toNat = (pageRoundUp x).toNat := by
  have hal := aligned_iff.1 (pageRoundUp_aligned x)
  have hsize : hugepageSize.toNat = 2 ^ 21 := by decide
  unfold pageCount
  rw [hsize]
  omega

theorem hememMmapPopulate_grants (hg : s.Good) (hh : s.view.Huge) (ht : s.userHintTier ≠ 0)
    (hl : length.toNat = n * hugepageSize.toNat) (hn : n ≤ (s.fifo.list .dramFree).numentries)
    (hroom : a.toNat + n * hugepageSize.toNat < 2 ^ 64) : Sat (hememMmapPopulate cfg a length)
      (fun _ t => 0 < n ∧ ∃ b, Granting s a n n b t) (fun _ => True) s := by
  have hsize : hugepageSize.toNat = 2 ^ 21 := by decide
  have hstop : (a + length).toNat = a.toNat + n * hugepageSize.toNat := by
    rw [UInt64.toNat_add, hl, Nat.mod_eq_of_lt hroom]
  have hpos : length ≠ 0 → 0 < n := fun h0 => by
    rw [ne_eq, ← UInt64.toNat_inj, hl] at h0
    exact Nat.pos_of_ne_zero fun hn => h0 (by simp [hn])
  rcases eq_or_ne length 0 with rfl | h0
  · unfold hememMmapPopulate
    rw [sat_bind, sat_check]
    exact ⟨fun _ => trivial, fun _ => trivial⟩
  · refine hememMmapPopulate_sat (fun _ _ => trivial) (I := fun b t => ∃ i, Granting s a n i b t)
      (fun b t ⟨i, ht⟩ hb => ?_) (fun b t ⟨i, ht⟩ hb => ⟨hpos h0, b, ?_⟩)
      ⟨0, hg, ht, hh, Nat.zero_le _, by simp, rfl, fun _ => rfl, fun _ _ => rfl, by simp⟩
    · rw [UInt64.lt_iff_toNat_lt, hstop, ht.addr, hsize] at hb
      exact (ht.next hg (by omega) hn hroom).post fun r t' ht' => ⟨i + 1, ht'⟩
    · have hle := ht.le
      rw [UInt64.lt_iff_toNat_lt, hstop, ht.addr, hsize] at hb
      obtain rfl : i = n := by omega
      exact ht

/-- Mapping the region as a whole comes before. -/
theorem hememMmapPopulate_grants_setKernel {k : Kernel} (hg : s.Good) (hh : s.view.Huge)
    (ht : s.userHintTier ≠ 0) (hl : length.toNat = n * hugepageSize.toNat)
    (hn : n ≤ (s.fifo.list .dramFree).numentries)
    (hroom : a.toNat + n * hugepageSize.toNat < 2 ^ 64) : Sat (hememMmapPopulate cfg a length)
      (fun _ t => 0 < n ∧ ∃ b, Granting s a n n b t) (fun _ => True) { s with kernel := k } := by
  have h : Sat (hememMmapPopulate cfg a length)
      (fun _ t => 0 < n ∧ ∃ b, Granting { s with kernel := k } a n n b t) (fun _ => True)
      { s with kernel := k } := by
    apply hememMmapPopulate_grants (s := { s with kernel := k })
    · exact hg.setKernel k
    · rw [State.view_setKernel]
      exact hh
    · exact ht
    · exact hl
    · exact hn
    · exact hroom
  exact h.post fun _ t ⟨hpos, b, h⟩ => ⟨hpos, b, h.ofKernel⟩

theorem hememMmap_grants (hg : s.Good) (hh : s.view.Huge) (ht : s.userHintTier ≠ 0)
    (hn : pageCount (pageRoundUp length) ≤ (s.fifo.list .dramFree).numentries)
    (hroom : a.toNat + (pageRoundUp length).toNat < 2 ^ 64) :
    Sat (hememMmap cfg length offset a) (fun _ t => 0 < pageCount (pageRoundUp length) ∧
      ∃ b, Granting s a (pageCount (pageRoundUp length)) (pageCount (pageRoundUp length)) b t)
      (fun _ => True) s := by
  have hl := pageCount_mul length
  unfold hememMmap
  rw [sat_bind, sat_check]
  refine ⟨fun _ => ?_, fun _ => trivial⟩
  dsimp only
  rw [sat_bind, sat_check]
  refine ⟨fun _ => ?_, fun _ => trivial⟩
  rw [onKernel, sat_bind, sat_modify]
  generalize s.kernel.mmapFixed a (pageRoundUp length) .dram (offset + cfg.dramoffset) = k
  generalize pageRoundUp length = rounded at hn hroom hl ⊢
  generalize pageCount rounded = n at hn hl ⊢
  refine (hememMmapPopulate_grants_setKernel hg hh ht hl.symm hn (by rwa [hl])).bind
    fun _ t ht => ?_
  obtain ⟨hpos, b, h⟩ := ht
  rw [sat_bind, sat_modify, sat_pure]
  exact ⟨hpos, b, h.setMmaped rounded⟩

end Granting

section Hints

variable {lib : Library} {answer : Answer}
  {r : Bool × Option UInt64} {arg0 arg1 arg2 arg3 arg4 arg5 arg7 arg8 : Int64} {x : UInt64}

/-- A hint with tier code zero hints at no tier. -/
theorem hook_hint (hfd : arg4.toInt32 = hintFd) : Sat (hook cfg lib answer sysMmap arg0 arg1 arg2
    arg3 arg4 arg5 0 arg7 arg8) (fun _ t => t.userHintTier = -1 ∧ (t.Good ↔ s.Good) ∧
      (t.view.Huge ↔ s.view.Huge)) (fun _ => False) s := by
  unfold hook mmapFilter
  rw [if_pos rfl, sat_ite]
  refine ⟨fun _ => ?_, fun hn => absurd hfd hn⟩
  rw [sat_bind, sat_modify, sat_pure]
  have htier : (argOr 0 (-1)).toInt = -1 := by decide
  exact ⟨htier, ⟨fun h => ⟨h.fifo, h.requests, h.free⟩, fun h => ⟨h.fifo, h.requests, h.free⟩⟩,
    Iff.rfl⟩

/-- What a hint asks of a page on DRAM cold. -/
theorem honours_cold_iff (hd : (t.page p).inDram = true) (hl : t.fifo.listOf p = some .dramCold) :
    t.Honours arg7 arg8 p ↔ arg8 ≠ 1 ∧ ((t.page p).enforced = true ↔ arg7 = 1) := by
  refine ⟨fun h => ⟨fun h1 => ?_, h.enforced⟩, fun h => ⟨hd, h.2, ?_⟩⟩
  · have hhot := h.hot.2 h1
    simp [hl] at hhot
  · simp [hl, h.1]

/-- After a hint for DRAM, and calls that map nothing, a mapping for which there are enough free
DRAM pages is as the hint wants it exactly if the hint asks for cold pages and the next free pages
bear the marks it asks for. -/
theorem hint_honoured_iff (h : (hemem cfg kernel).Reach (fun _ _ => True) m)
    (hfd : arg4.toInt32 = hintFd) (hh : hook cfg lib answer sysMmap arg0 arg1 arg2 arg3 arg4 arg5 0
      arg7 arg8 m.state = .ok (r, s))
    (hr : (hememFrom cfg s).Reach (fun _ c => c.MapsNothing) m')
    (hm : hememMmap cfg length offset a m'.state = .ok (x, t))
    (hroom : a.toNat + (pageRoundUp length).toNat < 2 ^ 64)
    (hn : pageCount (pageRoundUp length) ≤ (m'.state.fifo.list .dramFree).numentries) :
    (∀ i < pageCount (pageRoundUp length), ∃ page,
      t.pages (a + UInt64.ofNat i * hugepageSize) = some page ∧ t.Honours arg7 arg8 page) ↔
        m'.state.Suits arg7 arg8 (pageCount (pageRoundUp length)) := by
  have hm₀ : Holds View.Huge m.state :=
    huge_kept.reach (S := hemem cfg kernel) (fun _ hm => huge_initial hm.1) (fun _ _ _ hs => hs.1) h
  obtain ⟨htier, hg, hu⟩ := (hook_hint hfd).ok hh
  have hs : Holds View.Huge s := ⟨hg.2 hm₀.1, hu.2 hm₀.2⟩
  have hm₁ : Holds View.Huge m'.state :=
    huge_kept.reach (S := hememFrom cfg s) (fun m hm => (hm : m.state = s).symm ▸ hs)
      (fun _ _ _ hs => hs.1) hr
  have ht : m'.state.userHintTier = -1 := by
    refine hr.invariant (I := fun m => m.state.userHintTier = -1) (fun m hm => ?_)
      fun m c m' hI hc hs => ((Call.run_tier hc m.state).ok hs.1).trans hI
    exact hm.symm ▸ htier
  obtain ⟨hpos, b, hG⟩ := (hememMmap_grants hm₁.1 hm₁.2 (by simp [ht]) hn hroom).ok hm
  generalize pageCount (pageRoundUp length) = n at hn hpos hG ⊢
  refine ⟨fun hall => ⟨?_, fun p hp => ?_⟩, fun ⟨hcold, hmark⟩ i hi => ?_⟩
  · obtain ⟨p, hp, hhon⟩ := hall 0 hpos
    obtain ⟨q, -, hq, hqd, hql⟩ := hG.given 0 hpos
    obtain rfl : q = p := Option.some.inj (hq.symm.trans hp)
    exact ((honours_cold_iff hqd hql).1 hhon).1
  · obtain ⟨i, hi, hip⟩ := List.mem_take_iff_getElem.1 hp
    obtain ⟨p', hp', hhon⟩ := hall i (by omega)
    obtain ⟨q, hqi, hq, hqd, hql⟩ := hG.given i (by omega)
    obtain rfl : q = p' := Option.some.inj (hq.symm.trans hp')
    obtain rfl : p = q := by
      rw [List.getElem?_eq_getElem (by omega), hip] at hqi
      exact Option.some.inj hqi
    have hmark := ((honours_cold_iff hqd hql).1 hhon).2
    rwa [hG.enforced] at hmark
  · obtain ⟨p, hpi, hp, hpd, hpl⟩ := hG.given i hi
    refine ⟨p, hp, (honours_cold_iff hpd hpl).2 ⟨hcold, ?_⟩⟩
    rw [hG.enforced]
    refine hmark p (List.mem_take_iff_getElem.2 ?_)
    obtain ⟨hlen, hget⟩ := List.getElem?_eq_some_iff.1 hpi
    exact ⟨i, by omega, hget⟩

/-- The library once `hemem_init` is through. -/
def Library.ready : Library := ⟨true, false, 3, 4⟩

variable (persistence priority : Int64)

/-- `hemem_init`, a hint for DRAM and a mapping of one page: the states before and after that. -/
def hintAndMap : Option (State × State) := do
  let (_, s) ← (hememInit fourFrames (State.blank Kernel.fresh)).toOption
  let (_, s) ← (hook fourFrames .ready ⟨0, true⟩ sysMmap 0 0 0 0 (-420) 0 0 persistence priority
    s).toOption
  let (_, t) ← (hememMmap fourFrames hugepageSize 0 hugepageSize s).toOption
  return (s, t)

theorem hintAndMap_reach (P : State → State → Bool)
    (h : (hintAndMap persistence priority).any (fun st => P st.1 st.2) = true) :
    ∃ m r s x t, (hemem fourFrames Kernel.fresh).Reach (fun _ _ => True) m ∧
      hook fourFrames .ready ⟨0, true⟩ sysMmap 0 0 0 0 (-420) 0 0 persistence priority m.state =
        .ok (r, s) ∧ hememMmap fourFrames hugepageSize 0 hugepageSize s = .ok (x, t) ∧
          P s t = true := by
  obtain ⟨⟨s, t⟩, hst, hP⟩ := (Option.any_eq_true _ _).1 h
  simp only [hintAndMap, Option.bind_eq_bind, Option.bind_eq_some_iff, toOption_eq_some,
    Prod.exists, Option.pure_def, Option.some.injEq, Prod.mk.injEq] at hst
  obtain ⟨_, s₀, hinit, forwarded, result, s', hhook, x, t', hmap, rfl, rfl⟩ := hst
  obtain ⟨m, rfl, hm⟩ : ∃ m : Memory, m.state = s₀ ∧ m.written = fun _ => none := ⟨⟨s₀, _⟩, rfl, rfl⟩
  exact ⟨m, (forwarded, result), s', x, t', .init ⟨hinit, hm⟩, hhook, hmap, hP⟩

/-- A page is mapped after a hint for cold DRAM. -/
theorem hint_honoured_iff_cold : ∃ s t : State, s.userHintPriority = 0 ∧ ∀ i < 1, ∃ page,
    t.pages (hugepageSize + UInt64.ofNat i * hugepageSize) = some page ∧ t.Honours 0 0 page := by
  obtain ⟨m, r, s, x, t, hm, hh, hmap, hP⟩ := hintAndMap_reach 0 0 (fun s _ =>
    s.userHintPriority = 0 && s.Suits 0 0 1 && 1 ≤ (s.fifo.list .dramFree).numentries)
    (by decide +kernel)
  simp only [Bool.and_eq_true, decide_eq_true_eq] at hP
  have hcount : pageCount (pageRoundUp hugepageSize) = 1 := by decide
  obtain ⟨m', rfl⟩ : ∃ m' : Memory, m'.state = s := ⟨⟨s, fun _ => none⟩, rfl⟩
  refine ⟨m'.state, t, hP.1.1, ?_⟩
  have hiff := hint_honoured_iff hm (by decide) hh (.init rfl) hmap (by decide)
    (hcount.trans_le hP.2)
  rw [hcount] at hiff
  exact hiff.2 hP.1.2

/-- The page mapped after a persistent hint for DRAM bears no mark. -/
theorem hint_dropped : ∃ m r s x t,
    (hemem fourFrames Kernel.fresh).Reach (fun _ _ => True) m ∧
      hook fourFrames .ready ⟨0, true⟩ sysMmap 0 0 0 0 (-420) 0 0 1 0 m.state = .ok (r, s) ∧
        2 = (s.fifo.list .dramFree).numentries ∧
          hememMmap fourFrames hugepageSize 0 hugepageSize s = .ok (x, t) ∧
            ∃ page, t.pages hugepageSize = some page ∧ (t.page page).enforced = false := by
  obtain ⟨m, r, s, x, t, hm, hh, hmap, hP⟩ := hintAndMap_reach 1 0 (fun s t =>
    2 = (s.fifo.list .dramFree).numentries &&
      (t.pages hugepageSize).any fun page => !(t.page page).enforced) (by decide +kernel)
  simp only [Bool.and_eq_true, decide_eq_true_eq] at hP
  obtain ⟨page, hp, he⟩ := (Option.any_eq_true _ _).1 hP.2
  exact ⟨m, r, s, x, t, hm, hh, hP.1, hmap, page, hp, by simpa using he⟩

end Hints

end HeMem

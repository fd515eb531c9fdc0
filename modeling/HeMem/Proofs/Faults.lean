import HeMem.Faults
import HeMem.Proofs.Application

/-!
# Messages for pages that are not tracked

As long as each message is for a page that is not tracked and each new region lies where nothing is
mapped, tracked pages are mapped at their boundaries, so no region of pages that are to be tracked
meets one that is, and `add_page` finds none.  The pages that are mapped stay as they are.
-/

namespace HeMem

open Hoare Function

variable {cfg : Config} {A : Allow} {kernel : Kernel} {s t : State} {v w : View} {p : PageId}
  {a b x length offset : UInt64} {i : ℕ}

section Heads

/-- Each tracked page is mapped at its boundary. -/
def View.Headed (v : View) : Prop :=
  ∀ b p, v.pages b = some p → b ≠ 0 → v.kernel.mapping b ≠ none

theorem View.Headed.move (h : v.Headed) (hF : Framed cfg v) (hm : Move A v w) : w.Headed := by
  intro c q hq hc
  rcases hm.exchanges with ⟨up, p, np, he, rfl⟩ | hst
  · rw [exchange_mapping (hF.pt p)]
    split
    · simp
    · exact h c q hq hc
  · rw [hst.kernel]
    exact h c q (hst.pages ▸ hq) hc

/-- Between operations, in runs without hints. -/
structure Handling (cfg : Config) (s : State) : Prop where
  good : s.Good
  tier : s.userHintTier ≠ 0
  backed : Backed cfg Allow.tiered (fun _ => none) s.view
  headed : s.view.Headed

theorem Handling.aligned (h : Handling cfg s) (hp : s.pages b = some p) :
    b % hugepageSize = 0 := h.backed.tracked.va b p hp ▸ h.backed.inv.align p

theorem and_hugePfnMask_self (ha : a % hugepageSize = 0) : a &&& hugePfnMask = a := by
  rw [and_hugePfnMask_eq_iff ha, UInt64.sub_self]
  decide

end Heads

section Populate

/-- What populating the page at `a` does. -/
structure Placed (cfg : Config) (s : State) (a : UInt64) (t : State) : Prop where
  handling : Handling cfg t
  nonzero : a ≠ 0
  aligned : a % hugepageSize = 0
  untracked : s.pages a = none
  taken : ∃ p, s.freePages = p :: t.freePages ∧ t.pages = update s.pages a (some p)
  frame : ∀ q, (t.page q).frame = (s.page q).frame
  mapping : ∀ x, x &&& hugePfnMask ≠ a → t.kernel.mapping x = s.kernel.mapping x

theorem Handling.populate (h : Handling cfg s) : Sat (populatePage cfg a)
    (fun r t => r = hugepageSize ∧ Placed cfg s a t)
    (fun e => e = .addPage → s.pages a ≠ none) s := by
  refine (populatePage_takes h.good h.tier).post
    fun r t ⟨hg, ht, p, dram, hfree, hf, ha, hal, hn, hr, hv⟩ => ?_
  have hpt : (s.view.page p).pt = .hugep := h.backed.framed.pt p
  have hpages : t.pages = update s.pages a (some p) := by
    have hpages : t.pages = t.view.pages := rfl
    rw [hpages, hv]
    rfl
  have hmapping : ∀ x, t.kernel.mapping x = if x &&& hugePfnMask = a then
      some ((s.page p).pte (x - a)) else s.kernel.mapping x := fun x => by
    have hk : t.kernel = t.view.kernel := rfl
    rw [hk, hv]
    simp only [View.populate, View.alloc, View.edit, View.put, Kernel.mmapFixed, update_self, hpt,
      ptToPagesize, and_hugePfnMask_eq_iff hal]
    rfl
  refine ⟨hr.trans (congrArg ptToPagesize hpt), ⟨hg, ht, ?_, fun c q hq hc => ?_⟩, ha, hal, hn,
    ⟨p, hfree, hpages⟩, fun q => ?_, fun x hx => ?_⟩
  · rw [hv]
    exact h.backed.populate hf hn ha hal fun x b _ hb => by cases hb
  · have hq : t.pages c = some q := hq
    change t.kernel.mapping c ≠ none
    rw [hmapping]
    split
    · simp
    · rename_i hne
      rw [hpages, update_of_ne] at hq
      · exact h.headed c q hq hc
      · rintro rfl
        exact hne (and_hugePfnMask_self hal)
  · have ht : t.page q = t.view.page q := rfl
    rw [ht, hv]
    rcases eq_or_ne q p with rfl | hqp
    · simp only [View.populate, View.alloc, View.edit, View.put, update_self]
      rfl
    · simp only [View.populate, View.alloc, View.edit, View.put, update_of_ne hqp]
      rfl
  · rw [hmapping, if_neg hx]

theorem Placed.keeps (h : Placed cfg s a t) (hx : s.pages (x &&& hugePfnMask) ≠ none) :
    s.KeepsFrame t (x &&& hugePfnMask) ∧ t.kernel.mapping x = s.kernel.mapping x := by
  have hne : x &&& hugePfnMask ≠ a := fun he => hx (he ▸ h.untracked)
  obtain ⟨p, -, hp⟩ := h.taken
  refine ⟨fun q hq => ⟨?_, h.frame q⟩, h.mapping x hne⟩
  rw [hp, update_of_ne hne]
  exact hq

theorem Handling.message (h : Handling cfg s) : Sat (handleFault cfg a)
    (fun _ t => Placed cfg s (faultBoundry a) t)
    (fun e => e = .addPage → s.pages (faultBoundry a) ≠ none) s := by
  unfold handleFault handleMissingFault
  rw [sat_bind, sat_check]
  exact ⟨fun _ => h.populate.bind fun r t ht => ht.2, fun _ => nofun⟩

end Populate

section Mapping

/-- How far `hemem_mmap_populate` has come in a region from `a` on, at its `i`-th page. -/
structure Placing (cfg : Config) (s : State) (a length : UInt64) (i : ℕ) (b : UInt64)
    (t : State) : Prop where
  handling : Handling cfg t
  addr : b.toNat = a.toNat + i * 2 ^ 21
  inside : b.toNat ≤ a.toNat + length.toNat
  old : ∀ c p, s.pages c = some p → t.pages c = some p
  new : ∀ c, t.pages c ≠ none → s.pages c ≠ none ∨ ∃ j < i, c.toNat = a.toNat + j * 2 ^ 21
  frame : ∀ q, (t.page q).frame = (s.page q).frame
  mapping : ∀ x, s.pages (x &&& hugePfnMask) ≠ none → t.kernel.mapping x = s.kernel.mapping x

theorem Placing.next (h : Placing cfg s a length i b t) (hal : a % hugepageSize = 0)
    (hlen : length % hugepageSize = 0) (hroom : a.toNat + length.toNat ≤ taskSize)
    (hfree : ∀ x, x - a < length → s.pages x = none) (hb : b < a + length) :
    Sat (populatePage cfg b) (fun r t' => Placing cfg s a length (i + 1) (b + r) t')
      (fun e => e ≠ .addPage) t := by
  have hsize : hugepageSize.toNat = 2 ^ 21 := by decide
  have htask : taskSize = 2 ^ 56 := rfl
  have haddr := h.addr
  rw [aligned_iff] at hal hlen
  rw [UInt64.lt_iff_toNat_lt, UInt64.toNat_add, Nat.mod_eq_of_lt (by omega)] at hb
  have hin : b - a < length := by
    rw [UInt64.lt_iff_toNat_lt, UInt64.toNat_sub]
    omega
  have hnone : t.pages b = none := by
    by_contra hp
    rcases h.new b hp with hs | ⟨j, hj, he⟩
    · exact hs (hfree b hin)
    · omega
  refine h.handling.populate.mono (fun r t' ⟨hr, ht⟩ => ?_) fun e he hadd => he hadd hnone
  have hnext : (b + r).toNat = b.toNat + 2 ^ 21 := by
    rw [hr, UInt64.toNat_add, hsize, Nat.mod_eq_of_lt (by omega)]
  obtain ⟨p, -, hpages⟩ := ht.taken
  refine ⟨ht.handling, by omega, by omega, fun c q hq => ?_, fun c hc => ?_,
    fun q => (ht.frame q).trans (h.frame q), fun x hx => ?_⟩
  · rw [hpages, update_of_ne]
    · exact h.old c q hq
    · rintro rfl
      rw [hfree _ hin] at hq
      cases hq
  · rw [hpages, update_apply] at hc
    split at hc
    · rename_i he
      exact .inr ⟨i, Nat.lt_succ_self i, he ▸ haddr⟩
    · rcases h.new c hc with hs | ⟨j, hj, he⟩
      · exact .inl hs
      · exact .inr ⟨j, Nat.lt_succ_of_lt hj, he⟩
  · rw [ht.mapping x, h.mapping x hx]
    intro he
    exact hx (he ▸ hfree b hin)

/-- The rest of `hemem_mmap` on a region at a page boundary, once it is mapped as a whole. -/
theorem Handling.populateRegion (h : Handling cfg s) (hal : a % hugepageSize = 0)
    (hlen : length % hugepageSize = 0) (hroom : a.toNat + length.toNat ≤ taskSize)
    (hfree : ∀ x, x - a < length → s.pages x = none) : Sat (hememMmapPopulate cfg a length)
      (fun _ t => ∃ i b, Placing cfg s a length i b t) (fun e => e ≠ .addPage) s := by
  refine hememMmapPopulate_sat (I := fun b t => ∃ i, Placing cfg s a length i b t) ?_
    (fun b t ⟨i, ht⟩ hb => (ht.next hal hlen hroom hfree hb).post fun r t' ht' => ⟨i + 1, ht'⟩)
    (fun b t ⟨i, ht⟩ _ => ⟨i, b, ht⟩) ⟨0, ?_⟩
  · rintro e (rfl | rfl | rfl) <;> nofun
  · exact ⟨h, by simp, by simp, fun _ _ => id, fun _ => .inl, fun _ => rfl, fun _ _ => rfl⟩

/-- A region off the page boundaries is not populated at all. -/
theorem populate_unaligned (hg : s.Good) (ht : s.userHintTier ≠ 0) (hal : ¬ a % hugepageSize = 0)
    (hlt : a < a + length) (hn : s.pages a = none) : Sat (hememMmapPopulate cfg a length)
      (fun _ _ => False) (fun e => e ≠ .addPage) s := by
  refine hememMmapPopulate_sat (I := fun b t => b = a ∧ t = s) ?_ ?_ ?_ ⟨rfl, rfl⟩
  · rintro e (rfl | rfl | rfl) <;> nofun
  · rintro b t ⟨rfl, rfl⟩ -
    exact (populatePage_takes hg ht).mono
      (fun r t' ⟨_, _, p, dram, _, _, _, hal', _⟩ => absurd hal' hal) fun e he hadd => he hadd hn
  · rintro b t ⟨rfl, rfl⟩ hb
    exact hb hlt

theorem populate_empty {Q : Unit → State → Prop} :
    Sat (hememMmapPopulate cfg a 0) Q (fun e => e ≠ .addPage) s := by
  unfold hememMmapPopulate
  rw [sat_bind, sat_check]
  refine ⟨fun _ => ?_, fun _ => nofun⟩
  rw [sat_bind, sat_check]
  exact ⟨fun h => absurd rfl h, fun _ => nofun⟩

/-- Where nothing is mapped no page is tracked. -/
theorem Handling.free (h : Handling cfg s) (ha : a ≠ 0)
    (hroom : a.toNat + length.toNat ≤ taskSize)
    (hn : ∀ x, x - a < length → s.kernel.mapping x = none) (hx : x - a < length) :
    s.pages x = none := by
  rcases hp : s.pages x with _ | p
  · rfl
  · refine absurd (hn x hx) (h.headed x p hp ?_)
    rintro rfl
    have htask : taskSize = 2 ^ 56 := rfl
    have hlt := a.toNat_lt
    rw [ne_eq, ← UInt64.toNat_inj] at ha
    rw [UInt64.lt_iff_toNat_lt, UInt64.toNat_sub] at hx
    rw [UInt64.toNat_zero] at ha hx
    omega

/-- An address of a tracked page lies in no new region of whole pages. -/
theorem outside (hal : a % hugepageSize = 0) (hlen : length % hugepageSize = 0)
    (hfree : ∀ x, x - a < length → s.pages x = none) (hx : s.pages (x &&& hugePfnMask) ≠ none) :
    ¬ x - a < length := by
  intro hlt
  refine hx (hfree _ ?_)
  have hxl := x.toNat_lt
  have hal' := a.toNat_lt
  rw [aligned_iff] at hal hlen
  rw [UInt64.lt_iff_toNat_lt, UInt64.toNat_sub] at hlt ⊢
  rw [toNat_and_hugePfnMask]
  omega

theorem Handling.setKernel {k : Kernel} (h : Handling cfg s)
    (hk : ∀ x, s.pages (x &&& hugePfnMask) ≠ none → k.mapping x = s.kernel.mapping x)
    (hb : k.bytes = s.kernel.bytes) : Handling cfg { s with kernel := k } := by
  refine ⟨h.good.setKernel k, h.tier, ?_, fun c q hq hc => ?_⟩
  · rw [State.view_setKernel]
    refine h.backed.setKernel (fun x q e hq _ he => ?_) hb
    have hq : s.pages (x &&& hugePfnMask) = some q := hq
    rwa [hk x (by simp [hq])] at he
  · have hq : s.pages c = some q := hq
    change k.mapping c ≠ none
    rw [hk c (by rw [and_hugePfnMask_self (h.aligned hq), hq]; nofun)]
    exact h.headed c q hq hc

theorem Handling.setMmaped (h : Handling cfg s) (x : UInt64) :
    Handling cfg { s with memMmaped := x } := by
  refine ⟨h.good.setMmaped x, h.tier, ?_, ?_⟩ <;> rw [State.view_setMmaped]
  · exact h.backed
  · exact h.headed

theorem Handling.mmap (h : Handling cfg s)
    (hroom : a.toNat + (pageRoundUp length).toNat ≤ taskSize)
    (hn : ∀ x, x - a < pageRoundUp length → s.kernel.mapping x = none) :
    Sat (hememMmap cfg length offset a) (fun _ t => Handling cfg t ∧
      ∀ x, s.pages (x &&& hugePfnMask) ≠ none →
        s.KeepsFrame t (x &&& hugePfnMask) ∧ t.kernel.mapping x = s.kernel.mapping x)
      (fun e => e ≠ .addPage) s := by
  unfold hememMmap
  rw [sat_bind, sat_check]
  refine ⟨fun _ => ?_, fun _ => nofun⟩
  dsimp only
  rw [sat_bind, sat_check]
  refine ⟨fun hp => ?_, fun _ => nofun⟩
  rw [onKernel, sat_bind, sat_modify]
  have hfree : ∀ x, x - a < pageRoundUp length → s.pages x = none :=
    fun x hx => h.free hp.1 hroom hn hx
  have hlen := pageRoundUp_aligned length
  generalize pageRoundUp length = rounded at hroom hn hfree hlen ⊢
  have hk : a % hugepageSize = 0 → ∀ x, s.pages (x &&& hugePfnMask) ≠ none →
      (s.kernel.mmapFixed a rounded .dram (offset + cfg.dramoffset)).mapping x =
        s.kernel.mapping x := fun hal x hx => by
    rw [Kernel.mmapFixed]
    exact if_neg (outside hal hlen hfree hx)
  have hb : (s.kernel.mmapFixed a rounded .dram (offset + cfg.dramoffset)).bytes =
      s.kernel.bytes := by rw [Kernel.mmapFixed]
  generalize s.kernel.mmapFixed a rounded .dram (offset + cfg.dramoffset) = k at hk hb ⊢
  by_cases hal : a % hugepageSize = 0
  · have hk := hk hal
    rw [sat_bind]
    refine ((h.setKernel hk hb).populateRegion hal hlen hroom hfree).post fun _ t ht => ?_
    obtain ⟨i, b, ht⟩ := ht
    rw [sat_bind, sat_modify, sat_pure]
    refine ⟨ht.handling.setMmaped rounded, fun x hx => ⟨fun p hp => ?_, ?_⟩⟩
    · exact ⟨ht.old _ p hp, ht.frame p⟩
    · exact (ht.mapping x hx).trans (hk x hx)
  · have hlt : 0 < rounded.toNat → a < a + rounded := fun h0 => by
      have htask : taskSize = 2 ^ 56 := rfl
      rw [UInt64.lt_iff_toNat_lt, UInt64.toNat_add, Nat.mod_eq_of_lt (by omega)]
      omega
    rcases Nat.eq_zero_or_pos rounded.toNat with h0 | h0
    · obtain rfl : rounded = 0 := UInt64.toNat_inj.1 h0
      rw [sat_bind]
      exact populate_empty
    · rw [sat_bind]
      refine (populate_unaligned (h.good.setKernel k) h.tier hal (hlt h0) (hfree a ?_)).post
        fun _ _ => False.elim
      rwa [UInt64.sub_self, UInt64.lt_iff_toNat_lt]

end Mapping

section Unmapping

/-- How far `hemem_munmap` has come in a region from `a` on. -/
structure Clearing (cfg : Config) (s : State) (a length b : UInt64) (t : State) : Prop where
  handling : Handling cfg t
  kernel : t.kernel = s.kernel
  frame : ∀ q, (t.page q).frame = (s.page q).frame
  old : ∀ c p, t.pages c = some p → s.pages c = some p
  behind : a % basepageSize = 0 → a.toNat + length.toNat ≤ taskSize → Clear t.pages a b

theorem Clearing.page (h : Clearing cfg s a length b t) (hb : b < a + length)
    (hp : t.pages b = some p) : Sat (munmapPage p)
      (fun r => Clearing cfg s a length (b + r)) (fun e => e ≠ .addPage) t := by
  have hh := h.handling
  refine ((munmapPage_spec.at hh.good rfl).and (frames_munmapPage t)).mono
    (fun r t' ⟨⟨hg, hr, hv⟩, ht⟩ => ?_) fun e he => he ▸ nofun
  have hpages := release_pages hh.backed.tracked hp hv
  have hk : t'.view.kernel = t.view.kernel := by
    rw [hv]
    rfl
  have hsub : ∀ c q, t'.pages c = some q → t.pages c = some q := fun c q hq => by
    rw [hpages] at hq
    split at hq
    · cases hq
    · exact hq
  refine ⟨⟨hg, ht ▸ hh.tier, ?_, fun c q hq hc => ?_⟩, Eq.trans hk h.kernel, fun q => ?_,
    fun c q hq => h.old c q (hsub c q hq), fun ha hroom => ?_⟩
  · rw [hv]
    exact hh.backed.release trivial hp
  · rw [hk]
    exact hh.headed c q (hsub c q hq) hc
  · rw [← h.frame q]
    have hq : t'.page q = t'.view.page q := rfl
    rw [hq, hv]
    rcases eq_or_ne q p with rfl | hqp
    · simp only [View.release, View.remove, View.edit, update_self]
      rfl
    · simp only [View.release, View.remove, View.edit, update_of_ne hqp]
      rfl
  · have hr : r = hugepageSize := by
      rw [hr, hh.backed.framed.pt p]
      rfl
    rw [hr]
    refine (h.behind ha hroom).page hpages (hh.aligned hp) ?_
    have htask : taskSize = 2 ^ 56 := rfl
    rw [UInt64.lt_iff_toNat_lt, UInt64.toNat_add, Nat.mod_eq_of_lt (by omega)] at hb
    omega

theorem Clearing.hole (h : Clearing cfg s a length b t) (hb : b < a + length)
    (hp : t.pages b = none) : Clearing cfg s a length (b + basepageSize) t := by
  refine ⟨h.handling, h.kernel, h.frame, h.old, fun ha hroom => (h.behind ha hroom).hole hp ?_⟩
  have htask : taskSize = 2 ^ 56 := rfl
  rw [UInt64.lt_iff_toNat_lt, UInt64.toNat_add, Nat.mod_eq_of_lt (by omega)] at hb
  omega

theorem Handling.munmap {unmaps : Bool} (h : Handling cfg s) (hl : unmaps = true →
    a % basepageSize = 0 ∧ a.toNat + length.toNat ≤ taskSize) :
    Sat (hememMunmap a length unmaps) (fun _ t => Handling cfg t ∧
      ∀ x, t.pages (x &&& hugePfnMask) ≠ none → t.KeepsFrame s (x &&& hugePfnMask) ∧
        (¬ x - a < length → t.kernel.mapping x = s.kernel.mapping x))
      (fun e => e ≠ .addPage) s := by
  unfold hememMunmap
  have hstart : Clearing cfg s a length a s := by
    refine ⟨h, rfl, fun _ => rfl, fun _ _ => id, fun ha _ => Clear.refl ?_⟩
    have hsize : basepageSize.toNat = 2 ^ 12 := by decide
    have hmod := congrArg UInt64.toNat ha
    rwa [UInt64.toNat_mod, hsize, UInt64.toNat_zero] at hmod
  refine (munmapLoop_sat (I := Clearing cfg s a length)
    (J := fun t => ∃ b, ¬ b < a + length ∧ Clearing cfg s a length b t) nofun
    (fun b t p ht hb hp => ht.page hb hp) (fun b t ht hb hp => ht.hole hb hp)
    (fun b t ht hb => ⟨b, hb, ht⟩) hstart).bind fun _ t ⟨b, hb, ht⟩ => ?_
  have hkeeps : ∀ x, t.KeepsFrame s (x &&& hugePfnMask) :=
    fun x q hq => ⟨ht.old _ q hq, (ht.frame q).symm⟩
  rw [sat_ite]
  refine ⟨fun hu => ?_, fun _ => ⟨ht.handling, fun x _ => ⟨hkeeps x, fun _ => by rw [ht.kernel]⟩⟩⟩
  obtain ⟨ha, hroom⟩ := hl hu
  obtain ⟨-, hab, hclear⟩ := ht.behind ha hroom
  have hout : ∀ c q, t.pages c = some q → ¬ c - a < length := fun c q hq hlt => by
    have htask : taskSize = 2 ^ 56 := rfl
    have hcl := c.toNat_lt
    have hal := a.toNat_lt
    rw [UInt64.lt_iff_toNat_lt, UInt64.toNat_sub] at hlt
    rw [UInt64.lt_iff_toNat_lt, UInt64.toNat_add, Nat.mod_eq_of_lt (by omega)] at hb
    rw [hclear c (ht.handling.aligned hq)] at hq
    · cases hq
    · rw [UInt64.le_iff_toNat_le]
      omega
    · rw [UInt64.lt_iff_toNat_lt]
      omega
  rw [onKernel, sat_modify]
  have hmap := @munmap_mapping a length t.kernel
  have hbytes : (t.kernel.munmap a length).bytes = t.kernel.bytes := by rw [Kernel.munmap]
  generalize t.kernel.munmap a length = k at hmap hbytes ⊢
  refine ⟨⟨ht.handling.good.setKernel k, ht.handling.tier, ?_, fun c q hq hc => ?_⟩,
    fun x _ => ⟨hkeeps x, fun hx => ?_⟩⟩
  · rw [State.view_setKernel]
    refine ht.handling.backed.setKernel (fun x q e _ _ he => ?_) hbytes
    rw [hmap] at he
    split at he
    · cases he
    · exact he
  · change k.mapping c ≠ none
    rw [hmap, if_neg (hout c q hq)]
    exact ht.handling.headed c q hq hc
  · change k.mapping x = _
    rw [hmap, if_neg hx, ht.kernel]

end Unmapping

section Runs

theorem handling_initial (hs : hememInit cfg (State.blank kernel) = .ok ((), s)) :
    Handling cfg s := by
  obtain ⟨hg, hb⟩ := backed_initial hs
  obtain ⟨-, hv⟩ := hememInit_sat.ok hs
  have htier : Frames State.userHintTier (hememInit cfg) := by
    unfold hememInit addPage
    refine quiet_tier.pebsInit.bind fun _ => frames_getPage.bind fun _ =>
      frames_get.bind fun _ => frames_check.bind fun _ => frames_modify fun _ => rfl
  refine ⟨hg, ?_, hb, fun c q hq hc => ?_⟩
  · rw [(htier _).ok hs]
    exact (by decide : (-1 : ℤ) ≠ 0)
  · rw [hv] at hq
    change update (fun _ => none) 0 (some (dummyPage cfg)) c = some q at hq
    rw [update_of_ne hc] at hq
    cases hq

theorem Handling.pass (h : Handling cfg s) : Sat (pebsPolicyPass cfg)
    (fun _ t => Handling cfg t) (fun e => e ≠ .addPage) s := by
  have hpass : Sat (pebsPolicyPass cfg) _ _ s := pebsPolicyPass_sat (A := Allow.tiered) h.good
    (.inr (h.backed.inv.passMeetsNone id trivial h.good)) (.inl trivial)
  refine (hpass.and (quiet_tier.calm.pebsPolicyPass s)).mono (fun _ t ⟨⟨hg, hm, _⟩, ht⟩ => ?_)
    fun e ⟨v, _, hf⟩ => hf.ne_addPage
  obtain ⟨hb, hh⟩ := hm.invariant
    (I := fun v => Backed cfg Allow.tiered (fun _ => none) v ∧ v.Headed) ⟨h.backed, h.headed⟩
    fun v w hv hm => ⟨hv.1.move id hm, hv.2.move hv.1.framed hm⟩
  exact ⟨hg, ht ▸ h.tier, hb, hh⟩

theorem Handling.sample {j : PbufType} (h : Handling cfg s) : Sat (pebsScanSample a j)
    (fun _ t => Handling cfg t) (fun e => e ≠ .addPage) s := by
  have htier : Frames State.userHintTier (pebsScanSample a j) := by
    unfold pebsScanSample findPage
    refine frames_ite (Frames.bind (frames_get.bind fun _ => frames_pure) fun r => ?_) frames_pure
    rcases r with _ | p
    · exact frames_pure
    · exact quiet_tier.samplePage
  refine ((pebsScanSample_spec.at h.good rfl).and (htier s)).mono
    (fun _ t ⟨⟨hg, hv⟩, ht⟩ => ?_) fun _ => False.elim
  rcases hv with hv | ⟨p, hp, hs⟩
  · exact ⟨hg, ht ▸ h.tier, hv ▸ h.backed, hv ▸ h.headed⟩
  · refine ⟨hg, ht ▸ h.tier, h.backed.sampled hp hs, ?_⟩
    rcases hs with hv | ⟨-, hot, l, c, r, i, j, -, hv⟩ <;> rw [hv] <;> exact h.headed

theorem Handling.run {op : FaultOp} (h : Handling cfg s) (hl : op.Legal) (hf : op.Fresh s) :
    Sat (op.run cfg) (fun _ t => Handling cfg t ∧ op.Keeps s t) (fun e => e ≠ .addPage) s := by
  cases op with
  | message faultAddr =>
    exact h.message.mono (fun _ t ht => ⟨ht.handling, ht.taken, fun x hx => ht.keeps hx⟩)
      fun e he hadd => he hadd hf
  | mmap length offset p =>
    exact (h.mmap hl hf).bind fun _ t ht => sat_pure.2 ht
  | munmap addr length unmaps => exact h.munmap hl
  | sample addr j => exact h.sample.post fun _ t ht => ⟨ht, trivial⟩
  | pass => exact h.pass.post fun _ t ht => ⟨ht, trivial⟩

/-- As long as each message is for a page that is not tracked and new regions lie where nothing is
mapped, each page is allocated for an address of its own, `add_page` finds no page tracked, and the
pages that are mapped keep their frames.  A message for a page that is tracked is not served. -/
theorem faults_fresh (h : (faults cfg kernel).Reach (fun s op => op.Legal ∧ op.Fresh s) s) :
    (∀ p q, p < cfg.pages → q < cfg.pages → (s.page p).present = true →
      (s.page q).present = true → (s.page p).va = (s.page q).va → p = q) ∧
    (∀ op : FaultOp, op.Legal → op.Fresh s → op.run cfg s ≠ .error .addPage ∧
      ∀ t, op.run cfg s = .ok ((), t) → op.Keeps s t) ∧
    ∀ faultAddr, s.pages (faultBoundry faultAddr) ≠ none →
      ∀ t, FaultOp.run cfg (.message faultAddr) s ≠ .ok ((), t) := by
  have hh : Handling cfg s := h.invariant (fun s hs => handling_initial hs)
    fun s op t hs hc hst => ((hs.run hc.1 hc.2).ok hst).1
  refine ⟨fun p q hp hq hpp hqp hva => ?_, fun op hl hf => ⟨fun he => ?_, fun t ht => ?_⟩,
    fun faultAddr hn t ht => ?_⟩
  · have hfound := hh.backed.tracked.found p hp hpp
    have hva : (s.view.page p).va = (s.view.page q).va := hva
    rw [hva, hh.backed.tracked.found q hq hqp] at hfound
    exact (Option.some.inj hfound).symm
  · exact (hh.run hl hf).error he rfl
  · exact ((hh.run hl hf).ok ht).2
  · exact hn (hh.message.ok ht).untracked

variable (cfg kernel) in
/-- What operations that meet a condition lead to is reached. -/
theorem faults_reach {C : State → FaultOp → Prop} (D : State → FaultOp → Prop)
    [∀ s, DecidablePred (D s)] (hC : ∀ s op, D s op → C s op) (ops : List FaultOp)
    (P : State → Bool) (h : (((hememInit cfg (State.blank kernel)).toOption.map (·.2)).bind
      (System.drive (fun s op => op.next cfg s) D ops)).any P = true) :
    ∃ s, (faults cfg kernel).Reach C s ∧ P s = true := by
  refine System.drive_reach_of (S := faults cfg kernel) (fun s op => op.next cfg s) D
    (fun s op t ht => ?_) hC (fun s hs => ?_) ops P h
  · obtain ⟨r, hr, rfl⟩ := Option.map_eq_some_iff.1 ht
    exact toOption_eq_some.1 hr
  · obtain ⟨r, hr, rfl⟩ := Option.map_eq_some_iff.1 hs
    exact toOption_eq_some.1 hr

/-- Two pages are touched and unmapped, and one of them is touched again. -/
theorem faults_fresh_touched : ∃ s : State, s.pages hugepageSize ≠ none ∧
    ∀ op : FaultOp, op.Legal → op.Fresh s → op.run fourFrames s ≠ .error .addPage := by
  obtain ⟨s, hs, hP⟩ := faults_reach fourFrames Kernel.fresh
    (fun s op => (match op with
      | .message faultAddr => decide (s.pages (faultBoundry faultAddr) = none)
      | .munmap _ _ unmaps => !unmaps
      | _ => false) = true)
    (C := fun s op => op.Legal ∧ op.Fresh s)
    (fun s op hop => by cases op <;> simp_all [FaultOp.Legal, FaultOp.Fresh])
    [.message (hugepageSize + 5), .message (2 * hugepageSize),
      .munmap hugepageSize (2 * hugepageSize) false, .message hugepageSize]
    (fun s => decide (s.pages hugepageSize ≠ none)) (by decide +kernel)
  exact ⟨s, of_decide_eq_true hP, fun op hl hf => ((faults_fresh hs).2.1 op hl hf).1⟩

/-- Two threads touch a page at once: the second message meets the page tracked. -/
theorem second_message_aborts : ∃ s : State,
    (faults fourFrames Kernel.fresh).Reach (fun _ op => op.Legal) s ∧
    FaultOp.run fourFrames (.message (hugepageSize + 8)) s = .error .addPage := by
  obtain ⟨s, hs, hP⟩ := faults_reach fourFrames Kernel.fresh
    (fun _ op => op = .message hugepageSize) (C := fun _ op => op.Legal)
    (fun s op hop => by subst hop; trivial) [.message hugepageSize]
    (fun s => match FaultOp.run fourFrames (.message (hugepageSize + 8)) s with
      | .error e => decide (e = .addPage)
      | .ok _ => false) (by decide +kernel)
  refine ⟨s, hs, ?_⟩
  split at hP
  · rename_i e he
    rw [he, of_decide_eq_true hP]
  · cases hP

end Runs

end HeMem

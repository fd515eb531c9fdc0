import HeMem.Proofs.Memory
import HeMem.Proofs.Taken

/-!
# What the application reads

Runs of the whole program without hints for DRAM.  A call that populates pages takes the next free
pages; a frame among them holds whatever its last owner left there, since nothing clears it.  Every
other call keeps what the frames of tracked pages hold, and where a byte is mapped it is the byte
of the frame.
-/

namespace HeMem

open Hoare Function

variable {cfg : Config} {kernel : Kernel} {s t : State} {m : Memory} {v w : View} {p : PageId}
  {a x : UInt64} {want want' : UInt64 → Option UInt8} {length : UInt64}

section Calls

/-- Runs without hints, in which `hemem_munmap` may come to the dummy page. -/
def Allow.tiered : Allow := ⟨False, False, False, False, True, True⟩

/-- The pages of a region. -/
def pageCount (length : UInt64) : ℕ := (length.toNat + hugepageSize.toNat - 1) / hugepageSize.toNat

namespace Call

variable (cfg s)

/-- At most how many pages a call populates. -/
def populates : Call → ℕ
  | mmap length _ _ => pageCount (pageRoundUp length)
  | populate _ length => pageCount length
  | missingFault _ => 1
  | _ => 0

/-- No page is hinted for DRAM, the kernel gives a new region no address of a tracked page, and the
application writes to tracked pages. -/
def Tidy (c : Call) : Prop :=
  s.userHintTier ≠ 0 ∧ match c with
    | mmap length _ p => ∀ x, x - p < pageRoundUp length → s.pages (x &&& hugePfnMask) = none
    | write addr _ => ∃ p, s.pages (addr &&& hugePfnMask) = some p ∧ p < cfg.pages
    | _ => True

/-- Only whole pages are unmapped. -/
def Aligned : Call → Prop
  | munmap addr length _ => addr % hugepageSize = 0 ∧ length % hugepageSize = 0 ∧
      addr.toNat + length.toNat < 2 ^ 64
  | _ => True

/-- The frames the call would take hold zeros. -/
def Cleared (c : Call) : Prop :=
  ∀ i p, i < c.populates → s.freePages[i]? = some p →
    ∀ j < hugepageSize, s.kernel.byte ((s.page p).pte j) = 0

/-- What is wanted after the call. -/
def wants (want : UInt64 → Option UInt8) : Call → UInt64 → Option UInt8
  | write addr byte => fun a => if a = addr then some byte else want a
  | _ => want

end Call

/-- What the next `k` free pages hold is what is wanted of the addresses not tracked. -/
def FreeHold (want : UInt64 → Option UInt8) (k : ℕ) (s : State) : Prop :=
  ∀ i p, i < k → s.freePages[i]? = some p → ∀ x b, s.pages (x &&& hugePfnMask) = none →
    want x = some b → s.kernel.byte ((s.page p).pte (pageOffset x)) = b

theorem Backed.wants (h : Backed cfg A want v) (hw : ∀ x p b, v.pages (x &&& hugePfnMask) = some p →
    p < cfg.pages → want' x = some b → want x = some b) : Backed cfg A want' v :=
  ⟨h.inv, h.framed, h.tracked, h.mapped, fun x p b hp hn hb => h.held x p b hp hn (hw x p b hp hn hb)⟩

end Calls

section Steps

/-- How far `hemem_mmap_populate` has come in a region from `a` on, at its `i`-th page. -/
structure Populating (cfg : Config) (want : UInt64 → Option UInt8) (s : State) (a : UInt64)
    (i : ℕ) (b : UInt64) (t : State) : Prop where
  good : t.Good
  tier : t.userHintTier ≠ 0
  backed : Backed cfg Allow.tiered want t.view
  whole : s.view.Whole cfg.pages → t.view.Whole cfg.pages
  tracked : ∀ c, t.pages c = none → s.pages c = none
  free : t.freePages = s.freePages.drop i
  bytes : t.kernel.bytes = s.kernel.bytes
  pte : ∀ p, (t.page p).pte = (s.page p).pte
  addr : b = 0 ∨ b.toNat = a.toNat + i * hugepageSize.toNat

theorem Populating.index {i : ℕ} {b : UInt64} (h : Populating cfg want s a i b t)
    (hb : b < a + length) (hb0 : b ≠ 0) : i < pageCount length := by
  have haddr := h.addr.resolve_left hb0
  have hsize : hugepageSize.toNat = 2 ^ 21 := by decide
  have hlt := UInt64.lt_iff_toNat_lt.1 hb
  rw [UInt64.toNat_add] at hlt
  unfold pageCount
  rw [hsize] at haddr ⊢
  have := Nat.mod_le (a.toNat + length.toNat) (2 ^ 64)
  omega

theorem Populating.next {i k : ℕ} {b : UInt64} (h : Populating cfg want s a i b t)
    (hz : FreeHold want k s) (hi : b ≠ 0 → i < k) : Sat (populatePage cfg b)
      (fun r t' => Populating cfg want s a (i + 1) (b + r) t') (fun _ => True) t := by
  refine (populatePage_takes h.good h.tier).mono
    (fun r t' ⟨hg, ht, p, dram, hfree, hf, hb0, hal, hn, hr, hv⟩ => ?_) fun _ _ => trivial
  have hpt : (t.page p).pt = .hugep := h.backed.framed.pt p
  have haddr := h.addr.resolve_left hb0
  have hsize : hugepageSize.toNat = 2 ^ 21 := by decide
  have hdrop : s.freePages[i]? = some p := by
    rw [← List.head?_drop, ← h.free, hfree]
    rfl
  have hpte : ∀ q, (t'.page q).pte = (t.page q).pte := fun q => by
    have hq : t'.page q = t'.view.page q := rfl
    rw [hq, hv]
    rcases eq_or_ne q p with rfl | hqp
    · simp [View.populate, View.alloc, View.edit, View.put]
      rfl
    · simp [View.populate, View.alloc, View.edit, View.put, hqp]
      rfl
  have hpages : ∀ c, t'.pages c = if c = b then some p else t.pages c := fun c => by
    have hc : t'.pages c = t'.view.pages c := rfl
    rw [hc, hv]
    simp [View.populate, View.alloc, View.edit, View.put, update_apply]
    rfl
  refine ⟨hg, ht, ?_, fun hw => ?_, fun c hc => ?_, ?_, ?_, fun q => (hpte q).trans (h.pte q), ?_⟩
  · rw [hv]
    refine h.backed.populate hf hn hb0 hal fun x c hx hc => ?_
    have hnone : s.pages (x &&& hugePfnMask) = none := h.tracked _ (hx ▸ hn)
    rw [← hz i p (hi hb0) hdrop x c hnone hc]
    have hp : (t.view.page p).pte = (s.page p).pte := h.pte p
    have hk : t.view.kernel.bytes = s.kernel.bytes := h.bytes
    simp only [Kernel.byte, hp, hk]
  · rw [hv]
    refine View.Whole.populate ?_ ?_ hal
    · exact h.whole hw
    · simp [View.alloc]
      exact hpt
  · rw [hpages] at hc
    split at hc
    · cases hc
    · exact h.tracked c hc
  · rw [← List.drop_drop, ← h.free, hfree]
    rfl
  · rw [← h.bytes]
    exact congrArg (fun v => v.kernel.bytes) hv
  · rw [hr, hpt, ptToPagesize]
    have hmod : b.toNat % 2 ^ 21 = 0 := by
      have := congrArg UInt64.toNat hal
      rwa [UInt64.toNat_mod, hsize, UInt64.toNat_zero] at this
    have hlt := b.toNat_lt
    rw [← UInt64.toNat_inj, UInt64.toNat_add, hsize, UInt64.toNat_zero]
    rw [hsize] at haddr
    omega

/-- What a call keeps: what the frames of tracked pages hold, and that they are mapped. -/
def Keeps (cfg : Config) (want : UInt64 → Option UInt8) (P : Prop) (v : View) (t : State) : Prop :=
  t.Good ∧ Backed cfg Allow.tiered want t.view ∧
    (P → v.Whole cfg.pages → t.view.Whole cfg.pages)

theorem hememMmapPopulate_keeps (hg : s.Good) (ht : s.userHintTier ≠ 0)
    (h : Backed cfg Allow.tiered want s.view) (hz : FreeHold want (pageCount length) s) :
    Sat (hememMmapPopulate cfg a length) (fun _ t => Keeps cfg want True s.view t)
      (fun _ => True) s := by
  refine hememMmapPopulate_sat (fun _ _ => trivial) (I := fun b t => ∃ i, Populating cfg want s a i b t)
    (fun b t ⟨i, ht⟩ hb => (ht.next hz (ht.index hb)).post fun r t' ht' => ⟨i + 1, ht'⟩)
    (fun b t ⟨i, ht⟩ _ => ⟨ht.good, ht.backed, fun _ => ht.whole⟩) ⟨0, ?_⟩
  exact ⟨hg, ht, h, id, fun _ => id, rfl, rfl, fun _ => rfl, .inr (by simp)⟩

theorem handleMissingFault_keeps (hg : s.Good) (ht : s.userHintTier ≠ 0)
    (h : Backed cfg Allow.tiered want s.view) (hz : FreeHold want 1 s) :
    Sat (handleMissingFault cfg a) (fun _ t => Keeps cfg want True s.view t) (fun _ => True) s := by
  unfold handleMissingFault
  rw [sat_bind, sat_check]
  refine ⟨fun ha => ?_, fun _ => trivial⟩
  have hstart : Populating cfg want s a 0 a s :=
    ⟨hg, ht, h, id, fun _ => id, rfl, rfl, fun _ => rfl, .inr (by simp)⟩
  exact (hstart.next hz fun _ => Nat.one_pos).bind
    fun r t ht => ⟨ht.good, ht.backed, fun _ => ht.whole⟩

theorem FreeHold.setKernel {n : ℕ} {k : Kernel} (h : FreeHold want n s)
    (hb : k.bytes = s.kernel.bytes) : FreeHold want n { s with kernel := k } := by
  intro i p hi hp x b hx hw
  have hs := h i p hi hp x b hx hw
  simp only [Kernel.byte, hb] at hs ⊢
  exact hs

/-- The rest of `hemem_mmap`, once the region is mapped as a whole; tracked pages do not see that. -/
theorem populateRegion_keeps {k : Kernel} {rounded : UInt64} (hg : s.Good)
    (ht : s.userHintTier ≠ 0) (h : Backed cfg Allow.tiered want s.view)
    (hmap : ∀ x q, s.pages (x &&& hugePfnMask) = some q → k.mapping x = s.kernel.mapping x)
    (hb : k.bytes = s.kernel.bytes) (hz : FreeHold want (pageCount rounded) s) : Sat (do
      hememMmapPopulate cfg a rounded
      modify ({ · with memMmaped := rounded })
      return a) (fun _ t => Keeps cfg want True s.view t) (fun _ => True) { s with kernel := k } := by
  have h' : Backed cfg Allow.tiered want (State.view { s with kernel := k }) := by
    rw [State.view_setKernel]
    exact h.setKernel (fun x q e hq _ he => hmap x q hq ▸ he) hb
  refine (hememMmapPopulate_keeps (hg.setKernel k) ht h' (hz.setKernel hb)).bind
    fun _ t ⟨hg', h', hw⟩ => ?_
  rw [sat_bind, sat_modify, sat_pure, Keeps, State.view_setMmaped]
  refine ⟨hg'.setMmaped _, h', fun hP hwhole => hw hP fun x q hq hqn => ?_⟩
  rw [State.view_setKernel] at hq ⊢
  have hx := hwhole x q hq hqn
  have hk : k.mapping x = s.view.kernel.mapping x := hmap x q hq
  rwa [← hk] at hx

theorem hememMmap_keeps {offset : UInt64} (hg : s.Good) (ht : s.userHintTier ≠ 0)
    (h : Backed cfg Allow.tiered want s.view)
    (hp : ∀ x, x - a < pageRoundUp length → s.pages (x &&& hugePfnMask) = none)
    (hz : FreeHold want (pageCount (pageRoundUp length)) s) :
    Sat (hememMmap cfg length offset a) (fun _ t => Keeps cfg want True s.view t)
      (fun _ => True) s := by
  unfold hememMmap
  rw [sat_bind, sat_check]
  refine ⟨fun _ => ?_, fun _ => trivial⟩
  dsimp only
  rw [sat_bind, sat_check]
  refine ⟨fun _ => ?_, fun _ => trivial⟩
  rw [onKernel, sat_bind, sat_modify]
  refine populateRegion_keeps hg ht h (fun x q hq => ?_) ?_ hz
  · rw [Kernel.mmapFixed]
    dsimp only
    rw [if_neg]
    intro hx
    simp [hp x hx] at hq
  · rw [Kernel.mmapFixed]

/-- `b` is a boundary of base pages behind `a`, and no page is tracked between them. -/
def Clear (pages : UInt64 → Option PageId) (a b : UInt64) : Prop :=
  b.toNat % 2 ^ 12 = 0 ∧ a ≤ b ∧ ∀ c, c % hugepageSize = 0 → a ≤ c → c < b → pages c = none

theorem Clear.refl {pages : UInt64 → Option PageId} (ha : a.toNat % 2 ^ 12 = 0) :
    Clear pages a a := by
  refine ⟨ha, by rw [UInt64.le_iff_toNat_le], fun c _ hac hca => ?_⟩
  rw [UInt64.le_iff_toNat_le] at hac
  rw [UInt64.lt_iff_toNat_lt] at hca
  omega

/-- The page at `b` is passed, and tracked no longer. -/
theorem Clear.page {pages pages' : UInt64 → Option PageId} {b : UInt64} (h : Clear pages a b)
    (hp : ∀ c, pages' c = if c = b then none else pages c) (hal : b % hugepageSize = 0)
    (hb : b.toNat + 2 ^ 21 < 2 ^ 64) : Clear pages' a (b + hugepageSize) := by
  obtain ⟨h12, hab, hbehind⟩ := h
  have hsize : hugepageSize.toNat = 2 ^ 21 := by decide
  rw [aligned_iff] at hal
  rw [UInt64.le_iff_toNat_le] at hab
  have hnext : (b + hugepageSize).toNat = b.toNat + 2 ^ 21 := by
    rw [UInt64.toNat_add, hsize, Nat.mod_eq_of_lt hb]
  refine ⟨by omega, by rw [UInt64.le_iff_toNat_le]; omega, fun c hc hac hcb => ?_⟩
  rw [hp]
  split
  · rfl
  · rename_i hne
    refine hbehind c hc hac ?_
    rw [UInt64.lt_iff_toNat_lt, hnext] at hcb
    rw [← UInt64.toNat_inj] at hne
    rw [aligned_iff] at hc
    rw [UInt64.lt_iff_toNat_lt]
    omega

/-- No page is tracked at `b`, and the base page there is passed. -/
theorem Clear.hole {pages : UInt64 → Option PageId} {b : UInt64} (h : Clear pages a b)
    (hp : pages b = none) (hb : b.toNat + 2 ^ 12 < 2 ^ 64) :
    Clear pages a (b + basepageSize) := by
  obtain ⟨h12, hab, hbehind⟩ := h
  have hsize : basepageSize.toNat = 2 ^ 12 := by decide
  rw [UInt64.le_iff_toNat_le] at hab
  have hnext : (b + basepageSize).toNat = b.toNat + 2 ^ 12 := by
    rw [UInt64.toNat_add, hsize, Nat.mod_eq_of_lt hb]
  refine ⟨by omega, by rw [UInt64.le_iff_toNat_le]; omega, fun c hc hac hcb => ?_⟩
  rcases eq_or_ne c b with rfl | hne
  · exact hp
  · refine hbehind c hc hac ?_
    rw [UInt64.lt_iff_toNat_lt, hnext] at hcb
    rw [ne_eq, ← UInt64.toNat_inj] at hne
    rw [aligned_iff] at hc
    rw [UInt64.lt_iff_toNat_lt]
    omega

/-- How far `hemem_munmap` has come in a region from `a` on: what is behind is tracked no longer. -/
structure Unmapping (cfg : Config) (want : UInt64 → Option UInt8) (s : State) (a length b : UInt64)
    (t : State) : Prop where
  good : t.Good
  backed : Backed cfg Allow.tiered want t.view
  whole : s.view.Whole cfg.pages → t.view.Whole cfg.pages
  behind : a % hugepageSize = 0 → length % hugepageSize = 0 → a.toNat + length.toNat < 2 ^ 64 →
    b.toNat % 2 ^ 12 = 0 ∧ a ≤ b ∧ ∀ c, c % hugepageSize = 0 → a ≤ c → c < b → t.pages c = none

theorem release_pages {b : UInt64} (ht : Tracked cfg.pages s.view) (hp : s.pages b = some p)
    (hv : t.view = s.view.release p) (c : UInt64) :
    t.pages c = if c = b then none else s.pages c := by
  have hc : t.pages c = t.view.pages c := rfl
  have hva : (s.view.page p).va = b := ht.va b p hp
  rw [hc, hv, ← hva]
  simp only [View.release, View.remove, View.edit, update_apply]
  rfl

theorem Unmapping.page {b : UInt64} (h : Unmapping cfg want s a length b t) (hb : b < a + length)
    (hp : t.pages b = some p) : Sat (munmapPage p)
      (fun r => Unmapping cfg want s a length (b + r)) (fun _ => True) t := by
  refine (munmapPage_spec.at h.good rfl).mono (fun r t' ⟨hg, hr, hv⟩ => ?_) fun _ _ => trivial
  have hpages := release_pages h.backed.tracked hp hv
  refine ⟨hg, ?_, fun hw => ?_, fun ha hl hno => ?_⟩
  · rw [hv]
    exact h.backed.release trivial hp
  · intro x q hq hqn
    have hk : t'.view.kernel = t.view.kernel := by
      rw [hv]
      rfl
    have hq : t'.pages (x &&& hugePfnMask) = some q := hq
    rw [hpages] at hq
    split at hq
    · cases hq
    · rw [hk]
      exact h.whole hw x q hq hqn
  · have hr : r = hugepageSize := by
      rw [hr, h.backed.framed.pt p]
      rfl
    have hal : b % hugepageSize = 0 := h.backed.tracked.va b p hp ▸ h.backed.inv.align p
    rw [hr]
    refine Clear.page (h.behind ha hl hno) hpages hal ?_
    rw [aligned_iff] at ha hl hal
    rw [UInt64.lt_iff_toNat_lt, UInt64.toNat_add, Nat.mod_eq_of_lt hno] at hb
    omega

theorem Unmapping.hole {b : UInt64} (h : Unmapping cfg want s a length b t) (hb : b < a + length)
    (hp : t.pages b = none) : Unmapping cfg want s a length (b + basepageSize) t := by
  refine ⟨h.good, h.backed, h.whole, fun ha hl hno => ?_⟩
  obtain ⟨h12, hab, hbehind⟩ := h.behind ha hl hno
  refine Clear.hole ⟨h12, hab, hbehind⟩ hp ?_
  rw [aligned_iff] at ha hl
  rw [UInt64.lt_iff_toNat_lt, UInt64.toNat_add, Nat.mod_eq_of_lt hno] at hb
  omega

/-- Once the loop is through, no address of the region is one of a tracked page. -/
theorem Unmapping.outside {b : UInt64} (h : Unmapping cfg want s a length b t)
    (hb : ¬ b < a + length) (ha : a % hugepageSize = 0) (hl : length % hugepageSize = 0)
    (hno : a.toNat + length.toNat < 2 ^ 64) (hx : t.pages (x &&& hugePfnMask) ≠ none) :
    ¬ x - a < length := by
  intro hlt
  refine hx ((h.behind ha hl hno).2.2 _ (and_hugePfnMask_aligned x) ?_ ?_)
  all_goals
    have hxl := x.toNat_lt
    have hal := a.toNat_lt
    rw [aligned_iff] at ha
    rw [UInt64.lt_iff_toNat_lt, UInt64.toNat_sub] at hlt
    rw [UInt64.lt_iff_toNat_lt, UInt64.toNat_add, Nat.mod_eq_of_lt hno] at hb
  · rw [UInt64.le_iff_toNat_le, toNat_and_hugePfnMask]
    omega
  · rw [UInt64.lt_iff_toNat_lt, toNat_and_hugePfnMask]
    omega

theorem munmap_mapping {k : Kernel} (x : UInt64) :
    (k.munmap a length).mapping x = if x - a < length then none else k.mapping x := by
  rw [Kernel.munmap]

theorem Keeps.munmap {P : Prop} (h : Keeps cfg want P v t)
    (hx : P → ∀ x, t.pages (x &&& hugePfnMask) ≠ none → ¬ x - a < length) :
    Keeps cfg want P v { t with kernel := t.kernel.munmap a length } := by
  have hmap : ∀ x, (t.kernel.munmap a length).mapping x = _ := fun x => munmap_mapping x
  have hbytes : (t.kernel.munmap a length).bytes = t.kernel.bytes := by rw [Kernel.munmap]
  generalize t.kernel.munmap a length = k at hmap hbytes ⊢
  refine ⟨h.1.setKernel k, ?_, fun hP hw x q hq hqn => ?_⟩ <;> rw [State.view_setKernel]
  · refine h.2.1.setKernel (fun x q e hq hqn he => ?_) hbytes
    rw [hmap] at he
    split at he
    · cases he
    · exact he
  · rw [State.view_setKernel] at hq
    have hq : t.pages (x &&& hugePfnMask) = some q := hq
    change k.mapping x ≠ none
    rw [hmap, if_neg (hx hP x (by simp [hq]))]
    exact h.2.2 hP hw x q hq hqn

theorem hememMunmap_keeps {unmaps : Bool} (hg : s.Good)
    (h : Backed cfg Allow.tiered want s.view) : Sat (hememMunmap a length unmaps)
      (fun _ t => Keeps cfg want (a % hugepageSize = 0 ∧ length % hugepageSize = 0 ∧
        a.toNat + length.toNat < 2 ^ 64) s.view t) (fun _ => True) s := by
  unfold hememMunmap
  refine (munmapLoop_sat trivial (I := Unmapping cfg want s a length)
    (J := fun t => ∃ b, ¬ b < a + length ∧ Unmapping cfg want s a length b t)
    (fun b t p ht hb hp => ht.page hb hp) (fun b t ht hb hp => ht.hole hb hp)
    (fun b t ht hb => ⟨b, hb, ht⟩) ⟨hg, h, id, fun ha hl hno => ?_⟩).bind fun _ t ⟨b, hb, ht⟩ => ?_
  · rw [aligned_iff] at ha
    exact Clear.refl (by omega)
  · have hkeep : Keeps cfg want (a % hugepageSize = 0 ∧ length % hugepageSize = 0 ∧
        a.toNat + length.toNat < 2 ^ 64) s.view t := ⟨ht.good, ht.backed, fun _ => ht.whole⟩
    rw [sat_ite]
    refine ⟨fun _ => ?_, fun _ => hkeep⟩
    rw [onKernel, sat_modify]
    exact hkeep.munmap fun hP x hx => ht.outside hb hP.1 hP.2.1 hP.2.2 hx

theorem appWrite_keeps {b : UInt8} (hg : s.Good) (h : Backed cfg Allow.tiered want s.view)
    (hp : s.pages (a &&& hugePfnMask) = some p) (hn : p < cfg.pages) : Sat (appWrite a b)
      (fun _ t => Keeps cfg (fun x => if x = a then some b else want x) True s.view t)
      (fun _ => True) s := by
  unfold appWrite
  rw [sat_bind, sat_get]
  rcases hm : s.kernel.mapping a with _ | e
  · trivial
  obtain rfl : e = (s.page p).pte (pageOffset a) := h.mapped a p e hp hn hm
  dsimp only
  rw [sat_bind, sat_check]
  refine ⟨fun _ => ?_, fun _ => trivial⟩
  have hb := h.store (b := b) hp hn
  rw [onKernel, sat_modify]
  refine ⟨hg.setKernel _, hb, fun _ hw => hw⟩

theorem pebsScanSample_keeps {j : PbufType} (hg : s.Good)
    (h : Backed cfg Allow.tiered want s.view) : Sat (pebsScanSample a j)
      (fun _ t => Keeps cfg want True s.view t) (fun _ => True) s := by
  refine (pebsScanSample_spec.at hg rfl).mono (fun _ t h' => ?_) fun _ _ => trivial
  obtain ⟨hg', hv | ⟨p, hp, hs⟩⟩ := h'
  · exact ⟨hg', hv.symm ▸ h, fun _ hw => hv.symm ▸ hw⟩
  · refine ⟨hg', h.sampled hp hs, fun _ hw => ?_⟩
    rcases hs with hv | ⟨-, hot, l, c, r, i, j, -, hv⟩ <;> rw [hv] <;> exact hw

theorem pebsPolicyPass_keeps (hg : s.Good) (h : Backed cfg Allow.tiered want s.view) :
    Sat (pebsPolicyPass cfg) (fun _ t => Keeps cfg want True s.view t) (fun _ => True) s := by
  refine (pebsPolicyPass_sat (A := Allow.tiered) hg (.inr (h.inv.passMeetsNone id trivial hg))
    (.inl trivial)).mono
    (fun _ t h' => ?_) fun _ _ => trivial
  have hmoves : Backed cfg Allow.tiered want t.view ∧
      (s.view.Whole cfg.pages → t.view.Whole cfg.pages) :=
    h'.2.1.invariant (I := fun v => Backed cfg Allow.tiered want v ∧
      (s.view.Whole cfg.pages → v.Whole cfg.pages)) ⟨h, id⟩
      fun v w hv hm => ⟨hv.1.move id hm, fun hw => (hv.2 hw).move hv.1.framed hm⟩
  exact ⟨h'.1, hmoves.1, fun _ => hmoves.2⟩

theorem Keeps.weaken {P Q : Prop} (h : Keeps cfg want P v t) (hq : Q → P) : Keeps cfg want Q v t :=
  ⟨h.1, h.2.1, fun q => h.2.2 (hq q)⟩

/-- A call keeps what the frames of tracked pages hold. -/
theorem Call.run_keeps {c : Call} (hg : s.Good) (h : Backed cfg Allow.tiered want s.view)
    (hc : c.Tidy cfg s) (hz : FreeHold want c.populates s) : Sat (c.run cfg)
      (fun _ t => Keeps cfg (c.wants want) c.Aligned s.view t) (fun _ => True) s := by
  cases c with
  | hint tier persistence priority =>
    refine ⟨⟨hg.fifo, hg.requests, hg.free⟩, ?_, fun _ hw => hw⟩
    exact ⟨h.inv.congr rfl rfl rfl rfl (fun _ => rfl) (fun _ => rfl) (fun _ => rfl) (fun _ => rfl)
      fun _ => rfl, h.framed.congr (fun _ => rfl) fun _ => rfl,
      ⟨h.tracked.found, h.tracked.va, h.tracked.live⟩, h.mapped, h.held⟩
  | mmap length offset p =>
    exact (hememMmap_keeps hg hc.1 h hc.2 hz).bind fun _ t ht => sat_pure.2 (ht.weaken id)
  | populate addr length => exact hememMmapPopulate_keeps hg hc.1 h hz
  | missingFault pageBoundry => exact handleMissingFault_keeps hg hc.1 h hz
  | munmap addr length unmaps => exact hememMunmap_keeps hg h
  | sample addr j => exact pebsScanSample_keeps hg h
  | pass => exact pebsPolicyPass_keeps hg h
  | write addr byte =>
    obtain ⟨p, hp, hn⟩ := hc.2
    exact appWrite_keeps hg h hp hn

end Steps

section Reads

theorem not_tracked_initial (hm : hememInit cfg (State.blank kernel) = .ok ((), s))
    (hp : s.pages a = some p) : ¬ p < cfg.pages := by
  obtain ⟨-, hv⟩ := hememInit_sat.ok hm
  have hp : s.view.pages a = some p := hp
  rw [hv] at hp
  simp only [update_apply, dummyPage] at hp
  split at hp
  · cases hp
    exact Nat.lt_irrefl _
  · cases hp

theorem backed_initial (hm : hememInit cfg (State.blank kernel) = .ok ((), s)) :
    s.Good ∧ Backed cfg Allow.tiered (fun _ => none) s.view := by
  obtain ⟨hg, hv⟩ := hememInit_sat.ok hm
  refine ⟨hg, ?_, ?_, ?_, fun x p e hx hp => absurd hp (not_tracked_initial hm hx),
    fun x p b hx hp => absurd hp (not_tracked_initial hm hx)⟩ <;> rw [hv]
  · exact (inv_initial kernel).congr rfl rfl rfl rfl (fun _ => rfl) (fun _ => rfl) (fun _ => rfl)
      (fun _ => rfl) fun _ => rfl
  · exact (framed_initial cfg kernel).congr (fun _ => rfl) fun _ => rfl
  · exact tracked_initial

theorem whole_initial (hm : hememInit cfg (State.blank kernel) = .ok ((), s)) :
    s.view.Whole cfg.pages :=
  fun _ _ hx hp => absurd hp (not_tracked_initial hm hx)

/-- A page tracked away from address zero is one of `pebs_init`. -/
theorem Tracked.number (h : Tracked cfg.pages v) (hp : v.pages a = some p) (ha : a ≠ 0) :
    p < cfg.pages := by
  rcases h.live a p hp with ⟨-, hn, -⟩ | ⟨h0, -⟩
  · exact hn
  · exact absurd h0 ha

/-- `f` says what is wanted of an address from what has been written there. -/
theorem Call.step_keeps {c : Call} {w : UInt64 → Option UInt8} {f : Option UInt8 → Option UInt8}
    (hf : ∀ b, f (some b) = some b) (hg : s.Good)
    (h : Backed cfg Allow.tiered (fun x => f (w x)) s.view) (hc : c.Tidy cfg s)
    (hz : ∀ i p, i < c.populates → s.freePages[i]? = some p → ∀ x b, f none = some b →
      s.kernel.byte ((s.page p).pte (pageOffset x)) = b) : Sat (c.run cfg)
      (fun _ t => Keeps cfg (fun x => f (c.writes s w x)) c.Aligned s.view t)
      (fun _ => True) s := by
  cases c with
  | write addr byte =>
    have hwants : wants (fun x => f (w x)) (write addr byte) =
        fun x => f (writes s w (write addr byte) x) := by
      funext x
      simp only [wants, writes]
      split
      · exact (hf byte).symm
      · rfl
    rw [← hwants]
    exact Call.run_keeps hg h hc fun i p hi => absurd hi (Nat.not_lt_zero i)
  | _ =>
    have h' : Backed cfg Allow.tiered (fun x => f (if s.pages (x &&& hugePfnMask) = none then none
        else w x)) s.view := h.wants fun x p b hp _ hb => by
      have hp : s.pages (x &&& hugePfnMask) = some p := hp
      simpa [hp] using hb
    refine Call.run_keeps hg h' hc fun i p hi hp x b hx hb => ?_
    have hb : f (if s.pages (x &&& hugePfnMask) = none then none else w x) = some b := hb
    rw [if_pos hx] at hb
    exact hz i p hi hp x b hb

/-- In every run without hints for DRAM, the mappings of tracked pages are their frames, no two of
them the same, and every byte reads as it was last written there. -/
theorem memory_preserved (h : (hemem cfg kernel).Reach
    (fun m c => c.Tidy cfg m.state ∧ c.Aligned) m) :
    (∀ va p, m.state.pages va = some p → va ≠ 0 → ∀ x, x &&& hugePfnMask = va →
      m.state.kernel.mapping x = some ((m.state.page p).pte (x - va))) ∧
    (∀ va va' p p', m.state.pages va = some p → m.state.pages va' = some p' → va ≠ 0 → va' ≠ 0 →
      va ≠ va' → (m.state.page p).frame ≠ (m.state.page p').frame) ∧
    ∀ x b, x &&& hugePfnMask ≠ 0 → m.state.pages (x &&& hugePfnMask) ≠ none →
      m.written x = some b → m.state.kernel.load x = some b := by
  obtain ⟨hg, hb, hw⟩ : m.state.Good ∧ Backed cfg Allow.tiered m.written m.state.view ∧
      m.state.view.Whole cfg.pages := by
    refine h.invariant (I := fun m => m.state.Good ∧
      Backed cfg Allow.tiered m.written m.state.view ∧ m.state.view.Whole cfg.pages)
      (fun m hm => ?_) fun m c m' ⟨hg, hb, hw⟩ ⟨ht, ha⟩ hs => ?_
    · rw [hm.2]
      exact ⟨(backed_initial hm.1).1, (backed_initial hm.1).2, whole_initial hm.1⟩
    · have hk := (Call.step_keeps (f := id) (fun _ => rfl) hg hb ht
        (fun _ _ _ _ _ _ hn => by cases hn)).ok hs.1
      rw [hs.2]
      exact ⟨hk.1, hk.2.1, hk.2.2 ha hw⟩
  have hlive : ∀ va p, m.state.pages va = some p → va ≠ 0 → p < cfg.pages :=
    fun _ _ hp h0 => hb.tracked.number hp h0
  have hmap : ∀ x p, m.state.pages (x &&& hugePfnMask) = some p → x &&& hugePfnMask ≠ 0 →
      m.state.kernel.mapping x = some ((m.state.page p).pte (pageOffset x)) := fun x p hp h0 => by
    obtain ⟨e, he⟩ := Option.ne_none_iff_exists'.1 (hw x p hp (hlive _ p hp h0))
    have hpte := hb.mapped x p e hp (hlive _ p hp h0) he
    exact he.trans (congrArg some hpte)
  refine ⟨fun va p hp h0 x hx => ?_, fun va va' p p' hp hp' h0 h0' hne hf => ?_,
    fun x b h0 hx hb' => ?_⟩
  · have hm := hmap x p (hx ▸ hp) (hx ▸ h0)
    rwa [pageOffset, hx] at hm
  · have heq := hb.framed.bij.injOn (hlive va p hp h0) (hlive va' p' hp' h0') hf
    subst heq
    exact hne ((hb.tracked.va va p hp).symm.trans (hb.tracked.va va' p hp'))
  · obtain ⟨p, hp⟩ := Option.ne_none_iff_exists'.1 hx
    rw [Kernel.load, hmap x p hp h0, Option.map_some, Option.some.injEq]
    exact hb.held x p b hp (hlive _ p hp h0) hb'

/-- In the state `hemem_init` leaves, a first region away from address zero is tidy. -/
theorem tidy_initial (hm : (hemem cfg kernel).init m) (ht : m.state.userHintTier ≠ 0)
    {offset : UInt64} (ha : hugepageSize ≤ a)
    (hl : a.toNat + (pageRoundUp length).toNat ≤ 2 ^ 64) :
    (Call.mmap length offset a).Tidy cfg m.state := by
  obtain ⟨-, hv⟩ := hememInit_sat.ok hm.1
  refine ⟨ht, fun x hx => ?_⟩
  have hpages : m.state.pages = m.state.view.pages := rfl
  rw [hpages, hv]
  change update (fun _ => none) 0 (some (dummyPage cfg)) (x &&& hugePfnMask) = none
  rw [update_of_ne]
  have hsize : hugepageSize.toNat = 2 ^ 21 := by decide
  rw [UInt64.le_iff_toNat_le, hsize] at ha
  rw [UInt64.lt_iff_toNat_lt, UInt64.toNat_sub] at hx
  rw [ne_eq, ← UInt64.toNat_inj, toNat_and_hugePfnMask, UInt64.toNat_zero]
  have hxl := x.toNat_lt
  have hal := a.toNat_lt
  omega

/-- A call that populates no page. -/
theorem cleared_of_none {c : Call} (hc : c.populates = 0) : c.Cleared s :=
  fun _ _ hi => absurd hi (by omega)

theorem cleared_initial {c : Call} (hm : (hemem cfg Kernel.fresh).init m) : c.Cleared m.state := by
  intro i p _ _ j _
  have hk : m.state.kernel = Kernel.fresh := congrArg View.kernel (hememInit_sat.ok hm.1).2
  rw [hk]
  rfl

/-- A check of a call other than those that give a region pages. -/
def Call.goesOn (cfg : Config) (m : Memory) : Call → Bool
  | .write addr _ => m.state.userHintTier ≠ 0 &&
      (m.state.pages (addr &&& hugePfnMask)).any (· < cfg.pages)
  | .munmap addr length _ => m.state.userHintTier ≠ 0 &&
      decide (addr % hugepageSize = 0 ∧ length % hugepageSize = 0 ∧
        addr.toNat + length.toNat < 2 ^ 64)
  | .sample _ _ | .pass => m.state.userHintTier ≠ 0
  | _ => false

theorem Call.goesOn_tidy {c : Call} (h : c.goesOn cfg m = true) :
    c.Tidy cfg m.state ∧ c.Aligned ∧ c.Cleared m.state := by
  cases c with
  | write addr byte =>
    obtain ⟨ht, hp⟩ := Bool.and_eq_true_iff.1 h
    obtain ⟨p, hp, hn⟩ := (Option.any_eq_true _ _).1 hp
    exact ⟨⟨of_decide_eq_true ht, p, hp, of_decide_eq_true hn⟩, trivial, cleared_of_none rfl⟩
  | munmap addr length unmaps =>
    obtain ⟨ht, ha⟩ := Bool.and_eq_true_iff.1 h
    have ha := of_decide_eq_true ha
    exact ⟨⟨of_decide_eq_true ht, trivial⟩, ha, cleared_of_none rfl⟩
  | sample addr j => exact ⟨⟨of_decide_eq_true h, trivial⟩, trivial, cleared_of_none rfl⟩
  | pass => exact ⟨⟨of_decide_eq_true h, trivial⟩, trivial, cleared_of_none rfl⟩
  | _ => cases h

/-- Three pages are mapped on fresh devices, the third in NVM.  It is written and sampled until a
pass exchanges it with the first; then the first is written, and the second unmapped and drained. -/
theorem exchanged_reach : ∃ m, (hemem fourFrames Kernel.fresh).Reach
    (fun m c => c.Tidy fourFrames m.state ∧ c.Aligned ∧ c.Cleared m.state) m ∧
      m.state.calls.map (fun c => (c.page, c.up)) = [(2, true), (0, false)] ∧
      m.state.pages (3 * hugepageSize) = some 2 ∧ m.state.pages hugepageSize = some 0 ∧
      m.written (3 * hugepageSize) = some 7 ∧ m.written hugepageSize = some 9 ∧
      m.written (3 * hugepageSize + 1) = none ∧
      (m.state.kernel.load (3 * hugepageSize + 1)).isSome = true := by
  obtain ⟨m, hm, hP⟩ := launch_reach_of_first fourFrames Kernel.fresh
    (fun m c => c.goesOn fourFrames m = true) (D := fun m => m.state.userHintTier ≠ 0)
    (K := fun m c => c.Tidy fourFrames m.state ∧ c.Aligned ∧ c.Cleared m.state)
    (.mmap (3 * hugepageSize) 0 hugepageSize)
    (.write (3 * hugepageSize) 7 :: List.replicate 8 (.sample (3 * hugepageSize) .nvmread) ++
      [.pass, .write hugepageSize 9, .munmap (2 * hugepageSize) hugepageSize true, .pass])
    (fun m => decide (m.state.calls.map (fun c => (c.page, c.up)) = [(2, true), (0, false)]) &&
      decide (m.state.pages (3 * hugepageSize) = some 2 ∧ m.state.pages hugepageSize = some 0) &&
      decide (m.written (3 * hugepageSize) = some 7 ∧ m.written hugepageSize = some 9 ∧
        m.written (3 * hugepageSize + 1) = none) &&
      (m.state.kernel.load (3 * hugepageSize + 1)).isSome)
    (fun m hm ht => ⟨tidy_initial hm ht (by decide) (by decide), trivial, cleared_initial hm⟩)
    (fun m c h => c.goesOn_tidy h) (by decide +kernel)
  simp only [Bool.and_eq_true, decide_eq_true_eq] at hP
  obtain ⟨⟨⟨hcalls, hp, hp'⟩, hw⟩, hload⟩ := hP
  exact ⟨m, hm, hcalls, hp, hp', hw.1, hw.2.1, hw.2.2, hload⟩

/-- Both pages that the pass exchanged read as they were last written. -/
theorem memory_preserved_written : ∃ m : Memory,
    m.state.calls.map (fun c => (c.page, c.up)) = [(2, true), (0, false)] ∧
      m.state.pages (3 * hugepageSize) = some 2 ∧
      m.state.kernel.load (3 * hugepageSize) = some 7 ∧ m.state.kernel.load hugepageSize = some 9 := by
  obtain ⟨m, hm, hcalls, hp, hp', hw, hw', -⟩ := exchanged_reach
  have hload := (memory_preserved (hm.mono fun _ _ hc => ⟨hc.1, hc.2.1⟩)).2.2
  refine ⟨m, hcalls, hp, hload _ 7 (by decide) ?_ hw, hload _ 9 (by decide) ?_ hw'⟩
  · rw [show (3 * hugepageSize) &&& hugePfnMask = 3 * hugepageSize by decide, hp]
    simp
  · rw [show hugepageSize &&& hugePfnMask = hugepageSize by decide, hp']
    simp

/-- In a run in which every frame holds zeros when it is taken, what is mapped reads as zero until
it is written. -/
theorem unwritten_reads_zero (h : (hemem cfg kernel).Reach
    (fun m c => c.Tidy cfg m.state ∧ c.Cleared m.state) m) : ∀ x b, x &&& hugePfnMask ≠ 0 →
      m.state.pages (x &&& hugePfnMask) ≠ none → m.state.kernel.load x = some b →
        b = (m.written x).getD 0 := by
  obtain ⟨hg, hb⟩ : m.state.Good ∧
      Backed cfg Allow.tiered (fun x => some ((m.written x).getD 0)) m.state.view := by
    refine h.invariant (I := fun m => m.state.Good ∧
      Backed cfg Allow.tiered (fun x => some ((m.written x).getD 0)) m.state.view)
      (fun m hm => ?_) fun m c m' ⟨hg, hb⟩ ⟨ht, hz⟩ hs => ?_
    · have hinit := backed_initial hm.1
      exact ⟨hinit.1, hinit.2.wants fun x p b hp hn => absurd hn (not_tracked_initial hm.1 hp)⟩
    · have hk := (Call.step_keeps (f := fun o => some (o.getD 0)) (fun _ => rfl) hg hb ht
        (fun i p hi hp x b hb => by
          cases hb
          exact hz i p hi hp _ (pageOffset_lt x))).ok hs.1
      rw [hs.2]
      exact ⟨hk.1, hk.2.1⟩
  intro x b h0 hx hload
  obtain ⟨p, hp⟩ := Option.ne_none_iff_exists'.1 hx
  have hn : p < cfg.pages := hb.tracked.number hp h0
  rw [Kernel.load, Option.map_eq_some_iff] at hload
  obtain ⟨e, he, rfl⟩ := hload
  rw [hb.mapped x p e hp hn he]
  exact hb.held x p _ hp hn rfl

/-- The byte behind the one that was written, once a pass has moved the page. -/
theorem unwritten_reads_zero_mapped : ∃ m : Memory,
    m.state.calls.map (fun c => (c.page, c.up)) = [(2, true), (0, false)] ∧
      m.state.pages (3 * hugepageSize) = some 2 ∧ m.written (3 * hugepageSize + 1) = none ∧
        m.state.kernel.load (3 * hugepageSize + 1) = some 0 := by
  obtain ⟨m, hm, hcalls, hp, -, -, -, hw, hsome⟩ := exchanged_reach
  obtain ⟨b, hb⟩ := Option.isSome_iff_exists.1 hsome
  have hz := unwritten_reads_zero (hm.mono fun _ _ hc => ⟨hc.1, hc.2.2⟩) (3 * hugepageSize + 1) b
    (by decide) (by
      rw [show (3 * hugepageSize + 1) &&& hugePfnMask = 3 * hugepageSize by decide, hp]
      simp) hb
  rw [hw] at hz
  subst hz
  exact ⟨m, hcalls, hp, hw, hb⟩

/-- A page is written and unmapped, its frame freed, and mapped again. -/
theorem stale_bytes_read : ∃ m : Memory, (hemem fourFrames Kernel.fresh).Reach (fun _ _ => True) m ∧
    m.state.pages hugepageSize = some 0 ∧ m.written hugepageSize = none ∧
      m.state.kernel.load hugepageSize = some 7 := by
  obtain ⟨m, hm, hc⟩ := launch_reach fourFrames Kernel.fresh (fun _ _ => True)
    [.mmap (2 * hugepageSize) 0 hugepageSize, .write hugepageSize 7,
      .munmap hugepageSize (2 * hugepageSize) true, .pass, .mmap hugepageSize 0 hugepageSize]
    (fun m => m.state.pages hugepageSize = some 0 && m.written hugepageSize = none &&
      m.state.kernel.load hugepageSize = some 7) (by decide +kernel)
  simp only [Bool.and_eq_true, decide_eq_true_eq] at hc
  exact ⟨m, hm, hc.1.1, hc.1.2, hc.2⟩

end Reads

end HeMem

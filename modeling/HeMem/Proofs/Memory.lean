import HeMem.Proofs.Mmap

/-!
# Memory is preserved by tiering

The application sees a page through its mapping: the device and the offset of its frame.  A
migration copies the frame and replaces the mapping, and the page struct takes over both; so the
mapping of a tracked page is what its struct says, and the frame holds what the application wrote.
`want` is what the frames of tracked pages should hold, where anything is asked of them.
-/

namespace HeMem

open Hoare Function

variable {cfg : Config} {A : Allow} {kernel : Kernel} {s : State} {m : Memory} {v w : View}
  {p np : PageId} {a x : UInt64} {n : ℕ} {want : UInt64 → Option UInt8} {up : Bool}

section Addresses

theorem and_hugePfnMask (x : UInt64) : x &&& hugePfnMask = x - x % hugepageSize := by
  apply UInt64.toNat_inj.1
  have hmask : hugePfnMask.toNat = 2 ^ 64 - 2 ^ 21 := by decide
  have hsize : hugepageSize.toNat = 2 ^ 21 := by decide
  have hle : x % hugepageSize ≤ x := UInt64.le_iff_toNat_le.2 (by
    rw [UInt64.toNat_mod]
    exact Nat.mod_le _ _)
  rw [UInt64.toNat_and, UInt64.toNat_sub_of_le _ _ hle, UInt64.toNat_mod, hmask, hsize]
  have hdiv : x.toNat - x.toNat % 2 ^ 21 = (x.toNat >>> 21) <<< 21 := by
    rw [Nat.shiftRight_eq_div_pow, Nat.shiftLeft_eq]
    omega
  rw [hdiv]
  apply Nat.eq_of_testBit_eq
  intro i
  have hbit : (2 ^ 64 - 2 ^ 21 : ℕ) = (2 ^ 43 - 1) <<< 21 := by decide
  rw [hbit, Nat.testBit_and, Nat.testBit_shiftLeft, Nat.testBit_shiftLeft, Nat.testBit_two_pow_sub_one,
    Nat.testBit_shiftRight]
  have hlt := x.toNat_lt
  by_cases h21 : 21 ≤ i
  · simp only [h21, decide_true, Bool.true_and]
    rw [Nat.add_sub_cancel' h21]
    by_cases h64 : i - 21 < 43
    · simp [h64]
    · simp only [h64, decide_false, Bool.and_false]
      symm
      apply Nat.testBit_lt_two_pow
      exact hlt.trans_le (Nat.pow_le_pow_right (by decide) (by omega))
  · simp [h21]

theorem toNat_and_hugePfnMask (x : UInt64) :
    (x &&& hugePfnMask).toNat = x.toNat - x.toNat % 2 ^ 21 := by
  have hsize : hugepageSize.toNat = 2 ^ 21 := by decide
  have hle : x % hugepageSize ≤ x := UInt64.le_iff_toNat_le.2 (by
    rw [UInt64.toNat_mod]
    exact Nat.mod_le _ _)
  rw [and_hugePfnMask, UInt64.toNat_sub_of_le _ _ hle, UInt64.toNat_mod, hsize]

/-- Page boundaries, as natural numbers. -/
theorem aligned_iff {a : UInt64} : a % hugepageSize = 0 ↔ a.toNat % 2 ^ 21 = 0 := by
  have hsize : hugepageSize.toNat = 2 ^ 21 := by decide
  rw [← UInt64.toNat_inj, UInt64.toNat_mod, hsize, UInt64.toNat_zero]

theorem and_hugePfnMask_aligned (x : UInt64) : (x &&& hugePfnMask) % hugepageSize = 0 := by
  rw [aligned_iff, toNat_and_hugePfnMask]
  omega

theorem and_hugePfnMask_eq_iff {x a : UInt64} (ha : a % hugepageSize = 0) :
    x &&& hugePfnMask = a ↔ x - a < hugepageSize := by
  have hsize : hugepageSize.toNat = 2 ^ 21 := by decide
  rw [aligned_iff] at ha
  rw [← UInt64.toNat_inj, toNat_and_hugePfnMask, UInt64.lt_iff_toNat_lt, UInt64.toNat_sub, hsize]
  have hx := x.toNat_lt
  have ha2 := a.toNat_lt
  omega

theorem pageRoundUp_aligned (x : UInt64) : pageRoundUp x % hugepageSize = 0 := by
  have hmask : ~~~(hugepageSize - 1) = hugePfnMask := by decide
  rw [pageRoundUp, hmask]
  exact and_hugePfnMask_aligned _

/-- Where in its page an address lies. -/
def pageOffset (x : UInt64) : UInt64 := x - (x &&& hugePfnMask)

theorem pageOffset_lt (x : UInt64) : pageOffset x < hugepageSize :=
  (and_hugePfnMask_eq_iff (and_hugePfnMask_aligned x)).1 rfl

end Addresses

section Bytes

/-- The byte at offset `i` of the frame a page struct names. -/
def HememPage.pte (P : HememPage) (i : UInt64) : Pte := ⟨deviceOf P.inDram, P.devdaxOffset + i, false⟩

def Kernel.byte (k : Kernel) (e : Pte) : UInt8 := k.bytes e.device e.offset

theorem toNat_frame {dram : Bool} {k : ℕ} (hk : k < cfg.count dram) {i : UInt64}
    (hi : i < hugepageSize) :
    (UInt64.ofNat k * pageSize + i).toNat = k * pageSize.toNat + i.toNat := by
  have hle := count_mul_le cfg dram
  have hlt := (cfg.size dram).toNat_lt
  have hmul : (k + 1) * pageSize.toNat ≤ cfg.count dram * pageSize.toNat :=
    Nat.mul_le_mul_right _ hk
  have hi : i.toNat < pageSize.toNat := UInt64.lt_iff_toNat_lt.1 hi
  rw [Nat.add_one_mul] at hmul
  rw [UInt64.toNat_add, toNat_offset hk, Nat.mod_eq_of_lt (by omega)]

/-- Different bytes of frames are different bytes of the devices. -/
theorem Framed.pte_inj (h : Framed cfg v) (hp : p < cfg.pages) (hn : np < cfg.pages) {i j : UInt64}
    (hi : i < hugepageSize) (hj : j < hugepageSize) (he : (v.page p).pte i = (v.page np).pte j) :
    p = np ∧ i = j := by
  obtain ⟨dram, k, hk, hfk⟩ := h.bij.mapsTo hp
  obtain ⟨dram', l, hl, hfl⟩ := h.bij.mapsTo hn
  simp only [HememPage.frame, Prod.mk.injEq] at hfk hfl
  simp only [HememPage.pte, Pte.mk.injEq, and_true] at he
  obtain rfl : dram = dram' := deviceOf_inj (hfk.1.symm.trans (he.1.trans hfl.1))
  have he := he.2
  have hcomm : ∀ a b c : UInt64, a + b + c = a + c + b := fun a b c => by
    rw [UInt64.add_assoc, UInt64.add_comm b, UInt64.add_assoc]
  rw [hfk.2, hfl.2, hcomm, hcomm (UInt64.ofNat l * pageSize)] at he
  have he := congrArg UInt64.toNat ((UInt64.add_left_inj _).1 he)
  rw [toNat_frame hk hi, toNat_frame hl hj] at he
  have hi' : i.toNat < pageSize.toNat := UInt64.lt_iff_toNat_lt.1 hi
  have hj' : j.toNat < pageSize.toNat := UInt64.lt_iff_toNat_lt.1 hj
  have hsize : pageSize.toNat = 2 ^ 21 := by decide
  rw [hsize] at he hi' hj'
  obtain ⟨rfl, hij⟩ : k = l ∧ i.toNat = j.toNat := by omega
  refine ⟨h.bij.injOn hp hn ?_, UInt64.toNat_inj.1 hij⟩
  simp only [HememPage.frame, hfk.1, hfk.2, hfl.1, hfl.2]

theorem exchange_mapping (hpt : (v.page p).pt = .hugep) (x : UInt64) :
    (v.exchange up p np).kernel.mapping x = if x - (v.page p).va < hugepageSize then
      some ⟨deviceOf up, (v.page np).devdaxOffset + (x - (v.page p).va), false⟩
    else v.kernel.mapping x := by
  simp only [View.exchange, View.put_kernel, View.edit_kernel, View.remap_kernel, View.call_kernel,
    View.call_page, hpt, ptToPagesize, Kernel.mmapFixed, Kernel.dmaCopy, Kernel.writeprotect]
  split <;> rfl

theorem exchange_bytes (hpt : (v.page p).pt = .hugep) (d : Device) (o : UInt64) :
    (v.exchange up p np).kernel.bytes d o =
      if d = deviceOf up ∧ o - (v.page np).devdaxOffset < hugepageSize then
        v.kernel.bytes (deviceOf !up) ((v.page p).devdaxOffset + (o - (v.page np).devdaxOffset))
      else v.kernel.bytes d o := by
  simp only [View.exchange, View.put_kernel, View.edit_kernel, View.remap_kernel, View.call_kernel,
    View.call_page, hpt, ptToPagesize, Kernel.mmapFixed, Kernel.dmaCopy, Kernel.writeprotect]

end Bytes

section Backed

/-- What is mapped at a tracked page is the frame of its struct, and that frame holds what is
wanted. -/
structure Backed (cfg : Config) (A : Allow) (want : UInt64 → Option UInt8) (v : View) : Prop where
  inv : Inv cfg.pages A v
  framed : Framed cfg v
  tracked : Tracked cfg.pages v
  mapped : ∀ x p e, v.pages (x &&& hugePfnMask) = some p → p < cfg.pages →
    v.kernel.mapping x = some e → e = (v.page p).pte (pageOffset x)
  held : ∀ x p b, v.pages (x &&& hugePfnMask) = some p → p < cfg.pages → want x = some b →
    v.kernel.byte ((v.page p).pte (pageOffset x)) = b

/-- Every byte of a tracked page is mapped. -/
def View.Whole (n : ℕ) (v : View) : Prop :=
  ∀ x p, v.pages (x &&& hugePfnMask) = some p → p < n → v.kernel.mapping x ≠ none

/-- A tracked page that is no dummy page is present, and its address is that of its bytes. -/
theorem Tracked.page (h : Tracked n v) (hp : v.pages (x &&& hugePfnMask) = some p) (hn : p < n) :
    (v.page p).present = true ∧ (v.page p).va = x &&& hugePfnMask := by
  refine ⟨?_, h.va _ _ hp⟩
  rcases h.live _ _ hp with ⟨-, -, hpr⟩ | ⟨-, rfl, -⟩
  · exact hpr
  · exact absurd hn (Nat.lt_irrefl _)

theorem Backed.congr (h : Backed cfg A want v) (hI : Inv cfg.pages A w)
    (hpages : ∀ a p, w.pages a = some p → v.pages a = some p) (hk : w.kernel = v.kernel)
    (hframe : ∀ p, (w.page p).frame = (v.page p).frame) (hpt : ∀ p, (w.page p).pt = (v.page p).pt)
    (ht : Tracked cfg.pages w) : Backed cfg A want w := by
  have hpte : ∀ p i, (w.page p).pte i = (v.page p).pte i := fun p i => by
    have hf := hframe p
    simp only [HememPage.frame, Prod.mk.injEq] at hf
    simp only [HememPage.pte, hf.1, hf.2]
  refine ⟨hI, h.framed.congr hframe hpt, ht, fun x p e hp hn he => ?_, fun x p b hp hn hb => ?_⟩
  · rw [hpte]
    exact h.mapped x p e (hpages _ _ hp) hn (hk ▸ he)
  · rw [hpte, hk]
    exact h.held x p b (hpages _ _ hp) hn hb

theorem exchange_pte (hne : p ≠ np) (i : UInt64) :
    ((v.exchange up p np).page p).pte i = ⟨deviceOf up, (v.page np).devdaxOffset + i, false⟩ := by
  simp [View.exchange, HememPage.pte, hne]

/-- An exchange copies the frame of `p`, and no other tracked page has the frame it goes to. -/
theorem Backed.exchange (h : Backed cfg A want v) (hI : Inv cfg.pages A (v.exchange up p np))
    (hF : Framed cfg (v.exchange up p np)) (hT : Tracked cfg.pages (v.exchange up p np))
    (hp : p < cfg.pages) (hpr : (v.page p).present = true) (hn : np < cfg.pages)
    (hnpr : (v.page np).present = false) (hni : (v.page np).inDram = up)
    (he : Exchangeable v up p np) : Backed cfg A want (v.exchange up p np) := by
  have hne : p ≠ np := by
    rintro rfl
    simp [hpr] at hnpr
  have hpt := h.framed.pt p
  -- the addresses of `p` are those whose page is tracked as `p`
  have hin : ∀ x q, v.pages (x &&& hugePfnMask) = some q → q < cfg.pages →
      (x - (v.page p).va < hugepageSize ↔ q = p) := fun x q hq hqn => by
    rw [← and_hugePfnMask_eq_iff he.align]
    constructor
    · intro hx
      rw [hx, h.tracked.found p hp hpr] at hq
      exact (Option.some.inj hq).symm
    · rintro rfl
      exact (h.tracked.page hq hqn).2.symm
  have hoff : ∀ x, v.pages (x &&& hugePfnMask) = some p → x - (v.page p).va = pageOffset x :=
    fun x hx => by rw [(h.tracked.page hx hp).2, pageOffset]
  have hother : ∀ x q, v.pages (x &&& hugePfnMask) = some q → q < cfg.pages → q ≠ np := by
    rintro x q hq hqn rfl
    simp [(h.tracked.page hq hqn).1] at hnpr
  refine ⟨hI, hF, hT, fun x q e hq hqn hmap => ?_, fun x q b hq hqn hb => ?_⟩
  · have hq : v.pages (x &&& hugePfnMask) = some q := hq
    rw [exchange_mapping hpt] at hmap
    rcases eq_or_ne q p with rfl | hqp
    · rw [if_pos ((hin x q hq hqn).2 rfl), hoff x hq, Option.some.injEq] at hmap
      rw [exchange_pte hne, hmap]
    · rw [if_neg (mt (hin x q hq hqn).1 hqp)] at hmap
      rw [exchange_page_of_ne hqp (hother x q hq hqn)]
      exact h.mapped x q e hq hqn hmap
  · have hq : v.pages (x &&& hugePfnMask) = some q := hq
    rw [← h.held x q b hq hqn hb, Kernel.byte, Kernel.byte, exchange_bytes hpt]
    rcases eq_or_ne q p with rfl | hqp
    · rw [exchange_pte hne]
      have hcancel : (v.page np).devdaxOffset + pageOffset x - (v.page np).devdaxOffset =
          pageOffset x := by
        rw [UInt64.add_comm, UInt64.add_sub_cancel]
      simp only [hcancel, pageOffset_lt, and_self, if_true, HememPage.pte, he.inDram]
    · rw [exchange_page_of_ne hqp (hother x q hq hqn), if_neg]
      rintro ⟨hd, ho⟩
      refine hother x q hq hqn (h.framed.pte_inj hqn hn (pageOffset_lt x) ho ?_).1
      simp only [HememPage.pte] at hd ⊢
      rw [hd, hni, UInt64.add_comm (v.page np).devdaxOffset, UInt64.sub_add_cancel]

theorem Backed.move (h : Backed cfg A want v) (hs : ¬ A.stale) (hm : Move A v w) :
    Backed cfg A want w := by
  have hI := h.inv.move hm
  have hF := h.framed.move h.inv hm
  have hT := h.tracked.move h.inv hm
  rcases hm.exchanges with ⟨up, p, np, he, rfl⟩ | hst
  · exact h.exchange hI hF hT (h.inv.owned _ _ he.list) (he.present h.inv hs)
      (h.inv.owned _ _ he.free) (h.inv.free _ _ he.free (kind_freeList up))
      ((h.inv.tier _ _ he.free).trans (dram_freeList up)) he.ok
  · exact h.congr hI (fun a p hp => hst.pages ▸ hp) hst.kernel hst.frame hst.pt hT

theorem Backed.moves (h : Backed cfg A want v) (hs : ¬ A.stale) (hm : Moves A v w) :
    Backed cfg A want w :=
  hm.invariant h fun _ _ h hm => h.move hs hm

theorem View.Whole.move (h : v.Whole n) (hF : Framed cfg v) (hm : Move A v w) : w.Whole n := by
  intro x q hq hqn
  rcases hm.exchanges with ⟨up, p, np, he, rfl⟩ | hst
  · rw [exchange_mapping (hF.pt p)]
    split
    · simp
    · exact h x q hq hqn
  · rw [hst.kernel]
    exact h x q (hst.pages ▸ hq) hqn

/-- A free page given out, mapped and tracked: its frame holds what is wanted of it. -/
theorem Backed.populate (h : Backed cfg A want v) {dram : Bool} (hf : Free v p dram)
    (hn : v.pages a = none) (ha : a ≠ 0) (hal : a % hugepageSize = 0)
    (hz : ∀ x b, x &&& hugePfnMask = a → want x = some b →
      v.kernel.byte ((v.page p).pte (pageOffset x)) = b) :
    Backed cfg A want ((v.alloc p (coldList dram) (v.page p).enforced).populate p a) := by
  have hpt := h.framed.pt p
  set w := (v.alloc p (coldList dram) (v.page p).enforced).populate p a with hw
  have hframe : ∀ q, (w.page q).pte = (v.page q).pte ∧ (w.page q).frame = (v.page q).frame ∧
      (w.page q).pt = (v.page q).pt := fun q => by
    rcases eq_or_ne q p with rfl | hq
    · simp [hw, View.populate, View.alloc, View.edit, View.put, HememPage.frame]
      rfl
    · simp [hw, View.populate, View.alloc, View.edit, View.put, hq]
  have hpages : ∀ b, w.pages b = if b = a then some p else v.pages b := fun b => by
    simp [hw, View.populate, View.alloc, View.edit, View.put, update_apply]
  have hmap : ∀ x, w.kernel.mapping x = if x &&& hugePfnMask = a then
      some ((v.page p).pte (x - a)) else v.kernel.mapping x := fun x => by
    simp only [hw, View.populate, View.alloc, View.edit, View.put, Kernel.mmapFixed, update_self,
      hpt, ptToPagesize, and_hugePfnMask_eq_iff hal]
    rfl
  refine ⟨(inv_kept.alloc h.inv hf (.inl rfl) (.inr rfl)).populate ha hal,
    h.framed.congr (fun q => (hframe q).2.1) fun q => (hframe q).2.2,
    h.tracked.populate h.inv hf hn ha, fun x q e hq hqn he => ?_, fun x q b hq hqn hb => ?_⟩
  · rw [hpages] at hq
    rw [hmap] at he
    rw [(hframe q).1]
    split at hq
    · rename_i hx
      rw [if_pos hx] at he
      cases hq
      rw [pageOffset, hx]
      exact (Option.some.inj he).symm
    · rename_i hx
      rw [if_neg hx] at he
      exact h.mapped x q e hq hqn he
  · rw [hpages] at hq
    rw [(hframe q).1]
    split at hq
    · rename_i hx
      cases hq
      exact hz x b hx hb
    · exact h.held x q b hq hqn hb

theorem View.Whole.populate (h : v.Whole n) (hpt : (v.page p).pt = .hugep)
    (hal : a % hugepageSize = 0) : (v.populate p a).Whole n := by
  intro x q hq hqn
  simp only [View.populate, View.edit, Kernel.mmapFixed, hpt, ptToPagesize, update_apply,
    ← and_hugePfnMask_eq_iff hal] at hq ⊢
  split
  · simp
  · rename_i hx
    rw [if_neg hx] at hq
    exact h x q hq hqn

theorem Backed.release (h : Backed cfg A want v) (hd : A.dummy) (hp : v.pages a = some p) :
    Backed cfg A want (v.release p) := by
  refine h.congr (h.inv.release h.tracked hd hp) (fun b q hq => ?_) rfl (fun q => ?_) (fun q => ?_)
    (h.tracked.release hp)
  · simp only [View.release, View.remove, View.edit, update_apply] at hq
    split at hq
    · cases hq
    · exact hq
  all_goals
    rcases eq_or_ne q p with rfl | hq
    · simp [View.release, View.remove, View.edit, HememPage.clearCounters, HememPage.frame]
    · simp [View.release, View.remove, View.edit, hq]

theorem Backed.sampled (h : Backed cfg A want v) (hp : v.pages a = some p) (hs : Sampled v p w) :
    Backed cfg A want w := by
  have hI := h.inv.sampled h.tracked hp hs
  have hT := h.tracked.sampled hs
  rcases hs with rfl | ⟨hva, hot, l, c, r, a, t, hl, rfl⟩
  · exact h
  · refine h.congr hI (fun _ _ => id) rfl (fun q => ?_) (fun q => ?_) hT <;>
    · rcases eq_or_ne q p with rfl | hq
      · simp [View.edit, View.setRequests, HememPage.frame]
      · simp [View.edit, View.setRequests, hq]

/-- A change of the kernel's side, as long as tracked pages do not see it. -/
theorem Backed.setKernel (h : Backed cfg A want v) {k : Kernel}
    (hm : ∀ x p e, v.pages (x &&& hugePfnMask) = some p → p < cfg.pages →
      k.mapping x = some e → v.kernel.mapping x = some e)
    (hb : k.bytes = v.kernel.bytes) : Backed cfg A want { v with kernel := k } where
  inv := h.inv.congr rfl rfl rfl rfl (fun _ => rfl) (fun _ => rfl) (fun _ => rfl) (fun _ => rfl)
    fun _ => rfl
  framed := h.framed.congr (fun _ => rfl) fun _ => rfl
  tracked := ⟨h.tracked.found, h.tracked.va, h.tracked.live⟩
  mapped x p e hp hn he := h.mapped x p e hp hn (hm x p e hp hn he)
  held x p b hp hn hw := by
    rw [← h.held x p b hp hn hw]
    simp only [Kernel.byte, hb]

/-- A write changes the byte of one tracked address. -/
theorem Backed.store (h : Backed cfg A want v) {b : UInt8}
    (hp : v.pages (x &&& hugePfnMask) = some p) (hn : p < cfg.pages) :
    Backed cfg A (fun y => if y = x then some b else want y)
      { v with kernel := v.kernel.store ((v.page p).pte (pageOffset x)) b } where
  inv := h.inv.congr rfl rfl rfl rfl (fun _ => rfl) (fun _ => rfl) (fun _ => rfl) (fun _ => rfl)
    fun _ => rfl
  framed := h.framed.congr (fun _ => rfl) fun _ => rfl
  tracked := ⟨h.tracked.found, h.tracked.va, h.tracked.live⟩
  mapped := h.mapped
  held y q c hq hqn hc := by
    have hq : v.pages (y &&& hugePfnMask) = some q := hq
    simp only [Kernel.byte, Kernel.store]
    split at hc
    · rename_i hy
      subst hy
      rw [hp] at hq
      cases hq
      simpa using hc
    · rename_i hy
      rw [if_neg]
      · exact h.held y q c hq hqn hc
      rintro ⟨hd, ho⟩
      obtain ⟨rfl, hi⟩ := h.framed.pte_inj hqn hn (pageOffset_lt y) (pageOffset_lt x)
        (Pte.mk.injEq .. ▸ ⟨hd, ho, rfl⟩)
      refine hy ?_
      have hpage := (h.tracked.page hq hqn).2.symm.trans (h.tracked.page hp hn).2
      rw [pageOffset, pageOffset, hpage, UInt64.sub_left_inj] at hi
      exact hi

end Backed

end HeMem

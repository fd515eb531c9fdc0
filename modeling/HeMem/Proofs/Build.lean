import HeMem.Build
import HeMem.Proofs.Application

/-!
# The memory of the application, whatever the policy

What the application sees of a page is the frame of its struct.  A policy that gives and takes
pages, and moves them by a copy and a remap, keeps what they hold; so over any such policy the
application reads what it wrote last.
-/

namespace HeMem

open Hoare Function

variable {σ ε Θ : Type} {B : Build σ ε Θ} {cfg : Config} {kernel : Kernel} {v w : View}
  {p np : PageId} {a x : UInt64} {up : Bool} {want want' : UInt64 → Option UInt8}

section Settled

/-- What is mapped at a tracked page is the frame of its struct, and that frame holds what is
wanted. -/
structure Settled (cfg : Config) (want : UInt64 → Option UInt8) (v : View) : Prop where
  framed : Framed cfg v
  found : ∀ p < cfg.pages, (v.page p).present = true → v.pages (v.page p).va = some p
  va : ∀ a p, v.pages a = some p → (v.page p).va = a
  align : ∀ a p, v.pages a = some p → a % hugepageSize = 0
  live : ∀ a p, v.pages a = some p →
    a ≠ 0 ∧ p < cfg.pages ∧ (v.page p).present = true ∨ a = 0 ∧ p = cfg.pages
  mapped : ∀ x p, v.pages (x &&& hugePfnMask) = some p → p < cfg.pages →
    v.kernel.mapping x = some ((v.page p).pte (pageOffset x))
  held : ∀ x p b, v.pages (x &&& hugePfnMask) = some p → p < cfg.pages → want x = some b →
    v.kernel.byte ((v.page p).pte (pageOffset x)) = b

theorem pte_of_frame {P P' : HememPage} (h : P'.frame = P.frame) (i : UInt64) :
    P'.pte i = P.pte i := by
  simp only [HememPage.frame, Prod.mk.injEq] at h
  simp only [HememPage.pte, h.1, h.2]

/-- A tracked page that is no dummy page is present, and its address is that of its bytes. -/
theorem Settled.page (h : Settled cfg want v) (hp : v.pages (x &&& hugePfnMask) = some p)
    (hn : p < cfg.pages) : (v.page p).present = true ∧ (v.page p).va = x &&& hugePfnMask := by
  refine ⟨?_, h.va _ _ hp⟩
  rcases h.live _ _ hp with ⟨-, -, hpr⟩ | ⟨-, rfl⟩
  · exact hpr
  · exact absurd hn (Nat.lt_irrefl _)

theorem Settled.wants (h : Settled cfg want v)
    (hw : ∀ x p b, v.pages (x &&& hugePfnMask) = some p → p < cfg.pages → want' x = some b →
      want x = some b) : Settled cfg want' v :=
  ⟨h.framed, h.found, h.va, h.align, h.live, h.mapped,
    fun x p b hp hn hb => h.held x p b hp hn (hw x p b hp hn hb)⟩

/-- The same pages, frames and bytes. -/
theorem Settled.congr (h : Settled cfg want v) (hf : ∀ p, (w.page p).frame = (v.page p).frame)
    (hpt : ∀ p, (w.page p).pt = (v.page p).pt) (hva : ∀ p, (w.page p).va = (v.page p).va)
    (hpr : ∀ p, (w.page p).present = (v.page p).present) (hpages : w.pages = v.pages)
    (hk : w.kernel = v.kernel) : Settled cfg want w where
  framed := h.framed.congr hf hpt
  found p hp hlive := by
    rw [hpages, hva]
    exact h.found p hp (hpr p ▸ hlive)
  va a p hp := (hva p).trans (h.va a p (hpages ▸ hp))
  align a p hp := h.align a p (hpages ▸ hp)
  live a p hp := hpr p ▸ h.live a p (hpages ▸ hp)
  mapped x p hp hn := by
    rw [hk, pte_of_frame (hf p)]
    exact h.mapped x p (hpages ▸ hp) hn
  held x p b hp hn hb := by
    rw [hk, pte_of_frame (hf p)]
    exact h.held x p b (hpages ▸ hp) hn hb

theorem remap_mapping (hpt : (v.page p).pt = .hugep) (o x : UInt64) :
    (v.remap up p o).kernel.mapping x = if x - (v.page p).va < hugepageSize then
      some ⟨deviceOf up, o + (x - (v.page p).va), false⟩ else v.kernel.mapping x := by
  simp only [View.remap_kernel, hpt, ptToPagesize, Kernel.mmapFixed, Kernel.dmaCopy,
    Kernel.writeprotect]
  split <;> rfl

theorem remap_bytes (hpt : (v.page p).pt = .hugep) (o : UInt64) (d : Device) (i : UInt64) :
    (v.remap up p o).kernel.bytes d i = if d = deviceOf up ∧ i - o < hugepageSize then
      v.kernel.bytes (deviceOf !up) ((v.page p).devdaxOffset + (i - o))
    else v.kernel.bytes d i := by
  simp only [View.remap_kernel, hpt, ptToPagesize, Kernel.mmapFixed, Kernel.dmaCopy,
    Kernel.writeprotect]

theorem Relocates.ne (h : Relocates cfg v w up p np) : p ≠ np := by
  rintro rfl
  have hlive := h.live
  rw [h.spare] at hlive
  cases hlive

/-- The struct of the page that has moved names the frame it has moved to. -/
theorem Relocates.pte (h : Relocates cfg v w up p np) (i : UInt64) :
    (w.page p).pte i = ⟨deviceOf up, (v.page np).devdaxOffset + i, false⟩ := by
  have hf := h.frame p
  rw [Equiv.swap_apply_left] at hf
  rw [pte_of_frame hf, HememPage.pte, h.target]

/-- Tracked pages other than the one that moves keep their frames. -/
theorem Relocates.pte_of_ne (h : Relocates cfg v w up p np) {q : PageId} (hp : q ≠ p)
    (hn : q ≠ np) (i : UInt64) : (w.page q).pte i = (v.page q).pte i := by
  have hf := h.frame q
  rw [Equiv.swap_apply_of_ne_of_ne hp hn] at hf
  exact pte_of_frame hf i

/-- The copy goes to a frame that no other tracked page has. -/
theorem Settled.relocates (h : Settled cfg want v) (hm : Relocates cfg v w up p np) :
    Settled cfg want w := by
  have hpt := h.framed.pt p
  have hfound := h.found p hm.owned hm.live
  have halign := h.align _ _ hfound
  -- the addresses of `p` are those whose page is tracked as `p`
  have hin : ∀ x q, v.pages (x &&& hugePfnMask) = some q → q < cfg.pages →
      (x - (v.page p).va < hugepageSize ↔ q = p) := by
    intro x q hq hqn
    rw [← and_hugePfnMask_eq_iff halign]
    constructor
    · intro hx
      rw [hx, hfound] at hq
      exact (Option.some.inj hq).symm
    · rintro rfl
      exact (h.page hq hqn).2.symm
  have hoff : ∀ x, v.pages (x &&& hugePfnMask) = some p →
      x - (v.page p).va = pageOffset x := by
    intro x hx
    rw [(h.page hx hm.owned).2, pageOffset]
  have hother : ∀ x q, v.pages (x &&& hugePfnMask) = some q → q < cfg.pages → q ≠ np := by
    rintro x q hq hqn rfl
    have hlive := (h.page hq hqn).1
    rw [hm.spare] at hlive
    cases hlive
  refine ⟨⟨?_, fun x => (hm.pt x).trans (h.framed.pt x)⟩, ?_, ?_, ?_, ?_, ?_, ?_⟩
  · rw [funext hm.frame]
    exact h.framed.bij.comp (Equiv.swap_bijOn_self (by simp [hm.owned, hm.freed]))
  · intro q hq hlive
    rw [hm.pages, hm.va]
    exact h.found q hq (hm.present q ▸ hlive)
  · exact fun b q hq => (hm.va q).trans (h.va b q (hm.pages ▸ hq))
  · exact fun b q hq => h.align b q (hm.pages ▸ hq)
  · exact fun b q hq => hm.present q ▸ h.live b q (hm.pages ▸ hq)
  · intro x q hq hqn
    rw [hm.pages] at hq
    rw [hm.kernel, remap_mapping hpt]
    rcases eq_or_ne q p with rfl | hqp
    · rw [if_pos ((hin x q hq hqn).2 rfl), hoff x hq, hm.pte]
    · rw [if_neg (mt (hin x q hq hqn).1 hqp), hm.pte_of_ne hqp (hother x q hq hqn)]
      exact h.mapped x q hq hqn
  · intro x q b hq hqn hb
    rw [hm.pages] at hq
    rw [← h.held x q b hq hqn hb, Kernel.byte, Kernel.byte, hm.kernel, remap_bytes hpt]
    rcases eq_or_ne q p with rfl | hqp
    · have hcancel : (v.page np).devdaxOffset + pageOffset x - (v.page np).devdaxOffset =
          pageOffset x := by
        rw [UInt64.add_comm, UInt64.add_sub_cancel]
      rw [hm.pte]
      simp only [hcancel, pageOffset_lt, and_self, if_true, HememPage.pte, hm.inDram]
    · rw [hm.pte_of_ne hqp (hother x q hq hqn), if_neg]
      rintro ⟨hd, ho⟩
      refine hother x q hq hqn (h.framed.pte_inj hqn hm.freed (pageOffset_lt x) ho ?_).1
      simp only [HememPage.pte] at hd ⊢
      rw [hd, hm.target, UInt64.add_comm (v.page np).devdaxOffset, UInt64.sub_add_cancel]

theorem Settled.relocated (h : Settled cfg want v) (hm : Relocated cfg v w) :
    Settled cfg want w := by
  induction hm with
  | refl => exact h
  | tail _ hstep ih =>
    obtain ⟨up, p, np, hm⟩ := hstep
    exact ih.relocates hm

/-- Page `p` is given out, mapped at `a` and tracked there. -/
structure Populates (p : PageId) (a : UInt64) (v w : View) : Prop where
  frame : ∀ q, (w.page q).frame = (v.page q).frame
  pt : ∀ q, (w.page q).pt = (v.page q).pt
  va : ∀ q, (w.page q).va = if q = p then a else (v.page q).va
  present : ∀ q, (w.page q).present = if q = p then true else (v.page q).present
  pages : ∀ b, w.pages b = if b = a then some p else v.pages b
  mapping : ∀ x, w.kernel.mapping x = if x &&& hugePfnMask = a then
    some ((v.page p).pte (x - a)) else v.kernel.mapping x
  bytes : w.kernel.bytes = v.kernel.bytes

theorem Marks.populates (hm : Marks p true v w) (hpt : (v.page p).pt = .hugep)
    (hal : a % hugepageSize = 0) : Populates p a v (w.populate p a) where
  frame q := by
    rw [← hm.frame q]
    rcases eq_or_ne q p with rfl | hq
    · simp [View.populate, HememPage.frame]
    · simp [View.populate, hq]
  pt q := by
    rw [← hm.pt q]
    rcases eq_or_ne q p with rfl | hq
    · simp [View.populate]
    · simp [View.populate, hq]
  va q := by
    rw [← hm.va q]
    rcases eq_or_ne q p with rfl | hq
    · simp [View.populate]
    · simp [View.populate, hq]
  present q := by
    rw [← hm.present q]
    rcases eq_or_ne q p with rfl | hq
    · simp [View.populate]
    · simp [View.populate, hq]
  pages b := by
    rw [← hm.pages]
    exact update_apply ..
  mapping x := by
    have hpt : (w.page p).pt = .hugep := (hm.pt p).trans hpt
    rw [← hm.kernel, ← pte_of_frame (hm.frame p)]
    simp only [View.populate, Kernel.mmapFixed, hpt, ptToPagesize, and_hugePfnMask_eq_iff hal]
    rfl
  bytes := by
    rw [← hm.kernel]
    rfl

/-- A page that is not present is not tracked. -/
theorem Settled.ne_spare (h : Settled cfg want v) (hp : p < cfg.pages)
    (hspare : (v.page p).present = false) {b : UInt64} {q : PageId} (hq : v.pages b = some q) :
    q ≠ p := by
  rintro rfl
  rcases h.live b q hq with ⟨-, -, hlive⟩ | ⟨-, rfl⟩
  · rw [hspare] at hlive
    cases hlive
  · exact absurd hp (Nat.lt_irrefl _)

/-- A page given out, mapped and tracked: its frame holds what is wanted of it. -/
theorem Settled.populates (h : Settled cfg want v) (hm : Populates p a v w) (hp : p < cfg.pages)
    (hspare : (v.page p).present = false) (hn : v.pages a = none) (ha : a ≠ 0)
    (hal : a % hugepageSize = 0) (hz : ∀ x, x &&& hugePfnMask = a → want x = none) :
    Settled cfg want w where
  framed := h.framed.congr hm.frame hm.pt
  found q hq hlive := by
    rw [hm.pages, hm.va]
    rcases eq_or_ne q p with rfl | hqp
    · rw [if_pos rfl, if_pos rfl]
    · rw [hm.present, if_neg hqp] at hlive
      rw [if_neg hqp, if_neg, h.found q hq hlive]
      intro heq
      rw [← heq, h.found q hq hlive] at hn
      cases hn
  va b q hq := by
    rw [hm.pages] at hq
    rw [hm.va]
    split at hq
    · rename_i hb
      cases hq
      rw [if_pos rfl, hb]
    · rw [if_neg (h.ne_spare hp hspare hq)]
      exact h.va b q hq
  align b q hq := by
    rw [hm.pages] at hq
    split at hq
    · rename_i hb
      exact hb ▸ hal
    · exact h.align b q hq
  live b q hq := by
    rw [hm.pages] at hq
    rw [hm.present]
    split at hq
    · rename_i hb
      cases hq
      exact .inl ⟨hb ▸ ha, hp, if_pos rfl⟩
    · rw [if_neg (h.ne_spare hp hspare hq)]
      exact h.live b q hq
  mapped x q hq hqn := by
    rw [hm.pages] at hq
    rw [hm.mapping, pte_of_frame (hm.frame q)]
    split at hq
    · rename_i hx
      cases hq
      rw [if_pos hx, pageOffset, hx]
    · rename_i hx
      rw [if_neg hx]
      exact h.mapped x q hq hqn
  held x q b hq hqn hb := by
    rw [hm.pages] at hq
    split at hq
    · rename_i hx
      rw [hz x hx] at hb
      cases hb
    · rw [pte_of_frame (hm.frame q), Kernel.byte, hm.bytes]
      exact h.held x q b hq hqn hb

/-- A page is tracked no longer and taken back. -/
theorem Settled.release (h : Settled cfg want v) (hp : v.pages a = some p)
    (hm : Marks p false { v with pages := update v.pages (v.page p).va none } w) :
    Settled cfg want w := by
  have hpages : ∀ b, w.pages b = if b = a then none else v.pages b := by
    intro b
    rw [hm.pages, ← h.va a p hp]
    exact update_apply ..
  have hold : ∀ b q, w.pages b = some q → v.pages b = some q ∧ q ≠ p := by
    intro b q hq
    rw [hpages] at hq
    split at hq
    · cases hq
    · rename_i hb
      refine ⟨hq, ?_⟩
      rintro rfl
      exact hb ((h.va b q hq).symm.trans (h.va a q hp))
  refine ⟨h.framed.congr hm.frame hm.pt, ?_, ?_, ?_, ?_, ?_, ?_⟩
  · intro q hq hlive
    rw [hm.present] at hlive
    split at hlive
    · cases hlive
    · rename_i hqp
      have hfound := h.found q hq hlive
      rw [hpages, hm.va, if_neg]
      · exact hfound
      · intro heq
        have heq : (v.page q).va = a := heq
        rw [heq, hp] at hfound
        exact hqp (Option.some.inj hfound).symm
  · exact fun b q hq => (hm.va q).trans (h.va b q (hold b q hq).1)
  · exact fun b q hq => h.align b q (hold b q hq).1
  · intro b q hq
    obtain ⟨hq, hqp⟩ := hold b q hq
    rw [hm.present, if_neg hqp]
    exact h.live b q hq
  · intro x q hq hqn
    rw [hm.kernel, pte_of_frame (hm.frame q)]
    exact h.mapped x q (hold _ q hq).1 hqn
  · intro x q b hq hqn hb
    rw [hm.kernel, pte_of_frame (hm.frame q)]
    exact h.held x q b (hold _ q hq).1 hqn hb

/-- A byte is written where a tracked page has it. -/
theorem Settled.store (h : Settled cfg want v) {b : UInt8}
    (hp : v.pages (x &&& hugePfnMask) = some p) (hn : p < cfg.pages) :
    Settled cfg (fun y => if y = x then some b else want y)
      { v with kernel := v.kernel.store ((v.page p).pte (pageOffset x)) b } where
  framed := h.framed.congr (fun _ => rfl) fun _ => rfl
  found := h.found
  va := h.va
  align := h.align
  live := h.live
  mapped := h.mapped
  held y q c hq hqn hc := by
    have hq : v.pages (y &&& hugePfnMask) = some q := hq
    simp only [Kernel.byte, Kernel.store]
    split at hc
    · rename_i hy
      subst hy
      rw [hp] at hq
      cases hq
      simpa using hc
    · rename_i hy
      rw [if_neg]
      · exact h.held y q c hq hqn hc
      rintro ⟨hd, ho⟩
      obtain ⟨rfl, hi⟩ := h.framed.pte_inj hqn hn (pageOffset_lt y) (pageOffset_lt x)
        (Pte.mk.injEq .. ▸ ⟨hd, ho, rfl⟩)
      refine hy ?_
      have hpage := (h.page hq hqn).2.symm.trans (h.page hp hn).2
      rw [pageOffset, pageOffset, hpage, UInt64.sub_left_inj] at hi
      exact hi

end Settled

section Calls

variable {I : σ → Prop} {s : σ} {length : UInt64} {j : State}

/-- No byte of a region that has been passed is one of a tracked page. -/
theorem Clear.outside {pages : UInt64 → Option PageId} {b : UInt64} (h : Clear pages a b)
    (hb : ¬ b < a + length) (ha : a % hugepageSize = 0) (hno : a.toNat + length.toNat < 2 ^ 64)
    (hx : pages (x &&& hugePfnMask) ≠ none) : ¬ x - a < length := by
  intro hlt
  have hxl := x.toNat_lt
  have hal := a.toNat_lt
  rw [aligned_iff] at ha
  rw [UInt64.lt_iff_toNat_lt, UInt64.toNat_sub] at hlt
  rw [UInt64.lt_iff_toNat_lt, UInt64.toNat_add, Nat.mod_eq_of_lt hno] at hb
  refine hx (h.2.2 _ (and_hugePfnMask_aligned x) ?_ ?_)
  · rw [UInt64.le_iff_toNat_le, toNat_and_hugePfnMask]
    omega
  · rw [UInt64.lt_iff_toNat_lt, toNat_and_hugePfnMask]
    omega

/-- What `hemem.c` relies on of a policy whose own invariant is `I`. -/
structure Build.Sound (B : Build σ ε Θ) (cfg : Config) (kernel : Kernel) (I : σ → Prop) : Prop where
  onHemem : ∀ {α : Type} (m : M α) (Q : α → State → Prop) (s : σ), I s →
    Sat m (fun r h => Q r h ∧ Harmless (B.hemem s) h) (fun _ => True) (B.hemem s) →
      Sat (B.onHemem m) (fun r t => I t ∧ Q r (B.hemem t)) (fun _ => True) s
  pagingInit : Sat B.pagingInit (fun _ s => I s ∧ Framed cfg (B.hemem s).view ∧
    (∀ p, ((B.hemem s).page p).present = false ∧ ((B.hemem s).page p).va = 0) ∧
    ∀ a, (B.hemem s).pages a = none) (fun _ => True) (B.blank kernel)
  pagefault : ∀ s, I s → Sat B.pagefault (fun p t => I t ∧ p < cfg.pages ∧
    ((B.hemem s).page p).present = false ∧ Marks p true (B.hemem s).view (B.hemem t).view)
    (fun _ => True) s
  mmgrRemove : ∀ s p, I s → Sat (B.mmgrRemove p) (fun _ t => I t ∧
    Marks p false (B.hemem s).view (B.hemem t).view) (fun _ => True) s
  thread : ∀ s step, I s → Sat (B.thread step) (fun _ t => I t ∧
    Relocated cfg (B.hemem s).view (B.hemem t).view) (fun _ => True) s

theorem Harmless.refl (s : State) : Harmless s s :=
  ⟨fun _ => rfl, fun _ => rfl, fun _ => rfl, fun _ => .inl rfl⟩

/-- What changes no page struct. -/
theorem Harmless.of_page {s t : State} (h : t.page = s.page) : Harmless s t :=
  ⟨fun p => by rw [h], fun p => by rw [h], fun p => by rw [h], fun p => .inl (by rw [h])⟩

namespace Build.Sound

variable (h : B.Sound cfg kernel I)
include h

/-- A part of `hemem.c` that leaves the page structs alone. -/
theorem quiet {α : Type} {m : M α} {Q : α → State → Prop} (hI : I s)
    (hm : Sat m (fun r t => Q r t ∧ t.page = (B.hemem s).page) (fun _ => True) (B.hemem s)) :
    Sat (B.onHemem m) (fun r t => I t ∧ Q r (B.hemem t)) (fun _ => True) s :=
  h.onHemem m Q s hI (hm.post fun _ _ ht => ⟨ht.1, .of_page ht.2⟩)

theorem check {c : Prop} [Decidable c] {e : Abort} (hI : I s) :
    Sat (B.onHemem (Hoare.check c e)) (fun _ t => (I t ∧ B.hemem t = B.hemem s) ∧ c)
      (fun _ => True) s := by
  refine (h.quiet (Q := fun _ t => t = B.hemem s ∧ c) hI ?_).post
    fun _ t ht => ⟨⟨ht.1, ht.2.1⟩, ht.2.2⟩
  exact sat_check.2 ⟨fun hc => ⟨⟨rfl, hc⟩, rfl⟩, fun _ => trivial⟩

theorem diverges {α : Type} {Q : α → σ → Prop} (hI : I s) :
    Sat (B.onHemem (throw .diverges : M α)) Q (fun _ => True) s :=
  (h.quiet (Q := fun _ _ => False) hI (sat_throw.2 trivial)).post fun _ _ ht => ht.2.elim

end Build.Sound

section Mapped

theorem mapPage_places {s : State} : Sat (mapPage p a) (fun r t => (a ≠ 0 ∧ a % hugepageSize = 0 ∧
    s.pages a = none ∧ r = ptToPagesize (s.page p).pt ∧ t.page = (s.view.populate p a).page ∧
    t.pages = (s.view.populate p a).pages ∧ t.kernel = (s.view.populate p a).kernel) ∧
      Harmless s t) (fun _ => True) s := by
  simp only [mapPage, getPage, modifyPage, onKernel, addPage, bind_assoc, sat_bind, sat_get,
    sat_pure, sat_modify, sat_check]
  refine ⟨fun ha => ⟨fun hal => ⟨fun hn => ⟨⟨ha, hal, ?_, trivial, ?_, ?_, ?_⟩, ?_⟩, fun _ => trivial⟩,
    fun _ => trivial⟩, fun _ => trivial⟩
  · simpa using hn
  · simp [State.view, View.populate, View.edit]
  · simp [State.view, View.populate, View.edit]
  · rfl
  · constructor <;> intro q <;> rcases eq_or_ne q p with rfl | hq <;>
      simp_all [HememPage.frame]

end Mapped

/-- The invariant of the policy, what is wanted of the frames, and nothing wanted of an address that
is not tracked. -/
def Build.Holds (B : Build σ ε Θ) (cfg : Config) (I : σ → Prop) (want : UInt64 → Option UInt8)
    (s : σ) : Prop :=
  I s ∧ Settled cfg want (B.hemem s).view ∧
    ∀ x, (B.hemem s).pages (x &&& hugePfnMask) = none → want x = none

/-- The kernel changes what no tracked page sees. -/
theorem Settled.remapped {s t : State} (h : Settled cfg want s.view) (hpage : t.page = s.page)
    (hpages : t.pages = s.pages) (hb : t.kernel.bytes = s.kernel.bytes)
    (hm : ∀ x q, s.pages (x &&& hugePfnMask) = some q →
      t.kernel.mapping x = s.kernel.mapping x) : Settled cfg want t.view := by
  have hq : ∀ q, t.view.page q = s.view.page q := fun q => congrFun hpage q
  have hp : ∀ c, t.view.pages c = s.view.pages c := fun c => congrFun hpages c
  refine ⟨h.framed.congr (fun q => by rw [hq]) fun q => by rw [hq], fun q hqn hlive => ?_,
    fun c q hc => ?_, fun c q hc => ?_, fun c q hc => ?_, fun x q hx hqn => ?_,
    fun x q b hx hqn hw => ?_⟩
  · rw [hq] at hlive
    rw [hq, hp]
    exact h.found q hqn hlive
  · rw [hp] at hc
    rw [hq]
    exact h.va c q hc
  · rw [hp] at hc
    exact h.align c q hc
  · rw [hp] at hc
    rw [hq]
    exact h.live c q hc
  · rw [hp] at hx
    rw [hq]
    exact (hm x q hx).trans (h.mapped x q hx hqn)
  · rw [hp] at hx
    rw [hq, Kernel.byte]
    refine (congrFun (congrFun hb _) _).trans ?_
    exact h.held x q b hx hqn hw

theorem Settled.same {s t : State} (h : Settled cfg want s.view) (hpage : t.page = s.page)
    (hpages : t.pages = s.pages) (hk : t.kernel = s.kernel) : Settled cfg want t.view :=
  h.remapped hpage hpages (by rw [hk]) fun _ _ _ => by rw [hk]

/-- Nothing is seen to change but what the policy keeps to itself. -/
theorem Build.Holds.same {t : σ} (hs : B.Holds cfg I want s) (hI : I t)
    (ht : B.hemem t = B.hemem s) : B.Holds cfg I want t := by
  obtain ⟨-, hP, hw⟩ := hs
  refine ⟨hI, ?_, ?_⟩ <;> rw [ht]
  · exact hP
  · exact hw

namespace Build.Sound

variable (h : B.Sound cfg kernel I)
include h

theorem populatePage (hs : B.Holds cfg I want s) : Sat (B.populatePage a)
    (fun r t => B.Holds cfg I want t ∧ r = hugepageSize) (fun _ => True) s := by
  obtain ⟨hI, hP, hw⟩ := hs
  unfold Build.populatePage
  refine (h.pagefault s hI).bind fun p t ht => ?_
  obtain ⟨hIt, hp, hspare, hm⟩ := ht
  refine (h.onHemem _ _ t hIt mapPage_places).post fun r u hu => ?_
  obtain ⟨hIu, ha, hal, hn, hr, hpage, hpages, hk⟩ := hu
  have hpages' : (B.hemem t).pages = (B.hemem s).pages := hm.pages
  have hPu : Settled cfg want ((B.hemem t).view.populate p a) := by
    refine hP.populates (hm.populates (hP.framed.pt p) hal) hp hspare ?_ ha hal
      fun x hx => hw x ?_
    · change (B.hemem s).pages a = none
      rw [← hpages']
      exact hn
    · rw [hx, ← hpages']
      exact hn
  refine ⟨⟨hIu, ?_, fun x hx => hw x ?_⟩, ?_⟩
  · have hq : ∀ q, (B.hemem u).view.page q = ((B.hemem t).view.populate p a).page q :=
      fun q => congrFun hpage q
    exact hPu.congr (fun q => by rw [hq]) (fun q => by rw [hq]) (fun q => by rw [hq])
      (fun q => by rw [hq]) hpages hk
  · rw [hpages, View.populate] at hx
    dsimp only at hx
    rw [update_apply] at hx
    split at hx
    · cases hx
    · rw [← hpages']
      exact hx
  · have hpt : ((B.hemem t).page p).pt = .hugep := (hm.pt p).trans (hP.framed.pt p)
    rw [hr, hpt, ptToPagesize]

theorem populateLoop {stop : UInt64} : ∀ {turns : ℕ} {b : UInt64} {s : σ}, B.Holds cfg I want s →
    Sat (B.populateLoop stop turns b) (fun _ t => B.Holds cfg I want t) (fun _ => True) s
  | 0, _, _, hs => by
    unfold Build.populateLoop
    exact h.diverges hs.1
  | turns + 1, b, s, hs => by
    unfold Build.populateLoop
    rw [sat_ite]
    refine ⟨fun _ => ?_, fun _ => sat_pure.2 hs⟩
    exact (h.populatePage hs).bind fun r t ht => populateLoop ht.1

theorem hememMmapPopulate (hs : B.Holds cfg I want s) : Sat (B.hememMmapPopulate a length)
    (fun _ t => B.Holds cfg I want t) (fun _ => True) s := by
  unfold Build.hememMmapPopulate
  refine (h.check hs.1).bind fun _ t ht => ?_
  obtain ⟨⟨hIt, hhem⟩, -⟩ := ht
  have ht := hs.same hIt hhem
  refine (h.check hIt).bind fun _ u hu => ?_
  exact h.populateLoop (ht.same hu.1.1 hu.1.2)

theorem hememMmap {offset : UInt64} (hs : B.Holds cfg I want s)
    (hp : ∀ x, x - a < pageRoundUp length → (B.hemem s).pages (x &&& hugePfnMask) = none) :
    Sat (B.hememMmap cfg length offset a) (fun _ t => B.Holds cfg I want t) (fun _ => True) s := by
  unfold Build.hememMmap
  refine (h.check hs.1).bind fun _ t ht => ?_
  obtain ⟨⟨hIt, hhem⟩, -⟩ := ht
  have ht := hs.same hIt hhem
  dsimp only
  refine (h.check hIt).bind fun _ u hu => ?_
  obtain ⟨⟨hIu, hhem'⟩, -⟩ := hu
  have hu := ht.same hIu hhem'
  have hmap : Sat (onKernel (·.mmapFixed a (pageRoundUp length) .dram (offset + cfg.dramoffset)))
      (fun _ t => (t.pages = (B.hemem u).pages ∧ t.page = (B.hemem u).page ∧
        t.kernel = (B.hemem u).kernel.mmapFixed a (pageRoundUp length) .dram
          (offset + cfg.dramoffset)) ∧ t.page = (B.hemem u).page) (fun _ => True) (B.hemem u) := by
    rw [onKernel, sat_modify]
    exact ⟨⟨rfl, rfl, rfl⟩, rfl⟩
  refine (h.quiet hIu hmap).bind fun _ w hw => ?_
  obtain ⟨hIw, hpw, hpagew, hkw⟩ := hw
  have hpages : (B.hemem u).pages = (B.hemem s).pages := by rw [hhem', hhem]
  have hkeep : B.Holds cfg I want w := by
    refine ⟨hIw, hu.2.1.remapped hpagew hpw (by rw [hkw, Kernel.mmapFixed]) fun x q hq => ?_,
      fun x hx => hu.2.2 x ?_⟩
    · rw [hkw, Kernel.mmapFixed]
      dsimp only
      rw [if_neg]
      intro hx
      rw [hpages, hp x hx] at hq
      cases hq
    · rw [← hpw]
      exact hx
  refine (h.hememMmapPopulate hkeep).bind fun _ y hy => ?_
  have hset : Sat (modify ({ · with memMmaped := pageRoundUp length }) : M PUnit)
      (fun _ t => (t.pages = (B.hemem y).pages ∧ t.page = (B.hemem y).page ∧
        t.kernel = (B.hemem y).kernel) ∧ t.page = (B.hemem y).page) (fun _ => True)
      (B.hemem y) := by
    rw [sat_modify]
    exact ⟨⟨rfl, rfl, rfl⟩, rfl⟩
  refine (h.quiet hy.1 hset).bind fun _ z hz => sat_pure.2 ?_
  obtain ⟨hIz, hpz, hpagez, hkz⟩ := hz
  refine ⟨hIz, hy.2.1.same hpagez hpz hkz, fun x hx => hy.2.2 x ?_⟩
  rw [← hpz]
  exact hx

theorem handleMissingFault (hs : B.Holds cfg I want s) : Sat (B.handleMissingFault a)
    (fun _ t => B.Holds cfg I want t) (fun _ => True) s := by
  unfold Build.handleMissingFault
  refine (h.check hs.1).bind fun _ t ht => ?_
  exact (h.populatePage (hs.same ht.1.1 ht.1.2)).bind fun _ _ hu => hu.1

/-- A page found is tracked no longer, and its size is known. -/
theorem munmapPage (hI : I s) (hP : Settled cfg want (B.hemem s).view)
    (hp : (B.hemem s).pages a = some p) : Sat (B.munmapPage p) (fun r t => r = hugepageSize ∧
      I t ∧ Settled cfg want (B.hemem t).view ∧
      ∀ c, (B.hemem t).pages c = if c = a then none else (B.hemem s).pages c)
      (fun _ => True) s := by
  have hva : ((B.hemem s).page p).va = a := hP.va a p hp
  have hpt : ((B.hemem s).page p).pt = .hugep := hP.framed.pt p
  unfold Build.munmapPage
  have hremove : Sat (removePage p) (fun _ t => (t.page = (B.hemem s).page ∧
      t.kernel = (B.hemem s).kernel ∧ t.pages = update (B.hemem s).pages a none) ∧
        t.page = (B.hemem s).page) (fun _ => True) (B.hemem s) := by
    rw [removePage, sat_getPage, sat_modify, hva]
    exact ⟨⟨rfl, rfl, rfl⟩, rfl⟩
  refine (h.quiet hI hremove).bind fun _ t ht => ?_
  obtain ⟨hIt, hpage, hk, hpages⟩ := ht
  refine (h.mmgrRemove t p hIt).bind fun _ u hu => ?_
  obtain ⟨hIu, hm⟩ := hu
  have hq : ∀ q, (B.hemem t).view.page q = (B.hemem s).view.page q := fun q => congrFun hpage q
  have hPu : Settled cfg want (B.hemem u).view := by
    refine hP.release hp ⟨fun q => ?_, fun q => ?_, fun q => ?_, fun q => ?_, ?_, ?_⟩
    · exact (hm.frame q).trans (by rw [hq])
    · exact (hm.pt q).trans (by rw [hq])
    · exact (hm.va q).trans (by rw [hq])
    · exact (hm.present q).trans (by rw [hq])
    · refine (hm.pages.trans hpages).trans ?_
      rw [← hva]
      rfl
    · exact hm.kernel.trans hk
  have hcount : Sat (do
      let pagesize := ptToPagesize (← getPage p).pt
      modify fun s => { s with
        memAllocated := s.memAllocated - pagesize, memMmaped := s.memMmaped - pagesize }
      return pagesize : M UInt64) (fun r t => (r = hugepageSize ∧ t.page = (B.hemem u).page ∧
        t.pages = (B.hemem u).pages ∧ t.kernel = (B.hemem u).kernel) ∧ t.page = (B.hemem u).page)
      (fun _ => True) (B.hemem u) := by
    rw [sat_getPage, sat_bind, sat_modify, sat_pure]
    have hptu : ((B.hemem u).page p).pt = .hugep := hPu.framed.pt p
    rw [hptu]
    exact ⟨⟨rfl, rfl, rfl, rfl⟩, rfl⟩
  refine (h.quiet hIu hcount).post fun r w hw => ?_
  obtain ⟨hIw, hr, hpagew, hpagesw, hkw⟩ := hw
  refine ⟨hr, hIw, hPu.same hpagew hpagesw hkw, fun c => ?_⟩
  have hpu : (B.hemem u).pages = (B.hemem t).pages := hm.pages
  rw [hpagesw, hpu, hpages, update_apply]

/-- What the loop of `hemem_munmap` has passed is tracked no longer. -/
theorem munmapLoop {stop : UInt64} (hstop : stop.toNat % 2 ^ 21 = 0) :
    ∀ {turns : ℕ} {b : UInt64} {s : σ}, I s → Settled cfg want (B.hemem s).view →
    Clear (B.hemem s).pages a b → Sat (B.munmapLoop stop turns b) (fun _ t => I t ∧
      Settled cfg want (B.hemem t).view ∧ ∃ b, ¬ b < stop ∧ Clear (B.hemem t).pages a b)
      (fun _ => True) s
  | 0, _, _, hI, _, _ => by
    unfold Build.munmapLoop
    exact h.diverges hI
  | turns + 1, b, s, hI, hP, hb => by
    unfold Build.munmapLoop
    rw [sat_ite]
    refine ⟨fun hlt => ?_, fun hge => sat_pure.2 ⟨hI, hP, b, hge, hb⟩⟩
    have hltN := UInt64.lt_iff_toNat_lt.1 hlt
    have hstopN := stop.toNat_lt
    have hfind : Sat (findPage b) (fun r t => ((r = (B.hemem s).pages b) ∧ t = B.hemem s) ∧
        t.page = (B.hemem s).page) (fun _ => True) (B.hemem s) := by
      rw [findPage, sat_bind, sat_get, sat_pure]
      exact ⟨⟨rfl, rfl⟩, rfl⟩
    refine (h.quiet hI hfind).bind fun r t ht => ?_
    obtain ⟨hIt, hr, hhem⟩ := ht
    have hPt : Settled cfg want (B.hemem t).view := hhem.symm ▸ hP
    have hbt : Clear (B.hemem t).pages a b := hhem.symm ▸ hb
    rcases r with _ | p
    · dsimp only
      refine munmapLoop hstop hIt hPt (hbt.hole (by rw [hhem, ← hr]) ?_)
      have hmod := hb.1
      omega
    · dsimp only
      have hp : (B.hemem t).pages b = some p := by rw [hhem, ← hr]
      have hal := hPt.align b p hp
      refine (h.munmapPage hIt hPt hp).bind fun r u hu => ?_
      obtain ⟨rfl, hIu, hPu, hpages⟩ := hu
      refine munmapLoop hstop hIu hPu (hbt.page hpages hal ?_)
      rw [aligned_iff] at hal
      omega

theorem hememMunmap {unmaps : Bool} (hI : I s) (hP : Settled cfg want (B.hemem s).view)
    (ha : a % hugepageSize = 0) (hl : length % hugepageSize = 0)
    (hno : a.toNat + length.toNat < 2 ^ 64) : Sat (B.hememMunmap a length unmaps)
      (fun _ t => I t ∧ Settled cfg want (B.hemem t).view) (fun _ => True) s := by
  have hal := aligned_iff.1 ha
  have hll := aligned_iff.1 hl
  have hstop : (a + length).toNat % 2 ^ 21 = 0 := by
    rw [UInt64.toNat_add, Nat.mod_eq_of_lt hno]
    omega
  unfold Build.hememMunmap
  refine (h.munmapLoop (a := a) hstop hI hP (Clear.refl (by omega))).bind fun _ t ht => ?_
  obtain ⟨hIt, hPt, b, hb, hclear⟩ := ht
  rw [sat_ite]
  refine ⟨fun _ => ?_, fun _ => ⟨hIt, hPt⟩⟩
  have hunmap : Sat (onKernel (·.munmap a length)) (fun _ u => (u.page = (B.hemem t).page ∧
      u.pages = (B.hemem t).pages ∧ u.kernel = (B.hemem t).kernel.munmap a length) ∧
        u.page = (B.hemem t).page) (fun _ => True) (B.hemem t) := by
    rw [onKernel, sat_modify]
    exact ⟨⟨rfl, rfl, rfl⟩, rfl⟩
  refine (h.quiet hIt hunmap).post fun _ u hu => ?_
  obtain ⟨hIu, hpage, hpages, hk⟩ := hu
  refine ⟨hIu, hPt.remapped hpage hpages (by rw [hk, Kernel.munmap]) fun x q hq => ?_⟩
  rw [hk, munmap_mapping, if_neg (hclear.outside hb ha hno (by simp [hq]))]

theorem appWrite {b : UInt8} (hI : I s) (hP : Settled cfg want (B.hemem s).view)
    (hp : (B.hemem s).pages (x &&& hugePfnMask) = some p) (hn : p < cfg.pages) :
    Sat (B.onHemem (HeMem.appWrite x b)) (fun _ t => I t ∧
      Settled cfg (fun y => if y = x then some b else want y) (B.hemem t).view)
      (fun _ => True) s := by
  have hmap : (B.hemem s).kernel.mapping x = some (((B.hemem s).page p).pte (pageOffset x)) :=
    hP.mapped x p hp hn
  refine h.quiet (Q := fun _ t => Settled cfg (fun y => if y = x then some b else want y) t.view)
    hI ?_
  unfold HeMem.appWrite
  rw [sat_bind, sat_get, hmap]
  dsimp only
  rw [sat_bind, sat_check]
  refine ⟨fun _ => ?_, fun _ => trivial⟩
  rw [onKernel, sat_modify]
  exact ⟨hP.store hp hn, rfl⟩

/-- A call, or a step of the policy's threads, keeps what is held. -/
theorem run {c : BuildCall Θ} {written : UInt64 → Option UInt8} (hI : I s)
    (hP : Settled cfg written (B.hemem s).view) (hc : c.Tidy cfg (B.hemem s)) :
    Sat (c.run B cfg) (fun _ t => I t ∧
      Settled cfg (c.writes (B.hemem s) written) (B.hemem t).view) (fun _ => True) s := by
  -- nothing is wanted any more of what is not tracked
  have hholds : B.Holds cfg I
      (fun x => if (B.hemem s).pages (x &&& hugePfnMask) = none then none else written x) s := by
    refine ⟨hI, hP.wants fun x p b hp _ hb => ?_, fun x hx => if_pos hx⟩
    have hp : (B.hemem s).pages (x &&& hugePfnMask) = some p := hp
    simpa [hp] using hb
  cases c with
  | mmap length offset p =>
    exact (h.hememMmap hholds hc).bind fun _ t ht => sat_pure.2 ⟨ht.1, ht.2.1⟩
  | populate addr length => exact (h.hememMmapPopulate hholds).post fun _ t ht => ⟨ht.1, ht.2.1⟩
  | missingFault pageBoundry =>
    exact (h.handleMissingFault hholds).post fun _ t ht => ⟨ht.1, ht.2.1⟩
  | munmap addr length unmaps => exact h.hememMunmap hI hholds.2.1 hc.1 hc.2.1 hc.2.2
  | write addr byte =>
    obtain ⟨p, hp, hn⟩ := hc
    exact h.appWrite hI hP hp hn
  | thread step =>
    exact (h.thread s step hI).post fun _ t ht => ⟨ht.1, hholds.2.1.relocated ht.2⟩

theorem hememInit : Sat (B.hememInit cfg) (fun _ s => (I s ∧
    Settled cfg (fun _ => none) (B.hemem s).view) ∧ ∀ a p, (B.hemem s).pages a = some p → a = 0)
    (fun _ => True) (B.blank kernel) := by
  unfold Build.hememInit
  refine h.pagingInit.bind fun _ s hs => ?_
  obtain ⟨hI, hF, hpage, hpages⟩ := hs
  have hadd : Sat (addPage (dummyPage cfg)) (fun _ t => (t.page = (B.hemem s).page ∧
      t.pages = update (fun _ => none) 0 (some (dummyPage cfg))) ∧ t.page = (B.hemem s).page)
      (fun _ => True) (B.hemem s) := by
    rw [addPage, sat_getPage, sat_bind, sat_get, sat_bind, sat_check]
    refine ⟨fun _ => ?_, fun _ => trivial⟩
    rw [sat_modify, (hpage _).2, funext hpages]
    exact ⟨⟨rfl, rfl⟩, rfl⟩
  refine (h.quiet hI hadd).post fun _ t ht => ?_
  obtain ⟨hIt, hpaget, hpagest⟩ := ht
  have hq : ∀ q, (B.hemem t).view.page q = (B.hemem s).view.page q := fun q => congrFun hpaget q
  have hpages' : ∀ c q, (B.hemem t).view.pages c = some q → c = 0 ∧ q = cfg.pages := by
    intro c q hc
    have hc : (B.hemem t).pages c = some q := hc
    rw [hpagest, update_apply] at hc
    split at hc
    · rename_i h0
      exact ⟨h0, (Option.some.inj hc).symm⟩
    · cases hc
  have hnone : ∀ {c q}, (B.hemem t).view.pages c = some q → ¬ q < cfg.pages := by
    intro c q hc
    rw [(hpages' c q hc).2]
    exact Nat.lt_irrefl _
  refine ⟨⟨hIt, hF.congr (fun q => by rw [hq]) fun q => by rw [hq], ?_, ?_, ?_, ?_, ?_, ?_⟩,
    fun c q hc => (hpages' c q hc).1⟩
  · intro q _ hlive
    rw [hq] at hlive
    have hspare : ((B.hemem s).view.page q).present = false := (hpage q).1
    rw [hspare] at hlive
    cases hlive
  · intro c q hc
    rw [hq, (hpages' c q hc).1]
    exact (hpage q).2
  · intro c q hc
    rw [(hpages' c q hc).1]
    decide
  · exact fun c q hc => .inr (hpages' c q hc)
  · exact fun x q hx hqn => absurd hqn (hnone hx)
  · exact fun x q b hx hqn => absurd hqn (hnone hx)

/-- Over a sound policy, what was written is where the page structs say, in every run. -/
theorem reach {m : BuildMemory σ}
    (hm : (B.system cfg kernel).Reach (fun m c => c.Tidy cfg (B.hemem m.state)) m) :
    I m.state ∧ Settled cfg m.written (B.hemem m.state).view := by
  refine hm.invariant (I := fun m => I m.state ∧ Settled cfg m.written (B.hemem m.state).view)
    (fun m hm => ?_) fun m c m' hI hc hs => ?_
  · rw [hm.2]
    exact (h.hememInit.ok hm.1).1
  · rw [hs.2]
    exact (h.run hI.1 hI.2 hc).ok hs.1

/-- A first region away from address zero may be mapped. -/
theorem tidy_initial {m : BuildMemory σ} {o : UInt64} (hm : (B.system cfg kernel).init m)
    (ha : hugepageSize ≤ a) (hl : a.toNat + (pageRoundUp length).toNat ≤ 2 ^ 64) :
    (BuildCall.mmap length o a : BuildCall Θ).Tidy cfg (B.hemem m.state) := by
  intro x hx
  by_contra hne
  obtain ⟨p, hp⟩ := Option.ne_none_iff_exists'.1 hne
  have hzero := (h.hememInit.ok hm.1).2 _ p hp
  have hsize : hugepageSize.toNat = 2 ^ 21 := by decide
  rw [UInt64.le_iff_toNat_le, hsize] at ha
  rw [UInt64.lt_iff_toNat_lt, UInt64.toNat_sub] at hx
  rw [← UInt64.toNat_inj, toNat_and_hugePfnMask, UInt64.toNat_zero] at hzero
  have hxl := x.toNat_lt
  have hal := a.toNat_lt
  omega

end Build.Sound

/-- What the application sees of memory that is placed. -/
theorem Settled.sees {s : State} (h : Settled cfg want s.view) :
    (∀ va p, s.pages va = some p → va ≠ 0 → ∀ x, x &&& hugePfnMask = va →
      s.kernel.mapping x = some ((s.page p).pte (x - va))) ∧
    (∀ va va' p p', s.pages va = some p → s.pages va' = some p' → va ≠ 0 → va' ≠ 0 → va ≠ va' →
      (s.page p).frame ≠ (s.page p').frame) ∧
    ∀ x b, x &&& hugePfnMask ≠ 0 → s.pages (x &&& hugePfnMask) ≠ none → want x = some b →
      s.kernel.load x = some b := by
  have hlive : ∀ va p, s.pages va = some p → va ≠ 0 → p < cfg.pages := by
    intro va p hp h0
    rcases h.live va p hp with ⟨-, hn, -⟩ | ⟨hva, -⟩
    · exact hn
    · exact absurd hva h0
  refine ⟨fun va p hp h0 x hx => ?_, fun va va' p p' hp hp' h0 h0' hne hf => ?_,
    fun x b h0 hx hb => ?_⟩
  · subst hx
    exact h.mapped x p hp (hlive _ p hp h0)
  · have heq := h.framed.bij.injOn (hlive va p hp h0) (hlive va' p' hp' h0') hf
    subst heq
    exact hne ((h.va va p hp).symm.trans (h.va va' p hp'))
  · obtain ⟨p, hp⟩ := Option.ne_none_iff_exists'.1 hx
    have hmap : s.kernel.mapping x = some ((s.page p).pte (pageOffset x)) :=
      h.mapped x p hp (hlive _ p hp h0)
    rw [Kernel.load, hmap, Option.map_some, Option.some.injEq]
    exact h.held x p b hp (hlive _ p hp h0) hb

end Calls

section Pebs

theorem pebsBuild_populateLoop {stop : UInt64} : ∀ {turns : ℕ} {b : UInt64},
    (pebsBuild cfg).populateLoop stop turns b = populateLoop cfg stop turns b
  | 0, _ => rfl
  | turns + 1, b => by
    unfold Build.populateLoop populateLoop
    simp only [pebsBuild_populateLoop]
    rfl

theorem pebsBuild_munmapLoop {stop : UInt64} : ∀ {turns : ℕ} {b : UInt64},
    (pebsBuild cfg).munmapLoop stop turns b = munmapLoop stop turns b
  | 0, _ => rfl
  | turns + 1, b => by
    unfold Build.munmapLoop munmapLoop
    simp only [pebsBuild_munmapLoop]
    rfl

theorem pebsBuild_hememMmapPopulate {length : UInt64} :
    (pebsBuild cfg).hememMmapPopulate a length = hememMmapPopulate cfg a length := by
  unfold Build.hememMmapPopulate hememMmapPopulate
  rw [pebsBuild_populateLoop]
  rfl

theorem pebsBuild_hememMmap {length offset : UInt64} :
    (pebsBuild cfg).hememMmap cfg length offset a = hememMmap cfg length offset a := by
  unfold Build.hememMmap hememMmap
  dsimp only
  rw [pebsBuild_hememMmapPopulate]
  rfl

theorem pebsBuild_hememMunmap {length : UInt64} {unmaps : Bool} :
    (pebsBuild cfg).hememMunmap a length unmaps = hememMunmap a length unmaps := by
  unfold Build.hememMunmap hememMunmap
  rw [pebsBuild_munmapLoop]
  rfl

/-- `hemem.c` over `pebs.c`, without hints, is the `hemem.c` of `Call.run`. -/
theorem pebsBuild_run {c : Call} {c' : BuildCall PebsStep} (h : c.build = some c') :
    c'.run (pebsBuild cfg) cfg = c.run cfg := by
  cases c with
  | hint tier persistence priority => cases h
  | mmap length offset p =>
    cases h
    exact congrArg (· >>= fun _ => pure ()) pebsBuild_hememMmap
  | populate addr length =>
    cases h
    exact pebsBuild_hememMmapPopulate
  | munmap addr length unmaps =>
    cases h
    exact pebsBuild_hememMunmap
  | _ =>
    cases h
    rfl

end Pebs

end HeMem

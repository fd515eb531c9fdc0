import HeMem.Proofs.Allocate
import HeMem.Run

/-!
# What holds in every reachable state

The state `pebs_init` leaves and the effect of each operation, from above.  A property of views
that the moves, the removal, the sampler and the handing out of a free page keep (`Kept`) holds
in every state of every run, and an operation that aborts does so in a view that has it.
-/

namespace HeMem

open Hoare Function

variable {cfg : Config} {A : Allow} {kernel : Kernel} {v w : View} {p : PageId}

section Init

/-- The page struct `pebs_init` makes for frame `i` of a tier. -/
def initPage (cfg : Config) (dram : Bool) (i : ℕ) : HememPage :=
  { devdaxOffset := UInt64.ofNat i * pageSize + cfg.offset dram, inDram := dram }

/-- What `pebs_init` leaves, from above. -/
def View.initial (cfg : Config) (kernel : Kernel) : View where
  list (p : ℕ) := if p < cfg.count true then some .dramFree
    else if p < cfg.pages then some .nvmFree else none
  page (p : ℕ) := if p < cfg.count true then initPage cfg true p
    else if p < cfg.pages then initPage cfg false (p - cfg.count true) else {}
  requests _ := []
  free := []
  cur _ := none
  pages _ := none
  kernel := kernel
  calls := []
  priority := 0

theorem initFrames_sat {dram : Bool} {first : ℕ} : ∀ {n : ℕ} {s : State}, s.fifo.Wf →
    (∀ x : ℕ, first ≤ x → s.fifo.listOf x = none) → Sat (initFrames cfg dram first n)
      (fun _ s' => s'.fifo.Wf ∧
        (∀ x : ℕ, s'.fifo.listOf x = if first ≤ x ∧ x < first + n then some (freeList dram)
          else s.fifo.listOf x) ∧
        (∀ x : ℕ, s'.page x = if first ≤ x ∧ x < first + n then initPage cfg dram (x - first)
          else s.page x) ∧ s' = { s with fifo := s'.fifo, page := s'.page }) (fun _ => False) s
  | 0, s, hw, _ => by
    refine ⟨hw, fun x => ?_, fun x => ?_, rfl⟩ <;> rw [if_neg (by omega)]
  | n + 1, s, hw, hn => by
    unfold initFrames
    refine (initFrames_sat hw hn).bind fun _ s' ⟨hw', hl, hp, hs'⟩ => ?_
    have hnone : s'.fifo.listOf (first + n) = none := by
      rw [hl, if_neg (by omega)]
      exact hn _ (by omega)
    obtain ⟨h', he, hw'', hl'⟩ := hw'.enqueue (q := freeList dram) hnone
    rw [modifyPage, sat_bind, sat_modify]
    refine (sat_onFifo (by exact he)).2 ⟨hw'', fun x => ?_, fun x => ?_, by rw [hs']⟩
    · rcases eq_or_ne x (first + n) with rfl | hx
      · simp [hl']
      · simp only [hl', update_of_ne hx, hl]
        congr 1
        rw [eq_iff_iff]
        omega
    · rcases eq_or_ne x (first + n) with rfl | hx
      · simp [initPage]
      · simp only [update_of_ne hx, hp]
        congr 1
        rw [eq_iff_iff]
        omega

theorem initRing_sat {s : State} : Sat initRing (fun r s' => s' = s ∧ r.Wf ∧ r.entries = [] ∧
    r.capacity = ringCapacity) (fun _ => False) s := by
  obtain ⟨r, hr, h⟩ := ringBufInit_wf (b := fun _ : ℕ => (0 : PageId)) (n := ringCapacity)
    (by decide)
  unfold initRing
  rw [hr]
  exact ⟨rfl, h⟩

theorem pebsInit_sat : Sat (pebsInit cfg)
    (fun _ s => s.Good ∧ s.view = View.initial cfg kernel) (fun _ => False)
    (State.blank kernel) := by
  unfold pebsInit
  refine (initFrames_sat ⟨_, Rep.empty⟩ fun _ _ => rfl).bind fun _ s₁ ⟨hw₁, hl₁, hp₁, hs₁⟩ => ?_
  have hnone : ∀ x : ℕ, cfg.count true ≤ x → s₁.fifo.listOf x = none := fun x hx => by
    rw [hl₁, if_neg (by omega)]
    rfl
  refine (initFrames_sat hw₁ hnone).bind fun _ s₂ ⟨hw₂, hl₂, hp₂, hs₂⟩ => ?_
  refine initRing_sat.bind fun r₁ s ⟨hs, hr₁⟩ => sat_bind.2 (sat_modify.2 ?_)
  refine initRing_sat.bind fun r₂ s' ⟨hs', hr₂⟩ => sat_bind.2 (sat_modify.2 ?_)
  refine initRing_sat.bind fun r₃ s'' ⟨hs'', hr₃⟩ => sat_modify.2 ?_
  subst hs hs' hs''
  constructor
  · refine ⟨hw₂, fun hot => ?_, hr₃.1⟩
    cases hot
    · exact hr₂.1
    · exact hr₁.1
  have hlist : s.fifo.listOf = (View.initial cfg kernel).list := by
    funext (x : ℕ)
    rw [hl₂, hl₁]
    simp only [View.initial, Config.pages, freeList]
    by_cases h : x < cfg.count true
    · rw [if_neg (by omega), if_pos (by omega), if_pos h]
      rfl
    · rw [if_neg (by omega : ¬ (0 ≤ x ∧ x < 0 + cfg.count true)), if_neg h]
      congr 1
      rw [eq_iff_iff]
      omega
  have hpage : s.page = (View.initial cfg kernel).page := by
    funext (x : ℕ)
    rw [hp₂, hp₁]
    simp only [View.initial, Config.pages]
    by_cases h : x < cfg.count true
    · rw [if_neg (by omega), if_pos (by omega), if_pos h]
      rfl
    · rw [if_neg (by omega : ¬ (0 ≤ x ∧ x < 0 + cfg.count true)), if_neg h]
      congr 1
      rw [eq_iff_iff]
      omega
  have hreq : ∀ hot : Bool, (if hot then r₁ else r₂).entries = [] := by
    rintro (_ | _)
    · exact hr₂.2.1
    · exact hr₁.2.1
  have hreq : (fun hot : Bool => (if hot then r₁ else r₂).entries) = fun _ => [] := funext hreq
  have hs : s = { State.blank kernel with fifo := s.fifo, page := s.page } :=
    hs₂.trans (by rw [hs₁])
  have hcur : State.cur { s with hotRing := r₁, coldRing := r₂, freePageRing := r₃ } =
      fun _ => none := by
    rw [hs]
    funext dram
    cases dram <;> rfl
  have hview : State.view { s with hotRing := r₁, coldRing := r₂, freePageRing := r₃ } =
      { View.initial cfg kernel with
        list := s.fifo.listOf
        page := s.page
        requests := fun hot => (if hot then r₁ else r₂).entries
        free := r₃.entries
        cur := State.cur { s with hotRing := r₁, coldRing := r₂, freePageRing := r₃ } } := by
    rw [hs]
    rfl
  refine hview.trans ?_
  rw [hcur, hreq, hlist, hpage, hr₃.2.1]
  rfl

end Init

section Runs

/-- Which steps a run may take that goes through no defect but those `A` allows. -/
def Op.Within (cfg : Config) (A : Allow) (s : State) (op : Op) : Prop :=
  op.Legal cfg s ∧ (A.hint ∨ op.Unhinted s) ∧ (A.skip ∨ op.MeetsNone cfg s) ∧
    (A.stale ∨ op.NoStale s) ∧ (A.hotFault ∨ op.NoHotFault s) ∧ (A.drop ∨ op.NoDrop s)

/-- What each operation does to a view. -/
inductive Effect (A : Allow) (v : View) : Op → View → Prop
  | hint (tier persistence priority : ℤ) :
      Effect A v (.hint tier persistence priority) (v.setPriority priority)
  | allocate {p : PageId} {dram : Bool} (hf : Free v p dram) :
      Effect A v .allocate (v.alloc p (coldList dram) (v.page p).enforced)
  | fault {p : PageId} {w : View} (hf : Faulted A v p w) : Effect A v .fault w
  | assign (page : PageId) (va : UInt64) :
      Effect A v (.assign page va) (v.edit page ({ · with va := va }))
  | remove (page : PageId) : Effect A v (.remove page) (v.remove page)
  | sample (j : PbufType) {page : PageId} {w : View} (hs : Sampled v page w) :
      Effect A v (.sample j page) w
  | pass {w : View} (hm : Moves A v w) : Effect A v .pass w

/-- An operation has its effect, or aborts in a view the policy thread's moves lead to. -/
theorem Op.run_effect {s : State} {op : Op} (hg : s.Good) (hw : op.Within cfg A s) :
    Sat (op.run cfg) (fun _ s' => s'.Good ∧ Effect A s.view op s'.view)
      (fun e => Doomed cfg A s.view e ∨ e = .waits ∧ ∃ page, op = .remove page) s := by
  obtain ⟨-, hi, hs, hst, hh, hd⟩ := hw
  cases op with
  | hint tier persistence priority =>
    exact ⟨⟨hg.fifo, hg.requests, hg.free⟩, .hint tier persistence priority⟩
  | allocate =>
    refine ((pebsAllocatePage_spec.at hg rfl).mono (fun _ _ => id)
      fun e he => .inl (Fails.doomed he)).bind fun p s' ⟨hg', dram, hf, hv'⟩ => ⟨hg', ?_⟩
    rw [hv']
    exact .allocate hf
  | fault =>
    exact ((pebsPagefault_sat hg hi hs hst hh).mono (fun _ _ => id) fun _ => .inl).bind
      fun p s' ⟨hg', hf⟩ => ⟨hg', .fault hf⟩
  | assign page va => exact ⟨⟨hg.fifo, hg.requests, hg.free⟩, .assign page va⟩
  | remove page =>
    refine (pebsRemovePage_spec.at hg rfl).mono (fun _ s' ⟨hg', hv'⟩ => ⟨hg', ?_⟩)
      fun _ he => .inr ⟨he, page, rfl⟩
    rw [hv']
    exact .remove page
  | sample j page =>
    exact (samplePage_spec.at hg rfl).mono (fun _ s' ⟨hg', hs'⟩ => ⟨hg', .sample j hs'⟩)
      fun _ => False.elim
  | pass =>
    exact (pebsPolicyPass_sat hg hs hd).mono (fun _ s' h => ⟨h.1, .pass h.2.1⟩) fun _ => .inl

/-- A property of views that every operation keeps. -/
structure Kept (cfg : Config) (A : Allow) (I : View → Prop) : Prop where
  move {v w : View} (h : I v) (hm : Move A v w) : I w
  alloc {v : View} {p : PageId} {dram : Bool} {q : ListId} {e : Bool} (h : I v)
    (hf : Free v p dram) (hq : q = coldList dram ∨ q = .dramHot ∧ dram = true ∧ A.hotFault)
    (he : A.hint ∨ e = (v.page p).enforced) :
    I (v.alloc p q e)
  priority {v : View} {n : ℤ} (h : I v) : I (v.setPriority n)
  assign {v : View} {p : PageId} {va : UInt64} (h : I v) (hp : p < cfg.pages)
    (hva : va ≠ 0) (hal : va % hugepageSize = 0) : I (v.edit p ({ · with va := va }))
  remove {v : View} {p : PageId} (h : I v) (hp : p < cfg.pages)
    (hpr : (v.page p).present = true) : I (v.remove p)
  sample {v w : View} {p : PageId} (h : I v) (hp : p < cfg.pages) (hs : Sampled v p w) : I w

variable {I : View → Prop}

theorem Kept.moves (hk : Kept cfg A I) (h : I v) (hm : Moves A v w) : I w :=
  hm.invariant h fun _ _ => hk.move

theorem Kept.faulted (hk : Kept cfg A I) (h : I v) (hf : Faulted A v p w) : I w := by
  obtain ⟨v₁, hm, ⟨dram, rfl, hf, rfl⟩ | ⟨hi, q, e, hf, hq, rfl⟩⟩ := hf
  · exact hk.alloc h hf (.inl rfl) (.inr rfl)
  · refine hk.priority (hk.alloc (hk.moves h hm) hf ?_ (.inl hi))
    exact hq.imp_right fun h => ⟨h.1, rfl, h.2⟩

theorem Kept.effect (hk : Kept cfg A I) {s : State} {op : Op} (hI : I v) (hl : op.Legal cfg s)
    (hv : s.view = v) (he : Effect A v op w) : I w := by
  subst hv
  cases he with
  | hint tier persistence priority => exact hk.priority hI
  | allocate hf => exact hk.alloc hI hf (.inl rfl) (.inr rfl)
  | fault hf => exact hk.faulted hI hf
  | assign page va => exact hk.assign hI hl.1 hl.2.1 hl.2.2
  | remove page => exact hk.remove hI hl.1 hl.2
  | sample j hs => exact hk.sample hI hl hs
  | pass hm => exact hk.moves hI hm

/-- An operation keeps what is kept, and aborts only in a view that has it. -/
theorem Kept.run (hk : Kept cfg A I) {s : State} {op : Op} (hg : s.Good) (hI : I s.view)
    (hw : op.Within cfg A s) : Sat (op.run cfg) (fun _ s' => s'.Good ∧ I s'.view)
      (fun e => (∃ v, Moves A s.view v ∧ I v ∧ Fails cfg v e) ∨
        e = .waits ∧ ∃ page, op = .remove page) s :=
  (Op.run_effect hg hw).mono (fun _ _ ⟨hg', he⟩ => ⟨hg', hk.effect hI hw.1 rfl he⟩)
    fun _ he => he.imp_left fun ⟨v, hm, hf⟩ => ⟨v, hm, hk.moves hI hm, hf⟩

theorem Kept.reach (hk : Kept cfg A I) (hi : I (View.initial cfg kernel)) {s : State}
    (h : (policy cfg kernel).Reach (Op.Within cfg A) s) : s.Good ∧ I s.view := by
  refine h.invariant (I := fun s => s.Good ∧ I s.view) (fun s hs => ?_)
    fun s op s' ⟨hg, hI⟩ hc hs => (hk.run hg hI hc).ok hs
  obtain ⟨hg, hv⟩ := pebsInit_sat.ok hs
  exact ⟨hg, hv ▸ hi⟩

/-- From a reachable state, an operation aborts only in a view that has what is kept. -/
theorem Kept.error (hk : Kept cfg A I) (hi : I (View.initial cfg kernel)) {s : State} {op : Op}
    {e : Abort} (h : (policy cfg kernel).Reach (Op.Within cfg A) s) (hc : op.Within cfg A s)
    (he : op.run cfg s = .error e) : (∃ v, I v ∧ Fails cfg v e) ∨ e = .waits := by
  obtain ⟨hg, hI⟩ := hk.reach hi h
  rcases (hk.run hg hI hc).error he with ⟨v, -, hv⟩ | ⟨hw, -⟩
  · exact .inl ⟨v, hv⟩
  · exact .inr hw

/-- An execution is a run, under any condition its operations meet. -/
theorem execute_reach {C : State → Op → Prop} : ∀ {ops : List Op} {s t : State},
    (∀ op ∈ ops, ∀ s, op.Legal cfg s → C s op) → (policy cfg kernel).Reach C s →
      execute cfg ops s = some t → (policy cfg kernel).Reach C t
  | [], s, t, _, h, he => by
    cases he
    exact h
  | op :: ops, s, t, hC, h, he => by
    unfold execute at he
    split at he
    · rename_i hl
      split at he
      · rename_i s' hr
        exact execute_reach (fun o ho => hC o (List.mem_cons_of_mem _ ho))
          (h.step (hC op List.mem_cons_self s hl) hr) he
      · cases he
    · cases he

variable (cfg kernel) in
/-- A property of the state an execution ends in holds of a state reached. -/
theorem boot_reach {C : State → Op → Prop} (ops : List Op) (P : State → Bool)
    (hC : ∀ op ∈ ops, ∀ s, op.Legal cfg s → C s op) (h : (boot cfg kernel ops).any P = true) :
    ∃ s, (policy cfg kernel).Reach C s ∧ P s = true := by
  obtain ⟨s, hs, hP⟩ := (Option.any_eq_true P _).1 h
  unfold boot at hs
  split at hs
  · rename_i s₀ h₀
    exact ⟨s, execute_reach hC (.init h₀) hs, hP⟩
  · cases hs

theorem policy_next {s s' : State} {op : Op} (h : op.next cfg s = some s') :
    (policy cfg kernel).step s op s' := by
  obtain ⟨r, hr, rfl⟩ := Option.map_eq_some_iff.1 h
  exact toOption_eq_some.1 hr

variable (cfg kernel) in
/-- What operations that meet a condition lead to is reached. -/
theorem policy_reach {C : State → Op → Prop} (D : State → Op → Prop) [∀ s, DecidablePred (D s)]
    (hC : ∀ s op, D s op → C s op) (ops : List Op) (P : State → Bool)
    (h : ((pebsInit cfg (State.blank kernel)).toOption.bind fun r =>
      System.drive (Op.next cfg · ·) D ops r.2).any P = true) :
    ∃ s, (policy cfg kernel).Reach C s ∧ P s = true := by
  obtain ⟨s, hs, hP⟩ := (Option.any_eq_true P _).1 h
  obtain ⟨r, hr, hs⟩ := Option.bind_eq_some_iff.1 hs
  have hinit : (policy cfg kernel).Reach C r.2 := .init (toOption_eq_some.1 hr)
  exact ⟨s, hinit.drive (fun _ _ _ => policy_next) hC hs, hP⟩

end Runs

end HeMem

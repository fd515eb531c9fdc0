import HeMem.LruSwap
import HeMem.Proofs.Scan

/-!
# When the build with `LRU_SWAP` finds room in DRAM

The page that moves down is the last inactive one.  If there is none, the scan of the active list
makes those inactive that have not been accessed, so the page is the last active one of these.
-/

namespace HeMem

open Hoare Function

variable {cfg : Config} {kernel : Kernel} {s t : LruState} {p np : PageId} {q : LruList}
  {bits : PageId → UInt64} {n : ℕ}

section Moving

/-- A page without an address is not moved. -/
theorem lruExchange_va {up : Bool} : Sat (lruExchange cfg up p np)
    (fun _ _ => (s.page p).va ≠ 0) (fun _ => True) s := by
  have hswap : Sat (lruSwapFrames cfg up p np) (fun _ _ => (s.page p).va ≠ 0) (fun _ => True)
      s.hemem := by
    have hdir : (if up then lruMigrateUp cfg else lruMigrateDown cfg) = lruMigrate cfg up := by
      cases up <;> rfl
    unfold lruSwapFrames
    rw [sat_getPage, sat_getPage, hdir, sat_bind]
    unfold lruMigrate hememWpPage
    rw [sat_modifyPage, sat_bind, sat_getPage, sat_bind, sat_check]
    refine ⟨fun hva => ?_, fun _ => trivial⟩
    have hva' : (s.page p).va ≠ 0 := by simpa using hva
    exact sat_true.post fun _ _ _ => sat_true.post fun _ _ _ => sat_true.post fun _ _ _ => hva'
  unfold lruExchange
  rw [sat_bind, sat_onHemem]
  refine (hswap.mono (fun _ _ => id) fun _ _ => trivial).post fun _ h hva => ?_
  exact sat_true.post fun _ _ _ => hva

/-- The last inactive page moves down, if there is one with an address. -/
theorem swapDown_sat (h : s.Ok cfg) (hn : ∃ np, s.fifo.listOf np = some .nvmFreeList) :
    Sat (swapDown cfg) (fun _ t => t.Ok cfg ∧ (∃ x, t.fifo.listOf x = some .dramFreeList) ∧
        ∃ cp, (s.fifo.contents .inactiveList).getLast? = some cp ∧ (s.page cp).va ≠ 0)
      (fun _ => ¬ ∃ cp, (s.fifo.contents .inactiveList).getLast? = some cp ∧ (s.page cp).va ≠ 0)
      s := by
  obtain ⟨np, hn⟩ := hn
  unfold swapDown
  rw [sat_bind]
  rcases h.1.dequeue .inactiveList with ⟨he, hc, -⟩ | ⟨cp, h', he, hw', hc, hcp, hl, -⟩
  · rw [sat_onLists he]
    refine (sat_dequeue h.1).bind fun r t hr => ?_
    rcases hr with ⟨rfl, rfl, hno⟩ | ⟨x, h'', rfl, -, -, -, rfl⟩
    · exact absurd hn (hno np)
    · rw [hc]
      exact fun ⟨cp, hcp, _⟩ => nomatch hcp
  · rw [sat_onLists he]
    have hlast : (s.fifo.contents .inactiveList).getLast? = some cp := by
      rw [hc, List.getLast?_concat]
    refine (sat_dequeue (s := { s with fifo := h' }) hw').bind fun r t hr => ?_
    rcases hr with ⟨rfl, rfl, hno⟩ | ⟨x, h'', rfl, hw'', hx, hl', rfl⟩
    · have hne : np ≠ cp := by
        rintro rfl
        rw [hn] at hcp
        cases hcp
      refine absurd ?_ (hno np)
      change h'.listOf np = _
      rw [hl, update_of_ne hne]
      exact hn
    have hx : h'.listOf x = some .nvmFreeList := hx
    have hl' : h''.listOf = update h'.listOf x none := hl'
    have hne : cp ≠ x := by
      rintro rfl
      rw [hl, update_self] at hx
      cases hx
    have hxs : s.fifo.listOf x = some (lruFreeList false) := by
      rwa [hl, update_of_ne hne.symm] at hx
    have hoff : h''.listOf cp = none := by rw [hl', update_of_ne hne, hl, update_self]
    have hmove := (lruExchange_sat (s := { s with fifo := h'' }) (u := false) hw'' h.2 hcp rfl hxs
      hoff (by rw [hl', update_self]) hne).and lruExchange_va
    refine hmove.mono (fun _ t ⟨⟨hwt, hpage, hlt⟩, hva⟩ => ?_) fun e he => ?_
    · refine ⟨⟨hwt, ?_⟩, ⟨x, ?_⟩, cp, hlast, hva⟩
      · have hlist : t.fifo.listOf = update (update s.fifo.listOf cp (some (movedList false))) x
            (some (lruFreeList !false)) := by
          rw [hlt]
          change update (update h''.listOf _ _) _ _ = _
          rw [hl', hl]
          funext y
          simp only [update_apply]
          split_ifs <;> rfl
        rw [hlist, hpage]
        exact h.2.swap hcp rfl rfl hxs
      · rw [hlt, update_self]
        rfl
    · rintro ⟨cp', hcp', hva⟩
      rw [hlast] at hcp'
      cases hcp'
      exact hva he.2

/-- A free page of DRAM is taken. -/
theorem lruSwapTries_free (h : s.Ok cfg) (hn : ∃ x, s.fifo.listOf x = some .dramFreeList) :
    Sat (lruSwapTries cfg bits (n + 1)) (fun p t => t.Ok cfg ∧ (t.page p).inDram = true ∧
      (t.page p).present = true) (fun _ => False) s := by
  obtain ⟨x, hx⟩ := hn
  unfold lruSwapTries
  refine (sat_dequeue h.1).bind fun r t hr => ?_
  rcases hr with ⟨rfl, rfl, hno⟩ | ⟨p, h', rfl, hw, hp, hl, rfl⟩
  · exact absurd hx (hno x)
  have hP := h.2.at hp
  dsimp only
  rw [sat_bind, sat_get, sat_bind, sat_check]
  refine ⟨fun hin => ?_, fun hn => absurd (hP.tier _ rfl) hn⟩
  rw [sat_bind, sat_get, sat_bind, sat_check]
  refine ⟨fun _ => ?_, fun hn => absurd (hP.present _ rfl) hn⟩
  rw [sat_editPage]
  refine (sat_enqueue (by exact hw) (by simp [hl])).bind fun _ t ⟨h'', hw', hl', ht⟩ => ?_
  subst ht
  have hlist : h''.listOf = update s.fifo.listOf p (some .activeList) := by
    rw [hl', edit_fifo, hl, update_idem]
  have hmark : LruInv cfg (update s.fifo.listOf p (some .activeList)) (update s.page p
      { s.page p with present := true }) := h.2.mark hp rfl
  refine ⟨⟨hw', hlist ▸ hmark⟩, ?_, ?_⟩
  · change (update s.page p { s.page p with present := true } p).inDram = true
    rw [update_self]
    exact hin
  · change (update s.page p { s.page p with present := true } p).present = true
    rw [update_self]

end Moving

section Victim

/-- Of the pages that a scan of the active list makes inactive, the last is the victim. -/
theorem shrinkCaches_victim (h : s.Ok cfg) (hempty : s.fifo.contents .inactiveList = []) :
    Sat (shrinkCaches bits .activeList .inactiveList .writtenList)
      (fun _ u => u.Ok cfg ∧ u.hemem = s.hemem ∧
        (u.fifo.contents .inactiveList).getLast? = s.victim bits ∧
        u.fifo.contents .nvmFreeList = s.fifo.contents .nvmFreeList ∧
        ((s.fifo.contents .activeList).filter fun p => accessed (bits p)).length ≤
          maxVas - s.vas.length)
      (fun _ => maxVas - s.vas.length <
        ((s.fifo.contents .activeList).filter fun p => accessed (bits p)).length) s := by
  have hnoted : ∀ p, (Sweep.shrinkCaches.verdict true (accessed (bits p)) (dirty (bits p))
      (s.naccesses p)).noted = accessed (bits p) := fun p => by
    unfold Sweep.verdict
    cases accessed (bits p) <;> cases dirty (bits p) <;> rfl
  have hlist : ∀ p, decide ((Sweep.shrinkCaches.verdict true (accessed (bits p)) (dirty (bits p))
      (s.naccesses p)).list = .inactiveList) = !accessed (bits p) := fun p => by
    unfold Sweep.verdict
    cases accessed (bits p) <;> cases dirty (bits p) <;> rfl
  have hfree : ∀ p, decide ((Sweep.shrinkCaches.verdict true (accessed (bits p)) (dirty (bits p))
      (s.naccesses p)).list = .nvmFreeList) = false := fun p => by
    unfold Sweep.verdict
    cases accessed (bits p) <;> cases dirty (bits p) <;> rfl
  have ho : OneTier .activeList .inactiveList .writtenList := ⟨rfl, rfl, rfl, rfl, rfl⟩
  have hswept : Sat (shrinkCaches bits .activeList .inactiveList .writtenList) _ _ s :=
    @Sweep.run_swept s true .shrinkCaches bits h.1 fun p _ => (h.2.each p).align
  rw [show Sweep.source true .shrinkCaches = .activeList from rfl] at hswept
  have hlen : ((s.fifo.contents .activeList).reverse.filter fun p => accessed (bits p)).length =
      ((s.fifo.contents .activeList).filter fun p => accessed (bits p)).length := by
    rw [List.filter_reverse, List.length_reverse]
  refine (hswept.and (shrinkCaches_sat ho h)).mono (fun _ u ⟨hu, hok, hh⟩ => ?_) fun e he => ?_
  · have hinactive := hu.contents .inactiveList
    have hnvm := hu.contents .nvmFreeList
    have hroom := hu.room
    simp only [hlist] at hinactive
    simp only [hfree] at hnvm
    simp only [hnoted] at hroom
    refine ⟨hok, hh, ?_, ?_, hlen ▸ hroom⟩
    · rw [hinactive, LruState.victim, if_pos hempty]
      change (List.reverse _ ++ s.fifo.contents .inactiveList).getLast? = _
      rw [hempty, List.append_nil, List.getLast?_reverse, List.head?_filter]
    · simpa using hnvm
  · have hfull := he.2
    simp only [hnoted] at hfull
    exact hlen ▸ hfull

end Victim

section Swap

variable (h : s.Ok cfg) (hn : s.fifo.contents .nvmFreeList ≠ [])
include h hn

/-- The victim moves down, and its frame is taken. -/
theorem swapDown_free : Sat (do
      swapDown cfg
      lruSwapTries cfg bits 1) (fun p t => (t.Ok cfg ∧ (t.page p).inDram = true ∧
        (t.page p).present = true) ∧
          ∃ cp, (s.fifo.contents .inactiveList).getLast? = some cp ∧ (s.page cp).va ≠ 0)
      (fun _ => ¬ ∃ cp, (s.fifo.contents .inactiveList).getLast? = some cp ∧ (s.page cp).va ≠ 0)
      s := by
  obtain ⟨np, hnp⟩ := List.exists_mem_of_ne_nil _ hn
  refine (swapDown_sat h ⟨np, h.1.mem_contents.1 hnp⟩).bind fun _ t ⟨ht, hx, hcp⟩ => ?_
  exact (lruSwapTries_free ht hx).mono (fun p u hu => ⟨hu, hcp⟩) fun _ => False.elim

variable (hd : s.fifo.contents .dramFreeList = [])
include hd

theorem lruSwapAllocatePage_sat : Sat (lruSwapAllocatePage cfg bits)
    (fun p t => (t.Ok cfg ∧ (t.page p).inDram = true ∧ (t.page p).present = true) ∧
      s.CanSwap bits) (fun _ => ¬ s.CanSwap bits) s := by
  unfold lruSwapAllocatePage lruSwapTries
  refine (sat_dequeue h.1).bind fun r t hr => ?_
  rcases hr with ⟨rfl, rfl, -⟩ | ⟨p, h', -, -, hp, -, -⟩
  swap
  · have hmem := h.1.mem_contents.2 hp
    rw [hd] at hmem
    cases hmem
  have hnum : (s.fifo.list .inactiveList).numentries = 0 ↔ s.fifo.contents .inactiveList = [] := by
    rw [← h.1.length_contents, List.length_eq_zero_iff]
  dsimp only
  rw [sat_bind, sat_get]
  by_cases hempty : s.fifo.contents .inactiveList = []
  · rw [if_pos (hnum.2 hempty)]
    refine ((shrinkCaches_victim h hempty).mono (fun _ _ => id) fun e he hc =>
      Nat.not_le_of_lt he (hc.2 hempty)).bind fun _ u ⟨hok, hh, hv, hnvm, hroom⟩ => ?_
    have hcan : (∃ cp, (u.fifo.contents .inactiveList).getLast? = some cp ∧ (u.page cp).va ≠ 0) ↔
        s.CanSwap bits := by
      rw [hv, LruState.page, hh]
      exact ⟨fun hc => ⟨hc, fun _ => hroom⟩, And.left⟩
    refine (swapDown_free hok (hnvm ▸ hn)).mono (fun p t hp => ⟨hp.1, hcan.1 hp.2⟩) fun e he => ?_
    rwa [hcan] at he
  · rw [if_neg fun h0 => hempty (hnum.1 h0)]
    have hcan : (∃ cp, (s.fifo.contents .inactiveList).getLast? = some cp ∧ (s.page cp).va ≠ 0) ↔
        s.CanSwap bits := by
      unfold LruState.CanSwap LruState.victim
      rw [if_neg hempty]
      exact ⟨fun hc => ⟨hc, fun h0 => absurd h0 hempty⟩, And.left⟩
    refine (swapDown_free h hn).mono (fun p t hp => ⟨hp.1, hcan.1 hp.2⟩) fun e he => ?_
    rwa [hcan] at he

end Swap

section Full

/-- No page is free, in DRAM or in NVM. -/
structure LruState.NoneFree (s : LruState) : Prop where
  wf : s.fifo.Wf
  align : ∀ p, (s.page p).va % hugepageSize = 0
  dram : s.fifo.contents .dramFreeList = []
  nvm : s.fifo.contents .nvmFreeList = []

theorem shrinkCaches_noneFree (h : s.NoneFree) :
    Sat (shrinkCaches bits .activeList .inactiveList .writtenList) (fun _ t => t.NoneFree)
      (fun _ => True) s := by
  have hswept : Sat (shrinkCaches bits .activeList .inactiveList .writtenList) _ _ s :=
    @Sweep.run_swept s true .shrinkCaches bits h.wf fun p _ => h.align p
  rw [show Sweep.source true .shrinkCaches = .activeList from rfl] at hswept
  refine hswept.mono (fun _ t ht => ?_) fun _ _ => trivial
  have hfree : ∀ q : LruList, q.free = true → s.fifo.contents q = [] → t.fifo.contents q = [] :=
    fun q hq hs => by
      have hne : q ≠ .activeList := by
        rintro rfl
        cases hq
      rw [ht.contents, if_neg hne, hs, List.append_nil, List.reverse_eq_nil_iff,
        List.filter_eq_nil_iff]
      intro p _ hv
      rw [← of_decide_eq_true hv, Sweep.list_verdict_free] at hq
      cases hq
  refine ⟨ht.wf, fun p => ?_, hfree _ rfl h.dram, hfree _ rfl h.nvm⟩
  rw [LruState.page, ht.hemem]
  exact h.align p

theorem swapDown_noneFree (h : s.NoneFree) :
    Sat (swapDown cfg) (fun _ t => t.NoneFree) (fun _ => True) s := by
  unfold swapDown
  rw [sat_bind]
  have hnone : ∀ {s : LruState} {k : Option PageId → LruM Unit}, s.NoneFree →
      Sat (k none) (fun _ t => t.NoneFree) (fun _ => True) s →
      Sat (onLists (dequeueFifo .nvmFreeList) >>= k) (fun _ t => t.NoneFree) (fun _ => True) s :=
    fun {s k} h hk => by
      refine (sat_dequeue h.wf).bind fun r t hr => ?_
      rcases hr with ⟨rfl, rfl, -⟩ | ⟨p, h', -, -, hp, -, -⟩
      · exact hk
      · have hmem := h.wf.mem_contents.2 hp
        rw [h.nvm] at hmem
        cases hmem
  rcases h.wf.dequeue .inactiveList with ⟨he, -, -⟩ | ⟨cp, h', he, hw', -, -, -, hrest⟩
  · rw [sat_onLists he]
    exact hnone h h
  · rw [sat_onLists he]
    have h' : LruState.NoneFree { s with fifo := h' } :=
      ⟨hw', h.align, (hrest _ (by decide)).trans h.dram, (hrest _ (by decide)).trans h.nvm⟩
    exact hnone h' h'

/-- With no page free an allocation does not return. -/
theorem lruSwapTries_noneFree : ∀ {n : ℕ} {s : LruState}, s.NoneFree →
    Sat (lruSwapTries cfg bits n) (fun _ _ => False) (fun _ => True) s
  | 0, _, _ => trivial
  | n + 1, s, h => by
    unfold lruSwapTries
    refine (sat_dequeue h.wf).bind fun r t hr => ?_
    rcases hr with ⟨rfl, rfl, -⟩ | ⟨p, h', -, -, hp, -, -⟩
    · have hrest : ∀ {t : LruState}, t.NoneFree → Sat (do
          swapDown cfg
          lruSwapTries cfg bits n) (fun _ _ => False) (fun _ => True) t := fun ht =>
        (swapDown_noneFree ht).bind fun _ u hu => lruSwapTries_noneFree hu
      dsimp only
      rw [sat_bind, sat_get]
      split
      · exact (shrinkCaches_noneFree h).bind fun _ t ht => hrest ht
      · exact hrest h
    · have hmem := h.wf.mem_contents.2 hp
      rw [h.dram] at hmem
      cases hmem

end Full

section Reach

theorem lruSwapAllocatePage_ok (h : s.Ok cfg) :
    Sat (lruSwapAllocatePage cfg bits) (fun _ t => t.Ok cfg) (fun _ => True) s := by
  by_cases hd : s.fifo.contents .dramFreeList = []
  · by_cases hn : s.fifo.contents .nvmFreeList = []
    · exact (lruSwapTries_noneFree ⟨h.1, fun p => (h.2.each p).align, hd, hn⟩).post
        fun _ _ => False.elim
    · exact (lruSwapAllocatePage_sat h hn hd).mono (fun _ _ ht => ht.1.1) fun _ _ => trivial
  · obtain ⟨x, hx⟩ := List.exists_mem_of_ne_nil _ hd
    exact (lruSwapTries_free h ⟨x, h.1.mem_contents.1 hx⟩).mono (fun _ _ ht => ht.1)
      fun _ _ => trivial

theorem swap_step (h : s.Ok cfg) {op : SwapOp} (hl : op.Legal cfg s) :
    Sat (op.run cfg) (fun _ t => t.Ok cfg) (fun _ => True) s := by
  cases op with
  | allocate bits => exact (lruSwapAllocatePage_ok h).bind fun _ t ht => ht
  | other op =>
    refine lru_step h ?_
    cases op with
    | allocate => exact hl.elim
    | assign | remove | scan | startScan | sweep | pass => exact hl

theorem swap_reach (h : (swapPolicy cfg kernel).Reach (SwapOp.Legal cfg) s) : s.Ok cfg :=
  h.invariant (fun _ hs => lruInit_sat.ok hs) fun _ _ _ hI hl hs => (swap_step hI hl).ok hs

/-- With DRAM full and a frame of NVM free, an allocation finds a page of DRAM if and only if there
is a page to be moved down, with its address, and room to note those passed over. -/
theorem swap_survives_iff (h : (swapPolicy cfg kernel).Reach (SwapOp.Legal cfg) s)
    (hd : s.fifo.contents .dramFreeList = []) (hn : s.fifo.contents .nvmFreeList ≠ []) :
    s.Swaps cfg bits ↔ s.CanSwap bits := by
  have hok := swap_reach h
  have hsat := @lruSwapAllocatePage_sat cfg s bits hok hn hd
  constructor
  · rintro ⟨p, t, ht, -⟩
    exact (hsat.ok ht).2
  · intro hc
    rcases hr : lruSwapAllocatePage cfg bits s with e | ⟨p, t⟩
    · exact absurd hc (hsat.error hr)
    · obtain ⟨⟨ht, hin, hpr⟩, -⟩ := hsat.ok hr
      exact ⟨p, t, hr, hin, hpr, fun x hx _ => ht.one_list hx⟩

theorem swap_reach_run (ops : List SwapOp) (P : LruState → Bool)
    (h : (((lruInit fourFrames (LruState.blank Kernel.fresh)).toOption.map (·.2)).bind
      (System.drive (SwapOp.next fourFrames) (SwapOp.Legal fourFrames) ops)).any P = true) :
    ∃ s, (swapPolicy fourFrames Kernel.fresh).Reach (SwapOp.Legal fourFrames) s ∧ P s = true := by
  refine System.drive_reach_of (S := swapPolicy fourFrames Kernel.fresh) _ _ (fun s op s' hn => ?_)
    (fun _ _ => id) (fun s hs => ?_) ops P h
  · obtain ⟨⟨⟨⟩, u⟩, hu, rfl⟩ := Option.map_eq_some_iff.1 hn
    exact toOption_eq_some.1 hu
  · obtain ⟨⟨⟨⟩, u⟩, hu, rfl⟩ := Option.map_eq_some_iff.1 hs
    exact toOption_eq_some.1 hu

/-- Both pages of DRAM are given out. -/
def swapFull : List SwapOp :=
  [.allocate fun _ => 0, .other (.assign 0 hugepageSize), .allocate fun _ => 0,
    .other (.assign 1 (2 * hugepageSize))]

/-- One of the two pages has been accessed. -/
theorem swap_survives_one : ∃ s : LruState, s.fifo.contents .dramFreeList = [] ∧
    s.fifo.contents .nvmFreeList ≠ [] ∧
    s.Swaps fourFrames fun p => if p = 0 then hememAccessedFlag else 0 := by
  obtain ⟨s, hs, hP⟩ := swap_reach_run swapFull (fun s =>
    s.fifo.contents .dramFreeList = [] ∧ s.fifo.contents .nvmFreeList ≠ [] ∧
      s.fifo.contents .inactiveList = [] ∧ s.fifo.contents .activeList = [1, 0] ∧
      (s.page 1).va ≠ 0 ∧ s.vas.length = 0) (by decide +kernel)
  obtain ⟨hd, hn, hin, hact, hva, hvas⟩ := of_decide_eq_true hP
  refine ⟨s, hd, hn, (swap_survives_iff hs hd hn).2 ⟨⟨1, ?_, hva⟩, fun _ => ?_⟩⟩
  · rw [LruState.victim, if_pos hin, hact]
    rfl
  · rw [hact, hvas]
    decide

/-- Both pages have been accessed: there is no page to move down. -/
theorem swap_finds_no_victim : ∃ s, (swapPolicy fourFrames Kernel.fresh).Reach
    (SwapOp.Legal fourFrames) s ∧ s.fifo.contents .dramFreeList = [] ∧
    s.fifo.contents .nvmFreeList ≠ [] ∧
    (∀ p < fourFrames.pages, (s.page p).present = true → (s.page p).va ≠ 0) ∧
    lruSwapAllocatePage fourFrames (fun _ => hememAccessedFlag) s = .error .nullVictim := by
  obtain ⟨s, hs, hP⟩ := swap_reach_run swapFull (fun s =>
    s.fifo.contents .dramFreeList = [] ∧ s.fifo.contents .nvmFreeList ≠ [] ∧
      (∀ p < fourFrames.pages, (s.page p).present = true → (s.page p).va ≠ 0) ∧
      (match lruSwapAllocatePage fourFrames (fun _ => hememAccessedFlag) s with
      | .ok _ => false
      | .error e => e = .nullVictim) = true) (by decide +kernel)
  obtain ⟨hd, hn, hva, hr⟩ := of_decide_eq_true hP
  refine ⟨s, hs, hd, hn, hva, ?_⟩
  split at hr
  · cases hr
  · rename_i e he
    rw [he, of_decide_eq_true hr]

end Reach

end HeMem

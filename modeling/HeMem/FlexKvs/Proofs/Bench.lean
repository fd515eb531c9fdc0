import HeMem.FlexKvs.Proofs.BenchThreads

/-!
# A run of `kvsbench`

While the keys are loaded each thread has keys of its own, so that no two threads miss the same one;
once `main` has seen the count of `init_count` every key is stored and no thread misses any.  For
each byte of each item, no SET that has written it began when the SET that it is of had ended.
-/

namespace FlexKvs

open Function Hasht Bench

variable {jenkinsHash : List UInt8 → UInt32} {nbuckets : ℕ} {st : BenchSettings}

structure Bench.Inv (jenkinsHash : List UInt8 → UInt32) (nbuckets : ℕ) (st : BenchSettings)
    (s : Bench st.threads) (L : ℕ → Fin 5 → List ℕ) : Prop where
  counted : Counted nbuckets s.table L (coreRefs s.core)
  history : History st s.sets s.ended s.core
  filled : ∀ {x}, On L x →
    Filled jenkinsHash st s.sets (WroteBy s.ended s.core) (s.table.body x)
  calls : ∀ {i call}, (s.core i).call = some call → CallOk jenkinsHash st s.table.body L s.sets
    (WroteBy s.ended s.core) (s.core i) call
  cores : ∀ i, CoreOk st i s.phase (Has s.table.body L) (s.core i)
  count : s.initCount.toNat ≤ (Finset.univ.filter fun i => (s.core i).phase.Past).card
  running : BenchmarkPhase.running.val ≤ s.phase.val → ∀ i, (s.core i).phase.Past

/-- A step keeps what is stored and adds at most the item of a `hasht_put`. -/
def Bench.Steps (jenkinsHash : List UInt8 → UInt32) (nbuckets : ℕ) (st : BenchSettings)
    (s : Bench st.threads) (L : ℕ → Fin 5 → List ℕ) (s' : Bench st.threads) : Prop :=
  ∃ L', s'.Inv jenkinsHash nbuckets st L' ∧ s.phase.val ≤ s'.phase.val ∧
    (∀ y, On L y → On L' y ∧ (s'.table.body y).key = (s.table.body y).key) ∧
    ∀ y, On L' y → On L y ∨ ∃ i key, (s.core i).call = some (.put y key)

variable {s : Bench st.threads} {L L' : ℕ → Fin 5 → List ℕ} {i j : Fin st.threads}
  {call call' : BenchCall} {c' : Core} {t : Hasht} {ended' : List ℕ} {x k : ℕ}
  {key : List UInt8} {fresh : Option ℕ} {junk : ℕ → UInt8}

theorem Bench.setRequest_setCore : (s.setCore i c').setRequest st i key = { s with
    core := update s.core i { c' with call := some (.find key), turn := s.sets.length }
    sets := s.sets ++ [⟨key, c'.setValue st key, s.ended⟩] } := by
  simp [Bench.setRequest, setCore]

theorem past_update (hpast : (s.core i).phase.Past → c'.phase.Past) (hj : (s.core j).phase.Past) :
    (update s.core i c' j).phase.Past := by
  rcases eq_or_ne j i with rfl | hji
  · rw [update_self]
    exact hpast hj
  · rw [update_of_ne hji]
    exact hj

namespace Bench.Inv

variable (h : s.Inv jenkinsHash nbuckets st L)
include h

theorem steps_self : s.Steps jenkinsHash nbuckets st L s :=
  ⟨L, h, le_rfl, fun _ hy => ⟨hy, rfl⟩, fun _ hy => .inl hy⟩

theorem not_running (hp : (s.core i).phase = .load k) :
    ¬ BenchmarkPhase.running.val ≤ s.phase.val := fun hr => by
  have hpast := h.running hr i
  rw [hp] at hpast
  exact hpast

/-- No two threads load the same key at once. -/
theorem alone (hap : st.Apart) (hp : (s.core i).phase = .load k) (hc : (s.core i).call = some call)
    (hc' : (s.core j).call = some call') (hk : call'.key = call.key) : j = i := by
  have hi := (h.cores i).may hc
  have hj := (h.cores j).may hc'
  rw [hp] at hi
  obtain ⟨⟨a, ha, hai⟩, -⟩ := hi
  rcases hj.load_or_run with ⟨k', hp'⟩ | hrun
  · rw [hp'] at hj
    obtain ⟨⟨b, hb, hbj⟩, -⟩ := hj
    exact Fin.ext (hbj.symm.trans ((hap (hk ▸ hb) ha).trans hai))
  · exact absurd ((h.cores j).after (.inl hrun)) (h.not_running hp)

/-- Once `main` is past the count all keys are stored. -/
theorem allStored (hpos : 0 < st.threads) (hr : BenchmarkPhase.running.val ≤ s.phase.val)
    (hkey : key ∈ st.keys) : Has s.table.body L key := by
  obtain ⟨a, ha⟩ := List.mem_iff_getElem?.1 hkey
  have hpast := h.running hr ⟨a % st.threads, Nat.mod_lt a hpos⟩
  have hlt := (List.getElem?_eq_some_iff.1 ha).1
  rcases hp : (s.core ⟨a % st.threads, Nat.mod_lt a hpos⟩).phase <;> rw [hp] at hpast
  case start | load | loaded => exact hpast.elim
  all_goals
    refine ((h.cores _).stored ha rfl (by rw [hp]; exact hlt)).resolve_right fun hl => ?_
    obtain ⟨⟨k, hload⟩, -⟩ := hl
    rw [hp] at hload
    cases hload

theorem stored_of_run (hpos : 0 < st.threads) (hp : (s.core i).phase = .run)
    (hc : (s.core i).call = some call) : Has s.table.body L call.key := by
  have hmay := (h.cores i).may hc
  rw [hp] at hmay
  exact h.allStored hpos ((h.cores i).after (.inl hp)) hmay.1

theorem load_of_missed (hc : (s.core i).call = some call) (hm : call.Missed) :
    ∃ k, (s.core i).phase = .load k := by
  have hmay := (h.cores i).may hc
  refine hmay.load_or_run.resolve_right fun hrun => ?_
  rw [hrun] at hmay
  exact hmay.2 hm

theorem unique {x y : ℕ} (hx : On L x) (hy : On L y)
    (hk : (s.table.body x).key = (s.table.body y).key) : x = y :=
  h.counted.wf.unique hx hy
    ((h.filled hx).hv.trans ((congrArg jenkinsHash hk).trans (h.filled hy).hv.symm)) hk

/-- What `hasht_get` finds. -/
theorem finds (key : List UInt8) :
    ∃ r, s.table.find key (jenkinsHash key) nbuckets = .ok r ∧
      ∀ x, r = some x ↔ On L x ∧ (s.table.body x).key = key := by
  obtain ⟨r, hr, hfind⟩ := h.counted.wf.find_spec key (jenkinsHash key)
  refine ⟨r, hr, fun x => (hfind x).trans (and_congr_right fun hx => ?_)⟩
  exact ⟨fun hm => hm.2, fun hk => ⟨(h.filled hx).hv.trans (congrArg _ hk), hk⟩⟩

theorem stores_iff : s.Stores jenkinsHash nbuckets key x ↔ On L x ∧ (s.table.body x).key = key := by
  obtain ⟨r, hr, hfind⟩ := h.finds key
  rw [Stores, hr, Except.ok.injEq]
  exact hfind x

theorem count_le_one (hr : BenchmarkPhase.running.val ≤ s.phase.val) :
    (s.core i).items.count x ≤ 1 := by
  refine List.count_le_length.trans ?_
  unfold Core.items
  rcases hc : (s.core i).call with _ | call
  · exact Nat.zero_le 1
  · have hm : ¬ call.Missed := fun hm => by
      obtain ⟨k, hp⟩ := h.load_of_missed hc hm
      exact h.not_running hp hr
    cases call <;> first | exact absurd trivial hm | simp [BenchCall.items]

/-- While keys are loaded a thread shares its items with no other. -/
theorem refs_le_two (hap : st.Apart) (hr : ¬ BenchmarkPhase.running.val ≤ s.phase.val) (x : ℕ) :
    coreRefs s.core x ≤ 2 := by
  by_cases hx : ∃ i, (s.core i).items.count x ≠ 0
  · obtain ⟨i, hi⟩ := hx
    have hitem : ∀ {j}, (s.core j).items.count x ≠ 0 →
        ∃ call, (s.core j).call = some call ∧ (s.table.body x).key = call.key := fun {j} hj => by
      have hmem := List.count_pos_iff.1 (Nat.pos_of_ne_zero hj)
      unfold Core.items at hmem
      rcases hc : (s.core j).call with _ | call
      · rw [hc] at hmem
        cases hmem
      · rw [hc] at hmem
        exact ⟨call, rfl, (h.calls hc).key_eq hmem⟩
    obtain ⟨call, hc, hk⟩ := hitem hi
    obtain ⟨k, hp⟩ := ((h.cores i).may hc).load_or_run.resolve_right fun hrun =>
      hr ((h.cores i).after (.inl hrun))
    unfold coreRefs
    rw [Finset.sum_eq_single i]
    · exact count_items_le _ x
    · intro j _ hji
      by_contra hj
      obtain ⟨call', hc', hk'⟩ := hitem hj
      exact hji (h.alone hap hp hc hc' (hk'.symm.trans hk))
    · exact fun hi => absurd (Finset.mem_univ i) hi
  · push Not at hx
    unfold coreRefs
    rw [Finset.sum_eq_zero fun i _ => hx i]
    exact Nat.zero_le 2

open scoped Classical in
/-- A thread about to look a key up finds no count at its largest. -/
theorem small (hap : st.Apart) (hn : st.threads < 65535)
    (hi : (s.core i).items = [] ∨ ∃ k, (s.core i).phase = .load k) (x : ℕ) :
    (s.table.item x).refcount ≠ 65535 := by
  have hrefs := h.counted.refs x
  have hle : (s.table.item x).refcount.toNat < 65535 := by
    rw [hrefs]
    have hon : (if On L x then 1 else 0) ≤ 1 := by split <;> omega
    by_cases hr : BenchmarkPhase.running.val ≤ s.phase.val
    · have hnil := hi.resolve_right fun ⟨k, hp⟩ => h.not_running hp hr
      have hrest : coreRest s.core i x ≤ st.threads - 1 := by
        have hsum := Finset.sum_le_card_nsmul (Finset.univ.erase i)
          (fun j => (s.core j).items.count x) 1 fun j _ => h.count_le_one hr
        rw [Finset.card_erase_of_mem (Finset.mem_univ i), Finset.card_fin] at hsum
        simpa [coreRest] using hsum
      rw [coreRefs_eq s.core i, hnil, moreAll_nil]
      have := i.2
      omega
    · have := h.refs_le_two hap hr x
      omega
  intro he
  rw [he] at hle
  exact absurd hle (by decide)

/-- A SET under way has written nothing to an item with another key. -/
theorem fewer_of_ne {D' : ℕ → ℕ → Prop} {key' : List UInt8} (hc : (s.core i).call = some call)
    (hs : call.Sets)
    (hD : ∀ j e, D' j e → WroteBy s.ended s.core j e ∨ e = (s.core i).turn)
    (hk : key' ≠ call.key) : Fewer st s.sets (WroteBy s.ended s.core) D' key' :=
  fun {j e r} _ he hr hrk => (hD j e he).resolve_right fun het => by
    obtain ⟨-, r', hr', hk', -⟩ := h.history.begun hc hs
    rw [het, hr'] at hr
    cases hr
    exact hk (hrk.symm.trans hk')

theorem count_update {m : UInt16} (hpast : (s.core i).phase.Past → c'.phase.Past)
    (hm : m = s.initCount ∨ m = s.initCount + 1 ∧ ¬ (s.core i).phase.Past ∧ c'.phase.Past) :
    m.toNat ≤ (Finset.univ.filter fun j => (update s.core i c' j).phase.Past).card := by
  have hsub : (Finset.univ.filter fun j => (s.core j).phase.Past) ⊆
      Finset.univ.filter fun j => (update s.core i c' j).phase.Past := fun j hj => by
    rw [Finset.mem_filter] at hj ⊢
    exact ⟨hj.1, past_update hpast hj.2⟩
  rcases hm with rfl | ⟨rfl, hno, hyes⟩
  · exact h.count.trans (Finset.card_le_card hsub)
  · have hlt := Finset.card_lt_card ((Finset.ssubset_iff_of_subset hsub).2
      ⟨i, by simpa using hyes, by simpa using hno⟩)
    have hle : (s.initCount + 1).toNat ≤ s.initCount.toNat + 1 := by
      rw [UInt16.toNat_add]
      exact Nat.mod_le _ _
    have := h.count
    omega

/-- What the other threads know is kept by a step of thread `i`. -/
theorem step (ended' : List ℕ) (c' : Core) {m : UInt16}
    (hcount : Counted nbuckets t L' (moreAll (coreRest s.core i) c'.items))
    (hhist : History st s.sets ended' (update s.core i c'))
    (hon : ∀ y, On L y → On L' y ∧ (t.body y).key = (s.table.body y).key)
    (hadd : ∀ y, On L' y → On L y ∨ ∃ key, (s.core i).call = some (.put y key))
    (hfill : ∀ {y}, On L' y →
      Filled jenkinsHash st s.sets (WroteBy ended' (update s.core i c')) (t.body y))
    (howns : ∀ {j call y}, j ≠ i → (s.core j).call = some call → call.owns = some y →
      ¬ On L' y ∧ t.body y = s.table.body y ∧ Fewer st s.sets (WroteBy s.ended s.core)
        (WroteBy ended' (update s.core i c')) call.key)
    (hnew : ∀ {j call y}, j ≠ i → (s.core j).call = some call → call.Adds → On L' y →
      On L y ∨ (t.body y).key ≠ call.key)
    (hcall : ∀ {call}, c'.call = some call → CallOk jenkinsHash st t.body L' s.sets
      (WroteBy ended' (update s.core i c')) c' call)
    (hcore : CoreOk st i s.phase (Has t.body L') c')
    (hpast : (s.core i).phase.Past → c'.phase.Past)
    (hm : m = s.initCount ∨ m = s.initCount + 1 ∧ ¬ (s.core i).phase.Past ∧ c'.phase.Past) :
    s.Steps jenkinsHash nbuckets st L
      { s with table := t, core := update s.core i c', ended := ended', initCount := m } := by
  refine ⟨L', ⟨?_, hhist, hfill, ?_, ?_, h.count_update hpast hm, fun hr j =>
    past_update hpast (h.running hr j)⟩, le_rfl, hon, fun y hy => (hadd y hy).imp_right
    fun ⟨key, hk⟩ => ⟨i, key, hk⟩⟩
  · dsimp only
    rw [coreRefs_update]
    exact hcount
  · intro j call hc
    dsimp only at hc ⊢
    rcases eq_or_ne j i with rfl | hji
    · rw [update_self] at hc ⊢
      exact hcall hc
    · rw [update_of_ne hji] at hc ⊢
      exact (h.calls hc).congr hon (fun y hy => howns hji hc hy) fun ha y hy => hnew hji hc ha hy
  · intro j
    dsimp only
    rcases eq_or_ne j i with rfl | hji
    · rw [update_self]
      exact hcore
    · rw [update_of_ne hji]
      exact (h.cores j).mono le_rfl fun key hk => hk.mono hon

/-- A step that changes no item but in its count, and writes no byte. -/
theorem quiet (ended' : List ℕ) (c' : Core) {m : UInt16} (hb : t.body = s.table.body)
    (hcount : Counted nbuckets t L (moreAll (coreRest s.core i) c'.items))
    (hhist : History st s.sets ended' (update s.core i c'))
    (hD : ∀ {j e}, j < st.valuesize → WroteBy ended' (update s.core i c') j e →
      WroteBy s.ended s.core j e)
    (hcall : ∀ {call}, c'.call = some call → CallOk jenkinsHash st s.table.body L s.sets
      (WroteBy ended' (update s.core i c')) c' call)
    (hcore : CoreOk st i s.phase (Has s.table.body L) c')
    (hpast : (s.core i).phase.Past → c'.phase.Past)
    (hm : m = s.initCount ∨ m = s.initCount + 1 ∧ ¬ (s.core i).phase.Past ∧ c'.phase.Past) :
    s.Steps jenkinsHash nbuckets st L
      { s with table := t, core := update s.core i c', ended := ended', initCount := m } := by
  refine h.step _ _ hcount hhist (fun y hy => ⟨hy, by rw [hb]⟩) (fun y hy => .inl hy) (fun hy => ?_)
    (fun _ hc ho => ⟨((h.calls hc).off ho).1, by rw [hb], fun hj he _ _ => hD hj he⟩)
    (fun _ _ _ hy => .inl hy) ?_ ?_ hpast hm
  · rw [hb]
    exact (h.filled hy).mono fun hj he _ _ => hD hj he
  · rw [hb]
    exact hcall
  · rw [hb]
    exact hcore

/-- A step inside of a call that changes no item but in its count, and writes no byte. -/
theorem callStep (call' : BenchCall) (hc : (s.core i).call = some call) (hb : t.body = s.table.body)
    (hcount : Counted nbuckets t L (moreAll (coreRest s.core i) call'.items))
    (hok : ∀ {D}, CallOk jenkinsHash st s.table.body L s.sets D (s.core i) call')
    (hk : call'.key = call.key) (hl : ¬ call'.Looks) (hs : call'.Sets → call.Sets)
    (hw : ∀ {j}, j < st.valuesize → call'.Wrote j → call.Wrote j)
    (hm : (s.core i).phase = .run → call'.Missed → call.Missed) :
    s.Steps jenkinsHash nbuckets st L ({ s with table := t }.setCall i (some call')) := by
  refine h.quiet s.ended { s.core i with call := some call' } hb hcount
    (h.history.follow (fun hc' hs' => ?_) rfl (h.history.gets i)) (fun {j e} hj he => ?_)
    (fun hc => by cases hc; exact hok) ((h.cores i).follow rfl hc rfl hk hl hm) id (.inl rfl)
  · cases hc'
    exact ⟨call, hc, hs hs', hk, rfl⟩
  · rcases wroteBy_update he with he | ⟨rfl, call₀, hc₀, hw₀⟩
    · exact he
    · cases hc₀
      exact .inr ⟨i, call, hc, hw hj hw₀, rfl⟩

/-- The end of a GET. -/
theorem getEnd (hc : (s.core i).call = some call) (hb : t.body = s.table.body)
    (hcount : Counted nbuckets t L (coreRest s.core i))
    (hs : Has s.table.body L call.key ∨ (s.core i).phase = .run) :
    s.Steps jenkinsHash nbuckets st L ({ s with table := t }.setCall i none) := by
  refine h.quiet s.ended { s.core i with call := none } hb ?_
    (h.history.follow (fun hc' => nomatch hc') rfl (h.history.gets i)) (fun _ he => ?_)
    (fun hc => nomatch hc) ((h.cores i).finish hc hs) id (.inl rfl)
  · rw [show ({ s.core i with call := none } : Core).items = [] from rfl, moreAll_nil]
    exact hcount
  · exact (wroteBy_update he).resolve_right fun ⟨_, _, hc₀, _⟩ => nomatch hc₀

/-- The end of a SET. -/
theorem setEnd (hc : (s.core i).call = some (.unref x key)) (hb : t.body = s.table.body)
    (hcount : Counted nbuckets t L (coreRest s.core i)) (hs : Has s.table.body L key) :
    s.Steps jenkinsHash nbuckets st L
      ({ s with table := t, ended := s.ended ++ [(s.core i).turn] }.setCall i none) := by
  refine h.quiet (s.ended ++ [(s.core i).turn]) { s.core i with call := none } hb
    ?_ (h.history.endSet hc trivial rfl rfl) (fun {j e} _ he => ?_)
    (fun hc => nomatch hc) ((h.cores i).finish hc (.inl hs)) id (.inl rfl)
  · rw [show ({ s.core i with call := none } : Core).items = [] from rfl, moreAll_nil]
    exact hcount
  · have hwrote : WroteBy s.ended s.core j (s.core i).turn := .inr ⟨i, _, hc, trivial, rfl⟩
    rcases wroteBy_update he with (he | hcall) | ⟨-, _, hc₀, -⟩
    · rcases List.mem_append.1 he with he | he
      · exact .inl he
      · rwa [List.mem_singleton.1 he]
    · exact .inr hcall
    · cases hc₀

/-- The references beside those of the items of thread `i`. -/
theorem counted_at (hc : (s.core i).call = some call) :
    Counted nbuckets s.table L (moreAll (coreRest s.core i) call.items) := by
  have hcount := h.counted
  rw [coreRefs_eq s.core i] at hcount
  unfold Core.items at hcount
  rwa [hc] at hcount

/-- `hasht_get` by a thread. -/
theorem get (hap : st.Apart) (hn : st.threads < 65535) (hc : (s.core i).call = some call)
    (hi : call.items = [] ∨ ∃ k, (s.core i).phase = .load k) (key : List UInt8) :
    (¬ Has s.table.body L key ∧
      s.table.hashtGet key (jenkinsHash key) nbuckets = .ok (none, s.table)) ∨
    ∃ x, On L x ∧ (s.table.body x).key = key ∧
      s.table.hashtGet key (jenkinsHash key) nbuckets = .ok (some x, s.table.itemRef x) ∧
      Counted nbuckets (s.table.itemRef x) L
        (moreAll (coreRest s.core i) (x :: call.items)) := by
  have hsmall := h.small hap hn (i := i) (by rwa [items_of_call hc])
  rcases (h.counted_at hc).hashtGet (fun x _ => hsmall x) key (jenkinsHash key) with
    ⟨hf, hg⟩ | ⟨x, -, hx, hm, hg, hr⟩
  · refine .inl ⟨fun ⟨x, hx, hk⟩ => ?_, hg⟩
    have hs := h.stores_iff.2 ⟨hx, hk⟩
    rw [Stores, hf] at hs
    cases hs
  · exact .inr ⟨x, hx, hm.2, hg, by rw [moreAll_cons]; exact hr⟩

/-- `item_unref` by a thread. -/
theorem drop {l : List ℕ} (hc : (s.core i).call = some call) (hi : call.items = x :: l) :
    s.table.itemUnref x = .ok (s.table.unref x) ∧
      Counted nbuckets (s.table.unref x) L (moreAll (coreRest s.core i) l) := by
  have hcount := h.counted_at hc
  rw [hi, moreAll_cons] at hcount
  exact hcount.unref

section Calls

variable (hpos : 0 < st.threads) (hap : st.Apart) (hn : st.threads < 65535)
include hpos hap hn

theorem find (hc : (s.core i).call = some (.find key)) :
    ∃ s', s.callStep jenkinsHash nbuckets st i fresh junk (.find key) = .ok s' ∧
      s.Steps jenkinsHash nbuckets st L s' := by
  rcases h.get hap hn hc (.inl rfl) key with ⟨hno, hg⟩ | ⟨x, hx, hk, hg, hr⟩
  · refine ⟨_, by simp only [Bench.callStep, hg, ok_bind]; rfl, ?_⟩
    have hcount := h.counted_at hc
    exact h.callStep (.make key) hc rfl hcount (fun y hy hk => hno ⟨y, hy, hk⟩) rfl id
      id (fun _ hw => hw) fun hrun => absurd (h.stored_of_run hpos hrun hc) hno
  · refine ⟨_, by simp only [Bench.callStep, hg, ok_bind]; rfl, ?_⟩
    exact h.callStep (.fields x key) hc body_itemRef hr ⟨hx, hk⟩ rfl id id
      (fun _ hw => hw) fun _ hm => hm

omit hpos hn in
theorem insert (hc : (s.core i).call = some (.put x key)) :
    ∃ s', s.callStep jenkinsHash nbuckets st i fresh junk (.put x key) = .ok s' ∧
      s.Steps jenkinsHash nbuckets st L s' := by
  obtain ⟨hoff, hk, hfill, hno⟩ := h.calls hc
  obtain ⟨k, hp⟩ := h.load_of_missed hc trivial
  have hcount := h.counted_at hc
  have hx : moreAll (coreRest s.core i) (BenchCall.put x key).items x ≠ 0 := by
    simp [moreAll, BenchCall.items]
  have hsmall : (s.table.item x).refcount ≠ 65535 := by
    intro he
    have hrefs := hcount.refs x
    rw [if_neg hoff, he, ← items_of_call hc, ← coreRefs_eq s.core i] at hrefs
    have := h.refs_le_two hap (h.not_running hp) x
    rw [← Nat.zero_add (coreRefs s.core x), ← hrefs] at this
    exact absurd this (by decide)
  obtain ⟨t, L', ht, hcount', hsame, hcase⟩ := hcount.hashtPut hoff hx hsmall none
  obtain ⟨-, hon⟩ := hcase.resolve_left fun h => h.2 rfl
  have hb := body_eq hsame
  have hkeep : ∀ y, On L y → On L' y ∧ (t.body y).key = (s.table.body y).key := fun y hy => by
    refine ⟨(hon y).2 (.inr ⟨hy, fun hf => hno y hy ?_⟩), by rw [hb]⟩
    have hkey : (s.table.item x).key = key := hk
    have hhv : (s.table.item x).hv = jenkinsHash key := hfill.hv.trans (congrArg _ hk)
    rw [hkey, hhv] at hf
    exact (h.stores_iff.1 hf).2
  have hnot : ∀ {j call}, j ≠ i → (s.core j).call = some call → call.key ≠ key :=
    fun hji hc' hk' => hji (h.alone hap hp hc hc' hk')
  refine ⟨_, by simp only [Bench.callStep, ht, ok_bind]; rfl, ?_⟩
  have hD : ∀ {j e}, WroteBy s.ended (update s.core i { s.core i with call := some (.check x key) })
      j e → WroteBy s.ended s.core j e := fun he => by
    rcases wroteBy_update he with he | ⟨rfl, -⟩
    · exact he
    · exact .inr ⟨i, _, hc, trivial, rfl⟩
  refine h.step s.ended { s.core i with call := some (.check x key) } hcount'
    (h.history.within hc trivial rfl) hkeep (fun y hy => ?_) (fun {y} hy => ?_)
    (fun {j call y} hji hc' ho => ?_) (fun {j call y} hji hc' _ hy => ?_) (fun hc' => ?_) ?_ id
    (.inl rfl)
  · rcases (hon y).1 hy with rfl | ⟨hy, -⟩
    · exact .inr ⟨key, hc⟩
    · exact .inl hy
  · rw [hb]
    rcases (hon y).1 hy with rfl | ⟨hy, -⟩
    · exact hfill.mono fun _ he _ _ => hD he
    · exact (h.filled hy).mono fun _ he _ _ => hD he
  · obtain ⟨hoff', hk'⟩ := (h.calls hc').off ho
    refine ⟨fun hy => ?_, by rw [hb], fun _ he _ _ => hD he⟩
    rcases (hon y).1 hy with rfl | ⟨hy, -⟩
    · exact hnot hji hc' (hk'.symm.trans hk)
    · exact hoff' hy
  · rw [hb]
    rcases (hon y).1 hy with rfl | ⟨hy, -⟩
    · exact .inr fun he => hnot hji hc' (he.symm.trans hk)
    · exact .inl hy
  · cases hc'
    exact ⟨(hon x).2 (.inl rfl), by rw [hb]; exact hk⟩
  · exact ((h.cores i).mono le_rfl fun _ hh => hh.mono hkeep).follow rfl hc rfl rfl id
      fun _ _ => trivial

omit hpos in
theorem check (hc : (s.core i).call = some (.check x key)) :
    ∃ s', s.callStep jenkinsHash nbuckets st i fresh junk (.check x key) = .ok s' ∧
      s.Steps jenkinsHash nbuckets st L s' := by
  obtain ⟨hx, hk⟩ := h.calls hc
  rcases h.get hap hn hc (.inr (h.load_of_missed hc trivial)) key with
    ⟨hno, -⟩ | ⟨y, hy, hyk, hg, hr⟩
  · exact absurd ⟨x, hx, hk⟩ hno
  · obtain rfl := h.unique hy hx (hyk.trans hk.symm)
    refine ⟨_, by simp only [Bench.callStep, hg, ok_bind, if_true]; rfl, ?_⟩
    exact h.callStep (.unrefNew y key) hc body_itemRef hr ⟨hx, hk⟩ rfl id id
      (fun _ _ => trivial) fun _ _ => trivial

omit hpos in
theorem look (hc : (s.core i).call = some (.look key)) :
    ∃ s', s.callStep jenkinsHash nbuckets st i fresh junk (.look key) = .ok s' ∧
      s.Steps jenkinsHash nbuckets st L s' := by
  have hrun : (s.core i).phase = .run := by
    have hmay := (h.cores i).may hc
    refine hmay.load_or_run.resolve_left fun ⟨k, hp⟩ => ?_
    rw [hp] at hmay
    exact hmay.2 trivial
  rcases h.get hap hn hc (.inl rfl) key with ⟨-, hg⟩ | ⟨x, hx, hk, hg, hr⟩
  · refine ⟨_, by simp only [Bench.callStep, hg, ok_bind]; rfl, ?_⟩
    have hcount := h.counted_at hc
    rw [show (BenchCall.look key).items = [] from rfl, moreAll_nil] at hcount
    exact h.getEnd hc rfl hcount (.inr hrun)
  · refine ⟨_, by simp only [Bench.callStep, hg, ok_bind]; rfl, ?_⟩
    have hlen : (s.table.item x).value.length = st.valuesize := (h.filled hx).length
    refine h.callStep (.copy x key (List.range (s.table.item x).value.length)) hc
      body_itemRef hr ⟨hx, hk, fun j hj => ?_, fun j hj hnot => ?_⟩ rfl id id (fun _ hw => hw)
      fun _ hm => hm
    · rwa [List.mem_range, hlen] at hj
    · rw [List.mem_range, hlen] at hnot
      exact absurd hj hnot

end Calls

/-- A byte that a SET has written itself. -/
theorem own_byte {D : ℕ → Prop} {j : ℕ} {c : UInt8} (hc : (s.core i).call = some call)
    (hs : call.Sets) (hj : ((s.core i).setValue st call.key)[j]? = some c) :
    Regular s.sets D call.key j c := by
  obtain ⟨hno, r, hr, hk, hv⟩ := h.history.begun hc hs
  exact ⟨_, r, hr, hk, hv ▸ hj, fun _ _ _ hr' _ => h.history.not_seen hno hr'⟩

theorem make (hap : st.Apart) (hc : (s.core i).call = some (.make key)) (hx : x ∉ s.table.live) :
    ∃ s', s.callStep jenkinsHash nbuckets st i (some x) junk (.make key) = .ok s' ∧
      s.Steps jenkinsHash nbuckets st L s' := by
  have hno := h.calls hc
  obtain ⟨k, hp⟩ := h.load_of_missed hc trivial
  obtain ⟨hoff, hrefs⟩ := h.counted.off hx
  have hcount := h.counted_at hc
  rw [show (BenchCall.make key).items = [] from rfl, moreAll_nil] at hcount
  have hcount' : Counted nbuckets ((s.table.allocated x (key.length + st.valuesize)).fill x
      (jenkinsHash key) key ((s.core i).setValue st key)) L (moreAll (coreRest s.core i) [x]) := by
    rw [moreAll_cons, moreAll_nil]
    exact (hcount.allocated hx).fill fun hon => absurd hon hoff
  have hb : ((s.table.allocated x (key.length + st.valuesize)).fill x (jenkinsHash key) key
      ((s.core i).setValue st key)).body = update s.table.body x
        ⟨jenkinsHash key, key, (s.core i).setValue st key, key.length + st.valuesize⟩ := by
    rw [body_fill, body_allocated, update_self, update_idem]
  have hne : ∀ {y}, On L y → y ≠ x := fun hy hyx => hoff (hyx ▸ hy)
  have hfewer : ∀ {key'}, key' ≠ key → Fewer st s.sets (WroteBy s.ended s.core)
      (WroteBy s.ended (update s.core i { s.core i with call := some (.put x key) })) key' :=
    h.fewer_of_ne hc trivial fun j e he => (wroteBy_update he).imp_right And.left
  refine ⟨_, rfl, ?_⟩
  refine h.step s.ended { s.core i with call := some (.put x key) } hcount'
    (h.history.within hc trivial rfl) (fun y hy => ⟨hy, ?_⟩) (fun y hy => .inl hy) (fun {y} hy => ?_)
    (fun {j call y} hji hc' ho => ?_) (fun _ _ _ hy => .inl hy) (fun hc' => ?_) ?_ id (.inl rfl)
  · rw [hb, update_of_ne (hne hy)]
  · rw [hb, update_of_ne (hne hy)]
    exact (h.filled hy).mono (hfewer (hno y hy))
  · obtain ⟨hoff', -⟩ := (h.calls hc').off ho
    refine ⟨hoff', ?_, hfewer fun hk => hji (h.alone hap hp hc hc' hk)⟩
    rw [hb, update_of_ne]
    rintro rfl
    have hle := count_le_coreRefs s.core j y
    rw [hrefs, items_of_call hc'] at hle
    cases call <;> cases ho
    simp [BenchCall.items] at hle
  · cases hc'
    refine ⟨hoff, by rw [hb, update_self], ⟨?_, ?_, ?_, fun {j b} hj => ?_⟩, fun y hy => ?_⟩
    · rw [hb, update_self]
    · rw [hb, update_self]
      simp [Core.setValue]
    · rw [hb, update_self]
    · rw [hb, update_self] at hj ⊢
      exact h.own_byte hc trivial hj
    · rw [hb, update_of_ne (hne hy)]
      exact hno y hy
  · refine ((h.cores i).mono le_rfl fun _ hh => hh.mono fun y hy => ⟨hy, ?_⟩).follow rfl hc rfl rfl
      id fun _ _ => trivial
    rw [hb, update_of_ne (hne hy)]

theorem unrefNew (hc : (s.core i).call = some (.unrefNew x key)) :
    ∃ s', s.callStep jenkinsHash nbuckets st i fresh junk (.unrefNew x key) = .ok s' ∧
      s.Steps jenkinsHash nbuckets st L s' := by
  obtain ⟨hu, hcount⟩ := h.drop hc (l := [x]) rfl
  refine ⟨_, by simp only [Bench.callStep, hu, ok_bind]; rfl, ?_⟩
  have hok := h.calls hc
  exact h.callStep (.unref x key) hc body_unref hcount hok rfl id id
    (fun _ _ => trivial) fun _ hm => hm.elim

theorem fields (hc : (s.core i).call = some (.fields x key)) :
    ∃ s', s.callStep jenkinsHash nbuckets st i fresh junk (.fields x key) = .ok s' ∧
      s.Steps jenkinsHash nbuckets st L s' := by
  obtain ⟨hx, hk⟩ := h.calls hc
  have hfill := h.filled hx
  have hlen : (s.table.item x).value.length = st.valuesize := hfill.length
  have hkey : (s.table.item x).key = key := hk
  have hhv : (s.table.item x).hv = jenkinsHash key := hfill.hv.trans (congrArg _ hk)
  -- the value keeps its length, so the fields are written as they are
  have hsame : resize (s.table.item x).value st.valuesize junk = (s.table.item x).value := by
    refine List.ext_getElem (by simp [resize, hlen]) fun a h1 h2 => ?_
    simp [resize, List.getElem?_eq_getElem h2]
  have hroom : key.length + (s.table.item x).value.length ≤ (s.table.item x).room := by
    rw [hlen]
    exact hkey ▸ hfill.room
  have hr : s.table.rewrite x (jenkinsHash key) key (s.table.item x).value =
      .ok (s.table.fill x (jenkinsHash key) key (s.table.item x).value) := if_pos hroom
  refine ⟨_, by simp only [Bench.callStep, hsame, hr, ok_bind]; rfl, ?_⟩
  refine h.callStep (.store x key (List.range st.valuesize)) hc ?_
    ((h.counted_at hc).fill fun _ => ⟨hhv, hkey⟩) ⟨hx, hk⟩ rfl id id
    (fun hj hw => absurd (List.mem_range.2 hj) hw) fun _ hm => hm
  rw [body_fill, ← hhv, ← hkey]
  exact update_eq_self x _

theorem stored {todo : List ℕ} (hc : (s.core i).call = some (.store x key todo)) :
    ∃ s', s.callStep jenkinsHash nbuckets st i fresh junk (.store x key todo) = .ok s' ∧
      s.Steps jenkinsHash nbuckets st L s' := by
  have hok := h.calls hc
  refine ⟨_, rfl, ?_⟩
  by_cases hnil : todo = []
  · rw [if_pos hnil]
    subst hnil
    have hcount := h.counted_at hc
    exact h.callStep (.unref x key) hc rfl hcount hok rfl id id
      (fun _ _ => List.not_mem_nil) fun _ hm => hm
  · rw [if_neg hnil]
    exact h.steps_self

theorem copied {todo : List ℕ} (hc : (s.core i).call = some (.copy x key todo)) :
    ∃ s', s.callStep jenkinsHash nbuckets st i fresh junk (.copy x key todo) = .ok s' ∧
      s.Steps jenkinsHash nbuckets st L s' := by
  obtain ⟨hx, hk, -, hbytes⟩ := h.calls hc
  refine ⟨_, rfl, ?_⟩
  by_cases hnil : todo = []
  · rw [if_pos hnil]
    subst hnil
    have hcount := h.counted_at hc
    exact h.callStep (.answer x key) hc rfl hcount
      ⟨hx, hk, fun j hj => hbytes j hj List.not_mem_nil⟩ rfl id id (fun _ hw => hw)
      fun _ hm => hm
  · rw [if_neg hnil]
    exact h.steps_self

theorem unref (hc : (s.core i).call = some (.unref x key)) :
    ∃ s', s.callStep jenkinsHash nbuckets st i fresh junk (.unref x key) = .ok s' ∧
      s.Steps jenkinsHash nbuckets st L s' := by
  obtain ⟨hx, hk⟩ := h.calls hc
  obtain ⟨hu, hcount⟩ := h.drop hc (l := []) rfl
  rw [moreAll_nil] at hcount
  exact ⟨_, by simp only [Bench.callStep, hu, ok_bind]; rfl,
    h.setEnd hc body_unref hcount ⟨x, hx, hk⟩⟩

theorem answer (hc : (s.core i).call = some (.answer x key)) :
    ∃ s', s.callStep jenkinsHash nbuckets st i fresh junk (.answer x key) = .ok s' ∧
      s.Steps jenkinsHash nbuckets st L s' := by
  obtain ⟨hx, hk, -⟩ := h.calls hc
  obtain ⟨hu, hcount⟩ := h.drop hc (l := []) rfl
  rw [moreAll_nil] at hcount
  exact ⟨_, by simp only [Bench.callStep, hu, ok_bind]; rfl,
    h.getEnd hc body_unref hcount (.inl ⟨x, hx, hk⟩)⟩

/-- A byte of an item in the table gets a byte of a SET. -/
theorem storeByte {todo : List ℕ} {a b : ℕ} (hc : (s.core i).call = some (.store x key todo))
    (ha : todo[a]? = some b) :
    s.Steps jenkinsHash nbuckets st L ({ s with
      table := s.table.setByte x b ((s.core i).txBuf (Core.setAt key b)) }.setCall i
        (some (.store x key (todo.eraseIdx a)))) := by
  obtain ⟨hx, hk⟩ := h.calls hc
  have hb := body_setByte (s := s.table) (x := x) (j := b)
    (v := (s.core i).txBuf (Core.setAt key b))
  have hkeep : ∀ y, On L y → On L y ∧ ((s.table.setByte x b
      ((s.core i).txBuf (Core.setAt key b))).body y).key = (s.table.body y).key := fun y hy => by
    refine ⟨hy, ?_⟩
    rw [hb]
    rcases eq_or_ne y x with rfl | hyx
    · rw [update_self]
    · rw [update_of_ne hyx]
  have hfewer : ∀ {key'}, key' ≠ key → Fewer st s.sets (WroteBy s.ended s.core)
      (WroteBy s.ended (update s.core i { s.core i with
        call := some (.store x key (todo.eraseIdx a)) })) key' :=
    h.fewer_of_ne hc trivial fun j e he => (wroteBy_update he).imp_right And.left
  refine h.step s.ended
    { s.core i with call := some (.store x key (todo.eraseIdx a)) }
    ((h.counted_at hc).setByte b _)
    (h.history.within hc trivial rfl) hkeep (fun y hy => .inl hy) (fun {y} hy => ?_)
    (fun {j call y} _ hc' ho => ?_) (fun _ _ _ hy => .inl hy) (fun hc' => ?_) ?_ id (.inl rfl)
  · rw [hb]
    have hfill := h.filled hy
    rcases eq_or_ne y x with rfl | hyx
    · rw [update_self]
      refine ⟨hfill.hv, List.length_set.trans hfill.length, hfill.room, fun {j c} hj => ?_⟩
      dsimp only at hj ⊢
      rcases eq_or_ne j b with rfl | hjb
      · have hlt : j < (s.table.body y).value.length := by
          by_contra hge
          rw [List.getElem?_eq_none (by rw [List.length_set]; omega)] at hj
          cases hj
        rw [List.getElem?_set_self hlt] at hj
        rw [hfill.length] at hlt
        rw [hk]
        refine h.own_byte hc trivial ?_
        rw [← hj]
        simp [Core.setValue, BenchCall.key, hlt]
      · rw [List.getElem?_set_ne hjb.symm] at hj
        refine (hfill.bytes hj).mono fun e r he _ _ => ?_
        rcases wroteBy_update he with he | ⟨rfl, _, hc₀, hw₀⟩
        · exact he
        · cases hc₀
          exact .inr ⟨i, _, hc, fun hm => hw₀ (mem_eraseIdx_of_ne hm ha hjb), rfl⟩
    · rw [update_of_ne hyx]
      exact hfill.mono (hfewer fun hky => hyx (h.unique hy hx (hky.trans hk.symm)))
  · have hok := h.calls hc'
    obtain ⟨hoff', -⟩ := hok.off ho
    cases call <;> cases ho
    refine ⟨hoff', ?_, hfewer fun hk' => hok.2.2.2 x hx (hk.trans hk'.symm)⟩
    rw [hb, update_of_ne]
    rintro rfl
    exact hoff' hx
  · cases hc'
    exact ⟨hx, (hkeep x hx).2.trans hk⟩
  · exact ((h.cores i).mono le_rfl fun _ hh => hh.mono hkeep).follow rfl hc rfl rfl id
      fun _ hm => hm

/-- A byte of an item is read. -/
theorem copyByte {todo : List ℕ} {a b : ℕ} (hc : (s.core i).call = some (.copy x key todo))
    (ha : todo[a]? = some b) :
    s.Steps jenkinsHash nbuckets st L (s.setCore i { s.core i with
      txBuf := update (s.core i).txBuf (Core.getAt b) ((s.table.item x).value.getD b 0)
      call := some (.copy x key (todo.eraseIdx a)) }) := by
  obtain ⟨hx, hk, hlt, hbytes⟩ := h.calls hc
  have hfill := h.filled hx
  have hb : b < (s.table.body x).value.length := by
    rw [hfill.length]
    exact hlt b (List.mem_of_getElem? ha)
  have hcount := h.counted_at hc
  refine h.quiet s.ended ({ s.core i with
    txBuf := update (s.core i).txBuf (Core.getAt b) ((s.table.item x).value.getD b 0)
    call := some (.copy x key (todo.eraseIdx a)) }) rfl hcount
    (h.history.follow (fun hc' hs => by cases hc'; exact hs.elim) rfl (h.history.gets i))
    (fun _ he => ?_) (fun hc' => ?_) ((h.cores i).follow rfl hc rfl rfl id fun _ hm => hm) id
    (.inl rfl)
  · refine (wroteBy_update he).resolve_right fun ⟨_, _, hc₀, hw₀⟩ => ?_
    cases hc₀
    exact hw₀
  cases hc'
  refine ⟨hx, hk, fun j hj => hlt j (List.mem_of_mem_eraseIdx hj), fun j hj hnot => ?_⟩
  dsimp only
  rcases eq_or_ne j b with rfl | hjb
  · rw [update_self, ← hk]
    have hb' : j < (s.table.item x).value.length := hb
    -- what had ended when the GET began has ended now
    refine (hfill.bytes ?_).mono fun e _ he _ _ => .inl (h.history.gets i e he)
    simp [Hasht.body, List.getElem?_eq_getElem hb']
  · rw [update_of_ne (by unfold Core.getAt; omega)]
    exact hbytes j hj fun hmem => hnot (mem_eraseIdx_of_ne hmem ha hjb)

theorem byteStep (a : ℕ) : s.Steps jenkinsHash nbuckets st L (s.byteStep i a) := by
  unfold Bench.byteStep
  split
  · rename_i hc
    split
    · rename_i ha
      exact h.storeByte hc ha
    · exact h.steps_self
  · rename_i hc
    split
    · rename_i ha
      exact h.copyByte hc ha
    · exact h.steps_self
  · exact h.steps_self

/-- A SET begins, between two requests. -/
theorem setRequest (c' : Core) (hc : (s.core i).call = none) (hcall : c'.call = some (.find key))
    (hbuf : c'.txBuf = (s.core i).txBuf) (hturn : c'.turn = s.sets.length)
    (hseen : c'.seen = (s.core i).seen) (hpast : (s.core i).phase.Past → c'.phase.Past)
    (hcore : CoreOk st i s.phase (Has s.table.body L) c') :
    s.Steps jenkinsHash nbuckets st L { s with
      core := update s.core i c'
      sets := s.sets ++ [⟨key, (s.core i).setValue st key, s.ended⟩] } := by
  have hlt : ∀ j e, WroteBy s.ended s.core j e → e < s.sets.length := fun _ _ => h.history.wrote_lt
  have hD : ∀ {j e}, WroteBy s.ended (update s.core i c') j e → WroteBy s.ended s.core j e :=
    fun he => (wroteBy_update he).resolve_right fun ⟨_, _, hc₀, hw₀⟩ => by
      rw [hcall] at hc₀
      cases hc₀
      exact hw₀
  refine ⟨L, ⟨?_, h.history.beginSet hcall hturn hbuf hseen, fun hy => ?_, fun {j call} hc' => ?_,
    fun j => ?_, h.count_update hpast (.inl rfl), fun hr j => past_update hpast (h.running hr j)⟩,
    le_rfl, fun y hy => ⟨hy, rfl⟩, fun y hy => .inl hy⟩
  · have hcount := h.counted
    rw [coreRefs_of_idle hc] at hcount
    dsimp only
    rw [coreRefs_update, items_of_call hcall, show (BenchCall.find key).items = [] from rfl,
      moreAll_nil]
    exact hcount
  · exact ((h.filled hy).append hlt _).mono fun _ he _ _ => hD he
  · dsimp only at hc' ⊢
    rcases eq_or_ne j i with rfl | hji
    · rw [update_self, hcall] at hc'
      cases hc'
      trivial
    · rw [update_of_ne hji] at hc' ⊢
      have hok := (h.calls hc').append hlt
        (fun e he => h.history.ended_lt e (h.history.gets j e he))
        [⟨key, (s.core i).setValue st key, s.ended⟩]
      exact hok.congr (fun y hy => ⟨hy, rfl⟩)
        (fun y hy => ⟨(hok.off hy).1, rfl, fun _ he _ _ => hD he⟩) fun _ y hy => .inl hy
  · dsimp only
    rcases eq_or_ne j i with rfl | hji
    · rw [update_self]
      exact hcore
    · rw [update_of_ne hji]
      exact h.cores j

/-- A step of a thread between two requests that begins no SET. -/
theorem advance (c' : Core) {m : UInt16} (hc : (s.core i).call = none) (hnil : c'.items = [])
    (hcall : ∀ {call}, c'.call = some call → ∃ key, call = .look key)
    (hturn : c'.turn = (s.core i).turn) (hseen : ∀ e ∈ c'.seen, e ∈ s.ended)
    (hcore : CoreOk st i s.phase (Has s.table.body L) c')
    (hpast : (s.core i).phase.Past → c'.phase.Past)
    (hm : m = s.initCount ∨ m = s.initCount + 1 ∧ ¬ (s.core i).phase.Past ∧ c'.phase.Past) :
    s.Steps jenkinsHash nbuckets st L { s with
      core := update s.core i c'
      initCount := m } := by
  have hcount := h.counted
  rw [coreRefs_of_idle hc, ← moreAll_nil (o := coreRest s.core i), ← hnil] at hcount
  refine h.quiet s.ended _ rfl hcount (h.history.follow (fun hc' hs => ?_) hturn hseen)
    (fun _ he => ?_) (fun hc' => ?_) hcore hpast hm
  · obtain ⟨key, rfl⟩ := hcall hc'
    exact hs.elim
  · refine (wroteBy_update he).resolve_right fun ⟨_, _, hc₀, hw₀⟩ => ?_
    obtain ⟨key, rfl⟩ := hcall hc₀
    exact hw₀
  · obtain ⟨key, rfl⟩ := hcall hc'
    trivial

/-- A thread goes on to its next phase. -/
theorem toPhase {m : UInt16} (hc : (s.core i).call = none) {q : CorePhase}
    (hcore : CoreOk st i s.phase (Has s.table.body L) { s.core i with phase := q })
    (hpast : (s.core i).phase.Past → q.Past)
    (hm : m = s.initCount ∨ m = s.initCount + 1 ∧ ¬ (s.core i).phase.Past ∧ q.Past) :
    s.Steps jenkinsHash nbuckets st L { s with
      core := update s.core i { s.core i with phase := q }
      initCount := m } := by
  have hnone : ({ s.core i with phase := q } : Core).call = none := hc
  refine h.advance _ hc (by rw [Core.items, hnone]; rfl) (fun hc' => ?_) rfl (h.history.gets i)
    hcore hpast hm
  rw [hnone] at hc'
  cases hc'

theorem threadStep (hskip : st.skipLoad = false) (hc : (s.core i).call = none) :
    s.Steps jenkinsHash nbuckets st L (s.threadStep st i) := by
  have hcore := h.cores i
  unfold Bench.threadStep
  dsimp only
  split
  · rename_i hp
    rw [hskip]
    split
    · exact h.steps_self
    · exact h.toPhase hc (.begin hc) (by rw [hp]; exact False.elim) (.inl rfl)
  · rename_i k hp
    split
    · rename_i key hk
      rw [setRequest_setCore]
      exact h.setRequest ({ s.core i with
        phase := .load (k + st.threads), call := some (.find key), turn := s.sets.length }) hc rfl
        rfl rfl rfl (by rw [hp]; exact False.elim) (hcore.next hp hc hk)
    · rename_i hk
      have hall : st.keys.length ≤ (s.core i).phase.upTo st := by
        rw [hp]
        exact List.getElem?_eq_none_iff.1 hk
      exact h.toPhase hc (hcore.advance hc hall (.inr rfl) (by rintro (hq | hq) <;> cases hq))
        (by rw [hp]; exact False.elim) (.inl rfl)
  · rename_i hp
    have hall : st.keys.length ≤ (s.core i).phase.upTo st := by rw [hp]; exact le_rfl
    exact h.toPhase hc (hcore.advance hc hall (.inl trivial) (by rintro (hq | hq) <;> cases hq))
      (fun _ => trivial) (.inr ⟨rfl, by rw [hp]; exact id, trivial⟩)
  · rename_i hp
    split
    · exact h.steps_self
    · rename_i hr
      have hall : st.keys.length ≤ (s.core i).phase.upTo st := by rw [hp]; exact le_rfl
      exact h.toPhase hc (hcore.advance hc hall (.inl trivial) fun _ => not_lt.1 hr)
        (fun _ => trivial) (.inl rfl)
  · rename_i hp
    split
    · exact h.steps_self
    · have hall : st.keys.length ≤ (s.core i).phase.upTo st := by rw [hp]; exact le_rfl
      exact h.toPhase hc (hcore.advance hc hall (.inl trivial) fun _ => hcore.after (.inl hp))
        (fun _ => trivial) (.inl rfl)
  · exact h.steps_self

/-- `send_pending` with a key of the workload. -/
theorem send {get : Bool} (hp : (s.core i).phase = .run) (hc : (s.core i).call = none)
    (hk : st.keys[k]? = some key) : s.Steps jenkinsHash nbuckets st L
      (if get then s.getRequest i key else s.setRequest st i key) := by
  have hcore := h.cores i
  have hcore' : ∀ {c' : Core} {call : BenchCall}, c'.phase = (s.core i).phase →
      c'.call = some call → call.key = key → ¬ call.Missed →
      CoreOk st i s.phase (Has s.table.body L) c' := fun {c' call} hp' hc' hkey hm => by
    refine ⟨fun {call'} hc₀ => ?_, fun hload => hcore.turn (hp' ▸ hload),
      fun {j key'} hj hi hlt => ?_, by rw [hp']; exact hcore.after⟩
    · cases hc'.symm.trans hc₀
      rw [hp', hp]
      exact ⟨hkey ▸ List.mem_of_getElem? hk, hm⟩
    · rw [hp'] at hlt
      refine (hcore.stored hj hi hlt).imp_right fun ⟨_, call', hc₀, _⟩ => ?_
      rw [hc] at hc₀
      cases hc₀
  split
  · exact h.advance { s.core i with call := some (.look key), seen := s.ended } hc rfl
      (fun hc' => by cases hc'; exact ⟨key, rfl⟩) rfl (fun _ he => he) (hcore' rfl rfl rfl id) id
      (.inl rfl)
  · exact h.setRequest { s.core i with call := some (.find key), turn := s.sets.length } hc
      rfl rfl rfl rfl id (hcore' rfl rfl rfl id)

/-- A step of `main`. -/
theorem setPhase {p : BenchmarkPhase} (hp : s.phase.val ≤ p.val)
    (hr : BenchmarkPhase.running.val ≤ p.val → ∀ i, (s.core i).phase.Past) :
    s.Steps jenkinsHash nbuckets st L { s with phase := p } :=
  ⟨L, ⟨h.counted, h.history, h.filled, h.calls, fun i => (h.cores i).mono hp fun _ hk => hk,
    h.count, hr⟩, hp, fun _ hy => ⟨hy, rfl⟩, fun _ hy => .inl hy⟩

/-- The count of `init_count` is full only if all threads have added to it. -/
theorem all_past (hfull : st.threads ≤ s.initCount.toNat) (i : Fin st.threads) :
    (s.core i).phase.Past := by
  have hcard : (Finset.univ.filter fun i => (s.core i).phase.Past) = Finset.univ := by
    refine Finset.eq_univ_of_card _ (le_antisymm (Finset.card_le_univ _) ?_)
    rw [Fintype.card_fin]
    exact hfull.trans h.count
  have hi : i ∈ Finset.univ.filter fun i => (s.core i).phase.Past := by
    rw [hcard]
    exact Finset.mem_univ i
  exact (Finset.mem_filter.1 hi).2

theorem mainStep : s.Steps jenkinsHash nbuckets st L s.mainStep := by
  unfold Bench.mainStep
  rcases hp : s.phase <;> dsimp only
  · exact h.setPhase (by rw [hp]; decide) fun hr => absurd hr (by decide)
  · exact h.setPhase (by rw [hp]; decide) fun hr => absurd hr (by decide)
  · split
    · exact h.steps_self
    · rename_i hfull
      exact h.setPhase (by rw [hp]; decide) fun _ => h.all_past (not_lt.1 hfull)
  · exact h.steps_self
  · exact h.steps_self
  · split
    · exact h.setPhase (by rw [hp]; decide) fun _ => h.running (by rw [hp]; decide)
    · exact h.steps_self
  · exact h.steps_self

section Next

variable (hpos : 0 < st.threads) (hn : st.threads < 65535) (hap : st.Apart)
include hpos hn hap

theorem calling (junk : ℕ → UInt8) (hc : (s.core i).call = some call)
    (hl : ∀ x ∈ fresh, x ∉ s.table.live) :
    (fresh = none ∧ ∃ key, call = .make key) ∨
      ∃ s', s.callStep jenkinsHash nbuckets st i fresh junk call = .ok s' ∧
        s.Steps jenkinsHash nbuckets st L s' := by
  cases call with
  | find key => exact .inr (h.find hpos hap hn hc)
  | make key =>
    rcases fresh with _ | x
    · exact .inl ⟨rfl, key, rfl⟩
    · exact .inr (h.make hap hc (hl x rfl))
  | put x key => exact .inr (h.insert hap hc)
  | check x key => exact .inr (h.check hap hn hc)
  | unrefNew x key => exact .inr (h.unrefNew hc)
  | fields x key => exact .inr (h.fields hc)
  | store x key todo => exact .inr (h.stored hc)
  | unref x key => exact .inr (h.unref hc)
  | look key => exact .inr (h.look hap hn hc)
  | copy x key todo => exact .inr (h.copied hc)
  | answer x key => exact .inr (h.answer hc)

theorem next (hskip : st.skipLoad = false) {a : BenchAct st.threads} (hl : a.Legal s) :
    a.OutOfMemory s ∨ ∃ s', a.next jenkinsHash nbuckets st s = .ok s' ∧
      s.Steps jenkinsHash nbuckets st L s' := by
  cases a with
  | main => exact .inr ⟨_, rfl, h.mainStep⟩
  | dynHotset =>
    refine .inr ⟨_, rfl, ?_⟩
    split
    · rename_i hp
      exact h.setPhase (by rw [hp]; decide) fun _ => h.running (by rw [hp])
    · exact h.steps_self
  | cooldown =>
    refine .inr ⟨_, rfl, ?_⟩
    split
    · rename_i hp
      have hr : BenchmarkPhase.running.val ≤ s.phase.val ∧
          s.phase.val ≤ BenchmarkPhase.cooldown.val := by
        rcases hp with hp | hp <;> rw [hp] <;> decide
      exact h.setPhase hr.2 fun _ => h.running hr.1
    · exact h.steps_self
  | core i fresh junk =>
    rcases hc : (s.core i).call with _ | call
    · exact .inr ⟨_, by simp only [BenchAct.next, hc], h.threadStep hskip hc⟩
    · rcases h.calling hpos hn hap junk hc hl with ⟨hnone, key, rfl⟩ | hs
      · exact .inl ⟨hnone, key, hc⟩
      · simp only [BenchAct.next, hc]
        exact .inr hs
  | send i get k =>
    simp only [BenchAct.next]
    split
    · rename_i hp
      split
      · rename_i key hk
        exact .inr ⟨_, rfl, h.send hp.1 (Option.isNone_iff_eq_none.1 hp.2.1) hk⟩
      · exact .inr ⟨_, rfl, h.steps_self⟩
    · exact .inr ⟨_, rfl, h.steps_self⟩
  | byte i j => exact .inr ⟨_, rfl, h.byteStep j⟩

end Next

theorem none_put (hr : BenchmarkPhase.running.val ≤ s.phase.val) (x : ℕ) :
    ¬ ∃ i key, (s.core i).call = some (.put x key) := fun ⟨_, _, hc⟩ => by
  obtain ⟨k, hp⟩ := h.load_of_missed hc trivial
  exact h.not_running hp hr

/-- The items allocated are those in the table and those about to be put there. -/
theorem mem_live_iff :
    x ∈ s.table.live ↔ On L x ∨ ∃ i key, (s.core i).call = some (.put x key) := by
  constructor
  · intro hx
    refine or_iff_not_imp_left.2 fun hoff => ?_
    have hrefs := h.counted.refs x
    rw [if_neg hoff, Nat.zero_add] at hrefs
    have hne : coreRefs s.core x ≠ 0 := hrefs ▸ ne_zero_iff.1 ((h.counted.mem x).1 hx)
    obtain ⟨i, -, hi⟩ := Finset.exists_ne_zero_of_sum_ne_zero hne
    have hmem := List.count_pos_iff.1 (Nat.pos_of_ne_zero hi)
    rcases hc : (s.core i).call with _ | call
    · simp [Core.items, hc] at hmem
    · rw [items_of_call hc] at hmem
      have hown : call.owns = some x := not_not.1 fun ho => hoff ((h.calls hc).on hmem ho)
      cases call <;> cases hown
      exact ⟨i, _, hc⟩
  · rintro (hx | ⟨i, key, hc⟩)
    · exact h.counted.wf.live hx
    · refine h.counted.live fun h0 => ?_
      have := count_le_coreRefs s.core i x
      rw [h0, items_of_call hc] at this
      simp [BenchCall.items] at this

end Bench.Inv

theorem BenchAct.OutOfMemory.next {a : BenchAct st.threads} (h : a.OutOfMemory s) :
    a.next jenkinsHash nbuckets st s = .error .abort := by
  cases a <;> try exact h.elim
  obtain ⟨rfl, key, hc⟩ := h
  simp only [BenchAct.next, hc]
  rfl

section Runs

variable (hpos : 0 < st.threads) (hn : st.threads < 65535) (hap : st.Apart)
  (hskip : st.skipLoad = false)
  (h : (bench jenkinsHash nbuckets st).Reach (fun s a => a.Legal s) s)
include hpos hn hap hskip h

theorem bench_inv : ∃ L, s.Inv jenkinsHash nbuckets st L := by
  refine h.invariant (I := fun s => ∃ L, s.Inv jenkinsHash nbuckets st L) ?_
    fun s a s' hs hl ha => ?_
  · rintro s ⟨buf, rfl⟩
    have hno : ∀ {x}, ¬ On (fun _ _ => []) x := by
      rintro x ⟨_, _, hx⟩
      cases hx
    refine ⟨fun _ _ => [], ?_, ⟨?_, ?_, ?_, ?_, ?_⟩, fun hx => (hno hx).elim, ?_, fun i => ?_,
      Nat.zero_le _, fun hr => absurd (show 3 ≤ 0 from hr) (by decide)⟩
    · convert counted_empty using 1
      funext x
      simp [coreRefs, Core.items]
    · intro _ _ hc
      cases hc
    · intro _ _ _ _ hc
      cases hc
    · intro _ he
      cases he
    · intro _ hr
      cases hr
    · intro _ _ he
      cases he
    · intro _ _ hc
      cases hc
    · refine ⟨fun hc => ?_, fun hp => ?_, fun _ _ hlt => ?_, fun hq => ?_⟩
      · cases hc
      · cases hp
      · exact absurd hlt (Nat.not_lt_zero _)
      · rcases hq with hq | hq <;> cases hq
  · obtain ⟨L, hs⟩ := hs
    rcases hs.next hpos hn hap hskip hl with hoom | ⟨t, ht, L', hi, -⟩
    · cases ha.symm.trans hoom.next
    · cases ha.symm.trans ht
      exact ⟨L', hi⟩

/-- A step that returns, with the lists after it. -/
theorem bench_steps {a : BenchAct st.threads} {s' : Bench st.threads} (hl : a.Legal s)
    (ha : a.next jenkinsHash nbuckets st s = .ok s') :
    ∃ L, s.Inv jenkinsHash nbuckets st L ∧ s.Steps jenkinsHash nbuckets st L s' := by
  obtain ⟨L, hs⟩ := bench_inv hpos hn hap hskip h
  rcases hs.next hpos hn hap hskip hl with hoom | ⟨t, ht, hst⟩
  · cases ha.symm.trans hoom.next
  · cases ha.symm.trans ht
    exact ⟨L, hs, hst⟩

open scoped Classical in
/-- No run of `kvsbench` fails an assertion, writes past an item or loses count of a reference,
and only a full memory ends it. -/
theorem bench_faultless : (∀ (a : BenchAct st.threads) e, a.Legal s →
      a.next jenkinsHash nbuckets st s = .error e → a.OutOfMemory s) ∧
    ∀ x, (s.table.item x).refcount.toNat =
      (if s.table.Holds x then 1 else 0) + ∑ i, (s.core i).items.count x := by
  obtain ⟨L, hs⟩ := bench_inv hpos hn hap hskip h
  refine ⟨fun a e hl he => ?_, fun x => ?_⟩
  · rcases hs.next hpos hn hap hskip hl with hoom | ⟨t, ht, -⟩
    · exact hoom
    · cases he.symm.trans ht
  · simp only [hs.counted.wf.holds_iff]
    exact hs.counted.refs x

/-- What is stored stays where it is, and once `main` lets the threads run all keys are stored and
no item is allocated or freed. -/
theorem bench_settles {a : BenchAct st.threads} {s' : Bench st.threads} (hl : a.Legal s)
    (ha : a.next jenkinsHash nbuckets st s = .ok s') :
    (∀ key x, s.Stores jenkinsHash nbuckets key x → s'.Stores jenkinsHash nbuckets key x) ∧
    (BenchmarkPhase.running.val ≤ s.phase.val →
      (∀ key ∈ st.keys, ∃ x, s.Stores jenkinsHash nbuckets key x) ∧
      (∀ x, x ∈ s'.table.live ↔ x ∈ s.table.live) ∧
      ∀ key x, s'.Stores jenkinsHash nbuckets key x ↔ s.Stores jenkinsHash nbuckets key x) := by
  obtain ⟨L, hs, L', hs', hphase, hkeep, hnew⟩ := bench_steps hpos hn hap hskip h hl ha
  have hstay : ∀ key x, s.Stores jenkinsHash nbuckets key x →
      s'.Stores jenkinsHash nbuckets key x := fun key x hx => by
    obtain ⟨hon, hk⟩ := hs.stores_iff.1 hx
    exact hs'.stores_iff.2 ⟨(hkeep x hon).1, (hkeep x hon).2.trans hk⟩
  refine ⟨hstay, fun hr => ?_⟩
  have hon : ∀ y, On L' y ↔ On L y := fun y =>
    ⟨fun hy => (hnew y hy).resolve_right (hs.none_put hr y), fun hy => (hkeep y hy).1⟩
  refine ⟨fun key hkey => ?_, fun x => ?_, fun key x => ⟨fun hx => ?_, hstay key x⟩⟩
  · obtain ⟨x, hx, hk⟩ := hs.allStored hpos hr hkey
    exact ⟨x, hs.stores_iff.2 ⟨hx, hk⟩⟩
  · rw [hs.mem_live_iff, hs'.mem_live_iff, hon, or_iff_left (hs.none_put hr x),
      or_iff_left (hs'.none_put (hr.trans hphase) x)]
  · obtain ⟨hx, hk⟩ := hs'.stores_iff.1 hx
    rw [hon] at hx
    exact hs.stores_iff.2 ⟨hx, (hkeep x hx).2.symm.trans hk⟩

/-- Each byte that a GET has read is that of a SET of the key, and no SET of the key that began when
that one had ended had ended itself when the GET began. -/
theorem bench_regular (hc : (s.core i).call = some (.answer x key)) :
    s.Stores jenkinsHash nbuckets key x ∧ ∀ j < st.valuesize,
      Regular s.sets (· ∈ (s.core i).seen) key j ((s.core i).txBuf (Core.getAt j)) := by
  obtain ⟨L, hs⟩ := bench_inv hpos hn hap hskip h
  obtain ⟨hx, hk, hbytes⟩ := hs.calls hc
  exact ⟨hs.stores_iff.2 ⟨hx, hk⟩, hbytes⟩

end Runs

section Witness

private def twoKeys : BenchSettings := ⟨2, [[1], [2]], 1, false⟩

private def first : Fin twoKeys.threads := ⟨0, Nat.two_pos⟩

private def second : Fin twoKeys.threads := ⟨1, Nat.one_lt_two⟩

private def zeros : ℕ → UInt8 := fun _ => 0

/-- The steps of a thread that stores its key, from `load_keys` on. -/
private def storing (i : Fin twoKeys.threads) (x : ℕ) :
    List (BenchAct twoKeys.threads) :=
  [.core i none zeros, .core i none zeros, .core i none zeros, .core i (some x) zeros,
    .core i none zeros, .core i none zeros, .core i none zeros, .core i none zeros]

private def loading : List (BenchAct twoKeys.threads) :=
  [.main, .main] ++ storing first 40 ++ storing second 80 ++
    [.core first none zeros, .core first none zeros, .core second none zeros,
      .core second none zeros, .main]

/-- A GET of the other thread's key, up to its last step. -/
private def getting : List (BenchAct twoKeys.threads) :=
  [.core first none zeros, .send first true 1, .core first none zeros, .byte first 0,
    .core first none zeros]

private theorem twoKeys_apart : twoKeys.Apart := by
  intro i j key hi hj
  have hnodup : twoKeys.keys.Nodup := by decide
  have hlt := (List.getElem?_eq_some_iff.1 hi).1
  rw [(List.getElem?_inj hlt hnodup).1 (hi.trans hj.symm)]

private theorem twoKeys_reach : ∃ s : Bench twoKeys.threads,
    (bench (fun _ => 5) 3 twoKeys).Reach (fun s a => a.Legal s) s ∧ s.phase = .running ∧
      (s.core first).call = some (.answer 80 [2]) ∧ (s.core first).seen = [0, 1] := by
  obtain ⟨s, hs, hP⟩ := System.drive_reach (S := bench (fun _ => 5) 3 twoKeys)
    (fun s a => (a.next (fun _ => 5) 3 twoKeys s).toOption) (fun s a => a.Legal s)
    (fun s a s' he => by
      rcases hr : a.next (fun _ => 5) 3 twoKeys s with e | t
      · rw [hr] at he
        cases he
      · rw [hr] at he
        exact hr.trans (congrArg Except.ok (Option.some.inj he)))
    (fun _ _ => id) ⟨fun _ _ => 9, rfl⟩ (loading ++ getting)
    (fun s => s.phase = .running ∧ (s.core first).call = some (.answer 80 [2]) ∧
      (s.core first).seen = [0, 1]) (by decide +kernel)
  exact ⟨s, hs, of_decide_eq_true hP⟩

open scoped Classical in
/-- Both threads have loaded their keys, and the first is in a GET of the second key. -/
theorem bench_faultless_getting : ∃ s : Bench twoKeys.threads,
    (s.core first).call = some (.answer 80 [2]) ∧ (s.table.item 80).refcount.toNat =
      (if s.table.Holds 80 then 1 else 0) + ∑ i, (s.core i).items.count 80 := by
  obtain ⟨s, hs, -, hc, -⟩ := twoKeys_reach
  exact ⟨s, hc, (bench_faultless (by decide) (by decide) twoKeys_apart rfl hs).2 80⟩

/-- While the first thread is in its GET, both keys are stored. -/
theorem bench_settles_getting : ∃ s : Bench twoKeys.threads,
    (s.core first).call = some (.answer 80 [2]) ∧
      ∀ key ∈ [[1], [2]], ∃ x, s.Stores (fun _ => 5) 3 key x := by
  obtain ⟨s, hs, hp, hc, -⟩ := twoKeys_reach
  have hr : BenchmarkPhase.running.val ≤ s.phase.val := by rw [hp]
  exact ⟨s, hc, ((bench_settles (by decide) (by decide) twoKeys_apart rfl hs (a := .main) trivial
    rfl).2 hr).1⟩

/-- The GET has copied the first byte, after both preloading SETs have ended. -/
theorem bench_regular_getting : ∃ s : Bench twoKeys.threads, (s.core first).seen = [0, 1] ∧
    s.Stores (fun _ => 5) 3 [2] 80 ∧
      Regular s.sets (· ∈ (s.core first).seen) [2] 0 ((s.core first).txBuf (Core.getAt 0)) := by
  obtain ⟨s, hs, -, hc, hseen⟩ := twoKeys_reach
  obtain ⟨hx, hb⟩ := bench_regular (by decide) (by decide) twoKeys_apart rfl hs hc
  exact ⟨s, hseen, hx, hb 0 (by decide)⟩

/-- Where two threads load one key, the assertion of `set_request` fails. -/
example : ((System.drive (fun s a => (BenchAct.next (fun _ => 5) 3 ⟨2, [[1], [1]], 1, false⟩ s
    a).toOption) (fun s a => a.Legal s) ([.main, .main] ++ (storing first 40).take 3 ++
      (storing second 80).take 5 ++ ((storing first 40).drop 3).take 2)
        ({ core := fun _ => { txBuf := zeros } } : Bench 2)).any fun s =>
          (BenchAct.next (fun _ => 5) 3 ⟨2, [[1], [1]], 1, false⟩ s
            (.core second none zeros)).toOption.isNone) = true := by decide +kernel

end Witness

end FlexKvs

import HeMem.FlexKvs.Proofs.Pass

/-!
# The log is the segment allocator with items

`Log` has the functions of `ialloc.c` once more, with what the cleaning reads and writes.  Without
that each of them is the function of `Ialloc`, and a call on the log is one call on the segments or
none.  So what the segments are like in every run, they are like in every run of the log.
-/

namespace FlexKvs

open Function

variable {A : Type} {st : CleanSettings} {s t : Log A} {total : ℕ}

/-- The call on the segments that a call on the log comes to. -/
def LogAct.segments (s : Log A) : LogAct A → Option (IallocAct A)
  | init a ok ok' => some (.init a ok ok')
  | alloc a keylen vallen cleanup ok =>
    some (.alloc a (itemSize + keylen.toNat + vallen.toNat) cleanup ok)
  | ref _ => none
  | unref it =>
    if (s.item it).refcount = 1 then some (.free it (s.item it).totalsz) else none
  | cleanupItem a idle ok => some (.cleanupItem a idle ok)
  | nextRequest a => some (.nextRequest a)
  | maintenance a => some (.maintenance a)

namespace Log

theorem iallocFree_ialloc {it : ℕ} (hs : s.iallocFree st it total = .ok t) :
    ∃ i, s.ialloc.iallocFree st.toSettings it total = some i ∧
      t.ialloc = { i with live := i.live.erase (it, total) } := by
  unfold iallocFree at hs
  rcases hi : s.ialloc.iallocFree st.toSettings it total with _ | i <;> rw [hi] at hs <;> cases hs
  exact ⟨i, rfl, rfl⟩

variable [DecidableEq A] {a : A}

/-- The last reference to an item frees it. -/
theorem itemUnref_ialloc {it : ℕ} (hs : s.itemUnref st it = .ok t) :
    if (s.item it).refcount = 1 then
      (IallocAct.free it (s.item it).totalsz : IallocAct A).next st.toSettings s.ialloc =
        some t.ialloc
    else t.ialloc = s.ialloc := by
  have hlast : (s.item it).refcount - 1 = 0 ↔ (s.item it).refcount = 1 := by grind
  unfold itemUnref at hs
  simp only [editItem, update_self] at hs
  split_ifs at hs with h0 h1
  · obtain ⟨i, hi, ht⟩ := iallocFree_ialloc hs
    rw [if_pos (hlast.1 h1)]
    change (s.ialloc.iallocFree st.toSettings it (s.item it).totalsz).map _ = _
    rw [show s.ialloc.iallocFree st.toSettings it (s.item it).totalsz = some i from hi, ht]
    rfl
  · cases hs
    rw [if_neg (hlast.not.1 h1)]

theorem iallocInitAllocator_ialloc {ok ok' : Bool}
    (hs : s.iallocInitAllocator st a ok ok' = .ok t) :
    s.ialloc.iallocInitAllocator st.toSettings a ok ok' = some t.ialloc := by
  unfold iallocInitAllocator at hs
  unfold Ialloc.iallocInitAllocator
  rcases h1 : s.segmentAlloc st ok with ⟨_ | cur, u⟩ <;> simp only [h1] at hs
  · cases hs
  rcases h2 : (u.setNext cur none).segmentAlloc st ok' with ⟨_ | reserved, v⟩ <;>
    simp only [h2] at hs <;> cases hs
  have h2' := segmentAlloc_ialloc h2
  simp only [setNext] at h2'
  simp only [segmentAlloc_ialloc h1, h2']
  rfl

theorem iallocAlloc_ialloc {cleanup ok : Bool} {r : Option ℕ}
    (hs : s.iallocAlloc st a total cleanup ok = .ok (r, t)) :
    s.ialloc.iallocAlloc st.toSettings a total cleanup ok = some (r, t.ialloc) := by
  unfold iallocAlloc at hs
  unfold Ialloc.iallocAlloc
  rcases hia : s.ialloc.ia a with _ | ia <;> simp only [hia] at hs
  · cases hs
  simp only [Option.bind_eq_bind, Option.bind_some]
  split_ifs at hs ⊢
  · cases hs
    rfl
  rcases h1 : s.segmentItemAlloc st ia.cur total with ⟨_ | it, u⟩ <;> simp only [h1] at hs
  swap
  · cases hs
    simp only [segmentItemAlloc_ialloc h1]
  simp only [segmentItemAlloc_ialloc h1]
  rcases h2 : u.segmentAlloc st ok with ⟨_ | h, v⟩ <;> simp only [h2] at hs
  · simp only [segmentAlloc_ialloc h2]
    rcases hres : ia.reserved with _ | h <;> cases cleanup <;> simp only [hres] at hs ⊢
    · cases hs
      rfl
    · cases hs
      rfl
    · cases hs
      rfl
    · rw [← segmentItemAlloc_ialloc (Except.ok.inj hs)]
      rfl
  · simp only [segmentAlloc_ialloc h2]
    rw [← segmentItemAlloc_ialloc (Except.ok.inj hs)]
    rfl

theorem newItem_ialloc {keylen : UInt16} {vallen : UInt32} {cleanup ok : Bool}
    (hs : s.newItem st a keylen vallen cleanup ok = .ok t) :
    (IallocAct.alloc a (itemSize + keylen.toNat + vallen.toNat) cleanup ok).next st.toSettings
      s.ialloc = some t.ialloc := by
  unfold newItem at hs
  rcases h : s.iallocAlloc st a (itemSize + keylen.toNat + vallen.toNat) cleanup ok with e | ⟨r, u⟩ <;>
    rw [h] at hs <;> cases hs
  change (s.ialloc.iallocAlloc st.toSettings a _ cleanup ok).map _ = _
  rw [iallocAlloc_ialloc h]
  rcases r with _ | it <;> rfl

theorem iallocCleanupItem_ialloc {idle ok : Bool} {r : Option ℕ}
    (hs : s.iallocCleanupItem st a idle ok = .ok (r, t)) :
    s.ialloc.iallocCleanupItem st.toSettings a idle ok = some t.ialloc := by
  unfold iallocCleanupItem at hs
  unfold Ialloc.iallocCleanupItem
  rcases hia : s.ialloc.ia a with _ | ia <;> simp only [hia] at hs
  · cases hs
  simp only [Option.bind_eq_bind, Option.bind_some]
  by_cases hbusy : idle = false ∧ ia.cleanupCount ≥ 32
  · rw [if_pos hbusy] at hs ⊢
    cases hs
    rfl
  rw [if_neg hbusy] at hs ⊢
  generalize (if idle then ia else { ia with cleanupCount := ia.cleanupCount + 1 }) = j at hs ⊢
  by_cases hnone : j.reserved = none
  · rw [if_pos hnone] at hs ⊢
    rcases h1 : Log.segmentAlloc { s with
      cleaner := update s.cleaner a (Cleaner.take st.segcqsize (s.cleaner a)).2 } st ok with ⟨h, u⟩
    simp only [h1] at hs
    cases hs
    have h1' := segmentAlloc_ialloc h1
    change s.ialloc.segmentAlloc st.toSettings ok = (h, u.ialloc) at h1'
    rw [h1']
    rfl
  · rw [if_neg hnone] at hs ⊢
    cases hs
    rfl

theorem iallocCleanupNextrequest_ialloc (hs : s.iallocCleanupNextrequest a = .ok t) :
    s.ialloc.iallocCleanupNextrequest a = some t.ialloc := by
  unfold iallocCleanupNextrequest at hs
  unfold Ialloc.iallocCleanupNextrequest
  rcases hia : s.ialloc.ia a with _ | ia <;> rw [hia] at hs <;> cases hs
  rfl

/-- The pick of a segment to clean changes no segment. -/
theorem recycleLoop_ialloc : ∀ {n : ℕ} {prev cur cand r : Option ℕ} {q : Rat} {s : Log A},
    s.recycleLoop st a n prev cur cand q = .ok (r, t) →
      Ialloc.maintenanceLoop a n prev cur s.ialloc = some t.ialloc
  | 0, _, _, _, _, _, _, hs => by cases hs
  | n + 1, prev, none, cand, _, _, s, hs => by
    cases hs
    rfl
  | n + 1, prev, some h, cand, _, q, s, hs => by
    unfold recycleLoop at hs
    unfold Ialloc.maintenanceLoop
    rcases hn : (s.ialloc.header h).next with _ | next <;> simp only [hn] at hs ⊢
    · cases hs
      rfl
    by_cases hi : (s.ialloc.header h).inactive = false
    · rw [if_pos hi] at hs ⊢
      cases hs
      rfl
    rw [if_neg hi] at hs ⊢
    by_cases hf : (s.ialloc.header h).freed = (s.ialloc.header h).size
    · rw [if_pos hf] at hs ⊢
      have hloop := recycleLoop_ialloc hs
      rcases prev with _ | p <;> exact hloop
    · rw [if_neg hf] at hs ⊢
      split_ifs at hs
      · exact recycleLoop_ialloc hs
      · exact recycleLoop_ialloc hs

/-- A pass recycles segments, and its scan changes none. -/
theorem iallocMaintenance_ialloc (hs : s.iallocMaintenance st a = .ok t) :
    s.ialloc.iallocMaintenance a = some t.ialloc := by
  unfold iallocMaintenance prepare at hs
  unfold Ialloc.iallocMaintenance
  rcases hia : s.ialloc.ia a with _ | ia <;> simp only [hia] at hs
  · cases hs
  rcases hl : s.recycleLoop st a (s.ialloc.segAlloced + 1) none ia.oldest none 0 with e | ⟨cand, u⟩
  · rw [hl] at hs
    cases hs
  rw [hl] at hs
  refine (recycleLoop_ialloc hl).trans (congrArg some ?_)
  have hbegin : ∀ c : Prop, [Decidable c] →
      (if c then u.beginCleaning a cand else u).ialloc = u.ialloc := fun c _ => by
    split_ifs <;> rfl
  dsimp only [bind, Except.bind, pure, Except.pure] at hs
  split at hs
  · cases hs
    exact (hbegin _).symm
  · split at hs
    · cases hs
    · rename_i r hloop
      cases hs
      exact ((cleanLoop_scanned hloop).ialloc.trans (hbegin _)).symm

end Log

variable [DecidableEq A]

/-- A call on the log is, of what it does to the segments, one call on them or none. -/
theorem LogAct.next_ialloc {c : LogAct A} (hs : c.next st s = .ok t) :
    match c.segments s with
    | some b => b.next st.toSettings s.ialloc = some t.ialloc
    | none => t.ialloc = s.ialloc := by
  cases c with
  | init a ok ok' => exact Log.iallocInitAllocator_ialloc hs
  | alloc a keylen vallen cleanup ok => exact Log.newItem_ialloc hs
  | ref it =>
    cases hs
    rcases Log.itemTryref_cases (s := s) it with ht | ht <;> rw [segments, ht]
    rfl
  | unref it =>
    have h := Log.itemUnref_ialloc hs
    simp only [segments]
    split_ifs at h ⊢ <;> exact h
  | cleanupItem a idle ok =>
    change (s.iallocCleanupItem st a idle ok).map Prod.snd = .ok t at hs
    rcases hr : s.iallocCleanupItem st a idle ok with e | ⟨r, u⟩ <;> rw [hr] at hs <;> cases hs
    exact Log.iallocCleanupItem_ialloc hr
  | nextRequest a => exact Log.iallocCleanupNextrequest_ialloc hs
  | maintenance a => exact Log.iallocMaintenance_ialloc hs

omit [DecidableEq A] in
/-- The call on the segments is made as its callers may: in particular an item is freed with the
total it was allocated with. -/
theorem Log.Inv.segments_legal {role : ℕ → Role A} (hI : s.Inv st role) {c : LogAct A}
    {b : IallocAct A} (hl : c.Legal st s) (hb : c.segments s = some b) :
    b.Legal st.toSettings s.ialloc := by
  cases c with
  | init a ok ok' =>
    cases hb
    exact hl
  | alloc a keylen vallen cleanup ok =>
    cases hb
    exact ⟨by omega, hl⟩
  | ref it => cases hb
  | unref it =>
    simp only [LogAct.segments] at hb
    split_ifs at hb
    cases hb
    obtain ⟨⟨i, n⟩, hmem, rfl⟩ := List.mem_map.1 hl
    have hn := hI.sized (i, n) hmem
    dsimp only at hn ⊢
    rwa [hn]
  | cleanupItem a idle ok =>
    cases hb
    trivial
  | nextRequest a =>
    cases hb
    trivial
  | maintenance a =>
    cases hb
    trivial

/-- The segments of a run of the log are those of a run of `ialloc.c`. -/
theorem log_reach_ialloc (h : (log A st).Reach (fun s c => c.Legal st s) s) :
    (ialloc A st.toSettings).Reach (fun s c => c.Legal st.toSettings s) s.ialloc := by
  induction h with
  | init hs => exact .init (congrArg Log.ialloc hs)
  | @step s t c h hl hs ih =>
    obtain ⟨role, hI⟩ := Log.inv_reach h
    have hnext := LogAct.next_ialloc hs
    rcases hb : c.segments s with _ | b <;> rw [hb] at hnext
    · rwa [show t.ialloc = s.ialloc from hnext]
    · exact ih.step (hI.segments_legal hl hb) hnext

end FlexKvs

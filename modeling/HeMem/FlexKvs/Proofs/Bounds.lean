import HeMem.FlexKvs.Bounds
import Mathlib.Tactic.SplitIfs
import Mathlib.Data.List.Basic

/-!
# When a request stays inside itself

Nothing compares the three lengths of a request with each other, so what is touched is inside the
request exactly if the client has made them fit.
-/

namespace FlexKvs

open Function

variable {lo hi k n base kl bl : ℕ} {aligned : Bool}

section Reads

theorem read_within (hk : lo ≤ k) : (Touch.read k n).Within lo hi ↔ n = 0 ∨ k + n ≤ hi := by
  constructor
  · intro h
    rcases Nat.eq_zero_or_pos n with h0 | hpos
    · exact .inl h0
    · have := (h (n - 1) (by omega)).2
      omega
  · intro h j hj
    omega

theorem le_hashed : n ≤ hashed aligned n := by
  unfold hashed
  split <;> omega

theorem hashed_block (h : 12 < n) : hashed aligned n = 12 + hashed aligned (n - 12) := by
  unfold hashed
  split <;> omega

theorem hashReads_within (hk : lo ≤ k) :
    (∀ t ∈ hashReads aligned k n, t.Within lo hi) ↔ n = 0 ∨ k + hashed aligned n ≤ hi := by
  induction n using Nat.strongRecOn generalizing k with
  | ind n ih =>
    unfold hashReads
    split_ifs with hn h0
    · have htail := ih (n - 12) (by omega) (k := k + 12) (by omega)
      rw [List.forall_mem_cons, read_within hk, htail, hashed_block hn]
      omega
    · simp [h0]
    · simp only [List.mem_singleton, forall_eq, read_within hk]
      have := @le_hashed n aligned
      omega

theorem lookupReads_within (hk : lo ≤ k) : (∀ t ∈ lookupReads base k kl, t.Within lo hi) ↔
    kl = 0 ∨ k + hashed ((base + k) % 4 = 0) kl ≤ hi := by
  unfold lookupReads
  rw [List.forall_mem_append, hashReads_within hk]
  simp only [List.mem_singleton, forall_eq, read_within hk]
  have := @le_hashed kl (decide ((base + k) % 4 = 0))
  omega

end Reads

section Allocation

variable {A : Type} {st : Settings} {s : Ialloc A} {a : A} {ia : ItemAllocator} {h total : ℕ}
  {ok : Bool}

theorem segmentItemAlloc_isSome (ht : 0 < total) :
    (s.segmentItemAlloc st h total).1.isSome ↔
      total ≤ ((s.header h).size - (s.header h).offset).toNat := by
  unfold Ialloc.segmentItemAlloc
  dsimp only
  split_ifs
  · exact iff_of_false (by simp) (by omega)
  · exact iff_of_false (by simp) (by omega)
  · exact iff_of_true rfl (by omega)

/-- The current segment is closed, with its size. -/
theorem segmentItemAlloc_none (hn : (s.segmentItemAlloc st h total).1 = none) :
    (s.segmentItemAlloc st h total).2.freeSegments = s.freeSegments ∧
      (s.segmentItemAlloc st h total).2.segAlloced = s.segAlloced ∧
      ∀ x, ((s.segmentItemAlloc st h total).2.header x).size = (s.header x).size := by
  unfold Ialloc.segmentItemAlloc at hn ⊢
  dsimp only at hn ⊢
  split_ifs at hn ⊢
  · exact ⟨rfl, rfl, fun _ => rfl⟩
  · refine ⟨rfl, rfl, fun x => ?_⟩
    unfold Ialloc.segmentItemFree Ialloc.edit
    rcases eq_or_ne x h with rfl | hx
    · simp
    · simp [hx]

/-- A segment handed out is empty. -/
theorem segmentAlloc_offset {x : ℕ} (hx : (s.segmentAlloc st ok).1 = some x) :
    ((s.segmentAlloc st ok).2.header x).offset = 0 := by
  unfold Ialloc.segmentAlloc at hx ⊢
  rcases hf : s.freeSegments with _ | y <;> rw [hf] at hx
  · dsimp only at hx ⊢
    split_ifs at hx ⊢
    · cases hx
      simp [Ialloc.edit]
  · cases hx
    simp [Ialloc.edit]

theorem segmentAlloc_room : (s.segmentAlloc st ok).1.isSome ∧
    (∀ x ∈ (s.segmentAlloc st ok).1, total ≤ ((s.segmentAlloc st ok).2.header x).size.toNat) ↔
      s.HasSegment st ok total := by
  unfold Ialloc.segmentAlloc Ialloc.HasSegment
  rcases hf : s.freeSegments with _ | x
  · dsimp only
    split_ifs with hfull hok
    · simp [Nat.not_lt.2 hfull]
    · simp [hok, Nat.not_le.1 hfull, Ialloc.edit, UInt32.toNat_ofNat']
    · simp [hok]
  · simp [Ialloc.edit]

variable [DecidableEq A]

/-- The segment that an item is cut from next has no items yet. -/
theorem advance_room (j : ItemAllocator) :
    ((s.advance a j h).header h).size = (s.header h).size ∧
      ((s.advance a j h).header h).offset = (s.header h).offset := by
  unfold Ialloc.advance Ialloc.setIa Ialloc.edit
  rcases eq_or_ne h j.cur with he | he
  · simp [he]
  · simp [he]

/-- When `ialloc_alloc` returns an item. -/
theorem iallocAlloc_item (hia : s.ia a = some ia) (ht : 0 < total) :
    (∃ it t, s.iallocAlloc st a total false ok = some (some it, t)) ↔
      ia.Roomy st s ok total := by
  unfold Ialloc.iallocAlloc ItemAllocator.Roomy
  rw [hia]
  simp only [Option.bind_eq_bind, Option.bind_some]
  by_cases hbig : total < st.segsize
  swap
  · simp [hbig]
  by_cases hres : ia.reserved = none
  · simp [hbig, hres]
  simp only [hbig, hres, not_true_eq_false, if_false, false_and, true_and, ne_eq,
    not_false_eq_true]
  have hcut := @segmentItemAlloc_isSome A st s ia.cur total ht
  rcases h1 : s.segmentItemAlloc st ia.cur total with ⟨_ | it, s₁⟩
  swap
  · rw [h1] at hcut
    exact iff_of_true ⟨it, s₁, rfl⟩ (.inl (hcut.1 rfl))
  have hsame := segmentItemAlloc_none (congrArg Prod.fst h1)
  rw [h1] at hcut hsame
  dsimp only at hsame
  obtain ⟨hfree, halloced, hsize⟩ := hsame
  have hfull : ¬ total ≤ ((s.header ia.cur).size - (s.header ia.cur).offset).toNat :=
    fun hle => nomatch hcut.2 hle
  rw [or_iff_right hfull]
  have hroom := @segmentAlloc_room A st s₁ total ok
  have hsame : s₁.HasSegment st ok total ↔ s.HasSegment st ok total := by
    unfold Ialloc.HasSegment
    rw [hfree, halloced]
    simp only [hsize]
  rw [← hsame, ← hroom]
  have hempty := @segmentAlloc_offset A st s₁ ok
  dsimp only
  rcases h2 : s₁.segmentAlloc st ok with ⟨_ | x, s₂⟩
  · simp
  · rw [h2] at hempty
    have hx := @segmentItemAlloc_isSome A st (s₂.advance a ia x) x total ht
    obtain ⟨hs, ho⟩ := @advance_room A s₂ a x _ ia
    rw [hs, ho, hempty rfl, UInt32.sub_zero] at hx
    dsimp only
    rcases h3 : (s₂.advance a ia x).segmentItemAlloc st x total with ⟨_ | it, s₃⟩
    · rw [h3] at hx
      simpa using hx
    · rw [h3] at hx
      simpa using hx

end Allocation

section Requests

variable {c : Connection} {i : ℕ} {b : ℕ → UInt8}

/-- A complete request has a body of less than 2 ^ 16 bytes. -/
theorem bodylen_lt (hc : c.connReqIscomp = true) : bodylen c.rxBuf c.rxOff.toNat < 2 ^ 16 := by
  unfold Connection.connReqIscomp at hc
  have hlt := (c.rxLen - c.rxOff).toNat_lt
  dsimp only at hc
  split_ifs at hc
  omega

theorem vl_eq {extlen : ℕ} (hb : bl < 2 ^ 16) (h : kl + extlen ≤ bl) :
    (UInt32.ofNat bl - UInt32.ofNat kl - UInt32.ofNat extlen).toNat = bl - (kl + extlen) := by
  have hnat : ∀ n < 2 ^ 16, (UInt32.ofNat n).toNat = n := fun n hn =>
    UInt32.toNat_ofNat_of_lt' (Nat.lt_trans hn (by decide))
  have h1 : (UInt32.ofNat bl - UInt32.ofNat kl).toNat = bl - kl := by
    rw [UInt32.toNat_sub_of_le, hnat _ hb, hnat _ (by omega)]
    rw [UInt32.le_iff_toNat_le, hnat _ hb, hnat _ (by omega)]
    omega
  rw [UInt32.toNat_sub_of_le, h1, hnat _ (by omega)]
  · omega
  · rw [UInt32.le_iff_toNat_le, h1, hnat _ (by omega)]
    omega

/-- The fields of the header are inside the request. -/
theorem header_within (hlo : lo ≤ i) (hhi : i + 24 ≤ hi) :
    ∀ t ∈ ([.read (i + 1) 1, .read (i + 2) 2, .read (i + 8) 4, .read i 1] : List Touch),
      t.Within lo hi := by
  simp only [List.forall_mem_cons, List.not_mem_nil, false_imp_iff, implies_true, and_true]
  refine ⟨(read_within ?_).2 ?_, (read_within ?_).2 ?_, (read_within ?_).2 ?_,
    (read_within ?_).2 ?_⟩ <;> omega

theorem setHeader_within {extlen : ℕ} (hlo : lo ≤ i) (hhi : i + 24 ≤ hi) :
    (∀ t ∈ ([.read (i + 4) 1, .vallen bl kl extlen] : List Touch), t.Within lo hi) ↔
      kl + extlen ≤ bl := by
  have hext : (Touch.read (i + 4) 1).Within lo hi := (read_within (by omega)).2 (by omega)
  simp only [List.forall_mem_cons, List.not_mem_nil, false_imp_iff, implies_true, and_true, hext,
    true_and]
  rfl

theorem answerReads_within {found : Option ℕ} (hhi : c.rxOff.toNat + 24 ≤ hi) :
    ∀ t ∈ c.answerReads found, t.Within c.rxOff.toNat hi := by
  unfold Connection.answerReads
  split
  · simp only [List.mem_singleton, forall_eq]
    exact (read_within (by omega)).2 (by omega)
  · simp

theorem copyReads_within {vl : ℕ} : (∀ t ∈ c.copyReads kl vl, t.Within c.rxOff.toNat hi) ↔
    (kl = 0 ∨ c.rxOff.toNat + 32 + kl ≤ hi) ∧
      (vl = 0 ∨ c.rxOff.toNat + 32 + kl + vl ≤ hi) := by
  unfold Connection.copyReads
  simp only [List.forall_mem_cons, List.not_mem_nil, false_imp_iff, implies_true, and_true]
  rw [read_within (by omega), read_within (by omega)]

variable {A : Type} [DecidableEq A] {st : Settings} {s : Ialloc A} {a : A} {ia : ItemAllocator}
  {ok : Bool} {found : Option ℕ}

theorem storeTouches_within (hia : s.ia a = some ia) {vl : ℕ} (hhi : c.rxOff.toNat + 24 ≤ hi) :
    (∀ t ∈ c.storeTouches st s a ok found kl vl, t.Within c.rxOff.toNat hi) ↔
      (∀ t ∈ c.copyReads kl vl, t.Within c.rxOff.toNat hi) ∧
        (found = none → ia.Roomy st s ok (itemSize + kl + vl)) := by
  have hgood : (∀ t ∈ c.copyReads kl vl ++ c.answerReads found, t.Within c.rxOff.toNat hi) ↔
      ∀ t ∈ c.copyReads kl vl, t.Within c.rxOff.toNat hi := by
    rw [List.forall_mem_append]
    exact and_iff_left (answerReads_within hhi)
  unfold Connection.storeTouches
  rcases found with _ | n
  · have hroomy := @iallocAlloc_item A st s a ia (itemSize + kl + vl) ok _ hia
      (Nat.lt_of_lt_of_le (by decide : 0 < itemSize) (by omega))
    dsimp only
    rw [← hroomy]
    rcases s.iallocAlloc st a (itemSize + kl + vl) false ok with _ | ⟨_ | it, t⟩
    · simp [Touch.Within]
    · simp [Touch.Within]
    · simpa using hgood
  · simpa using hgood

/-- The lookup of a GET or DELETE. -/
theorem lookedUp_within {base : ℕ} :
    (∀ t ∈ (if c.reqDone then [] else lookupReads base (c.rxOff.toNat + 24) kl),
      t.Within c.rxOff.toNat (c.rxOff.toNat + headerSize + bl)) ↔
      (c.reqDone = false → KeyFits base (c.rxOff.toNat + 24) 0 kl bl) := by
  cases c.reqDone
  · simp only [Bool.false_eq_true, if_false, forall_const]
    rw [lookupReads_within (Nat.le_add_right _ _)]
    unfold KeyFits headerSize
    omega
  · simp

/-- What a call touches is inside its request exactly if the lengths fit. -/
theorem request_stays_inside_iff {base : ℕ} (hc : c.connReqIscomp = true)
    (hia : s.ia a = some ia) :
    c.StaysInside st s a ok base found ↔ c.Fits st s base ia ok found := by
  have hb := bodylen_lt hc
  unfold Connection.StaysInside Connection.Fits Connection.touches
  dsimp only
  generalize bodylen c.rxBuf c.rxOff.toNat = bl at hb ⊢
  generalize keylen c.rxBuf c.rxOff.toNat = kl
  generalize extlen c.rxBuf c.rxOff.toNat = ext
  have hhi : c.rxOff.toNat + 24 ≤ c.rxOff.toNat + headerSize + bl := Nat.le_add_right _ _
  have hheader := header_within (Nat.le_refl c.rxOff.toNat) hhi
  have hanswer := @answerReads_within _ c found hhi
  by_cases hm : magic c.rxBuf c.rxOff.toNat = protocolBinaryReq
  swap
  · rw [if_pos hm]
    exact iff_of_true hheader fun h => absurd h hm
  rw [if_neg (not_not.2 hm)]
  simp only [hm, forall_const]
  by_cases hget : opcode c.rxBuf c.rxOff.toNat = cmdGet
  · rw [if_pos hget, List.forall_mem_append, List.forall_mem_append, lookedUp_within, hget]
    simp only [show cmdGet ≠ cmdSet by decide, true_or, forall_const, false_imp_iff, and_true]
    exact ⟨fun h => h.1.2, fun h => ⟨⟨hheader, h⟩, hanswer⟩⟩
  rw [if_neg hget]
  by_cases hset : opcode c.rxBuf c.rxOff.toNat = cmdSet
  · rw [if_pos hset, hset]
    simp only [show cmdSet ≠ cmdGet by decide, show cmdSet ≠ cmdDelete by decide, or_self,
      false_imp_iff, true_and, forall_const]
    have hset := @setHeader_within _ _ kl bl _ ext (Nat.le_refl c.rxOff.toNat) hhi
    cases hd : c.reqDone
    · simp only [Bool.false_eq_true, if_false, forall_const]
      rw [List.forall_mem_append, List.forall_mem_append, List.forall_mem_append,
        lookupReads_within (by omega), storeTouches_within hia hhi, copyReads_within, hset]
      by_cases hle : kl + ext ≤ bl
      swap
      · exact iff_of_false (fun h => hle h.1.1.2) fun h => hle h.1
      have htotal : itemSize + kl + (bl - (kl + ext)) = itemSize + (bl - ext) := by omega
      have hkl := @le_hashed kl (decide ((base + (c.rxOff.toNat + 32)) % 4 = 0))
      rw [vl_eq hb hle, htotal]
      unfold KeyFits headerSize
      refine ⟨fun ⟨⟨_, hkey⟩, ⟨_, hval⟩, hroom⟩ => ⟨hle, by omega, by omega, hroom⟩,
        fun ⟨_, hkey, hval, hroom⟩ => ?_⟩
      exact ⟨⟨⟨hheader, hle⟩, by omega⟩, ⟨by omega, by omega⟩, hroom⟩
    · simp only [if_true, Bool.true_eq_false, false_imp_iff, and_true]
      rw [List.forall_mem_append, List.forall_mem_append, hset]
      exact ⟨fun h => h.1.2, fun h => ⟨⟨hheader, h⟩, hanswer⟩⟩
  rw [if_neg hset]
  by_cases hdel : opcode c.rxBuf c.rxOff.toNat = cmdDelete
  · rw [if_pos hdel, List.forall_mem_append, List.forall_mem_append, lookedUp_within, hdel]
    simp only [show cmdDelete ≠ cmdSet by decide, or_true, forall_const, false_imp_iff, and_true]
    exact ⟨fun h => h.1.2, fun h => ⟨⟨hheader, h⟩, hanswer⟩⟩
  · rw [if_neg hdel]
    simpa [hget, hset, hdel] using hheader

/-- A GET of a key of one byte, with a body of `n` bytes. -/
private def getConnection (n : UInt8) : Connection where
  rxLen := 24 + n.toUInt16
  rxBuf i := [0x80, 0, 0, 1, 0, 0, 0, 0, 0, 0, 0, n].getD i 7

/-- One allocator, with two segments of 100 bytes. -/
private def oneAllocator : Ialloc Unit where
  freeSegments := none
  segAlloced := 2
  header _ := { size := 100 }
  ia _ := some { reserved := some 1, cur := 0, oldest := some 0 }
  live := []

/-- A GET with a key of one byte. -/
theorem request_stays_inside_get :
    (getConnection 1).StaysInside ⟨100, 4⟩ oneAllocator () true 22 none :=
  (request_stays_inside_iff (by decide) rfl).2 fun _ =>
    ⟨fun _ _ => .inr (by decide), fun h => absurd h (by decide)⟩

/-- The request ends with its header, and a byte after it is hashed. -/
theorem request_reads_outside : (getConnection 0).connReqIscomp = true ∧
    ¬ (getConnection 0).StaysInside ⟨100, 4⟩ oneAllocator () true 22 none := by
  refine ⟨by decide, fun h => ?_⟩
  have hread : Touch.read 24 1 ∈
      (getConnection 0).touches ⟨100, 4⟩ oneAllocator () true 22 none := by
    unfold Connection.touches lookupReads
    dsimp only
    rw [if_neg (by decide), if_pos (by decide), List.append_assoc]
    refine List.mem_append_right _ (List.mem_append_left _ ?_)
    rw [if_neg (by decide)]
    exact List.mem_append_right _ (List.mem_singleton.2 (by decide))
  exact absurd (h _ hread 0 (by decide)).2 (by decide)

end Requests

end FlexKvs

import HeMem.FlexKvs.Connection

/-!
# Framing

While a connection waits or runs, the bytes of the requests it has processed, what is left in
`rx_buf` and what is on its way are the stream, and a request that is complete in the buffer is the
next one of the stream.
-/

namespace FlexKvs

section Slices

variable {b b' : ℕ → UInt8} {i i' j n m : ℕ} {r l l' : List UInt8}

@[simp] theorem length_slice : (slice b i n).length = n := by simp [slice]

theorem getElem?_slice (hj : j < n) : (slice b i n)[j]? = some (b (i + j)) := by
  simp [slice, hj]

theorem slice_add : slice b i (n + m) = slice b i n ++ slice b (i + n) m := by
  simp [slice, List.range_add, Function.comp_def, Nat.add_assoc]

theorem slice_congr (h : ∀ j < n, b (i + j) = b' (i' + j)) : slice b i n = slice b' i' n :=
  List.map_congr_left fun j hj => h j (List.mem_range.1 hj)

theorem bodylen_congr {d : ℕ → UInt8} {k : ℕ} (h : ∀ j < headerSize, b (i + j) = d (k + j)) :
    bodylen b i = bodylen d k := by
  simp only [bodylen, ntohl, ntohs, Nat.add_assoc, Nat.reduceAdd]
  rw [h 8 (by decide), h 9 (by decide), h 10 (by decide), h 11 (by decide)]

/-- Where two lists are one, the bytes of either are the bytes of the other. -/
theorem getD_of_append (h : slice b i n ++ l = r ++ l') (hn : j < n) (hr : j < r.length) :
    b (i + j) = r.getD j 0 := by
  have hj : (slice b i n ++ l)[j]? = (r ++ l')[j]? := by rw [h]
  rw [List.getElem?_append_left (by simpa using hn), List.getElem?_append_left hr,
    getElem?_slice hn] at hj
  rw [List.getD_eq_getElem?_getD, ← hj]
  rfl

end Slices

section Words

variable {x y : UInt16} {n : ℕ}

theorem toNat_add_ofNat (h : x.toNat + n < 2 ^ 16) : (x + UInt16.ofNat n).toNat = x.toNat + n := by
  rw [UInt16.toNat_add, UInt16.toNat_ofNat', Nat.mod_eq_of_lt (by omega : n < 2 ^ 16),
    Nat.mod_eq_of_lt h]

theorem toNat_sub (h : x.toNat ≤ y.toNat) : (y - x).toNat = y.toNat - x.toNat :=
  UInt16.toNat_sub_of_le _ _ h

end Words

section Buffer

variable {c : Connection} {rest : List (List UInt8)} {incoming r : List UInt8}

/-- What is left to process of what is in the buffer. -/
def Connection.left (c : Connection) : List UInt8 :=
  slice c.rxBuf c.rxOff.toNat (c.rxLen.toNat - c.rxOff.toNat)

theorem iscomp_iff (h : c.rxOff.toNat ≤ c.rxLen.toNat) : c.connReqIscomp = true ↔
    headerSize + bodylen c.rxBuf c.rxOff.toNat ≤ c.rxLen.toNat - c.rxOff.toNat := by
  unfold Connection.connReqIscomp
  simp only [toNat_sub h]
  split_ifs with h1 h2
  · exact iff_of_false id (by omega)
  · exact iff_of_false id (by omega)
  · exact iff_of_true rfl (by omega)

/-- The header in the buffer is that of the next request, once it is all there. -/
theorem header_eq {l : List UInt8} (hr : ValidRequest r) (h : c.left ++ incoming = r ++ l)
    (hl : headerSize ≤ c.rxLen.toNat - c.rxOff.toNat) (j : ℕ) (hj : j < headerSize) :
    c.rxBuf (c.rxOff.toNat + j) = r.getD (0 + j) 0 := by
  rw [Nat.zero_add]
  exact getD_of_append h (Nat.lt_of_lt_of_le hj hl) (Nat.lt_of_lt_of_le hj hr.header)

theorem bodylen_eq {l : List UInt8} (hr : ValidRequest r) (h : c.left ++ incoming = r ++ l)
    (hl : headerSize ≤ c.rxLen.toNat - c.rxOff.toNat) :
    headerSize + bodylen c.rxBuf c.rxOff.toNat = r.length := by
  rw [hr.length, bodylen_congr (d := (r.getD · 0)) (header_eq hr h hl)]

/-- A request that is complete in the buffer is the next one. -/
theorem request_eq (hle : c.rxOff.toNat ≤ c.rxLen.toNat) (hv : ∀ r ∈ rest, ValidRequest r)
    (h : c.left ++ incoming = rest.flatten) (hc : c.connReqIscomp = true) :
    ∃ rest', rest = c.request :: rest' ∧
      headerSize + bodylen c.rxBuf c.rxOff.toNat = c.request.length := by
  have hc := (iscomp_iff hle).1 hc
  have hlen : c.left.length = c.rxLen.toNat - c.rxOff.toNat := length_slice
  have hsize : headerSize = 24 := rfl
  rcases rest with _ | ⟨r, rest'⟩
  · rw [List.flatten_nil, List.append_eq_nil_iff] at h
    rw [h.1, List.length_nil] at hlen
    omega
  · rw [List.flatten_cons] at h
    have hb := bodylen_eq (hv r (by simp)) h (by omega)
    have hr : c.request = r := by
      have hsplit : c.left = c.request ++ slice c.rxBuf (c.rxOff.toNat + r.length)
          (c.rxLen.toNat - c.rxOff.toNat - r.length) := by
        unfold Connection.left Connection.request
        rw [hb, ← slice_add]
        congr 1
        omega
      rw [hsplit, List.append_assoc] at h
      exact (List.append_inj h (by unfold Connection.request; rw [length_slice, hb])).1
    exact ⟨rest', by rw [hr], by rw [hr, hb]⟩

/-- Whether a request is complete depends on what is left only. -/
theorem iscomp_congr {c' : Connection} (hle : c.rxOff.toNat ≤ c.rxLen.toNat)
    (hle' : c'.rxOff.toNat ≤ c'.rxLen.toNat) (h : c'.left = c.left) :
    c'.connReqIscomp = c.connReqIscomp := by
  have hlen : c'.rxLen.toNat - c'.rxOff.toNat = c.rxLen.toNat - c.rxOff.toNat := by
    have hl := congrArg List.length h
    rwa [Connection.left, Connection.left, length_slice, length_slice] at hl
  rw [Bool.eq_iff_iff, iscomp_iff hle, iscomp_iff hle', hlen]
  by_cases hs : headerSize ≤ c.rxLen.toNat - c.rxOff.toNat
  · rw [bodylen_congr (d := c.rxBuf) (k := c.rxOff.toNat) fun j hj => ?_]
    have hj' : c'.left[j]? = c.left[j]? := by rw [h]
    unfold Connection.left at hj'
    rw [getElem?_slice (by omega), getElem?_slice (by omega)] at hj'
    exact Option.some.inj hj'
  · exact iff_of_false (by omega) (by omega)

theorem left_received (ho : c.rxOff = 0) (hf : c.rxLen.toNat + r.length < 2 ^ 16) :
    (c.received r).left = c.left ++ r := by
  have hlen : (c.received r).rxLen.toNat = c.rxLen.toNat + r.length := toNat_add_ofNat hf
  have hz : (c.received r).rxOff.toNat = 0 := by
    change c.rxOff.toNat = 0
    rw [ho]
    rfl
  have hz' : c.rxOff.toNat = 0 := hz
  unfold Connection.left
  rw [hlen, hz, hz', Nat.sub_zero, Nat.sub_zero, slice_add, Nat.zero_add]
  congr 1
  · refine slice_congr fun j hj => ?_
    exact if_neg (by omega)
  · refine List.ext_getElem? fun j => ?_
    by_cases hj : j < r.length
    · rw [getElem?_slice hj, List.getElem?_eq_getElem hj]
      simp [Connection.received, hj]
    · rw [List.getElem?_eq_none (by simpa using hj), List.getElem?_eq_none (by simpa using hj)]

theorem moveUp_spec (h : c.rxOff.toNat ≤ c.rxLen.toNat) :
    c.moveUp.rxOff = 0 ∧ c.moveUp.left = c.left := by
  unfold Connection.moveUp
  split_ifs with h0 h1
  · exact ⟨h0, rfl⟩
  · refine ⟨rfl, ?_⟩
    simp [Connection.left, h1, slice]
  · refine ⟨rfl, ?_⟩
    unfold Connection.left
    simp only [toNat_sub h]
    refine (congrArg _ (Nat.sub_zero _)).trans (slice_congr fun j hj => ?_)
    rw [show (0 : UInt16).toNat = 0 from rfl, Nat.zero_add, if_pos hj]

end Buffer

section Processing

variable {c : Connection} {found : Option ℕ}

theorem respond_done {rsl : ℕ} (ht : c.txLen = 0) (hr : rsl < 2 ^ 16) :
    c.respond rsl = (.done, { c with
      rxOff := c.rxOff + UInt16.ofNat (headerSize + bodylen c.rxBuf c.rxOff.toNat)
      txLen := UInt16.ofNat rsl
      reqDone := false }) := by
  have hspace : ¬ maxMsgsize - c.txLen.toNat < rsl := by
    rw [ht]
    change ¬ 1000000 - 0 < rsl
    omega
  unfold Connection.respond
  rw [if_neg hspace, ht, UInt16.zero_add]

/-- A valid request is processed, and answered by some bytes. -/
theorem process_done (hf : ∀ vl ∈ found, headerSize + 8 + vl < 2 ^ 16) (hd : c.reqDone = false)
    (ht : c.txLen = 0) (hm : magic c.rxBuf c.rxOff.toNat = protocolBinaryReq)
    (ho : opcode c.rxBuf c.rxOff.toNat ∈ [cmdGet, cmdSet, cmdDelete]) :
    ∃ (v : Option ℕ) (rsl : ℕ), 0 < rsl ∧ rsl < 2 ^ 16 ∧
      c.connReqProcess found = (.done, { c with
        vallen := v
        rxOff := c.rxOff + UInt16.ofNat (headerSize + bodylen c.rxBuf c.rxOff.toNat)
        txLen := UInt16.ofNat rsl
        reqDone := false }) := by
  have hsize : headerSize = 24 := rfl
  have hfound : 28 + found.getD 0 < 2 ^ 16 := by
    rcases found with _ | vl
    · decide
    · have := hf vl rfl
      change 28 + vl < 2 ^ 16
      omega
  have hget : cmdGet ≠ cmdSet ∧ cmdGet ≠ cmdDelete ∧ cmdSet ≠ cmdDelete := by decide
  unfold Connection.connReqProcess
  rw [if_neg (not_not.2 hm)]
  simp only [hd, Bool.false_eq_true, if_false]
  simp only [List.mem_cons, List.not_mem_nil, or_false] at ho
  rcases ho with ho | ho | ho
  · rw [if_pos ho]
    exact ⟨found, 28 + found.getD 0, by omega, hfound, respond_done ht hfound⟩
  · rw [if_neg (ho ▸ hget.1.symm), if_pos ho]
    exact ⟨_, 24, by decide, by decide, respond_done ht (by decide)⟩
  · rw [if_neg (ho ▸ hget.2.1.symm), if_neg (ho ▸ hget.2.2.symm), if_pos ho]
    exact ⟨found, 24, by decide, by decide, respond_done ht (by decide)⟩

end Processing

section Run

variable {requests : List (List UInt8)} {s s' : ConnState}

/-- Where the offsets stand. -/
def ConnState.Stands (s : ConnState) : Prop :=
  match s.phase with
  | .wait =>
    if s.conn.epollWr then s.conn.txOff < s.conn.txLen
    else s.conn.rxOff = 0 ∧ s.conn.txLen = 0 ∧ s.conn.txOff = 0 ∧ s.conn.connReqIscomp = false
  | .recv =>
    s.conn.rxOff = 0 ∧ s.conn.txLen = 0 ∧ s.conn.txOff = 0 ∧ s.conn.connReqIscomp = false
  | .loop => s.conn.txLen = 0 ∧ s.conn.txOff = 0
  | .send => s.conn.txOff < s.conn.txLen
  | .closed => True
  | .failed => False

structure Framed (requests : List (List UInt8)) (s : ConnState) : Prop where
  le : s.conn.rxOff.toNat ≤ s.conn.rxLen.toNat
  fresh : s.conn.reqDone = false
  stream : ∃ rest, requests = s.processed ++ rest ∧ s.conn.left ++ s.incoming = rest.flatten
  stands : s.Stands

theorem iscomp_new : ({} : Connection).connReqIscomp = false := by decide

theorem framed_initial : Framed requests ⟨{}, .wait, requests.flatten, []⟩ where
  le := Nat.le_refl _
  fresh := rfl
  stream := ⟨requests, rfl, rfl⟩
  stands := ⟨rfl, rfl, rfl, iscomp_new⟩

/-- A step that leaves the receive buffer and the stream alone. -/
theorem Framed.same (h : Framed requests s) (hl : s'.conn.rxLen = s.conn.rxLen)
    (ho : s'.conn.rxOff = s.conn.rxOff) (hb : s'.conn.rxBuf = s.conn.rxBuf)
    (hd : s'.conn.reqDone = s.conn.reqDone) (hi : s'.incoming = s.incoming)
    (hp : s'.processed = s.processed) (hs : s'.Stands) : Framed requests s' := by
  obtain ⟨rest, hr, hst⟩ := h.stream
  refine ⟨by rw [hl, ho]; exact h.le, hd.trans h.fresh, ⟨rest, hp ▸ hr, ?_⟩, hs⟩
  rw [hi, ← hst]
  unfold Connection.left
  rw [hl, ho, hb]

theorem Framed.read (h : Framed requests s) (hp : s.phase = .recv) {res : ℕ}
    (hr : res ≤ s.incoming.length) (hf : s.conn.rxLen.toNat + res < 2 ^ 16)
    (hn : (ConnAct.read res).next s = some s') : Framed requests s' := by
  have hst := h.stands
  unfold ConnState.Stands at hst
  rw [hp] at hst
  obtain ⟨ho, ht, hto, -⟩ := hst
  simp only [ConnAct.next] at hn
  rw [if_neg (not_not.2 hp)] at hn
  cases hn
  have hlen : (s.incoming.take res).length = res := List.length_take_of_le hr
  have hleft := left_received (c := s.conn) (r := s.incoming.take res) ho (by rwa [hlen])
  obtain ⟨rest, hrest, hst⟩ := h.stream
  refine ⟨?_, h.fresh, ⟨rest, hrest, ?_⟩, ?_⟩
  · change s.conn.rxOff.toNat ≤ _
    rw [ho]
    exact Nat.zero_le _
  · change (s.conn.received (s.incoming.take res)).left ++ s.incoming.drop res = _
    rw [hleft, List.append_assoc, List.take_append_drop, hst]
  · unfold ConnState.Stands
    by_cases hc : (s.conn.received (s.incoming.take res)).connReqIscomp = true
    · simp only [hc, if_true]
      exact ⟨ht, hto⟩
    · simp only [hc]
      exact ⟨ho, ht, hto, trivial⟩

/-- A request complete in the buffer is a valid one. -/
theorem Framed.header (h : Framed requests s) (hv : ∀ r ∈ requests, ValidRequest r)
    (hc : s.conn.connReqIscomp = true) :
    magic s.conn.rxBuf s.conn.rxOff.toNat = protocolBinaryReq ∧
      opcode s.conn.rxBuf s.conn.rxOff.toNat ∈ [cmdGet, cmdSet, cmdDelete] := by
  obtain ⟨rest, hrest, hst⟩ := h.stream
  obtain ⟨rest', rfl, -⟩ := request_eq h.le (fun r hr => hv r (by simp [hrest, hr])) hst hc
  have hr : ValidRequest s.conn.request := hv _ (by simp [hrest])
  have hle := (iscomp_iff h.le).1 hc
  have hj := header_eq hr (by rw [hst, List.flatten_cons]) (by omega)
  have h0 := hj 0 (by decide)
  have h1 := hj 1 (by decide)
  rw [Nat.add_zero, Nat.add_zero] at h0
  unfold magic opcode
  rw [h0, h1]
  exact ⟨hr.magic, hr.opcode⟩

theorem Framed.process (h : Framed requests s) (hv : ∀ r ∈ requests, ValidRequest r)
    (hp : s.phase = .loop) {found : Option ℕ} (hf : ∀ vl ∈ found, headerSize + 8 + vl < 2 ^ 16)
    (hn : (ConnAct.process found).next s = some s') :
    Framed requests s' ∧ s'.phase ≠ .closed := by
  have hst := h.stands
  unfold ConnState.Stands at hst
  rw [hp] at hst
  obtain ⟨ht, hto⟩ := hst
  simp only [ConnAct.next] at hn
  rw [if_neg (not_not.2 hp)] at hn
  obtain ⟨rest, hrest, hst⟩ := h.stream
  by_cases hc : s.conn.connReqIscomp = true
  · obtain ⟨hm, hop⟩ := h.header hv hc
    obtain ⟨rest', rfl, hlen⟩ := request_eq h.le (fun r hr => hv r (by simp [hrest, hr])) hst hc
    obtain ⟨v, rsl, h0, hlt, hproc⟩ := process_done hf h.fresh ht hm hop
    have hle := (iscomp_iff h.le).1 hc
    have hmax := s.conn.rxLen.toNat_lt
    have hoffle := h.le
    have hoff := toNat_add_ofNat (x := s.conn.rxOff)
      (n := headerSize + bodylen s.conn.rxBuf s.conn.rxOff.toNat) (by omega)
    have htx : (UInt16.ofNat rsl).toNat = rsl := by
      rw [UInt16.toNat_ofNat', Nat.mod_eq_of_lt hlt]
    have hne : UInt16.ofNat rsl ≠ 0 := fun hz => by
      rw [hz] at htx
      exact absurd htx (by change 0 ≠ rsl; omega)
    rw [if_pos hc, hproc, h.fresh] at hn
    simp only [if_pos hne] at hn
    cases hn
    refine ⟨⟨?_, rfl, ⟨rest', by simp [hrest], ?_⟩, ?_⟩, ?_⟩
    · change (s.conn.rxOff + _).toNat ≤ s.conn.rxLen.toNat
      rw [hoff]
      omega
    · have hsplit : s.conn.left = s.conn.request ++ slice s.conn.rxBuf
          (s.conn.rxOff + UInt16.ofNat (headerSize +
            bodylen s.conn.rxBuf s.conn.rxOff.toNat)).toNat
          (s.conn.rxLen.toNat - (s.conn.rxOff + UInt16.ofNat (headerSize +
            bodylen s.conn.rxBuf s.conn.rxOff.toNat)).toNat) := by
        unfold Connection.left Connection.request
        rw [hoff, ← slice_add]
        congr 1
        omega
      rw [hsplit, List.append_assoc, List.flatten_cons] at hst
      exact List.append_cancel_left hst
    · change s.conn.txOff < UInt16.ofNat rsl
      rw [UInt16.lt_iff_toNat_lt, htx, hto]
      exact h0
    · simp
  · rw [if_neg hc] at hn
    cases hn
    obtain ⟨ho, hleft⟩ := moveUp_spec h.le
    have hle : s.conn.moveUp.rxOff.toNat ≤ s.conn.moveUp.rxLen.toNat := by
      rw [ho]
      exact Nat.zero_le _
    refine ⟨⟨hle, ?_, ⟨rest, hrest, by rw [← hst, ← hleft]; rfl⟩, ?_⟩, by simp⟩
    · change s.conn.moveUp.reqDone = false
      unfold Connection.moveUp
      split_ifs <;> exact h.fresh
    · refine ⟨ho, ?_, ?_, ?_⟩
      · change s.conn.moveUp.txLen = 0
        unfold Connection.moveUp
        split_ifs <;> exact ht
      · change s.conn.moveUp.txOff = 0
        unfold Connection.moveUp
        split_ifs <;> exact hto
      · change s.conn.moveUp.connReqIscomp = false
        rw [iscomp_congr h.le hle hleft]
        simpa using hc

theorem Framed.write (h : Framed requests s) (hp : s.phase = .send) {res : ℕ}
    (hn : (ConnAct.write res).next s = some s') : Framed requests s' := by
  simp only [ConnAct.next] at hn
  rw [if_neg (not_not.2 hp)] at hn
  split_ifs at hn with hlt <;> cases hn
  · refine h.same rfl rfl rfl rfl rfl rfl ?_
    unfold ConnState.Stands
    simp only [hp]
    exact hlt
  · exact h.same rfl rfl rfl rfl rfl rfl ⟨rfl, rfl⟩

theorem Framed.step (h : Framed requests s) (hv : ∀ r ∈ requests, ValidRequest r) {a : ConnAct}
    (hl : a.Legal s) (hf : a.Fits s) (hn : a.next s = some s') : Framed requests s' := by
  have hst := h.stands
  cases a with
  | event =>
    simp only [ConnAct.next, Option.ite_none_left_eq_some, not_not] at hn
    obtain ⟨hp, hn⟩ := hn
    unfold ConnState.Stands at hst
    simp only [hp] at hst
    split_ifs at hn hst with hw <;> cases hn
    · exact h.same rfl rfl rfl rfl rfl rfl hst
    · exact h.same rfl rfl rfl rfl rfl rfl hst
  | error =>
    simp only [ConnAct.next, Option.ite_none_right_eq_some, Option.some.injEq] at hn
    obtain ⟨-, rfl⟩ := hn
    exact h.same rfl rfl rfl rfl rfl rfl trivial
  | read res =>
    by_cases hp : s.phase = .recv
    · exact h.read hp hl.2.1 hf hn
    · simp [ConnAct.next, hp] at hn
  | process found =>
    by_cases hp : s.phase = .loop
    · exact (h.process hv hp hl hn).1
    · simp [ConnAct.next, hp] at hn
  | write res =>
    by_cases hp : s.phase = .send
    · exact h.write hp hn
    · simp [ConnAct.next, hp] at hn
  | again =>
    simp only [ConnAct.next] at hn
    unfold ConnState.Stands at hst
    split_ifs at hn with hp hp' <;> cases hn
    · simp only [hp] at hst
      exact h.same rfl rfl rfl rfl rfl rfl hst
    · simp only [hp'] at hst
      exact h.same rfl rfl rfl rfl rfl rfl hst

/-- While no read takes `rx_len` past its 16 bits: the requests processed are those at the front of
the stream, each once; no request is refused; and a connection that waits for input has processed
every request that has arrived whole. -/
theorem requests_in_order (hv : ∀ r ∈ requests, ValidRequest r)
    (h : (connection requests).Reach (fun s a => a.Legal s ∧ a.Fits s) s) :
    s.conn.rxOff ≤ s.conn.rxLen ∧ s.phase ≠ .failed ∧ s.processed <+: requests ∧
      (∀ found s', (ConnAct.process found).Legal s → (ConnAct.process found).next s = some s' →
        s'.phase ≠ .closed) ∧
      (s.phase = .wait → s.conn.epollWr = false → ∀ r rest, requests = s.processed ++ r :: rest →
        requests.flatten.length - s.incoming.length < s.processed.flatten.length + r.length) := by
  have hI : Framed requests s := h.invariant (fun _ hs => hs ▸ framed_initial)
    fun _ _ _ hI hc hs => hI.step hv hc.1 hc.2 hs
  obtain ⟨rest, hrest, hst⟩ := hI.stream
  refine ⟨UInt16.le_iff_toNat_le.2 hI.le, fun hp => ?_, ⟨rest, hrest.symm⟩,
    fun found s' hl hn => ?_, fun hp hw r rest' hr => ?_⟩
  · have hs := hI.stands
    unfold ConnState.Stands at hs
    rwa [hp] at hs
  · by_cases hp : s.phase = .loop
    · exact (hI.process hv hp hl hn).2
    · simp [ConnAct.next, hp] at hn
  · have hs := hI.stands
    unfold ConnState.Stands at hs
    simp only [hp, hw, Bool.false_eq_true, if_false] at hs
    obtain ⟨ho, -, -, hc⟩ := hs
    rw [hrest, List.append_cancel_left_eq] at hr
    subst hr
    rw [List.flatten_cons] at hst
    have hlen := congrArg List.length hst
    have hreq : requests.flatten.length = s.processed.flatten.length +
        (s.conn.left.length + s.incoming.length) := by
      rw [hrest, List.flatten_append, List.length_append, List.flatten_cons, ← hst,
        List.length_append]
    have hleft : s.conn.left.length = s.conn.rxLen.toNat - s.conn.rxOff.toNat := length_slice
    by_contra hlt
    have hr := hv r (by simp [hrest])
    have hhead := hr.header
    have hb := bodylen_eq hr hst (by omega)
    have hle := (iscomp_iff hI.le).2 (by omega)
    rw [hc] at hle
    cases hle

end Run

section Examples

/-- A GET for `key`. -/
def getRequest (key : List UInt8) : List UInt8 :=
  [protocolBinaryReq, cmdGet, 0, 0, 0, 0, 0, 0, 0, 0, UInt8.ofNat (key.length / 256),
    UInt8.ofNat key.length] ++ List.replicate 12 0 ++ key

theorem length_getRequest {key : List UInt8} :
    (getRequest key).length = headerSize + key.length := by
  rw [getRequest, List.length_append, List.length_append, List.length_replicate]
  rfl

theorem getRequest_valid {key : List UInt8} (h : headerSize + key.length < 2 ^ 16) :
    ValidRequest (getRequest key) where
  header := by
    rw [length_getRequest]
    exact Nat.le_add_right _ _
  length := by
    have hlen : key.length / 256 < 256 := by omega
    have hb : bodylen ((getRequest key).getD · 0) 0 =
        ntohl (fun i => [0, 0, UInt8.ofNat (key.length / 256), UInt8.ofNat key.length].getD i 0)
          0 := rfl
    rw [length_getRequest, hb]
    simp [ntohl, ntohs, Nat.mod_eq_of_lt hlen]
    omega
  short := by rwa [length_getRequest]
  magic := rfl
  opcode := List.mem_cons_self

/-- Two requests arrive in three reads, the first cut within its header; the first response is
sent in two parts. -/
theorem requests_in_order_cut : ∃ s : ConnState, s.incoming = [] ∧
    s.processed = [getRequest [1], getRequest [2]] ∧
    s.processed <+: [getRequest [1], getRequest [2]] := by
  obtain ⟨s, hs, hP⟩ := System.drive_reach (S := connection [getRequest [1], getRequest [2]])
    (fun s a => ConnAct.next s a) (fun s a => a.Legal s ∧ a.Fits s) (fun _ _ _ => id)
    (fun _ _ => id) rfl
    [.event, .read 20, .read 10, .process (some 100), .write 28, .again, .event, .write 100,
      .process none, .event, .read 20, .process none, .write 28]
    (fun s => s.incoming = [] ∧ s.processed = [getRequest [1], getRequest [2]]) (by decide +kernel)
  obtain ⟨h1, h2⟩ := of_decide_eq_true hP
  have hv : ∀ r ∈ [getRequest [1], getRequest [2]], ValidRequest r := by
    simp only [List.mem_cons, List.not_mem_nil, or_false, forall_eq_or_imp, forall_eq]
    exact ⟨getRequest_valid (by decide), getRequest_valid (by decide)⟩
  exact ⟨s, h1, h2, (requests_in_order hv hs).2.2.1⟩

/-- A key that makes a request of half as many bytes as `rx_len` can count. -/
def longKey : List UInt8 := List.replicate 32744 0

/-- One read of 65536 bytes takes `rx_len` back to 0, and the two requests are gone. -/
theorem requests_lost : ∃ s, (connection [getRequest longKey, getRequest longKey]).Reach
    (fun s a => a.Legal s) s ∧ s.phase = .wait ∧ s.conn.epollWr = false ∧ s.incoming = [] ∧
      s.processed = [] ∧ ∀ r ∈ [getRequest longKey, getRequest longKey], ValidRequest r := by
  have hkey : longKey.length = 32744 := List.length_replicate
  have hr : (getRequest longKey).length = 32768 := by rw [length_getRequest, hkey]; rfl
  have hlen : [getRequest longKey, getRequest longKey].flatten.length = 65536 := by
    simp [hr]
  generalize hst : [getRequest longKey, getRequest longKey].flatten = stream at hlen
  have hc : ∀ l : List UInt8, l.length = 65536 →
      (({} : Connection).received l).connReqIscomp = false := fun l hl => by
    have hrx : (({} : Connection).received l).rxLen.toNat = 0 := by
      change ((0 : UInt16) + UInt16.ofNat l.length).toNat = 0
      rw [hl]
      decide
    rw [← Bool.not_eq_true, iscomp_iff (Nat.zero_le _), hrx]
    rw [Nat.zero_sub, headerSize]
    omega
  have h0 : (connection [getRequest longKey, getRequest longKey]).Reach (fun s a => a.Legal s)
      ⟨{}, .wait, stream, []⟩ := .init (by rw [← hst]; rfl)
  have h1 : (connection [getRequest longKey, getRequest longKey]).Reach (fun s a => a.Legal s)
      ⟨{}, .recv, stream, []⟩ := h0.step (l := .event) trivial rfl
  have h2 : (connection [getRequest longKey, getRequest longKey]).Reach (fun s a => a.Legal s)
      ⟨({} : Connection).received stream, .recv, [], []⟩ := by
    have hroom : 65536 ≤ maxMsgsize - (0 : UInt16).toNat := by decide
    have hle : stream.length ≤ 65536 := Nat.le_of_eq hlen
    refine h1.step (l := .read 65536) ⟨by decide, Nat.le_of_eq hlen.symm, hroom⟩ ?_
    change some _ = some _
    simp only [List.take_of_length_le hle, List.drop_eq_nil_of_le hle, hc stream hlen]
    rfl
  refine ⟨_, h2.step (l := .again) trivial rfl, rfl, rfl, rfl, rfl, fun r hmem => ?_⟩
  simp only [List.mem_cons, List.not_mem_nil, or_false, or_self] at hmem
  rw [hmem]
  exact getRequest_valid (by rw [hkey]; decide)

end Examples

end FlexKvs

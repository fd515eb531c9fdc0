import HeMem.Perf

/-!
# Records that straddle the end of the data area

The header of a record is always in one piece, since records start at multiples of eight.  The `addr`
of a sample is not if the sample starts in the last bytes of the area: there the thread reads on
behind the area.
-/

namespace HeMem

variable {α β : Type} {p : PerfPage} {r : PerfRecord} {records front rest : List PerfRecord}
  {i k n : ℕ}

section Fields

theorem mapM_some {l : List α} {f : α → Option β} {g : α → β} (h : ∀ x ∈ l, f x = some (g x)) :
    l.mapM f = some (l.map g) := by
  induction l with
  | nil => rfl
  | cons x l ih =>
    rw [List.mapM_cons, h x (List.mem_cons_self ..), ih fun y hy => h y (List.mem_cons_of_mem _ hy)]
    rfl

theorem mapM_none {l : List α} {f : α → Option β} {x : α} (hx : x ∈ l) (h : f x = none) :
    l.mapM f = none := by
  induction l with
  | nil => cases hx
  | cons y l ih =>
    rw [List.mapM_cons]
    rcases List.mem_cons.1 hx with rfl | hx
    · rw [h]
      rfl
    · rw [ih hx]
      rcases f y with _ | b <;> rfl

theorem mod_add {x m : ℕ} (h : x % m + i < m) : (x + i) % m = x % m + i := by
  rw [Nat.add_mod, Nat.mod_eq_of_lt (by omega : i < m), Nat.mod_eq_of_lt h]

theorem PerfPage.field_outside (h : p.dataSize.toNat < i + n) (hn : 0 < n) : p.field i n = none := by
  have hbyte : p.byte (i + (n - 1)) = none := by
    rw [byte, if_neg (by omega)]
  rw [field, mapM_none (x := n - 1) (List.mem_range.2 (by omega)) hbyte]
  rfl

namespace PerfPage.Holds

theorem pos (h : p.Holds records) : 0 < p.dataSize.toNat := by
  obtain ⟨k, -, -, hk⟩ := h.size
  rw [hk]
  exact Nat.two_pow_pos k

theorem dvd (h : p.Holds records) : p.dataSize.toNat ∣ 2 ^ 64 := by
  obtain ⟨k, -, hlt, hk⟩ := h.size
  rw [hk]
  exact Nat.pow_dvd_pow 2 (by omega)

theorem eight_dvd (h : p.Holds records) : 8 ∣ p.dataSize.toNat := by
  obtain ⟨k, hle, -, hk⟩ := h.size
  rw [hk]
  exact Nat.pow_dvd_pow 2 (by omega : 3 ≤ k)

/-- The header lies in one piece. -/
theorem header (h : p.Holds records) :
    p.dataTail.toNat % p.dataSize.toNat + 8 ≤ p.dataSize.toNat := by
  have hlt := Nat.mod_lt p.dataTail.toNat h.pos
  have htail : p.dataTail.toNat % p.dataSize.toNat % 8 = 0 := by
    rw [Nat.mod_mod_of_dvd _ h.eight_dvd, h.tail]
  obtain ⟨c, hc⟩ := h.eight_dvd
  omega

/-- A field of the next record that lies inside the area is read as it was written. -/
theorem field (h : p.Holds (r :: rest)) (hk : k + n ≤ r.bytes.length)
    (hin : p.dataTail.toNat % p.dataSize.toNat + k + n ≤ p.dataSize.toNat) :
    p.field (p.dataTail.toNat % p.dataSize.toNat + k) n =
      some (leNat ((r.bytes.drop k).take n)) := by
  have hbytes : ∀ j ∈ List.range n, p.byte (p.dataTail.toNat % p.dataSize.toNat + k + j) =
      some (r.bytes.getD (k + j) 0) := fun j hj => by
    have hj := List.mem_range.1 hj
    have hkj : k + j < r.bytes.length := by omega
    have hget : r.bytes[k + j]? = some (r.bytes.getD (k + j) 0) := by simp [hkj]
    have hflat : ((r :: rest).flatMap (·.bytes))[k + j]? = some (r.bytes.getD (k + j) 0) := by
      rw [List.flatMap_cons, List.getElem?_append_left (by omega), hget]
    rw [byte, if_pos (by omega), ← h.bytes (k + j) _ hflat]
    rw [mod_add (by omega), Nat.add_assoc]
  rw [PerfPage.field, mapM_some hbytes, Option.map_some]
  congr 2
  refine List.ext_getElem (by simp; omega) fun j h1 h2 => ?_
  have hj : j < n := by simpa using h1
  have hkj : k + j < r.bytes.length := by omega
  simp [hkj]

end PerfPage.Holds

end Fields

section Records

/-- The buffer once a record has been taken. -/
def PerfPage.skip (p : PerfPage) (r : PerfRecord) : PerfPage :=
  { p with dataTail := p.dataTail + UInt64.ofNat r.bytes.length }

namespace PerfPage.Holds

/-- Positions behind a record count on from the new `data_tail`. -/
theorem position (h : p.Holds (r :: rest)) (i : ℕ) :
    ((p.skip r).dataTail.toNat + i) % p.dataSize.toNat =
      (p.dataTail.toNat + (r.bytes.length + i)) % p.dataSize.toNat := by
  have hmod : (p.skip r).dataTail.toNat = (p.dataTail.toNat + r.bytes.length) % 2 ^ 64 := by
    rw [skip, UInt64.toNat_add, UInt64.toNat_ofNat', Nat.add_mod_mod]
  rw [hmod, Nat.add_mod, Nat.mod_mod_of_dvd _ h.dvd, ← Nat.add_mod, Nat.add_assoc]

theorem skip (h : p.Holds (r :: rest)) : (p.skip r).Holds rest := by
  have hfits := h.fits
  rw [List.flatMap_cons, List.length_append] at hfits
  refine ⟨h.size, ?_, Nat.le_trans (Nat.le_add_left _ _) hfits, ?_, fun i b hi => ?_⟩
  · have htail := h.tail
    have hal := r.aligned
    rw [PerfPage.skip, UInt64.toNat_add, UInt64.toNat_ofNat']
    omega
  · rw [PerfPage.skip, h.head, List.flatMap_cons, List.length_append, UInt64.ofNat_add,
      UInt64.add_assoc]
  · have hflat : ((r :: rest).flatMap (·.bytes))[r.bytes.length + i]? = some b := by
      rw [List.flatMap_cons, List.getElem?_append_right (by omega), Nat.add_sub_cancel_left, hi]
    exact (congrArg p.data (h.position i)).trans (h.bytes _ b hflat)

/-- There is a record to take. -/
theorem waiting (h : p.Holds (r :: rest)) : p.dataHead ≠ p.dataTail := by
  obtain ⟨k, -, hlt, hk⟩ := h.size
  have hfits := h.fits
  have hpow : p.dataSize.toNat < 2 ^ 64 := p.dataSize.toNat_lt
  have hr := r.header
  rw [List.flatMap_cons, List.length_append] at hfits
  rw [h.head, ne_eq, ← UInt64.toNat_inj, UInt64.toNat_add, UInt64.toNat_ofNat', List.flatMap_cons,
    List.length_append]
  have := p.dataTail.toNat_lt
  omega

theorem nil (h : p.Holds []) : pebsScanRecord p = some (none, p) := by
  have hhead : p.dataHead = p.dataTail := by
    rw [h.head]
    simp
  rw [pebsScanRecord, if_pos hhead]

theorem recordEvent_other (hr : r.type ≠ perfRecordSample) :
    recordEvent p i r.type = some r.event := by
  rw [recordEvent, if_neg hr, PerfRecord.event, if_neg hr]
  split
  · rfl
  · split <;> rfl

/-- A record is taken for what it is, a sample if its `addr` is in the area. -/
theorem record (h : p.Holds (r :: rest)) (hin : r.type = perfRecordSample →
    p.dataTail.toNat % p.dataSize.toNat + sampleAddrOffset + 8 ≤ p.dataSize.toNat) :
    pebsScanRecord p = some (some r.event, p.skip r) := by
  have hheader := h.header
  have hr := r.header
  have htype : p.field (p.dataTail.toNat % p.dataSize.toNat) 4 = some r.type :=
    h.field (k := 0) (by omega) (by omega)
  have hsize : p.field (p.dataTail.toNat % p.dataSize.toNat + 6) 2 = some r.bytes.length := by
    rw [h.field (by omega) (by omega), r.size]
  have hevent : recordEvent p (p.dataTail.toNat % p.dataSize.toNat) r.type = some r.event := by
    by_cases hs : r.type = perfRecordSample
    · rw [recordEvent, if_pos hs, h.field (r.sample hs) (hin hs), PerfRecord.event, if_pos hs]
      rfl
    · exact recordEvent_other hs
  rw [pebsScanRecord, if_neg h.waiting]
  simp only [UInt64.toNat_mod, htype, hevent, hsize, Option.bind_eq_bind, Option.bind_some]
  rfl

/-- A sample that starts too close to the end leads out of the area. -/
theorem record_outside (h : p.Holds (r :: rest)) (hs : r.type = perfRecordSample)
    (hout : p.dataSize.toNat < p.dataTail.toNat % p.dataSize.toNat + sampleAddrOffset + 8) :
    pebsScanRecord p = none := by
  have hheader := h.header
  have hr := r.header
  have htype : p.field (p.dataTail.toNat % p.dataSize.toNat) 4 = some r.type :=
    h.field (k := 0) (by omega) (by omega)
  have hevent : recordEvent p (p.dataTail.toNat % p.dataSize.toNat) r.type = none := by
    rw [recordEvent, if_pos hs, PerfPage.field_outside hout (by omega)]
    rfl
  rw [pebsScanRecord, if_neg h.waiting]
  simp only [UInt64.toNat_mod, htype, hevent, Option.bind_eq_bind, Option.bind_some,
    Option.bind_none]

end PerfPage.Holds

/-- What lies in one piece from a record on lies in one piece from the next record on. -/
theorem PerfPage.Holds.inOnePiece_cons (h : p.Holds (r :: rest)) : p.InOnePiece (r :: rest) ↔
    (r.type = perfRecordSample →
      p.dataTail.toNat % p.dataSize.toNat + sampleAddrOffset + 8 ≤ p.dataSize.toNat) ∧
      (p.skip r).InOnePiece rest := by
  constructor
  · refine fun hp => ⟨fun hs => by simpa using hp [] r rest rfl hs, fun front q rest' he hs => ?_⟩
    have hq := hp (r :: front) q rest' (by rw [he]; rfl) hs
    rw [List.flatMap_cons, List.length_append, ← h.position] at hq
    exact hq
  · rintro ⟨hr, hrest⟩ front q rest' he hs
    rcases front with _ | ⟨x, front⟩
    · cases he
      simpa using hr hs
    · cases he
      have hq := hrest front q rest' rfl hs
      rw [List.flatMap_cons, List.length_append, ← h.position]
      exact hq

theorem PerfPage.InOnePiece.decodes : ∀ {n : ℕ} {p : PerfPage} {records : List PerfRecord},
    p.Holds records → p.InOnePiece records →
      ∃ p', pebsScan n p = some ((records.take n).map (·.event), p') ∧ p'.Holds (records.drop n)
  | 0, p, records, h, _ => ⟨p, rfl, h⟩
  | n + 1, p, [], h, hp => by
    obtain ⟨p', hscan, hholds⟩ := PerfPage.InOnePiece.decodes (n := n) h hp
    refine ⟨p', ?_, by simpa using hholds⟩
    rw [pebsScan, h.nil]
    simp only [List.take_nil, List.map_nil] at hscan ⊢
    exact congrArg (Option.bind · _) hscan
  | n + 1, p, r :: rest, h, hp => by
    obtain ⟨hr, hrest⟩ := h.inOnePiece_cons.1 hp
    obtain ⟨p', hscan, hholds⟩ := PerfPage.InOnePiece.decodes (n := n) h.skip hrest
    refine ⟨p', ?_, hholds⟩
    rw [pebsScan, h.record hr]
    exact congrArg (Option.bind · _) hscan

/-- The records are taken for what they are, each once and in turn, exactly if no sample starts too
close to the end of the data area. -/
theorem perf_decodes_iff (h : p.Holds records) : p.Decodes records ↔ p.InOnePiece records := by
  refine ⟨fun hd => ?_, fun hp n => hp.decodes h⟩
  induction records generalizing p with
  | nil =>
    intro front r rest he
    cases front <;> cases he
  | cons r rest ih =>
    have hr : r.type = perfRecordSample →
        p.dataTail.toNat % p.dataSize.toNat + sampleAddrOffset + 8 ≤ p.dataSize.toNat := fun hs => by
      by_contra hout
      obtain ⟨p', hscan, -⟩ := hd 1
      rw [pebsScan, h.record_outside hs (by omega)] at hscan
      cases hscan
    refine h.inOnePiece_cons.2 ⟨hr, ih h.skip fun n => ?_⟩
    obtain ⟨p', hscan, hholds⟩ := hd (n + 1)
    refine ⟨p', ?_, hholds⟩
    rw [pebsScan, h.record hr] at hscan
    rcases hn : pebsScan n (p.skip r) with _ | ⟨events, p''⟩
    · simp [hn] at hscan
    · simp [hn] at hscan
      simp [hscan]

end Records

section Samples

/-- A sample of the address 2 MB. -/
def perfSample : PerfRecord where
  bytes := [9, 0, 0, 0, 0, 0, 40, 0] ++ List.replicate 16 0 ++ [0, 0, 32, 0, 0, 0, 0, 0] ++
    List.replicate 8 0
  header := by decide
  aligned := by decide
  size := by decide
  sample _ := by decide

/-- A data area of one page with one record in it. -/
def onlyRecord (tail : UInt64) (r : PerfRecord) : PerfPage where
  dataHead := tail + UInt64.ofNat r.bytes.length
  dataTail := tail
  dataSize := 4096
  data i := r.bytes.getD ((i + (4096 - tail.toNat % 4096)) % 4096) 0

theorem onlyRecord_holds {tail : UInt64} (htail : tail.toNat % 8 = 0)
    (hfits : r.bytes.length ≤ 4096) : (onlyRecord tail r).Holds [r] := by
  have hsize : (onlyRecord tail r).dataSize.toNat = 4096 := rfl
  have hflat : [r].flatMap (·.bytes) = r.bytes := by simp
  refine ⟨⟨12, by omega, by omega, rfl⟩, htail, by rw [hflat, hsize]; exact hfits,
    by rw [hflat]; rfl, fun i b hi => ?_⟩
  rw [hflat] at hi
  obtain ⟨hlt, hget⟩ := List.getElem?_eq_some_iff.1 hi
  have hpos : ((tail.toNat + i) % 4096 + (4096 - tail.toNat % 4096)) % 4096 = i := by omega
  change r.bytes.getD (((tail.toNat + i) % 4096 + (4096 - tail.toNat % 4096)) % 4096) 0 = b
  rw [hpos, List.getD_eq_getElem?_getD, hi]
  rfl

/-- The last place for a sample. -/
theorem perf_decodes_last : (onlyRecord 4064 perfSample).Decodes [perfSample] := by
  refine (perf_decodes_iff (onlyRecord_holds (by decide) (by decide))).2 fun front r rest he _ => ?_
  rcases front with _ | ⟨x, front⟩
  · decide
  · rcases front with _ | ⟨y, front⟩ <;> cases he

/-- Eight bytes further on, `addr` is at the beginning of the data area, and the thread looks behind
the end. -/
theorem perf_reads_outside : (onlyRecord 4072 perfSample).Holds [perfSample] ∧
    pebsScanRecord (onlyRecord 4072 perfSample) = none ∧
      ¬ (onlyRecord 4072 perfSample).Decodes [perfSample] := by
  have hholds : (onlyRecord 4072 perfSample).Holds [perfSample] :=
    onlyRecord_holds (by decide) (by decide)
  have hnone := hholds.record_outside (by decide) (by decide)
  refine ⟨hholds, hnone, fun hd => ?_⟩
  obtain ⟨p', hscan, -⟩ := hd 1
  rw [pebsScan, hnone] at hscan
  cases hscan

end Samples

end HeMem

import HeMem.FlexKvs.Jenkins
import Mathlib.Algebra.Ring.Nat
import Mathlib.Tactic.IntervalCases

/-!
# The hash of a key is a function of its bytes

Whichever of its paths `jenkins_hash` takes, a block adds the same three words to `a`, `b` and `c`.
The words are compared as sums of shifted bytes.
-/

namespace FlexKvs

variable {mem : ℕ → UInt8} {k n length : ℕ}

section Words

theorem byte_toNat : (byte mem k).toNat = (mem k).toNat := UInt8.toNat_toUInt32 _

theorem byte_shl_toNat {m : UInt32} (hm : m.toNat ≤ 24) :
    (byte mem k <<< m).toNat = (mem k).toNat * 2 ^ m.toNat := by
  have hb : (mem k).toNat < 2 ^ 8 := (mem k).toNat_lt
  have hlt : (mem k).toNat * 2 ^ m.toNat < 2 ^ 32 := calc
    (mem k).toNat * 2 ^ m.toNat < 2 ^ 8 * 2 ^ m.toNat :=
      Nat.mul_lt_mul_of_pos_right hb (Nat.two_pow_pos _)
    _ = 2 ^ (8 + m.toNat) := (Nat.pow_add ..).symm
    _ ≤ 2 ^ 32 := Nat.pow_le_pow_right (by decide) (by omega)
  rw [UInt32.toNat_shiftLeft, Nat.mod_eq_of_lt (by omega : m.toNat < 32), Nat.shiftLeft_eq,
    byte_toNat, Nat.mod_eq_of_lt hlt]

/-- A shift is a product. -/
theorem byte_shl {m v : UInt32} (hm : m.toNat ≤ 24) (hv : v.toNat = 2 ^ m.toNat) :
    byte mem k <<< m = v * (mem k).toUInt32 := by
  apply UInt32.toNat_inj.1
  have hlt : (byte mem k <<< m).toNat < 2 ^ 32 := UInt32.toNat_lt _
  rw [byte_shl_toNat hm] at hlt
  rw [byte_shl_toNat hm, UInt32.toNat_mul, hv, UInt8.toNat_toUInt32, Nat.mul_comm (2 ^ _),
    Nat.mod_eq_of_lt hlt]

theorem half_toNat :
    (half mem k).toNat = (mem k).toNat + 256 * (mem (k + 1)).toNat := by
  have h0 : (mem k).toNat < 2 ^ 8 := (mem k).toNat_lt
  have h1 : (mem (k + 1)).toNat < 2 ^ 8 := (mem (k + 1)).toNat_lt
  simp [half, load, List.range_succ, Nat.ofDigits]
  omega

theorem word_toNat : (word mem k).toNat = (mem k).toNat + 256 * ((mem (k + 1)).toNat +
    256 * ((mem (k + 2)).toNat + 256 * (mem (k + 3)).toNat)) := by
  have h0 : (mem k).toNat < 2 ^ 8 := (mem k).toNat_lt
  have h1 : (mem (k + 1)).toNat < 2 ^ 8 := (mem (k + 1)).toNat_lt
  have h2 : (mem (k + 2)).toNat < 2 ^ 8 := (mem (k + 2)).toNat_lt
  have h3 : (mem (k + 3)).toNat < 2 ^ 8 := (mem (k + 3)).toNat_lt
  simp [word, load, List.range_succ, Nat.ofDigits]
  omega

theorem half_eq : half mem k = byte mem k + byte mem (k + 1) <<< 8 := by
  apply UInt32.toNat_inj.1
  have h0 : (mem k).toNat < 2 ^ 8 := (mem k).toNat_lt
  have h1 : (mem (k + 1)).toNat < 2 ^ 8 := (mem (k + 1)).toNat_lt
  rw [half_toNat, UInt32.toNat_add, byte_toNat, byte_shl_toNat (by decide)]
  simp
  omega

theorem half_shl : half mem k <<< 16 = byte mem k <<< 16 + byte mem (k + 1) <<< 24 := by
  apply UInt32.toNat_inj.1
  have h0 : (mem k).toNat < 2 ^ 8 := (mem k).toNat_lt
  have h1 : (mem (k + 1)).toNat < 2 ^ 8 := (mem (k + 1)).toNat_lt
  rw [UInt32.toNat_add, byte_shl_toNat (by decide), byte_shl_toNat (by decide),
    UInt32.toNat_shiftLeft, half_toNat]
  simp [Nat.shiftLeft_eq]
  omega

theorem word_eq : word mem k =
    byte mem k + byte mem (k + 1) <<< 8 + byte mem (k + 2) <<< 16 + byte mem (k + 3) <<< 24 := by
  apply UInt32.toNat_inj.1
  have h0 : (mem k).toNat < 2 ^ 8 := (mem k).toNat_lt
  have h1 : (mem (k + 1)).toNat < 2 ^ 8 := (mem (k + 1)).toNat_lt
  have h2 : (mem (k + 2)).toNat < 2 ^ 8 := (mem (k + 2)).toNat_lt
  have h3 : (mem (k + 3)).toNat < 2 ^ 8 := (mem (k + 3)).toNat_lt
  rw [word_toNat, UInt32.toNat_add, UInt32.toNat_add, UInt32.toNat_add, byte_toNat,
    byte_shl_toNat (by decide), byte_shl_toNat (by decide), byte_shl_toNat (by decide)]
  simp
  omega

/-- A mask keeps the low bytes of a word. -/
theorem word_and {m : UInt32} (i : ℕ) (hm : m.toNat = 2 ^ i - 1) :
    (word mem k &&& m).toNat = (word mem k).toNat % 2 ^ i := by
  rw [UInt32.toNat_and, hm, Nat.and_two_pow_sub_one_eq_mod]

theorem word_and_one : word mem k &&& (0xff : UInt32) = byte mem k := by
  apply UInt32.toNat_inj.1
  have h0 : (mem k).toNat < 2 ^ 8 := (mem k).toNat_lt
  rw [word_and 8 (by decide), word_toNat, byte_toNat]
  omega

theorem word_and_two : word mem k &&& (0xffff : UInt32) = byte mem k + byte mem (k + 1) <<< 8 := by
  apply UInt32.toNat_inj.1
  have h0 : (mem k).toNat < 2 ^ 8 := (mem k).toNat_lt
  have h1 : (mem (k + 1)).toNat < 2 ^ 8 := (mem (k + 1)).toNat_lt
  rw [word_and 16 (by decide), word_toNat, UInt32.toNat_add, byte_toNat,
    byte_shl_toNat (by decide)]
  simp
  omega

theorem word_and_three : word mem k &&& (0xffffff : UInt32) =
    byte mem k + byte mem (k + 1) <<< 8 + byte mem (k + 2) <<< 16 := by
  apply UInt32.toNat_inj.1
  have h0 : (mem k).toNat < 2 ^ 8 := (mem k).toNat_lt
  have h1 : (mem (k + 1)).toNat < 2 ^ 8 := (mem (k + 1)).toNat_lt
  have h2 : (mem (k + 2)).toNat < 2 ^ 8 := (mem (k + 2)).toNat_lt
  rw [word_and 24 (by decide), word_toNat, UInt32.toNat_add, UInt32.toNat_add, byte_toNat,
    byte_shl_toNat (by decide), byte_shl_toNat (by decide)]
  simp
  omega

end Words

section Tails

variable {s : HashState}

theorem add_add (x y z x' y' z' : UInt32) :
    (s.add x y z).add x' y' z' = s.add (x' + x) (y' + y) (z' + z) := by
  simp only [HashState.add, UInt32.add_assoc, UInt32.add_comm x, UInt32.add_comm y,
    UInt32.add_comm z]

theorem halves_eq (i : ℕ) : halves mem k i = byte mem (k + 2 * i) + byte mem (k + 2 * i + 1) <<< 8 +
    (byte mem (k + 2 * i + 2) <<< 16 + byte mem (k + 2 * i + 3) <<< 24) := by
  rw [halves, half_eq, half_shl]
  rfl

theorem wordsTail_eq (h : n ≤ 12) : wordsTail mem k n s = bytesTail mem k n s := by
  interval_cases n <;> simp only [wordsTail, bytesTail, add_add, word_and_one, word_and_two,
    word_and_three] <;> simp only [word_eq, UInt32.add_zero, UInt32.zero_add, Nat.add_assoc,
    Nat.reduceAdd, UInt32.add_assoc]

theorem wordsTailValgrind_eq (h : n ≤ 12) :
    wordsTailValgrind mem k n s = bytesTail mem k n s := by
  interval_cases n <;> simp only [wordsTailValgrind, bytesTail, add_add, word_eq, UInt32.add_zero,
    UInt32.zero_add, Nat.add_assoc, Nat.reduceAdd, UInt32.add_assoc]

theorem halvesTail_eq (h : n ≤ 12) : halvesTail mem k n s = bytesTail mem k n s := by
  interval_cases n <;> simp only [halvesTail, bytesTail, add_add, halves_eq, half_eq,
    UInt32.add_zero, UInt32.zero_add, Nat.add_assoc, Nat.reduceAdd, Nat.reduceMul, Nat.add_zero,
    UInt32.add_assoc]

theorem bytesBlock_eq : bytesBlock mem k s = bytesTail mem k 12 s := by
  simp only [bytesBlock, bytesTail, add_add]
  simp only [HashState.add, UInt32.add_zero, UInt32.zero_add, UInt32.add_assoc]

theorem add_zero : s.add 0 0 0 = s := by
  simp only [HashState.add, UInt32.add_zero]

theorem bytesTail_eq (h : n ≤ 12) : bytesTail mem k n s = s.absorb (bytesAt mem k n) := by
  have h8 : ∀ j, (mem j).toUInt32 <<< 8 = 256 * (mem j).toUInt32 := fun _ => byte_shl (by decide) rfl
  have h16 : ∀ j, (mem j).toUInt32 <<< 16 = 65536 * (mem j).toUInt32 := fun _ =>
    byte_shl (by decide) rfl
  have h24 : ∀ j, (mem j).toUInt32 <<< 24 = 16777216 * (mem j).toUInt32 := fun _ =>
    byte_shl (by decide) rfl
  interval_cases n <;> simp [bytesTail, add_add, add_zero, HashState.absorb, wordAt, bytesAt,
    List.range_succ, Nat.ofDigits, h8, h16, h24, byte,
    UInt32.mul_add, ← UInt32.mul_assoc]

end Tails

section Loop

variable {s : HashState} {l : List UInt8}

theorem length_bytesAt : (bytesAt mem k length).length = length := by simp [bytesAt]

theorem drop_bytesAt : (bytesAt mem k length).drop n = bytesAt mem (k + n) (length - n) := by
  apply List.ext_getElem
  · simp [length_bytesAt]
  · intro i hi hi'
    simp [bytesAt, Nat.add_assoc]

theorem take_bytesAt (h : n ≤ length) : (bytesAt mem k length).take n = bytesAt mem k n := by
  apply List.ext_getElem
  · simp [length_bytesAt, h]
  · intro i hi hi'
    simp [bytesAt]

theorem wordAt_take {i : ℕ} (h : i ≤ 8) : wordAt (l.take 12) i = wordAt l i := by
  rw [wordAt, List.drop_take, List.take_take, Nat.min_eq_left (by omega)]
  rfl

/-- A block of a longer key is its first twelve bytes. -/
theorem absorb_take : s.absorb (l.take 12) = s.absorb l := by
  simp [HashState.absorb, wordAt_take]

/-- A loop over the key in memory is the loop over its bytes, however blocks are read. -/
theorem hashLoop_eq {block : ℕ → HashState → HashState} {tail : ℕ → ℕ → HashState → HashState}
    (hb : ∀ k s, block k s = bytesTail mem k 12 s)
    (ht : ∀ k n s, n ≤ 12 → tail k n s = bytesTail mem k n s) :
    ∀ {length k : ℕ} {s : HashState},
      hashLoop block tail k length s = absorbAll (bytesAt mem k length) s := by
  intro length
  induction length using Nat.strong_induction_on with
  | _ length ih =>
    intro k s
    rw [hashLoop, absorbAll, length_bytesAt]
    by_cases h : 12 < length
    · have hblock : s.absorb (bytesAt mem k length) = bytesTail mem k 12 s := by
        rw [← absorb_take, take_bytesAt (by omega), bytesTail_eq (by omega)]
      rw [if_pos h, if_pos h, ih _ (by omega), drop_bytesAt, hb, hblock]
    · rw [if_neg h, if_neg h]
      by_cases h0 : length = 0
      · subst h0
        rfl
      · have hne : bytesAt mem k length ≠ [] := by
          intro he
          have hlen := congrArg List.length he
          rw [length_bytesAt] at hlen
          exact h0 hlen
        rw [if_neg h0, if_neg hne, ht _ _ _ (by omega), bytesTail_eq (by omega)]

end Loop

/-- Each path of `jenkins_hash` leaves `a`, `b` and `c` as the bytes of the key have it. -/
theorem jenkinsState_eq {valgrind : Bool} {key : ℕ} : jenkinsState valgrind mem key length =
    absorbAll (bytesAt mem key length) (hashInit length) := by
  unfold jenkinsState
  split
  · refine hashLoop_eq (fun k s => ?_) fun k n s hn => ?_
    · rw [← wordsTail_eq le_rfl, wordsTail]
    · cases valgrind
      · exact wordsTail_eq hn
      · exact wordsTailValgrind_eq hn
  · split
    · refine hashLoop_eq (fun k s => ?_) fun k n s hn => halvesTail_eq hn
      rw [← halvesTail_eq le_rfl, halvesTail]
    · exact hashLoop_eq (fun _ _ => bytesBlock_eq) fun _ _ _ _ => rfl

/-- The hash of a key does not depend on its address, nor on what lies around it, nor on the
build. -/
theorem jenkins_hash_bytes (valgrind : Bool) (mem : ℕ → UInt8) (key length : ℕ) :
    jenkinsHash valgrind mem key length = hashOfBytes (bytesAt mem key length) := by
  rw [jenkinsHash, jenkinsState_eq, hashOfBytes, length_bytesAt]

section Reversible

variable {s t : HashState} {l l' : List UInt8}

/-- A line of `mix`, the roles of `a`, `b` and `c` turned for the next one. -/
def HashState.mixLine (m : UInt32) (s : HashState) : HashState :=
  ⟨s.b, s.c + s.b, (s.a - s.c) ^^^ rot s.c m⟩

/-- A line of `final`, the roles turned likewise. -/
def HashState.finalLine (m : UInt32) (s : HashState) : HashState :=
  ⟨s.b, (s.c ^^^ s.b) - rot s.b m, s.a⟩

theorem mix_eq :
    s.mix = ((((((s.mixLine 4).mixLine 6).mixLine 8).mixLine 16).mixLine 19).mixLine 4) := rfl

theorem final_eq : s.final =
    let t := (((((((s.finalLine 14).finalLine 11).finalLine 25).finalLine 16).finalLine 4).finalLine
      14).finalLine 24)
    ⟨t.c, t.a, t.b⟩ := rfl

theorem mixLine_injective (m : UInt32) : Function.Injective (HashState.mixLine m) := by
  intro s t h
  simp only [HashState.mixLine, HashState.mk.injEq] at h
  obtain ⟨hb, hc, ha⟩ := h
  rw [hb] at hc
  have hc' : s.c = t.c := (UInt32.add_left_inj _).1 hc
  rw [hc'] at ha
  have ha' : s.a = t.a := (UInt32.sub_left_inj _).1 ((UInt32.xor_left_inj _).1 ha)
  exact HashState.ext ha' hb hc'

theorem finalLine_injective (m : UInt32) : Function.Injective (HashState.finalLine m) := by
  intro s t h
  simp only [HashState.finalLine, HashState.mk.injEq] at h
  obtain ⟨hb, hc, ha⟩ := h
  rw [hb] at hc
  exact HashState.ext ha hb ((UInt32.xor_left_inj _).1 ((UInt32.sub_left_inj _).1 hc))

/-- `mix` is reversible. -/
theorem mix_injective : Function.Injective HashState.mix := by
  intro s t h
  rw [mix_eq, mix_eq] at h
  repeat replace h := mixLine_injective _ h
  exact h

theorem final_injective : Function.Injective HashState.final := by
  intro s t h
  rw [final_eq, final_eq] at h
  simp only [HashState.mk.injEq] at h
  obtain ⟨hc, ha, hb⟩ := h
  have h := HashState.ext ha hb hc
  repeat replace h := finalLine_injective _ h
  exact h

theorem absorb_left_injective (h : s.absorb l = t.absorb l) : s = t := by
  simp only [HashState.absorb, HashState.add, HashState.mk.injEq] at h
  obtain ⟨ha, hb, hc⟩ := h
  exact HashState.ext ((UInt32.add_left_inj _).1 ha) ((UInt32.add_left_inj _).1 hb)
    ((UInt32.add_left_inj _).1 hc)

theorem absorbAll_injective : ∀ {l : List UInt8} {s t : HashState},
    absorbAll l s = absorbAll l t → s = t := by
  intro l
  induction hn : l.length using Nat.strong_induction_on generalizing l with
  | _ n ih =>
    intro s t h
    rw [absorbAll, absorbAll.eq_def l t] at h
    split_ifs at h with hlong hnil
    · have hmix := ih (l.drop 12).length (by rw [List.length_drop]; omega) rfl h
      exact absorb_left_injective (mix_injective hmix)
    · exact h
    · exact absorb_left_injective (final_injective h)

/-- Bytes that a word is made of can be had back from it. -/
theorem wordAt_inj {i : ℕ} (hl : l.length = l'.length) (h : wordAt l i = wordAt l' i) :
    (l.drop i).take 4 = (l'.drop i).take 4 := by
  have hlt : ∀ l : List UInt8, Nat.ofDigits 256 (((l.drop i).take 4).map UInt8.toNat) < 2 ^ 32 := by
    intro l
    have hdigits : ∀ x ∈ ((l.drop i).take 4).map UInt8.toNat, x < 256 := by
      intro x hx
      obtain ⟨b, -, rfl⟩ := List.mem_map.1 hx
      exact b.toNat_lt
    calc Nat.ofDigits 256 (((l.drop i).take 4).map UInt8.toNat)
        < 256 ^ (((l.drop i).take 4).map UInt8.toNat).length :=
          Nat.ofDigits_lt_base_pow_length (by decide) hdigits
      _ ≤ 256 ^ 4 := Nat.pow_le_pow_right (by decide) (by simp)
      _ = 2 ^ 32 := by decide
  have hn := congrArg UInt32.toNat h
  rw [wordAt, wordAt, UInt32.toNat_ofNat_of_lt' (hlt l), UInt32.toNat_ofNat_of_lt' (hlt l')] at hn
  have hmap := Nat.ofDigits_inj_of_len_eq (by decide) (by simp [hl])
    (fun x hx => by obtain ⟨b, -, rfl⟩ := List.mem_map.1 hx; exact b.toNat_lt)
    (fun x hx => by obtain ⟨b, -, rfl⟩ := List.mem_map.1 hx; exact b.toNat_lt) hn
  exact (List.map_inj_right fun _ _ => UInt8.toNat_inj.1).1 hmap

theorem take_twelve : l.take 12 = l.take 4 ++ ((l.drop 4).take 4 ++ (l.drop 8).take 4) := by
  rw [show l.drop 8 = (l.drop 4).drop 4 by rw [List.drop_drop], ← List.take_add, ← List.take_add]

theorem absorb_inj (hl : l.length = l'.length) (h : s.absorb l = s.absorb l') :
    l.take 12 = l'.take 12 := by
  simp only [HashState.absorb, HashState.add, HashState.mk.injEq, UInt32.add_right_inj] at h
  obtain ⟨h0, h4, h8⟩ := h
  rw [take_twelve, take_twelve, wordAt_inj hl h4, wordAt_inj hl h8]
  exact congrArg (· ++ _) (wordAt_inj hl h0)

/-- Keys that differ in one block alone are told apart. -/
theorem absorbAll_ne : ∀ (j : ℕ) {l l' : List UInt8} {s : HashState}, l.length = l'.length →
    l.take (12 * j) = l'.take (12 * j) → l.drop (12 * j + 12) = l'.drop (12 * j + 12) → l ≠ l' →
      absorbAll l s ≠ absorbAll l' s := by
  intro j
  induction j with
  | zero =>
    intro l l' s hl _ hdrop hne h
    have htake : l.take 12 ≠ l'.take 12 := by
      intro ht
      refine hne ?_
      rw [← List.take_append_drop 12 l, ← List.take_append_drop 12 l', ht]
      exact congrArg _ hdrop
    have hnil : l = [] ↔ l' = [] := by
      rw [← List.length_eq_zero_iff, hl, List.length_eq_zero_iff]
    rw [absorbAll, absorbAll.eq_def l' s] at h
    simp only [hl, hnil] at h
    split_ifs at h with hlong hnil'
    · rw [show l'.drop 12 = l.drop 12 from hdrop.symm] at h
      exact htake (absorb_inj hl (mix_injective (absorbAll_injective h)))
    · exact hne ((hnil.2 hnil').trans hnil'.symm)
    · exact htake (absorb_inj hl (final_injective h))
  | succ j ih =>
    intro l l' s hl htake hdrop hne h
    have hlong : 12 < l'.length := by
      by_contra hshort
      refine hne ?_
      rwa [List.take_of_length_le (by omega), List.take_of_length_le (by omega)] at htake
    have hfirst : l.take 12 = l'.take 12 := by
      have h12 := congrArg (List.take 12) htake
      rwa [List.take_take, List.take_take, Nat.min_eq_left (by omega)] at h12
    have hsame : s.absorb l = s.absorb l' := by
      rw [← absorb_take, hfirst, absorb_take]
    rw [absorbAll, absorbAll.eq_def l' s, if_pos (hl ▸ hlong), if_pos hlong, hsame] at h
    refine ih (by simp [hl]) ?_ ?_ ?_ h
    · rw [List.take_drop, List.take_drop, show 12 + 12 * j = 12 * (j + 1) by omega, htake]
    · simpa [List.drop_drop, Nat.mul_add, Nat.add_assoc, Nat.add_comm] using hdrop
    · intro hrest
      rw [← List.take_append_drop 12 l, ← List.take_append_drop 12 l', hfirst, hrest] at hne
      exact hne rfl

end Reversible

variable {mem' : ℕ → UInt8} {key key' : ℕ}

/-- No byte of a block is lost on the way to the last `final`: two keys of one length that differ in
one block, and in no other, leave different values in `a`, `b` and `c`. -/
theorem blocks_told_apart (valgrind valgrind' : Bool) (j : ℕ)
    (hsame : ∀ i < length, i / 12 ≠ j → mem (key + i) = mem' (key' + i))
    (hdiff : ∃ i < length, mem (key + i) ≠ mem' (key' + i)) :
    jenkinsState valgrind mem key length ≠ jenkinsState valgrind' mem' key' length := by
  rw [jenkinsState_eq, jenkinsState_eq]
  refine absorbAll_ne j (by rw [length_bytesAt, length_bytesAt]) ?_ ?_ ?_
  · apply List.ext_getElem (by simp [length_bytesAt])
    intro i hi hi'
    simp only [List.length_take, length_bytesAt] at hi
    simpa [bytesAt] using hsame i (by omega) (by omega)
  · apply List.ext_getElem (by simp [length_bytesAt])
    intro i hi hi'
    simp only [List.length_drop, length_bytesAt] at hi
    simpa [bytesAt, Nat.add_assoc] using hsame (12 * j + 12 + i) (by omega) (by omega)
  · intro he
    obtain ⟨i, hi, hne⟩ := hdiff
    have hget : (bytesAt mem key length)[i]? = (bytesAt mem' key' length)[i]? := by rw [he]
    simp [bytesAt, hi] at hget
    exact hne hget

/-- Thirty bytes at an odd address and at a multiple of four, the second block different. -/
theorem blocks_told_apart_second :
    jenkinsState false (fun i => if i = 14 then 1 else 0) 1 30 ≠
      jenkinsState true (fun _ => 0) 4 30 := by
  refine blocks_told_apart false true 1 (fun i hi hj => ?_) ⟨13, by decide, by decide⟩
  exact if_neg (by omega)

end FlexKvs

import HeMem.FlexKvs.Workload
import Mathlib.Order.Basic
import Mathlib.Order.Nat

/-!
# Which keys `draw_key` can draw

`key_in_range` tells on which side of `drawn` an index is.  The loop keeps `drawn` between its
bounds, and returns the last middle it has asked about: where the bounds meet at `drawn`, that is
another key.
-/

namespace FlexKvs

theorem draw_bind_ok {β γ : Type} (b : β) (f : β → Except DrawFault γ) :
    (Except.ok b >>= f) = f b := rfl

theorem sizeT_cast {i : ℕ} (h : i < 2 ^ 64) : sizeT i = .ok i := by
  rw [sizeT, if_pos (by omega), Int.toNat_natCast]

theorem sizeT_pred {i : ℕ} (h0 : 0 < i) (h : i < 2 ^ 64) : sizeT (i - 1) = .ok (i - 1) := by
  rw [sizeT, if_pos (by omega)]
  congr 1
  omega

namespace Middle

variable {l r i : ℕ}

theorem bounds (h : Middle l r i) : l ≤ i ∧ i ≤ r := by
  induction h with
  | here h => omega
  | left h _ ih => omega
  | right h _ ih => omega

theorem lt (h : Middle l r i) : l < r := by
  cases h <;> assumption

theorem left_iff (h : l < r) (hi : i < (l + r) / 2) :
    Middle l r i ↔ Middle l ((l + r) / 2 - 1) i := by
  refine ⟨fun hm => ?_, .left h⟩
  cases hm with
  | here => omega
  | left _ hm => exact hm
  | right _ hm =>
    have := hm.bounds
    omega

theorem right_iff (h : l < r) (hi : (l + r) / 2 < i) :
    Middle l r i ↔ Middle ((l + r) / 2 + 1) r i := by
  refine ⟨fun hm => ?_, .right h⟩
  cases hm with
  | here => omega
  | left _ hm =>
    have := hm.bounds
    omega
  | right _ hm => exact hm

end Middle

namespace Keys

variable {α : Type} [LinearOrder α] {keys : Keys α} {x : α} {i l r mid rounds : ℕ}

theorem drawn_lt : keys.drawn x < keys.n := by
  have hpos := keys.pos
  unfold drawn
  cases hf : (List.range (keys.n - 1)).find? fun i => x ≤ keys.cdf i with
  | none =>
    rw [Option.getD_none]
    omega
  | some i =>
    have hi := List.mem_range.1 (List.mem_of_find?_eq_some hf)
    rw [Option.getD_some]
    omega

theorem cdf_lt_of_lt_drawn (h : i < keys.drawn x) : keys.cdf i < x := by
  unfold drawn at h
  cases hf : (List.range (keys.n - 1)).find? fun i => x ≤ keys.cdf i with
  | none =>
    rw [hf, Option.getD_none] at h
    have hno := List.find?_eq_none.1 hf i (List.mem_range.2 h)
    simpa using hno
  | some j =>
    rw [hf, Option.getD_some] at h
    have hno := (List.find?_range_eq_some.1 hf).2.2 i h
    simpa using hno

theorem le_cdf_drawn (h : keys.drawn x ≠ keys.n - 1) : x ≤ keys.cdf (keys.drawn x) := by
  unfold drawn at h ⊢
  cases hf : (List.range (keys.n - 1)).find? fun i => x ≤ keys.cdf i with
  | none => simp [hf] at h
  | some j => simpa using List.find?_some hf

theorem cdfAt_eq (h : i < keys.n) : keys.cdfAt i = .ok (keys.cdf i) := if_pos h

/-- Which way `key_in_range` sends the search. -/
theorem keyInRange_eq (h : i < keys.n) : keys.keyInRange x i =
    .ok (if keys.drawn x < i then -1 else if i < keys.drawn x then 1 else 0) := by
  have hn := keys.fits
  have hpos := keys.pos
  have hlt : keys.drawn x < keys.n := drawn_lt
  unfold keyInRange
  rw [cdfAt_eq h]
  change (if x < keys.cdf i then _ else _ : Except DrawFault ℤ) = _
  rcases lt_trichotomy i (keys.drawn x) with hi | rfl | hi
  · have hx : keys.cdf i < x := cdf_lt_of_lt_drawn hi
    rw [if_neg hx.not_gt, if_pos hx, sizeT_pred hpos (by omega), if_neg (by omega), if_pos hi]
    change Except.ok (if i = keys.n - 1 then (0 : ℤ) else 1) = _
    rw [if_neg (by omega)]
  · rw [if_neg (lt_irrefl _), if_neg (lt_irrefl _)]
    split
    · split
      · rfl
      · rename_i h0
        have hx : keys.cdf (keys.drawn x - 1) < x := cdf_lt_of_lt_drawn (by omega)
        rw [sizeT_pred (by omega) (by omega)]
        change (keys.cdfAt (keys.drawn x - 1) >>= fun c => pure (if x ≤ c then (-1 : ℤ) else 0)) = _
        rw [cdfAt_eq (by omega)]
        change Except.ok (if x ≤ _ then (-1 : ℤ) else 0) = _
        rw [if_neg hx.not_ge]
    · split
      · rename_i hx
        have hlast : keys.drawn x = keys.n - 1 := by
          by_contra hne
          exact absurd (le_cdf_drawn hne) hx.not_ge
        rw [sizeT_pred hpos (by omega)]
        change Except.ok (if _ = keys.n - 1 then (0 : ℤ) else 1) = _
        rw [if_pos hlast]
      · rfl
  · have hle : x ≤ keys.cdf (keys.drawn x) := le_cdf_drawn (by omega)
    have hprev : x ≤ keys.cdf (i - 1) := by
      rcases Nat.lt_or_ge (keys.drawn x) (i - 1) with hi' | hi'
      · exact hle.trans (keys.increasing _ _ hi' (by omega)).le
      · rwa [show i - 1 = keys.drawn x by omega]
    rw [if_pos (hle.trans_lt (keys.increasing _ _ hi h)), if_neg (by omega),
      sizeT_pred (by omega) (by omega), if_pos hi]
    change (keys.cdfAt (i - 1) >>= fun c => pure (if x ≤ c then (-1 : ℤ) else 0)) = _
    rw [cdfAt_eq (by omega)]
    change Except.ok (if x ≤ _ then (-1 : ℤ) else 0) = _
    rw [if_pos hprev]

/-- From bounds around `drawn`, the loop returns `drawn` exactly if it asks about it. -/
theorem drawLoop_spec (hr : r < keys.n) (hl : l ≤ keys.drawn x) (hd : keys.drawn x ≤ r)
    (hrounds : r - l < rounds) (hmid : l < r ∨ mid ≠ keys.drawn x) :
    ∃ j, keys.drawLoop x rounds l r mid = .ok j ∧
      (j = keys.drawn x ↔ Middle l r (keys.drawn x)) := by
  induction rounds generalizing l r mid with
  | zero => exact absurd hrounds (Nat.not_lt_zero _)
  | succ rounds ih =>
    have hn := keys.fits
    unfold drawLoop
    by_cases hlr : l < r
    · have hkey : keys.keyInRange x ((l + r) / 2) = _ := keyInRange_eq (by omega)
      rw [if_pos hlr, ← Int.natCast_add, sizeT_cast (by omega)]
      simp only [draw_bind_ok, hkey]
      rcases lt_trichotomy (keys.drawn x) ((l + r) / 2) with hlt | heq | hgt
      · simp only [if_pos hlt, Int.reduceNeg, Int.reduceLT, if_true]
        rw [sizeT_pred (by omega) (by omega), draw_bind_ok, Middle.left_iff hlr hlt]
        exact ih (by omega) hl (by omega) (by omega) (.inr hlt.ne')
      · simp only [if_neg heq.not_lt, if_neg heq.not_gt, gt_iff_lt]
        exact ⟨_, rfl, iff_of_true heq.symm (heq ▸ .here hlr)⟩
      · simp only [if_neg hgt.not_gt, if_pos hgt, gt_iff_lt, Int.reduceLT, if_true, if_false]
        rw [← Int.natCast_succ, sizeT_cast (by omega), draw_bind_ok, Middle.right_iff hlr hgt]
        exact ih hr (by omega) hd (by omega) (.inr hgt.ne)
    · rw [if_neg hlr]
      exact ⟨mid, rfl, iff_of_false (hmid.resolve_left hlr) fun hm => hlr hm.lt⟩

/-- `draw_key` returns some key, and the one that `x` draws exactly if halving the array comes to
that key as the middle of two or more, or there is no other. -/
theorem draw_key_draws_iff (keys : Keys α) (x : α) : (∃ i, keys.drawKey x = .ok i) ∧
    (keys.drawKey x = .ok (keys.drawn x) ↔
      keys.n = 1 ∨ Middle 0 (keys.n - 1) (keys.drawn x)) := by
  have hn := keys.fits
  have hpos := keys.pos
  have hlt : keys.drawn x < keys.n := drawn_lt
  unfold drawKey
  rw [sizeT_pred hpos (by omega)]
  change (∃ i, keys.drawLoop x keys.n 0 (keys.n - 1) 0 = .ok i) ∧
    (keys.drawLoop x keys.n 0 (keys.n - 1) 0 = .ok (keys.drawn x) ↔ _)
  rcases Nat.eq_or_lt_of_le hpos with h1 | h1
  · have hd : keys.drawn x = 0 := by omega
    rw [← h1, hd]
    exact ⟨⟨0, rfl⟩, iff_of_true rfl (.inl rfl)⟩
  · have hspec : ∃ j, keys.drawLoop x keys.n 0 (keys.n - 1) 0 = .ok j ∧
        (j = keys.drawn x ↔ Middle 0 (keys.n - 1) (keys.drawn x)) :=
      drawLoop_spec (by omega) (Nat.zero_le _) (by omega) (by omega) (.inl (by omega))
    obtain ⟨j, hj, hiff⟩ := hspec
    rw [hj, ← hiff]
    exact ⟨⟨j, rfl⟩, ⟨fun he => .inr (Except.ok.inj he),
      fun he => congrArg _ (he.resolve_left h1.ne')⟩⟩

/-- Of two keys, the second one is never drawn. -/
theorem draw_key_misses : ∃ (keys : Keys ℕ) (x : ℕ), keys.n = 2 ∧ keys.cdf 0 < x ∧
    x ≤ keys.cdf 1 ∧ keys.drawn x = 1 ∧ keys.drawKey x = .ok 0 :=
  ⟨⟨2, id, by decide, by decide, fun _ _ h _ => h⟩, 1, rfl, by decide, by decide, by decide,
    by with_unfolding_all rfl⟩

end Keys

end FlexKvs

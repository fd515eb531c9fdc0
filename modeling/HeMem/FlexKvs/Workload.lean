import Mathlib.Algebra.Order.Ring.Nat
import Mathlib.Tactic.Common

/-!
# `draw_key` of the benchmark's `workload.c`

The keys stand in an array by increasing `cdf`, and a key is drawn by halving the array.  The number
that is drawn and the values of `cdf` are elements of any linear order.
-/

namespace FlexKvs

/-- Why a draw does not return a key. -/
inductive DrawFault
  /-- a `size_t` wraps -/
  | wraps
  /-- a key outside of the array is read -/
  | outside
  | diverges
  deriving DecidableEq

/-- `keys` and `n` of a workload, of each key only `cdf`; a `struct key` has 24 bytes. -/
structure Keys (α : Type) [LinearOrder α] where
  n : ℕ
  cdf : ℕ → α
  pos : 1 ≤ n
  fits : 24 * n < 2 ^ 64
  increasing : ∀ i j, i < j → j < n → cdf i < cdf j

/-- A `size_t`. -/
def sizeT (i : ℤ) : Except DrawFault ℕ :=
  if 0 ≤ i ∧ i < 2 ^ 64 then .ok i.toNat else .error .wraps

namespace Keys

variable {α : Type} [LinearOrder α] (keys : Keys α) (x : α)

/-- `keys[i].cdf` -/
def cdfAt (i : ℕ) : Except DrawFault α :=
  if i < keys.n then .ok (keys.cdf i) else .error .outside

def keyInRange (i : ℕ) : Except DrawFault ℤ := do
  let cdf ← keys.cdfAt i
  if x < cdf then
    if i = 0 then return 0
    else return if x ≤ (← keys.cdfAt (← sizeT (i - 1))) then -1 else 0
  else if x > cdf then
    return if i = (← sizeT (keys.n - 1)) then 0 else 1
  else return 0

/-- The loop of `draw_key`, given up after as many rounds. -/
def drawLoop : ℕ → ℕ → ℕ → ℕ → Except DrawFault ℕ
  | 0, _, _, _ => .error .diverges
  | rounds + 1, l, r, mid =>
    if l < r then do
      let mid := (← sizeT (l + r)) / 2
      let res ← keys.keyInRange x mid
      if res < 0 then drawLoop rounds l (← sizeT (mid - 1)) mid
      else if res > 0 then drawLoop rounds (← sizeT (mid + 1)) r mid
      else return mid
    else return mid

/-- `draw_key`, for the number `x` of the generator: the index of the key. -/
def drawKey : Except DrawFault ℕ := do
  keys.drawLoop x keys.n 0 (← sizeT (keys.n - 1)) 0

/-- The first key whose `cdf` is not below `x`, or the last one. -/
def drawn : ℕ := ((List.range (keys.n - 1)).find? fun i => x ≤ keys.cdf i).getD (keys.n - 1)

end Keys

/-- Halving `[l, r]`, and then the half of `i`, comes to `i` as the middle of two or more keys. -/
inductive Middle : ℕ → ℕ → ℕ → Prop
  | here {l r : ℕ} (h : l < r) : Middle l r ((l + r) / 2)
  | left {l r i : ℕ} (h : l < r) (hi : Middle l ((l + r) / 2 - 1) i) : Middle l r i
  | right {l r i : ℕ} (h : l < r) (hi : Middle ((l + r) / 2 + 1) r i) : Middle l r i

end FlexKvs

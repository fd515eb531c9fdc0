import Mathlib.Data.Nat.Digits.Defs
import Mathlib.Tactic.Common

/-!
# `jenkins_hash`

The little-endian build.  A key is read in words, in half words or in bytes, by the address it is
at; memory is a byte for each address, and where a word is read some of its bytes may lie behind
the key.
-/

namespace FlexKvs

/-- `a`, `b` and `c` -/
@[ext] structure HashState where
  a : UInt32
  b : UInt32
  c : UInt32
  deriving DecidableEq

def rot (x k : UInt32) : UInt32 := (x <<< k) ^^^ (x >>> (32 - k))

namespace HashState

def mix (s : HashState) : HashState :=
  let ⟨a, b, c⟩ := s
  let a := a - c; let a := a ^^^ rot c 4; let c := c + b
  let b := b - a; let b := b ^^^ rot a 6; let a := a + c
  let c := c - b; let c := c ^^^ rot b 8; let b := b + a
  let a := a - c; let a := a ^^^ rot c 16; let c := c + b
  let b := b - a; let b := b ^^^ rot a 19; let a := a + c
  let c := c - b; let c := c ^^^ rot b 4; let b := b + a
  ⟨a, b, c⟩

def final (s : HashState) : HashState :=
  let ⟨a, b, c⟩ := s
  let c := c ^^^ b; let c := c - rot b 14
  let a := a ^^^ c; let a := a - rot c 11
  let b := b ^^^ a; let b := b - rot a 25
  let c := c ^^^ b; let c := c - rot b 16
  let a := a ^^^ c; let a := a - rot c 4
  let b := b ^^^ a; let b := b - rot a 14
  let c := c ^^^ b; let c := c - rot b 24
  ⟨a, b, c⟩

/-- `a += x; b += y; c += z` -/
def add (s : HashState) (x y z : UInt32) : HashState := ⟨s.a + x, s.b + y, s.c + z⟩

end HashState

section Reads

variable (mem : ℕ → UInt8) (k : ℕ)

/-- The little-endian value of the `n` bytes at `k`. -/
def load (n : ℕ) : ℕ := Nat.ofDigits 256 ((List.range n).map fun i => (mem (k + i)).toNat)

/-- A `uint8_t` that is read for 32-bit arithmetic. -/
def byte : UInt32 := (mem k).toUInt32

/-- A `uint16_t` that is read for 32-bit arithmetic. -/
def half : UInt32 := UInt32.ofNat (load mem k 2)

def word : UInt32 := UInt32.ofNat (load mem k 4)

/-- `a`, `b` and `c` of a block of 12 bytes or fewer, at an address that is a multiple of four. -/
def wordsTail : ℕ → HashState → HashState
  | 12, s => s.add (word mem k) (word mem (k + 4)) (word mem (k + 8))
  | 11, s => s.add (word mem k) (word mem (k + 4)) (word mem (k + 8) &&& 0xffffff)
  | 10, s => s.add (word mem k) (word mem (k + 4)) (word mem (k + 8) &&& 0xffff)
  | 9, s => s.add (word mem k) (word mem (k + 4)) (word mem (k + 8) &&& 0xff)
  | 8, s => s.add (word mem k) (word mem (k + 4)) 0
  | 7, s => s.add (word mem k) (word mem (k + 4) &&& 0xffffff) 0
  | 6, s => s.add (word mem k) (word mem (k + 4) &&& 0xffff) 0
  | 5, s => s.add (word mem k) (word mem (k + 4) &&& 0xff) 0
  | 4, s => s.add (word mem k) 0 0
  | 3, s => s.add (word mem k &&& 0xffffff) 0 0
  | 2, s => s.add (word mem k &&& 0xffff) 0 0
  | 1, s => s.add (word mem k &&& 0xff) 0 0
  | _, s => s

/-- The same where `VALGRIND` is defined; the cases without a `break` fall through. -/
def wordsTailValgrind : ℕ → HashState → HashState
  | 12, s => s.add (word mem k) (word mem (k + 4)) (word mem (k + 8))
  | 11, s => wordsTailValgrind 10 (s.add 0 0 (byte mem (k + 10) <<< 16))
  | 10, s => wordsTailValgrind 9 (s.add 0 0 (byte mem (k + 9) <<< 8))
  | 9, s => wordsTailValgrind 8 (s.add 0 0 (byte mem (k + 8)))
  | 8, s => s.add (word mem k) (word mem (k + 4)) 0
  | 7, s => wordsTailValgrind 6 (s.add 0 (byte mem (k + 6) <<< 16) 0)
  | 6, s => wordsTailValgrind 5 (s.add 0 (byte mem (k + 5) <<< 8) 0)
  | 5, s => wordsTailValgrind 4 (s.add 0 (byte mem (k + 4)) 0)
  | 4, s => s.add (word mem k) 0 0
  | 3, s => wordsTailValgrind 2 (s.add (byte mem (k + 2) <<< 16) 0 0)
  | 2, s => wordsTailValgrind 1 (s.add (byte mem (k + 1) <<< 8) 0 0)
  | 1, s => s.add (byte mem k) 0 0
  | _, s => s

/-- `k[i] + (((uint32_t)k[i + 1])<<16)` -/
def halves (i : ℕ) : UInt32 := half mem (k + 2 * i) + half mem (k + 2 * (i + 1)) <<< 16

/-- At an even address. -/
def halvesTail : ℕ → HashState → HashState
  | 12, s => s.add (halves mem k 0) (halves mem k 2) (halves mem k 4)
  | 11, s => halvesTail 10 (s.add 0 0 (byte mem (k + 10) <<< 16))
  | 10, s => s.add (halves mem k 0) (halves mem k 2) (half mem (k + 8))
  | 9, s => halvesTail 8 (s.add 0 0 (byte mem (k + 8)))
  | 8, s => s.add (halves mem k 0) (halves mem k 2) 0
  | 7, s => halvesTail 6 (s.add 0 (byte mem (k + 6) <<< 16) 0)
  | 6, s => s.add (halves mem k 0) (half mem (k + 4)) 0
  | 5, s => halvesTail 4 (s.add 0 (byte mem (k + 4)) 0)
  | 4, s => s.add (halves mem k 0) 0 0
  | 3, s => halvesTail 2 (s.add (byte mem (k + 2) <<< 16) 0 0)
  | 2, s => s.add (half mem k) 0 0
  | 1, s => s.add (byte mem k) 0 0
  | _, s => s

/-- At an odd address; every case falls through. -/
def bytesTail : ℕ → HashState → HashState
  | 12, s => bytesTail 11 (s.add 0 0 (byte mem (k + 11) <<< 24))
  | 11, s => bytesTail 10 (s.add 0 0 (byte mem (k + 10) <<< 16))
  | 10, s => bytesTail 9 (s.add 0 0 (byte mem (k + 9) <<< 8))
  | 9, s => bytesTail 8 (s.add 0 0 (byte mem (k + 8)))
  | 8, s => bytesTail 7 (s.add 0 (byte mem (k + 7) <<< 24) 0)
  | 7, s => bytesTail 6 (s.add 0 (byte mem (k + 6) <<< 16) 0)
  | 6, s => bytesTail 5 (s.add 0 (byte mem (k + 5) <<< 8) 0)
  | 5, s => bytesTail 4 (s.add 0 (byte mem (k + 4)) 0)
  | 4, s => bytesTail 3 (s.add (byte mem (k + 3) <<< 24) 0 0)
  | 3, s => bytesTail 2 (s.add (byte mem (k + 2) <<< 16) 0 0)
  | 2, s => bytesTail 1 (s.add (byte mem (k + 1) <<< 8) 0 0)
  | 1, s => s.add (byte mem k) 0 0
  | _, s => s

/-- The bytes of a whole block, added one after another. -/
def bytesBlock (s : HashState) : HashState :=
  let a := s.a + byte mem k
  let a := a + byte mem (k + 1) <<< 8
  let a := a + byte mem (k + 2) <<< 16
  let a := a + byte mem (k + 3) <<< 24
  let b := s.b + byte mem (k + 4)
  let b := b + byte mem (k + 5) <<< 8
  let b := b + byte mem (k + 6) <<< 16
  let b := b + byte mem (k + 7) <<< 24
  let c := s.c + byte mem (k + 8)
  let c := c + byte mem (k + 9) <<< 8
  let c := c + byte mem (k + 10) <<< 16
  let c := c + byte mem (k + 11) <<< 24
  ⟨a, b, c⟩

end Reads

/-- The loop over whole blocks and the last one; a key of no bytes is not mixed. -/
def hashLoop (block : ℕ → HashState → HashState) (tail : ℕ → ℕ → HashState → HashState)
    (k length : ℕ) (s : HashState) : HashState :=
  if 12 < length then hashLoop block tail (k + 12) (length - 12) (block k s).mix
  else if length = 0 then s
  else (tail k length s).final
termination_by length

/-- `a = b = c = 0xdeadbeef + ((uint32_t)length) + 0` -/
def hashInit (length : ℕ) : HashState :=
  let i := 0xdeadbeef + UInt32.ofNat length + 0
  ⟨i, i, i⟩

/-- `a`, `b` and `c` when `jenkins_hash` returns. -/
def jenkinsState (valgrind : Bool) (mem : ℕ → UInt8) (key length : ℕ) : HashState :=
  if key % 4 = 0 then
    hashLoop (fun k s => s.add (word mem k) (word mem (k + 4)) (word mem (k + 8)))
      (if valgrind then wordsTailValgrind mem else wordsTail mem) key length (hashInit length)
  else if key % 2 = 0 then
    hashLoop (fun k s => s.add (halves mem k 0) (halves mem k 2) (halves mem k 4))
      (halvesTail mem) key length (hashInit length)
  else
    hashLoop (bytesBlock mem) (bytesTail mem) key length (hashInit length)

def jenkinsHash (valgrind : Bool) (mem : ℕ → UInt8) (key length : ℕ) : UInt32 :=
  (jenkinsState valgrind mem key length).c

section Plain

/-- The 32-bit value of the bytes of `l` from `i` on, four at most. -/
def wordAt (l : List UInt8) (i : ℕ) : UInt32 :=
  UInt32.ofNat (Nat.ofDigits 256 (((l.drop i).take 4).map UInt8.toNat))

def HashState.absorb (s : HashState) (l : List UInt8) : HashState :=
  s.add (wordAt l 0) (wordAt l 4) (wordAt l 8)

/-- What the loop makes of a key that is given as its bytes. -/
def absorbAll (l : List UInt8) (s : HashState) : HashState :=
  if 12 < l.length then absorbAll (l.drop 12) (s.absorb l).mix
  else if l = [] then s
  else (s.absorb l).final
termination_by l.length

/-- The hash of a key by its bytes alone. -/
def hashOfBytes (l : List UInt8) : UInt32 := (absorbAll l (hashInit l.length)).c

/-- The `length` bytes at `key`. -/
def bytesAt (mem : ℕ → UInt8) (key length : ℕ) : List UInt8 :=
  (List.range length).map fun i => mem (key + i)

end Plain

end FlexKvs

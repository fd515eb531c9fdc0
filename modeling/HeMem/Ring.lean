import Mathlib.Data.Int.Notation
import Mathlib.Logic.Function.Basic
import HeMem.Lib.Refine

/-!
# The ring buffers of `spsc-ring.c`

A ring of `capacity` slots, written at `head` and read at `tail`; one slot stays unused, so that
the full ring and the empty one differ.
-/

namespace HeMem

open Function

variable {α : Type}

/-- `struct ring_buf_t` -/
structure RingBuf (α : Type) where
  buffer : ℕ → α
  head : ℕ
  tail : ℕ
  capacity : ℕ

namespace RingBuf

/-- The slot after `i`, back at the first one behind the last. -/
def wrap (r : RingBuf α) (i : ℕ) : ℕ := if i + 1 = r.capacity then 0 else i + 1

end RingBuf

def ringBufFull (rbuf : RingBuf α) : Bool := rbuf.wrap rbuf.head = rbuf.tail

def ringBufEmpty (rbuf : RingBuf α) : Bool := !ringBufFull rbuf && rbuf.head = rbuf.tail

def advancePointer (rbuf : RingBuf α) : RingBuf α :=
  let rbuf := if ringBufFull rbuf then { rbuf with tail := rbuf.wrap rbuf.tail } else rbuf
  { rbuf with head := rbuf.wrap rbuf.head }

def retreatPointer (rbuf : RingBuf α) : RingBuf α :=
  { rbuf with tail := rbuf.wrap rbuf.tail }

def ringBufReset (rbuf : RingBuf α) : RingBuf α := { rbuf with head := 0, tail := 0 }

/-- `none` where an assertion fails: no slots, or so few that the new ring is not empty. -/
def ringBufInit (buffer : ℕ → α) (size : ℕ) : Option (RingBuf α) :=
  let rbuf := ringBufReset ⟨buffer, 0, 0, size⟩
  if size ≠ 0 ∧ ringBufEmpty rbuf then some rbuf else none

def ringBufSize (rbuf : RingBuf α) : ℕ :=
  if !ringBufFull rbuf then
    if rbuf.head ≥ rbuf.tail then rbuf.head - rbuf.tail
    else rbuf.capacity + rbuf.head - rbuf.tail
  else rbuf.capacity

def ringBufPut (rbuf : RingBuf α) (data : α) : RingBuf α :=
  advancePointer { rbuf with buffer := update rbuf.buffer rbuf.head data }

def ringBufPut2 (rbuf : RingBuf α) (data : α) : ℤ × RingBuf α :=
  if !ringBufFull rbuf then
    (0, advancePointer { rbuf with buffer := update rbuf.buffer rbuf.head data })
  else (-1, rbuf)

/-- `none` stands for the null pointer an empty ring returns. -/
def ringBufGet (rbuf : RingBuf α) : Option α × RingBuf α :=
  if !ringBufEmpty rbuf then (some (rbuf.buffer rbuf.tail), retreatPointer rbuf)
  else (none, rbuf)

namespace RingBuf

/-- How many elements wait between `tail` and `head`. -/
def count (r : RingBuf α) : ℕ :=
  if r.tail ≤ r.head then r.head - r.tail else r.capacity + r.head - r.tail

/-- The slot `i` places after `tail`. -/
def slot (r : RingBuf α) (i : ℕ) : ℕ :=
  if r.tail + i < r.capacity then r.tail + i else r.tail + i - r.capacity

/-- The elements waiting in the ring, oldest first. -/
def entries (r : RingBuf α) : List α := (List.range r.count).map fun i => r.buffer (r.slot i)

/-- At least two slots, and both ends inside the buffer. -/
structure Wf (r : RingBuf α) : Prop where
  capacity : 2 ≤ r.capacity
  head : r.head < r.capacity
  tail : r.tail < r.capacity

end RingBuf

/-- The calls on a ring. -/
inductive RingCall (α : Type)
  | put (data : α)
  | put2 (data : α)
  | get
  | reset

/-- What they return. -/
inductive RingOut (α : Type)
  | none
  | status (r : ℤ)
  | item (p : Option α)
  deriving DecidableEq

namespace RingCall

def run : RingCall α → StateT (RingBuf α) (Except Empty) (RingOut α)
  | put data => fun rbuf => .ok (.none, ringBufPut rbuf data)
  | put2 data => fun rbuf => .ok (.status (ringBufPut2 rbuf data).1, (ringBufPut2 rbuf data).2)
  | get => fun rbuf => .ok (.item (ringBufGet rbuf).1, (ringBufGet rbuf).2)
  | reset => fun rbuf => .ok (.none, ringBufReset rbuf)

/-- What a call should return and do to a queue of at most `capacity - 1` elements. -/
def effect (capacity : ℕ) : RingCall α → List α → RingOut α × List α
  | put data, l => (.none, (if l.length < capacity - 1 then l else l.tail) ++ [data])
  | put2 data, l => if l.length < capacity - 1 then (.status 0, l ++ [data]) else (.status (-1), l)
  | get, l => (.item l.head?, l.tail)
  | reset, _ => (.none, [])

end RingCall

/-- Successive gets return so many elements before the ring is empty. -/
inductive Gets : RingBuf α → ℕ → Prop
  | empty {r : RingBuf α} (h : (ringBufGet r).1 = none) : Gets r 0
  | next {r : RingBuf α} {x : α} {n : ℕ} (h : (ringBufGet r).1 = some x)
      (hn : Gets (ringBufGet r).2 n) : Gets r (n + 1)

end HeMem

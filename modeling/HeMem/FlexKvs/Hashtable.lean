import Mathlib.Algebra.Order.Ring.Nat
import Mathlib.Logic.Function.Basic
import Mathlib.Data.List.FinRange

/-!
# `hashtable.c`

A bucket holds five items with their hashes; the items past the fifth one are linked to it through
`next`.  An item is known by where it starts, counted from `seg_base`.  The loops along `next` give
up after as many rounds as there are items allocated.
-/

namespace FlexKvs

open Function

/-- Why a call does not return. -/
inductive Fault
  /-- an `assert` fails, or the null pointer is read -/
  | abort
  /-- bytes past the end of the item, or on the same pages, are overwritten -/
  | wild
  | loop
  deriving DecidableEq

/-- `struct item`, with the key and the value that follow it. -/
structure Item where
  next : Option ℕ := none
  hv : UInt32 := 0
  refcount : UInt16 := 0
  key : List UInt8 := []
  value : List UInt8 := []
  /-- how many bytes were asked for at its allocation, those of `struct item` left out -/
  room : ℕ := 0

namespace Item

variable (it : Item) (key : List UInt8) (hv : UInt32)

def itemKeyMatches : Bool := it.key == key

def itemHkeyMatches : Bool := it.hv == hv && it.itemKeyMatches key

/-- `keylen + vallen` -/
def bytes : ℕ := it.key.length + it.value.length

end Item

structure HashBucket where
  items : Fin 5 → Option ℕ := fun _ => none
  hashes : Fin 5 → UInt32 := fun _ => 0

/-- The hash table, the items, and which of them are allocated. -/
structure Hasht where
  buckets : ℕ → HashBucket := fun _ => {}
  item : ℕ → Item := fun _ => {}
  live : List ℕ := []

namespace Hasht

variable (s : Hasht) (x : ℕ)

def edit (f : Item → Item) : Hasht := { s with item := update s.item x (f (s.item x)) }

def itemRef : Hasht := s.edit x fun it => { it with refcount := it.refcount + 1 }

/-- Whether it succeeds, too. -/
def itemTryref : Bool × Hasht :=
  if (s.item x).refcount = 0 then (false, s) else (true, s.itemRef x)

def itemUnref : Except Fault Hasht :=
  if (s.item x).refcount = 0 then .error .abort
  else
    let s' := s.edit x fun it => { it with refcount := it.refcount - 1 }
    .ok (if (s'.item x).refcount = 0 then { s' with live := s'.live.erase x } else s')

/-- What `ialloc_alloc` does to the item it returns. -/
def allocated (room : ℕ) : Hasht :=
  { s.edit x fun it => { it with refcount := 1, room } with live := x :: s.live }

/-- An item gets its fields and its bytes. -/
def fill (hv : UInt32) (key value : List UInt8) : Hasht :=
  s.edit x fun it => { it with hv, key, value }

section Table

variable (key : List UInt8) (hv : UInt32)

/-- The first of the five items that has the key, and where it is. -/
def slot (b : HashBucket) : Option (Fin 5 × ℕ) :=
  (List.finRange 5).findSome? fun i => (b.items i).bind fun x =>
    if b.hashes i = hv ∧ (s.item x).itemKeyMatches key then some (i, x) else none

/-- The loop along `next` from `it`, which comes after `prev`: what `prev` and `it` are after it. -/
def chain : ℕ → ℕ → Option ℕ → Except Fault (ℕ × Option ℕ)
  | 0, _, _ => .error .loop
  | _ + 1, prev, none => .ok (prev, none)
  | n + 1, prev, some it =>
    if (s.item it).itemHkeyMatches key hv then .ok (prev, some it)
    else chain n it (s.item it).next

/-- The loop along `next` for the bucket. -/
def overflow (b : HashBucket) : Except Fault (Option (ℕ × ℕ)) :=
  match b.items 4 with
  | none => .ok none
  | some head => (s.chain key hv (s.live.length + 1) head (s.item head).next).map fun r =>
    r.2.map (r.1, ·)

variable (nbuckets : ℕ)

/-- The item that `hasht_get` finds. -/
def find : Except Fault (Option ℕ) :=
  let b := s.buckets (hv.toNat % nbuckets)
  match s.slot key hv b with
  | some (_, it) => .ok (some it)
  | none => (s.overflow key hv b).map (Option.map Prod.snd)

def hashtGet : Except Fault (Option ℕ × Hasht) := do
  match ← s.find key hv nbuckets with
  | some it => return (some it, s.itemRef it)
  | none => return (none, s)

/-- Where an item without an entry to replace goes. -/
def direct (b : HashBucket) : Fin 5 :=
  ((List.finRange 5).reverse.find? fun i => (b.items i).isNone).getD 4

def setItem (n : ℕ) (i : Fin 5) (p : Option ℕ) : Hasht :=
  { s with
    buckets := update s.buckets n
      { s.buckets n with items := update (s.buckets n).items i p } }

def setHash (n : ℕ) (i : Fin 5) (hv : UInt32) : Hasht :=
  { s with
    buckets := update s.buckets n
      { s.buckets n with hashes := update (s.buckets n).hashes i hv } }

def setNext (p : Option ℕ) : Hasht := s.edit x ({ · with next := p })

def hashtPut (nit : ℕ) (cas : Option ℕ) : Except Fault Hasht :=
  let hv := (s.item nit).hv
  let key := (s.item nit).key
  let n := hv.toNat % nbuckets
  let b := s.buckets n
  match s.slot key hv b with
  | some (i, it) =>
    if cas ≠ none ∧ cas ≠ some it then .ok s
    else if nit = it then .error .abort
    else (((s.itemRef nit).setNext nit (s.item it).next).setItem n i (some nit)).itemUnref it
  | none =>
    if cas ≠ none then .ok s
    else do
      let s := s.itemRef nit
      match ← s.overflow key hv b with
      | some (prev, it) =>
        ((s.setNext nit (s.item it).next).setNext prev (some nit)).itemUnref it
      | none =>
        let i := direct b
        return ((s.setNext nit (b.items i)).setHash n i hv).setItem n i (some nit)

end Table

/-- The items that the table holds. -/
inductive Holds (s : Hasht) : ℕ → Prop
  | slot {n : ℕ} {i : Fin 5} {x : ℕ} (h : (s.buckets n).items i = some x) : Holds s x
  | next {x y : ℕ} (h : Holds s x) (hn : (s.item x).next = some y) : Holds s y

end Hasht

end FlexKvs

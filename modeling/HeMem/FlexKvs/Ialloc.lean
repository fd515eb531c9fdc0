import Mathlib.Logic.Function.Basic
import HeMem.Lib.Transition

/-!
# `ialloc.c`

Segments are handed out one after the other and cut into items from their front; what is left at
the end of a segment is freed as filler.  A segment all of whose bytes have been freed goes back to
the free list.  Each function is one atomic step here.  The cleaning of a pass, which reads items
and fills the cleanup queue, is left out: it changes no header but `SF_CLEANED`.
-/

namespace FlexKvs

open Function

/-- `struct segment_header`; the header of segment `i` is that of the bytes from
`seg_base + segsize * i` on. -/
structure SegmentHeader where
  next : Option ℕ := none
  offset : UInt32 := 0
  freed : UInt32 := 0
  size : UInt32 := 0
  /-- `flags & SF_INACTIVE` -/
  inactive : Bool := false

/-- `struct item_allocator`, without the cleanup queue. -/
structure ItemAllocator where
  reserved : Option ℕ
  cur : ℕ
  oldest : Option ℕ
  cleanupCount : ℕ := 0

structure Settings where
  segsize : ℕ
  segmaxnum : ℕ

/-- `sizeof(struct item)` -/
def itemSize : ℕ := 24

/-- The globals of `ialloc.c`, the allocators set up so far, and the items allocated and not freed
since: where each starts, counted from `seg_base`, and its total. -/
structure Ialloc (A : Type) where
  freeSegments : Option ℕ
  segAlloced : ℕ
  header : ℕ → SegmentHeader
  ia : A → Option ItemAllocator
  live : List (ℕ × ℕ)

namespace Ialloc

variable {A : Type} (s : Ialloc A)

def edit (h : ℕ) (f : SegmentHeader → SegmentHeader) : Ialloc A :=
  { s with header := update s.header h (f (s.header h)) }

variable (st : Settings)

section Segments

/-- `segment_alloc`; `ok` is whether `mprotect` and `malloc` succeed. -/
def segmentAlloc (ok : Bool) : Option ℕ × Ialloc A :=
  let init : ℕ → Ialloc A → Ialloc A := fun h s =>
    s.edit h ({ · with offset := 0, inactive := false, freed := 0 })
  match s.freeSegments with
  | some h => (some h, init h { s with freeSegments := (s.header h).next })
  | none =>
    let i := s.segAlloced
    if i ≥ st.segmaxnum then (none, s)
    else
      let s := { s with segAlloced := i + 1 }
      if ok then (some i, init i (s.edit i ({ · with size := UInt32.ofNat st.segsize })))
      else (none, s)

def segmentFree (h : ℕ) : Ialloc A :=
  { s.edit h ({ · with offset := 0, next := s.freeSegments }) with freeSegments := some h }

def segmentItemFree (h total : ℕ) : Ialloc A :=
  s.edit h fun H => { H with freed := H.freed + UInt32.ofNat total }

def segmentItemAlloc (h total : ℕ) : Option ℕ × Ialloc A :=
  let offset := (s.header h).offset
  let avail := ((s.header h).size - offset).toNat
  if avail = 0 then (none, s)
  else if avail < total then
    (none, (s.segmentItemFree h avail).edit h ({ · with offset := offset + UInt32.ofNat avail }))
  else
    (some (st.segsize * h + offset.toNat),
      s.edit h ({ · with offset := offset + UInt32.ofNat total }))

end Segments

variable [DecidableEq A] (a : A)

def setIa (ia : ItemAllocator) : Ialloc A := { s with ia := update s.ia a (some ia) }

/-- `ialloc_init_allocator`: none if it aborts. -/
def iallocInitAllocator (ok ok' : Bool) : Option (Ialloc A) :=
  match s.segmentAlloc st ok with
  | (none, _) => none
  | (some cur, s) =>
    let s := s.edit cur ({ · with next := none })
    match s.segmentAlloc st ok' with
    | (none, _) => none
    | (some reserved, s) =>
      let s := s.edit reserved ({ · with next := none })
      some (s.setIa a { reserved := some reserved, cur, oldest := some cur })

/-- The segment `h` becomes the current one. -/
def advance (ia : ItemAllocator) (h : ℕ) : Ialloc A :=
  let s := s.edit ia.cur ({ · with next := some h, inactive := true })
  (s.edit h ({ · with next := none })).setIa a { ia with cur := h }

/-- `ialloc_alloc`: none if it aborts. -/
def iallocAlloc (total : ℕ) (cleanup ok : Bool) : Option (Option ℕ × Ialloc A) := do
  let ia ← s.ia a
  if ¬ total < st.segsize then none
  else if ia.reserved = none ∧ cleanup = false then some (none, s)
  else
    match s.segmentItemAlloc st ia.cur total with
    | (some it, s) => some (some it, s)
    | (none, s) =>
      match s.segmentAlloc st ok with
      | (some h, s) => some ((s.advance a ia h).segmentItemAlloc st h total)
      | (none, s) =>
        match cleanup, ia.reserved with
        | true, some h =>
          some ((s.advance a { ia with reserved := none } h).segmentItemAlloc st h total)
        | _, _ => some (none, s)

/-- `ialloc_free`: none if `segment_from_part` fails its assertion. -/
def iallocFree (it total : ℕ) : Option (Ialloc A) :=
  let i := it / st.segsize
  if i < st.segmaxnum then some (s.segmentItemFree i total) else none

/-- `ialloc_cleanup_item`, without the item it returns. -/
def iallocCleanupItem (idle ok : Bool) : Option (Ialloc A) := do
  let ia ← s.ia a
  if idle = false ∧ ia.cleanupCount ≥ 32 then some s
  else
    let ia := if idle then ia else { ia with cleanupCount := ia.cleanupCount + 1 }
    if ia.reserved = none then
      let r := s.segmentAlloc st ok
      some (r.2.setIa a { ia with reserved := r.1 })
    else some (s.setIa a ia)

def iallocCleanupNextrequest : Option (Ialloc A) := do
  let ia ← s.ia a
  some (s.setIa a { ia with cleanupCount := 0 })

def setOldest (h : ℕ) : Ialloc A :=
  { s with ia := update s.ia a ((s.ia a).map fun ia => { ia with oldest := some h }) }

/-- The loop of `ialloc_maintenance` that recycles segments, at `h` after `prev`: none if it is not
through after the given number of rounds. -/
def maintenanceLoop : ℕ → Option ℕ → Option ℕ → Ialloc A → Option (Ialloc A)
  | 0, _, _, _ => none
  | _ + 1, _, none, s => some s
  | n + 1, prev, some h, s =>
    match (s.header h).next with
    | none => some s
    | some next =>
      if (s.header h).inactive = false then some s
      else if (s.header h).freed = (s.header h).size then
        let s := match prev with
          | none => s.setOldest a next
          | some p => s.edit p ({ · with next := some next })
        maintenanceLoop n prev (some next) (s.segmentFree h)
      else maintenanceLoop n (some h) (some next) s

def iallocMaintenance : Option (Ialloc A) := do
  let ia ← s.ia a
  maintenanceLoop a (s.segAlloced + 1) none ia.oldest s

end Ialloc

/-- The calls, by any number of allocators. -/
inductive IallocAct (A : Type)
  | init (a : A) (ok ok' : Bool)
  | alloc (a : A) (total : ℕ) (cleanup ok : Bool)
  | free (it total : ℕ)
  | cleanupItem (a : A) (idle ok : Bool)
  | nextRequest (a : A)
  | maintenance (a : A)

variable {A : Type}

namespace IallocAct

variable (st : Settings) (s : Ialloc A)

def next [DecidableEq A] : IallocAct A → Option (Ialloc A)
  | init a ok ok' => s.iallocInitAllocator st a ok ok'
  | alloc a total cleanup ok => (s.iallocAlloc st a total cleanup ok).map fun r =>
    { r.2 with live := (r.1.map (·, total)).toList ++ r.2.live }
  | free it total => (s.iallocFree st it total).map fun s =>
    { s with live := s.live.erase (it, total) }
  | cleanupItem a idle ok => s.iallocCleanupItem st a idle ok
  | nextRequest a => s.iallocCleanupNextrequest a
  | maintenance a => s.iallocMaintenance a

/-- An allocator is set up once, an item has a header and is smaller than a segment, and an item is
freed once, with its total. -/
def Legal : IallocAct A → Prop
  | init a _ _ => s.ia a = none
  | alloc _ total _ _ => itemSize ≤ total ∧ total < st.segsize
  | free it total => (it, total) ∈ s.live
  | _ => True

end IallocAct

namespace Ialloc

/-- After `ialloc_init`. -/
def initial : Ialloc A := ⟨none, 0, fun _ => {}, fun _ => none, []⟩

/-- The segments on the free list. -/
inductive OnFreeList (s : Ialloc A) : ℕ → Prop
  | head {x : ℕ} (h : s.freeSegments = some x) : OnFreeList s x
  | next {x y : ℕ} (h : OnFreeList s x) (hn : (s.header x).next = some y) : OnFreeList s y

/-- The live items do not overlap, each is inside a segment, and none is in a segment on the free
list. -/
structure Safe (st : Settings) (s : Ialloc A) : Prop where
  apart : s.live.Pairwise fun i j => i.1 + i.2 ≤ j.1 ∨ j.1 + j.2 ≤ i.1
  inside : ∀ i ∈ s.live, ∃ x < s.segAlloced, st.segsize * x ≤ i.1 ∧
    i.1 + i.2 ≤ st.segsize * x + (s.header x).size.toNat ∧
      (s.header x).size.toNat ≤ st.segsize ∧ ¬ s.OnFreeList x

end Ialloc

/-- Any calls in any order. -/
def ialloc (A : Type) [DecidableEq A] (st : Settings) : System (Ialloc A) (IallocAct A) where
  init s := s = .initial
  step s a s' := a.next st s = some s'

end FlexKvs

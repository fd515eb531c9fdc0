import HeMem.FlexKvs.Hashtable
import HeMem.FlexKvs.Ialloc
import HeMem.Lib.Pieces

/-!
# The log and its cleaning

`ialloc.c` again, with what the cleaning of a pass reads and writes: the headers of items, the mark
of segments that have been cleaned, and the cleanup queues.  Beside that, it is recorded which items
each segment has been cut into since it was handed out, and how often it has been on the free list.
Without all this the functions are those of `Ialloc` (`LogAct.next_ialloc`).
-/

namespace FlexKvs

open Function

/-- What of `struct item` the cleaning reads. -/
structure ItemHeader where
  refcount : UInt16 := 0
  keylen : UInt16 := 0
  vallen : UInt32 := 0

/-- `item_totalsz` -/
def ItemHeader.totalsz (it : ItemHeader) : ℕ := itemSize + it.vallen.toNat + it.keylen.toNat

/-- The settings of the cleaning; `ratio` is `(double) h->freed / h->size`. -/
structure CleanSettings extends Settings where
  segcqsize : ℕ
  cleanRatio : Rat
  ratio : UInt32 → UInt32 → Rat

/-- The part of `struct item_allocator` that is about cleaning. -/
structure Cleaner where
  cleanupQueue : ℕ → Option ℕ := fun _ => none
  cqHead : ℕ := 0
  cqTail : ℕ := 0
  cleaning : Option ℕ := none
  cleanOffset : ℕ := 0
  /-- how often the segment had been on the free list when its cleaning began -/
  begun : ℕ := 0

/-- The item that `ialloc_cleanup_item` takes off the queue, and the queue without it. -/
def Cleaner.take (segcqsize : ℕ) (c : Cleaner) : Option ℕ × Cleaner :=
  match c.cleanupQueue c.cqHead with
  | none => (none, c)
  | some it => (some it, { c with
      cleanupQueue := update c.cleanupQueue c.cqHead none
      cqHead := (c.cqHead + 1) % segcqsize })

structure Log (A : Type) where
  ialloc : Ialloc A := .initial
  /-- the header at each address, counted from `seg_base` -/
  item : ℕ → ItemHeader := fun _ => {}
  /-- `flags & SF_CLEANED` -/
  cleaned : ℕ → Bool := fun _ => false
  cleaner : A → Cleaner := fun _ => {}
  /-- the totals of the items that a segment has been cut into since it was handed out -/
  items : ℕ → List ℕ := fun _ => []
  /-- what was left of it when it was closed, if anything -/
  rest : ℕ → Option ℕ := fun _ => none
  /-- how often it has been put on the free list -/
  recycled : ℕ → ℕ := fun _ => 0

namespace Log

variable {A : Type} (s : Log A) (st : CleanSettings)

def editItem (it : ℕ) (f : ItemHeader → ItemHeader) : Log A :=
  { s with item := update s.item it (f (s.item it)) }

/-- `item_totalsz` of what is at an offset of a segment. -/
def totalAt (h off : ℕ) : ℕ := (s.item (st.segsize * h + off)).totalsz

/-- Where the items of a segment and its filler start. -/
def starts (h : ℕ) : List ℕ := Pieces.starts 0 (s.items h ++ (s.rest h).toList)

section Segments

def segmentAlloc (ok : Bool) : Option ℕ × Log A :=
  let r := s.ialloc.segmentAlloc st.toSettings ok
  match r.1 with
  | none => (none, { s with ialloc := r.2 })
  | some h => (some h, { s with
      ialloc := r.2
      cleaned := update s.cleaned h false
      items := update s.items h []
      rest := update s.rest h none })

def segmentFree (h : ℕ) : Log A :=
  { s with ialloc := s.ialloc.segmentFree h, recycled := update s.recycled h (s.recycled h + 1) }

def segmentItemAlloc (h total : ℕ) : Option ℕ × Log A :=
  let H := s.ialloc.header h
  let it := st.segsize * h + H.offset.toNat
  let avail := (H.size - H.offset).toNat
  let s := { s with ialloc := (s.ialloc.segmentItemAlloc st.toSettings h total).2 }
  if avail = 0 then (none, s)
  else if avail < total then
    let s := { s with rest := update s.rest h (some avail) }
    if itemSize ≤ avail then
      (none, s.editItem it ({ · with
        refcount := 0, keylen := UInt16.ofNat (avail - itemSize), vallen := 0 }))
    else (none, s)
  else
    let s := { s with items := update s.items h (s.items h ++ [total]) }
    (some it, s.editItem it ({ · with refcount := 1 }))

end Segments

section Items

/-- `item_tryref`: whether it succeeds, too. -/
def itemTryref (it : ℕ) : Bool × Log A :=
  if (s.item it).refcount = 0 then (false, s)
  else (true, s.editItem it fun i => { i with refcount := i.refcount + 1 })

/-- `ialloc_free` -/
def iallocFree (it total : ℕ) : Except Fault (Log A) :=
  match s.ialloc.iallocFree st.toSettings it total with
  | none => .error .abort
  | some ialloc => .ok { s with ialloc := { ialloc with live := ialloc.live.erase (it, total) } }

def itemUnref (it : ℕ) : Except Fault (Log A) :=
  if (s.item it).refcount = 0 then .error .abort
  else
    let s := s.editItem it fun i => { i with refcount := i.refcount - 1 }
    if (s.item it).refcount = 0 then s.iallocFree st it (s.item it).totalsz else .ok s

end Items

/-- The caller of `ialloc_alloc` sets the two lengths of the item, if it got one. -/
def setLengths (r : Option ℕ) (keylen : UInt16) (vallen : UInt32) : Log A :=
  match r with
  | none => s
  | some it =>
    let s := s.editItem it ({ · with keylen, vallen })
    { s with ialloc := { s.ialloc with
        live := (it, itemSize + keylen.toNat + vallen.toNat) :: s.ialloc.live } }

variable [DecidableEq A] (a : A)

section Allocators

def setIa (ia : ItemAllocator) : Log A := { s with ialloc := s.ialloc.setIa a ia }

def setNext (h : ℕ) (n : Option ℕ) : Log A :=
  { s with ialloc := s.ialloc.edit h ({ · with next := n }) }

def iallocInitAllocator (ok ok' : Bool) : Except Fault (Log A) :=
  match s.segmentAlloc st ok with
  | (none, _) => .error .abort
  | (some cur, s) =>
    match (s.setNext cur none).segmentAlloc st ok' with
    | (none, _) => .error .abort
    | (some reserved, s) =>
      let s := (s.setNext reserved none).setIa a
        { reserved := some reserved, cur, oldest := some cur }
      .ok { s with cleaner := update s.cleaner a {} }

def advance (ia : ItemAllocator) (h : ℕ) : Log A :=
  { s with ialloc := s.ialloc.advance a ia h }

def iallocAlloc (total : ℕ) (cleanup ok : Bool) : Except Fault (Option ℕ × Log A) :=
  match s.ialloc.ia a with
  | none => .error .abort
  | some ia =>
    if ¬ total < st.segsize then .error .abort
    else if ia.reserved = none ∧ cleanup = false then .ok (none, s)
    else
      match s.segmentItemAlloc st ia.cur total with
      | (some it, s) => .ok (some it, s)
      | (none, s) =>
        match s.segmentAlloc st ok with
        | (some h, s) => .ok ((s.advance a ia h).segmentItemAlloc st h total)
        | (none, s) =>
          match cleanup, ia.reserved with
          | true, some h =>
            .ok ((s.advance a { ia with reserved := none } h).segmentItemAlloc st h total)
          | _, _ => .ok (none, s)

/-- `ialloc_alloc`, and then the caller sets the two lengths. -/
def newItem (keylen : UInt16) (vallen : UInt32) (cleanup ok : Bool) : Except Fault (Log A) :=
  (s.iallocAlloc st a (itemSize + keylen.toNat + vallen.toNat) cleanup ok).map fun r =>
    r.2.setLengths r.1 keylen vallen

def iallocCleanupItem (idle ok : Bool) : Except Fault (Option ℕ × Log A) :=
  match s.ialloc.ia a with
  | none => .error .abort
  | some ia =>
    if idle = false ∧ ia.cleanupCount ≥ 32 then .ok (none, s)
    else
      let ia := if idle then ia else { ia with cleanupCount := ia.cleanupCount + 1 }
      let (it, c) := (s.cleaner a).take st.segcqsize
      let s := { s with cleaner := update s.cleaner a c }
      if ia.reserved = none then
        let (h, s) := s.segmentAlloc st ok
        .ok (it, s.setIa a { ia with reserved := h })
      else .ok (it, s.setIa a ia)

def iallocCleanupNextrequest : Except Fault (Log A) :=
  match s.ialloc.ia a with
  | none => .error .abort
  | some ia => .ok (s.setIa a { ia with cleanupCount := 0 })

end Allocators

section Maintenance

/-- The loop that recycles segments and picks one to clean, at `h` after `prev`; `cand` and
`candRatio` are the pick so far. -/
def recycleLoop : ℕ → Option ℕ → Option ℕ → Option ℕ → Rat → Log A → Except Fault (Option ℕ × Log A)
  | 0, _, _, _, _, _ => .error .loop
  | _ + 1, _, none, cand, _, s => .ok (cand, s)
  | n + 1, prev, some h, cand, candRatio, s =>
    let H := s.ialloc.header h
    match H.next with
    | none => .ok (cand, s)
    | some next =>
      if H.inactive = false then .ok (cand, s)
      else if H.freed = H.size then
        let s := match prev with
          | none => { s with ialloc := s.ialloc.setOldest a next }
          | some p => s.setNext p (some next)
        recycleLoop n prev (some next) cand candRatio (s.segmentFree h)
      else
        let ratio := st.ratio H.freed H.size
        if s.cleaned h = false ∧ ratio ≥ st.cleanRatio ∧ ratio > candRatio then
          recycleLoop n (some h) (some next) (some h) ratio s
        else recycleLoop n (some h) (some next) cand candRatio s

/-- The cleaning of `cand` begins, if there is one. -/
def beginCleaning (cand : Option ℕ) : Log A :=
  { s with
    cleaned := cand.elim s.cleaned fun h => update s.cleaned h true
    cleaner := update s.cleaner a { s.cleaner a with
      cleaning := cand, cleanOffset := 0, begun := cand.elim 0 s.recycled } }

/-- `ialloc_maintenance` up to its last loop; `size` is that of the segment cleaned so far. -/
def prepare : Except Fault (Log A × ℕ) :=
  match s.ialloc.ia a with
  | none => .error .abort
  | some ia => do
    let (cand, s) ← s.recycleLoop st a (s.ialloc.segAlloced + 1) none ia.oldest none 0
    let c := s.cleaner a
    let size := c.cleaning.elim 0 fun h => (s.ialloc.header h).size.toNat
    return (if c.cleaning = none ∨ c.cleanOffset = size then s.beginCleaning a cand else s, size)

/-- An entry of the cleanup queue is set. -/
def enqueue (idx it : ℕ) : Log A :=
  { s with cleaner := update s.cleaner a { s.cleaner a with
      cleanupQueue := update (s.cleaner a).cleanupQueue idx (some it) } }

/-- The loop that enqueues items of segment `h`, at `off`: what `off` and `idx` are after it.  Where
no header has been written it takes other bytes for one. -/
def cleanLoop (h size : ℕ) : ℕ → ℕ → ℕ → Log A → Except Fault (ℕ × ℕ × Log A)
  | 0, _, _, _ => .error .loop
  | n + 1, off, idx, s =>
    if off < size ∧ (s.cleaner a).cleanupQueue idx = none then
      if size - off < itemSize then .ok (size, idx, s)
      else if off ∉ s.starts h then .error .wild
      else
        let it := st.segsize * h + off
        match s.itemTryref it with
        | (true, t) =>
          cleanLoop h size n (off + (t.item it).totalsz) ((idx + 1) % st.segcqsize)
            (t.enqueue a idx it)
        | (false, _) => cleanLoop h size n (off + (s.item it).totalsz) idx s
    else .ok (off, idx, s)

def iallocMaintenance : Except Fault (Log A) := do
  let (s, size) ← s.prepare st a
  let c := s.cleaner a
  match c.cleaning with
  | none => return s
  | some h =>
    let (off, idx, s) ← s.cleanLoop st a h size (size + 1) c.cleanOffset c.cqTail
    return { s with cleaner := update s.cleaner a { s.cleaner a with
      cqTail := idx, cleanOffset := off } }

end Maintenance

end Log

/-- The calls, by any number of allocators; `ref` and `unref` are those of the rest of the server. -/
inductive LogAct (A : Type)
  | init (a : A) (ok ok' : Bool)
  | alloc (a : A) (keylen : UInt16) (vallen : UInt32) (cleanup ok : Bool)
  | ref (it : ℕ)
  | unref (it : ℕ)
  | cleanupItem (a : A) (idle ok : Bool)
  | nextRequest (a : A)
  | maintenance (a : A)

namespace LogAct

variable {A : Type} [DecidableEq A] (st : CleanSettings) (s : Log A)

def next : LogAct A → Except Fault (Log A)
  | init a ok ok' => s.iallocInitAllocator st a ok ok'
  | alloc a keylen vallen cleanup ok => s.newItem st a keylen vallen cleanup ok
  | ref it => .ok (s.itemTryref it).2
  | unref it => s.itemUnref st it
  | cleanupItem a idle ok => (s.iallocCleanupItem st a idle ok).map Prod.snd
  | nextRequest a => s.iallocCleanupNextrequest a
  | maintenance a => s.iallocMaintenance st a

/-- An allocator is set up once, an item is smaller than a segment, and references are to items
that are allocated. -/
def Legal : LogAct A → Prop
  | init a _ _ => s.ialloc.ia a = none
  | alloc _ keylen vallen _ _ => itemSize + keylen.toNat + vallen.toNat < st.segsize
  | ref it | unref it => it ∈ s.ialloc.live.map Prod.fst
  | _ => True

instance decidableLegal : DecidablePred (Legal st s) := fun c => by
  cases c with
  | init a ok ok' =>
    exact decidable_of_iff ((s.ialloc.ia a).isNone = true) Option.isNone_iff_eq_none
  | _ => unfold Legal; infer_instance

end LogAct

/-- Any calls in any order, up to one that fails an assertion or reads other bytes for a header. -/
def log (A : Type) [DecidableEq A] (st : CleanSettings) : System (Log A) (LogAct A) where
  init s := s = {}
  step s c s' := c.next st s = .ok s'

namespace Log

variable {A : Type} (st : CleanSettings) (s : Log A)

/-- The scan of a segment from its start by a pass whose queue is never full: the offsets of what it
takes for items, and where it ends. -/
def scan (h : ℕ) : Option (List ℕ × ℕ) :=
  let size := (s.ialloc.header h).size.toNat
  Pieces.walk (s.totalAt st h) itemSize size (size + 1) 0

/-- Where the items of a segment start, and its filler if it has room for a header. -/
def headers (h : ℕ) : List ℕ :=
  Pieces.starts 0 (s.items h ++ (s.rest h).toList.filter (itemSize ≤ ·))

end Log

/-- The segments of an allocator, from `ia->oldest` on. -/
inductive Ialloc.OnList {A : Type} (s : Ialloc A) (a : A) : ℕ → Prop
  | oldest {ia : ItemAllocator} {x : ℕ} (hia : s.ia a = some ia) (h : ia.oldest = some x) :
      OnList s a x
  | next {x y : ℕ} (h : OnList s a x) (hn : (s.header x).next = some y) : OnList s a y

namespace Log

variable {A : Type} [DecidableEq A] (st : CleanSettings) (s : Log A) (a : A)

/-- Where a pass has a segment to clean, that is in its list and has not been on the free list
since its cleaning began, and the offset is where one of its items or its filler starts. -/
def ScansWell : Prop :=
  ∀ t size h, s.prepare st a = .ok (t, size) → (t.cleaner a).cleaning = some h →
    (t.cleaner a).cleanOffset < (t.ialloc.header h).size.toNat →
      t.ialloc.OnList a h ∧ t.recycled h = (t.cleaner a).begun ∧
        (t.cleaner a).cleanOffset ∈ t.starts h

end Log

/-- A pass finds the segment it goes on to clean not freed entirely, and no segment of its list was
closed with more left than the filler's header can say. -/
def LogAct.Careful {A : Type} (s : Log A) : LogAct A → Prop
  | maintenance a => (∀ h, (s.cleaner a).cleaning = some h →
      (s.cleaner a).cleanOffset < (s.ialloc.header h).size.toNat →
        (s.ialloc.header h).freed ≠ (s.ialloc.header h).size) ∧
      ∀ x, s.ialloc.OnList a x → (s.ialloc.header x).inactive = true →
        (s.ialloc.header x).size.toNat < (s.items x).sum + itemSize + 2 ^ 16
  | _ => True

end FlexKvs

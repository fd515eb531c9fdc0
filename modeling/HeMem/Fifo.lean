import Mathlib.Logic.Function.Basic
import HeMem.Lib.Chain
import HeMem.Lib.Hoare

/-!
# The page lists of `fifo.c`

Doubly linked lists over one shared set of nodes.  A node knows its two neighbours and the list
it is on, a list its two ends and its length.  Null pointers are `none`.
-/

namespace HeMem

open Hoare

variable {ι ν : Type} [DecidableEq ι] [DecidableEq ν]

/-- `struct fifo_list` without its lock. -/
structure FifoList (ν : Type) where
  first : Option ν
  last : Option ν
  numentries : ℕ

/-- The fields of `struct hemem_page` that `fifo.c` reads and writes. -/
structure Links (ι ν : Type) where
  next : Option ν
  prev : Option ν
  list : Option ι

/-- The memory `fifo.c` works on: the lists and the links of every page. -/
structure Heap (ι ν : Type) where
  list : ι → FifoList ν
  node : ν → Links ι ν

/-- The assertions of `fifo.c`. -/
inductive FifoAbort
  /-- `enqueue_fifo`: `entry->prev == NULL` -/
  | entryPrev
  /-- `enqueue_fifo`: `queue->first->prev == NULL` -/
  | firstPrev
  /-- `enqueue_fifo`: `queue->last == NULL` -/
  | emptyLast
  /-- `enqueue_fifo`: `queue->numentries == 0` -/
  | emptyNumentries
  /-- `dequeue_fifo`: `queue->numentries > 0` -/
  | dequeueNumentries
  /-- `page_list_remove_page`: `list->last == NULL` -/
  | removeEmptyLast
  /-- `page_list_remove_page`: `list->numentries == 0` -/
  | removeEmptyNumentries
  /-- `page_list_remove_page`: `list->numentries > 0` -/
  | removeNumentries
  /-- `next_page`: `page->list == list` -/
  | nextList
  deriving DecidableEq

namespace Heap

/-- Every list empty, every page on no list. -/
def empty : Heap ι ν where
  list _ := ⟨none, none, 0⟩
  node _ := ⟨none, none, none⟩

def setFirst (h : Heap ι ν) (q : ι) (p : Option ν) : Heap ι ν :=
  { h with list := Function.update h.list q { h.list q with first := p } }

def setLast (h : Heap ι ν) (q : ι) (p : Option ν) : Heap ι ν :=
  { h with list := Function.update h.list q { h.list q with last := p } }

def setNumentries (h : Heap ι ν) (q : ι) (n : ℕ) : Heap ι ν :=
  { h with list := Function.update h.list q { h.list q with numentries := n } }

def setNext (h : Heap ι ν) (x : ν) (p : Option ν) : Heap ι ν :=
  { h with node := Function.update h.node x { h.node x with next := p } }

def setPrev (h : Heap ι ν) (x : ν) (p : Option ν) : Heap ι ν :=
  { h with node := Function.update h.node x { h.node x with prev := p } }

def setList (h : Heap ι ν) (x : ν) (q : Option ι) : Heap ι ν :=
  { h with node := Function.update h.node x { h.node x with list := q } }

/-- The list page `x` names as its own. -/
def listOf (h : Heap ι ν) (x : ν) : Option ι := (h.node x).list

/-- At most `n` pages, from `p` on along `next`. -/
def walk (h : Heap ι ν) : ℕ → Option ν → List ν
  | 0, _ => []
  | _ + 1, none => []
  | n + 1, some p => p :: h.walk n (h.node p).next

/-- The pages on list `q`, from its first to its last. -/
def contents (h : Heap ι ν) (q : ι) : List ν := h.walk (h.list q).numentries (h.list q).first

end Heap

/-- Programs of `fifo.c`. -/
abbrev FifoM (ι ν : Type) := StateT (Heap ι ν) (Except FifoAbort)

def enqueueFifo (queue : ι) (entry : ν) : FifoM ι ν Unit := do
  check (((← get).node entry).prev = none) .entryPrev
  let first := ((← get).list queue).first
  modify (·.setNext entry first)
  match first with
  | some f =>
    check (((← get).node f).prev = none) .firstPrev
    modify (·.setPrev f (some entry))
  | none =>
    check (((← get).list queue).last = none) .emptyLast
    check (((← get).list queue).numentries = 0) .emptyNumentries
    modify (·.setLast queue (some entry))
  modify (·.setFirst queue (some entry))
  modify (·.setList entry (some queue))
  let n := ((← get).list queue).numentries
  modify (·.setNumentries queue (n + 1))

def dequeueFifo (queue : ι) : FifoM ι ν (Option ν) := do
  match ((← get).list queue).last with
  | none => return none
  | some ret =>
    let last := ((← get).node ret).prev
    modify (·.setLast queue last)
    match last with
    | some l => modify (·.setNext l none)
    | none => modify (·.setFirst queue none)
    modify (·.setNext ret none)
    modify (·.setPrev ret none)
    modify (·.setList ret none)
    let n := ((← get).list queue).numentries
    check (n > 0) .dequeueNumentries
    modify (·.setNumentries queue (n - 1))
    return some ret

def pageListRemovePage (list : ι) (page : ν) : FifoM ι ν Unit := do
  if ((← get).list list).first = none then
    check (((← get).list list).last = none) .removeEmptyLast
    check (((← get).list list).numentries = 0) .removeEmptyNumentries
  else
    let next := ((← get).node page).next
    let prev := ((← get).node page).prev
    if ((← get).list list).first = some page then
      modify (·.setFirst list next)
    if ((← get).list list).last = some page then
      modify (·.setLast list prev)
    if let some n := next then
      modify (·.setPrev n prev)
    if let some p := prev then
      modify (·.setNext p next)
    let n := ((← get).list list).numentries
    check (n > 0) .removeNumentries
    modify (·.setNumentries list (n - 1))
    modify (·.setNext page none)
    modify (·.setPrev page none)
    modify (·.setList page none)

/-- `next_page`: what it stores in its last argument. -/
def nextPage (list : ι) (page : Option ν) : FifoM ι ν (Option ν) := do
  match page with
  | none => return ((← get).list list).last
  | some p =>
    let next := ((← get).node p).prev
    check (((← get).node p).list = some list) .nextList
    return next

/-- The calls of `fifo.c`. -/
inductive FifoCall (ι ν : Type)
  | enqueue (queue : ι) (entry : ν)
  | dequeue (queue : ι)
  | remove (list : ι) (page : ν)
  | next (list : ι) (page : Option ν)

namespace FifoCall

def run : FifoCall ι ν → FifoM ι ν (Option ν)
  | enqueue queue entry => do
    enqueueFifo queue entry
    return none
  | dequeue queue => dequeueFifo queue
  | remove list page => do
    pageListRemovePage list page
    return none
  | next list page => nextPage list page

/-- What a call should return and do to the lists, as sequences from front to back. -/
def effect : FifoCall ι ν → (ι → List ν) → Option ν × (ι → List ν)
  | enqueue queue entry, L => (none, Function.update L queue (entry :: L queue))
  | dequeue queue, L => ((L queue).getLast?, Function.update L queue (L queue).dropLast)
  | remove list page, L => (none, Function.update L list ((L list).erase page))
  | next list none, L => ((L list).getLast?, L)
  | next list (some page), L => (((L list).takeWhile (· ≠ page)).getLast?, L)

omit [DecidableEq ι] [DecidableEq ν] in
/-- A page to be enqueued is on no list, and one to be removed or to go on from is on the list. -/
def Legal (L : ι → List ν) : FifoCall ι ν → Prop
  | enqueue _ entry => ∀ queue, entry ∉ L queue
  | remove list page => page ∈ L list
  | next list page => ∀ p ∈ page, p ∈ L list
  | dequeue _ => True

end FifoCall

namespace Heap

/-- At most `n` pages, from `p` on along `prev`. -/
def walkBack (h : Heap ι ν) : ℕ → Option ν → List ν
  | 0, _ => []
  | _ + 1, none => []
  | n + 1, some p => p :: h.walkBack n (h.node p).prev

/-- The doubly linked lists of `h` are the sequences `L`. -/
structure Lists (h : Heap ι ν) (L : ι → List ν) : Prop where
  next : ∀ q n, (L q).length ≤ n → h.walk n (h.list q).first = L q
  prev : ∀ q n, (L q).length ≤ n → h.walkBack n (h.list q).last = (L q).reverse
  numentries : ∀ q, (h.list q).numentries = (L q).length
  nodup : ∀ q, (L q).Nodup
  mem : ∀ p q, p ∈ L q ↔ (h.node p).list = some q
  off : ∀ p, (∀ q, p ∉ L q) → h.node p = ⟨none, none, none⟩

end Heap

/-- The linked lists of `h` are well formed and are the sequences `L`. -/
structure Rep (h : Heap ι ν) (L : ι → List ν) : Prop where
  chain : ∀ q, Chain (fun p => (h.node p).next) (fun p => (h.node p).prev) none (L q) none
  first : ∀ q, (h.list q).first = (L q).head?
  last : ∀ q, (h.list q).last = (L q).getLast?
  num : ∀ q, (h.list q).numentries = (L q).length
  nodup : ∀ q, (L q).Nodup
  mem : ∀ p q, p ∈ L q ↔ h.listOf p = some q
  off : ∀ p, h.listOf p = none → (h.node p).next = none ∧ (h.node p).prev = none

/-- The lists of `h` stand for some sequences. -/
def Heap.Wf (h : Heap ι ν) : Prop := ∃ L, Rep h L

end HeMem

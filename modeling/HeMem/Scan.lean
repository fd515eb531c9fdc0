import HeMem.LruRace

/-!
# What one scan of `lru.c` makes of a page

A scan goes over six lists, and each of its loops looks at a page's own bits and its `naccesses`
only.  So a loop is told by what it makes of one page, and a scan by what its loops make of the page
one after another.
-/

namespace HeMem

open Hoare Function

namespace LruList

/-- The lists a scan goes over. -/
def inUse : List LruList :=
  [.activeList, .inactiveList, .writtenList, .nvmActiveList, .nvmInactiveList, .nvmWrittenList]

section Claimed

variable (accessed dirty : Bool) (naccesses : UInt64) (q : LruList)

/-- The list a scan leaves a page on that it found on `q`. -/
def scanned : LruList :=
  if q.free then q
  else if accessed then
    if dirty then writtenOf q.dram
    else if q = inactiveOf q.dram ∧ naccesses < 4 then q else activeOf q.dram
  else inactiveOf q.dram

def scannedNaccesses : UInt64 :=
  if q.free then naccesses
  else if accessed then
    if ¬ dirty ∧ q = inactiveOf q.dram then if naccesses < 4 then naccesses + 1 else 0 else naccesses
  else 0

/-- A scan notes the page's address. -/
def noted : Bool := !q.free && accessed && (q ≠ inactiveOf q.dram || !dirty && naccesses < 4)

end Claimed

end LruList

/-- What a loop decides about a page it has taken off its list. -/
structure Verdict where
  list : LruList
  naccesses : UInt64
  noted : Bool

/-- What a scan reads and writes of one page: its list, its `naccesses` and how often its address
is in `vas`. -/
structure Cell where
  list : Option LruList
  naccesses : UInt64
  noted : ℕ

namespace Sweep

variable (dram accessed dirty : Bool)

def verdict (naccesses : UInt64) : Sweep → Verdict
  | checkWrites =>
    if accessed then
      if dirty then ⟨writtenOf dram, naccesses, true⟩ else ⟨activeOf dram, naccesses, false⟩
    else ⟨inactiveOf dram, naccesses, false⟩
  | shrinkCaches =>
    if accessed then
      if dirty then ⟨writtenOf dram, naccesses, true⟩ else ⟨activeOf dram, naccesses, true⟩
    else ⟨inactiveOf dram, 0, false⟩
  | expandCaches =>
    if accessed then
      if dirty then ⟨writtenOf dram, naccesses, false⟩
      else if naccesses ≥ 4 then ⟨activeOf dram, 0, false⟩
      else ⟨inactiveOf dram, naccesses + 1, true⟩
    else ⟨inactiveOf dram, 0, false⟩

/-- What the loop makes of a page. -/
def onPage (k : Sweep) (c : Cell) : Cell :=
  if c.list = some (k.source dram) then
    let v := k.verdict dram accessed dirty c.naccesses
    ⟨some v.list, v.naccesses, c.noted + v.noted.toNat⟩
  else c

end Sweep

/-- What some loops make of a page, one after another. -/
def sweepsOnPage (accessed dirty : Bool) (ks : List (Sweep × Bool)) (c : Cell) : Cell :=
  ks.foldl (fun c k => k.1.onPage k.2 accessed dirty c) c

/-- The loops, one after another. -/
def runSweeps (bits : PageId → UInt64) : List (Sweep × Bool) → LruM Unit
  | [] => return
  | (k, dram) :: ks => do
    k.run dram bits
    runSweeps bits ks

/-- Takes the pages off `list` in turn and handles each. -/
def handleEach (list : LruList) (body : PageId → LruM Unit) : List PageId → LruM Unit
  | [] => return
  | p :: ps => do
    let _ ← onLists (dequeueFifo list)
    body p
    handleEach list body ps

/-- The kernel answers alike in all six loops. -/
def ScanBits.fixed (bits : PageId → UInt64) : ScanBits :=
  ⟨fun _ => bits, fun _ => bits, fun _ => bits⟩

namespace LruState

variable (bits : PageId → UInt64) (s t : LruState)

/-- The cell of a page, where `vas` holds the addresses of the pages `l`. -/
def cell (l : List PageId) (p : PageId) : Cell := ⟨s.fifo.listOf p, s.naccesses p, l.count p⟩

/-- The pages whose address a scan notes. -/
def notedPages : List PageId := LruList.inUse.flatMap fun q =>
  (s.fifo.contents q).filter fun p => q.noted (accessed (bits p)) (dirty (bits p)) (s.naccesses p)

/-- The pages a scan looks at. -/
def pagesInUse : List PageId := LruList.inUse.flatMap s.fifo.contents

/-- From `s` to `t`, each page has gone where its own list, bits and `naccesses` say, within its
tier, and the address of each has been noted at most once. -/
structure Classified : Prop where
  list : ∀ p, t.fifo.listOf p = (s.fifo.listOf p).map
    (·.scanned (accessed (bits p)) (dirty (bits p)) (s.naccesses p))
  contents : ∀ p q, p ∈ t.fifo.contents q ↔ t.fifo.listOf p = some q
  nodup : ∀ q, (t.fifo.contents q).Nodup
  tier : ∀ p q, s.fifo.listOf p = some q → ∃ q', t.fifo.listOf p = some q' ∧ q'.dram = q.dram
  naccesses : ∀ p q, s.fifo.listOf p = some q →
    t.naccesses p = q.scannedNaccesses (accessed (bits p)) (dirty (bits p)) (s.naccesses p)
  hemem : t.hemem = s.hemem
  vas : ∃ l : List PageId, l.Nodup ∧ l.Perm (s.notedPages bits) ∧
    t.vas = l.map fun p => (s.page p).va
  vanum : t.vas.length ≤ s.pagesInUse.length

/-- Each loop of a scan from `s` on handles each page of its list once, from the last to the first:
those that are on it when the loop starts. -/
def HandlesOnce : Prop := ∀ ks ks' k dram u, scanLoops = ks ++ (k, dram) :: ks' →
  runSweeps bits ks { s with vas := [] } = .ok ((), u) →
    k.run dram bits u = handleEach (k.source dram) (fun p => k.body dram bits p)
      (u.fifo.contents (k.source dram)).reverse u ∧ (u.fifo.contents (k.source dram)).Nodup

end LruState

end HeMem

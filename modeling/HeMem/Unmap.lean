import HeMem.Mmap

/-!
# What `hemem_munmap` does to the tracked pages

The loop of `hemem_munmap` looks at one address after another, a base page on where nothing is
tracked and a huge page on where a page is, all modulo 2^64.  It comes to a page if the page starts
in the range, whether or not it ends there; it does so before `libc_munmap` has had its say; and
near the end of the address space it may step over that end.
-/

namespace HeMem

open Function Hoare

/-- `hemem_munmap` with its result, where `libc_munmap` returns `ret`. -/
def hememMunmapReturning (addr length : UInt64) (ret : Int32) : M Int32 := do
  hememMunmap addr length (ret = 0)
  return ret

namespace State

/-- The table has each page under the page's own address, and only huge pages. -/
def Sound (s : State) : Prop := ∀ a page, s.pages a = some page →
  (s.page page).va = a ∧ a % hugepageSize = 0 ∧ (s.page page).pt = .hugep

/-- The state once `hemem_munmap` has dealt with a page it has found. -/
def drop (s : State) (page : PageId) : State :=
  let pagesize := ptToPagesize (s.page page).pt
  { s with
    pages := update s.pages (s.page page).va none
    freePageRing := ringBufPut s.freePageRing page
    page := update s.page page
      (HememPage.clearCounters { s.page page with present := false, hot := false })
    memAllocated := s.memAllocated - pagesize
    memMmaped := s.memMmaped - pagesize }

variable (s t : State) (addr length : UInt64)

/-- The pages tracked, those freed, the page structs and both sizes are the same. -/
structure SameMemory : Prop where
  pages : t.pages = s.pages
  freePageRing : t.freePageRing = s.freePageRing
  page : t.page = s.page
  memAllocated : t.memAllocated = s.memAllocated
  memMmaped : t.memMmaped = s.memMmaped

/-- From `addr` to the end of the range, a base page at a time, nothing is tracked. -/
def Untracked : Prop :=
  ∃ k : ℕ, addr + length ≤ addr + UInt64.ofNat k * basepageSize ∧
    ∀ j < k, s.pages (addr + UInt64.ofNat j * basepageSize) = none

/-- Going through the range does not lead over the end of the address space, neither by a base page
nor by the last huge page there is. -/
def Fits : Prop := addr.toNat + length.toNat < 2 ^ 64 →
  addr.toNat + length.toNat ≤ 2 ^ 64 - basepageSize.toNat + addr.toNat % basepageSize.toNat ∧
    (addr % basepageSize = 0 → addr ≤ -hugepageSize → -hugepageSize < addr + length →
      s.pages (-hugepageSize) = none)

end State

/-- The application's page at `a` lies entirely in the range. -/
def Inside (addr length a : UInt64) : Prop :=
  a ≠ 0 ∧ addr ≤ a ∧ a.toNat + hugepageSize.toNat ≤ addr.toNat + length.toNat

/-- From `s` to `t`, the tracked pages inside the range, and only they, are tracked no longer and
handed to the policy. -/
structure State.Unmaps (s t : State) (addr length : UInt64) : Prop where
  gone : ∀ a, Inside addr length a → t.pages a = none
  kept : ∀ a, ¬ Inside addr length a → t.pages a = s.pages a
  frame : ∀ page, (t.page page).frame = (s.page page).frame
  handed : ∃ l, t.freePageRing.entries = s.freePageRing.entries ++ l ∧ l.Nodup ∧
    ∀ page, page ∈ l ↔ ∃ a, Inside addr length a ∧ s.pages a = some page
  untouched : ∀ a page, ¬ Inside addr length a → s.pages a = some page → t.page page = s.page page

/-- The range ends before the last base page of the address space, each page that starts in it ends
in it, and the dummy page does not start in it. -/
structure State.Covered (s : State) (addr length : UInt64) : Prop where
  room : addr.toNat + length.toNat ≤ 2 ^ 64 - basepageSize.toNat
  whole : ∀ a, s.pages a ≠ none → addr ≤ a → a < addr + length →
    a.toNat + hugepageSize.toNat ≤ addr.toNat + length.toNat
  dummy : s.pages 0 ≠ none → addr = 0 → length = 0

/-- From the page boundary `a` in state `s`, the loop of `hemem_munmap` comes to `b` in state `t`. -/
inductive MunmapHead (stop : UInt64) : UInt64 → State → UInt64 → State → Prop
  | here (a : UInt64) (s : State) : MunmapHead stop a s a s
  | hole {a b : UInt64} {s t : State} (ha : a < stop) (hp : s.pages a = none)
      (h : MunmapHead stop (a + basepageSize) s b t) : MunmapHead stop a s b t
  | page {a b : UInt64} {s s' t : State} {page : PageId} {pagesize : UInt64} (ha : a < stop)
      (hp : s.pages a = some page) (hr : munmapPage page s = .ok (pagesize, s'))
      (h : MunmapHead stop (a + pagesize) s' b t) : MunmapHead stop a s b t

end HeMem

import HeMem.Lib.Transition
import HeMem.Pebs

/-!
# Mapping and unmapping in `hemem.c`

`hemem_mmap` and the handler of missing faults give each page of a region a frame and track it;
`hemem_munmap` hands the pages of a region back to the policy and unmaps it.  What `libc_mmap`
returns for a region and whether `libc_munmap` succeeds is up to the kernel.

The application is part of the system here: it writes bytes, and `written` keeps what it wrote last
at each address whose page has been tracked since.
-/

namespace HeMem

open Hoare Function

section Mapping

/-- `PAGE_ROUND_UP` -/
def pageRoundUp (x : UInt64) : UInt64 := (x + (hugepageSize - 1)) &&& ~~~(hugepageSize - 1)

/-- `MAP_FAILED` -/
def mapFailed : UInt64 := 0xffffffffffffffff

/-- More turns than two rounds through the address space take in steps of `BASEPAGE_SIZE`. -/
@[irreducible] def loopTurns : ℕ := 2 ^ 54

/-- Maps the frame of a page that `pagefault` has returned, and tracks the page: its size. -/
def mapPage (page : PageId) (pageBoundry : UInt64) : M UInt64 := do
  let p ← getPage page
  let pagesize := ptToPagesize p.pt
  onKernel (·.mmapFixed pageBoundry pagesize (deviceOf p.inDram) p.devdaxOffset)
  modifyPage page ({ · with va := pageBoundry })
  check (pageBoundry ≠ 0) .populateVa
  check (pageBoundry % hugepageSize = 0) .populateAlign
  modifyPage page ({ · with migrating := false })
  modify fun s => { s with memAllocated := s.memAllocated + pagesize }
  addPage page
  return pagesize

/-- The body of the loop of `hemem_mmap_populate`, and `handle_missing_fault` after its first
assertion. -/
def populatePage (cfg : Config) (pageBoundry : UInt64) : M UInt64 := do
  let page ← pebsPagefault cfg
  mapPage page pageBoundry

/-- The loop of `hemem_mmap_populate`. -/
def populateLoop (cfg : Config) (stop : UInt64) : ℕ → UInt64 → M Unit
  | 0, _ => throw .diverges
  | turns + 1, pageBoundry => do
    if pageBoundry < stop then
      let pagesize ← populatePage cfg pageBoundry
      populateLoop cfg stop turns (pageBoundry + pagesize)

def hememMmapPopulate (cfg : Config) (addr length : UInt64) : M Unit := do
  check (addr ≠ 0) .populateAddr
  check (length ≠ 0) .populateLength
  populateLoop cfg (addr + length) loopTurns addr

/-- `hemem_mmap`, where `libc_mmap` returns `p`. -/
def hememMmap (cfg : Config) (length offset p : UInt64) : M UInt64 := do
  check (length ≠ 0) .populateLength
  let length := pageRoundUp length
  check (p ≠ 0 ∧ p ≠ mapFailed) .mmapFailed
  onKernel (·.mmapFixed p length .dram (offset + cfg.dramoffset))
  hememMmapPopulate cfg p length
  modify ({ · with memMmaped := length })
  return p

def handleMissingFault (cfg : Config) (pageBoundry : UInt64) : M Unit := do
  check (pageBoundry ≠ 0) .populateAddr
  let _ ← populatePage cfg pageBoundry

/-- What `hemem_munmap` does with a page it finds: the size of the page. -/
def munmapPage (page : PageId) : M UInt64 := do
  removePage page
  pebsRemovePage page
  let pagesize := ptToPagesize (← getPage page).pt
  modify fun s => { s with
    memAllocated := s.memAllocated - pagesize, memMmaped := s.memMmaped - pagesize }
  return pagesize

/-- The loop of `hemem_munmap`. -/
def munmapLoop (stop : UInt64) : ℕ → UInt64 → M Unit
  | 0, _ => throw .diverges
  | turns + 1, pageBoundry => do
    if pageBoundry < stop then
      match ← findPage pageBoundry with
      | some page =>
        let pagesize ← munmapPage page
        munmapLoop stop turns (pageBoundry + pagesize)
      | none => munmapLoop stop turns (pageBoundry + basepageSize)

/-- `hemem_munmap`, where `libc_munmap` succeeds if `unmaps`. -/
def hememMunmap (addr length : UInt64) (unmaps : Bool) : M Unit := do
  munmapLoop (addr + length) loopTurns addr
  if unmaps then
    onKernel (·.munmap addr length)

/-- The page struct `hemem_init` tracks at address zero: a `calloc`, on no list. -/
def dummyPage (cfg : Config) : PageId := cfg.pages

/-- `hemem_init` from `paging_init` on. -/
def hememInit (cfg : Config) : M Unit := do
  pebsInit cfg
  addPage (dummyPage cfg)

end Mapping

section Application

/-- What the application reads at an address: nothing where nothing is mapped. -/
def Kernel.load (k : Kernel) (addr : UInt64) : Option UInt8 :=
  (k.mapping addr).map fun e => k.bytes e.device e.offset

def Kernel.store (k : Kernel) (e : Pte) (byte : UInt8) : Kernel :=
  { k with bytes := fun d o => if d = e.device ∧ o = e.offset then byte else k.bytes d o }

def appWrite (addr : UInt64) (byte : UInt8) : M Unit := do
  match (← get).kernel.mapping addr with
  | none => throw .waits
  | some e =>
    check (e.wp = false) .waits
    onKernel (·.store e byte)

inductive Call
  /-- the hints of an `mmap` with file descriptor -420 -/
  | hint (tier persistence priority : ℤ)
  | mmap (length offset p : UInt64)
  | populate (addr length : UInt64)
  | missingFault (pageBoundry : UInt64)
  | munmap (addr length : UInt64) (unmaps : Bool)
  | sample (addr : UInt64) (j : PbufType)
  | pass
  | write (addr : UInt64) (byte : UInt8)
  deriving DecidableEq

/-- The state of the program and, of each address whose page is tracked, what the application
wrote there last since it is. -/
structure Memory where
  state : State
  written : UInt64 → Option UInt8

namespace Call

variable (cfg : Config)

def run : Call → M Unit
  | hint tier persistence priority => modify ({ · with
      userHintTier := tier, userHintPersistence := persistence, userHintPriority := priority })
  | mmap length offset p => do
    let _ ← hememMmap cfg length offset p
  | populate addr length => hememMmapPopulate cfg addr length
  | missingFault pageBoundry => handleMissingFault cfg pageBoundry
  | munmap addr length unmaps => hememMunmap addr length unmaps
  | sample addr j => pebsScanSample addr j
  | pass => pebsPolicyPass cfg
  | write addr byte => appWrite addr byte

/-- What has been written after a call in state `s`: at an address whose page was not tracked,
nothing. -/
def writes (s : State) (written : UInt64 → Option UInt8) : Call → UInt64 → Option UInt8
  | write addr byte => fun a => if a = addr then some byte else written a
  | _ => fun a => if s.pages (a &&& hugePfnMask) = none then none else written a

end Call

/-- `hemem_init`, then calls that do not abort. -/
def hemem (cfg : Config) (kernel : Kernel) : System Memory Call where
  init m := hememInit cfg (State.blank kernel) = .ok ((), m.state) ∧ m.written = fun _ => none
  step m c m' := c.run cfg m.state = .ok ((), m'.state) ∧ m'.written = c.writes m.state m.written

/-- Makes the calls in turn, each of them where the condition holds. -/
def makeCalls (cfg : Config) (C : Memory → Call → Prop) [∀ m, DecidablePred (C m)] :
    List Call → Memory → Option Memory
  | [], m => some m
  | c :: cs, m =>
    if C m c then
      match c.run cfg m.state with
      | .ok ((), s) => makeCalls cfg C cs ⟨s, c.writes m.state m.written⟩
      | .error _ => none
    else none

/-- `hemem_init`, then the calls. -/
def launch (cfg : Config) (kernel : Kernel) (C : Memory → Call → Prop) [∀ m, DecidablePred (C m)]
    (calls : List Call) : Option Memory :=
  match hememInit cfg (State.blank kernel) with
  | .ok ((), s) => makeCalls cfg C calls ⟨s, fun _ => none⟩
  | .error _ => none

end Application

end HeMem

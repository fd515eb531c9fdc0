import HeMem.Lru
import HeMem.Mmap
import HeMem.View

/-!
# `hemem.c` over the policy it is built with

`hemem.h` names the functions of a policy by macros: `pagefault`, `mmgr_remove` and `paging_init`
are those of `pebs.c` or of `lru.c`, as the library is built.  Here they are fields of a structure,
together with what the threads of the policy do, and `hemem.c` is written over them.  Over `pebs.c`
it is that of `Mmap` (`pebsBuild_run`).

What the policy may do to the memory of the application is said from above: it gives a page that is
not present, it takes back a present one, and its threads move pages to frames of pages that are
not present.
-/

namespace HeMem

open Hoare Function

/-- A policy with states `σ` that aborts with `ε`; its threads take the steps `Θ`. -/
structure Build (σ ε Θ : Type) where
  /-- what the policy leaves to `hemem.c`, and the page structs -/
  hemem : σ → State
  onHemem {α : Type} (m : M α) : StateT σ (Except ε) α
  /-- the state before `paging_init` -/
  blank : Kernel → σ
  pagingInit : StateT σ (Except ε) Unit
  pagefault : StateT σ (Except ε) PageId
  mmgrRemove : PageId → StateT σ (Except ε) Unit
  thread : Θ → StateT σ (Except ε) Unit

/-- Calls into `hemem.c` by the application, its writes, and the steps of the policy's threads. -/
inductive BuildCall (Θ : Type)
  | mmap (length offset p : UInt64)
  | populate (addr length : UInt64)
  | missingFault (pageBoundry : UInt64)
  | munmap (addr length : UInt64) (unmaps : Bool)
  | write (addr : UInt64) (byte : UInt8)
  | thread (step : Θ)

/-- As `Memory`. -/
structure BuildMemory (σ : Type) where
  state : σ
  written : UInt64 → Option UInt8

variable {σ ε Θ : Type} (B : Build σ ε Θ) (cfg : Config)

namespace Build

section Mapping

def populatePage (pageBoundry : UInt64) : StateT σ (Except ε) UInt64 := do
  let page ← B.pagefault
  B.onHemem (mapPage page pageBoundry)

/-- The loop of `hemem_mmap_populate`. -/
def populateLoop (stop : UInt64) : ℕ → UInt64 → StateT σ (Except ε) Unit
  | 0, _ => B.onHemem (throw .diverges)
  | turns + 1, pageBoundry => do
    if pageBoundry < stop then
      let pagesize ← B.populatePage pageBoundry
      populateLoop stop turns (pageBoundry + pagesize)

def hememMmapPopulate (addr length : UInt64) : StateT σ (Except ε) Unit := do
  B.onHemem (check (addr ≠ 0) .populateAddr)
  B.onHemem (check (length ≠ 0) .populateLength)
  B.populateLoop (addr + length) loopTurns addr

/-- `hemem_mmap`, where `libc_mmap` returns `p`. -/
def hememMmap (length offset p : UInt64) : StateT σ (Except ε) UInt64 := do
  B.onHemem (check (length ≠ 0) .populateLength)
  let length := pageRoundUp length
  B.onHemem (check (p ≠ 0 ∧ p ≠ mapFailed) .mmapFailed)
  B.onHemem (onKernel (·.mmapFixed p length .dram (offset + cfg.dramoffset)))
  B.hememMmapPopulate p length
  B.onHemem (modify ({ · with memMmaped := length }))
  return p

def handleMissingFault (pageBoundry : UInt64) : StateT σ (Except ε) Unit := do
  B.onHemem (check (pageBoundry ≠ 0) .populateAddr)
  let _ ← B.populatePage pageBoundry

def munmapPage (page : PageId) : StateT σ (Except ε) UInt64 := do
  B.onHemem (removePage page)
  B.mmgrRemove page
  B.onHemem do
    let pagesize := ptToPagesize (← getPage page).pt
    modify fun s => { s with
      memAllocated := s.memAllocated - pagesize, memMmaped := s.memMmaped - pagesize }
    return pagesize

/-- The loop of `hemem_munmap`. -/
def munmapLoop (stop : UInt64) : ℕ → UInt64 → StateT σ (Except ε) Unit
  | 0, _ => B.onHemem (throw .diverges)
  | turns + 1, pageBoundry => do
    if pageBoundry < stop then
      match ← B.onHemem (findPage pageBoundry) with
      | some page =>
        let pagesize ← B.munmapPage page
        munmapLoop stop turns (pageBoundry + pagesize)
      | none => munmapLoop stop turns (pageBoundry + basepageSize)

/-- `hemem_munmap`, where `libc_munmap` succeeds if `unmaps`. -/
def hememMunmap (addr length : UInt64) (unmaps : Bool) : StateT σ (Except ε) Unit := do
  B.munmapLoop (addr + length) loopTurns addr
  if unmaps then
    B.onHemem (onKernel (·.munmap addr length))

/-- `hemem_init` from `paging_init` on. -/
def hememInit : StateT σ (Except ε) Unit := do
  B.pagingInit
  B.onHemem (addPage (dummyPage cfg))

end Mapping

end Build

namespace BuildCall

def run : BuildCall Θ → StateT σ (Except ε) Unit
  | mmap length offset p => do
    let _ ← B.hememMmap cfg length offset p
  | populate addr length => B.hememMmapPopulate addr length
  | missingFault pageBoundry => B.handleMissingFault pageBoundry
  | munmap addr length unmaps => B.hememMunmap addr length unmaps
  | write addr byte => B.onHemem (appWrite addr byte)
  | thread step => B.thread step

/-- What has been written after a call, as for `Call.writes`. -/
def writes (s : State) (written : UInt64 → Option UInt8) : BuildCall Θ → UInt64 → Option UInt8
  | write addr byte => fun a => if a = addr then some byte else written a
  | _ => fun a => if s.pages (a &&& hugePfnMask) = none then none else written a

/-- The kernel gives a new region no address of a tracked page, whole pages are unmapped, and the
application writes to tracked pages. -/
def Tidy (s : State) : BuildCall Θ → Prop
  | mmap length _ p => ∀ x, x - p < pageRoundUp length → s.pages (x &&& hugePfnMask) = none
  | munmap addr length _ => addr % hugepageSize = 0 ∧ length % hugepageSize = 0 ∧
      addr.toNat + length.toNat < 2 ^ 64
  | write addr _ => ∃ p, s.pages (addr &&& hugePfnMask) = some p ∧ p < cfg.pages
  | _ => True

def next (m : BuildMemory σ) (c : BuildCall Θ) : Option (BuildMemory σ) :=
  (c.run B cfg m.state).toOption.map fun r => ⟨r.2, c.writes (B.hemem m.state) m.written⟩

end BuildCall

/-- `hemem_init`, then calls and steps that do not abort. -/
def Build.system (kernel : Kernel) : System (BuildMemory σ) (BuildCall Θ) where
  init m := B.hememInit cfg (B.blank kernel) = .ok ((), m.state) ∧ m.written = fun _ => none
  step m c m' := c.run B cfg m.state = .ok ((), m'.state) ∧
    m'.written = c.writes (B.hemem m.state) m.written

section Policies

/-- What the threads of `pebs.c` do without hints. -/
inductive PebsStep
  | sample (addr : UInt64) (j : PbufType)
  | pass

/-- `ALLOC_HEMEM` -/
def pebsBuild : Build State Abort PebsStep where
  hemem s := s
  onHemem m := m
  blank := State.blank
  pagingInit := pebsInit cfg
  pagefault := pebsPagefault cfg
  mmgrRemove := pebsRemovePage
  thread
    | .sample addr j => pebsScanSample addr j
    | .pass => pebsPolicyPass cfg

/-- A call of the application, or a step of the threads, that sets no hint. -/
def Call.build : Call → Option (BuildCall PebsStep)
  | .hint .. => none
  | .mmap length offset p => some (.mmap length offset p)
  | .populate addr length => some (.populate addr length)
  | .missingFault pageBoundry => some (.missingFault pageBoundry)
  | .munmap addr length unmaps => some (.munmap addr length unmaps)
  | .sample addr j => some (.thread (.sample addr j))
  | .pass => some (.thread .pass)
  | .write addr byte => some (.write addr byte)

inductive LruStep
  | scan (bits : ScanBits)
  | pass

/-- `ALLOC_LRU` -/
def lruBuild : Build LruState LruAbort LruStep where
  hemem := LruState.hemem
  onHemem m := HeMem.onHemem m
  blank := LruState.blank
  pagingInit := lruInit cfg
  pagefault := lruAllocatePage
  mmgrRemove := lruRemovePage
  thread
    | .scan bits => lruKscand bits
    | .pass => lruKswapd cfg

end Policies

section Sound

/-- Page structs keep their frames, and pages that have an address one of a page boundary. -/
structure Harmless (s t : State) : Prop where
  frame : ∀ p, (t.page p).frame = (s.page p).frame
  pt : ∀ p, (t.page p).pt = (s.page p).pt
  present : ∀ p, (t.page p).present = (s.page p).present
  align : ∀ p, (t.page p).va = (s.page p).va ∨ (t.page p).va % hugepageSize = 0

/-- But for its `present` flag, now `present`, nothing is seen to change about page `p`, nor about
any other page. -/
structure Marks (p : PageId) (present : Bool) (v w : View) : Prop where
  frame : ∀ x, (w.page x).frame = (v.page x).frame
  pt : ∀ x, (w.page x).pt = (v.page x).pt
  va : ∀ x, (w.page x).va = (v.page x).va
  present : ∀ x, (w.page x).present = if x = p then present else (v.page x).present
  pages : w.pages = v.pages
  kernel : w.kernel = v.kernel

/-- The present page `p` moves to the frame of `np`, which is not present: what it holds is copied
there and mapped. -/
structure Relocates (cfg : Config) (v w : View) (up : Bool) (p np : PageId) : Prop where
  owned : p < cfg.pages
  freed : np < cfg.pages
  live : (v.page p).present = true
  spare : (v.page np).present = false
  inDram : (v.page p).inDram = !up
  target : (v.page np).inDram = up
  kernel : w.kernel = (v.remap up p (v.page np).devdaxOffset).kernel
  frame : ∀ x, (w.page x).frame = (v.page (Equiv.swap p np x)).frame
  pt : ∀ x, (w.page x).pt = (v.page x).pt
  va : ∀ x, (w.page x).va = (v.page x).va
  present : ∀ x, (w.page x).present = (v.page x).present
  pages : w.pages = v.pages

/-- Pages have moved, one after another. -/
def Relocated (cfg : Config) : View → View → Prop :=
  Relation.ReflTransGen fun v w => ∃ up p np, Relocates cfg v w up p np

end Sound

end HeMem

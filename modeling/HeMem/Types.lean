import HeMem.Fifo
import HeMem.Ring

/-!
# The data of `hemem.h` and `pebs.h`

The page struct, the state the threads share and the assertions they make.  A pointer to a page
struct is its number: `pebs_init` numbers the structs it allocates.  The links of a page are in
the heap of `HeMem.Fifo`; the kernel's part, mappings and device contents, is `Kernel`.
-/

namespace HeMem

/-- A pointer to a `struct hemem_page`. -/
abbrev PageId := ℕ

/-- `enum pbuftype` -/
inductive PbufType
  | dramread
  | nvmread
  deriving DecidableEq

/-- `enum pagetypes` -/
inductive PageType
  | hugep
  | basep
  deriving DecidableEq

/-- The six lists of `pebs.c`. -/
inductive ListId
  | dramHot
  | dramCold
  | nvmHot
  | nvmCold
  | dramFree
  | nvmFree
  deriving DecidableEq

/-- The files behind the two tiers: `dramfd` and `nvmfd`. -/
inductive Device
  | dram
  | nvm
  deriving DecidableEq

def basepageSize : UInt64 := 4 * 1024

def hugepageSize : UInt64 := 2 * 1024 * 1024

def pageSize : UInt64 := hugepageSize

def hugepageMask : UInt64 := hugepageSize - 1

/-- `HUGE_PFN_MASK` -/
def hugePfnMask : UInt64 := hugepageMask ^^^ 0xffffffffffffffff

def pebsKswapdMigrateRate : UInt64 := 10 * 1024 * 1024 * 1024

def hotReadThreshold : UInt64 := 8

def pebsCoolingThreshold : UInt64 := 24

def hotRingReqsThreshold : ℕ := 1024 * 1024

def coldRingReqsThreshold : ℕ := 128

/-- `CAPACITY` -/
def ringCapacity : ℕ := 128 * 1024 * 1024

def coolingPages : ℕ := 8192

def ptToPagesize : PageType → UInt64
  | .hugep => hugepageSize
  | .basep => basepageSize

def hotList (dram : Bool) : ListId := if dram then .dramHot else .nvmHot

def coldList (dram : Bool) : ListId := if dram then .dramCold else .nvmCold

def freeList (dram : Bool) : ListId := if dram then .dramFree else .nvmFree

def deviceOf (dram : Bool) : Device := if dram then .dram else .nvm

/-- `struct hemem_page` without its links, its lock and its statistics.  The default values are
those of a `calloc`. -/
structure HememPage where
  va : UInt64 := 0
  devdaxOffset : UInt64 := 0
  inDram : Bool := false
  pt : PageType := .hugep
  migrating : Bool := false
  present : Bool := false
  hot : Bool := false
  localClock : UInt64 := 0
  ringPresent : Bool := false
  accesses : PbufType → UInt64 := fun _ => 0
  totAccesses : PbufType → UInt64 := fun _ => 0
  enforced : Bool := false

namespace HememPage

/-- The loop that zeroes both kinds of counters. -/
def clearCounters (p : HememPage) : HememPage :=
  { p with accesses := fun _ => 0, totAccesses := fun _ => 0 }

/-- `accesses[DRAMREAD] + accesses[NVMREAD]` -/
def reads (p : HememPage) : UInt64 := p.accesses .dramread + p.accesses .nvmread

/-- The frame the struct names. -/
def frame (p : HememPage) : Device × UInt64 := (deviceOf p.inDram, p.devdaxOffset)

end HememPage

/-- What `hemem_init` reads from the environment. -/
structure Config where
  dramsize : UInt64
  nvmsize : UInt64
  dramoffset : UInt64
  nvmoffset : UInt64

namespace Config

variable (cfg : Config)

def size (dram : Bool) : UInt64 := if dram then cfg.dramsize else cfg.nvmsize

def offset (dram : Bool) : UInt64 := if dram then cfg.dramoffset else cfg.nvmoffset

/-- The page structs `pebs_init` allocates for a tier: `dramsize / PAGE_SIZE`,
`nvmsize / PAGE_SIZE`. -/
def count (dram : Bool) : ℕ := (cfg.size dram / pageSize).toNat

/-- All page structs `pebs_init` allocates. -/
def pages : ℕ := cfg.count true + cfg.count false

end Config

/-- What the kernel maps a byte address to: a byte of a device, write-protected or not. -/
structure Pte where
  device : Device
  offset : UInt64
  wp : Bool

/-- The kernel's side: the process's mappings and what the devices hold. -/
structure Kernel where
  mapping : UInt64 → Option Pte
  bytes : Device → UInt64 → UInt8

/-- One call of `hemem_migrate_up` or `hemem_migrate_down`, as things stand when it is made. -/
structure MigrateCall where
  up : Bool
  page : PageId
  /-- `page->present` -/
  present : Bool
  /-- what `find_page` returns for `page->va` -/
  found : Option PageId
  deriving DecidableEq

/-- The ways a step ends other than by returning: a failed assertion, named by its function and
what it asserts, or no return at all. -/
inductive Abort
  | fifo (a : FifoAbort)
  /-- `ring_buf_init`: `ring_buf_empty(rbuf)` -/
  | ringInit
  /-- `make_hot`: `page->va != 0` -/
  | makeHotVa
  /-- `make_hot`: `page->list` is the list of its tier for its flag -/
  | makeHotList
  /-- `make_cold`: `page->va != 0` -/
  | makeColdVa
  /-- `make_cold`: `page->list` is the list of its tier for its flag -/
  | makeColdList
  /-- `partial_cool`: `p->in_dram`, or its negation for the list of the other tier -/
  | coolInDram
  /-- `update_current_cool_page`: `page->list` is the hot list of the cursor's tier -/
  | coolCursor
  /-- `pebs_policy_thread`: `list != NULL` -/
  | drainList
  /-- `pebs_policy_thread`: a freed page of a request ring is on the free list of its tier -/
  | requestList
  /-- `pebs_policy_thread`: `!(np->present)` -/
  | policyPresent
  /-- `pebs_policy_thread`: `np != NULL` -/
  | policyNp
  /-- `pebs_allocate_page`: `page->in_dram`, or its negation for the other tier -/
  | allocInDram
  /-- `pebs_allocate_page`: `!page->present` -/
  | allocPresent
  /-- `user_hinted_dram_pebs_allocate_page`: `page->in_dram` -/
  | hintedInDram
  /-- `user_hinted_dram_pebs_allocate_page`: `!page->present` -/
  | hintedPresent
  /-- both allocators: `!"Out of memory"` -/
  | outOfMemory
  /-- `hemem_wp_page`: `addr != 0` -/
  | wpVa
  /-- `hemem_wp_page`: `addr % HUGEPAGE_SIZE == 0` -/
  | wpAlign
  /-- `hemem_migrate_up`: `!page->in_dram`; `hemem_migrate_down`: `page->in_dram` -/
  | migrateInDram
  /-- `hemem_migrate_up` and `hemem_migrate_down`: the four assertions on offsets -/
  | migrateRange
  /-- `hemem_migrate_up` and `hemem_migrate_down`: `page->va % HUGEPAGE_SIZE == 0` -/
  | migrateAlign
  /-- `hemem_mmap`: `p != NULL && p != MAP_FAILED` -/
  | mmapFailed
  /-- `hemem_mmap_populate`: `addr != 0`; `handle_missing_fault`: `page_boundry != 0` -/
  | populateAddr
  /-- `hemem_mmap` and `hemem_mmap_populate`: `length != 0` -/
  | populateLength
  /-- `hemem_mmap_populate` and `handle_missing_fault`: `page->va != 0` -/
  | populateVa
  /-- `hemem_mmap_populate` and `handle_missing_fault`: `page->va % HUGEPAGE_SIZE == 0` -/
  | populateAlign
  /-- `add_page`: `p == NULL` -/
  | addPage
  /-- `handle_wp_fault`: `page != NULL` -/
  | wpFaultPage
  /-- a wait that nothing ends while the step is taken alone: `pebs_remove_page` on a full ring, an
  access to what is not mapped or is write-protected -/
  | waits
  /-- a loop that is still running after as many turns as the model gives it -/
  | diverges
  deriving DecidableEq

/-- The state the threads share: the globals of `pebs.c` and `hemem.c`, the page structs, the
policy thread's two cursors and the kernel's side. -/
structure State where
  fifo : Heap ListId PageId
  page : PageId → HememPage
  hotRing : RingBuf PageId
  coldRing : RingBuf PageId
  freePageRing : RingBuf PageId
  globalClock : UInt64
  needCoolDram : Bool
  needCoolNvm : Bool
  startDramPage : Option PageId
  startNvmPage : Option PageId
  curCoolInDram : Option PageId
  curCoolInNvm : Option PageId
  userHintTier : ℤ
  userHintPersistence : ℤ
  userHintPriority : ℤ
  /-- the hash table of tracked pages, by virtual address -/
  pages : UInt64 → Option PageId
  memAllocated : UInt64
  memMmaped : UInt64
  kernel : Kernel
  /-- the migrations so far, the latest first; nothing in the program reads it -/
  calls : List MigrateCall

/-- A program over the shared state. -/
abbrev M := StateT State (Except Abort)

/-- A list operation, taken under the list's lock. -/
def onFifo {α : Type} (m : FifoM ListId PageId α) : M α := fun s =>
  match m s.fifo with
  | .ok (a, h) => .ok (a, { s with fifo := h })
  | .error e => .error (.fifo e)

def getPage (page : PageId) : M HememPage := return (← get).page page

def modifyPage (page : PageId) (f : HememPage → HememPage) : M Unit :=
  modify fun s => { s with page := Function.update s.page page (f (s.page page)) }

/-- `page->list` -/
def getList (page : PageId) : M (Option ListId) := return (← get).fifo.listOf page

end HeMem

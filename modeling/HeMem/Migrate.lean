import HeMem.Types

/-!
# Tracking, write protection and migration in `hemem.c`

The hash table of tracked pages, `hemem_wp_page`, and `hemem_migrate_up` and `hemem_migrate_down`:
copy the frame, map the new one over the old at the page's address, note the new frame in the
page struct.  The two differ in the direction only.
-/

namespace HeMem

open Hoare Function

namespace Kernel

/-- `libc_mmap` with `MAP_FIXED`: the range maps to the frame passed, unprotected. -/
def mmapFixed (k : Kernel) (addr length : UInt64) (fd : Device) (offset : UInt64) : Kernel :=
  { k with mapping := fun a =>
      if a - addr < length then some ⟨fd, offset + (a - addr), false⟩ else k.mapping a }

/-- `libc_munmap` where it succeeds. -/
def munmap (k : Kernel) (addr length : UInt64) : Kernel :=
  { k with mapping := fun a => if a - addr < length then none else k.mapping a }

/-- `UFFDIO_WRITEPROTECT`: sets or clears the protection of what is mapped in the range. -/
def writeprotect (k : Kernel) (addr length : UInt64) (protect : Bool) : Kernel :=
  { k with mapping := fun a =>
      if a - addr < length then (k.mapping a).map ({ · with wp := protect }) else k.mapping a }

/-- `UFFDIO_DMA_COPY`: copies `length` bytes between the devices. -/
def dmaCopy (k : Kernel) (src dst : Device × UInt64) (length : UInt64) : Kernel :=
  { k with bytes := fun d o =>
      if d = dst.1 ∧ o - dst.2 < length then k.bytes src.1 (src.2 + (o - dst.2)) else k.bytes d o }

end Kernel

/-- A system call that succeeds. -/
def onKernel (f : Kernel → Kernel) : M Unit := modify fun s => { s with kernel := f s.kernel }

def findPage (va : UInt64) : M (Option PageId) := return (← get).pages va

def addPage (page : PageId) : M Unit := do
  let va := (← getPage page).va
  check ((← get).pages va = none) .addPage
  modify fun s => { s with pages := update s.pages va (some page) }

def removePage (page : PageId) : M Unit := do
  let va := (← getPage page).va
  modify fun s => { s with pages := update s.pages va none }

/-- An `ioctl` that finds nothing mapped there is not an error here. -/
def hememWpPage (page : PageId) (protect : Bool) : M Unit := do
  let p ← getPage page
  check (p.va ≠ 0) .wpVa
  check (p.va % hugepageSize = 0) .wpAlign
  onKernel (·.writeprotect p.va (ptToPagesize p.pt) protect)

/-- The two assertions on an offset of one tier. -/
def Config.InRange (cfg : Config) (dram : Bool) (offset pagesize : UInt64) : Prop :=
  offset - cfg.offset dram < cfg.size dram ∧ offset - cfg.offset dram + pagesize ≤ cfg.size dram

instance (cfg : Config) (dram : Bool) (offset pagesize : UInt64) :
    Decidable (cfg.InRange dram offset pagesize) :=
  inferInstanceAs (Decidable (_ ∧ _))

/-- `hemem_migrate_up` for `up`, else `hemem_migrate_down`. -/
def hememMigrate (cfg : Config) (up : Bool) (page : PageId) (newOffset : UInt64) : M Unit := do
  let p ← getPage page
  modify fun s => { s with calls := ⟨up, page, p.present, s.pages p.va⟩ :: s.calls }
  check (p.inDram = !up) .migrateInDram
  let pagesize := ptToPagesize p.pt
  check (cfg.InRange (!up) p.devdaxOffset pagesize) .migrateRange
  check (cfg.InRange up newOffset pagesize) .migrateRange
  onKernel (·.dmaCopy (deviceOf (!up), p.devdaxOffset) (deviceOf up, newOffset) pagesize)
  onKernel (·.mmapFixed p.va pagesize (deviceOf up) newOffset)
  check (p.va % hugepageSize = 0) .migrateAlign
  modifyPage page ({ · with devdaxOffset := newOffset, inDram := up })

def hememMigrateUp (cfg : Config) : PageId → UInt64 → M Unit := hememMigrate cfg true

def hememMigrateDown (cfg : Config) : PageId → UInt64 → M Unit := hememMigrate cfg false

end HeMem

import HeMem.Interpose

/-!
# The flag that marks HeMem's own calls

Seven functions of `hemem.c` set the thread's `internal_call` when they begin and clear it when they
end; one of them may be called while another runs, since a fault hinted for DRAM moves a cold page
down.  They are written out here once more, over a state that also keeps the flag, the values it is
given and its values where HeMem calls `libc_mmap` or `libc_munmap`.  Without these they are the
functions of `Migrate`, `Pebs` and `Mmap` (`GuardedCall.erases`).
-/

namespace HeMem

open Hoare Function

section Flag

/-- The state, and what a thread does with its `internal_call`. -/
structure Thread where
  state : State
  internalCall : Bool
  /-- the values `internal_call` is given, the latest first -/
  written : List Bool
  /-- its values at the calls of `libc_mmap` and `libc_munmap`, the latest first -/
  issued : List Bool

/-- A program of one thread. -/
abbrev ThreadM := StateT Thread (Except Abort)

variable {α : Type}

def onState (m : M α) : ThreadM α := fun t =>
  match m t.state with
  | .ok (a, s) => .ok (a, { t with state := s })
  | .error e => .error e

instance : MonadLift M ThreadM := ⟨onState⟩

def setInternalCall (b : Bool) : ThreadM Unit :=
  modify fun t => { t with internalCall := b, written := b :: t.written }

/-- HeMem calls `libc_mmap` or `libc_munmap`. -/
def issue : ThreadM Unit := modify fun t => { t with issued := t.internalCall :: t.issued }

/-- A function that sets the flag when it begins and clears it when it ends. -/
def guarded (m : ThreadM α) : ThreadM α := do
  setInternalCall true
  let a ← m
  setInternalCall false
  return a

end Flag

def handleWpFault (pageBoundry : UInt64) : M Unit := do
  match ← findPage pageBoundry with
  | none => throw .wpFaultPage
  | some page => check ((← getPage page).migrating = false) .waits

namespace Guarded

def hememWpPage (page : PageId) (protect : Bool) : ThreadM Unit :=
  guarded (onState (HeMem.hememWpPage page protect))

def hememMigrate (cfg : Config) (up : Bool) (page : PageId) (newOffset : UInt64) :
    ThreadM Unit := guarded do
  let p ← getPage page
  onState (modify fun s =>
    { s with calls := ⟨up, page, p.present, s.pages p.va⟩ :: s.calls })
  check (p.inDram = !up) .migrateInDram
  let pagesize := ptToPagesize p.pt
  check (cfg.InRange (!up) p.devdaxOffset pagesize) .migrateRange
  check (cfg.InRange up newOffset pagesize) .migrateRange
  onKernel (·.dmaCopy (deviceOf (!up), p.devdaxOffset) (deviceOf up, newOffset) pagesize)
  issue
  onKernel (·.mmapFixed p.va pagesize (deviceOf up) newOffset)
  check (p.va % hugepageSize = 0) .migrateAlign
  modifyPage page ({ · with devdaxOffset := newOffset, inDram := up })

def hememMigrateUp (cfg : Config) : PageId → UInt64 → ThreadM Unit := hememMigrate cfg true

def hememMigrateDown (cfg : Config) : PageId → UInt64 → ThreadM Unit := hememMigrate cfg false

def pebsMigrate (cfg : Config) (up : Bool) (page : PageId) (offset : UInt64) : ThreadM Unit := do
  if !up && (← getPage page).enforced then
    return
  modifyPage page ({ · with migrating := true })
  hememWpPage page true
  (if up then hememMigrateUp cfg else hememMigrateDown cfg) page offset
  modifyPage page ({ · with migrating := false })

def pebsMigrateUp (cfg : Config) : PageId → UInt64 → ThreadM Unit := pebsMigrate cfg true

def pebsMigrateDown (cfg : Config) : PageId → UInt64 → ThreadM Unit := pebsMigrate cfg false

def exchange (cfg : Config) (up : Bool) (page np : PageId) : ThreadM Unit := do
  let oldOffset := (← getPage page).devdaxOffset
  let newOffset := (← getPage np).devdaxOffset
  (if up then pebsMigrateUp cfg else pebsMigrateDown cfg) page newOffset
  modifyPage np fun p => HememPage.clearCounters
    { p with devdaxOffset := oldOffset, inDram := !up, present := false, hot := false }
  onFifo (enqueueFifo (if up then .dramHot else .nvmCold) page)
  onFifo (enqueueFifo (freeList !up) np)

def userHintedDramPebsAllocatePage (cfg : Config) : ThreadM PageId := do
  match ← hintedTakeFree with
  | some page => return page
  | none =>
    let coldPage ← coldVictim ((← listLength .dramCold) + 1)
    let freeNvmPage ← onFifo (dequeueFifo .nvmFree)
    match coldPage, freeNvmPage with
    | some coldPage, some freeNvmPage =>
      exchange cfg false coldPage freeNvmPage
      match ← hintedTakeFree with
      | some page => return page
      | none => throw .outOfMemory
    | _, _ => throw .outOfMemory

def pebsPagefault (cfg : Config) : ThreadM PageId := do
  if (← get).state.userHintTier = 0 then
    userHintedDramPebsAllocatePage cfg
  else
    pebsAllocatePage

def mapPage (page : PageId) (pageBoundry : UInt64) : ThreadM UInt64 := do
  issue
  HeMem.mapPage page pageBoundry

def populatePage (cfg : Config) (pageBoundry : UInt64) : ThreadM UInt64 := do
  let page ← pebsPagefault cfg
  mapPage page pageBoundry

def populateLoop (cfg : Config) (stop : UInt64) : ℕ → UInt64 → ThreadM Unit
  | 0, _ => throw .diverges
  | turns + 1, pageBoundry => do
    if pageBoundry < stop then
      let pagesize ← populatePage cfg pageBoundry
      populateLoop cfg stop turns (pageBoundry + pagesize)

def hememMmapPopulate (cfg : Config) (addr length : UInt64) : ThreadM Unit := do
  check (addr ≠ 0) .populateAddr
  check (length ≠ 0) .populateLength
  populateLoop cfg (addr + length) loopTurns addr

def hememMmap (cfg : Config) (length offset p : UInt64) : ThreadM UInt64 := guarded do
  check (length ≠ 0) .populateLength
  let length := pageRoundUp length
  issue
  check (p ≠ 0 ∧ p ≠ mapFailed) .mmapFailed
  onKernel (·.mmapFixed p length .dram (offset + cfg.dramoffset))
  hememMmapPopulate cfg p length
  onState (modify ({ · with memMmaped := length }))
  return p

def hememMunmap (addr length : UInt64) (unmaps : Bool) : ThreadM Unit := guarded do
  munmapLoop (addr + length) loopTurns addr
  issue
  if unmaps then
    onKernel (·.munmap addr length)

def handleWpFault (pageBoundry : UInt64) : ThreadM Unit :=
  guarded (onState (HeMem.handleWpFault pageBoundry))

def handleMissingFault (cfg : Config) (pageBoundry : UInt64) : ThreadM Unit := guarded do
  check (pageBoundry ≠ 0) .populateAddr
  let _ ← populatePage cfg pageBoundry

end Guarded

/-- A call of one of the functions that set the flag. -/
inductive GuardedCall
  | mmap (length offset p : UInt64)
  | munmap (addr length : UInt64) (unmaps : Bool)
  | migrateUp (page : PageId) (dramOffset : UInt64)
  | migrateDown (page : PageId) (nvmOffset : UInt64)
  | wpPage (page : PageId) (protect : Bool)
  | wpFault (pageBoundry : UInt64)
  | missingFault (pageBoundry : UInt64)

/-- A thread in state `s` whose flag is `flag`. -/
def State.thread (s : State) (flag : Bool) : Thread := ⟨s, flag, [], []⟩

/-- DRAM is asked for and has no free page: the next fault moves a page down. -/
def State.Displaces (s : State) : Prop :=
  s.userHintTier = 0 ∧ (s.fifo.list .dramFree).last = none

namespace GuardedCall

variable (cfg : Config)

def run : GuardedCall → ThreadM Unit
  | mmap length offset p => do
    let _ ← Guarded.hememMmap cfg length offset p
  | munmap addr length unmaps => Guarded.hememMunmap addr length unmaps
  | migrateUp page dramOffset => Guarded.hememMigrateUp cfg page dramOffset
  | migrateDown page nvmOffset => Guarded.hememMigrateDown cfg page nvmOffset
  | wpPage page protect => Guarded.hememWpPage page protect
  | wpFault pageBoundry => Guarded.handleWpFault pageBoundry
  | missingFault pageBoundry => Guarded.handleMissingFault cfg pageBoundry

/-- The same call, with nothing kept of the flag. -/
def unguarded : GuardedCall → M Unit
  | mmap length offset p => do
    let _ ← hememMmap cfg length offset p
  | munmap addr length unmaps => hememMunmap addr length unmaps
  | migrateUp page dramOffset => hememMigrateUp cfg page dramOffset
  | migrateDown page nvmOffset => hememMigrateDown cfg page nvmOffset
  | wpPage page protect => hememWpPage page protect
  | wpFault pageBoundry => handleWpFault pageBoundry
  | missingFault pageBoundry => handleMissingFault cfg pageBoundry

/-- The call takes a page while a page has to move down for it. -/
def Displacing (s : State) : GuardedCall → Prop
  | mmap length _ p => p < p + pageRoundUp length ∧ s.Displaces
  | missingFault _ => s.Displaces
  | _ => False

end GuardedCall

/-- A thread that entered a call with the flag at `entry` has had it set from entry to exit, in
particular at each call of `libc_mmap` and `libc_munmap`, and has it at `entry` again. -/
structure Thread.Nests (t : Thread) (entry : Bool) : Prop where
  restored : t.internalCall = entry
  inside : ∀ b ∈ t.written.tail, b = true
  issued : ∀ b ∈ t.issued, b = true

end HeMem

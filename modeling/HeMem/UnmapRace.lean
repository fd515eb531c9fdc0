import HeMem.Lib.Transition
import HeMem.Unmap

/-!
# `hemem_munmap` beside a migration

An application thread unmaps a range while the policy thread migrates one of its pages; each access
of either thread to what they share is a step.  No lock is held over either of the two functions.
-/

namespace HeMem

open Hoare Function

/-- Where the application thread stands in `hemem_munmap`. -/
inductive MunmapPhase
  /-- at the head of the loop -/
  | look (pageBoundry : UInt64)
  /-- before `remove_page` -/
  | remove (page : PageId) (pageBoundry : UInt64)
  /-- before the `ring_buf_put` of `pebs_remove_page` -/
  | put (page : PageId) (pageBoundry : UInt64)
  /-- before `page->present = false` -/
  | clear (page : PageId) (pageBoundry : UInt64)
  /-- before `libc_munmap` -/
  | unmap
  | done
  deriving DecidableEq

/-- Where the policy thread stands in `pebs_migrate_up` or `pebs_migrate_down`. -/
inductive RemapPhase
  | begin
  /-- before `hemem_wp_page` -/
  | protect
  /-- before the assertions of `hemem_migrate_up` or `hemem_migrate_down` -/
  | start
  | copy (oldOffset : UInt64)
  /-- before `libc_mmap` -/
  | remap
  /-- before `page->devdax_offset = ...` -/
  | setOffset
  /-- before `page->in_dram = ...` -/
  | setTier
  /-- before `page->migrating = false` -/
  | clear
  | done
  deriving DecidableEq

/-- The end of `pebs_remove_page` and of a turn of the loop of `hemem_munmap`. -/
def clearPage (page : PageId) : M UInt64 := do
  modifyPage page fun p => HememPage.clearCounters { p with present := false, hot := false }
  let pagesize := ptToPagesize (← getPage page).pt
  modify fun s => { s with
    memAllocated := s.memAllocated - pagesize, memMmaped := s.memMmaped - pagesize }
  return pagesize

structure UnmapRace where
  state : State
  munmap : MunmapPhase
  migrate : RemapPhase

/-- The range passed to `hemem_munmap`, and the page to migrate with where it goes. -/
structure UnmapArgs where
  addr : UInt64
  length : UInt64
  page : PageId
  up : Bool
  newOffset : UInt64

namespace UnmapRace

variable (cfg : Config) (args : UnmapArgs) (s : UnmapRace)

/-- The application thread goes on where `m` leaves it, if it need not wait. -/
def munmapDoes {α : Type} (m : M α) (k : α → MunmapPhase) : Option UnmapRace :=
  (m s.state).toOption.map fun r => { s with state := r.2, munmap := k r.1 }

/-- The next step of the application thread up to `libc_munmap`. -/
def munmapStep : Option UnmapRace :=
  match s.munmap with
  | .look b =>
    if b < args.addr + args.length then s.munmapDoes (findPage b) fun
      | some page => .remove page b
      | none => .look (b + basepageSize)
    else some { s with munmap := .unmap }
  | .remove page b => s.munmapDoes (removePage page) fun _ => .put page b
  | .put page b =>
    if ringBufFull s.state.freePageRing then none else some { s with
      state := { s.state with freePageRing := ringBufPut s.state.freePageRing page }
      munmap := .clear page b }
  | .clear page b => s.munmapDoes (clearPage page) fun pagesize => .look (b + pagesize)
  | .unmap | .done => none

def libcMunmap (unmaps : Bool) : Option UnmapRace :=
  match s.munmap with
  | .unmap => s.munmapDoes
      (if unmaps then onKernel (·.munmap args.addr args.length) else pure ()) fun _ => .done
  | _ => none

/-- The policy thread goes on where `m` leaves it, if it fails no assertion. -/
def migrateDoes {α : Type} (m : M α) (k : α → RemapPhase) : Option UnmapRace :=
  (m s.state).toOption.map fun r => { s with state := r.2, migrate := k r.1 }

def migrateStep : Option UnmapRace :=
  match s.migrate with
  | .begin =>
    if !args.up && (s.state.page args.page).enforced then some { s with migrate := .done }
    else s.migrateDoes (modifyPage args.page ({ · with migrating := true })) fun _ => .protect
  | .protect => s.migrateDoes (hememWpPage args.page true) fun _ => .start
  | .start => s.migrateDoes (do
      let p ← getPage args.page
      check (p.inDram = !args.up) .migrateInDram
      let pagesize := ptToPagesize p.pt
      check (cfg.InRange (!args.up) p.devdaxOffset pagesize) .migrateRange
      check (cfg.InRange args.up args.newOffset pagesize) .migrateRange
      return p.devdaxOffset) .copy
  | .copy oldOffset => s.migrateDoes (do
      let p ← getPage args.page
      onKernel (·.dmaCopy (deviceOf (!args.up), oldOffset) (deviceOf args.up, args.newOffset)
        (ptToPagesize p.pt))) fun _ => .remap
  | .remap => s.migrateDoes (do
      let p ← getPage args.page
      onKernel (·.mmapFixed p.va (ptToPagesize p.pt) (deviceOf args.up) args.newOffset)) fun _ =>
        .setOffset
  | .setOffset => s.migrateDoes (do
      check ((← getPage args.page).va % hugepageSize = 0) .migrateAlign
      modifyPage args.page ({ · with devdaxOffset := args.newOffset })) fun _ => .setTier
  | .setTier => s.migrateDoes (modifyPage args.page ({ · with inDram := args.up })) fun _ => .clear
  | .clear => s.migrateDoes (modifyPage args.page ({ · with migrating := false })) fun _ => .done
  | .done => none

/-- `find_page` finds the page that is migrated. -/
def Tracked : Prop := s.state.pages (s.state.page args.page).va = some args.page

instance : Decidable (s.Tracked args) := inferInstanceAs (Decidable (_ = _))

end UnmapRace

inductive UnmapAct
  | munmap
  /-- `libc_munmap`, which may fail -/
  | libcMunmap (unmaps : Bool)
  | migrate

/-- The huge page at `pageBoundry` lies within the range. -/
def UnmapArgs.Covers (args : UnmapArgs) (pageBoundry : UInt64) : Prop :=
  (pageBoundry - args.addr).toNat + hugepageSize.toNat ≤ args.length.toNat

/-- The range has all of the page that is about to be removed. -/
def MunmapPhase.Covered (args : UnmapArgs) : MunmapPhase → Prop
  | remove _ b => args.Covers b
  | _ => True

instance (args : UnmapArgs) : DecidablePred (MunmapPhase.Covered args)
  | .remove _ _ => inferInstanceAs (Decidable (_ ≤ _))
  | .look _ | .put _ _ | .clear _ _ | .unmap | .done => instDecidableTrue

namespace UnmapAct

variable (cfg : Config) (args : UnmapArgs) (s : UnmapRace)

def next : UnmapAct → Option UnmapRace
  | munmap => s.munmapStep args
  | libcMunmap unmaps => s.libcMunmap args unmaps
  | migrate => s.migrateStep cfg args

/-- A page is removed only if the range has all of it, `libc_munmap` succeeds, and after it the
policy thread maps nothing where the page is no longer tracked. -/
def Careful : UnmapAct → Prop
  | munmap => s.munmap.Covered args
  | libcMunmap unmaps => unmaps = true
  | migrate => s.migrate = .remap → s.munmap = .done → s.Tracked args

instance : DecidablePred (Careful args s)
  | munmap => inferInstanceAs (Decidable (s.munmap.Covered args))
  | libcMunmap _ => inferInstanceAs (Decidable (_ = _))
  | migrate => inferInstanceAs (Decidable (_ → _ → _))

end UnmapAct

namespace UnmapRace

variable (args : UnmapArgs) (s : UnmapRace)

/-- No address is mapped whose page is not tracked. -/
def NoneUntracked : Prop :=
  ∀ a, s.state.pages (a &&& hugePfnMask) = none → s.state.kernel.mapping a = none

/-- There is nothing mapped but tracked pages, the one to migrate among them. -/
structure Starts : Prop where
  sound : s.state.Sound
  tracked : s.Tracked args
  mapped : s.NoneUntracked
  munmap : s.munmap = .look args.addr
  migrate : s.migrate = .begin

end UnmapRace

/-- One call of `hemem_munmap` and one migration. -/
def unmapRace (cfg : Config) (args : UnmapArgs) : System UnmapRace UnmapAct where
  init s := s.Starts args
  step s a s' := a.next cfg args s = some s'

end HeMem

import HeMem.MigrateRace
import HeMem.RemoveRace
import HeMem.RequestRace

/-!
# Whole passes beside page faults, removals and the sampler

The policy thread goes from pass to pass while other threads are in `pebs_pagefault` without hints,
the sampler counts samples and makes requests, and pages are removed.  All of them take turns at the
grain of list and ring operations; in the loops over the request rings the read of `present` and the
assertion on the list of a page not present are steps of their own, and a removal is one step.
-/

namespace HeMem

open Hoare Function

/-- Where the policy thread stands in a pass. -/
inductive PassPhase
  | drain (phase : DrainPhase)
  /-- at the head of a loop over a request ring, with so many requests counted -/
  | requests (hot : Bool) (reqs : ℕ)
  /-- before `if (!page->present)` -/
  | readPresent (hot : Bool) (reqs : ℕ) (page : PageId)
  /-- before the assertion that a page not present is on the free list of its tier -/
  | checkFree (hot : Bool) (reqs : ℕ) (page : PageId)
  /-- before `update_current_cool_page` -/
  | note (hot : Bool) (reqs : ℕ) (page : PageId)
  /-- in `make_hot` or `make_cold`, before `page_list_remove_page` -/
  | unlist (hot : Bool) (reqs : ℕ) (page : PageId)
  /-- before `enqueue_fifo` -/
  | enlist (hot : Bool) (reqs : ℕ) (dram : Bool) (page : PageId)
  | migrate (phase : MigratePhase)
  /-- before `partial_cool` -/
  | cool (dram : Bool)
  /-- in its loop, before `next_page` -/
  | coolNext (dram : Bool) (turns : ℕ) (current : Option PageId)
  /-- with the page come to, before `page_list_remove_page` -/
  | coolPage (dram : Bool) (turns : ℕ) (p : PageId)
  /-- before `enqueue_fifo(cold, p)` -/
  | coolEnlist (dram : Bool) (turns : ℕ) (current : Option PageId) (p : PageId)
  deriving DecidableEq

/-- Where the sampler stands with a sample of type `j`. -/
inductive SamplePhase
  | idle
  /-- before `page->ring_present = true` -/
  | setFlag (j : PbufType) (hot : Bool) (page : PageId)
  /-- before `ring_buf_put` -/
  | put (j : PbufType) (hot : Bool) (page : PageId)
  /-- before the counters are shifted -/
  | shift (j : PbufType) (page : PageId)
  deriving DecidableEq

/-- The free page that the migration loop has in its hands. -/
def MigratePhase.spare : MigratePhase → List PageId
  | moveUp _ np _ | freeNvm _ np _ | moveDown _ _ np _ _ | freeDram _ np _ _ => [np]
  | _ => []

/-- The page not in use that the policy thread has, free or on its way to a free list. -/
def PassPhase.vacant : PassPhase → List PageId
  | drain (.unlist p) | drain (.free p) => [p]
  | migrate phase => phase.spare
  | _ => []

section Program

/-- What `pebs_scan_thread` does with a sample once it has made a request or none. -/
def shiftSample (j : PbufType) (page : PageId) : M Unit := do
  let clock := (← get).globalClock
  modifyPage page fun p => { p with
    accesses := fun i => p.accesses i >>> (clock - p.localClock)
    localClock := clock }
  if (← getPage page).accesses j > pebsCoolingThreshold then
    modify fun s => { s with
      globalClock := s.globalClock + 1, needCoolDram := true, needCoolNvm := true }

/-- The assertion on a page taken from a request ring that was not present. -/
def checkFree (page : PageId) : M Unit := do
  let p ← getPage page
  check ((← getList page) = some (freeList p.inDram)) .requestList

/-- What the policy thread does with a present page before `make_hot` or `make_cold`. -/
def noteRequest (page : PageId) : M Unit := do
  updateCurrentCoolPage page
  modifyPage page ({ · with ringPresent := false })

/-- `make_hot` for `hot`, else `make_cold`, up to `page_list_remove_page`: the tier of the list the
page was taken off, if it was. -/
def unlistRequest (hot : Bool) (page : PageId) : M (Option Bool) := do
  let p ← getPage page
  check (p.va ≠ 0) (if hot then .makeHotVa else .makeColdVa)
  if p.hot = hot then
    check ((← getList page) = some (usedList p.inDram hot))
      (if hot then .makeHotList else .makeColdList)
    return none
  else
    check ((← getList page) = some (usedList p.inDram !hot))
      (if hot then .makeHotList else .makeColdList)
    onFifo (pageListRemovePage (usedList p.inDram !hot) page)
    return some p.inDram

/-- The rest of it. -/
def enlistRequest (hot dram : Bool) (page : PageId) : M Unit := do
  modifyPage page ({ · with hot := hot })
  onFifo (enqueueFifo (usedList dram hot) page)

/-- `partial_cool` up to its loop: whether it comes to it. -/
def startCool (dram : Bool) : M Bool := do
  if dram && !(← get).needCoolDram then
    return false
  if !dram && !(← get).needCoolNvm then
    return false
  if (← get).startDramPage = none ∧ dram then
    modify fun s => { s with startDramPage := (s.fifo.list (hotList dram)).last }
  if (← get).startNvmPage = none ∧ !dram then
    modify fun s => { s with startNvmPage := (s.fifo.list (hotList dram)).last }
  return true

/-- The body of the loop of `partial_cool` before `if (!p->hot)`. -/
def coolMark (dram : Bool) (p : PageId) : M Unit := do
  check ((← getPage p).inDram = dram) .coolInDram
  let clock := (← get).globalClock
  modifyPage p fun q =>
    let tmpAccesses := fun j => q.accesses j >>> (clock - q.localClock)
    if tmpAccesses .dramread + tmpAccesses .nvmread < hotReadThreshold then
      { q with hot := false }
    else q
  if dram && (← get).startDramPage = some p then
    modify ({ · with startDramPage := none, needCoolDram := false })
  if !dram && (← get).startNvmPage = some p then
    modify ({ · with startNvmPage := none, needCoolNvm := false })

/-- The body up to `page_list_remove_page`: `p->next` if the page was taken off its list. -/
def coolUnlist (dram : Bool) (p : PageId) : M (Option (Option PageId)) := do
  coolMark dram p
  if !(← getPage p).hot then
    let current := ((← get).fifo.node p).next
    onFifo (pageListRemovePage (hotList dram) p)
    return some current
  else
    return none

end Program

/-- The loop over the hot ring is followed by that over the cold ring, and that by the migration
loop. -/
def afterRequests (hot : Bool) : PassPhase := if hot then .requests false 0 else .migrate (.next 0)

/-- Where the policy thread stands after a step of the migration loop: with `goto out` it skips the
cooling. -/
def afterMigrate : MigratePhase → MigratePhase → PassPhase
  | .putBack _, _ => .drain .head
  | _, .out => .cool true
  | _, phase => .migrate phase

def afterCool (dram : Bool) : PassPhase := if dram then .cool false else .drain .head

structure PassRace (T : Type) where
  state : State
  policy : PassPhase
  sampler : SamplePhase
  allocator : T → AllocPhase
  /-- removed since the policy thread last found the free-page ring empty -/
  removed : PageId → Bool

variable {T : Type} [DecidableEq T]

namespace PassRace

variable (cfg : Config) (s : PassRace T) (t : T)

/-- The policy thread goes on where `m` leaves it, if it fails no assertion. -/
def policyDoes {α : Type} (m : M α) (k : α → PassPhase) : Option (PassRace T) :=
  (m s.state).toOption.map fun r => { s with state := r.2, policy := k r.1 }

def policyStep : Option (PassRace T) :=
  match s.policy with
  | .drain .head => (takeFree s.state).toOption.map fun r => match r.1 with
      | none => { s with state := r.2, policy := .requests true 0, removed := fun _ => false }
      | some p => { s with state := r.2, policy := .drain (.unlist p) }
  | .drain (.unlist p) => s.policyDoes (unlistPage p) fun _ => .drain (.free p)
  | .drain (.free p) => s.policyDoes (freePage p) fun _ => .drain .head
  | .requests hot reqs =>
    if reqs < ringReqsThreshold hot then
      s.policyDoes (takeRequest hot) fun
        | none => afterRequests hot
        | some p => .readPresent hot reqs p
    else some { s with policy := afterRequests hot }
  | .readPresent hot reqs p => some { s with
      policy := if (s.state.page p).present then .note hot reqs p else .checkFree hot reqs p }
  | .checkFree hot reqs p => s.policyDoes (checkFree p) fun _ => .requests hot reqs
  | .note hot reqs p => s.policyDoes (noteRequest p) fun _ => .unlist hot (reqs + 1) p
  | .unlist hot reqs p => s.policyDoes (unlistRequest hot p) fun
      | none => .requests hot reqs
      | some dram => .enlist hot reqs dram p
  | .enlist hot reqs dram p => s.policyDoes (enlistRequest hot dram p) fun _ => .requests hot reqs
  | .migrate phase => (MigrateRace.policyStep cfg ⟨s.state, phase, s.allocator⟩).map fun r =>
      { s with state := r.state, policy := afterMigrate phase r.policy }
  | .cool dram => s.policyDoes (startCool dram) fun begun =>
      if begun then .coolNext dram coolingPages (s.state.cur dram) else afterCool dram
  | .coolNext dram 0 current => some { s with
      state := s.state.setCur dram current, policy := afterCool dram }
  | .coolNext dram (turns + 1) current =>
    (onFifo (nextPage (hotList dram) current) s.state).toOption.map fun r => match r.1 with
      | none => { s with state := r.2.setCur dram current, policy := afterCool dram }
      | some p => { s with state := r.2, policy := .coolPage dram turns p }
  | .coolPage dram turns p => s.policyDoes (coolUnlist dram p) fun
      | none => .coolNext dram turns (some p)
      | some current => .coolEnlist dram turns current p
  | .coolEnlist dram turns current p => s.policyDoes (onFifo (enqueueFifo (coldList dram) p))
      fun _ => .coolNext dram turns current

def allocatorStep : Option (PassRace T) :=
  (MigrateRace.allocatorStep ⟨s.state, .out, s.allocator⟩ t).map fun r =>
    { s with state := r.state, allocator := r.allocator }

/-- The sampler goes on where `m` leaves it. -/
def samplerDoes (m : M Unit) (r : SamplePhase) : Option (PassRace T) :=
  (m s.state).toOption.map fun u => { s with state := u.2, sampler := r }

def samplerStep : Option (PassRace T) :=
  match s.sampler with
  | .idle => none
  | .setFlag j hot page =>
    s.samplerDoes (modifyPage page ({ · with ringPresent := true })) (.put j hot page)
  | .put j hot page => s.samplerDoes
      (modify fun s => s.setRequestRing hot (ringBufPut (s.requestRing hot) page)) (.shift j page)
  | .shift j page => s.samplerDoes (shiftSample j page) .idle

end PassRace

inductive PassAct (T : Type)
  | policy
  /-- the next step of a thread in `pebs_pagefault`, or its next call -/
  | allocator (t : T)
  /-- the sampler counts a sample and decides on a request -/
  | sample (j : PbufType) (page : PageId)
  | sampler
  /-- `pebs_remove_page` -/
  | remove (page : PageId)
  /-- `page->va` is written, as after `pagefault` -/
  | setVa (page : PageId) (va : UInt64)

namespace PassAct

variable (cfg : Config) (s : PassRace T)

def next : PassAct T → Option (PassRace T)
  | policy => s.policyStep cfg
  | allocator t => s.allocatorStep t
  | sample j page =>
    if s.sampler = .idle then some { s with
      state := s.state.editPage page fun p => if p.va ≠ 0 then p.counted j else p
      sampler := if (s.state.page page).va = 0 then .idle else
        match s.state.sampleRequests j page with
        | none => .shift j page
        | some hot => .setFlag j hot page }
    else none
  | sampler => s.samplerStep
  | remove page => (pebsRemovePage page s.state).toOption.map fun r =>
      { s with state := r.2, removed := update s.removed page true }
  | setVa page va => some { s with state := s.state.editPage page ({ · with va := va }) }

/-- A page sampled is one that `pebs_init` made, and a page removed is present. -/
def Legal : PassAct T → Prop
  | sample _ page => page < cfg.pages
  | remove page => (s.state.page page).present = true
  | _ => True

instance : (a : PassAct T) → Decidable (a.Legal cfg s)
  | sample _ page => inferInstanceAs (Decidable (page < cfg.pages))
  | remove page => inferInstanceAs (Decidable ((s.state.page page).present = true))
  | policy => .isTrue trivial
  | allocator _ => .isTrue trivial
  | sampler => .isTrue trivial
  | setVa _ _ => .isTrue trivial

end PassAct

/-- Where a page not in use may be: on a free list, in the free-page ring, with the policy thread or
with a thread that is about to hand it out. -/
inductive Vacancy (T : Type)
  | free (dram : Bool)
  | ring
  | policy
  | thread (t : T)

def Vacancy.Has (s : PassRace T) (p : PageId) : Vacancy T → Prop
  | free dram => s.state.fifo.listOf p = some (freeList dram)
  | ring => p ∈ s.state.freePageRing.entries
  | policy => p ∈ s.policy.vacant
  | thread t => (s.allocator t).page = some p

namespace PassRace

variable (n : ℕ) (s : PassRace T)

/-- Pages are on lists of their tiers, and each of the `n` pages is present or in exactly one of the
places for pages not in use.  A page about to be handed out, and one the cooling has come to, is in
the tier that the code asserts. -/
structure Sorted : Prop where
  tier : ∀ p q, s.state.fifo.listOf p = some q → (s.state.page p).inDram = q.dram
  used : ∀ p, (s.state.page p).present = true → ∀ v : Vacancy T, ¬ v.Has s p
  vacant : ∀ p < n, (s.state.page p).present = false → ∃ v : Vacancy T, v.Has s p
  alone : ∀ p (v w : Vacancy T), v.Has s p → w.Has s p → v = w
  once : s.state.freePageRing.entries.Nodup
  handed : ∀ t dram p, s.allocator t = .put dram p → (s.state.page p).inDram = dram
  cooled : ∀ dram turns p, s.policy = .coolPage dram turns p → (s.state.page p).inDram = dram

/-- No thread has begun and no page waits in a ring; each page is present, or on a free list and not
present, and is on lists of its tier only.  None is enforced. -/
structure Starts : Prop where
  good : s.state.fifo.Wf ∧ s.state.freePageRing.Wf ∧ ∀ hot, (s.state.requestRing hot).Wf
  rings : s.state.freePageRing.entries = [] ∧ ∀ hot, (s.state.requestRing hot).entries = []
  tier : ∀ p q, s.state.fifo.listOf p = some q → (s.state.page p).inDram = q.dram
  free : ∀ p q, s.state.fifo.listOf p = some q → q.kind = .free → (s.state.page p).present = false
  used : ∀ p < n, (s.state.page p).present = false →
    ∃ dram, s.state.fifo.listOf p = some (freeList dram)
  plain : ∀ p, (s.state.page p).enforced = false
  policy : s.policy = .drain .head
  sampler : s.sampler = .idle
  allocator : ∀ t, s.allocator t = .idle

end PassRace

/-- The policy thread, the sampler and any number of threads that allocate pages. -/
def passRace (T : Type) [DecidableEq T] (cfg : Config) : System (PassRace T) (PassAct T) where
  init s := s.Starts cfg.pages
  step s a s' := a.next cfg s = some s'

end HeMem

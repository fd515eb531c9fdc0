import HeMem.Lib.Transition
import HeMem.View

/-!
# The sampler beside the policy thread's request loops

The sampler reads `hot` and `ring_present`, sets `ring_present` and puts the page into a request
ring; the policy thread gets it out, reads `present` and clears `ring_present`.  Each of these is a
step of its own.  No other code touches the request rings or `ring_present`, and whatever it does
besides (removals, reallocations, list operations, migrations) may happen at any time.
-/

namespace HeMem

open Function

/-- Where the sampler stands. -/
inductive SamplerPhase
  | idle
  /-- before `page->ring_present = true` -/
  | setFlag (hot : Bool) (page : PageId)
  /-- before `ring_buf_put` -/
  | put (hot : Bool) (page : PageId)
  deriving DecidableEq

/-- Where the policy thread stands in its two request loops. -/
inductive ServePhase
  | idle
  /-- before `if (!page->present)` -/
  | readPresent (page : PageId)
  /-- before `page->ring_present = false` -/
  | clearFlag (page : PageId)
  deriving DecidableEq

/-- The page the sampler is about to put. -/
def SamplerPhase.putting : SamplerPhase → Option PageId
  | put _ page => some page
  | _ => none

/-- The page the policy thread has taken from a ring. -/
def ServePhase.serving : ServePhase → Option PageId
  | idle => none
  | readPresent page | clearFlag page => some page

def State.editPage (s : State) (page : PageId) (f : HememPage → HememPage) : State :=
  { s with page := update s.page page (f (s.page page)) }

/-- The request rings and all `ring_present` are the same. -/
structure State.SameRequests (s t : State) : Prop where
  flag : ∀ page, (t.page page).ringPresent = (s.page page).ringPresent
  ring : ∀ hot, t.requestRing hot = s.requestRing hot

structure RequestRace where
  state : State
  sampler : SamplerPhase
  policy : ServePhase
  /-- all pages put into a ring, and all pages taken from it -/
  puts : Bool → List PageId
  gets : Bool → List PageId

inductive RequestAct
  /-- the sampler counts a sample and decides on a request -/
  | sample (j : PbufType) (page : PageId)
  | sampler
  /-- the policy thread comes to the head of a request loop -/
  | get (hot : Bool)
  | policy
  /-- anything else -/
  | other (state : State)

namespace RequestRace

variable (s : RequestRace)

/-- The next step of the sampler on its way to a request. -/
def samplerStep : Option RequestRace :=
  match s.sampler with
  | .idle => none
  | .setFlag hot page => some { s with
      state := s.state.editPage page ({ · with ringPresent := true })
      sampler := .put hot page }
  | .put hot page => some { s with
      state := s.state.setRequestRing hot (ringBufPut (s.state.requestRing hot) page)
      sampler := .idle
      puts := update s.puts hot (s.puts hot ++ [page]) }

/-- The next step of the policy thread with a page it has taken. -/
def policyStep : Option RequestRace :=
  match s.policy with
  | .idle => none
  | .readPresent page => some { s with
      policy := if (s.state.page page).present then .clearFlag page else .idle }
  | .clearFlag page => some { s with
      state := s.state.editPage page ({ · with ringPresent := false })
      policy := .idle }

end RequestRace

namespace RequestAct

variable (n : ℕ) (s : RequestRace)

def next : RequestAct → Option RequestRace
  | sample j page =>
    if s.sampler = .idle then some { s with
      state := s.state.editPage page fun p => if p.va ≠ 0 then p.counted j else p
      sampler := match s.state.sampleRequests j page with
        | none => .idle
        | some hot => .setFlag hot page }
    else none
  | sampler => s.samplerStep
  | get hot =>
    if s.policy = .idle then
      match ringBufGet (s.state.requestRing hot) with
      | (none, _) => some s
      | (some page, ring) => some { s with
          state := s.state.setRequestRing hot ring
          policy := .readPresent page
          gets := update s.gets hot (s.gets hot ++ [page]) }
    else none
  | policy => s.policyStep
  | other state => some { s with state := state }

/-- There are `n` page structs, and what other code does leaves requests alone. -/
def Legal : RequestAct → Prop
  | sample _ page => page < n
  | other state => s.state.SameRequests state
  | _ => True

end RequestAct

/-- The two request rings are new and no `ring_present` is set. -/
structure RequestRace.Starts (capacity : ℕ) (s : RequestRace) : Prop where
  ring : ∀ hot, ∃ buffer, ringBufInit buffer capacity = some (s.state.requestRing hot)
  flag : ∀ page, (s.state.page page).ringPresent = false
  sampler : s.sampler = .idle
  policy : s.policy = .idle
  puts : s.puts = fun _ => []
  gets : s.gets = fun _ => []

end HeMem

import HeMem.Pebs

/-!
# Cooling sweeps

`partial_cool` of the `COOL_IN_PLACE` build, called again and again with the cursor it returns, and
with nothing else going on.  A sweep goes from the end of a hot list to its start, at most
`COOLING_PAGES` pages a call, and is over when it meets the page remembered as its start.
-/

namespace HeMem

open Hoare

section Sweeps

/-- `need_cool_dram` or `need_cool_nvm` -/
def State.needCool (s : State) (dram : Bool) : Bool := if dram then s.needCoolDram else s.needCoolNvm

/-- `start_dram_page` or `start_nvm_page` -/
def State.startPage (s : State) (dram : Bool) : Option PageId :=
  if dram then s.startDramPage else s.startNvmPage

/-- Where no start page is remembered, it is the last of the hot list. -/
def State.begun (t : State) (hot : ListId) (dram : Bool) : State :=
  if t.startPage dram = none then
    if dram then { t with startDramPage := (t.fifo.list hot).last }
    else { t with startNvmPage := (t.fifo.list hot).last }
  else t

/-- A call of `partial_cool` for a tier. -/
def coolCall (dram : Bool) : M Unit := do
  let current ← partialCool (hotList dram) (coldList dram) dram ((← get).cur dram)
  modify (·.setCur dram current)

def coolCalls (dram : Bool) : ℕ → M Unit
  | 0 => return
  | k + 1 => do
    coolCalls dram k
    coolCall dram

/-- The decayed count of the page is below the threshold. -/
def HememPage.Cools (p : HememPage) (clock : UInt64) : Prop :=
  p.accesses .dramread >>> (clock - p.localClock) + p.accesses .nvmread >>> (clock - p.localClock) <
    hotReadThreshold

namespace State

variable (s : State) (dram : Bool)

/-- The pages the sweep has yet to come to, in the order in which it does. -/
def ahead : List PageId :=
  match s.cur dram with
  | none => (s.fifo.contents (hotList dram)).reverse
  | some c => ((s.fifo.contents (hotList dram)).takeWhile (· ≠ c)).reverse

/-- The page at which the sweep ends: the one remembered, or else the last of the hot list. -/
def sweepEnd : Option PageId :=
  (s.startPage dram).or (s.fifo.contents (hotList dram)).getLast?

/-- After some call the flag is clear for the first time, and then all pages of the hot list that
cool are on the cold list. -/
def Completes : Prop :=
  ∃ k t, coolCalls dram (k + 1) s = .ok ((), t) ∧ t.needCool dram = false ∧
    (∀ j ≤ k, ∀ u, coolCalls dram j s = .ok ((), u) → u.needCool dram = true) ∧
    ∀ p ∈ s.fifo.contents (hotList dram), (s.page p).Cools s.globalClock →
      p ∈ t.fifo.contents (coldList dram)

/-- The end of the sweep lies ahead, and the pages that cool lie ahead too and not after the calls
up to the one that comes to the end. -/
def EndAhead : Prop :=
  ∃ k, ∃ e ∈ ((s.ahead dram).drop (k * coolingPages)).take coolingPages,
    s.sweepEnd dram = some e ∧
      ∀ p ∈ s.fifo.contents (hotList dram), (s.page p).Cools s.globalClock →
        p ∈ (s.ahead dram).take ((k + 1) * coolingPages)

end State

end Sweeps

end HeMem

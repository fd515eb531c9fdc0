import Mathlib.Data.List.Rotate
import HeMem.Sweep

/-!
# Cooling by rotation

`partial_cool` as it is built without `COOL_IN_PLACE`: each page is taken off the end of the hot
list and put at the start of the hot list or of the cold one, and no cursor is kept.
-/

namespace HeMem

open Hoare

namespace Rotating

/-- What `partial_cool` does with one page. -/
def coolPage (hot cold : ListId) (dram : Bool) (p : PageId) : M Unit := do
  check ((← getPage p).inDram = dram) .coolInDram
  let clock := (← get).globalClock
  modifyPage p fun q =>
    let tmpAccesses := fun j => q.accesses j >>> (clock - q.localClock)
    if tmpAccesses .dramread + tmpAccesses .nvmread < hotReadThreshold then
      { q with hot := false }
    else q
  if dram && (← get).startDramPage = some p then
    modify ({ · with startDramPage := none, needCoolDram := false })
  if !dram && (← get).startNvmPage = some p then
    modify ({ · with startNvmPage := none, needCoolNvm := false })
  if (← getPage p).hot then
    onFifo (enqueueFifo hot p)
  else
    onFifo (enqueueFifo cold p)

/-- The loop of `partial_cool`. -/
def coolLoop (hot cold : ListId) (dram : Bool) : ℕ → M Unit
  | 0 => return
  | turns + 1 => do
    match ← onFifo (dequeueFifo hot) with
    | none => return
    | some p =>
      coolPage hot cold dram p
      coolLoop hot cold dram turns

def partialCool (hot cold : ListId) (dram : Bool) : M Unit := do
  if dram && !(← get).needCoolDram then
    return
  if !dram && !(← get).needCoolNvm then
    return
  if (← get).startDramPage = none ∧ dram then
    modify fun s => { s with startDramPage := (s.fifo.list hot).last }
  if (← get).startNvmPage = none ∧ !dram then
    modify fun s => { s with startNvmPage := (s.fifo.list hot).last }
  coolLoop hot cold dram coolingPages

end Rotating

section Builds

/-- The two builds leave the same cold list, flags and start pages, and one hot list is a rotation
of the other. -/
structure SameCooling (hot cold : ListId) (t u : State) : Prop where
  cold : t.fifo.contents cold = u.fifo.contents cold
  rotated : t.fifo.contents hot ~r u.fifo.contents hot
  hot : ∀ p, (t.page p).hot = (u.page p).hot
  need : ∀ dram, t.needCool dram = u.needCool dram
  start : ∀ dram, t.startPage dram = u.startPage dram

/-- Both builds return, or the same assertion stops both. -/
def SameOutcome (hot cold : ListId) :
    Except Abort (Option PageId × State) → Except Abort (Unit × State) → Prop
  | .ok (_, t), .ok (_, u) => SameCooling hot cold t u
  | .error e, .error e' => e = e'
  | _, _ => False

end Builds

end HeMem

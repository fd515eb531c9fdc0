import HeMem.Mmap
import HeMem.View

/-!
# The system calls the library intercepts, in `interpose.c`

An `mmap` with the file descriptor -420 maps nothing: its further arguments are the hints.  Other
calls of `mmap` that HeMem takes go to `hemem_mmap`, and those of `munmap` to `hemem_munmap`.
-/

namespace HeMem

open Hoare

def hintFd : Int32 := -420

def mapAnonymous : Int32 := 0x20

def mapStack : Int32 := 0x20000

def protExec : Int32 := 4

def sysMmap : Int64 := 9

def sysMunmap : Int64 := 11

/-- The globals that decide where a call goes. -/
structure Library where
  isInit : Bool
  internalCall : Bool
  dramfd : Int32
  nvmfd : Int32

/-- What the kernel does for the call, should it come to that: what `libc_mmap` returns, and whether
`libc_munmap` succeeds. -/
structure Answer where
  mapped : UInt64
  unmaps : Bool

variable (cfg : Config) (lib : Library) (answer : Answer)

/-- Whether the call is forwarded, and the result of one that is not. -/
def mmapFilter (_addr length : UInt64) (prot flags fd : Int32) (offset : Int64)
    (tierCode persistence priority : Int32) : M (Bool × Option UInt64) := do
  if fd = hintFd then
    modify ({ · with
      userHintTier := tierCode.toInt
      userHintPersistence := persistence.toInt
      userHintPriority := priority.toInt })
    return (false, none)
  if !lib.isInit then
    return (true, none)
  if lib.internalCall then
    return (true, none)
  if flags &&& mapAnonymous ≠ mapAnonymous ∧ ¬ (fd = lib.dramfd ∨ fd = lib.nvmfd) then
    return (true, none)
  if prot &&& protExec = protExec then
    return (true, none)
  if flags &&& mapStack = mapStack then
    return (true, none)
  if fd = lib.dramfd ∨ fd = lib.nvmfd then
    return (true, none)
  if length < 1024 * 1024 * 1024 then
    return (true, none)
  let p ← hememMmap cfg length offset.toUInt64 answer.mapped
  return (false, some p)

def munmapFilter (addr length : UInt64) : M (Bool × Option UInt64) := do
  if lib.internalCall then
    return (true, none)
  hememMunmap addr length answer.unmaps
  return (false, some (if answer.unmaps then 0 else -1))

/-- `(arg != 0) ? (int)arg : default` -/
def argOr (arg : Int64) (default : Int32) : Int32 := if arg ≠ 0 then arg.toInt32 else default

/-- Whether the call is forwarded to the kernel, and the result of one that is not. -/
def hook (syscallNumber arg0 arg1 arg2 arg3 arg4 arg5 arg6 arg7 arg8 : Int64) :
    M (Bool × Option UInt64) := do
  if syscallNumber = sysMmap then
    mmapFilter cfg lib answer arg0.toUInt64 arg1.toUInt64 arg2.toInt32 arg3.toInt32 arg4.toInt32
      arg5 (argOr arg6 (-1)) (argOr arg7 0) (argOr arg8 0)
  else if syscallNumber = sysMunmap then
    munmapFilter lib answer arg0.toUInt64 arg1.toUInt64
  else
    return (true, none)

section Hints

variable {cfg}

/-- The call maps no page and is no hint. -/
def Call.MapsNothing : Call → Prop
  | hint _ _ _ | mmap _ _ _ | populate _ _ | missingFault _ => False
  | _ => True

variable (cfg) in
/-- The calls from the state `s` on. -/
def hememFrom (s : State) : System Memory Call where
  init m := m.state = s
  step m c m' := c.run cfg m.state = .ok ((), m'.state) ∧ m'.written = c.writes m.state m.written

/-- `page` is where the hint for DRAM wants it, as persistent and as hot as asked. -/
structure State.Honours (s : State) (persistence priority : Int64) (page : PageId) : Prop where
  inDram : (s.page page).inDram = true
  enforced : (s.page page).enforced = true ↔ persistence = 1
  hot : s.fifo.listOf page = some .dramHot ↔ priority = 1

/-- What the next `n` pages of DRAM free would have to be like. -/
def State.Suits (s : State) (persistence priority : Int64) (n : ℕ) : Prop :=
  priority ≠ 1 ∧ ∀ page ∈ s.freePages.take n, (s.page page).enforced = true ↔ persistence = 1

instance (s : State) (persistence priority : Int64) (n : ℕ) :
    Decidable (s.Suits persistence priority n) := by
  unfold State.Suits
  infer_instance

end Hints

end HeMem

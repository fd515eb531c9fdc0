import HeMem.FlexKvs.CleanRace

/-!
# `bench/main.c`

`kvsbench` has the store in its own process: its threads load the keys, wait for each other, and
then draw requests, each of which calls `hasht_get`, `hasht_put` and `ialloc_alloc` itself.  These
calls are one step each, and each byte of a value that is copied is a step.  `clean_log` finds
nothing in the cleanup queue, which `ialloc_maintenance` alone fills and nothing calls here.
-/

namespace FlexKvs

open Function

/-- `enum benchmark_phase` -/
inductive BenchmarkPhase
  | init
  | preload
  | warmup
  | running
  | dynHotset
  | cooldown
  | done
  deriving DecidableEq

def BenchmarkPhase.val : BenchmarkPhase → ℕ
  | init => 0
  | preload => 1
  | warmup => 2
  | running => 3
  | dynHotset => 4
  | cooldown => 5
  | done => 6

/-- The settings that the threads read, with the keys of both workloads. -/
structure BenchSettings where
  threads : ℕ
  keys : List (List UInt8)
  valuesize : ℕ
  skipLoad : Bool

/-- Where a thread stands in `set_request` or in `get_request`, with the key. -/
inductive BenchCall
  /-- SET, before `hasht_get` -/
  | find (key : List UInt8)
  /-- before `ialloc_alloc` -/
  | make (key : List UInt8)
  /-- before `hasht_put` -/
  | put (it : ℕ) (key : List UInt8)
  /-- before `assert(it == hasht_get(k->key, kl, h))` -/
  | check (it : ℕ) (key : List UInt8)
  /-- before the first `item_unref` of two -/
  | unrefNew (it : ℕ) (key : List UInt8)
  /-- before the fields of the item found -/
  | fields (it : ℕ) (key : List UInt8)
  /-- the bytes at `todo` are not written yet -/
  | store (it : ℕ) (key : List UInt8) (todo : List ℕ)
  /-- before the last `item_unref` -/
  | unref (it : ℕ) (key : List UInt8)
  /-- GET, before `hasht_get` -/
  | look (key : List UInt8)
  /-- the bytes at `todo` are not read yet -/
  | copy (it : ℕ) (key : List UInt8) (todo : List ℕ)
  /-- before `item_unref` -/
  | answer (it : ℕ) (key : List UInt8)
  deriving DecidableEq

namespace BenchCall

def key : BenchCall → List UInt8
  | find key | make key | put _ key | check _ key | unrefNew _ key | fields _ key | store _ key _
  | unref _ key | look key | copy _ key _ | answer _ key => key

/-- The items that it has references to, each as often as it has one. -/
def items : BenchCall → List ℕ
  | unrefNew it _ => [it, it]
  | put it _ | check it _ | fields it _ | store it _ _ | unref it _ => [it]
  | copy it _ _ | answer it _ => [it]
  | find _ | make _ | look _ => []

end BenchCall

/-- Where a thread stands in `thread_run`. -/
inductive CorePhase
  /-- `while (phase < BENCHMARK_PRELOAD)` -/
  | start
  /-- `load_keys`, at `while (i < workload1.keys_num)` -/
  | load (i : ℕ)
  /-- before `__sync_fetch_and_add(&init_count, 1)` -/
  | loaded
  /-- `while (phase < BENCHMARK_RUNNING)` -/
  | ready
  /-- `while (phase == BENCHMARK_RUNNING || phase == BENCHMARK_DYN_HOTSET)` -/
  | run
  | done
  deriving DecidableEq

/-- A SET, and which SETs had ended when it began. -/
structure SetRecord where
  key : List UInt8
  value : List UInt8
  seen : List ℕ

/-- `struct core`, with the buffer of its first connection. -/
structure Core where
  phase : CorePhase := .start
  call : Option BenchCall := none
  txBuf : ℕ → UInt8
  /-- the number of its last SET -/
  turn : ℕ := 0
  /-- which SETs had ended when its last GET began -/
  seen : List ℕ := []

namespace Core

variable (st : BenchSettings) (c : Core) (key : List UInt8)

/-- Where the byte `j` of the value of a SET is, after a `protocol_binary_request_set`. -/
def setAt (j : ℕ) : ℕ := 32 + key.length + j

def setValue : List UInt8 := (List.range st.valuesize).map fun j => c.txBuf (setAt key j)

/-- Where the byte `j` of the value goes in a GET, after a `protocol_binary_request_get`. -/
def getAt (j : ℕ) : ℕ := 24 + j

def items : List ℕ := c.call.elim [] BenchCall.items

end Core

/-- The globals and the threads, and beside them the SETs that have begun and those that have
ended. -/
structure Bench (n : ℕ) where
  table : Hasht := {}
  phase : BenchmarkPhase := .init
  initCount : UInt16 := 0
  core : Fin n → Core
  sets : List SetRecord := []
  ended : List ℕ := []

/-- `workload_op` draws the key and the operation of a `send`. -/
inductive BenchAct (n : ℕ)
  | main
  /-- the time for `BENCHMARK_DYN_HOTSET` or for `BENCHMARK_COOLDOWN` has come -/
  | dynHotset
  | cooldown
  /-- a step of a thread; `junk` is what lies behind a value -/
  | core (i : Fin n) (fresh : Option ℕ) (junk : ℕ → UInt8)
  | send (i : Fin n) (get : Bool) (k : ℕ)
  /-- a byte of `memcpy` -/
  | byte (i : Fin n) (j : ℕ)

namespace Bench

variable {n : ℕ} (jenkinsHash : List UInt8 → UInt32) (nbuckets : ℕ) (st : BenchSettings)
  (s : Bench n) (i : Fin n)

def setCore (c : Core) : Bench n := { s with core := update s.core i c }

def setCall (call : Option BenchCall) : Bench n := s.setCore i { s.core i with call }

/-- The entry of `set_request`. -/
def setRequest (key : List UInt8) : Bench n :=
  { s.setCore i { s.core i with call := some (.find key), turn := s.sets.length } with
    sets := s.sets ++ [⟨key, (s.core i).setValue st key, s.ended⟩] }

/-- The entry of `get_request`. -/
def getRequest (key : List UInt8) : Bench n :=
  s.setCore i { s.core i with call := some (.look key), seen := s.ended }

/-- A step of `main`. -/
def mainStep : Bench n :=
  match s.phase with
  | .init => { s with phase := .preload }
  | .preload => { s with phase := .warmup }
  | .warmup => if s.initCount.toNat < n then s else { s with phase := .running }
  | .cooldown =>
    if (List.finRange n).all fun i => (s.core i).phase = .done then { s with phase := .done } else s
  | .running | .dynHotset | .done => s

/-- A step of `thread_run` between requests. -/
def threadStep : Bench n :=
  let c := s.core i
  match c.phase with
  | .start =>
    if s.phase.val < BenchmarkPhase.preload.val then s
    else s.setCore i { c with phase := if st.skipLoad then .loaded else .load i }
  | .load k =>
    match st.keys[k]? with
    | some key => (s.setCore i { c with phase := .load (k + n) }).setRequest st i key
    | none => s.setCore i { c with phase := .loaded }
  | .loaded => { s.setCore i { c with phase := .ready } with initCount := s.initCount + 1 }
  | .ready =>
    if s.phase.val < BenchmarkPhase.running.val then s else s.setCore i { c with phase := .run }
  | .run =>
    if s.phase = .running ∨ s.phase = .dynHotset then s else s.setCore i { c with phase := .done }
  | .done => s

/-- A step of `set_request` or of `get_request`. -/
def callStep (fresh : Option ℕ) (junk : ℕ → UInt8) : BenchCall → Except Fault (Bench n)
  | .find key => do
    match ← s.table.hashtGet key (jenkinsHash key) nbuckets with
    | (some it, table) => return { s with table }.setCall i (some (.fields it key))
    | (none, table) => return { s with table }.setCall i (some (.make key))
  | .make key =>
    match fresh with
    | none => .error .abort
    | some it =>
      let table := (s.table.allocated it (key.length + st.valuesize)).fill it (jenkinsHash key) key
        ((s.core i).setValue st key)
      .ok ({ s with table }.setCall i (some (.put it key)))
  | .put it key => do
    let table ← s.table.hashtPut nbuckets it none
    return { s with table }.setCall i (some (.check it key))
  | .check it key => do
    let (found, table) ← s.table.hashtGet key (jenkinsHash key) nbuckets
    if found = some it then return { s with table }.setCall i (some (.unrefNew it key))
    else .error .abort
  | .unrefNew it key => do
    let table ← s.table.itemUnref it
    return { s with table }.setCall i (some (.unref it key))
  | .fields it key => do
    let table ← s.table.rewrite it (jenkinsHash key) key
      (resize (s.table.item it).value st.valuesize junk)
    return { s with table }.setCall i (some (.store it key (List.range st.valuesize)))
  | .store it key todo => .ok (if todo = [] then s.setCall i (some (.unref it key)) else s)
  | .unref it _ => do
    let table ← s.table.itemUnref it
    return { s with table, ended := s.ended ++ [(s.core i).turn] }.setCall i none
  | .look key => do
    match ← s.table.hashtGet key (jenkinsHash key) nbuckets with
    | (some it, table) =>
      let todo := List.range (s.table.item it).value.length
      return { s with table }.setCall i (some (.copy it key todo))
    | (none, table) => return { s with table }.setCall i none
  | .copy it key todo => .ok (if todo = [] then s.setCall i (some (.answer it key)) else s)
  | .answer it _ => do
    let table ← s.table.itemUnref it
    return { s with table }.setCall i none

/-- A byte of the value is written by a SET, or read by a GET. -/
def byteStep (j : ℕ) : Bench n :=
  match (s.core i).call with
  | some (.store it key todo) =>
    match todo[j]? with
    | some b =>
      let table := s.table.setByte it b ((s.core i).txBuf (Core.setAt key b))
      { s with table }.setCall i (some (.store it key (todo.eraseIdx j)))
    | none => s
  | some (.copy it key todo) =>
    match todo[j]? with
    | some b => s.setCore i { s.core i with
        txBuf := update (s.core i).txBuf (Core.getAt b) ((s.table.item it).value.getD b 0)
        call := some (.copy it key (todo.eraseIdx j)) }
    | none => s
  | _ => s

end Bench

namespace BenchAct

variable {n : ℕ} (jenkinsHash : List UInt8 → UInt32) (nbuckets : ℕ) (st : BenchSettings)
  (s : Bench n)

def next : BenchAct n → Except Fault (Bench n)
  | main => .ok s.mainStep
  | dynHotset => .ok (if s.phase = .running then { s with phase := .dynHotset } else s)
  | cooldown =>
    .ok (if s.phase = .running ∨ s.phase = .dynHotset then { s with phase := .cooldown } else s)
  | core i fresh junk =>
    match (s.core i).call with
    | none => .ok (s.threadStep st i)
    | some call => s.callStep jenkinsHash nbuckets st i fresh junk call
  | send i get k =>
    if (s.core i).phase = .run ∧ (s.core i).call.isNone = true ∧
        (s.phase = .running ∨ s.phase = .dynHotset) then
      match st.keys[k]? with
      | some key => .ok (if get then s.getRequest i key else s.setRequest st i key)
      | none => .ok s
    else .ok s
  | byte i j => .ok (s.byteStep i j)

/-- `ialloc_alloc` returns an item that is not allocated. -/
def Legal : BenchAct n → Prop
  | core _ fresh _ => ∀ x ∈ fresh, x ∉ s.table.live
  | _ => True

/-- `ialloc_alloc` is called and returns none. -/
def OutOfMemory : BenchAct n → Prop
  | core i fresh _ => fresh = none ∧ ∃ key, (s.core i).call = some (.make key)
  | _ => False

instance decidableLegal : DecidablePred (Legal s) := fun a => by
  cases a <;> unfold Legal <;> infer_instance

end BenchAct

/-- `main` and its threads, from the creation of the threads on. -/
def bench (jenkinsHash : List UInt8 → UInt32) (nbuckets : ℕ) (st : BenchSettings) :
    System (Bench st.threads) (BenchAct st.threads) where
  init s := ∃ buf : Fin st.threads → ℕ → UInt8, s = { core := fun i => { txBuf := buf i } }
  step s a s' := a.next jenkinsHash nbuckets st s = .ok s'

/-- No key is loaded by two threads. -/
def BenchSettings.Apart (st : BenchSettings) : Prop :=
  ∀ {i j : ℕ} {key}, st.keys[i]? = some key → st.keys[j]? = some key →
    i % st.threads = j % st.threads

namespace Bench

variable {n : ℕ} (jenkinsHash : List UInt8 → UInt32) (nbuckets : ℕ) (s : Bench n)
  (key : List UInt8)

/-- The byte at `j` is that of a SET of the key, and none of `done` is a SET of the key that began
when it had ended. -/
def Regular (sets : List SetRecord) (done : ℕ → Prop) (key : List UInt8) (j : ℕ) (b : UInt8) :
    Prop :=
  ∃ (e : ℕ) (r : SetRecord), sets[e]? = some r ∧ r.key = key ∧ r.value[j]? = some b ∧
    ∀ (e' : ℕ) (r' : SetRecord), done e' → sets[e']? = some r' → r'.key = key → e ∉ r'.seen

/-- `hasht_get` finds the item for the key. -/
def Stores (x : ℕ) : Prop := s.table.find key (jenkinsHash key) nbuckets = .ok (some x)

end Bench

end FlexKvs

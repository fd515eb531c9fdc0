import HeMem.FlexKvs.Server
import HeMem.Lib.Transition

/-!
# `clean_log` beside GET and SET

One worker cleans, any number of others process a GET or a SET each.  `hasht_get` and `hasht_put`
hold the lock of the bucket and are one step each, as are `ialloc_alloc` and `item_unref`.  The
fields of an item are one step, and each byte of a value is a step, in any order.  The bytes of the
key come with the fields: a SET that finds its key writes the bytes that are there.
-/

namespace FlexKvs

open Function

/-- Where a worker stands with a request. -/
inductive WorkPhase
  | idle
  /-- GET, before `hasht_get` -/
  | look (key : List UInt8)
  /-- GET, before `item_unref` -/
  | answer (it : ℕ)
  /-- SET, before `hasht_get` -/
  | find (key value : List UInt8)
  /-- before `ialloc_alloc` -/
  | make (key value : List UInt8)
  /-- before the fields of the item found -/
  | fields (it : ℕ) (key value : List UInt8)
  /-- the bytes at `todo` are not written yet -/
  | store (it : ℕ) (key value : List UInt8) (todo : List ℕ)
  /-- before `hasht_put` -/
  | put (it : ℕ) (key value : List UInt8)
  /-- before `item_unref` -/
  | letGo (it : ℕ) (key value : List UInt8)
  deriving DecidableEq

/-- Where the cleaning worker stands in `clean_log`. -/
inductive CleanPhase
  | idle
  /-- before `if (it->refcount != 1)` -/
  | check (it : ℕ)
  /-- before `ialloc_alloc` -/
  | alloc (it : ℕ)
  /-- before the fields of the new item -/
  | fields (it nit : ℕ)
  /-- before `memcpy` -/
  | copy (it nit : ℕ)
  /-- the bytes at `todo` are not copied yet -/
  | bytes (it nit : ℕ) (todo : List ℕ)
  /-- before `hasht_put` -/
  | put (it nit : ℕ)
  /-- before `item_unref(nit)` -/
  | unrefNew (it nit : ℕ)
  /-- before `item_unref(it)` -/
  | unrefOld (it : ℕ)
  deriving DecidableEq

namespace WorkPhase

/-- The item that it has a reference to. -/
def item : WorkPhase → Option ℕ
  | answer it | fields it _ _ | store it _ _ _ | put it _ _ | letGo it _ _ => some it
  | _ => none

/-- The key of a SET between its `hasht_get` and its end. -/
def sets : WorkPhase → Option (List UInt8)
  | make key _ | fields _ key _ | store _ key _ _ | put _ key _ | letGo _ key _ => some key
  | _ => none

end WorkPhase

namespace CleanPhase

/-- The items that it has references to. -/
def items : CleanPhase → List ℕ
  | idle => []
  | check it | alloc it | unrefOld it => [it]
  | fields it nit | copy it nit | bytes it nit _ | put it nit | unrefNew it nit => [nit, it]

/-- The item that it copies, from `ialloc_alloc` to `hasht_put`. -/
def copies : CleanPhase → Option ℕ
  | fields it _ | copy it _ | bytes it _ _ | put it _ => some it
  | _ => none

end CleanPhase

structure CleanRace where
  table : Hasht := {}
  queue : List ℕ := []
  cleaner : CleanPhase := .idle
  workers : List WorkPhase
  /-- the value of the last completed SET -/
  last : List UInt8 → Option (List UInt8) := fun _ => none

inductive CleanAct
  /-- `ialloc_maintenance` comes to the item -/
  | enqueue (x : ℕ)
  /-- `clean_log` takes an entry of the queue -/
  | take (j : ℕ)
  /-- a step of `clean_log`; `junk` is what lies behind a value -/
  | clean (fresh : Option ℕ) (junk : ℕ → UInt8)
  | copyByte (j : ℕ) (junk : UInt8)
  /-- a worker comes to a request -/
  | get (i : ℕ) (key : List UInt8)
  | set (i : ℕ) (key value : List UInt8)
  /-- a step of a worker -/
  | work (i : ℕ) (fresh : Option ℕ) (junk : ℕ → UInt8)
  | storeByte (i j : ℕ)

/-- A value of another length in the place of `value`. -/
def resize (value : List UInt8) (n : ℕ) (junk : ℕ → UInt8) : List UInt8 :=
  (List.range n).map fun i => value.getD i (junk i)

namespace Hasht

def setByte (s : Hasht) (x i : ℕ) (b : UInt8) : Hasht :=
  s.edit x fun it => { it with value := it.value.set i b }

end Hasht

namespace CleanRace

variable (jenkinsHash : List UInt8 → UInt32) (nbuckets : ℕ) (s : CleanRace)

def cleanStep (fresh : Option ℕ) (junk : ℕ → UInt8) : Except Fault CleanRace :=
  match s.cleaner with
  | .idle => .ok s
  | .check it => .ok { s with
      cleaner := if (s.table.item it).refcount ≠ 1 then .alloc it else .unrefOld it }
  | .alloc it =>
    match fresh with
    | none => .error .abort
    | some nit => .ok { s with
        table := s.table.allocated nit (s.table.item it).bytes
        cleaner := .fields it nit }
  | .fields it nit =>
    let old := s.table.item it
    .ok { s with
      table := s.table.fill nit old.hv old.key
        (resize (s.table.item nit).value old.value.length junk)
      cleaner := .copy it nit }
  | .copy it nit =>
    if (s.table.item it).bytes ≤ (s.table.item nit).room then
      .ok { s with cleaner := .bytes it nit (List.range (s.table.item it).value.length) }
    else .error .wild
  | .bytes it nit todo => .ok (if todo = [] then { s with cleaner := .put it nit } else s)
  | .put it nit => do
    let table ← s.table.hashtPut nbuckets nit (some it)
    return { s with table, cleaner := .unrefNew it nit }
  | .unrefNew it nit => do
    let table ← s.table.itemUnref nit
    return { s with table, cleaner := .unrefOld it }
  | .unrefOld it => do
    let table ← s.table.itemUnref it
    return { s with table, cleaner := .idle }

def setWorker (i : ℕ) (w : WorkPhase) : CleanRace := { s with workers := s.workers.set i w }

def workStep (i : ℕ) (fresh : Option ℕ) (junk : ℕ → UInt8) : WorkPhase → Except Fault CleanRace
  | .idle => .ok s
  | .look key => do
    match ← s.table.hashtGet key (jenkinsHash key) nbuckets with
    | (some it, table) => return { s with table }.setWorker i (.answer it)
    | (none, table) => return { s with table }.setWorker i .idle
  | .answer it => do
    let table ← s.table.itemUnref it
    return { s with table }.setWorker i .idle
  | .find key value => do
    match ← s.table.hashtGet key (jenkinsHash key) nbuckets with
    | (some it, table) => return { s with table }.setWorker i (.fields it key value)
    | (none, table) => return { s with table }.setWorker i (.make key value)
  | .make key value =>
    match fresh with
    | none => .error .abort
    | some it =>
      let table := (s.table.allocated it (key.length + value.length)).fill it (jenkinsHash key)
        key value
      .ok ({ s with table }.setWorker i (.put it key value))
  | .fields it key value => do
    let table ← s.table.rewrite it (jenkinsHash key) key
      (resize (s.table.item it).value value.length junk)
    return { s with table }.setWorker i (.store it key value (List.range value.length))
  | .store it key value todo =>
    .ok (if todo = [] then s.setWorker i (.letGo it key value) else s)
  | .put it key value => do
    let table ← s.table.hashtPut nbuckets it none
    return { s with table }.setWorker i (.letGo it key value)
  | .letGo it key value => do
    let table ← s.table.itemUnref it
    return { s with table, last := update s.last key (some value) }.setWorker i .idle

end CleanRace

namespace CleanAct

variable (jenkinsHash : List UInt8 → UInt32) (nbuckets : ℕ) (s : CleanRace)

def next : CleanAct → Except Fault CleanRace
  | enqueue x =>
    match s.table.itemTryref x with
    | (true, table) => .ok { s with table, queue := s.queue ++ [x] }
    | (false, _) => .ok s
  | take j =>
    match s.cleaner, s.queue[j]? with
    | .idle, some it => .ok { s with cleaner := .check it, queue := s.queue.eraseIdx j }
    | _, _ => .ok s
  | clean fresh junk => s.cleanStep nbuckets fresh junk
  | copyByte j junk =>
    match s.cleaner with
    | .bytes it nit todo =>
      match todo[j]? with
      | some b => .ok { s with
          table := s.table.setByte nit b ((s.table.item it).value.getD b junk)
          cleaner := .bytes it nit (todo.eraseIdx j) }
      | none => .ok s
    | _ => .ok s
  | get i key => .ok (if s.workers[i]? = some .idle then s.setWorker i (.look key) else s)
  | set i key value =>
    .ok (if s.workers[i]? = some .idle then s.setWorker i (.find key value) else s)
  | work i fresh junk =>
    match s.workers[i]? with
    | some w => s.workStep jenkinsHash nbuckets i fresh junk w
    | none => .ok s
  | storeByte i j =>
    match s.workers[i]? with
    | some (.store it key value todo) =>
      match todo[j]? with
      | some b => .ok ({ s with table := s.table.setByte it b (value.getD b 0) }.setWorker i
          (.store it key value (todo.eraseIdx j)))
      | none => .ok s
    | _ => .ok s

/-- `ialloc_alloc` returns an item that is not allocated. -/
def Legal : CleanAct → Prop
  | clean fresh _ => ∀ x ∈ fresh, x ∉ s.table.live
  | work _ fresh _ => ∀ x ∈ fresh, x ∉ s.table.live
  | _ => True

/-- The `hasht_get` of a SET comes while no item with its key is copied and no other SET of the key
is under way, and finds an item that the SET fits. -/
def MayFind : WorkPhase → Prop
  | .find key value => (∀ it ∈ s.cleaner.copies, (s.table.item it).key ≠ key) ∧
      (∀ w ∈ s.workers, w.sets ≠ some key) ∧
      ∀ x ∈ (s.table.find key (jenkinsHash key) nbuckets).toOption.join,
        key.length + value.length ≤ (s.table.item x).room
  | _ => True

/-- `clean_log` starts to copy an item while no SET of its key is under way. -/
def MayCopy : CleanPhase → Prop
  | .alloc it => ∀ w ∈ s.workers, w.sets ≠ some (s.table.item it).key
  | _ => True

/-- No count is at the largest that its 16 bits hold, and SET and cleaning of a key keep apart. -/
def Apart (a : CleanAct) : Prop :=
  (∀ x ∈ s.table.live, (s.table.item x).refcount ≠ 65535) ∧
  match a with
  | work i _ _ => ∀ w ∈ s.workers[i]?, MayFind jenkinsHash nbuckets s w
  | clean _ _ => MayCopy s s.cleaner
  | _ => True

instance decidableLegal : DecidablePred (Legal s) := fun a => by
  cases a <;> unfold Legal <;> infer_instance

instance decidableMayFind : DecidablePred (MayFind jenkinsHash nbuckets s) := fun w => by
  cases w <;> unfold MayFind <;> infer_instance

instance decidableMayCopy : DecidablePred (MayCopy s) := fun c => by
  cases c <;> unfold MayCopy <;> infer_instance

instance decidableApart : DecidablePred (Apart jenkinsHash nbuckets s) := fun a => by
  cases a <;> unfold Apart <;> infer_instance

end CleanAct

/-- Where memory is overwritten, anything may come next. -/
def cleanRace (jenkinsHash : List UInt8 → UInt32) (nbuckets : ℕ) : System CleanRace CleanAct where
  init s := ∃ n, s = { workers := List.replicate n .idle }
  step s a s' := a.next jenkinsHash nbuckets s = .ok s' ∨ a.next jenkinsHash nbuckets s = .error .wild

/-- All are done with what they were at. -/
def CleanRace.Finished (s : CleanRace) : Prop :=
  s.cleaner = .idle ∧ ∀ w ∈ s.workers, w = .idle

/-- `hasht_get` finds for each key the value of the last completed SET of it. -/
def CleanRace.NoneLost (jenkinsHash : List UInt8 → UInt32) (nbuckets : ℕ) (s : CleanRace) : Prop :=
  ∀ key, (s.table.find key (jenkinsHash key) nbuckets).map
    (Option.map fun x => (s.table.item x).value) = .ok (s.last key)

end FlexKvs

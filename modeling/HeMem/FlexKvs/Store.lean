import HeMem.FlexKvs.Server
import HeMem.Lib.Transition

/-!
# FlexKVS as a map

Requests are processed one after another, each with `tx_buf` empty, and by whichever connection.
Beside the table stand the requests so far with their responses.
-/

namespace FlexKvs

open Function

namespace Request

variable (r : Request)

/-- The key and the value that a request is about. -/
def key : List UInt8 := (r.body.drop r.extlen).take r.keylen

def value : List UInt8 := r.body.drop (r.extlen + r.keylen)

structure WellFormed : Prop where
  opcode : r.opcode ∈ [cmdGet, cmdSet, cmdDelete]
  within : r.keylen + r.extlen ≤ r.body.length
  extras : r.opcode = cmdSet → r.extlen = 8
  /-- the request is in `rx_buf` -/
  length : headerSize + r.body.length ≤ maxMsgsize

instance decidableWellFormed : Decidable r.WellFormed :=
  decidable_of_iff (r.opcode ∈ [cmdGet, cmdSet, cmdDelete] ∧ r.keylen + r.extlen ≤ r.body.length ∧
      (r.opcode = cmdSet → r.extlen = 8) ∧ headerSize + r.body.length ≤ maxMsgsize)
    ⟨fun h => ⟨h.1, h.2.1, h.2.2.1, h.2.2.2⟩, fun h => ⟨h.1, h.2, h.3, h.4⟩⟩

end Request

/-- What a finite map does. -/
abbrev Contents : Type := List UInt8 → Option (List UInt8)

namespace Contents

variable (m : Contents) (r : Request)

def apply : Contents :=
  if r.opcode = cmdSet then update m r.key (some r.value)
  else if r.opcode = cmdDelete then update m r.key none
  else m

def respond : Response :=
  if r.opcode = cmdGet then
    match m r.key with
    | some value => { opcode := cmdGet, status := .success, value }
    | none => { opcode := cmdGet, status := .keyEnoent }
  else if r.opcode = cmdSet then { opcode := cmdSet, status := .success }
  else { opcode := cmdDelete, status := if (m r.key).isSome then .success else .keyEnoent }

/-- After the requests, from the empty map on. -/
def after (l : List (Request × Response)) : Contents := l.foldl (fun m e => m.apply e.1) fun _ => none

end Contents

/-- Each response is the one of the map at its place. -/
def AsMap (l : List (Request × Response)) : Prop :=
  ∀ l₁ r res l₂, l = l₁ ++ (r, res) :: l₂ → res = (Contents.after l₁).respond r

structure Kvs where
  table : Hasht := {}
  log : List (Request × Response) := []

/-- A connection processes a request, and `ialloc_alloc` returns `fresh`. -/
structure Serve where
  c : Conn
  r : Request
  fresh : ℕ

namespace Serve

variable (jenkinsHash : List UInt8 → UInt32) (nbuckets : ℕ) (s : Kvs) (a : Serve)

/-- A response that does not fit the empty `tx_buf` is tried again and again. -/
def next : Except Fault Kvs := do
  let (ans, table, _) ← s.table.connReqProcess jenkinsHash nbuckets { a.c with request := some a.r }
    a.r (some a.fresh)
  match ans with
  | .done res => return { table, log := s.log ++ [(a.r, res)] }
  | .full => .error .loop
  | .closed => return { s with table }

def Legal : Prop :=
  a.c.reqDone = false ∧ a.c.txLen = 0 ∧ a.r.WellFormed ∧ a.fresh ∉ s.table.live

/-- A GET or DELETE has its key where it is read, no stored key is deleted, and a SET of a stored key
fits its item. -/
def Kept : Prop :=
  (a.r.opcode ≠ cmdSet → a.r.lookupKey = a.r.key) ∧
  (a.r.opcode = cmdDelete → s.table.find a.r.key (jenkinsHash a.r.key) nbuckets = .ok none) ∧
  (a.r.opcode = cmdSet →
    ∀ x ∈ (s.table.find a.r.key (jenkinsHash a.r.key) nbuckets).toOption.join,
      a.r.key.length + a.r.value.length ≤ (s.table.item x).room)

instance decidableLegal : DecidablePred (Legal s) := fun a => by
  unfold Legal
  infer_instance

instance decidableKept : DecidablePred (Kept jenkinsHash nbuckets s) := fun a => by
  unfold Kept
  infer_instance

end Serve

/-- Where memory is overwritten, anything may come next. -/
def kvs (jenkinsHash : List UInt8 → UInt32) (nbuckets : ℕ) : System Kvs Serve where
  init s := s = {}
  step s a s' := a.next jenkinsHash nbuckets s = .ok s' ∨ a.next jenkinsHash nbuckets s = .error .wild

end FlexKvs

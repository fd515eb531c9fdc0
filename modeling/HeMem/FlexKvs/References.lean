import HeMem.FlexKvs.Server
import HeMem.Lib.Transition

/-!
# References to items

A worker's connections, the table, and the cleanup queue that `ialloc_maintenance` fills.  A call of
`conn_req_process`, `conn_close`, `ialloc_maintenance` for an item, or a round of `clean_log`, is one
step.  The connections of several workers are one list here, and their cleanup queues are one queue
that gives out any of its entries.
-/

namespace FlexKvs

structure Server where
  table : Hasht := {}
  conns : List Conn := []
  queue : List ℕ := []
  /-- an item has got fewer bytes than were allocated for it, so a walk from item to item goes
  astray -/
  shrunk : Bool := false

/-- The connection holds the item for a response not yet built. -/
def Conn.holds (c : Conn) (x : ℕ) : Bool :=
  c.reqDone && c.it = some x && c.request.any (·.opcode = cmdGet)

inductive ServerAct
  | accept
  /-- the last byte of a request arrives -/
  | arrive (i : ℕ) (r : Request)
  /-- `conn_req_process`, where `ialloc_alloc` returns `fresh` -/
  | process (i : ℕ) (fresh : Option ℕ)
  /-- `ss_write` takes `res` bytes -/
  | send (i : ℕ) (res : ℕ)
  | close (i : ℕ)
  /-- `ialloc_maintenance` comes to the item -/
  | enqueue (x : ℕ)
  /-- `clean_log` takes an entry of the queue -/
  | clean (j : ℕ) (fresh : Option ℕ)

namespace Server

variable (jenkinsHash : List UInt8 → UInt32) (nbuckets : ℕ) (s : Server)

/-- The stored item that a SET writes to. -/
def target (c : Conn) (r : Request) : Option ℕ :=
  if c.reqDone = false ∧ r.opcode = cmdSet then
    (s.table.find r.setKey (jenkinsHash r.setKey) nbuckets).toOption.join
  else none

def shrinks (c : Conn) (r : Request) : Bool :=
  (s.target jenkinsHash nbuckets c r).any fun x =>
    r.setKey.length + r.setValue.length < (s.table.item x).room

end Server

namespace ServerAct

variable (jenkinsHash : List UInt8 → UInt32) (nbuckets : ℕ) (s : Server)

def sent (c : Conn) (res : ℕ) : Conn :=
  let off := c.txOff + UInt16.ofNat res
  if off < c.txLen then { c with txOff := off } else { c with txOff := 0, txLen := 0 }

/-- The state after the step; an act on a connection or an entry that is not there does nothing. -/
def next : ServerAct → Except Fault Server
  | accept => .ok { s with conns := s.conns ++ [{}] }
  | arrive i r =>
    match s.conns[i]? with
    | some c =>
      if c.request = none then .ok { s with conns := s.conns.set i { c with request := some r } }
      else .ok s
    | none => .ok s
  | process i fresh =>
    match s.conns[i]?, s.conns[i]?.bind Conn.request with
    | some c, some r => do
      let (a, table, c') ← s.table.connReqProcess jenkinsHash nbuckets c r fresh
      let shrunk := s.shrunk || s.shrinks jenkinsHash nbuckets c r
      match a with
      | .closed => return { s with table, shrunk, conns := s.conns.eraseIdx i }
      | _ => return { s with table, shrunk, conns := s.conns.set i c' }
    | _, _ => .ok s
  | send i res =>
    match s.conns[i]? with
    | some c => .ok { s with conns := s.conns.set i (sent c res) }
    | none => .ok s
  | close i =>
    match s.conns[i]? with
    | some c => do
      let table ← s.table.connClose c
      return { s with table, conns := s.conns.eraseIdx i }
    | none => .ok s
  | enqueue x =>
    if s.shrunk then .error .wild
    else
      match s.table.itemTryref x with
      | (true, table) => .ok { s with table, queue := s.queue ++ [x] }
      | (false, _) => .ok s
  | clean j fresh =>
    match s.queue[j]? with
    | some it => do
      let table ← s.table.cleanItem nbuckets it fresh
      return { s with table, queue := s.queue.eraseIdx j }
    | none => .ok s

/-- The requests are GET and SET, and `ialloc_alloc` returns an item that is not allocated. -/
def Legal : ServerAct → Prop
  | arrive _ r => r.opcode = cmdGet ∨ r.opcode = cmdSet
  | process _ fresh => ∀ x ∈ fresh, x ∉ s.table.live
  | clean _ fresh => ∀ x ∈ fresh, x ∉ s.table.live
  | _ => True

/-- No count is at the largest that its 16 bits hold; a connection that is closed has no item, or
still holds it for a response; a SET of a stored key fits the item; and the log is not walked once
an item has got fewer bytes than it was allocated with. -/
def Careful (a : ServerAct) : Prop :=
  (∀ x ∈ s.table.live, (s.table.item x).refcount ≠ 65535) ∧
  match a with
  | close i => ∀ c ∈ s.conns[i]?, ∀ x ∈ c.it, c.holds x = true
  | process i _ => ∀ c ∈ s.conns[i]?, ∀ r ∈ c.request, ∀ x ∈ s.target jenkinsHash nbuckets c r,
      r.setKey.length + r.setValue.length ≤ (s.table.item x).room
  | enqueue _ => s.shrunk = false
  | _ => True

instance decidableLegal : DecidablePred (Legal s) := fun a => by
  cases a <;> unfold Legal <;> infer_instance

instance decidableCareful : DecidablePred (Careful jenkinsHash nbuckets s) := fun a => by
  cases a <;> unfold Careful <;> infer_instance

end ServerAct

end FlexKvs

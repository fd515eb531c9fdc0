import HeMem.FlexKvs.Connection
import HeMem.FlexKvs.Hashtable

/-!
# The requests of `main.c`

`conn_req_process` and a round of `clean_log` over the hash table.  `jenkins_hash` is any function
of the key.  `ialloc_alloc` returns an item that is not allocated, or none.
-/

namespace FlexKvs

/-- A request at `rx_off`, with the fields of its header that are read, but for the magic. -/
structure Request where
  opcode : UInt8
  keylen : ℕ
  extlen : ℕ
  body : List UInt8
  deriving DecidableEq

namespace Request

variable (r : Request)

/-- The key of a GET or DELETE as read. -/
def lookupKey : List UInt8 := r.body.take r.keylen

/-- `vl` -/
def vl : ℕ :=
  (UInt32.ofNat r.body.length - UInt32.ofNat r.keylen - UInt32.ofNat r.extlen).toNat

/-- The key and the value of a SET as read, after the extras of a `protocol_binary_request_set`. -/
def setKey : List UInt8 := (r.body.drop 8).take r.keylen

def setValue : List UInt8 := (r.body.drop (8 + r.keylen)).take r.vl

end Request

inductive Status
  | success
  | keyEnoent
  | enomem
  deriving DecidableEq

/-- The fields of a response that depend on more than its request. -/
structure Response where
  opcode : UInt8
  status : Status
  value : List UInt8 := []
  deriving DecidableEq

/-- `struct connection` with the request at `rx_off` instead of `rx_buf`. -/
structure Conn where
  it : Option ℕ := none
  txLen : UInt16 := 0
  txOff : UInt16 := 0
  reqDone : Bool := false
  request : Option Request := none

/-- What `conn_req_process` returns. -/
inductive Answer
  /-- 1: not enough space in `tx_buf` -/
  | full
  /-- -1: the connection is closed -/
  | closed
  /-- 0 -/
  | done (res : Response)
  deriving DecidableEq

namespace Conn

/-- The end of `conn_req_process`, for a response of `rsl` bytes. -/
def finish (c : Conn) (rsl : ℕ) : Conn :=
  { c with txLen := c.txLen + UInt16.ofNat rsl, reqDone := false, request := none }

/-- Less than `rsl` bytes of `tx_buf` are free. -/
def Full (c : Conn) (rsl : ℕ) : Prop := maxMsgsize - c.txLen.toNat < rsl

instance decidableFull (c : Conn) (rsl : ℕ) : Decidable (c.Full rsl) :=
  inferInstanceAs (Decidable (_ < _))

end Conn

namespace Hasht

variable (s : Hasht)

/-- An item that is there gets new bytes. -/
def rewrite (x : ℕ) (hv : UInt32) (key value : List UInt8) : Except Fault Hasht :=
  if key.length + value.length ≤ (s.item x).room then .ok (s.fill x hv key value)
  else .error .wild

variable (jenkinsHash : List UInt8 → UInt32) (nbuckets : ℕ) (c : Conn) (r : Request)

/-- GET -/
def processGet : Except Fault (Answer × Hasht × Conn) := do
  let (c, s) ←
    if c.reqDone then pure (c, s)
    else do
      let (it, s) ← s.hashtGet r.lookupKey (jenkinsHash r.lookupKey) nbuckets
      pure ({ c with it, reqDone := true }, s)
  match c.it with
  | none =>
    if c.Full 28 then return (.full, s, c)
    else return (.done { opcode := cmdGet, status := .keyEnoent }, s, c.finish 28)
  | some x =>
    let value := (s.item x).value
    if c.Full (28 + value.length) then return (.full, s, c)
    else
      let s ← s.itemUnref x
      return (.done { opcode := cmdGet, status := .success, value }, s,
        c.finish (28 + value.length))

/-- SET, where `ialloc_alloc` returns `fresh`. -/
def processSet (fresh : Option ℕ) : Except Fault (Answer × Hasht × Conn) := do
  let (c, s) ←
    if c.reqDone then pure (c, s)
    else do
      let h := jenkinsHash r.setKey
      match ← s.hashtGet r.setKey h nbuckets with
      | (some x, s) =>
        let s ← s.rewrite x h r.setKey r.setValue
        let s ← s.itemUnref x
        pure ({ c with it := some x, reqDone := true }, s)
      | (none, s) =>
        match fresh with
        | none => .error .abort
        | some x =>
          let s := (s.allocated x (r.keylen + r.vl)).fill x h r.setKey r.setValue
          let s ← s.hashtPut nbuckets x none
          let s ← s.itemUnref x
          pure ({ c with it := some x, reqDone := true }, s)
  if c.Full 24 then return (.full, s, c)
  else
    let status := if c.it.isSome then .success else .enomem
    return (.done { opcode := cmdSet, status }, s, c.finish 24)

/-- `ialloc_free_dont_need`; `madvise` takes an address at the start of a page only. -/
def iallocFreeDontNeed (x : ℕ) : Except Fault Hasht :=
  if x % 4096 = 0 then .error .wild else .ok { s with live := s.live.erase x }

/-- DELETE -/
def processDelete : Except Fault (Answer × Hasht × Conn) := do
  let (c, success, s) ←
    if c.reqDone then pure (c, false, s)
    else do
      match ← s.hashtGet r.lookupKey (jenkinsHash r.lookupKey) nbuckets with
      | (some x, s) =>
        let s ← s.iallocFreeDontNeed x
        pure ({ c with it := some x, reqDone := true }, true, s)
      | (none, s) => pure ({ c with it := none, reqDone := true }, false, s)
  if c.Full 24 then return (.full, s, c)
  else
    let status := if success then .success else .keyEnoent
    return (.done { opcode := cmdDelete, status }, s, c.finish 24)

def connClose : Except Fault Hasht :=
  match c.it with
  | some x => s.itemUnref x
  | none => .ok s

def connReqProcess (fresh : Option ℕ) : Except Fault (Answer × Hasht × Conn) :=
  if r.opcode = cmdGet then s.processGet jenkinsHash nbuckets c r
  else if r.opcode = cmdSet then s.processSet jenkinsHash nbuckets c r fresh
  else if r.opcode = cmdDelete then s.processDelete jenkinsHash nbuckets c r
  else do
    let s ← s.connClose c
    return (.closed, s, c)

/-- A round of `clean_log`, for an item of the cleanup queue. -/
def cleanItem (it : ℕ) (fresh : Option ℕ) : Except Fault Hasht := do
  let s ←
    if (s.item it).refcount ≠ 1 then
      match fresh with
      | none => .error .abort
      | some nit => do
        let old := s.item it
        let s := (s.allocated nit old.bytes).fill nit old.hv old.key old.value
        let s ← s.hashtPut nbuckets nit (some it)
        s.itemUnref nit
    else pure s
  s.itemUnref it

end Hasht

end FlexKvs

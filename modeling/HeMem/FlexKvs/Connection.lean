import HeMem.Lib.Transition
import Mathlib.Logic.Function.Basic

/-!
# A connection of `main.c`

The buffers of a connection and what `conn_events` does with them, one call of `ss_read` or
`ss_write`, or one round of the loop over requests, at a time.  The socket decides how many bytes a
call moves, and the item that a request finds is the rest of the server's.
-/

namespace FlexKvs

def maxMsgsize : ℕ := 1000000

/-- `sizeof(protocol_binary_request_header)` -/
def headerSize : ℕ := 24

def protocolBinaryReq : UInt8 := 0x80

def cmdGet : UInt8 := 0x00

def cmdSet : UInt8 := 0x01

def cmdDelete : UInt8 := 0x04

section Header

variable (b : ℕ → UInt8)

/-- `ntohs` of the two bytes at `i`. -/
def ntohs (i : ℕ) : ℕ := (b i).toNat * 2 ^ 8 + (b (i + 1)).toNat

/-- `ntohl` of the four bytes at `i`. -/
def ntohl (i : ℕ) : ℕ := ntohs b i * 2 ^ 16 + ntohs b (i + 2)

/-- The fields of the header at `i` that are read. -/
def magic (i : ℕ) : UInt8 := b i

def opcode (i : ℕ) : UInt8 := b (i + 1)

def keylen (i : ℕ) : ℕ := ntohs b (i + 2)

def extlen (i : ℕ) : ℕ := (b (i + 4)).toNat

def bodylen (i : ℕ) : ℕ := ntohl b (i + 8)

/-- The `n` bytes from `i` on. -/
def slice (i n : ℕ) : List UInt8 := (List.range n).map fun j => b (i + j)

end Header

/-- `struct connection`, without the socket; of the item only the length of its value. -/
structure Connection where
  vallen : Option ℕ := none
  rxLen : UInt16 := 0
  rxOff : UInt16 := 0
  txLen : UInt16 := 0
  txOff : UInt16 := 0
  epollWr : Bool := false
  reqDone : Bool := false
  rxBuf : ℕ → UInt8 := fun _ => 0

namespace Connection

variable (c : Connection)

def connReqIscomp : Bool :=
  let avail := (c.rxLen - c.rxOff).toNat
  if avail < headerSize then false
  else if avail < headerSize + bodylen c.rxBuf c.rxOff.toNat then false
  else true

/-- The bytes of the request at `rx_off`. -/
def request : List UInt8 :=
  slice c.rxBuf c.rxOff.toNat (headerSize + bodylen c.rxBuf c.rxOff.toNat)

/-- `res` bytes arrive. -/
def received (bytes : List UInt8) : Connection :=
  { c with
    rxBuf := fun i =>
      if c.rxLen.toNat ≤ i then bytes.getD (i - c.rxLen.toNat) (c.rxBuf i) else c.rxBuf i
    rxLen := c.rxLen + UInt16.ofNat bytes.length }

/-- What `conn_req_process` returns. -/
inductive Processed
  /-- 0 -/
  | done
  /-- 1: not enough space in `tx_buf` -/
  | full
  /-- -1: the connection is closed -/
  | closed
  deriving DecidableEq

/-- The end of `conn_req_process`, for a response of `rsl` bytes. -/
def respond (rsl : ℕ) : Processed × Connection :=
  if maxMsgsize - c.txLen.toNat < rsl then (.full, c)
  else
    (.done, { c with
      rxOff := c.rxOff + UInt16.ofNat (headerSize + bodylen c.rxBuf c.rxOff.toNat)
      txLen := c.txLen + UInt16.ofNat rsl
      reqDone := false })

/-- `conn_req_process`, where `hasht_get` finds an item with a value of length `found`, or none. -/
def connReqProcess (found : Option ℕ) : Processed × Connection :=
  let i := c.rxOff.toNat
  if magic c.rxBuf i ≠ protocolBinaryReq then (.closed, c)
  else if opcode c.rxBuf i = cmdGet then
    let c := if c.reqDone then c else { c with vallen := found, reqDone := true }
    c.respond (28 + c.vallen.getD 0)
  else if opcode c.rxBuf i = cmdSet then
    let vl := UInt32.ofNat (bodylen c.rxBuf i) - UInt32.ofNat (keylen c.rxBuf i) -
      UInt32.ofNat (extlen c.rxBuf i)
    let c := if c.reqDone then c else { c with vallen := some vl.toNat, reqDone := true }
    c.respond 24
  else if opcode c.rxBuf i = cmdDelete then
    let c := if c.reqDone then c else { c with vallen := found, reqDone := true }
    c.respond 24
  else (.closed, c)

/-- The end of `conn_events`: what is left in `rx_buf` moves to its front. -/
def moveUp : Connection :=
  if c.rxOff = 0 then c
  else if c.rxOff = c.rxLen then { c with rxLen := 0, rxOff := 0 }
  else { c with
    rxBuf := fun i => if i < (c.rxLen - c.rxOff).toNat then c.rxBuf (c.rxOff.toNat + i)
      else c.rxBuf i
    rxLen := c.rxLen - c.rxOff
    rxOff := 0 }

end Connection

/-- Where the thread is with the connection. -/
inductive ConnPhase
  /-- in `epoll_wait` -/
  | wait
  /-- before `ss_read` -/
  | recv
  /-- before `conn_req_iscomp` in the loop over requests -/
  | loop
  /-- before `ss_write` -/
  | send
  | closed
  /-- `assert(c->tx_off < c->tx_len)` has failed -/
  | failed
  deriving DecidableEq

/-- A connection, the bytes on their way to it, and the requests it has processed. -/
structure ConnState where
  conn : Connection
  phase : ConnPhase
  incoming : List UInt8
  processed : List (List UInt8)

/-- What `epoll_wait`, `ss_read` and `ss_write` return, and a round of the loop. -/
inductive ConnAct
  /-- `SS_EPOLLIN`, or `SS_EPOLLOUT` for a connection that waits to send -/
  | event
  | error
  | read (res : ℕ)
  | process (found : Option ℕ)
  | write (res : ℕ)
  | again

namespace ConnAct

variable (s : ConnState)

def next : ConnAct → Option ConnState
  | event =>
    if s.phase ≠ .wait then none
    else if s.conn.epollWr then
      some { s with phase := if s.conn.txOff < s.conn.txLen then .send else .failed }
    else some { s with phase := .recv }
  | error =>
    if s.phase = .wait ∨ s.phase = .recv ∨ s.phase = .send then
      some { s with phase := .closed }
    else none
  | read res =>
    if s.phase ≠ .recv then none
    else
      let c := s.conn.received (s.incoming.take res)
      some { s with
        conn := c
        incoming := s.incoming.drop res
        phase := if c.connReqIscomp then .loop else .recv }
  | process found =>
    if s.phase ≠ .loop then none
    else if s.conn.connReqIscomp then
      match s.conn.connReqProcess found with
      | (.closed, c) => some { s with conn := c, phase := .closed }
      | (_, c) => some { s with
          conn := c
          phase := if c.txLen ≠ 0 then .send else .loop
          processed := if s.conn.reqDone then s.processed else s.processed ++ [s.conn.request] }
    else some { s with conn := { s.conn.moveUp with epollWr := false }, phase := .wait }
  | write res =>
    if s.phase ≠ .send then none
    else
      let off := s.conn.txOff + UInt16.ofNat res
      if off < s.conn.txLen then some { s with conn := { s.conn with txOff := off } }
      else some { s with conn := { s.conn with txOff := 0, txLen := 0 }, phase := .loop }
  | again =>
    if s.phase = .recv then some { s with conn := { s.conn with epollWr := false }, phase := .wait }
    else if s.phase = .send then
      some { s with conn := { s.conn with epollWr := true }, phase := .wait }
    else none

/-- The socket gives at most what is asked for and what has arrived, and takes at most what it is
given.  The value of an item came in a request, with a header and eight bytes of extras. -/
def Legal : ConnAct → Prop
  | read res => 0 < res ∧ res ≤ s.incoming.length ∧ res ≤ maxMsgsize - s.conn.rxLen.toNat
  | write res => 0 < res ∧ res ≤ (s.conn.txLen - s.conn.txOff).toNat
  | process found => ∀ vl ∈ found, headerSize + 8 + vl < 2 ^ 16
  | _ => True

/-- No read takes `rx_len` past what its 16 bits hold. -/
def Fits : ConnAct → Prop
  | read res => s.conn.rxLen.toNat + res < 2 ^ 16
  | _ => True

instance decidableLegal : DecidablePred (Legal s) := fun a => by
  cases a <;> unfold Legal <;> infer_instance

instance decidableFits : DecidablePred (Fits s) := fun a => by
  cases a <;> unfold Fits <;> infer_instance

end ConnAct

/-- A request the server takes, as bytes. -/
structure ValidRequest (r : List UInt8) : Prop where
  header : headerSize ≤ r.length
  length : r.length = headerSize + bodylen (r.getD · 0) 0
  short : r.length < 2 ^ 16
  magic : magic (r.getD · 0) 0 = protocolBinaryReq
  opcode : opcode (r.getD · 0) 0 ∈ [cmdGet, cmdSet, cmdDelete]

/-- A new connection, to which `requests` are on their way. -/
def connection (requests : List (List UInt8)) : System ConnState ConnAct where
  init s := s = ⟨{}, .wait, requests.flatten, []⟩
  step s a s' := a.next s = some s'

end FlexKvs

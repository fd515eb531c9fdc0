import HeMem.FlexKvs.Connection
import HeMem.FlexKvs.Ialloc

/-!
# What a request makes the server touch

`conn_req_process` once more, for what it reads of `rx_buf` and for what can go wrong in it: the
subtraction that gives the length of the value, the assertion of `ialloc_alloc`, and a write to the
item that `ialloc_alloc` has not returned.  The lengths are the client's.
-/

namespace FlexKvs

inductive Touch
  /-- `n` bytes of `rx_buf` from `i` on are read -/
  | read (i n : ℕ)
  /-- `bl - kl - extlen` is computed -/
  | vallen (bl kl extlen : ℕ)
  /-- `assert(total < settings.segsize)` fails -/
  | assertion
  /-- `c->it->hv = h` where `c->it` is null -/
  | nullItem
  deriving DecidableEq

/-- Reads stay from `lo` to `hi`, lengths do not wrap below zero, and nothing goes wrong. -/
def Touch.Within (lo hi : ℕ) : Touch → Prop
  | read i n => ∀ j < n, lo ≤ i + j ∧ i + j < hi
  | vallen bl kl extlen => kl + extlen ≤ bl
  | assertion | nullItem => False

section Hash

variable (aligned : Bool)

/-- How many bytes `jenkins_hash` reads of a key: at an address that is a multiple of four, whole
words. -/
def hashed (length : ℕ) : ℕ := if aligned then 4 * ((length + 3) / 4) else length

/-- The reads of `jenkins_hash`: blocks of 12 bytes, and the last one. -/
def hashReads (k length : ℕ) : List Touch :=
  if 12 < length then .read k 12 :: hashReads (k + 12) (length - 12)
  else if length = 0 then []
  else [.read k (hashed aligned length)]
termination_by length

/-- `jenkins_hash` and `hasht_get` for the `kl` bytes at `k`, where `rx_buf` is at address `base`;
the items of the bucket are compared with the key. -/
def lookupReads (base k kl : ℕ) : List Touch :=
  hashReads ((base + k) % 4 = 0) k kl ++ [.read k kl]

end Hash

namespace Connection

variable (c : Connection)

/-- `opaque` is read if a response is built. -/
def answerReads (found : Option ℕ) : List Touch :=
  if (c.connReqProcess found).1 = .done then [.read (c.rxOff.toNat + 12) 4] else []

/-- The key and the value are copied to the item. -/
def copyReads (kl vl : ℕ) : List Touch :=
  [.read (c.rxOff.toNat + 32) kl, .read (c.rxOff.toNat + 32 + kl) vl]

variable {A : Type} [DecidableEq A] (st : Settings) (s : Ialloc A) (a : A) (ok : Bool)

/-- SET, from `hasht_get` on. -/
def storeTouches (found : Option ℕ) (kl vl : ℕ) : List Touch :=
  match found with
  | some _ => c.copyReads kl vl ++ c.answerReads found
  | none =>
    match s.iallocAlloc st a (itemSize + kl + vl) false ok with
    | none => [.assertion]
    | some (none, _) => [.nullItem]
    | some (some _, _) => c.copyReads kl vl ++ c.answerReads found

/-- What `conn_req_process` touches, where `hasht_get` finds an item with a value of length `found`,
or none. -/
def touches (base : ℕ) (found : Option ℕ) : List Touch :=
  let i := c.rxOff.toNat
  let kl := keylen c.rxBuf i
  let bl := bodylen c.rxBuf i
  let header : List Touch := [.read (i + 1) 1, .read (i + 2) 2, .read (i + 8) 4, .read i 1]
  let lookedUp := if c.reqDone then [] else lookupReads base (i + 24) kl
  if magic c.rxBuf i ≠ protocolBinaryReq then header
  else if opcode c.rxBuf i = cmdGet then header ++ lookedUp ++ c.answerReads found
  else if opcode c.rxBuf i = cmdSet then
    let vl := (UInt32.ofNat bl - UInt32.ofNat kl - UInt32.ofNat (extlen c.rxBuf i)).toNat
    let header := header ++ [.read (i + 4) 1, .vallen bl kl (extlen c.rxBuf i)]
    if c.reqDone then header ++ c.answerReads found
    else header ++ lookupReads base (i + 32) kl ++ c.storeTouches st s a ok found kl vl
  else if opcode c.rxBuf i = cmdDelete then header ++ lookedUp ++ c.answerReads found
  else header

/-- All that the call touches is of the request at `rx_off`. -/
def StaysInside (base : ℕ) (found : Option ℕ) : Prop :=
  ∀ t ∈ c.touches st s a ok base found,
    t.Within c.rxOff.toNat (c.rxOff.toNat + headerSize + bodylen c.rxBuf c.rxOff.toNat)

end Connection

section Fits

variable {A : Type} (st : Settings) (s : Ialloc A)

/-- There is a segment for `segment_alloc` to hand out, and `total` bytes fit it. -/
def Ialloc.HasSegment (ok : Bool) (total : ℕ) : Prop :=
  match s.freeSegments with
  | some h => total ≤ (s.header h).size.toNat
  | none => s.segAlloced < st.segmaxnum ∧ ok = true ∧ total ≤ st.segsize % 2 ^ 32

/-- An item of `total` bytes fits what is left of the current segment, or the next one. -/
def ItemAllocator.Roomy (ia : ItemAllocator) (ok : Bool) (total : ℕ) : Prop :=
  total < st.segsize ∧ ia.reserved ≠ none ∧
    (total ≤ ((s.header ia.cur).size - (s.header ia.cur).offset).toNat ∨ s.HasSegment st ok total)

/-- The key, and the last word of it that is hashed, are in the body from `skip` on. -/
def KeyFits (base k skip kl bl : ℕ) : Prop :=
  kl = 0 ∨ skip + hashed ((base + k) % 4 = 0) kl ≤ bl

/-- The lengths in the request at `rx_off` fit, and the item of a SET can be allocated. -/
def Connection.Fits (c : Connection) (base : ℕ) (ia : ItemAllocator) (ok : Bool)
    (found : Option ℕ) : Prop :=
  let i := c.rxOff.toNat
  let kl := keylen c.rxBuf i
  let bl := bodylen c.rxBuf i
  let ext := extlen c.rxBuf i
  magic c.rxBuf i = protocolBinaryReq →
    (opcode c.rxBuf i = cmdGet ∨ opcode c.rxBuf i = cmdDelete → c.reqDone = false →
      KeyFits base (i + 24) 0 kl bl) ∧
    (opcode c.rxBuf i = cmdSet → kl + ext ≤ bl ∧ (c.reqDone = false →
      KeyFits base (i + 32) 8 kl bl ∧ (kl + ext = bl ∨ 8 ≤ ext) ∧
        (found = none → ia.Roomy st s ok (itemSize + (bl - ext)))))

end Fits

end FlexKvs

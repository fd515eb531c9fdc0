import Mathlib.Algebra.Order.Ring.Nat
import Mathlib.Data.List.Basic
import Mathlib.Tactic.Common

/-!
# The sample buffers that the kernel fills

A `perf_event_mmap_page` and the data area behind it.  The kernel writes one record after another,
byte by byte modulo the size of the area, and moves `data_head`; `pebs_scan_thread` looks at the
record at `data_tail` through a pointer, as if it lay in one piece, and moves `data_tail` by its size.
-/

namespace HeMem

/-- The number that bytes stand for, the lowest first. -/
def leNat : List UInt8 → ℕ
  | [] => 0
  | b :: bs => b.toNat + 256 * leNat bs

def perfRecordSample : ℕ := 9

def perfRecordThrottle : ℕ := 5

def perfRecordUnthrottle : ℕ := 6

/-- Where `struct perf_sample` has its `addr`: after the header, `ip`, `pid` and `tid`. -/
def sampleAddrOffset : ℕ := 24

/-- `struct perf_event_mmap_page`, and the bytes of the data area. -/
structure PerfPage where
  dataHead : UInt64
  dataTail : UInt64
  dataSize : UInt64
  data : ℕ → UInt8

/-- What the thread makes of a record. -/
inductive PerfEvent
  | sample (addr : UInt64)
  | throttle
  | unthrottle
  | unknown (type : ℕ)
  deriving DecidableEq

namespace PerfPage

variable (p : PerfPage)

/-- The byte at `i` in the data area, if it is one of it. -/
def byte (i : ℕ) : Option UInt8 := if i < p.dataSize.toNat then some (p.data i) else none

/-- The field of `n` bytes at `i`, unless it lies partly outside the data area. -/
def field (i n : ℕ) : Option ℕ := ((List.range n).mapM fun k => p.byte (i + k)).map leNat

end PerfPage

/-- The cases of the `switch`. -/
def recordEvent (p : PerfPage) (ph type : ℕ) : Option PerfEvent :=
  if type = perfRecordSample then
    (p.field (ph + sampleAddrOffset) 8).map fun addr => .sample (UInt64.ofNat addr)
  else if type = perfRecordThrottle then some .throttle
  else if type = perfRecordUnthrottle then some .unthrottle
  else some (.unknown type)

/-- What `pebs_scan_thread` does with one buffer each time it comes to it: nothing, or what it makes
of a record.  `none` if it reads outside the data area. -/
def pebsScanRecord (p : PerfPage) : Option (Option PerfEvent × PerfPage) :=
  if p.dataHead = p.dataTail then some (none, p)
  else
    let ph := (p.dataTail % p.dataSize).toNat
    do
      let type ← p.field ph 4
      let event ← recordEvent p ph type
      let size ← p.field (ph + 6) 2
      return (some event, { p with dataTail := p.dataTail + UInt64.ofNat size })

/-- What it makes of the records in the first `n` times. -/
def pebsScan : ℕ → PerfPage → Option (List PerfEvent × PerfPage)
  | 0, p => some ([], p)
  | n + 1, p => do
    let (event, p') ← pebsScanRecord p
    let (events, p'') ← pebsScan n p'
    return (event.toList ++ events, p'')

/-- A record as the kernel writes it: a header that tells its size, and for a sample the fields up to
`addr` at least. -/
structure PerfRecord where
  bytes : List UInt8
  header : 8 ≤ bytes.length
  aligned : bytes.length % 8 = 0
  size : leNat ((bytes.drop 6).take 2) = bytes.length
  sample : leNat (bytes.take 4) = perfRecordSample → sampleAddrOffset + 8 ≤ bytes.length

namespace PerfRecord

variable (r : PerfRecord)

def type : ℕ := leNat (r.bytes.take 4)

def addr : UInt64 := UInt64.ofNat (leNat ((r.bytes.drop sampleAddrOffset).take 8))

/-- What the record is. -/
def event : PerfEvent :=
  if r.type = perfRecordSample then .sample r.addr
  else if r.type = perfRecordThrottle then .throttle
  else if r.type = perfRecordUnthrottle then .unthrottle
  else .unknown r.type

end PerfRecord

/-- The data area holds the records from `data_tail` to `data_head`, one after another modulo its
size, a power of two of at least a page. -/
structure PerfPage.Holds (p : PerfPage) (records : List PerfRecord) : Prop where
  size : ∃ k, 12 ≤ k ∧ k < 64 ∧ p.dataSize.toNat = 2 ^ k
  tail : p.dataTail.toNat % 8 = 0
  fits : (records.flatMap (·.bytes)).length ≤ p.dataSize.toNat
  head : p.dataHead = p.dataTail + UInt64.ofNat (records.flatMap (·.bytes)).length
  bytes : ∀ i b, (records.flatMap (·.bytes))[i]? = some b →
    p.data ((p.dataTail.toNat + i) % p.dataSize.toNat) = b

/-- No sample starts so close to the end of the data area that its `addr` is not in one piece with its
header. -/
def PerfPage.InOnePiece (p : PerfPage) (records : List PerfRecord) : Prop :=
  ∀ front r rest, records = front ++ r :: rest → r.type = perfRecordSample →
    (p.dataTail.toNat + (front.flatMap (·.bytes)).length) % p.dataSize.toNat + sampleAddrOffset + 8 ≤
      p.dataSize.toNat

/-- The thread takes the records one after another, each for what it is, and nothing else. -/
def PerfPage.Decodes (p : PerfPage) (records : List PerfRecord) : Prop :=
  ∀ n, ∃ p', pebsScan n p = some ((records.take n).map (·.event), p') ∧ p'.Holds (records.drop n)

end HeMem

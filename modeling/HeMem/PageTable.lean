import HeMem.Lib.Refine
import HeMem.Migrate

/-!
# The table of pages

`find_page`, `add_page` and `remove_page` over the hash table of `uthash.h`: chains in buckets, a
list in the order of the additions, and buckets that double when a chain gets long.  Lists stand for
the chains of pointers, head first, and the hash function is any function of the key.  The counters
are natural numbers: `num_buckets` would wrap at 2³² buckets, which are 64 GiB.
-/

namespace HeMem

open Function

/-- `UT_hash_bucket` -/
structure HashBucket where
  /-- `hh_head`, and along `hh_next` -/
  chain : List PageId
  count : ℕ
  expandMult : ℕ

/-- `UT_hash_table` -/
structure HashTable where
  buckets : ℕ → HashBucket
  numBuckets : ℕ
  log2NumBuckets : ℕ
  numItems : ℕ
  /-- `pages`, and along `hh.next` -/
  items : List PageId
  idealChainMaxlen : ℕ
  nonidealItems : ℕ
  ineffExpands : ℕ
  noexpand : Bool

structure PageTable where
  /-- nothing while `pages` is null -/
  table : Option HashTable
  /-- `page->va`, which `hh.key` points to -/
  va : PageId → UInt64
  /-- `page->hh.hashv` -/
  hashv : PageId → UInt32

inductive TableAbort
  /-- `assert(p == NULL)` of `add_page` -/
  | addPage
  /-- `HASH_DEL` from a table that is not there -/
  | nullHead
  deriving DecidableEq

def hashInitialNumBuckets : ℕ := 2097152

def hashInitialNumBucketsLog2 : ℕ := 21

def hashBktCapacityThresh : ℕ := 10

/-- `HASH_TO_BKT` -/
def hashToBkt (hashv : UInt32) (numBkts : ℕ) : ℕ := hashv.toNat &&& (numBkts - 1)

def HashBucket.empty : HashBucket := ⟨[], 0, 0⟩

namespace HashTable

variable (hashv : PageId → UInt32) (tbl : HashTable)

/-- `HASH_MAKE_TABLE` -/
def make (page : PageId) : HashTable :=
  { buckets := fun _ => .empty, numBuckets := hashInitialNumBuckets,
    log2NumBuckets := hashInitialNumBucketsLog2, numItems := 0, items := [page],
    idealChainMaxlen := 0, nonidealItems := 0, ineffExpands := 0, noexpand := false }

/-- The ideal length of a chain once there are twice as many buckets. -/
def ideal : ℕ :=
  (tbl.numItems >>> (tbl.log2NumBuckets + 1)) +
    if tbl.numItems &&& (tbl.numBuckets * 2 - 1) ≠ 0 then 1 else 0

/-- The body of the inner loop of `HASH_EXPAND_BUCKETS`: an item goes to its new bucket. -/
def rehash (new : (ℕ → HashBucket) × ℕ) (item : PageId) : (ℕ → HashBucket) × ℕ :=
  let bkt := hashToBkt (hashv item) (tbl.numBuckets * 2)
  let b := new.1 bkt
  let count := b.count + 1
  let nonideal := tbl.ideal < count
  let mult := if nonideal ∧ b.expandMult * tbl.ideal < count then b.expandMult + 1 else b.expandMult
  (update new.1 bkt ⟨item :: b.chain, count, mult⟩, if nonideal then new.2 + 1 else new.2)

/-- `HASH_EXPAND_BUCKETS` -/
def expandBuckets : HashTable :=
  let new := (List.range tbl.numBuckets).foldl
    (fun new i => (tbl.buckets i).chain.foldl (tbl.rehash hashv) new) (fun _ => .empty, 0)
  let ineff := if tbl.numItems >>> 1 < new.2 then tbl.ineffExpands + 1 else 0
  { tbl with
    buckets := new.1, numBuckets := tbl.numBuckets * 2, log2NumBuckets := tbl.log2NumBuckets + 1,
    idealChainMaxlen := tbl.ideal, nonidealItems := new.2, ineffExpands := ineff,
    noexpand := tbl.noexpand || decide (1 < ineff) }

/-- `HASH_ADD_TO_BKT` -/
def addToBkt (bkt : ℕ) (page : PageId) : HashTable :=
  let b := tbl.buckets bkt
  let tbl := { tbl with
    buckets := update tbl.buckets bkt ⟨page :: b.chain, b.count + 1, b.expandMult⟩ }
  if (b.expandMult + 1) * hashBktCapacityThresh ≤ b.count + 1 ∧ tbl.noexpand = false then
    tbl.expandBuckets hashv
  else tbl

/-- `HASH_DEL_IN_BKT` -/
def delInBkt (bkt : ℕ) (page : PageId) : HashTable :=
  let b := tbl.buckets bkt
  { tbl with buckets := update tbl.buckets bkt ⟨b.chain.erase page, b.count - 1, b.expandMult⟩ }

end HashTable

section Program

variable (hashFcn : UInt64 → UInt32)

abbrev TableM := StateT PageTable (Except TableAbort)

/-- `HASH_FIND`: the chain is searched for the hash value and the key. -/
def PageTable.hashFind (t : PageTable) (va : UInt64) : Option PageId :=
  t.table.bind fun tbl => (tbl.buckets (hashToBkt (hashFcn va) tbl.numBuckets)).chain.find?
    fun page => decide (t.hashv page = hashFcn va ∧ t.va page = va)

/-- `HASH_ADD` -/
def PageTable.hashAdd (t : PageTable) (page : PageId) : PageTable :=
  let hashval := hashFcn (t.va page)
  let hashv := update t.hashv page hashval
  let tbl := t.table.elim (.make page) fun tbl => { tbl with items := tbl.items ++ [page] }
  let tbl := { tbl with numItems := tbl.numItems + 1 }
  { t with
    hashv, table := some (tbl.addToBkt hashv (hashToBkt hashval tbl.numBuckets) page) }

/-- `HASH_DEL`: the table goes with the page that is alone in it. -/
def PageTable.hashDel (t : PageTable) (page : PageId) : Option PageTable :=
  t.table.map fun tbl =>
    if tbl.items = [page] then { t with table := none }
    else
      let tbl := { tbl with items := tbl.items.erase page }
      let tbl := tbl.delInBkt (hashToBkt (t.hashv page) tbl.numBuckets) page
      { t with table := some { tbl with numItems := tbl.numItems - 1 } }

namespace PageTable

def findPage (va : UInt64) : TableM (Option PageId) := return (← get).hashFind hashFcn va

def addPage (page : PageId) : TableM Unit := do
  let t ← get
  if (t.hashFind hashFcn (t.va page)).isSome then
    throw .addPage
  set (t.hashAdd hashFcn page)

def removePage (page : PageId) : TableM Unit := do
  match (← get).hashDel page with
  | none => throw .nullHead
  | some t => set t

end PageTable

inductive TableCall
  | findPage (va : UInt64)
  | addPage (page : PageId)
  | removePage (page : PageId)
  /-- `page->va = va` -/
  | setVa (page : PageId) (va : UInt64)

/-- A call, and the page that it finds. -/
def TableCall.run : TableCall → TableM (Option PageId)
  | findPage va => PageTable.findPage hashFcn va
  | addPage page => do
    PageTable.addPage hashFcn page
    return none
  | removePage page => do
    PageTable.removePage page
    return none
  | setVa page va => do
    modify fun t => { t with va := update t.va page va }
    return none

end Program

/-- What the table is for: the pages by their addresses. -/
structure PageMap where
  pages : UInt64 → Option PageId
  va : PageId → UInt64

namespace PageMap

variable (m : PageMap)

/-- What a call should return and do. -/
def effect (c : TableCall) (m : PageMap) : Option PageId × PageMap :=
  match c with
  | .findPage va => (m.pages va, m)
  | .addPage page => (none, { m with pages := update m.pages (m.va page) (some page) })
  | .removePage page => (none, { m with pages := update m.pages (m.va page) none })
  | .setVa page va => (none, { m with va := update m.va page va })

/-- Pages in the map keep their addresses, no address is added twice, and only pages in the map are
removed. -/
def Legal (m : PageMap) : TableCall → Prop
  | .findPage _ => True
  | .addPage page => (∀ va, m.pages va ≠ some page) ∧ m.pages (m.va page) = none
  | .removePage page => m.pages (m.va page) = some page
  | .setVa page _ => ∀ va, m.pages va ≠ some page

end PageMap

/-- The map that the rest of the program is modelled over. -/
def State.pageMap (s : State) : PageMap := ⟨s.pages, fun page => (s.page page).va⟩

/-- The call as the rest of the program makes it. -/
def TableCall.model : TableCall → M (Option PageId)
  | findPage va => HeMem.findPage va
  | addPage page => do
    HeMem.addPage page
    return none
  | removePage page => do
    HeMem.removePage page
    return none
  | setVa page va => do
    modifyPage page ({ · with va })
    return none

/-- No table, as `hemem_init` finds it. -/
def PageTable.empty (va : PageId → UInt64) (hashv : PageId → UInt32) : PageTable :=
  ⟨none, va, hashv⟩

end HeMem

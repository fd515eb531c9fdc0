import HeMem.FlexKvs.Hashtable
import HeMem.Lib.Transition

/-!
# Sequences of `hasht_put`

Callers fill fresh items and put them, and let go of their own reference to an item when they want;
an item nobody refers to may come back as a fresh one.
-/

namespace FlexKvs

open Function

namespace Hasht

variable (s : Hasht) (b : HashBucket)

/-- At most `n` items, from `p` on along `next`. -/
def along : ℕ → Option ℕ → List ℕ
  | 0, _ => []
  | _ + 1, none => []
  | n + 1, some x => x :: along n (s.item x).next

/-- The overflow chain of a bucket. -/
def overflowItems : List ℕ := (b.items (Fin.last 4)).elim [] fun x => s.along s.live.length (s.item x).next

/-- The items in the direct slots of a bucket, and those of its overflow chain. -/
def bucketItems : List ℕ := (List.finRange 5).filterMap b.items ++ s.overflowItems b

/-- `x` as a caller of `hasht_put` hands it over, from `ialloc_alloc` on. -/
def fresh (jenkinsHash : List UInt8 → UInt32) (x room : ℕ) (key value : List UInt8) : Hasht :=
  (s.allocated x room).fill x (jenkinsHash key) key value

end Hasht

structure Puts where
  table : Hasht := {}
  /-- the item last put for a key -/
  last : List UInt8 → Option ℕ := fun _ => none
  /-- the items that callers still refer to -/
  held : List ℕ := []

inductive PutsAct
  /-- `hasht_put` of a fresh item -/
  | put (nit room : ℕ) (key value : List UInt8)
  | cas (nit room : ℕ) (key value : List UInt8) (it : ℕ)
  /-- `item_unref` -/
  | letGo (x : ℕ)

namespace PutsAct

variable (jenkinsHash : List UInt8 → UInt32) (nbuckets : ℕ) (s : Puts)

def next : PutsAct → Except Fault Puts
  | put nit room key value => do
    let table ← (s.table.fresh jenkinsHash nit room key value).hashtPut nbuckets nit none
    return { table, last := update s.last key (some nit), held := nit :: s.held }
  | cas nit room key value it => do
    let table ← (s.table.fresh jenkinsHash nit room key value).hashtPut nbuckets nit (some it)
    return { s with table, held := nit :: s.held }
  | letGo x => do
    let table ← s.table.itemUnref x
    return { s with table, held := s.held.erase x }

/-- An item put is fresh, and a reference is let go by who has it. -/
def Legal : PutsAct → Prop
  | put nit _ _ _ => nit ∉ s.table.live
  | cas nit _ _ _ _ => nit ∉ s.table.live
  | letGo x => x ∈ s.held

/-- No put is a compare and set. -/
def Plain : PutsAct → Prop
  | cas .. => False
  | _ => True

instance decidableLegal : DecidablePred (Legal s) := fun a => by
  cases a <;> unfold Legal <;> infer_instance

instance decidablePlain : DecidablePred Plain := fun a => by
  cases a <;> unfold Plain <;> infer_instance

end PutsAct

/-- An empty table, and puts of fresh items. -/
def puts (jenkinsHash : List UInt8 → UInt32) (nbuckets : ℕ) : System Puts PutsAct where
  init s := s = {}
  step s a s' := a.next jenkinsHash nbuckets s = .ok s'

/-- The bucketed table is a map from keys to items: each key is found where it was put last, and is
in its bucket once; a put takes one reference from the item that it displaces and leaves all other
references. -/
structure Puts.IsMap (jenkinsHash : List UInt8 → UInt32) (nbuckets : ℕ) (s : Puts) : Prop where
  get : ∀ key, ∃ t, s.table.hashtGet key (jenkinsHash key) nbuckets = .ok (s.last key, t)
  once : ∀ n, ((s.table.bucketItems (s.table.buckets n)).map fun x => (s.table.item x).key).Nodup
  put : ∀ nit room key value, nit ∉ s.table.live → ∃ t,
    (s.table.fresh jenkinsHash nit room key value).hashtPut nbuckets nit none = .ok t ∧
      ∀ x, (t.item x).refcount = if x = nit then 2
        else if s.last key = some x then (s.table.item x).refcount - 1
        else (s.table.item x).refcount

/-- `hasht_put(nit, cas)` puts `nit` in the place of `cas` where the table holds `cas` for the key,
and changes nothing else; otherwise it changes nothing. -/
def Hasht.ComparesAndSets (nbuckets : ℕ) (s : Hasht) (nit cas : ℕ) : Prop :=
  ∃ t, s.hashtPut nbuckets nit (some cas) = .ok t ∧
    if s.find (s.item nit).key (s.item nit).hv nbuckets = .ok (some cas) then
      (∀ n, t.bucketItems (t.buckets n) =
        (s.bucketItems (s.buckets n)).map fun x => if x = cas then nit else x) ∧
      ∀ x, (t.item x).key = (s.item x).key ∧ (t.item x).value = (s.item x).value ∧
        (t.item x).hv = (s.item x).hv ∧ (t.item x).refcount =
          if x = nit then (s.item x).refcount + 1
          else if x = cas then (s.item x).refcount - 1 else (s.item x).refcount
    else t = s

end FlexKvs

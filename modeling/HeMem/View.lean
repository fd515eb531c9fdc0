import Mathlib.Logic.Relation
import Mathlib.Tactic.Simps.Basic
import HeMem.Pebs

/-!
# What the policy does, seen from above

A `View` keeps of a state what the policy is about: which list each page is on, its struct, what
waits in the three rings, where the cursors stand, and the kernel's side.  Order within a list,
the links, the ring pointers and the clocks are gone.  A `Move` is one thing the policy thread
does to a page, and `Fails` says in which views it aborts.
-/

namespace HeMem

open Function

/-- What a list is for. -/
inductive Kind
  | hot
  | cold
  | free
  deriving DecidableEq

def ListId.kind : ListId → Kind
  | .dramHot | .nvmHot => .hot
  | .dramCold | .nvmCold => .cold
  | .dramFree | .nvmFree => .free

/-- Whether a list is one of DRAM. -/
def ListId.dram : ListId → Bool
  | .dramHot | .dramCold | .dramFree => true
  | .nvmHot | .nvmCold | .nvmFree => false

/-- The list of a tier for pages with or without the hot flag. -/
def usedList (dram hot : Bool) : ListId := if hot then hotList dram else coldList dram

structure View where
  list : PageId → Option ListId
  page : PageId → HememPage
  requests : Bool → List PageId
  free : List PageId
  cur : Bool → Option PageId
  pages : UInt64 → Option PageId
  kernel : Kernel
  calls : List MigrateCall
  /-- `user_hint_priority` -/
  priority : ℤ

namespace View

variable (v : View)

@[simps -fullyApplied]
def put (q : ListId) (p : PageId) : View := { v with list := update v.list p (some q) }

@[simps -fullyApplied]
def off (p : PageId) : View := { v with list := update v.list p none }

@[simps -fullyApplied]
def edit (p : PageId) (f : HememPage → HememPage) : View :=
  { v with page := update v.page p (f (v.page p)) }

@[simps -fullyApplied]
def setCur (dram : Bool) (c : Option PageId) : View := { v with cur := update v.cur dram c }

@[simps -fullyApplied]
def setRequests (hot : Bool) (l : List PageId) : View :=
  { v with requests := update v.requests hot l }

/-- `hemem_migrate_up` or `hemem_migrate_down` is called on `p`. -/
@[simps -fullyApplied]
def call (up : Bool) (p : PageId) : View :=
  { v with calls := MigrateCall.mk up p (v.page p).present (v.pages (v.page p).va) :: v.calls }

/-- The kernel's part in moving `p` to a frame of the other tier. -/
@[simps -fullyApplied]
def remap (up : Bool) (p : PageId) (offset : UInt64) : View :=
  let P := v.page p
  let size := ptToPagesize P.pt
  let k := v.kernel.writeprotect P.va size true
  let k := k.dmaCopy (deviceOf (!up), P.devdaxOffset) (deviceOf up, offset) size
  { v with kernel := k.mmapFixed P.va size (deviceOf up) offset }

/-- `p` takes the frame of the free page `np`, and `np` the frame `p` had. -/
def exchange (up : Bool) (p np : PageId) : View :=
  let w := ((v.call up p).remap up p (v.page np).devdaxOffset).edit p
    ({ · with devdaxOffset := (v.page np).devdaxOffset, inDram := up, migrating := false })
  let w := w.edit np fun N => HememPage.clearCounters { N with
    devdaxOffset := (v.page p).devdaxOffset, inDram := !up, present := false, hot := false }
  (w.put (if up then .dramHot else .nvmCold) p).put (freeList !up) np

@[simps -fullyApplied]
def setPriority (n : ℤ) : View := { v with priority := n }

/-- A free page is given out, onto list `q`. -/
def alloc (p : PageId) (q : ListId) (enforced : Bool) : View :=
  (v.edit p ({ · with present := true, enforced := enforced })).put q p

/-- `pebs_remove_page` on `p`. -/
def remove (p : PageId) : View :=
  ({ v with free := v.free ++ [p] } : View).edit p
    fun P => HememPage.clearCounters { P with present := false, hot := false }

/-- No cursor points at `p`. -/
def NoCursor (p : PageId) : Prop := ∀ dram, v.cur dram ≠ some p

end View

/-- What a state looks like from above. -/
def State.view (s : State) : View where
  list := s.fifo.listOf
  page := s.page
  requests hot := (s.requestRing hot).entries
  free := s.freePageRing.entries
  cur := s.cur
  pages := s.pages
  kernel := s.kernel
  calls := s.calls
  priority := s.userHintPriority

/-- The page a victim search comes to: the one furthest back that is not enforced. -/
def State.victim (s : State) : Option PageId :=
  (s.fifo.contents .dramCold).reverse.find? fun p => !(s.page p).enforced

/-- The pages on the free lists, in the order `pebs_allocate_page` takes them. -/
def State.freePages (s : State) : List PageId :=
  (s.fifo.contents .dramFree).reverse ++ (s.fifo.contents .nvmFree).reverse

/-- The migration loop, at its head, is about to search for a victim and to meet an enforced
page. -/
def State.SkipsAtHead (s : State) : Prop :=
  ∃ p c, (s.fifo.list .nvmHot).last = some p ∧ hotReadThreshold ≤ (s.page p).reads ∧
    (s.fifo.list .dramFree).last = none ∧ (s.fifo.list .dramCold).last = some c ∧
    (s.page c).enforced = true

/-- From its head in state `s`, with `bytes` migrated, the migration loop comes to its head in
`s'`, with `bytes'`. -/
inductive MigrateHead (cfg : Config) : UInt64 → State → UInt64 → State → Prop
  | here (bytes : UInt64) (s : State) : MigrateHead cfg bytes s bytes s
  | next {bytes bytes' bytes'' : UInt64} {s s' s'' : State}
      (hb : bytes < pebsKswapdMigrateRate)
      (ht : migrateTurn cfg bytes s = .ok (.next bytes', s'))
      (h : MigrateHead cfg bytes' s' bytes'' s'') : MigrateHead cfg bytes s bytes'' s''

/-- No victim search of the pass that starts in `s` meets an enforced page. -/
def State.PassMeetsNone (cfg : Config) (s : State) : Prop :=
  ∀ t bytes t', beforeMigration s = .ok ((), t) → MigrateHead cfg 0 t bytes t' →
    bytes < pebsKswapdMigrateRate → ¬ t'.SkipsAtHead

/-- The page struct once a sample of type `j` has been counted. -/
def HememPage.counted (p : HememPage) (j : PbufType) : HememPage :=
  { p with
    accesses := update p.accesses j (p.accesses j + 1)
    totAccesses := update p.totAccesses j (p.totAccesses j + 1) }

/-- The request for a page with that many reads: hot or cold. -/
def HememPage.request (p : HememPage) (reads : UInt64) : Option Bool :=
  if hotReadThreshold ≤ reads then
    if !p.hot && !p.ringPresent then some true else none
  else
    if p.hot && !p.ringPresent then some false else none

/-- The request that a sample of type `j` on `page` makes. -/
def State.sampleRequests (s : State) (j : PbufType) (page : PageId) : Option Bool :=
  let p := (s.page page).counted j
  if p.va = 0 then none else p.request p.reads

/-- How many requests of a ring a pass serves at most. -/
def ringReqsThreshold (hot : Bool) : ℕ :=
  if hot then hotRingReqsThreshold else coldRingReqsThreshold

/-- The requests that a pass from this view takes are for present pages. -/
def View.TakesPresent (v : View) : Prop :=
  ∀ hot, ∀ p ∈ (v.requests hot).take (ringReqsThreshold hot), (v.page p).present = true

instance (v : View) : Decidable v.TakesPresent := by
  unfold View.TakesPresent
  infer_instance

/-- A hinted fault in this state is about to search for a victim and to meet an enforced page. -/
def State.FaultMeets (s : State) : Prop :=
  s.userHintTier = 0 ∧ (s.fifo.list .dramFree).last = none ∧
    ∃ c, (s.fifo.list .dramCold).last = some c ∧ (s.page c).enforced = true

instance (s : State) : Decidable s.FaultMeets :=
  decidable_of_iff (s.userHintTier = 0 ∧ (s.fifo.list .dramFree).last = none ∧
    ((s.fifo.list .dramCold).last.any fun c => (s.page c).enforced) = true)
    (by simp [State.FaultMeets, Option.any_eq_true])

/-- A hinted fault in this state is about to move down a page that is no longer present. -/
def State.FaultStale (s : State) : Prop :=
  s.userHintTier = 0 ∧ (s.fifo.list .dramFree).last = none ∧ (s.fifo.list .nvmFree).last ≠ none ∧
    ∃ c, s.victim = some c ∧ (s.page c).present = false

/-- A fault in this state finds a page: on a free list, or, hinted for DRAM with no free DRAM page,
a cold page that has its address and a free NVM page to move it to. -/
def State.FaultFinds (s : State) : Prop :=
  (s.fifo.list .dramFree).last ≠ none ∨ (s.fifo.list .nvmFree).last ≠ none ∧
    (s.userHintTier = 0 → ∃ c, s.victim = some c ∧ (s.page c).va ≠ 0)

/-- How many pages are given out. -/
def State.presentPages (cfg : Config) (s : State) : ℕ :=
  (List.range cfg.pages).countP fun p => (s.page p).present

/-- The hot flag of `p` once a pass has served its requests, if all pages are present. -/
def View.flagServed (v : View) (p : PageId) : Bool :=
  if p ∈ (v.requests false).take (ringReqsThreshold false) then false
  else if p ∈ (v.requests true).take (ringReqsThreshold true) then true
  else (v.page p).hot

/-- Every page is present; once the requests are served, a page of DRAM is cold and one of NVM is
hot, and that one is still read enough. -/
def View.Starved (cfg : Config) (v : View) : Prop :=
  (∀ p < cfg.pages, (v.page p).present = true) ∧
    (∃ c < cfg.pages, (v.page c).inDram = true ∧ v.flagServed c = false) ∧
      ∃ p < cfg.pages, (v.page p).inDram = false ∧ v.flagServed p = true ∧
        hotReadThreshold ≤ (v.page p).reads

instance (cfg : Config) (v : View) : Decidable (v.Starved cfg) := by
  unfold View.Starved
  infer_instance

/-- A page that is given out and has no address yet. -/
def View.Unplaced (v : View) : Prop :=
  ∃ p q, v.list p = some q ∧ q.kind ≠ .free ∧ (v.page p).va = 0

/-- The pass fails no assertion but that a page which is given out has its address, and then it
leaves the pages of NVM in use on lists of NVM. -/
def State.PassEnds (cfg : Config) (s : State) : Prop :=
  (∀ e, pebsPolicyPass cfg s = .error e → e = .wpVa ∧ s.view.Unplaced) ∧
  ∀ t, pebsPolicyPass cfg s = .ok ((), t) → ∀ p < cfg.pages, (t.page p).present = true →
    (t.page p).inDram = false → p ∈ t.fifo.contents .nvmHot ∨ p ∈ t.fifo.contents .nvmCold

/-- A fault in this state would take a page hinted for DRAM as hot. -/
def State.HotFault (s : State) : Prop := s.userHintTier = 0 ∧ s.userHintPriority = 1

instance (s : State) : Decidable s.HotFault := inferInstanceAs (Decidable (_ ∧ _))

/-- What a run may go through: hints, and the defects that come with them. -/
structure Allow where
  /-- a fault may be hinted -/
  hint : Prop
  /-- a victim search may meet an enforced page, which it drops -/
  skip : Prop
  /-- a hinted page may go to the hot list with its flag clear -/
  hotFault : Prop
  /-- a page may be moved down while freed pages wait to be drained -/
  stale : Prop
  /-- the dummy page of `hemem_init` may be freed -/
  dummy : Prop
  /-- the request of a removed page may be taken -/
  drop : Prop

variable (cfg : Config) (A : Allow)

/-- Why an exchange of `p` with the free page `np` aborts. -/
inductive ExchangeFails (v : View) (up : Bool) (p np : PageId) : Abort → Prop
  | wpVa (h : (v.page p).va = 0) : ExchangeFails v up p np .wpVa
  | wpAlign (h : (v.page p).va % hugepageSize ≠ 0) : ExchangeFails v up p np .wpAlign
  | inDram (h : (v.page p).inDram ≠ !up) : ExchangeFails v up p np .migrateInDram
  | range (ht : (v.page p).inDram = !up)
      (h : ¬ cfg.InRange (!up) (v.page p).devdaxOffset (ptToPagesize (v.page p).pt) ∨
        ¬ cfg.InRange up (v.page np).devdaxOffset (ptToPagesize (v.page p).pt)) :
      ExchangeFails v up p np .migrateRange

/-- What an exchange that succeeds has checked. -/
structure Exchangeable (v : View) (up : Bool) (p np : PageId) : Prop where
  va : (v.page p).va ≠ 0
  align : (v.page p).va % hugepageSize = 0
  inDram : (v.page p).inDram = !up
  enforced : up = false → (v.page p).enforced = false

/-- One thing the policy thread does. -/
inductive Move : View → View → Prop
  /-- The cursors move along their lists. -/
  | cursor {v : View} (c : Bool → Option PageId)
      (hc : ∀ dram x, c dram = some x → v.cur dram = some x ∨ v.list x = some (hotList dram)) :
      Move v { v with cur := c }
  /-- A removed page goes to the free list of its tier. -/
  | drain {v : View} {p : PageId} {rest : List PageId} {q : ListId} (hf : v.free = p :: rest)
      (hl : v.list p = some q) (hc : v.NoCursor p) :
      Move v ({ v with free := rest }.put (freeList (v.page p).inDram) p)
  /-- The request of a removed page is dropped. -/
  | stale {v : View} (hot : Bool) {p : PageId} {rest : List PageId} (hd : A.drop)
      (hr : v.requests hot = p :: rest) (hp : (v.page p).present = false) :
      Move v (v.setRequests hot rest)
  /-- A page goes to the list it is requested for. -/
  | serve {v : View} (hot : Bool) {p : PageId} {rest : List PageId}
      (hr : v.requests hot = p :: rest) (hp : (v.page p).present = true) (hc : v.NoCursor p)
      (hl : v.list p = some (usedList (v.page p).inDram (v.page p).hot)) :
      Move v (((v.setRequests hot rest).edit p ({ · with ringPresent := false, hot := hot })).put
        (usedList (v.page p).inDram hot) p)
  /-- A page of NVM hot has cooled since it got there. -/
  | coolNvm {v : View} {p : PageId} (hl : v.list p = some .nvmHot) (hc : v.cur false ≠ some p) :
      Move v ((v.edit p ({ · with hot := false })).put .nvmCold p)
  /-- A hot page moves up. -/
  | promote {v : View} {p np : PageId} (hf : v.free = []) (hl : v.list p = some .nvmHot)
      (hc : v.cur false ≠ some p) (hn : v.list np = some .dramFree)
      (he : Exchangeable v true p np) (hp : (v.page np).present = false) :
      Move v (v.exchange true p np)
  /-- A cold page moves down. -/
  | demote {v : View} {p np : PageId} (hf : v.free = [] ∨ A.stale ∨ (v.page p).present = true)
      (hl : v.list p = some .dramCold) (hn : v.list np = some .nvmFree)
      (he : Exchangeable v false p np) : Move v (v.exchange false p np)
  /-- A victim search drops enforced pages. -/
  | skip {v : View} (l : PageId → Option ListId) (hs : A.skip)
      (hl : ∀ x, l x = v.list x ∨
        l x = none ∧ v.list x = some .dramCold ∧ (v.page x).enforced = true) :
      Move v { v with list := l }
  /-- Cooling has come to a page of a hot list, and leaves it there or not. -/
  | cool {v : View} (dram : Bool) {p : PageId} (hot : Bool) (c : Option PageId)
      (hl : v.list p = some (hotList dram)) (ht : (v.page p).inDram = dram)
      (hh : hot = true → (v.page p).hot = true)
      (hc : ∀ x, c = some x → v.list x = some (hotList dram) ∧ (x = p → hot = true)) :
      Move v (((v.edit p ({ · with hot := hot })).put (usedList dram hot) p).setCur dram c)

/-- The views in which the policy thread aborts, by reason. -/
inductive Fails : View → Abort → Prop
  | cursor {v : View} (dram : Bool) {c : PageId} (hc : v.cur dram = some c)
      (hl : v.list c ≠ some (hotList dram)) {e : Abort}
      (he : e = .coolCursor ∨ e = .fifo .nextList) : Fails v e
  | drainList {v : View} {p : PageId} {rest : List PageId} (hf : v.free = p :: rest)
      (hl : v.list p = none) : Fails v .drainList
  | requestList {v : View} (hot : Bool) {p : PageId} {rest : List PageId} (hf : v.free = [])
      (hr : v.requests hot = p :: rest) (hp : (v.page p).present = false)
      (hl : v.list p ≠ some (freeList (v.page p).inDram)) : Fails v .requestList
  | setHotVa {v : View} (hot : Bool) {p : PageId} {rest : List PageId}
      (hr : v.requests hot = p :: rest) (hp : (v.page p).present = true)
      (hv : (v.page p).va = 0) {e : Abort} (he : e = .makeHotVa ∨ e = .makeColdVa) : Fails v e
  | setHotList {v : View} (hot : Bool) {p : PageId} {rest : List PageId}
      (hr : v.requests hot = p :: rest) (hp : (v.page p).present = true)
      (hl : v.list p ≠ some (usedList (v.page p).inDram (v.page p).hot)) {e : Abort}
      (he : e = .makeHotList ∨ e = .makeColdList) : Fails v e
  | coolInDram {v : View} (dram : Bool) {p : PageId} (hl : v.list p = some (hotList dram))
      (ht : (v.page p).inDram ≠ dram) : Fails v .coolInDram
  | takeInDram {v : View} (dram : Bool) {p : PageId} (hl : v.list p = some (freeList dram))
      (ht : (v.page p).inDram ≠ dram) {e : Abort} (he : e = .allocInDram ∨ e = .hintedInDram) :
      Fails v e
  | takePresent {v : View} (dram : Bool) {p : PageId} (hl : v.list p = some (freeList dram))
      (hp : (v.page p).present = true) {e : Abort}
      (he : e = .policyPresent ∨ e = .allocPresent ∨ e = .hintedPresent) : Fails v e
  | outOfMemory {v : View} : Fails v .outOfMemory
  | policyNp {v : View} (hl : ∀ p, v.list p ≠ some .nvmFree) : Fails v .policyNp
  | exchange {v : View} (up : Bool) {p np : PageId} {e : Abort}
      (hl : v.list p = some (if up then .nvmHot else .dramCold))
      (hn : v.list np = some (freeList up)) (he : ExchangeFails cfg v up p np e) : Fails v e

/-- Some things the policy thread does, one after another. -/
def Moves : View → View → Prop := Relation.ReflTransGen (Move A)

/-- Some moves lead to a view that aborts with `e`. -/
def Doomed (v : View) (e : Abort) : Prop := ∃ v', Moves A v v' ∧ Fails cfg v' e

end HeMem

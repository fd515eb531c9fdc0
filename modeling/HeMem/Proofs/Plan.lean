import HeMem.Plan
import HeMem.Proofs.Frames
import HeMem.Proofs.MigrateRace

/-!
# The migration loop carries out its plan

Each turn of the loop takes one page of NVM hot, and its migrations are the next ones of the plan for
the sequences it finds.
-/

namespace HeMem

open Hoare Function

variable {cfg : Config} {kernel : Kernel} {s t : State} {p np : PageId}

section Plan

variable {room : ℕ} {risers victims : List PageId}

theorem migrations_nil : migrations room [] victims = [] := by cases room <;> rfl

/-- A page that moves up is a riser, one that moves down a victim. -/
theorem mem_migrations : ∀ {room : ℕ} {risers victims : List PageId} {up : Bool} {p : PageId},
    (up, p) ∈ migrations room risers victims → p ∈ if up then risers else victims
  | _, [], _, _, _, h => by
    rw [migrations_nil] at h
    exact (List.not_mem_nil h).elim
  | room + 1, x :: risers, victims, up, p, h => by
    rcases List.mem_cons.1 h with he | h
    · cases he
      exact List.mem_cons_self
    · have hm := mem_migrations h
      cases up with
      | true => exact List.mem_cons_of_mem _ hm
      | false => exact hm
  | 0, _ :: _, [], _, _, h => (List.not_mem_nil h).elim
  | 0, x :: risers, c :: victims, up, p, h => by
    rcases List.mem_cons.1 h with he | h
    · cases he
      exact List.mem_cons_self
    rcases List.mem_cons.1 h with he | h
    · cases he
      exact List.mem_cons_self
    · have hm := mem_migrations h
      cases up with
      | true => exact List.mem_cons_of_mem _ hm
      | false => exact List.mem_cons_of_mem _ hm

/-- No page moves twice. -/
theorem migrations_nodup : ∀ {room : ℕ} {risers victims : List PageId}, risers.Nodup →
    victims.Nodup → (∀ p ∈ risers, p ∉ victims) →
    ((migrations room risers victims).map Prod.snd).Nodup
  | room, [], victims, _, _, _ => by
    rw [migrations_nil]
    exact List.nodup_nil
  | room + 1, x :: risers, victims, hr, hv, hd => by
    rw [List.nodup_cons] at hr
    rw [migrations, List.map_cons, List.nodup_cons]
    refine ⟨fun hx => ?_, migrations_nodup hr.2 hv fun p hp => hd p (List.mem_cons_of_mem _ hp)⟩
    obtain ⟨⟨up, y⟩, hy, rfl⟩ := List.mem_map.1 hx
    have hm := mem_migrations hy
    cases up with
    | true => exact hr.1 hm
    | false => exact hd y List.mem_cons_self hm
  | 0, _ :: _, [], _, _, _ => List.nodup_nil
  | 0, x :: risers, c :: victims, hr, hv, hd => by
    rw [List.nodup_cons] at hr hv
    rw [migrations, List.map_cons, List.map_cons, List.nodup_cons, List.nodup_cons]
    have hxc : c ≠ x := fun h => hd x List.mem_cons_self (h ▸ List.mem_cons_self)
    refine ⟨fun hc => ?_, fun hx => ?_, migrations_nodup hr.2 hv.2 fun p hp hpv =>
      hd p (List.mem_cons_of_mem _ hp) (List.mem_cons_of_mem _ hpv)⟩
    · rcases List.mem_cons.1 hc with hc | hc
      · exact hxc hc
      obtain ⟨⟨up, y⟩, hy, rfl⟩ := List.mem_map.1 hc
      have hm := mem_migrations hy
      cases up with
      | true => exact hd y (List.mem_cons_of_mem _ hm) List.mem_cons_self
      | false => exact hv.1 hm
    · obtain ⟨⟨up, y⟩, hy, rfl⟩ := List.mem_map.1 hx
      have hm := mem_migrations hy
      cases up with
      | true => exact hr.1 hm
      | false => exact hd y List.mem_cons_self (List.mem_cons_of_mem _ hm)

end Plan

section Lists

theorem risers_congr (hc : t.fifo.contents .nvmHot = s.fifo.contents .nvmHot)
    (hp : ∀ x ∈ s.fifo.contents .nvmHot, t.page x = s.page x) : t.risers = s.risers := by
  unfold State.risers
  rw [hc]
  exact List.filter_congr fun x hx => by rw [hp x (List.mem_reverse.1 hx)]

theorem victims_congr (hc : t.fifo.contents .dramCold = s.fifo.contents .dramCold)
    (hp : ∀ x ∈ s.fifo.contents .dramCold, t.page x = s.page x) : t.victims = s.victims := by
  unfold State.victims
  rw [hc]
  exact List.filter_congr fun x hx => by rw [hp x (List.mem_reverse.1 hx)]

/-- What is done to pages on other lists leaves the risers, the victims and the room. -/
structure SameFront (s t : State) : Prop where
  risers : t.risers = s.risers
  victims : t.victims = s.victims
  room : t.room = s.room

/-- The list a page goes to when it moves. -/
def movedTo (up : Bool) : ListId := if up then .dramHot else .nvmCold

theorem exchange_contents {up : Bool} (hw : s.fifo.Wf) (hp : s.fifo.listOf p = none)
    (hn : s.fifo.listOf np = none) (hne : p ≠ np) : Sat (exchange cfg up p np)
      (fun _ u => u.fifo.contents = update (update s.fifo.contents (movedTo up)
        (p :: s.fifo.contents (movedTo up))) (freeList !up) (np :: s.fifo.contents (freeList !up)))
      (fun _ => True) s := by
  have hdir : (if up then pebsMigrateUp cfg else pebsMigrateDown cfg) = pebsMigrate cfg up := by
    cases up <;> rfl
  unfold exchange
  rw [hdir]
  refine sat_getPage.2 (sat_getPage.2 ?_)
  refine (frames_linksMarks_pebsMigrate s).bind fun _ u hu => sat_modifyPage.2 ?_
  have hf : u.fifo = s.fifo := (Prod.mk.inj hu).1
  obtain ⟨h₁, he₁, hw₁, hl₁⟩ := hw.enqueue (q := movedTo up) hp
  have hn₁ : h₁.listOf np = none := by
    rw [hl₁, update_of_ne hne.symm]
    exact hn
  obtain ⟨h₂, he₂, hw₂, -⟩ := hw₁.enqueue (q := freeList !up) hn₁
  rw [sat_bind, sat_onFifo (a := ()) (h := h₁) (by rw [← hf] at he₁; exact he₁),
    sat_onFifo (a := ()) (h := h₂) he₂]
  have hfree : freeList (!up) ≠ movedTo up := by cases up <;> simp [freeList, movedTo]
  change h₂.contents = _
  rw [hw₁.contents_enqueue hn₁ he₂, hw.contents_enqueue hp he₁, update_of_ne hfree]

/-- What an exchange of a page in hand with a free page in hand leaves. -/
structure Exchanged (up : Bool) (p np : PageId) (s t : State) : Prop where
  good : t.Good
  front : t.risers = s.risers ∧ t.victims = s.victims
  room : t.room = s.room + if up then 0 else 1
  moves : t.moves = (up, p) :: s.moves
  pt : ∀ x, (t.page x).pt = (s.page x).pt
  page : ∀ x, x ≠ p → x ≠ np → t.page x = s.page x
  off : ∀ x, x ≠ p → x ≠ np → t.fifo.listOf x = s.fifo.listOf x
  free : up = false → t.fifo.contents .dramFree = np :: s.fifo.contents .dramFree

theorem exchange_exchanged {up : Bool} (hg : s.Good) (hp : s.fifo.listOf p = none)
    (hn : s.fifo.listOf np = none) (hne : p ≠ np) (hen : up = false → (s.page p).enforced = false) :
    Sat (exchange cfg up p np) (fun _ t => Exchanged up p np s t) (fun _ => True) s := by
  refine (((exchange_spec up p np hp hn hne hen).at hg rfl).and
    (exchange_contents hg.fifo hp hn hne)).mono (fun _ t ⟨⟨hg', _, hv⟩, hc⟩ => ?_)
    fun _ _ => trivial
  have hpage : ∀ x, x ≠ p → x ≠ np → t.page x = s.page x := fun x hx hxn =>
    (congrFun (congrArg View.page hv) x).trans (exchange_page_of_ne hx hxn)
  have hlist : ∀ q, q = .nvmHot ∨ q = .dramCold → t.fifo.contents q = s.fifo.contents q := by
    intro q hq
    rw [hc]
    rcases hq with rfl | rfl <;> cases up <;> simp [freeList, movedTo]
  have hmem : ∀ q, ∀ x ∈ s.fifo.contents q, t.page x = s.page x := by
    intro q x hx
    have hx := hg.fifo.mem_contents.1 hx
    refine hpage x ?_ ?_
    · rintro rfl
      rw [hp] at hx
      cases hx
    · rintro rfl
      rw [hn] at hx
      cases hx
  refine ⟨hg', ⟨risers_congr (hlist _ (.inl rfl)) (hmem _), victims_congr (hlist _ (.inr rfl))
    (hmem _)⟩, ?_, ?_, fun x => ?_, hpage, fun x hx hxn => ?_, ?_⟩
  · unfold State.room
    rw [hc]
    cases up <;> simp [freeList, movedTo]
  · exact congrArg (List.map MigrateCall.move) (congrArg View.calls hv)
  · exact (congrArg HememPage.pt (congrFun (congrArg View.page hv) x)).trans (exchange_pt x)
  · have hl := congrFun (congrArg View.list hv) x
    rw [exchange_list_apply, if_neg hxn, if_neg hx] at hl
    exact hl
  · rintro rfl
    rw [hc]
    simp [freeList, movedTo]

end Lists

section Victim

/-- What a victim search leaves: the victims after the one it has found. -/
structure Searched (s : State) (r : Option PageId) (t : State) : Prop where
  good : t.Good
  page : t.page = s.page
  calls : t.calls = s.calls
  contents : ∀ q, q ≠ .dramCold → t.fifo.contents q = s.fifo.contents q
  off : ∀ x, s.fifo.listOf x = none → t.fifo.listOf x = none
  nothing : r = none → s.victims = []
  found : ∀ c, r = some c → s.victims = c :: t.victims ∧ t.fifo.listOf c = none ∧
    s.fifo.listOf c = some .dramCold ∧ (s.page c).enforced = false

theorem coldVictim_searched : ∀ {fuel : ℕ} {s : State}, s.Good →
    (s.fifo.contents .dramCold).length < fuel →
    Sat (coldVictim fuel) (fun r t => Searched s r t) (fun _ => False) s
  | 0, _, _, h => absurd h (by omega)
  | fuel + 1, s, hg, h => by
    unfold coldVictim
    rcases hg.fifo.dequeue .dramCold with ⟨he, hc, -⟩ | ⟨c, h', he, hw, hc, hcp, hl, ho⟩
    · rw [sat_bind, sat_onFifo he]
      refine ⟨hg, rfl, rfl, fun _ _ => rfl, fun _ => id, fun _ => ?_, fun _ hr => by cases hr⟩
      rw [State.victims, hc]
      rfl
    have hg' : ({ s with fifo := h' } : State).Good := ⟨hw, hg.requests, hg.free⟩
    have hoff : ∀ x, s.fifo.listOf x = none → h'.listOf x = none := fun x hx => by
      rw [hl, update_apply]
      split
      · rfl
      · exact hx
    have hvict : s.victims = [c].filter (fun p => !(s.page p).enforced) ++
        ({ s with fifo := h' } : State).victims := by
      unfold State.victims
      rw [hc, List.reverse_append, List.filter_append]
      rfl
    rw [sat_bind, sat_onFifo he]
    refine sat_getPage.2 ?_
    rw [sat_ite]
    constructor
    · intro (hen : (s.page c).enforced = true)
      have hlen : (h'.contents .dramCold).length < fuel := by
        rw [hc, List.length_append] at h
        simp only [List.length_singleton] at h
        omega
      have hskip : s.victims = ({ s with fifo := h' } : State).victims := by simp [hvict, hen]
      refine (coldVictim_searched hg' hlen).post fun r t ht => ⟨ht.good, ht.page, ht.calls,
        fun q hq => (ht.contents q hq).trans (ho q hq), fun x hx => ht.off x (hoff x hx),
        fun hr => hskip.trans (ht.nothing hr), fun d hd => ?_⟩
      obtain ⟨h1, h2, h3, h4⟩ := ht.found d hd
      refine ⟨hskip.trans h1, h2, ?_, h4⟩
      have h3 : h'.listOf d = some .dramCold := h3
      rw [hl, update_apply] at h3
      split at h3
      · cases h3
      · exact h3
    · intro (hen : ¬ (s.page c).enforced = true)
      have hen : (s.page c).enforced = false := by simpa using hen
      refine ⟨hg', rfl, rfl, ho, hoff, fun hr => (Option.some_ne_none c hr).elim, fun d hd => ?_⟩
      cases hd
      refine ⟨by simp [hvict, hen], ?_, hcp, hen⟩
      exact (congrFun hl c).trans (update_self ..)

end Victim

section Turn

variable {b : UInt64}

/-- The page `p` in hand has moved up, after the migrations `l` which end with it. -/
structure Lifted (p : PageId) (s t : State) (l : List (Bool × PageId)) : Prop where
  good : t.Good
  pt : ∀ x, (t.page x).pt = (s.page x).pt
  moves : t.moves = l.reverse ++ s.moves
  risers : t.risers = s.risers
  space : s.room + s.victims.length = t.room + t.victims.length + 1
  plan : ∀ R, migrations s.room (p :: R) s.victims = l ++ migrations t.room R t.victims

theorem migrateTries_room {k : ℕ} (hg : s.Good) (hp : s.fifo.listOf p = none)
    (hpt : (s.page p).pt = .hugep) (hr : s.room ≠ 0) : Sat (migrateTries cfg p b (k + 1))
      (fun r t => r = .next (b + hugepageSize) ∧ Lifted p s t [(true, p)]) (fun _ => True) s := by
  unfold migrateTries
  rcases hg.fifo.dequeue .dramFree with ⟨-, hc, -⟩ | ⟨np, h', he, hw, hc, hnp, hl, ho⟩
  · exact (hr (congrArg List.length hc)).elim
  have hne : p ≠ np := by
    rintro rfl
    rw [hp] at hnp
    cases hnp
  have hg' : ({ s with fifo := h' } : State).Good := ⟨hw, hg.requests, hg.free⟩
  have hfront : ∀ q, q ≠ .dramFree → h'.contents q = s.fifo.contents q := ho
  have hroom : s.room = ({ s with fifo := h' } : State).room + 1 := by
    unfold State.room
    rw [hc, List.length_append]
    rfl
  rw [sat_bind, sat_onFifo he]
  refine sat_getPage.2 ?_
  rw [sat_bind, sat_check]
  refine ⟨fun _ => ?_, fun _ => trivial⟩
  refine (exchange_exchanged hg' ?_ ?_ hne (by simp)).bind fun _ t ht => ?_
  · exact (congrFun hl p).trans (by rw [update_of_ne hne, hp])
  · exact (congrFun hl np).trans (update_self ..)
  refine sat_getPage.2 ⟨?_, ht.good, ht.pt, ht.moves, ?_, ?_, fun R => ?_⟩
  · rw [ht.pt p, hpt]
    rfl
  · exact ht.front.1.trans (risers_congr (ho _ (by simp)) fun _ _ => rfl)
  all_goals
    have hvict : t.victims = s.victims :=
      ht.front.2.trans (victims_congr (ho _ (by simp)) fun _ _ => rfl)
    have htroom : s.room = t.room + 1 := hroom.trans (by rw [ht.room]; rfl)
  · rw [hvict, htroom]
    omega
  · rw [hvict, htroom]
    rfl

/-- A page lifted into the frame that the only victim taken has left. -/
theorem Lifted.lowered {u w t : State} {c : PageId} (ht : Lifted p w t [(true, p)])
    (hr : s.room = 0) (hvict : s.victims = c :: u.victims) (hwroom : w.room = 1)
    (hwv : w.victims = u.victims) (hwr : w.risers = s.risers)
    (hwpt : ∀ x, (w.page x).pt = (s.page x).pt) (hwm : w.moves = (false, c) :: s.moves) :
    Lifted p s t [(false, c), (true, p)] := by
  refine ⟨ht.good, fun x => (ht.pt x).trans (hwpt x), ?_, ht.risers.trans hwr, ?_, fun R => ?_⟩
  · rw [ht.moves, hwm]
    rfl
  · have hspace := ht.space
    rw [hwroom, hwv] at hspace
    rw [hr, hvict, List.length_cons]
    omega
  · have hplan := ht.plan R
    rw [hwroom, hwv] at hplan
    have hroom : migrations 0 R u.victims = migrations t.room R t.victims :=
      (List.cons.inj hplan).2
    rw [hr, hvict, ← hroom]
    rfl

/-- The tries for the page `p` in hand. -/
theorem migrateTries_planned (hg : s.Good) (hp : s.fifo.listOf p = none)
    (hpt : ∀ x, (s.page x).pt = .hugep) : Sat (migrateTries cfg p b 2)
      (fun r t => (∃ l, r = .next (b + hugepageSize) ∧ Lifted p s t l) ∨
        r = .out ∧ t.moves = s.moves ∧ s.room = 0 ∧ s.victims = []) (fun _ => True) s := by
  rcases Nat.eq_zero_or_pos s.room with hr | hr
  swap
  · exact (migrateTries_room hg hp (hpt p) (by omega)).post fun _ _ h => .inl ⟨_, h⟩
  have hc : s.fifo.contents .dramFree = [] := List.length_eq_zero_iff.1 hr
  have he : dequeueFifo .dramFree s.fifo = .ok (none, s.fifo) :=
    dequeueFifo_empty (by rw [hg.fifo.last_eq, hc]; rfl)
  have hlen : (s.fifo.contents .dramCold).length < (s.fifo.list .dramCold).numentries + 1 := by
    rw [hg.fifo.length_contents]
    omega
  unfold migrateTries
  rw [sat_bind, sat_onFifo he]
  dsimp only
  rw [listLength, sat_bind, sat_bind, sat_get, sat_pure]
  refine ((coldVictim_searched hg hlen).mono (fun _ _ => id) fun _ => False.elim).bind
    fun r u hu => ?_
  have hpu := hu.off p hp
  cases r with
  | none =>
    obtain ⟨h', he', -, -⟩ := hu.good.fifo.enqueue (q := .nvmHot) hpu
    dsimp only
    rw [sat_bind, sat_onFifo he']
    exact .inr ⟨rfl, congrArg (List.map MigrateCall.move) hu.calls, hr, hu.nothing rfl⟩
  | some c =>
    obtain ⟨hvict, hcu, hcs, hen⟩ := hu.found c rfl
    dsimp only
    rcases hu.good.fifo.dequeue .nvmFree with ⟨he', -, -⟩ | ⟨np, h', he', hw', hc', hnp, hl', ho'⟩
    · rw [sat_bind, sat_onFifo he']
      trivial
    have hpc : p ≠ c := by
      rintro rfl
      rw [hp] at hcs
      cases hcs
    have hcnp : c ≠ np := by
      rintro rfl
      rw [hcu] at hnp
      cases hnp
    have hpnp : p ≠ np := by
      rintro rfl
      rw [hpu] at hnp
      cases hnp
    have hg' : ({ u with fifo := h' } : State).Good := ⟨hw', hu.good.requests, hu.good.free⟩
    have hfree : h'.contents .dramFree = [] :=
      ((ho' _ (by simp)).trans (hu.contents _ (by simp))).trans hc
    rw [sat_bind, sat_onFifo he']
    refine sat_getPage.2 ?_
    rw [sat_bind, sat_check]
    refine ⟨fun _ => ?_, fun _ => trivial⟩
    refine (exchange_exchanged hg' ?_ ?_ hcnp ?_).bind fun _ w hw => ?_
    · exact (congrFun hl' c).trans (by rw [update_of_ne hcnp, hcu])
    · exact (congrFun hl' np).trans (update_self ..)
    · intro _
      change (u.page c).enforced = false
      rw [hu.page]
      exact hen
    -- the frame that the victim has left is free now
    have hwroom : w.room = 1 := congrArg List.length ((hw.free rfl).trans (congrArg _ hfree))
    have hwp : w.fifo.listOf p = none :=
      (hw.off p hpc hpnp).trans ((congrFun hl' p).trans (by rw [update_of_ne hpnp, hpu]))
    have hwpt : ∀ x, (w.page x).pt = (s.page x).pt := fun x =>
      (hw.pt x).trans (congrArg HememPage.pt (congrFun hu.page x))
    have hwr : w.risers = s.risers := hw.front.1.trans (risers_congr
      ((ho' _ (by simp)).trans (hu.contents _ (by simp))) fun x _ => congrFun hu.page x)
    have hwv : w.victims = u.victims := hw.front.2.trans
      (victims_congr (ho' _ (by simp)) fun _ _ => rfl)
    have hwm : w.moves = (false, c) :: s.moves :=
      hw.moves.trans (congrArg (_ :: ·) (congrArg (List.map MigrateCall.move) hu.calls))
    exact (migrateTries_room hw.good hwp ((hwpt p).trans (hpt p)) (by omega)).post fun r t hrt =>
      .inl ⟨_, hrt.1, hrt.2.lowered hr hvict hwroom hwv hwr hwpt hwm⟩

/-- A page that has cooled is on no list the plan reads. -/
theorem migrateCool_planned (hg : s.Good) (hp : s.fifo.listOf p = none) : Sat (do
      modifyPage p ({ · with hot := false })
      onFifo (enqueueFifo .nvmCold p)
      return Turn.next b) (fun r t => r = .next b ∧ t.Good ∧
        (∀ x, (t.page x).pt = (s.page x).pt) ∧ t.moves = s.moves ∧ SameFront s t)
      (fun _ => True) s := by
  obtain ⟨h', he, hw, -⟩ := hg.fifo.enqueue (q := .nvmCold) hp
  have hc := hg.fifo.contents_enqueue hp he
  have hfront : ∀ q, q ≠ .nvmCold → h'.contents q = s.fifo.contents q := fun q hq => by
    rw [hc, update_of_ne hq]
  have hpage : ∀ q, ∀ x ∈ s.fifo.contents q,
      update s.page p { s.page p with hot := false } x = s.page x := by
    intro q x hx
    refine update_of_ne ?_ _ _
    rintro rfl
    rw [hg.fifo.mem_contents, hp] at hx
    cases hx
  refine sat_modifyPage.2 ?_
  rw [sat_bind, sat_onFifo (a := ()) (h := h') (by exact he)]
  refine ⟨rfl, ⟨hw, hg.requests, hg.free⟩, fun x => ?_, rfl,
    risers_congr (hfront _ (by simp)) (hpage _), victims_congr (hfront _ (by simp)) (hpage _),
    congrArg List.length (hfront _ (by simp))⟩
  dsimp only
  rw [update_apply]
  split
  · rename_i hx
    rw [hx]
  · rfl

/-- What a turn leaves the loop with: nothing hot, a page that has cooled less, a page moved up, or
no frame to move one to. -/
def TurnPlanned (b : UInt64) (s : State) (r : Turn) (t : State) : Prop :=
  (r = .bail ∧ t.moves = s.moves ∧ s.risers = []) ∨
  (r = .next b ∧ t.Good ∧ (∀ x, (t.page x).pt = (s.page x).pt) ∧ t.moves = s.moves ∧
    SameFront s t) ∨
  (∃ p l, r = .next (b + hugepageSize) ∧ t.Good ∧ (∀ x, (t.page x).pt = (s.page x).pt) ∧
    t.moves = l.reverse ++ s.moves ∧ s.risers = p :: t.risers ∧
    s.room + s.victims.length = t.room + t.victims.length + 1 ∧
    ∀ R, migrations s.room (p :: R) s.victims = l ++ migrations t.room R t.victims) ∨
  r = .out ∧ t.moves = s.moves ∧ s.room = 0 ∧ s.victims = [] ∧ s.risers ≠ []

/-- The page in hand is judged in a state `u` whose other fronts are those the turn has found. -/
theorem migrateJudge_planned {u : State} (hg : u.Good) (hp : u.fifo.listOf p = none)
    (hpt : ∀ x, (u.page x).pt = .hugep) (hupt : ∀ x, (u.page x).pt = (s.page x).pt)
    (hmoves : u.moves = s.moves) (hrise : s.risers =
      [p].filter (fun p => decide (hotReadThreshold ≤ (u.page p).reads)) ++ u.risers)
    (hvict : u.victims = s.victims) (hroom : u.room = s.room) : Sat (do
      if (← getPage p).reads < hotReadThreshold then
        modifyPage p ({ · with hot := false })
        onFifo (enqueueFifo .nvmCold p)
        return .next b
      else
        migrateTries cfg p b 2) (fun r t => TurnPlanned b s r t) (fun _ => True) u := by
  refine sat_getPage.2 ?_
  rw [sat_ite]
  refine ⟨fun hreads => ?_, fun hreads => ?_⟩
  · have hcold : s.risers = u.risers := by simp [hrise, UInt64.not_le.2 hreads]
    refine (migrateCool_planned hg hp).post fun r t ht => ?_
    obtain ⟨hr, hgt, hptt, hm, hf⟩ := ht
    exact .inr (.inl ⟨hr, hgt, fun x => (hptt x).trans (hupt x), hm.trans hmoves,
      hf.risers.trans hcold.symm, hf.victims.trans hvict, hf.room.trans hroom⟩)
  · have hhot : s.risers = p :: u.risers := by simp [hrise, UInt64.not_lt.1 hreads]
    refine (migrateTries_planned hg hp hpt).post fun r t ht => ?_
    rcases ht with ⟨l, hr, ht⟩ | ⟨hr, hm, hroom', hv⟩
    · refine .inr (.inr (.inl ⟨p, l, hr, ht.good, fun x => (ht.pt x).trans (hupt x), ?_, ?_, ?_,
        fun R => ?_⟩))
      · rw [ht.moves, hmoves]
      · rw [hhot, ht.risers]
      · rw [← hroom, ← hvict]
        exact ht.space
      · rw [← hroom, ← hvict]
        exact ht.plan R
    · refine .inr (.inr (.inr ⟨hr, hm.trans hmoves, hroom ▸ hroom', hvict ▸ hv, ?_⟩))
      rw [hhot]
      exact List.cons_ne_nil _ _

theorem migrateTurn_planned (hg : s.Good) (hpt : ∀ x, (s.page x).pt = .hugep) :
    Sat (migrateTurn cfg b) (fun r t => TurnPlanned b s r t) (fun _ => True) s := by
  unfold migrateTurn
  rcases hg.fifo.dequeue .nvmHot with ⟨he, hc, -⟩ | ⟨p, h', he, hw, hc, hp, hl, ho⟩
  · rw [sat_bind, sat_onFifo he]
    refine .inl ⟨rfl, rfl, ?_⟩
    rw [State.risers, hc]
    rfl
  have hg₁ : ({ s with fifo := h' } : State).Good := ⟨hw, hg.requests, hg.free⟩
  have hrise : s.risers = [p].filter (fun p => decide (hotReadThreshold ≤ (s.page p).reads)) ++
      ({ s with fifo := h' } : State).risers := by
    unfold State.risers
    rw [hc, List.reverse_append, List.filter_append]
    rfl
  rw [sat_bind, sat_onFifo he]
  dsimp only
  have hoff : h'.listOf p = none := (congrFun hl p).trans (update_self ..)
  have hvict : ({ s with fifo := h' } : State).victims = s.victims :=
    victims_congr (ho _ (by simp)) fun _ _ => rfl
  have hroom : ({ s with fifo := h' } : State).room = s.room :=
    congrArg List.length (ho _ (by simp))
  rw [sat_bind, sat_get, sat_ite]
  refine ⟨fun _ => ?_, fun _ => ?_⟩
  · rw [sat_bind, sat_modify]
    exact migrateJudge_planned (s := s) (hg₁.setCur false (h'.list .nvmHot).first).1 hoff hpt
      (fun _ => rfl) rfl hrise hvict hroom
  · exact migrateJudge_planned (s := s) hg₁ hoff hpt (fun _ => rfl) rfl hrise hvict hroom

end Turn

section Loop

/-- What has been migrated of a pass when `n` pages may still move up. -/
def migratedBefore (n : ℕ) : UInt64 := UInt64.ofNat ((pagesPerPass - n) * 2 ^ 21)

theorem toNat_migratedBefore {n : ℕ} :
    (migratedBefore n).toNat = (pagesPerPass - n) * 2 ^ 21 := by
  refine UInt64.toNat_ofNat_of_lt' ?_
  have hle : pagesPerPass - n ≤ 5120 := Nat.sub_le _ _
  change _ < 2 ^ 64
  omega

theorem migratedBefore_lt {n : ℕ} (hn : n ≤ pagesPerPass) :
    migratedBefore n < pebsKswapdMigrateRate ↔ n ≠ 0 := by
  rw [UInt64.lt_iff_toNat_lt, toNat_migratedBefore]
  change (5120 - n) * 2 ^ 21 < 10 * 1024 * 1024 * 1024 ↔ _
  have hn : n ≤ 5120 := hn
  omega

theorem migratedBefore_add {n : ℕ} (hn : n + 1 ≤ pagesPerPass) :
    migratedBefore (n + 1) + hugepageSize = migratedBefore n := by
  have hn : n + 1 ≤ 5120 := hn
  refine UInt64.toNat_inj.1 ?_
  rw [UInt64.toNat_add, toNat_migratedBefore, toNat_migratedBefore]
  change ((5120 - (n + 1)) * 2 ^ 21 + 2 * 1024 * 1024) % 2 ^ 64 = (5120 - n) * 2 ^ 21
  omega

/-- With `n` pages still to move, the loop carries out the plan for that many, and goes on to the
cooling unless a page is left without a frame. -/
theorem migrateLoop_planned : ∀ {fuel n : ℕ} {s : State}, s.Good →
    (∀ x, (s.page x).pt = .hugep) → n ≤ pagesPerPass →
    Sat (migrateLoop cfg fuel (migratedBefore n)) (fun r t =>
      t.moves = (migrations s.room (s.risers.take n) s.victims).reverse ++ s.moves ∧
        (r = true ↔ (s.risers.take n).length ≤ s.room + s.victims.length)) (fun _ => True) s
  | 0, _, _, _, _, _ => trivial
  | fuel + 1, 0, s, _, _, hn => by
    unfold migrateLoop
    rw [if_neg (by simp [migratedBefore_lt hn])]
    simp [migrations_nil]
  | fuel + 1, n + 1, s, hg, hpt, hn => by
    unfold migrateLoop
    rw [if_pos ((migratedBefore_lt hn).2 (Nat.succ_ne_zero n))]
    refine (migrateTurn_planned hg hpt).bind fun r t ht => ?_
    rcases ht with ⟨rfl, hm, hr⟩ | ⟨rfl, hg', hpt', hm, hfr⟩ |
      ⟨p, l, rfl, hg', hpt', hm, hr, hsp, hplan⟩ | ⟨rfl, hm, hroom, hv, hr⟩
    · simp [hr, migrations_nil, hm]
    · refine (migrateLoop_planned hg' (fun x => (hpt' x).trans (hpt x)) hn).post fun r u hu => ?_
      rw [hfr.risers, hfr.victims, hfr.room, hm] at hu
      exact hu
    · rw [migratedBefore_add hn]
      refine (migrateLoop_planned hg' (fun x => (hpt' x).trans (hpt x)) (by omega)).post
        fun r u hu => ?_
      rw [hu.1, hu.2, hm, hr, List.take_succ_cons, hplan, List.reverse_append, List.append_assoc,
        List.length_cons]
      exact ⟨rfl, by omega⟩
    · obtain ⟨p, R, hR⟩ := List.exists_cons_of_ne_nil hr
      simp [hR, hroom, hv, hm, migrations]

end Loop

section Pass

theorem nodup_risers (hw : s.fifo.Wf) : s.risers.Nodup :=
  (List.nodup_reverse.2 hw.nodup_contents).filter _

theorem nodup_victims (hw : s.fifo.Wf) : s.victims.Nodup :=
  (List.nodup_reverse.2 hw.nodup_contents).filter _

theorem risers_victims (hw : s.fifo.Wf) (hp : p ∈ s.risers) : p ∉ s.victims := by
  intro hv
  have hhot := hw.mem_contents.1 (List.mem_reverse.1 (List.mem_of_mem_filter hp))
  have hcold := hw.mem_contents.1 (List.mem_reverse.1 (List.mem_of_mem_filter hv))
  rw [hhot] at hcold
  cases hcold

/-- In any run, a pass that returns moves exactly what is planned when its rings are served, in that
order and no page twice, and it stops short of the cooling if a page has found no frame. -/
theorem pass_migrates_plan {s' : State} (h : (policy cfg kernel).Reach (Op.Legal cfg) s)
    (hs : pebsPolicyPass cfg s = .ok ((), s')) : ∃ t u goesOn,
      beforeMigration s = .ok ((), t) ∧
      migrateLoop cfg ((t.fifo.list .nvmHot).numentries + 1) 0 t = .ok (goesOn, u) ∧
      (if goesOn then coolBoth u = .ok ((), s') else u = s') ∧
      u.moves =
        (migrations t.room (t.risers.take pagesPerPass) t.victims).reverse ++ t.moves ∧
      ((migrations t.room (t.risers.take pagesPerPass) t.victims).map Prod.snd).Nodup ∧
      (goesOn = true ↔ (t.risers.take pagesPerPass).length ≤ t.room + t.victims.length) := by
  have hk : Kept cfg Allow.legal _ := framed_kept
  have hi : Inv cfg.pages Allow.legal (View.initial cfg kernel) ∧
      Framed cfg (View.initial cfg kernel) := ⟨inv_initial kernel, framed_initial cfg kernel⟩
  obtain ⟨hg, hI, hF⟩ := hk.reach hi (h.mono fun _ _ hl => hl.within)
  have hbefore := ((beforeMigration_spec cfg Allow.legal (.inl trivial)).at hg rfl).run
  have hpass : Sat (pebsPolicyPass cfg) (fun _ s' => ∃ t u goesOn,
      beforeMigration s = .ok ((), t) ∧
      migrateLoop cfg ((t.fifo.list .nvmHot).numentries + 1) 0 t = .ok (goesOn, u) ∧
      (if goesOn then coolBoth u = .ok ((), s') else u = s') ∧
      u.moves =
        (migrations t.room (t.risers.take pagesPerPass) t.victims).reverse ++ t.moves ∧
      ((migrations t.room (t.risers.take pagesPerPass) t.victims).map Prod.snd).Nodup ∧
      (goesOn = true ↔ (t.risers.take pagesPerPass).length ≤ t.room + t.victims.length))
      (fun _ => True) s := by
    unfold pebsPolicyPass
    refine (hbefore.mono (fun _ _ => id) fun _ _ => trivial).bind fun _ t ht => ?_
    obtain ⟨hr, hg', hm, -⟩ := ht
    have hF' : Framed cfg t.view := (hk.moves ⟨hI, hF⟩ hm).2
    have hsub : List.Sublist (t.risers.take pagesPerPass) t.risers := List.take_sublist _ _
    rw [listLength, sat_bind, sat_bind, sat_get, sat_pure]
    refine (migrateLoop_planned hg' hF'.pt (Nat.le_refl _)).run.bind fun goesOn u hloop => ?_
    obtain ⟨hu, hm, hgo⟩ := hloop
    have hnd := @migrations_nodup t.room _ _ ((nodup_risers hg'.fifo).sublist hsub)
      (nodup_victims hg'.fifo) fun p hp => risers_victims hg'.fifo (hsub.subset hp)
    rw [sat_ite]
    refine ⟨fun hc => ?_, fun hc => ⟨t, u, goesOn, hr, hu, ?_, hm, hnd, hgo⟩⟩
    · refine (sat_true (m := coolBoth)).run.post fun _ s' hs' =>
        ⟨t, u, goesOn, hr, hu, ?_, hm, hnd, hgo⟩
      rw [if_pos hc]
      exact hs'.1
    · rw [if_neg hc]
  exact hpass.ok hs

/-- Page 2, in NVM, is read eight times: the older cold page makes room for it. -/
theorem pass_migrates_plan_exchanged : ∃ t u goesOn,
    migrateLoop fourFrames ((t.fifo.list .nvmHot).numentries + 1) 0 t = .ok (goesOn, u) ∧
      migrations t.room (t.risers.take pagesPerPass) t.victims = [(false, 0), (true, 2)] ∧
      u.moves = [(true, 2), (false, 0)] ++ t.moves := by
  obtain ⟨s, hs, hP⟩ := policy_reach fourFrames Kernel.fresh (Op.Legal fourFrames)
    (fun _ _ => id) ([.allocate, .allocate, .allocate, .assign 0 hugepageSize,
      .assign 1 (2 * hugepageSize), .assign 2 (3 * hugepageSize)] ++
        List.replicate 8 (.sample .nvmread 2))
    (fun s => (beforeMigration s).toOption.any fun r => (pebsPolicyPass fourFrames s).toOption.isSome ∧
      migrations r.2.room (r.2.risers.take pagesPerPass) r.2.victims = [(false, 0), (true, 2)])
    (by decide +kernel)
  obtain ⟨⟨⟨⟩, t⟩, ht, hP⟩ := (Option.any_eq_true _ _).1 hP
  obtain ⟨hret, hplan⟩ := of_decide_eq_true hP
  obtain ⟨⟨⟨⟩, s'⟩, hs'⟩ := Option.isSome_iff_exists.1 hret
  obtain ⟨t', u, goesOn, ht', hu, -, hm, -⟩ := pass_migrates_plan hs (toOption_eq_some.1 hs')
  have ht := toOption_eq_some.1 ht
  rw [ht] at ht'
  cases ht'
  exact ⟨t, u, goesOn, hu, hplan, by rw [hm, hplan]; rfl⟩

end Pass

end HeMem

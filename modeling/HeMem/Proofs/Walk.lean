import HeMem.Proofs.View

/-!
# The policy's functions as moves

Each function of the policy thread, started in a view, makes some moves and aborts only in a view
that fails.  Between a dequeue and the enqueue that follows it a page is on no list; the moves are
told as if it still were on the list it comes from.
-/

namespace HeMem

open Hoare Function

variable {α β : Type} {cfg : Config} {A : Allow} {v w : View} {p : PageId}

theorem Moves.trans {v₁ v₂ v₃ : View} (h : Moves A v₁ v₂) (h' : Moves A v₂ v₃) : Moves A v₁ v₃ :=
  Relation.ReflTransGen.trans h h'

theorem Moves.one (h : Move A v w) : Moves A v w := Relation.ReflTransGen.single h

theorem Moves.refl : Moves A v v := Relation.ReflTransGen.refl

/-- What every move preserves, all moves preserve. -/
theorem Moves.invariant {I : View → Prop} (h : Moves A v w) (hI : I v)
    (hm : ∀ v w, I v → Move A v w → I w) : I w := by
  induction h with
  | refl => exact hI
  | tail _ hvw ih => exact hm _ _ ih hvw

theorem Moves.doomed {e : Abort} (h : Moves A v w) (he : Doomed cfg A w e) : Doomed cfg A v e := by
  obtain ⟨w', hw, hf⟩ := he
  exact ⟨w', h.trans hw, hf⟩

theorem Fails.doomed {e : Abort} (h : Fails cfg v e) : Doomed cfg A v e := ⟨v, Moves.refl, h⟩

/-- Once drained, the free-page ring stays empty. -/
theorem Moves.free_nil (h : Moves A v w) (hf : v.free = []) : w.free = [] :=
  h.invariant (I := fun v => v.free = []) hf fun v w hv hm => by
    cases hm <;> simp_all [View.exchange]

section Rings

variable {R : β → View → Prop} {E : Abort → Prop}

theorem State.Good.setCur {s : State} (hg : s.Good) (dram : Bool) (c : Option PageId) :
    (s.setCur dram c).Good ∧ (s.setCur dram c).view = s.view.setCur dram c := by
  constructor
  · cases dram <;> exact ⟨hg.fifo, hg.requests, hg.free⟩
  · have hcur : (s.setCur dram c).cur = update s.cur dram c := by
      funext dram'
      cases dram <;> cases dram' <;> rfl
    cases dram <;> simp only [View.setCur, State.view, ← hcur] <;> rfl

theorem requestRing_setRequestRing (s : State) (hot hot' : Bool) (r : RingBuf PageId) :
    (s.setRequestRing hot r).requestRing hot' = if hot' = hot then r else s.requestRing hot' := by
  cases hot <;> cases hot' <;> rfl

theorem State.Good.setRequestRing {s : State} (hg : s.Good) (hot : Bool) {r : RingBuf PageId}
    (hr : r.Wf) : (s.setRequestRing hot r).Good ∧
      (s.setRequestRing hot r).view = s.view.setRequests hot r.entries := by
  constructor
  · refine ⟨?_, fun hot' => ?_, ?_⟩
    · cases hot <;> exact hg.fifo
    · rw [requestRing_setRequestRing]
      split
      · exact hr
      · exact hg.requests hot'
    · cases hot <;> exact hg.free
  · have hreq : (s.setRequestRing hot r).view.requests = update s.view.requests hot r.entries := by
      funext hot'
      simp only [State.view, requestRing_setRequestRing, update_apply]
      split <;> rfl
    cases hot <;> simp only [View.setRequests, ← hreq] <;> rfl

theorem spec_takeFree {f : Option PageId → M β} (hn : v.free = [] → Spec (f none) v R E)
    (hs : ∀ p rest, v.free = p :: rest → Spec (f (some p)) { v with free := rest } R E) :
    Spec (takeFree >>= f) v R E := by
  rintro s hg rfl
  unfold takeFree
  rw [sat_bind, sat_bind, sat_get]
  rcases hg.free.get with ⟨he, hr⟩ | ⟨x, r, hr, hw, he⟩
  · simp only [hr, sat_bind, sat_modify, sat_pure]
    exact hn he s hg rfl
  · simp only [hr, sat_bind, sat_modify, sat_pure]
    exact hs x r.entries he _ ⟨hg.fifo, hg.requests, hw⟩ rfl

theorem spec_takeRequest {hot : Bool} {f : Option PageId → M β}
    (hn : v.requests hot = [] → Spec (f none) v R E)
    (hs : ∀ p rest, v.requests hot = p :: rest → Spec (f (some p)) (v.setRequests hot rest) R E) :
    Spec (takeRequest hot >>= f) v R E := by
  rintro s hg rfl
  unfold takeRequest
  rw [sat_bind, sat_bind, sat_get]
  rcases (hg.requests hot).get with ⟨he, hr⟩ | ⟨x, r, hr, hw, he⟩
  · obtain ⟨hg', hv⟩ := hg.setRequestRing hot (hg.requests hot)
    simp only [hr, sat_bind, sat_modify, sat_pure]
    refine hn he _ hg' (hv.trans ?_)
    exact congrArg (fun r => { s.view with requests := r }) (update_eq_self hot s.view.requests)
  · obtain ⟨hg', hv⟩ := hg.setRequestRing hot hw
    simp only [hr, sat_bind, sat_modify, sat_pure]
    exact hs x r.entries he _ hg' hv

end Rings

section Requests

/-- Moves along the hot lists off `p`. -/
def CursorsOff (v : View) (p : PageId) (c : Bool → Option PageId) : Prop :=
  ∀ dram x, c dram = some x → x ≠ p ∧ (v.cur dram = some x ∨ v.list x = some (hotList dram))

theorem CursorsOff.move {c : Bool → Option PageId} (h : CursorsOff v p c) :
    Moves A v { v with cur := c } :=
  .one (.cursor c fun dram x hx => (h dram x hx).2)

theorem CursorsOff.noCursor {c : Bool → Option PageId} (h : CursorsOff v p c) :
    { v with cur := c }.NoCursor p :=
  fun dram hc => (h dram p hc).1 rfl

/-- What becomes of one cursor. -/
def CursorOff (v : View) (p : PageId) (dram : Bool) (v' : View) : Prop :=
  ∃ c, (∀ x, c = some x → x ≠ p ∧ (v.cur dram = some x ∨ v.list x = some (hotList dram))) ∧
    v' = v.setCur dram c

theorem updateCursor_spec {dram : Bool} : Spec (updateCursor dram p) v
    (fun _ => CursorOff v p dram)
    (fun e => e = .coolCursor ∧ v.cur dram = some p ∧ v.list p ≠ some (hotList dram)) := by
  unfold updateCursor
  refine spec_get fun s hs hv => spec_ite (fun hc => ?_) fun hc => spec_pure ?_
  · have hc : v.cur dram = some p := by rw [← hv]; exact hc.symm
    refine spec_getList (spec_check (fun hn => ⟨rfl, hc, hn⟩) fun hl => ?_)
    refine spec_nextPage (fun x hx => by cases hx; exact hl) fun r hr => spec_last ?_
    refine spec_modify (w := v.setCur dram r) (fun s hs hv => hv ▸ hs.setCur dram r)
      (spec_pure ?_)
    refine ⟨r, fun x hx => ⟨?_, .inr (hr x hx).1⟩, rfl⟩
    rintro rfl
    exact (hr x hx).2 rfl
  · refine ⟨v.cur dram, fun x hx => ⟨?_, .inl hx⟩, by simp [View.setCur]⟩
    rintro rfl
    rw [← hv] at hx
    exact hc hx.symm

theorem updateCurrentCoolPage_spec : Spec (updateCurrentCoolPage p) v
    (fun _ v' => ∃ c, CursorsOff v p c ∧ v' = { v with cur := c })
    (fun e => e = .coolCursor ∧ ∃ dram, v.cur dram = some p ∧ v.list p ≠ some (hotList dram)) := by
  unfold updateCurrentCoolPage
  refine (updateCursor_spec.mono (fun _ _ => id) fun e he => ⟨he.1, true, he.2⟩).bind
    fun _ v' ⟨c, hc, hv'⟩ => ?_
  subst hv'
  refine updateCursor_spec.mono (fun _ v' ⟨c', hc', hv'⟩ => ?_)
    fun e he => ⟨he.1, false, by simpa using he.2⟩
  refine ⟨fun dram => if dram then c else c', fun dram x hx => ?_, ?_⟩
  · cases dram with
    | true => exact hc x hx
    | false => simpa using hc' x hx
  · have hcur : update (update v.cur true c) false c' = fun dram => if dram then c else c' := by
      funext dram
      cases dram <;> rfl
    rw [hv', ← hcur]
    rfl

theorem drainPage_spec : Spec (drainPage p) v
    (fun _ v' => ∃ c q, v.list p = some q ∧ CursorsOff v p c ∧
      v' = { v with cur := c }.put (freeList (v.page p).inDram) p)
    (fun e => e = .drainList ∧ v.list p = none ∨
      e = .coolCursor ∧ ∃ dram, v.cur dram = some p ∧ v.list p ≠ some (hotList dram)) := by
  unfold drainPage
  refine spec_getList ?_
  rcases hl : v.list p with _ | q
  · exact spec_throw (.inl ⟨rfl, rfl⟩)
  · refine (updateCurrentCoolPage_spec.mono (fun _ _ => id) fun e he => ?_).bind
      fun _ v' ⟨c, hc, hv'⟩ => ?_
    · exact .inr (hl ▸ he)
    · subst hv'
      refine spec_remove hl (spec_getPage (spec_last (spec_enqueue (by simp) (spec_pure ?_))))
      refine ⟨c, q, rfl, hc, ?_⟩
      simp [View.put, View.off]

theorem drainFreePageRing_spec : ∀ {fuel : ℕ} {v : View}, v.free.length < fuel →
    Spec (drainFreePageRing fuel) v (fun _ v' => Moves A v v' ∧ v'.free = [] ∧
      v'.requests = v.requests ∧ v'.page = v.page) (Doomed cfg A v)
  | 0, _, h => absurd h (by omega)
  | fuel + 1, v, h => by
    unfold drainFreePageRing
    refine spec_takeFree (fun hf => spec_pure ⟨.refl, hf, rfl, rfl⟩) fun p rest hf => ?_
    refine (drainPage_spec.mono (fun _ _ => id) fun e he => ?_).bind
      fun _ v' ⟨c, q, hl, hc, hv'⟩ => ?_
    · rcases he with ⟨rfl, hl⟩ | ⟨rfl, dram, hc, hl⟩
      · exact (Fails.drainList hf hl).doomed
      · exact (Fails.cursor (v := v) dram hc hl (.inl rfl)).doomed
    · have hm : Moves A v v' := by
        have hoff : CursorsOff v p c := hc
        refine hoff.move.trans (.one ?_)
        rw [hv']
        exact Move.drain (v := { v with cur := c }) hf hl hoff.noCursor
      have hlen : v'.free.length < fuel := by
        rw [hv', View.put_free]
        simpa [hf] using h
      refine (drainFreePageRing_spec hlen).mono (fun _ w ⟨hmw, hfw, hrw, hpw⟩ =>
        ⟨hm.trans hmw, hfw, hrw.trans ?_, hpw.trans ?_⟩) fun e he => hm.doomed he
      · rw [hv']
        rfl
      · rw [hv']
        rfl

theorem setHot_spec {hot : Bool} : Spec (setHot hot p) v
    (fun _ v' => v.list p = some (usedList (v.page p).inDram (v.page p).hot) ∧
      v' = (v.edit p ({ · with hot := hot })).put (usedList (v.page p).inDram hot) p)
    (fun e => (v.page p).va = 0 ∧ (e = .makeHotVa ∨ e = .makeColdVa) ∨
      v.list p ≠ some (usedList (v.page p).inDram (v.page p).hot) ∧
        (e = .makeHotList ∨ e = .makeColdList)) := by
  unfold setHot
  refine spec_getPage (spec_check (fun hn => .inl ⟨not_not.1 hn, ?_⟩) fun hva => ?_)
  · cases hot <;> simp
  refine spec_ite (fun hh => spec_getList (spec_last (spec_check (fun hn => .inr ⟨?_, ?_⟩)
    fun hl => spec_pure ⟨?_, ?_⟩))) fun hh => ?_
  · rw [hh]
    exact hn
  · cases hot <;> simp
  · rw [hh]
    exact hl
  · subst hh
    rw [View.put, View.edit, update_eq_self_iff.2 rfl, update_eq_self_iff.2]
    exact hl.symm
  · have hnot : (!hot) = (v.page p).hot := by
      cases hot <;> simpa using hh
    refine spec_getList (spec_check (fun hn => .inr ⟨?_, ?_⟩) fun hl => ?_)
    · rw [← hnot]
      exact hn
    · cases hot <;> simp
    refine spec_remove hl (spec_modifyPage (spec_last (spec_enqueue (by simp) (spec_pure ⟨?_, ?_⟩))))
    · rw [← hnot]
      exact hl
    · simp [View.put, View.off, View.edit, usedList]

theorem serveRequest_spec {hot : Bool} : Spec (serveRequest hot p) v
    (fun r v' => r = (v.page p).present ∧ ((v.page p).present = false ∧ v' = v ∨
      (v.page p).present = true ∧
      v.list p = some (usedList (v.page p).inDram (v.page p).hot) ∧
      ∃ c, CursorsOff v p c ∧ v' = ({ v with cur := c }.edit p
        ({ · with ringPresent := false, hot := hot })).put (usedList (v.page p).inDram hot) p))
    (fun e => (v.page p).present = false ∧ e = .requestList ∧
        v.list p ≠ some (freeList (v.page p).inDram) ∨
      e = .coolCursor ∧ (∃ dram, v.cur dram = some p ∧ v.list p ≠ some (hotList dram)) ∨
      (v.page p).present = true ∧ ((v.page p).va = 0 ∧ (e = .makeHotVa ∨ e = .makeColdVa) ∨
        v.list p ≠ some (usedList (v.page p).inDram (v.page p).hot) ∧
          (e = .makeHotList ∨ e = .makeColdList))) := by
  have hset : (if hot then makeHot else makeCold) = setHot hot := by cases hot <;> rfl
  unfold serveRequest
  rw [hset]
  refine spec_getPage (spec_ite (fun hp => ?_) fun hp => ?_)
  · have hp : (v.page p).present = false := by simpa using hp
    exact spec_getList (spec_check (fun hn => .inl ⟨hp, rfl, hn⟩)
      fun _ => spec_pure ⟨hp.symm, .inl ⟨hp, rfl⟩⟩)
  · have hp : (v.page p).present = true := by simpa using hp
    refine (updateCurrentCoolPage_spec.mono (fun _ _ => id) fun e he => .inr (.inl he)).bind
      fun _ v' ⟨c, hc, hv'⟩ => ?_
    subst hv'
    refine spec_modifyPage ((setHot_spec.mono (fun _ _ => id) fun e he => ?_).bind
      fun _ v' ⟨hl, hv'⟩ => ?_)
    · exact .inr (.inr ⟨hp, by simpa using he⟩)
    · refine spec_pure ⟨hp.symm, .inr ⟨hp, by simpa using hl, c, hc, ?_⟩⟩
      simpa [View.edit, View.put] using hv'

theorem serveRequests_spec {hot : Bool} {threshold : ℕ} : ∀ {fuel reqs : ℕ} {v : View},
    v.free = [] → (v.requests hot).length < fuel →
    (A.drop ∨ ∀ p ∈ (v.requests hot).take (threshold - reqs), (v.page p).present = true) →
    Spec (serveRequests hot threshold fuel reqs) v (fun _ v' => Moves A v v' ∧
      v'.requests (!hot) = v.requests (!hot) ∧ ∀ x, (v'.page x).present = (v.page x).present)
      (Doomed cfg A v)
  | 0, _, _, _, h, _ => absurd h (by omega)
  | fuel + 1, reqs, v, hf, h, hd => by
    unfold serveRequests
    refine spec_ite (fun hlt => ?_) fun _ => spec_pure ⟨.refl, rfl, fun _ => rfl⟩
    refine spec_takeRequest (fun _ => spec_pure ⟨.refl, rfl, fun _ => rfl⟩) fun p rest hr => ?_
    refine (serveRequest_spec.mono (fun _ _ => id) fun e he => ?_).bind fun r v' hv' => ?_
    · rcases he with ⟨hp, rfl, hl⟩ | ⟨rfl, dram, hc, hl⟩ | ⟨hp, ⟨hva, he⟩ | ⟨hl, he⟩⟩
      · exact (Fails.requestList hot hf hr hp hl).doomed
      · exact (Fails.cursor (v := v) dram hc hl (.inl rfl)).doomed
      · exact (Fails.setHotVa hot hr hp hva he).doomed
      · exact (Fails.setHotList hot hr hp hl he).doomed
    · have hd' : A.drop ∨ (v.page p).present = true := hd.imp_right fun hd => by
        obtain ⟨k, hk⟩ := Nat.exists_eq_succ_of_ne_zero (Nat.sub_ne_zero_of_lt hlt)
        rw [hr, hk] at hd
        exact hd p List.mem_cons_self
      have hm : Moves A v v' ∧ v'.requests hot = rest ∧ v'.requests (!hot) = v.requests (!hot) ∧
          ∀ x, (v'.page x).present = (v.page x).present := by
        rcases hv'.2 with ⟨hp, rfl⟩ | ⟨hp, hl, c, hc, rfl⟩
        · have hp : (v.page p).present = false := hp
          exact ⟨.one (.stale hot (hd'.resolve_right (by simp [hp])) hr hp), by simp, by simp,
            fun _ => rfl⟩
        · have hoff : CursorsOff v p c := hc
          refine ⟨hoff.move.trans (.one ?_), by simp, by simp, fun x => ?_⟩
          · exact Move.serve (v := { v with cur := c }) hot hr hp hoff.noCursor hl
          · simp only [View.put, View.edit, View.setRequests, update_apply]
            split <;> simp_all
      have hlen : (v'.requests hot).length < fuel := by
        rw [hm.2.1]
        simpa [hr] using h
      have hdrop : A.drop ∨ ∀ x ∈ (v'.requests hot).take (threshold - if r then reqs + 1 else reqs),
          (v'.page x).present = true := by
        refine or_iff_not_imp_left.2 fun hno x hx => ?_
        rw [hm.2.2.2]
        have hr1 : r = true := hv'.1.trans (hd'.resolve_left hno)
        obtain ⟨k, hk⟩ := Nat.exists_eq_succ_of_ne_zero (Nat.sub_ne_zero_of_lt hlt)
        rw [hm.2.1, hr1, if_pos rfl, show threshold - (reqs + 1) = k by omega] at hx
        refine hd.resolve_left hno x ?_
        rw [hr, hk]
        exact List.mem_cons_of_mem _ hx
      refine (serveRequests_spec (hm.1.free_nil hf) hlen hdrop).mono (fun _ w ⟨hmw, hrw, hpw⟩ =>
        ⟨hm.1.trans hmw, hrw.trans hm.2.2.1, fun x => (hpw x).trans (hm.2.2.2 x)⟩)
        fun e he => hm.1.doomed he

end Requests

section Migration

theorem hememWpPage_spec {protect : Bool} : Spec (hememWpPage p protect) v
    (fun _ v' => (v.page p).va ≠ 0 ∧ (v.page p).va % hugepageSize = 0 ∧ v' = { v with
      kernel := v.kernel.writeprotect (v.page p).va (ptToPagesize (v.page p).pt) protect })
    (fun e => e = .wpVa ∧ (v.page p).va = 0 ∨
      e = .wpAlign ∧ (v.page p).va % hugepageSize ≠ 0) := by
  unfold hememWpPage
  refine spec_getPage (spec_check (fun hn => .inl ⟨rfl, not_not.1 hn⟩) fun hva => ?_)
  refine spec_check (fun hn => .inr ⟨rfl, hn⟩) fun hal => spec_last ?_
  exact spec_onKernel (spec_pure ⟨hva, hal, rfl⟩)

theorem hememMigrate_spec {up : Bool} {offset : UInt64} : Spec (hememMigrate cfg up p offset) v
    (fun _ v' => (v.page p).inDram = (!up) ∧ v' = { ((v.call up p).edit p
        ({ · with devdaxOffset := offset, inDram := up })) with
      kernel := (v.kernel.dmaCopy (deviceOf (!up), (v.page p).devdaxOffset) (deviceOf up, offset)
        (ptToPagesize (v.page p).pt)).mmapFixed (v.page p).va (ptToPagesize (v.page p).pt)
        (deviceOf up) offset })
    (fun e => e = .migrateInDram ∧ (v.page p).inDram ≠ (!up) ∨
      e = .migrateRange ∧ (v.page p).inDram = (!up) ∧
        (¬ cfg.InRange (!up) (v.page p).devdaxOffset (ptToPagesize (v.page p).pt) ∨
          ¬ cfg.InRange up offset (ptToPagesize (v.page p).pt)) ∨
      e = .migrateAlign ∧ (v.page p).va % hugepageSize ≠ 0) := by
  unfold hememMigrate
  refine spec_getPage (spec_modify (w := v.call up p) (fun s hs hv => ?_) ?_)
  · subst hv
    exact ⟨⟨hs.fifo, hs.requests, hs.free⟩, rfl⟩
  refine spec_check (fun hn => .inl ⟨rfl, hn⟩) fun hin => ?_
  refine spec_check (fun hn => .inr (.inl ⟨rfl, hin, .inl hn⟩)) fun _ => ?_
  refine spec_check (fun hn => .inr (.inl ⟨rfl, hin, .inr hn⟩)) fun _ => ?_
  refine spec_onKernel (spec_onKernel ?_)
  refine spec_check (fun hn => .inr (.inr ⟨rfl, hn⟩)) fun _ => ?_
  exact spec_last (spec_modifyPage (spec_pure ⟨hin, rfl⟩))

/-- `hemem_wp_page`, then `hemem_migrate_up` or `hemem_migrate_down`. -/
theorem pebsMigrate_spec {up : Bool} {offset : UInt64}
    (hen : up = false → (v.page p).enforced = false) :
    Spec (pebsMigrate cfg up p offset) v
      (fun _ v' => (v.page p).va ≠ 0 ∧ (v.page p).va % hugepageSize = 0 ∧
        (v.page p).inDram = (!up) ∧ v' = ((v.call up p).remap up p offset).edit p
          ({ · with devdaxOffset := offset, inDram := up, migrating := false }))
      (fun e => ∀ np, (v.page np).devdaxOffset = offset → ExchangeFails cfg v up p np e) := by
  have hdir : (if up then hememMigrateUp cfg else hememMigrateDown cfg) = hememMigrate cfg up := by
    cases up <;> rfl
  unfold pebsMigrate
  rw [hdir]
  refine spec_getPage (spec_ite (fun hn => ?_) fun _ => spec_modifyPage ?_)
  · rw [Bool.and_eq_true, Bool.not_eq_true'] at hn
    exact absurd hn.2 (by simp [hen hn.1])
  refine (hememWpPage_spec.mono (fun _ _ => id) fun e he np hnp => ?_).bind
    fun _ v' ⟨hva, hal, hv'⟩ => ?_
  · simp only [View.edit_page, update_self] at he
    rcases he with ⟨rfl, h⟩ | ⟨rfl, h⟩
    · exact .wpVa h
    · exact .wpAlign h
  subst hv'
  simp only [View.edit_page, update_self] at hva hal
  refine (hememMigrate_spec.mono (fun _ _ => id) fun e he np hnp => ?_).bind
    fun _ v' ⟨hin, hv'⟩ => ?_
  · simp only [View.edit_page, update_self] at he
    rcases he with ⟨rfl, h⟩ | ⟨rfl, h, h'⟩ | ⟨-, h⟩
    · exact .inDram h
    · exact .range h (by rwa [hnp])
    · exact absurd hal h
  · simp only [View.edit_page, update_self] at hin
    refine spec_last (spec_modifyPage (spec_pure ⟨hva, hal, hin, ?_⟩))
    simp [hv', View.edit, View.call, View.remap]

theorem exchange_spec (up : Bool) (p np : PageId) (hp : v.list p = none) (hn : v.list np = none)
    (hne : p ≠ np) (hen : up = false → (v.page p).enforced = false) :
    Spec (exchange cfg up p np) v
      (fun _ v' => Exchangeable v up p np ∧ v' = v.exchange up p np)
      (ExchangeFails cfg v up p np) := by
  have hdir : (if up then pebsMigrateUp cfg else pebsMigrateDown cfg) = pebsMigrate cfg up := by
    cases up <;> rfl
  unfold exchange
  rw [hdir]
  refine spec_getPage (spec_getPage ?_)
  refine ((pebsMigrate_spec hen).mono (fun _ _ => id) fun e he => he np rfl).bind
    fun _ v' ⟨hva, hal, hin, hv'⟩ => spec_modifyPage ?_
  subst hv'
  refine spec_enqueue hp (spec_last (spec_enqueue (by simpa [hne.symm] using hn)
    (spec_pure ⟨⟨hva, hal, hin, hen⟩, ?_⟩)))
  simp [View.exchange]

theorem ExchangeFails.congr {up : Bool} {np : PageId} {e : Abort}
    (h : ExchangeFails cfg v up p np e) (hp : w.page = v.page) : ExchangeFails cfg w up p np e := by
  cases h with
  | wpVa h => exact .wpVa (by rwa [hp])
  | wpAlign h => exact .wpAlign (by rwa [hp])
  | inDram h => exact .inDram (by rwa [hp])
  | range ht h => exact .range (by rwa [hp]) (by rwa [hp])

theorem Exchangeable.congr {up : Bool} {np : PageId} (h : Exchangeable v up p np)
    (hp : w.page = v.page) : Exchangeable w up p np := by
  obtain ⟨h1, h2, h3, h4⟩ := h
  rw [← hp] at h1 h2 h3 h4
  exact ⟨h1, h2, h3, h4⟩

/-- An exchange does not look at the lists. -/
theorem exchange_list (v : View) (up : Bool) (p np : PageId) (l : PageId → Option ListId) :
    ({ v with list := l } : View).exchange up p np = { v.exchange up p np with
      list := update (update l p (some (if up then .dramHot else .nvmCold))) np
        (some (freeList !up)) } := rfl

/-- The pages a victim search may drop are off their list. -/
def Drops (v : View) (l : PageId → Option ListId) : Prop :=
  ∀ x, l x = v.list x ∨ l x = none ∧ v.list x = some .dramCold ∧ (v.page x).enforced = true

theorem coldVictim_sat : ∀ {fuel : ℕ} {s : State}, s.Good →
    (s.fifo.contents .dramCold).length < fuel → Sat (coldVictim fuel) (fun r s' => s'.Good ∧
      r = s.victim ∧ ∃ l, Drops s.view l ∧
        ((∀ c, (s.fifo.list .dramCold).last = some c → (s.page c).enforced = false) →
          l = s.view.list) ∧
        (r = none → s'.view = { s.view with list := l }) ∧
        ∀ p, r = some p → l p = some .dramCold ∧ (s.page p).enforced = false ∧
          s'.view = ({ s.view with list := l } : View).off p) (fun _ => False) s
  | 0, _, _, h => absurd h (by omega)
  | fuel + 1, s, hg, h => by
    unfold coldVictim
    rcases hg.fifo.dequeue .dramCold with ⟨he, hc, -⟩ | ⟨cp, h', he, hw, hc, hcp, hl, -⟩
    · rw [sat_bind, sat_onFifo he]
      refine ⟨hg, by simp [State.victim, hc], s.view.list, fun x => .inl rfl, fun _ => rfl,
        fun _ => rfl, by simp⟩
    have hlast : (s.fifo.list .dramCold).last = some cp := by
      rw [hg.fifo.last_eq, hc]
      simp
    have hg' : ({ s with fifo := h' } : State).Good := ⟨hw, hg.requests, hg.free⟩
    have hv' : ({ s with fifo := h' } : State).view = s.view.off cp :=
      congrArg (fun l => { s.view with list := l }) hl
    rw [sat_bind, sat_onFifo he]
    dsimp only
    rw [getPage, sat_bind, sat_bind, sat_get, sat_pure, sat_ite]
    constructor
    · intro (hen : (s.page cp).enforced = true)
      have hlen : (h'.contents .dramCold).length < fuel := by
        rw [hc, List.length_append] at h
        simp only [List.length_singleton] at h
        omega
      refine (coldVictim_sat hg' hlen).post fun r s' ⟨hgs, hr, l, hd, _, hn, hs⟩ =>
        ⟨hgs, ?_, l, fun x => ?_, fun hno => ?_, fun hrn => ?_, fun p hrp => ?_⟩
      · rw [hr]
        simp [State.victim, hc, hen]
      · have hx := hd x
        rw [hv'] at hx
        rcases eq_or_ne x cp with rfl | hne
        · rcases hx with hx | hx
          · exact .inr ⟨by simpa using hx, hcp, hen⟩
          · simp at hx
        · simpa [hne] using hx
      · simp [hno cp hlast] at hen
      · rw [hn hrn, hv']
        rfl
      · obtain ⟨h1, h2, h3⟩ := hs p hrp
        refine ⟨h1, h2, ?_⟩
        rw [h3, hv']
        rfl
    · intro (hen : ¬ (s.page cp).enforced = true)
      have hen : (s.page cp).enforced = false := by simpa using hen
      refine ⟨hg', by simp [State.victim, hc, hen], s.view.list, fun x => .inl rfl, fun _ => rfl,
        by simp, fun p hp => ?_⟩
      cases hp
      exact ⟨hcp, hen, hv'⟩

/-- What a turn for the page `p` of NVM hot leaves: unless it ends the pass, NVM hot without
`p`. -/
def Turned (A : Allow) (v : View) (p : PageId) (r : Turn) (v' : View) : Prop :=
  Moves A v v' ∧ ∀ b, r = .next b → ∀ x, v'.list x = some .nvmHot →
    v.list x = some .nvmHot ∧ x ≠ p

theorem exchange_list_apply {up : Bool} {np : PageId} (x : PageId) :
    (v.exchange up p np).list x = if x = np then some (freeList !up) else
      if x = p then some (if up then .dramHot else .nvmCold) else v.list x := by
  simp only [View.exchange, View.put_list, update_apply]
  rfl

/-- An exchange puts nothing on NVM hot. -/
theorem exchange_nvmHot {up : Bool} {np x : PageId}
    (hx : (v.exchange up p np).list x = some .nvmHot) : v.list x = some .nvmHot ∧ x ≠ p := by
  rw [exchange_list_apply] at hx
  by_cases h1 : x = np
  · cases up <;> simp [h1, freeList] at hx
  by_cases h2 : x = p
  · rw [if_neg h1, if_pos h2] at hx
    cases up <;> simp at hx
  · exact ⟨by simpa [h1, h2] using hx, h2⟩

theorem exchange_off {up : Bool} {np : PageId} :
    ((v.off p).off np).exchange up p np = v.exchange up p np := by
  change ({ v with list := update (update v.list p none) np none } : View).exchange up p np = _
  rw [exchange_list]
  have hl : update (update (update (update v.list p none) np none) p
      (some (if up then .dramHot else .nvmCold))) np (some (freeList !up)) =
      (v.exchange up p np).list := by
    funext x
    rw [exchange_list_apply]
    simp only [update_apply]
    split_ifs <;> rfl
  rw [hl]

/-- With a free DRAM page to be had, the hot page `p` moves up. -/
theorem migrateTries_free {b : UInt64} {t : ℕ} (hf : v.free = [])
    (hp : v.list p = some .nvmHot) (hc : v.cur false ≠ some p)
    (hn : ∃ np, v.list np = some .dramFree) :
    Spec (migrateTries cfg p b (t + 1)) (v.off p) (Turned A v p) (Doomed cfg A v) := by
  unfold migrateTries
  obtain ⟨x, hx⟩ := hn
  have hxp : x ≠ p := by
    rintro rfl
    simp [hp] at hx
  refine spec_dequeue (fun h => absurd (by simpa [hxp] using hx) (h x)) fun np hnp => ?_
  have hne : p ≠ np := by
    rintro rfl
    simp at hnp
  have hnp : v.list np = some .dramFree := by simpa [hne.symm] using hnp
  refine spec_getPage (spec_check (fun hn => ?_) fun hpr => ?_)
  · exact (Fails.takePresent true hnp (by simpa using hn) (.inl rfl)).doomed
  refine ((exchange_spec true p np (by simp [hne]) (by simp) hne (by simp)).mono (fun _ _ => id)
    fun e he => ?_).bind fun _ v' ⟨he, hv'⟩ => ?_
  · exact (Fails.exchange true hp hnp (he.congr rfl)).doomed
  · rw [exchange_off] at hv'
    subst hv'
    refine spec_getPage (spec_pure ⟨.one (.promote hf hp hc hnp (he.congr rfl) hpr), ?_⟩)
    exact fun b' _ y hy => exchange_nvmHot hy

/-- Dropping pages while `p` is in hand. -/
theorem Drops.moves {l : PageId → Option ListId} (hd : Drops (v.off p) l)
    (hs : A.skip ∨ l = (v.off p).list) :
    Moves A v { v with list := update l p (v.list p) } := by
  rcases hs with hs | rfl
  · refine .one (.skip _ hs fun x => ?_)
    rcases eq_or_ne x p with rfl | hx
    · simp
    · have := hd x
      simpa [hx] using this
  · simp only [View.off_list, update_idem, update_eq_self]
    exact .refl

/-- The victim `cp` moves down, then the hot page `p` takes the frame it leaves. -/
theorem migrateTries_victim {cp : PageId} {b : UInt64} (hf : v.free = [])
    (hp : v.list p = some .nvmHot) (hc : v.cur false ≠ some p) (hcp : v.list cp = some .dramCold)
    (hen : (v.page cp).enforced = false) :
    Spec (do
      match ← onFifo (dequeueFifo .nvmFree) with
      | none => throw .policyNp
      | some np =>
        check ((← getPage np).present = false) .policyPresent
        exchange cfg false cp np
        migrateTries cfg p b 1) ((v.off p).off cp) (Turned A v p) (Doomed cfg A v) := by
  have hpc : p ≠ cp := by
    rintro rfl
    simp [hp] at hcp
  refine spec_dequeue (fun hn => spec_throw (Fails.policyNp fun x hx => ?_).doomed)
    fun np hnp => ?_
  · have hxp : x ≠ p := by
      rintro rfl
      simp [hp] at hx
    have hxc : x ≠ cp := by
      rintro rfl
      simp [hcp] at hx
    exact hn x (by simpa [hxp, hxc] using hx)
  have hne : cp ≠ np := by
    rintro rfl
    simp at hnp
  have hnep : p ≠ np := by
    rintro rfl
    simp [hpc] at hnp
  have hnp : v.list np = some .nvmFree := by simpa [hne.symm, hnep.symm] using hnp
  refine spec_getPage (spec_check (fun hn => ?_) fun _ => ?_)
  · exact (Fails.takePresent false hnp (by simpa using hn) (.inl rfl)).doomed
  refine ((exchange_spec false cp np (by simp [hne]) (by simp) hne (by simpa using hen)).mono
    (fun _ _ => id) fun e he => ?_).bind fun _ v' ⟨he, hv'⟩ => ?_
  · exact (Fails.exchange false hcp hnp (he.congr rfl)).doomed
  have hm : Moves A v (v.exchange false cp np) :=
    .one (.demote (.inl hf) hcp hnp (he.congr rfl))
  have hoff : v' = (v.exchange false cp np).off p := by
    rw [hv', exchange_off]
    change ({ v with list := _ } : View).exchange false cp np = _
    rw [exchange_list]
    refine congrArg (fun l => { v.exchange false cp np with list := l }) ?_
    funext x
    simp only [update_apply, exchange_list_apply]
    split_ifs <;> simp_all
  rw [hoff]
  refine Spec.mono (migrateTries_free (A := A) hf ?_ hc ⟨np, ?_⟩) (fun r v' ht => ⟨hm.trans ht.1, ?_⟩)
    fun e he => hm.doomed he
  · rw [exchange_list_apply, if_neg hnep, if_neg hpc]
    exact hp
  · rw [exchange_list_apply, if_pos rfl]
    rfl
  · intro b' hb x hx
    obtain ⟨hx, hxp⟩ := ht.2 b' hb x hx
    exact ⟨(exchange_nvmHot hx).1, hxp⟩

theorem migrateTries_sat {s : State} {b : UInt64} (hg : s.Good) (hv : s.view = v.off p)
    (hf : v.free = []) (hp : v.list p = some .nvmHot) (hc : v.cur false ≠ some p)
    (hs : A.skip ∨ ((s.fifo.list .dramFree).last = none →
      ∀ c, (s.fifo.list .dramCold).last = some c → (s.page c).enforced = false)) :
    Sat (migrateTries cfg p b 2) (fun r s' => s'.Good ∧ Turned A v p r s'.view)
      (Doomed cfg A v) s := by
  rcases hg.fifo.dequeue .dramFree with ⟨he, hcont, -⟩ | ⟨x, -, -, -, -, hx, -, -⟩
  · have hempty : (s.fifo.list .dramFree).last = none := by
      rw [hg.fifo.last_eq, hcont]
      rfl
    have hs' : A.skip ∨ ∀ c, (s.fifo.list .dramCold).last = some c →
        (s.page c).enforced = false := hs.imp_right fun h => h hempty
    have hlen : (s.fifo.contents .dramCold).length < (s.fifo.list .dramCold).numentries + 1 := by
      rw [hg.fifo.length_contents]
      omega
    unfold migrateTries
    rw [sat_bind, sat_onFifo he]
    dsimp only
    rw [listLength, sat_bind, sat_bind, sat_get, sat_pure]
    refine ((coldVictim_sat hg hlen).mono (fun _ _ => id) fun _ => False.elim).bind
      fun r s' ⟨hg', _, l, hd, hl, hn, hr⟩ => ?_
    rw [hv] at hd hl hn hr
    have hlp : l p = none := by simpa using hd p
    have hm := hd.moves (hs'.imp_right hl)
    rw [hp] at hm
    rcases r with _ | cp
    · refine Spec.at (v := { v with list := l }) ?_ hg' ?_
      · refine spec_enqueue hlp (spec_pure ⟨hm, fun _ h => by cases h⟩)
      · rw [hn rfl]
        rfl
    obtain ⟨hcp, hen, hv'⟩ := hr cp rfl
    have hpc : cp ≠ p := by
      rintro rfl
      simp [hlp] at hcp
    refine Spec.at (v := ({ v with list := l } : View).off cp) ?_ hg' hv'
    have hoff : ({ v with list := l } : View) =
        ({ v with list := update l p (some .nvmHot) } : View).off p := by
      simp only [View.off, update_idem]
      rw [← hlp, update_eq_self]
    rw [hoff]
    refine Spec.mono (migrateTries_victim (A := A) hf (by simp) hc (by simpa [hpc] using hcp) ?_)
      (fun r v' ht => ⟨hm.trans ht.1, fun b' hb x hx => ?_⟩) fun e he => hm.doomed he
    · rw [← hen]
      exact congrArg HememPage.enforced (congrFun (congrArg View.page hv) cp).symm
    · obtain ⟨hx, hxp⟩ := ht.2 b' hb x hx
      have hlx : l x = some .nvmHot := by simpa [hxp] using hx
      rcases hd x with h | h
      · exact ⟨by simpa [hlx, hxp] using h.symm, hxp⟩
      · simp [hlx] at h
  · have hxp : x ≠ p := by
      rintro rfl
      have := congrFun (congrArg View.list hv) x
      simp [State.view, hx] at this
    refine migrateTries_free hf hp hc ⟨x, ?_⟩ s hg hv
    have := congrFun (congrArg View.list hv) x
    simpa [State.view, hx, hxp] using this.symm

theorem last_congr {s s' : State} {q : ListId} (hg : s.Good) (hg' : s'.Good)
    (h : s'.fifo.contents q = s.fifo.contents q) :
    (s'.fifo.list q).last = (s.fifo.list q).last := by
  rw [hg.fifo.last_eq, hg'.fifo.last_eq, h]

theorem migrateTurn_sat {s : State} {b : UInt64} (hg : s.Good) (hf : s.view.free = [])
    (hs : A.skip ∨ ¬ s.SkipsAtHead) : Sat (migrateTurn cfg b) (fun r s' => s'.Good ∧
      (r = .bail ∧ s'.view = s.view ∨
        ∃ p, s.view.list p = some .nvmHot ∧ Turned A s.view p r s'.view))
      (Doomed cfg A s.view) s := by
  unfold migrateTurn
  rcases hg.fifo.dequeue .nvmHot with ⟨he, -, -⟩ | ⟨p, h', he, hw, hcont, hp, hl, hother⟩
  · rw [sat_bind, sat_onFifo he]
    exact ⟨hg, .inl ⟨rfl, rfl⟩⟩
  have hg₁ : ({ s with fifo := h' } : State).Good := ⟨hw, hg.requests, hg.free⟩
  have hv₁ : ({ s with fifo := h' } : State).view = s.view.off p :=
    congrArg (fun l => { s.view with list := l }) hl
  rw [sat_bind, sat_onFifo he]
  dsimp only
  -- the rest of the turn, from a state whose cursor is off `p`
  have rest : ∀ (s' : State) (c : Bool → Option PageId), s'.Good → s'.fifo = h' →
      s'.page = s.page → s'.view = ({ s.view with cur := c } : View).off p → c false ≠ some p →
      Moves A s.view { s.view with cur := c } → Sat (do
        if (← getPage p).reads < hotReadThreshold then
          modifyPage p ({ · with hot := false })
          onFifo (enqueueFifo .nvmCold p)
          return .next b
        else
          migrateTries cfg p b 2) (fun r s' => s'.Good ∧ (r = .bail ∧ s'.view = s.view ∨
            ∃ p, s.view.list p = some .nvmHot ∧ Turned A s.view p r s'.view))
        (Doomed cfg A s.view) s' := by
    intro s' c hg' hfifo hpage hv hc hm
    have hget : s'.page p = s.page p := congrFun hpage p
    rw [getPage, sat_bind, sat_bind, sat_get, sat_pure, hget, sat_ite]
    constructor
    · intro _
      refine (Spec.at (Q := fun r v' => Turned A s.view p r v') ?_ hg' hv).post
        fun r s' h => ⟨h.1, .inr ⟨p, hp, h.2⟩⟩
      refine spec_modifyPage (spec_enqueue (by simp) (spec_pure ?_))
      have hput : (((({ s.view with cur := c } : View).off p).edit p
          ({ · with hot := false })).put .nvmCold p) =
          (({ s.view with cur := c } : View).edit p ({ · with hot := false })).put .nvmCold p := by
        simp [View.put, View.off, View.edit]
      rw [hput]
      refine ⟨hm.trans (.one (.coolNvm hp hc)), fun b' _ x hx => ?_⟩
      have hxp : x ≠ p := by
        rintro rfl
        simp at hx
      exact ⟨by simpa [hxp] using hx, hxp⟩
    · intro hreads
      refine (migrateTries_sat (A := A) hg' hv hf hp hc ?_).mono (fun r s' h =>
        ⟨h.1, .inr ⟨p, hp, hm.trans h.2.1, h.2.2⟩⟩) fun e he => hm.doomed he
      refine hs.imp_right fun hno hfree cp hcp => ?_
      have hcongr : ∀ q, q ≠ .nvmHot → (s'.fifo.list q).last = (s.fifo.list q).last :=
        fun q hq => last_congr hg hg' (by rw [hfifo]; exact hother q hq)
      rw [hcongr _ (by simp)] at hfree hcp
      by_contra hen
      refine hno ⟨p, cp, ?_, UInt64.not_lt.1 hreads, hfree, hcp, ?_⟩
      · rw [hg.fifo.last_eq, hcont]
        simp
      · rw [← hpage]
        simpa using hen
  rw [sat_bind, sat_get, sat_ite]
  constructor
  · intro _
    rw [sat_bind, sat_modify]
    obtain ⟨hg₂, hv₂⟩ := hg₁.setCur false (h'.list .nvmHot).first
    have hfirst : ∀ x, (h'.list .nvmHot).first = some x → s.view.list x = some .nvmHot ∧ x ≠ p := by
      intro x hx
      have hx := hw.first hx
      rw [hl] at hx
      rcases eq_or_ne x p with rfl | hxp
      · simp at hx
      · rw [update_of_ne hxp] at hx
        exact ⟨hx, hxp⟩
    refine rest _ (update s.view.cur false (h'.list .nvmHot).first) hg₂ rfl rfl ?_ ?_ ?_
    · rw [hv₂, hv₁]
      rfl
    · simpa using fun h => (hfirst p h).2 rfl
    · refine .one (.cursor _ fun dram x hx => ?_)
      cases dram with
      | true => exact .inl (by simpa using hx)
      | false => exact .inr (hfirst x (by simpa using hx)).1
  · intro hc
    exact rest _ s.view.cur hg₁ rfl rfl hv₁ (fun h => hc h.symm) .refl

theorem migrateLoop_sat : ∀ {fuel : ℕ} {s : State} {b : UInt64} {l : List PageId}, s.Good →
    s.view.free = [] → (∀ x, s.view.list x = some .nvmHot → x ∈ l) → l.length < fuel →
    (∀ b' s', MigrateHead cfg b s b' s' → b' < pebsKswapdMigrateRate →
      A.skip ∨ ¬ s'.SkipsAtHead) →
    Sat (migrateLoop cfg fuel b) (fun _ s' => s'.Good ∧ Moves A s.view s'.view)
      (Doomed cfg A s.view) s
  | 0, _, _, _, _, _, _, h, _ => absurd h (by omega)
  | fuel + 1, s, b, l, hg, hf, hl, hlen, hs => by
    unfold migrateLoop
    rw [sat_ite]
    refine ⟨fun hb => ?_, fun _ => ⟨hg, .refl⟩⟩
    refine (migrateTurn_sat hg hf (hs b s (.here b s) hb)).run.bind fun r s' ⟨hr, hg', h⟩ => ?_
    rcases h with ⟨rfl, hv⟩ | ⟨p, hp, hm, hnext⟩
    · exact ⟨hg', hv ▸ .refl⟩
    rcases r with b' | _ | _
    · have hsub : ∀ x, s'.view.list x = some .nvmHot → x ∈ l.erase p := fun x hx => by
        obtain ⟨hx, hxp⟩ := hnext b' rfl x hx
        exact (List.mem_erase_of_ne hxp).2 (hl x hx)
      have hpl := hl p hp
      have hlen' : (l.erase p).length < fuel := by
        rw [List.length_erase_of_mem hpl]
        have := List.length_pos_of_mem hpl
        omega
      exact (migrateLoop_sat hg' (hm.free_nil hf) hsub hlen'
        fun b'' s'' hh hb' => hs b'' s'' (.next hb hr hh) hb').mono
        (fun _ s'' h => ⟨h.1, hm.trans h.2⟩) fun e he => hm.doomed he
    · exact ⟨hg', hm⟩
    · exact ⟨hg', hm⟩

end Migration

section Cooling

theorem coolPage_spec {dram : Bool} (hp : v.list p = some (hotList dram)) :
    Spec (coolPage (hotList dram) (coldList dram) dram p) v
      (fun c v' => (v.page p).inDram = dram ∧ ∃ hot, (hot = true → (v.page p).hot = true) ∧
        (∀ x, c = some x → v.list x = some (hotList dram) ∧ (x = p → hot = true)) ∧
        v' = (v.edit p ({ · with hot := hot })).put (usedList dram hot) p)
      (fun e => e = .coolInDram ∧ (v.page p).inDram ≠ dram) := by
  unfold coolPage
  refine spec_getPage (spec_check (fun hn => ⟨rfl, hn⟩) fun hin => ?_)
  refine spec_get fun s _ _ => ?_
  dsimp only
  generalize hf : (fun q : HememPage => if q.accesses .dramread >>> (s.globalClock - q.localClock) +
    q.accesses .nvmread >>> (s.globalClock - q.localClock) < hotReadThreshold
    then { q with hot := false } else q) = f
  have hedit : v.edit p f = v.edit p ({ · with hot := (f (v.page p)).hot }) := by
    subst hf
    dsimp only [View.edit]
    split <;> rfl
  have hhot : (f (v.page p)).hot = true → (v.page p).hot = true := by
    subst hf
    dsimp only
    split
    · simp
    · exact id
  have hlist : (v.edit p f).list p = some (hotList dram) := hp
  refine spec_modifyPage (spec_get fun _ _ _ => spec_hidden (fun s hs => ?_) ?_)
  · exact ⟨⟨hs.fifo, hs.requests, hs.free⟩, rfl⟩
  refine spec_get fun _ _ _ => spec_hidden (fun s hs => ?_) ?_
  · exact ⟨⟨hs.fifo, hs.requests, hs.free⟩, rfl⟩
  refine spec_getPage (spec_ite (fun hc => ?_) fun hc => spec_pure ⟨hin, true, ?_⟩)
  · have hc : (f (v.page p)).hot = false := by simpa using hc
    refine spec_get fun s' hs hv => spec_remove hlist (spec_enqueue (by simp) (spec_pure
      ⟨hin, false, by simp, fun x hx => ?_, ?_⟩))
    · have hpl : s'.fifo.listOf p = some (hotList dram) := by
        rw [← hlist, ← hv]
        rfl
      obtain ⟨h1, h2⟩ := hs.fifo.next hpl hx
      refine ⟨?_, fun h => absurd h h2⟩
      rw [← h1, ← v.edit_list p f, ← hv]
      rfl
    · rw [hedit, hc]
      simp [View.put, View.off, usedList]
  · have hc : (f (v.page p)).hot = true := by simpa using hc
    refine ⟨fun _ => hhot hc, fun x hx => ?_, ?_⟩
    · cases hx
      exact ⟨hp, fun _ => rfl⟩
    · rw [hedit, hc]
      simp only [View.put, View.edit, usedList, if_true]
      rw [← hp, update_eq_self]

theorem coolLoop_spec {dram : Bool} : ∀ {turns : ℕ} {v : View} {current : Option PageId},
    Spec (coolLoop (hotList dram) (coldList dram) dram turns current) v
      (fun c v' => Moves A (v.setCur dram current) (v'.setCur dram c))
      (Doomed cfg A (v.setCur dram current))
  | 0, v, current => spec_pure .refl
  | turns + 1, v, current => by
    unfold coolLoop
    by_cases hcur : ∃ x, current = some x ∧ v.list x ≠ some (hotList dram)
    · obtain ⟨x, rfl, hx⟩ := hcur
      exact spec_nextPage_error hx
        (Fails.cursor (v := v.setCur dram (some x)) dram (by simp) hx (.inr rfl)).doomed
    · have hcur : ∀ x, current = some x → v.list x = some (hotList dram) := fun x hx => by
        by_contra h
        exact hcur ⟨x, hx, h⟩
      refine spec_nextPage hcur fun r hr => ?_
      rcases r with _ | p
      · exact spec_pure .refl
      have hp := (hr p rfl).1
      refine ((coolPage_spec hp).mono (fun _ _ => id) fun e he => ?_).bind
        fun c v' ⟨hin, hot, hh, hc, hv'⟩ => ?_
      · rw [he.1]
        exact (Fails.coolInDram (v := v.setCur dram current) dram hp he.2).doomed
      · have hm : Moves A (v.setCur dram current) (v'.setCur dram c) := by
          rw [hv']
          have := Move.cool (A := A) (v := v.setCur dram current) dram hot c hp hin hh hc
          simpa [View.setCur, View.put, View.edit] using Moves.one this
        exact Spec.mono coolLoop_spec (fun _ _ h => hm.trans h) fun e he => hm.doomed he

variable (cfg A) in
theorem partialCool_spec (dram : Bool) {current : Option PageId} :
    Spec (partialCool (hotList dram) (coldList dram) dram current) v
      (fun c v' => Moves A (v.setCur dram current) (v'.setCur dram c))
      (Doomed cfg A (v.setCur dram current)) := by
  unfold partialCool
  refine spec_get fun _ _ _ => spec_ite (fun _ => spec_pure .refl) fun _ => ?_
  refine spec_get fun _ _ _ => spec_ite (fun _ => spec_pure .refl) fun _ => ?_
  refine spec_get fun _ _ _ => spec_hidden (fun s hs => ?_) ?_
  · exact ⟨⟨hs.fifo, hs.requests, hs.free⟩, rfl⟩
  refine spec_get fun _ _ _ => spec_hidden (fun s hs => ?_) coolLoop_spec
  exact ⟨⟨hs.fifo, hs.requests, hs.free⟩, rfl⟩

variable (cfg A) in
/-- A call of `partial_cool` for a tier. -/
theorem partialCool_call_spec (dram : Bool) : Spec (do
      let current ← partialCool (hotList dram) (coldList dram) dram ((← get).cur dram)
      modify (·.setCur dram current)) v
    (fun _ v' => Moves A v v') (Doomed cfg A v) := by
  have hself : ∀ w : View, w.setCur dram (w.cur dram) = w := fun w => by simp [View.setCur]
  refine spec_get fun s _ hv => ?_
  have hcur : s.cur dram = v.cur dram := by rw [← hv]; rfl
  rw [hcur]
  refine ((partialCool_spec cfg A dram).mono (fun _ _ => id) fun e he => ?_).bind
    fun c v' hm => ?_
  · rwa [hself] at he
  rw [hself] at hm
  exact spec_last (spec_modify (fun s hs hv => hv ▸ hs.setCur dram c) (spec_pure hm))

theorem coolBoth_spec : Spec coolBoth v (fun _ v' => Moves A v v') (Doomed cfg A v) := by
  have hboth : coolBoth = (do
      (do
        let current ← partialCool (hotList true) (coldList true) true ((← get).cur true)
        modify (·.setCur true current) : M Unit)
      let current ← partialCool (hotList false) (coldList false) false ((← get).cur false)
      modify (·.setCur false current)) := by
    simp only [coolBoth, bind_assoc]
    rfl
  rw [hboth]
  exact (partialCool_call_spec cfg A true).bind fun _ v₁ hm₁ =>
    (partialCool_call_spec cfg A false).mono (fun _ _ hm₂ => hm₁.trans hm₂)
      fun e he => hm₁.doomed he

end Cooling

section Pass

variable (cfg A) in
theorem beforeMigration_spec (hd : A.drop ∨ v.TakesPresent) : Spec beforeMigration v
    (fun _ v' => Moves A v v' ∧ v'.free = []) (Doomed cfg A v) := by
  unfold beforeMigration
  refine spec_get fun s _ hv => ?_
  have hlen : v.free.length < s.freePageRing.count + 1 := by
    rw [← hv, ← RingBuf.length_entries]
    exact Nat.lt_succ_self _
  refine (drainFreePageRing_spec hlen).bind fun _ v₁ ⟨hm₁, hf₁, hr₁, hp₁⟩ =>
    spec_get fun s _ hv => ?_
  have hd₁ : A.drop ∨ ∀ p ∈ (v₁.requests true).take (hotRingReqsThreshold - 0),
      (v₁.page p).present = true := hd.imp_right fun hd => by
    rw [hr₁, hp₁]
    exact hd true
  have hlen : (v₁.requests true).length < s.hotRing.count + 1 := by
    rw [← hv, ← RingBuf.length_entries]
    exact Nat.lt_succ_self _
  refine ((serveRequests_spec hf₁ hlen hd₁).mono (fun _ _ => id) fun e he => hm₁.doomed he).bind
    fun _ v₂ ⟨hm₂, hr₂, hp₂⟩ => spec_get fun s _ hv => ?_
  have hd₂ : A.drop ∨ ∀ p ∈ (v₂.requests false).take (coldRingReqsThreshold - 0),
      (v₂.page p).present = true := hd.imp_right fun hd p hp => by
    rw [show v₂.requests false = v.requests false from hr₂.trans (congrFun hr₁ false)] at hp
    rw [hp₂, hp₁]
    exact hd false p hp
  have hlen : (v₂.requests false).length < s.coldRing.count + 1 := by
    rw [← hv, ← RingBuf.length_entries]
    exact Nat.lt_succ_self _
  exact (serveRequests_spec (hm₂.free_nil hf₁) hlen hd₂).mono
    (fun _ v₃ ⟨hm₃, _, _⟩ => ⟨hm₁.trans (hm₂.trans hm₃), hm₃.free_nil (hm₂.free_nil hf₁)⟩)
    fun e he => hm₁.doomed (hm₂.doomed he)

/-- Up to the cooling, a pass makes moves and leaves the free-page ring empty. -/
theorem migration_sat {s : State} (hg : s.Good) (hs : A.skip ∨ s.PassMeetsNone cfg)
    (hd : A.drop ∨ s.view.TakesPresent) : Sat (do
      beforeMigration
      migrateLoop cfg ((← listLength .nvmHot) + 1) 0)
      (fun _ s' => s'.Good ∧ Moves A s.view s'.view ∧ s'.view.free = []) (Doomed cfg A s.view) s := by
  refine ((beforeMigration_spec cfg A hd).at hg rfl).run.bind fun _ s₁ ⟨hr, hg₁, hm₁, hf₁⟩ => ?_
  rw [listLength, sat_bind, sat_bind, sat_get, sat_pure]
  have hlen : (s₁.fifo.contents .nvmHot).length < (s₁.fifo.list .nvmHot).numentries + 1 := by
    rw [hg₁.fifo.length_contents]
    exact Nat.lt_succ_self _
  exact (migrateLoop_sat (A := A) hg₁ hf₁ (fun x hx => hg₁.fifo.mem_contents.2 hx) hlen
    fun b s' hh hb => hs.imp_right fun h => h s₁ b s' hr hh hb).mono
    (fun _ _ ⟨hg₂, hm₂⟩ => ⟨hg₂, hm₁.trans hm₂, hm₂.free_nil hf₁⟩) fun e he => hm₁.doomed he

/-- A pass makes moves, and leaves the free-page ring empty. -/
theorem pebsPolicyPass_sat {s : State} (hg : s.Good) (hs : A.skip ∨ s.PassMeetsNone cfg)
    (hd : A.drop ∨ s.view.TakesPresent) : Sat (pebsPolicyPass cfg)
      (fun _ s' => s'.Good ∧ Moves A s.view s'.view ∧ s'.view.free = []) (Doomed cfg A s.view) s := by
  have hpass : pebsPolicyPass cfg = (do
      if ← (do
          beforeMigration
          migrateLoop cfg ((← listLength .nvmHot) + 1) 0 : M Bool) then
        coolBoth) := by
    simp only [pebsPolicyPass, bind_assoc]
  rw [hpass]
  refine (migration_sat hg hs hd).bind fun r s₂ ⟨hg₂, hm₂, hf₂⟩ => ?_
  rw [sat_ite]
  refine ⟨fun _ => ?_, fun _ => ⟨hg₂, hm₂, hf₂⟩⟩
  exact (coolBoth_spec.at hg₂ rfl).mono
    (fun _ s₃ h => ⟨h.1, hm₂.trans h.2, h.2.free_nil hf₂⟩) fun e he => hm₂.doomed he

end Pass

end HeMem

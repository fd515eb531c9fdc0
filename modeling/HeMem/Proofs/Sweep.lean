import HeMem.Proofs.View
import HeMem.Sweep

/-!
# When a cooling sweep completes

As long as it has not come to its end, a sweep goes on where it stands, and each page ahead either
stays on the hot list, behind it, or is put on the cold list.  So the sweep completes if and only if
its end lies ahead at all, and every page that cools lies before the end or in the same call.
-/

namespace HeMem

open Hoare Function

variable {s t u : State} {dram : Bool} {current c : Option PageId} {p e : PageId}
  {ahead behind cold : List PageId} {k : ℕ}

section Lists

variable {hot cold : ListId} {T H C : List PageId}

/-- The hot list is `H` and the cold one `C`. -/
def State.Holds (t : State) (hot cold : ListId) (H C : List PageId) : Prop :=
  ∃ L, Rep t.fifo L ∧ L hot = H ∧ L cold = C

/-- A page that a list gave up is on no list. -/
theorem Rep.off_of_removed {h h' : Heap ListId PageId} {L : ListId → List PageId} {q : ListId}
    {l : List PageId} (hr : Rep h L) (hr' : Rep h' (update L q l)) (hp : p ∈ L q) (hl : p ∉ l) :
    h'.listOf p = none := by
  by_contra hq
  obtain ⟨q', hq⟩ := Option.ne_none_iff_exists'.1 hq
  have hq := (hr'.mem p q').2 hq
  rw [update_apply] at hq
  split at hq
  · exact hl hq
  · rename_i hne
    exact hne (hr.disjoint hq hp)

/-- A page is moved from the hot list to the cold one. -/
theorem State.Holds.move (h : t.Holds hot cold (T ++ p :: H) C) (hne : hot ≠ cold) :
    (t.fifo.node p).next = H.head? ∧
    Sat (do
      onFifo (pageListRemovePage hot p)
      onFifo (enqueueFifo cold p))
      (fun _ u => u.Holds hot cold (T ++ H) (p :: C) ∧ ∃ f, u = { t with fifo := f })
      (fun _ => False) t := by
  obtain ⟨L, hr, hH, hC⟩ := h
  have hd := hr.nodup hot
  have hm := hr.chain hot
  rw [hH] at hd hm
  have hp : p ∈ L hot := by simp [hH]
  have hpT : p ∉ T := fun hx => (List.disjoint_of_nodup_append hd) hx (by simp)
  have herase : (L hot).erase p = T ++ H := by
    rw [hH, List.erase_append_right _ hpT, List.erase_cons_head]
  refine ⟨by simpa using hm.middle.2, ?_⟩
  obtain ⟨_, f, hf, hr'⟩ := (pageListRemovePage_rep hr hp).returns
  have hoff := hr.off_of_removed hr' hp fun hx => ((hr.nodup _).mem_erase_iff.1 hx).1 rfl
  obtain ⟨_, g, hg, hr''⟩ := (enqueueFifo_rep (q := cold) hr' hoff).returns
  rw [sat_bind, sat_onFifo hf, sat_onFifo (by exact hg)]
  refine ⟨⟨_, hr'', ?_, ?_⟩, g, rfl⟩
  · rw [update_of_ne hne, update_self, herase]
  · rw [update_self, update_of_ne hne.symm, hC]

/-- The page before the cursor is the last of those yet to be judged. -/
theorem State.Holds.nextPage (h : t.Holds hot cold (T ++ H) C) :
    Sat (nextPage hot H.head?) (fun r f => f = t.fifo ∧ r = T.getLast?) (fun _ => False)
      t.fifo := by
  obtain ⟨L, hr, hH, -⟩ := h
  rcases H with _ | ⟨c, H⟩
  · refine (nextPage_rep hr (by simp)).post fun r f ⟨hf, hrr⟩ => ⟨hf, hrr.trans ?_⟩
    change (L hot).getLast? = _
    rw [hH, List.append_nil]
  · have hd := hr.nodup hot
    rw [hH] at hd
    have hmem : ∀ q, some c = some q → q ∈ L hot := fun q hq => by
      cases hq
      simp [hH]
    refine (nextPage_rep hr hmem).post fun r f ⟨hf, hrr⟩ => ⟨hf, hrr.trans ?_⟩
    have hc : c ∉ T := fun hx => (List.disjoint_of_nodup_append hd) hx (by simp)
    change ((L hot).takeWhile (· ≠ c)).getLast? = _
    rw [hH, List.takeWhile_append_of_pos fun y hy => by simpa using ne_of_mem_of_not_mem hy hc]
    simp

theorem State.Holds.contents (h : t.Holds hot cold H C) :
    t.fifo.contents hot = H ∧ t.fifo.contents cold = C := by
  obtain ⟨L, hr, hH, hC⟩ := h
  rw [hr.contents, hr.contents]
  exact ⟨hH, hC⟩

end Lists

section Walk

/-- The lists are well formed, the flag is set, the cursor is null or on the hot list, and the pages
on the hot list are in its tier. -/
structure State.Sweepable (s : State) (dram : Bool) : Prop where
  wf : s.fifo.Wf
  need : s.needCool dram = true
  cursor : ∀ c, s.cur dram = some c → c ∈ s.fifo.contents (hotList dram)
  inDram : ∀ p ∈ s.fifo.contents (hotList dram), (s.page p).inDram = dram

/-- A sweep of the lists of `s` stands before the pages `ahead`. -/
structure Standing (s : State) (dram : Bool) (ahead behind cold : List PageId)
    (current : Option PageId) (t : State) : Prop where
  rep : ∃ L, Rep t.fifo L ∧ L (hotList dram) = ahead.reverse ++ behind ∧ L (coldList dram) = cold
  cursor : current = behind.head?
  clock : t.globalClock = s.globalClock
  reads : ∀ p, (t.page p).accesses = (s.page p).accesses ∧
    (t.page p).localClock = (s.page p).localClock
  inDram : ∀ p ∈ ahead, (t.page p).inDram = dram

theorem hotList_ne_coldList : hotList dram ≠ coldList dram := by
  cases dram <;> decide

theorem Standing.nextPage (h : Standing s dram ahead behind cold current t) :
    Sat (nextPage (hotList dram) current) (fun r f => f = t.fifo ∧ r = ahead.head?)
      (fun _ => False) t.fifo := by
  have hh : t.Holds (hotList dram) (coldList dram) (ahead.reverse ++ behind) cold := h.rep
  rw [h.cursor]
  refine hh.nextPage.post fun r f ⟨hf, hr⟩ => ⟨hf, hr.trans ?_⟩
  rw [List.getLast?_reverse]

/-- What the sweep does with the page it comes to. -/
structure Passed (s : State) (dram : Bool) (p : PageId) (ahead behind cold : List PageId)
    (t : State) (c : Option PageId) (u : State) : Prop where
  standing : ∃ behind' cold', Standing s dram ahead behind' cold' c u ∧
    ((s.page p).Cools s.globalClock → p ∈ cold') ∧ cold ⊆ cold' ∧ cold' ⊆ p :: cold
  start : t.startPage dram ≠ some p →
    u.startPage dram = t.startPage dram ∧ u.needCool dram = t.needCool dram
  ends : t.startPage dram = some p → u.startPage dram = none ∧ u.needCool dram = false

/-- The page is moved from the hot list to the cold one. -/
theorem Standing.move (h : Standing s dram (p :: ahead) behind cold current t) :
    (t.fifo.node p).next = behind.head? ∧
    Sat (do
      onFifo (pageListRemovePage (hotList dram) p)
      onFifo (enqueueFifo (coldList dram) p))
      (fun _ u => Standing s dram ahead behind (p :: cold) behind.head? u ∧
        u.startPage = t.startPage ∧ u.needCool = t.needCool) (fun _ => False) t := by
  have hh : t.Holds (hotList dram) (coldList dram) ((p :: ahead).reverse ++ behind) cold := h.rep
  rw [List.reverse_cons, List.append_assoc, List.singleton_append] at hh
  obtain ⟨hnext, hmove⟩ := hh.move hotList_ne_coldList
  refine ⟨hnext, hmove.post fun _ u ⟨hu, f, hf⟩ => ?_⟩
  subst hf
  exact ⟨⟨hu, rfl, h.clock, h.reads, fun q hq => h.inDram q (by simp [hq])⟩, rfl, rfl⟩

/-- What remains of the end of the sweep once it has come to `p`. -/
structure Ended (dram : Bool) (p : PageId) (t u : State) : Prop where
  fifo : u.fifo = t.fifo
  page : u.page = t.page
  clock : u.globalClock = t.globalClock
  goes : t.startPage dram ≠ some p →
    u.startPage dram = t.startPage dram ∧ u.needCool dram = t.needCool dram
  ends : t.startPage dram = some p → u.startPage dram = none ∧ u.needCool dram = false

/-- The page as the sweep leaves it. -/
def HememPage.cooled (P : HememPage) (clock : UInt64) : HememPage :=
  if P.accesses .dramread >>> (clock - P.localClock) + P.accesses .nvmread >>> (clock - P.localClock) <
    hotReadThreshold then { P with hot := false } else P

theorem Standing.edit (h : Standing s dram ahead behind cold current t) (x : UInt64) :
    Standing s dram ahead behind cold current
      { t with page := update t.page p ((t.page p).cooled x) } := by
  refine ⟨h.rep, h.cursor, h.clock, fun q => ?_, fun q hq => ?_⟩
  all_goals rcases eq_or_ne q p with rfl | hne
  · rw [← (h.reads q).1, ← (h.reads q).2]
    dsimp only
    rw [update_self]
    unfold HememPage.cooled
    split <;> exact ⟨rfl, rfl⟩
  · dsimp only
    rw [update_of_ne hne]
    exact h.reads q
  · rw [← h.inDram q hq]
    dsimp only
    rw [update_self]
    unfold HememPage.cooled
    split <;> rfl
  · dsimp only
    rw [update_of_ne hne]
    exact h.inDram q hq

theorem Standing.congr (h : Standing s dram ahead behind cold current t) (hf : u.fifo = t.fifo)
    (hp : u.page = t.page) (hc : u.globalClock = t.globalClock) :
    Standing s dram ahead behind cold current u :=
  ⟨hf ▸ h.rep, h.cursor, hc.trans h.clock, hp ▸ h.reads, hp ▸ h.inDram⟩

/-- The page stays on the hot list, behind the sweep. -/
theorem Standing.stay (h : Standing s dram (p :: ahead) behind cold current t) :
    Standing s dram ahead (p :: behind) cold (some p) t := by
  obtain ⟨L, hr, hL, hcold⟩ := h.rep
  exact ⟨⟨L, hr, by simpa using hL, hcold⟩, rfl, h.clock, h.reads,
    fun q hq => h.inDram q (by simp [hq])⟩

theorem Standing.coolPage (h : Standing s dram (p :: ahead) behind cold current t) :
    Sat (coolPage (hotList dram) (coldList dram) dram p) (Passed s dram p ahead behind cold t)
      (fun _ => False) t := by
  unfold HeMem.coolPage
  refine sat_getPage.2 ?_
  rw [sat_bind, sat_check]
  refine ⟨fun _ => ?_, fun hn => hn (h.inDram p (by simp))⟩
  rw [sat_bind, sat_get]
  refine sat_modifyPage.2 ?_
  change Sat _ _ _ { t with page := update t.page p ((t.page p).cooled t.globalClock) }
  have hstand := h.edit (p := p) t.globalClock
  have hcools : (s.page p).Cools s.globalClock → ((t.page p).cooled t.globalClock).hot = false := by
    intro hc
    unfold HememPage.Cools at hc
    unfold HememPage.cooled
    rw [(h.reads p).1, (h.reads p).2, h.clock, if_pos hc]
  have hrest : ∀ u, Ended dram p { t with page := update t.page p ((t.page p).cooled t.globalClock) } u →
      Sat (do
        if !(← getPage p).hot then
          let current := ((← get).fifo.node p).next
          onFifo (pageListRemovePage (hotList dram) p)
          onFifo (enqueueFifo (coldList dram) p)
          return current
        else
          return some p) (Passed s dram p ahead behind cold t) (fun _ => False) u := fun u hu => by
    have hu' := hstand.congr hu.fifo hu.page hu.clock
    refine sat_getPage.2 ?_
    rw [sat_ite]
    refine ⟨fun hhot => ?_, fun hhot => ?_⟩
    · obtain ⟨hnext, hmove⟩ := hu'.move
      rw [sat_bind, sat_get, ← bind_assoc]
      refine hmove.bind fun _ w ⟨hw, hstart, hneed⟩ => ?_
      rw [hnext]
      refine ⟨⟨_, _, hw, fun _ => by simp, List.subset_cons_self _ _, List.Subset.refl _⟩,
        fun hn => ?_, fun he => ?_⟩ <;> rw [hstart, hneed]
      · exact hu.goes hn
      · exact hu.ends he
    · refine ⟨⟨_, _, hu'.stay, fun hc => ?_, List.Subset.refl _, List.subset_cons_self _ _⟩,
        hu.goes, hu.ends⟩
      rw [hu.page] at hhot
      simp [hcools hc] at hhot
  cases dram
  · rw [sat_bind, sat_get, sat_ite]
    refine ⟨nofun, fun _ => ?_⟩
    rw [sat_bind, sat_get, sat_ite]
    simp only [Bool.not_false, Bool.true_and, decide_eq_true_eq]
    refine ⟨fun he => ?_, fun he => hrest _ ⟨rfl, rfl, rfl, fun _ => ⟨rfl, rfl⟩,
      fun h' => absurd h' he⟩⟩
    rw [sat_bind, sat_modify]
    exact hrest _ ⟨rfl, rfl, rfl, fun hn => absurd he hn, fun _ => ⟨rfl, rfl⟩⟩
  · rw [sat_bind, sat_get, sat_ite]
    simp only [Bool.true_and, decide_eq_true_eq]
    refine ⟨fun he => ?_, fun he => ?_⟩
    · rw [sat_bind, sat_modify, sat_bind, sat_get, sat_ite]
      exact ⟨nofun, fun _ => hrest _ ⟨rfl, rfl, rfl, fun hn => absurd he hn, fun _ => ⟨rfl, rfl⟩⟩⟩
    · rw [sat_bind, sat_get, sat_ite]
      exact ⟨nofun, fun _ => hrest _ ⟨rfl, rfl, rfl, fun _ => ⟨rfl, rfl⟩, fun h' => absurd h' he⟩⟩

/-- What some turns of the loop do, from `t` on. -/
structure Walked (s : State) (dram : Bool) (ahead cold : List PageId) (turns : ℕ)
    (t : State) (c : Option PageId) (u : State) : Prop where
  standing : ∃ behind' cold', Standing s dram (ahead.drop turns) behind' cold' c u ∧
    (∀ p ∈ ahead.take turns, (s.page p).Cools s.globalClock → p ∈ cold') ∧ cold ⊆ cold' ∧
      cold' ⊆ ahead.take turns ++ cold
  goes : (∀ p ∈ ahead.take turns, t.startPage dram ≠ some p) →
    u.startPage dram = t.startPage dram ∧ u.needCool dram = t.needCool dram
  ends : (∃ p ∈ ahead.take turns, t.startPage dram = some p) → u.needCool dram = false
  still : ahead = [] → u.fifo = t.fifo

theorem Standing.coolLoop : ∀ {turns : ℕ} {ahead behind cold : List PageId}
    {current : Option PageId} {t : State}, Standing s dram ahead behind cold current t →
      Sat (coolLoop (hotList dram) (coldList dram) dram turns current)
        (Walked s dram ahead cold turns t) (fun _ => False) t
  | 0, ahead, behind, cold, current, t, h => by
    unfold HeMem.coolLoop
    exact ⟨⟨behind, cold, h, by simp, List.Subset.refl _, by simp⟩, fun _ => ⟨rfl, rfl⟩, by simp,
      fun _ => rfl⟩
  | turns + 1, ahead, behind, cold, current, t, h => by
    unfold HeMem.coolLoop
    obtain ⟨r, f, hn, rfl, hr⟩ := h.nextPage.returns
    rw [sat_bind, sat_onFifo hn]
    rcases ahead with _ | ⟨p, ahead⟩
    · obtain rfl : r = none := hr
      exact ⟨⟨behind, cold, h, by simp, List.Subset.refl _, by simp⟩, fun _ => ⟨rfl, rfl⟩, by simp,
        fun _ => rfl⟩
    obtain rfl : r = some p := hr
    refine h.coolPage.bind fun c u hu => ?_
    obtain ⟨behind', cold', hs, hcool, hsub, hin⟩ := hu.standing
    refine hs.coolLoop.post fun d w hw => ?_
    obtain ⟨behind'', cold'', hs', hcool', hsub', hin'⟩ := hw.standing
    refine ⟨⟨behind'', cold'', hs', fun q hq hc => ?_, fun q hq => hsub' (hsub hq),
      fun q hq => ?_⟩, fun hne => ?_, fun ⟨q, hq, he⟩ => ?_, nofun⟩
    · rw [List.take_succ_cons, List.mem_cons] at hq
      rcases hq with rfl | hq
      · exact hsub' (hcool hc)
      · exact hcool' q hq hc
    · rw [List.take_succ_cons, List.cons_append, List.mem_cons, List.mem_append]
      rcases List.mem_append.1 (hin' hq) with hq | hq
      · exact .inr (.inl hq)
      · exact (List.mem_cons.1 (hin hq)).imp_right .inr
    · rw [List.take_succ_cons] at hne
      obtain ⟨h1, h2⟩ := hu.start (hne p (by simp))
      obtain ⟨h3, h4⟩ := hw.goes fun q hq => h1 ▸ hne q (by simp [hq])
      exact ⟨h3.trans h1, h4.trans h2⟩
    · rw [List.take_succ_cons, List.mem_cons] at hq
      by_cases hp : t.startPage dram = some p
      · obtain ⟨h1, h2⟩ := hu.ends hp
        exact (hw.goes fun q _ => by simp [h1]).2.trans h2
      · obtain ⟨h1, -⟩ := hu.start hp
        rcases hq with rfl | hq
        · exact absurd he hp
        · exact hw.ends ⟨q, hq, h1.trans he⟩

/-- Where the flag is set, `partial_cool` remembers the end of the sweep and goes into its loop. -/
theorem partialCool_sat {Q : Option PageId → State → Prop} (hw : t.fifo.Wf)
    (hn : t.needCool dram = true)
    (h : ∀ u, u.fifo = t.fifo → u.page = t.page → u.globalClock = t.globalClock →
      u.startPage dram = t.sweepEnd dram → u.needCool dram = true →
        Sat (HeMem.coolLoop (hotList dram) (coldList dram) dram coolingPages current) Q
          (fun _ => False) u) :
    Sat (partialCool (hotList dram) (coldList dram) dram current) Q (fun _ => False) t := by
  have hlast := hw.last_eq (hotList dram)
  have hnone : t.startPage dram = none → t.sweepEnd dram = (t.fifo.list (hotList dram)).last :=
    fun hs => by rw [State.sweepEnd, hs, Option.none_or, hlast]
  have hsome : t.startPage dram ≠ none → t.startPage dram = t.sweepEnd dram := fun hs => by
    obtain ⟨e, he⟩ := Option.ne_none_iff_exists'.1 hs
    rw [State.sweepEnd, he, Option.some_or]
  unfold partialCool
  cases dram
  · have hn : t.needCoolNvm = true := hn
    rw [sat_bind, sat_get, sat_ite]
    refine ⟨nofun, fun _ => ?_⟩
    rw [sat_bind, sat_get, sat_ite, hn]
    refine ⟨nofun, fun _ => ?_⟩
    rw [sat_bind, sat_get, sat_ite]
    refine ⟨fun hc => absurd hc.2 (by decide), fun _ => ?_⟩
    rw [sat_bind, sat_get, sat_ite]
    refine ⟨fun hc => ?_, fun hc => h t rfl rfl rfl (hsome fun hs => hc ⟨hs, rfl⟩) hn⟩
    rw [sat_bind, sat_modify]
    exact h _ rfl rfl rfl (hnone hc.1).symm hn
  · have hn : t.needCoolDram = true := hn
    rw [sat_bind, sat_get, sat_ite, hn]
    refine ⟨nofun, fun _ => ?_⟩
    rw [sat_bind, sat_get, sat_ite]
    refine ⟨nofun, fun _ => ?_⟩
    rw [sat_bind, sat_get, sat_ite]
    refine ⟨fun hc => ?_, fun hc => ?_⟩
    · rw [sat_bind, sat_modify, sat_bind, sat_get, sat_ite]
      exact ⟨fun hd => absurd hd.2 (by decide), fun _ => h _ rfl rfl rfl (hnone hc.1).symm hn⟩
    · rw [sat_bind, sat_get, sat_ite]
      exact ⟨fun hd => absurd hd.2 (by decide),
        fun _ => h t rfl rfl rfl (hsome fun hs => hc ⟨hs, rfl⟩) hn⟩

theorem Standing.wf (h : Standing s dram ahead behind cold current t) : t.fifo.Wf := by
  obtain ⟨L, hr, -⟩ := h.rep
  exact ⟨L, hr⟩

theorem Standing.contents (h : Standing s dram ahead behind cold current t) :
    t.fifo.contents (hotList dram) = ahead.reverse ++ behind ∧
      t.fifo.contents (coldList dram) = cold := by
  obtain ⟨L, hr, hL, hc⟩ := h.rep
  rw [hr.contents, hr.contents]
  exact ⟨hL, hc⟩

theorem State.begun_steady (hot : ListId) : (t.begun hot dram).fifo = t.fifo ∧
    (t.begun hot dram).page = t.page ∧ (t.begun hot dram).globalClock = t.globalClock := by
  unfold State.begun
  split
  · cases dram <;> exact ⟨rfl, rfl, rfl⟩
  · exact ⟨rfl, rfl, rfl⟩

/-- A call where the flag is set. -/
theorem Standing.coolCall (h : Standing s dram ahead behind cold (t.cur dram) t)
    (hn : t.needCool dram = true) : Sat (coolCall dram) (fun _ u =>
      (∃ behind' cold', Standing s dram (ahead.drop coolingPages) behind' cold' (u.cur dram) u ∧
        (∀ p ∈ ahead.take coolingPages, (s.page p).Cools s.globalClock → p ∈ cold') ∧
          cold ⊆ cold' ∧ cold' ⊆ ahead.take coolingPages ++ cold) ∧
      ((∀ p ∈ ahead.take coolingPages, t.sweepEnd dram ≠ some p) →
        u.sweepEnd dram = t.sweepEnd dram ∧ u.needCool dram = true) ∧
      ((∃ p ∈ ahead.take coolingPages, t.sweepEnd dram = some p) → u.needCool dram = false))
      (fun _ => False) t := by
  have hset : ∀ (w : State) (c : Option PageId), (w.setCur dram c).fifo = w.fifo ∧
      (w.setCur dram c).page = w.page ∧ (w.setCur dram c).globalClock = w.globalClock ∧
      (w.setCur dram c).cur dram = c ∧ (w.setCur dram c).startPage dram = w.startPage dram ∧
      (w.setCur dram c).needCool dram = w.needCool dram := fun w c => by
    cases dram <;> exact ⟨rfl, rfl, rfl, rfl, rfl, rfl⟩
  unfold HeMem.coolCall
  rw [sat_bind, sat_get, sat_bind]
  refine partialCool_sat h.wf hn fun v hf hp hc hstart hneed => ?_
  refine (h.congr hf hp hc).coolLoop.post fun c w hw => ?_
  rw [sat_modify]
  obtain ⟨hf', hp', hc', hcur, hst', hn'⟩ := hset w c
  obtain ⟨behind', cold', hs, hcool⟩ := hw.standing
  refine ⟨⟨behind', cold', ?_, hcool⟩, fun hne => ?_, fun he => ?_⟩
  · rw [hcur]
    exact hs.congr hf' hp' hc'
  · obtain ⟨h1, h2⟩ := hw.goes fun p hp => hstart ▸ hne p hp
    refine ⟨?_, hn'.trans (h2.trans hneed)⟩
    rw [State.sweepEnd, hst', h1, hstart]
    rcases he : t.sweepEnd dram with _ | e
    · have hempty : t.fifo.contents (hotList dram) = [] := by
        unfold State.sweepEnd at he
        rw [Option.or_eq_none_iff] at he
        exact List.getLast?_eq_none_iff.1 he.2
      have hahead : ahead = [] := by
        have hcont := h.contents.1
        rw [hempty] at hcont
        simpa using (List.append_eq_nil_iff.1 hcont.symm).1
      rw [hf', hw.still hahead, hf, hempty]
      rfl
    · rfl
  · rw [hn']
    exact hw.ends (hstart ▸ he)

end Walk

section Sweeps

theorem State.Sweepable.standing (h : s.Sweepable dram) : ∃ behind,
    Standing s dram (s.ahead dram) behind (s.fifo.contents (coldList dram)) (s.cur dram) s := by
  obtain ⟨L, hr⟩ := h.wf
  have hL : ∀ q, L q = s.fifo.contents q := fun q => (hr.contents q).symm
  unfold State.ahead
  rcases hc : s.cur dram with _ | c
  · exact ⟨[], ⟨L, hr, by simp [hL], hL _⟩, rfl, rfl, fun _ => ⟨rfl, rfl⟩,
      fun p hp => h.inDram p (List.mem_reverse.1 hp)⟩
  · have hmem := h.cursor c hc
    obtain ⟨A, B, hAB⟩ := List.append_of_mem hmem
    have hd := hr.nodup (hotList dram)
    rw [hL, hAB] at hd
    have hA : c ∉ A := fun hx => (List.disjoint_of_nodup_append hd) hx (by simp)
    have htake : (s.fifo.contents (hotList dram)).takeWhile (· ≠ c) = A := by
      rw [hAB, List.takeWhile_append_of_pos fun y hy => by simpa using ne_of_mem_of_not_mem hy hA]
      simp
    dsimp only
    rw [htake]
    refine ⟨c :: B, ⟨L, hr, ?_, hL _⟩, rfl, rfl, fun _ => ⟨rfl, rfl⟩, fun p hp => ?_⟩
    · rw [hL, hAB, List.reverse_reverse]
    · refine h.inDram p ?_
      rw [hAB]
      simp [List.mem_reverse.1 hp]

/-- After `k` calls that have not come to the end. -/
structure Swept (s : State) (dram : Bool) (k : ℕ) (t : State) : Prop where
  standing : ∃ behind cold,
    Standing s dram ((s.ahead dram).drop (k * coolingPages)) behind cold (t.cur dram) t ∧
      (∀ p ∈ (s.ahead dram).take (k * coolingPages), (s.page p).Cools s.globalClock → p ∈ cold) ∧
      cold ⊆ (s.ahead dram).take (k * coolingPages) ++ s.fifo.contents (coldList dram)
  sweepEnd : t.sweepEnd dram = s.sweepEnd dram
  need : t.needCool dram = true

theorem take_block (l : List PageId) (k n : ℕ) :
    l.take ((k + 1) * n) = l.take (k * n) ++ (l.drop (k * n)).take n := by
  rw [Nat.add_one_mul, List.take_add]

/-- The next call: the sweep goes on, or comes to its end. -/
theorem Swept.next (h : Swept s dram k t) (hw : s.fifo.Wf) : Sat (coolCall dram) (fun _ u =>
    ((∀ p ∈ ((s.ahead dram).drop (k * coolingPages)).take coolingPages,
        s.sweepEnd dram ≠ some p) → Swept s dram (k + 1) u) ∧
    ((∃ p ∈ ((s.ahead dram).drop (k * coolingPages)).take coolingPages,
        s.sweepEnd dram = some p) → u.needCool dram = false) ∧
    ∀ p ∈ s.fifo.contents (hotList dram), (s.page p).Cools s.globalClock →
      (p ∈ u.fifo.contents (coldList dram) ↔
        p ∈ (s.ahead dram).take ((k + 1) * coolingPages))) (fun _ => False) t := by
  obtain ⟨behind, cold, hs, hmoved, honly⟩ := h.standing
  refine (hs.coolCall h.need).post fun _ u ⟨⟨behind', cold', hs', hcool, hsub, hin⟩, hgo, hend⟩ => ?_
  rw [h.sweepEnd] at hgo hend
  have hmoved' : ∀ p ∈ (s.ahead dram).take ((k + 1) * coolingPages),
      (s.page p).Cools s.globalClock → p ∈ cold' := fun p hp hc => by
    rw [take_block, List.mem_append] at hp
    rcases hp with hp | hp
    · exact hsub (hmoved p hp hc)
    · exact hcool p hp hc
  have honly' : cold' ⊆ (s.ahead dram).take ((k + 1) * coolingPages) ++
      s.fifo.contents (coldList dram) := fun p hp => by
    rw [take_block, List.append_assoc, List.mem_append, List.mem_append]
    rcases List.mem_append.1 (hin hp) with hp | hp
    · exact .inr (.inl hp)
    · exact (List.mem_append.1 (honly hp)).imp_right .inr
  have hdrop : ((s.ahead dram).drop (k * coolingPages)).drop coolingPages =
      (s.ahead dram).drop ((k + 1) * coolingPages) := by
    rw [List.drop_drop, Nat.add_one_mul]
  rw [hdrop] at hs'
  refine ⟨fun hne => ⟨⟨behind', cold', hs', hmoved', honly'⟩, (hgo hne).1, (hgo hne).2⟩, hend,
    fun p hp hc => ?_⟩
  rw [hs'.contents.2]
  refine ⟨fun hmem => ?_, fun hmem => hmoved' p hmem hc⟩
  rcases List.mem_append.1 (honly' hmem) with hmem | hmem
  · exact hmem
  · rw [hw.mem_contents] at hp hmem
    rw [hp, Option.some.injEq] at hmem
    exact absurd hmem hotList_ne_coldList

theorem coolCalls_swept (h : s.Sweepable dram)
    (hne : ∀ p ∈ (s.ahead dram).take (k * coolingPages), s.sweepEnd dram ≠ some p) :
    Sat (coolCalls dram k) (fun _ t => Swept s dram k t) (fun _ => False) s := by
  induction k with
  | zero =>
    obtain ⟨behind, hs⟩ := h.standing
    refine ⟨⟨behind, _, ?_, ?_, List.subset_append_right _ _⟩, rfl, h.need⟩
    · rw [Nat.zero_mul, List.drop_zero]
      exact hs
    · rw [Nat.zero_mul, List.take_zero]
      exact fun p hp => absurd hp List.not_mem_nil
  | succ k ih =>
    rw [take_block] at hne
    unfold coolCalls
    exact (ih fun p hp => hne p (List.mem_append_left _ hp)).bind fun _ t ht =>
      (ht.next h.wf).post fun _ u hu => hu.1 fun p hp => hne p (List.mem_append_right _ hp)

/-- Calls that have not come to the end of the sweep leave the flag set. -/
theorem coolCalls_need (h : s.Sweepable dram)
    (hne : ∀ p ∈ (s.ahead dram).take (k * coolingPages), s.sweepEnd dram ≠ some p)
    (ht : coolCalls dram k s = .ok ((), t)) : t.needCool dram = true :=
  ((coolCalls_swept h hne).ok ht).need

theorem nodup_ahead (h : s.Sweepable dram) : (s.ahead dram).Nodup := by
  unfold State.ahead
  split
  · exact List.nodup_reverse.2 h.wf.nodup_contents
  · exact List.nodup_reverse.2 (h.wf.nodup_contents.sublist (List.takeWhile_sublist _))

/-- A sweep completes if and only if its end lies ahead, with every page that cools before the end
or among the pages of the same call. -/
theorem sweep_completes_iff (h : s.Sweepable dram) : s.Completes dram ↔ s.EndAhead dram := by
  constructor
  · rintro ⟨k, t, hk, hclear, hset, hcold⟩
    have hbefore : ∀ j ≤ k,
        ∀ p ∈ (s.ahead dram).take (j * coolingPages), s.sweepEnd dram ≠ some p := by
      intro j
      induction j with
      | zero => simp
      | succ j ih =>
        intro hj p hp he
        obtain ⟨_, u, hu, hsu⟩ := (coolCalls_swept h (ih (by omega))).returns
        rw [take_block] at hp
        have hp := (List.mem_append.1 hp).resolve_left fun hp => ih (by omega) p hp he
        obtain ⟨_, w, hw, -, hend, -⟩ := (hsu.next h.wf).returns
        have hrun : coolCalls dram (j + 1) s = .ok ((), w) := by
          change (coolCalls dram j s >>= fun r => coolCall dram r.2) = _
          rw [hu]
          exact hw
        have hneed := hset (j + 1) hj w hrun
        rw [hend ⟨p, hp, he⟩] at hneed
        cases hneed
    obtain ⟨_, u, hu, hsu⟩ := (coolCalls_swept h (hbefore k (Nat.le_refl k))).returns
    have hrun : coolCall dram u = .ok ((), t) := by
      rw [← hk]
      change _ = (coolCalls dram k s >>= fun r => coolCall dram r.2)
      rw [hu]
      rfl
    obtain ⟨hgo, -, hmoved⟩ := (hsu.next h.wf).ok hrun
    by_cases hmeet : ∃ p ∈ ((s.ahead dram).drop (k * coolingPages)).take coolingPages,
        s.sweepEnd dram = some p
    · obtain ⟨e, he, hse⟩ := hmeet
      exact ⟨k, e, he, hse, fun p hp hc => (hmoved p hp hc).1 (hcold p hp hc)⟩
    · have hneed := (hgo fun p hp he => hmeet ⟨p, hp, he⟩).need
      rw [hclear] at hneed
      cases hneed
  · rintro ⟨k, e, he, hse, hcool⟩
    have hbefore : ∀ j ≤ k,
        ∀ p ∈ (s.ahead dram).take (j * coolingPages), s.sweepEnd dram ≠ some p := by
      intro j hj p hp hsp
      obtain rfl : e = p := Option.some.inj (hse.symm.trans hsp)
      have hd := nodup_ahead h
      rw [← List.take_append_drop (k * coolingPages) (s.ahead dram)] at hd
      refine (List.disjoint_of_nodup_append hd) ?_ (List.mem_of_mem_take he)
      exact (List.take_subset_take_left _ (Nat.mul_le_mul_right _ hj)) hp
    obtain ⟨_, u, hu, hsu⟩ := (coolCalls_swept h (hbefore k (Nat.le_refl k))).returns
    obtain ⟨_, t, ht, -, hend, hmoved⟩ := (hsu.next h.wf).returns
    refine ⟨k, t, ?_, hend ⟨e, he, hse⟩, fun j hj w hw => coolCalls_need h (hbefore j hj) hw,
      fun p hp hc => (hmoved p hp hc).2 (hcool p hp hc)⟩
    change (coolCalls dram k s >>= fun r => coolCall dram r.2) = _
    rw [hu]
    exact ht

/-- The lists with the pages of `l` on DRAM hot. -/
def hotFifo : List PageId → Heap ListId PageId
  | [] => Heap.empty
  | p :: l => ((enqueueFifo .dramHot p (hotFifo l)).toOption.map (·.2)).getD Heap.empty

theorem hotFifo_wf : ∀ {l : List PageId}, l.Nodup → (hotFifo l).Wf ∧
    (hotFifo l).contents .dramHot = l ∧ ∀ x ∉ l, (hotFifo l).listOf x = none
  | [], _ => ⟨⟨_, Rep.empty⟩, rfl, fun _ _ => rfl⟩
  | p :: l, hl => by
    obtain ⟨hp, hl⟩ := List.nodup_cons.1 hl
    obtain ⟨hw, hc, hn⟩ := hotFifo_wf hl
    obtain ⟨h, he, hw', hlist⟩ := hw.enqueue (q := .dramHot) (hn p hp)
    have hfifo : hotFifo (p :: l) = h := by
      unfold hotFifo
      rw [he]
      rfl
    have hc' := hw.contents_enqueue (hn p hp) he
    rw [hfifo]
    refine ⟨hw', by simp [hc', hc], fun x hx => ?_⟩
    obtain ⟨hxp, hxl⟩ := List.ne_and_not_mem_of_not_mem_cons hx
    rw [hlist, update_of_ne hxp, hn x hxl]

/-- One page, hot and with no accesses, on DRAM hot, and the flag set. -/
def oneHot (cursor : Option PageId) : State :=
  { State.blank ⟨fun _ => none, fun _ _ => 0⟩ with
    fifo := ((enqueueFifo .dramHot 0 (Heap.empty : Heap ListId PageId)).toOption.map (·.2)).getD
      Heap.empty
    page := fun _ => { inDram := true, hot := true }
    needCoolDram := true
    curCoolInDram := cursor }

theorem oneHot_fifo (cursor : Option PageId) : (oneHot cursor).fifo.Wf ∧
    (oneHot cursor).fifo.contents .dramHot = [0] :=
  have h := hotFifo_wf (l := [0]) (List.nodup_singleton 0)
  ⟨h.1, h.2.1⟩

theorem oneHot_sweepable {cursor : Option PageId} (hc : cursor = none ∨ cursor = some 0) :
    (oneHot cursor).Sweepable true where
  wf := (oneHot_fifo cursor).1
  need := rfl
  cursor c hcur := by
    have hcur : cursor = some c := hcur
    have hf := (oneHot_fifo cursor).2
    change c ∈ (oneHot cursor).fifo.contents .dramHot
    rw [hf]
    rcases hc with rfl | rfl <;> cases hcur
    exact List.mem_singleton_self _
  inDram _ _ := rfl

/-- Five hot pages on DRAM hot, of which 0 and 2 have had no accesses; the sweep began at page 0. -/
def fiveHot (cursor : Option PageId) : State :=
  { State.blank ⟨fun _ => none, fun _ _ => 0⟩ with
    fifo := hotFifo [0, 1, 2, 3, 4]
    page := fun p =>
      { inDram := true, hot := true, accesses := fun _ => if p = 0 ∨ p = 2 then 0 else 8 }
    needCoolDram := true
    startDramPage := some 0
    curCoolInDram := cursor }

theorem fiveHot_fifo (cursor : Option PageId) : (fiveHot cursor).fifo.Wf ∧
    (fiveHot cursor).fifo.contents .dramHot = [0, 1, 2, 3, 4] :=
  have h := hotFifo_wf (l := [0, 1, 2, 3, 4]) (by decide)
  ⟨h.1, h.2.1⟩

/-- A sweep whose cursor is at page 3 goes over the three pages before it and completes. -/
theorem sweep_completes_five : (fiveHot (some 3)).ahead true = [2, 1, 0] ∧
    (fiveHot (some 3)).Completes true := by
  obtain ⟨hw, hf⟩ := fiveHot_fifo (some 3)
  have ha : (fiveHot (some 3)).ahead true = [2, 1, 0] := by
    change (((fiveHot (some 3)).fifo.contents .dramHot).takeWhile (· ≠ 3)).reverse = _
    rw [hf]
    decide
  have hs : (fiveHot (some 3)).Sweepable true :=
    { wf := hw
      need := rfl
      cursor := fun c hc => by
        cases hc
        change 3 ∈ (fiveHot (some 3)).fifo.contents .dramHot
        rw [hf]
        decide
      inDram := fun _ _ => rfl }
  refine ⟨ha, (sweep_completes_iff hs).2 ⟨0, 0, ?_, rfl, fun p hp hc => ?_⟩⟩
  · rw [ha]
    decide
  · change p ∈ (fiveHot (some 3)).fifo.contents .dramHot at hp
    rw [hf] at hp
    rw [ha, List.take_of_length_le (by decide)]
    simp only [List.mem_cons, List.not_mem_nil, or_false] at hp
    -- the two pages behind the cursor stay hot
    rcases hp with rfl | rfl | rfl | rfl | rfl
    · decide
    · decide
    · decide
    · exact absurd hc (by unfold HememPage.Cools; decide)
    · exact absurd hc (by unfold HememPage.Cools; decide)

/-- Where the cursor is at the one page of the list, no call comes to it, and the flag stays set. -/
theorem sweep_never_completes : ∃ s : State, s.Sweepable true ∧ ¬ s.Completes true := by
  have hs : (oneHot (some 0)).Sweepable true := oneHot_sweepable (.inr rfl)
  refine ⟨oneHot (some 0), hs, fun ⟨k, t, hk, hclear, _⟩ => ?_⟩
  have ha : (oneHot (some 0)).ahead true = [] := by
    change (((oneHot (some 0)).fifo.contents .dramHot).takeWhile (· ≠ 0)).reverse = []
    rw [(oneHot_fifo (some 0)).2]
    decide
  have hneed := coolCalls_need hs (k := k + 1) (by rw [ha]; simp) hk
  rw [hclear] at hneed
  cases hneed

end Sweeps

end HeMem

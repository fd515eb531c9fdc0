import HeMem.FlexKvs.Bench
import HeMem.FlexKvs.Proofs.CleanRace
import Mathlib.Algebra.BigOperators.Group.Finset.Basic
import Mathlib.Algebra.Order.BigOperators.Group.Finset
import Mathlib.Data.Fintype.BigOperators
import Mathlib.Data.Nat.ModEq

/-!
# The threads of `kvsbench`

What a thread knows in each of its calls, which keys it has loaded in each of its phases, and how
the records of the SETs fit what the threads do.
-/

namespace FlexKvs

open Function Hasht Bench

variable {jenkinsHash : List UInt8 → UInt32} {nbuckets : ℕ} {st : BenchSettings}

section References

variable {n : ℕ} {core : Fin n → Core} {i : Fin n} {c : Core} {x : ℕ} {o : ℕ → ℕ} {l : List ℕ}

/-- The references of the threads. -/
def coreRefs (core : Fin n → Core) (x : ℕ) : ℕ := ∑ i, (core i).items.count x

/-- Those of the threads but `i`. -/
def coreRest (core : Fin n → Core) (i : Fin n) (x : ℕ) : ℕ :=
  ∑ j ∈ Finset.univ.erase i, (core j).items.count x

def moreAll (o : ℕ → ℕ) (l : List ℕ) : ℕ → ℕ := fun x => o x + l.count x

theorem moreAll_nil : moreAll o [] = o := by
  funext x
  simp [moreAll]

theorem moreAll_cons : moreAll o (x :: l) = more (moreAll o l) x := by
  funext y
  simp only [moreAll, more, List.count_cons, beq_iff_eq, @eq_comm _ x y, Nat.add_assoc]

theorem coreRefs_eq (core : Fin n → Core) (i : Fin n) :
    coreRefs core = moreAll (coreRest core i) (core i).items := by
  funext x
  exact (Finset.sum_erase_add _ _ (Finset.mem_univ i)).symm

theorem coreRefs_update : coreRefs (update core i c) = moreAll (coreRest core i) c.items := by
  funext x
  rw [coreRefs_eq _ i, moreAll, moreAll, update_self]
  congr 1
  refine Finset.sum_congr rfl fun j hj => ?_
  rw [update_of_ne (Finset.ne_of_mem_erase hj)]

theorem items_of_call {call : BenchCall} (hc : c.call = some call) : c.items = call.items := by
  unfold Core.items
  rw [hc]
  rfl

theorem count_items_le (c : Core) (x : ℕ) : c.items.count x ≤ 2 := by
  refine List.count_le_length.trans ?_
  unfold Core.items
  rcases c.call with _ | call
  · exact Nat.zero_le 2
  · cases call <;> simp [BenchCall.items]

theorem coreRefs_of_idle (hc : (core i).call = none) : coreRefs core = coreRest core i := by
  rw [coreRefs_eq core i, Core.items, hc]
  exact moreAll_nil

theorem count_le_coreRefs (core : Fin n → Core) (i : Fin n) (x : ℕ) :
    (core i).items.count x ≤ coreRefs core x :=
  Finset.single_le_sum (f := fun i => (core i).items.count x) (fun _ _ => Nat.zero_le _)
    (Finset.mem_univ i)

end References

section Phases

/-- It is a SET. -/
def BenchCall.Sets : BenchCall → Prop
  | look _ | copy _ _ _ | answer _ _ => False
  | _ => True

/-- It is a GET that has not looked its key up. -/
def BenchCall.Looks : BenchCall → Prop
  | look _ => True
  | _ => False

/-- A SET has not found its key. -/
def BenchCall.Missed : BenchCall → Prop
  | make _ | put _ _ | check _ _ | unrefNew _ _ => True
  | _ => False

/-- It is to add its key to the table. -/
def BenchCall.Adds : BenchCall → Prop
  | make _ | put _ _ => True
  | _ => False

/-- The item that is not in the table yet. -/
def BenchCall.owns : BenchCall → Option ℕ
  | put x _ => some x
  | _ => none

/-- A SET has written the byte at `j` of its value. -/
def BenchCall.Wrote (j : ℕ) : BenchCall → Prop
  | put _ _ | check _ _ | unrefNew _ _ | unref _ _ => True
  | store _ _ todo => j ∉ todo
  | _ => False

/-- It has added to `init_count`. -/
def CorePhase.Past : CorePhase → Prop
  | ready | run | done => True
  | _ => False

instance decidablePast : DecidablePred CorePhase.Past
  | .ready | .run | .done => .isTrue trivial
  | .start | .load _ | .loaded => .isFalse id

variable {B B' : ℕ → Body} {L L' : ℕ → Fin 5 → List ℕ} {sets sets' : List SetRecord}
  {D D' : ℕ → ℕ → Prop} {c : Core} {call : BenchCall} {x y j : ℕ} {b : Body} {key : List UInt8}
  {done done' : ℕ → Prop} {v : UInt8}

theorem BenchCall.Missed.set (h : call.Missed) : call.Sets := by
  cases call <;> first | exact h | trivial

theorem BenchCall.Wrote.set (h : call.Wrote j) : call.Sets := by
  cases call <;> first | exact h | trivial

theorem Bench.Regular.mono (h : Regular sets done key j v)
    (hd : ∀ e r, done' e → sets[e]? = some r → r.key = key → done e) :
    Regular sets done' key j v := by
  obtain ⟨e, r, he, hk, hv, hno⟩ := h
  exact ⟨e, r, he, hk, hv, fun e' r' hd' he' hk' => hno e' r' (hd e' r' hd' he' hk') he' hk'⟩

/-- Another SET begins. -/
theorem Bench.Regular.append (h : Regular sets done key j v) (hd : ∀ e, done e → e < sets.length)
    (l : List SetRecord) : Regular (sets ++ l) done key j v := by
  obtain ⟨e, r, he, hk, hv, hno⟩ := h
  have hlt := (List.getElem?_eq_some_iff.1 he).1
  refine ⟨e, r, ?_, hk, hv, fun e' r' hd' he' hk' => ?_⟩
  · rw [List.getElem?_append_left hlt]
    exact he
  · rw [List.getElem?_append_left (hd e' hd')] at he'
    exact hno e' r' hd' he' hk'

/-- An item as a SET leaves it; `D j` are the SETs that have written the byte at `j`. -/
structure Filled (jenkinsHash : List UInt8 → UInt32) (st : BenchSettings) (sets : List SetRecord)
    (D : ℕ → ℕ → Prop) (b : Body) : Prop where
  hv : b.hv = jenkinsHash b.key
  length : b.value.length = st.valuesize
  room : b.key.length + st.valuesize ≤ b.room
  bytes : ∀ {j c}, b.value[j]? = some c → Regular sets (D j) b.key j c

/-- No other SET of the key has written the byte since. -/
def Fewer (st : BenchSettings) (sets : List SetRecord) (D D' : ℕ → ℕ → Prop)
    (key : List UInt8) : Prop :=
  ∀ {j e r}, j < st.valuesize → D' j e → sets[e]? = some r → r.key = key → D j e

theorem Filled.mono (h : Filled jenkinsHash st sets D b) (hd : Fewer st sets D D' b.key) :
    Filled jenkinsHash st sets D' b := by
  refine ⟨h.hv, h.length, h.room, fun {j c} hj => (h.bytes hj).mono fun e r hD he hk => ?_⟩
  exact hd (h.length ▸ (List.getElem?_eq_some_iff.1 hj).1) hD he hk

theorem Filled.append (h : Filled jenkinsHash st sets D b) (hd : ∀ j e, D j e → e < sets.length)
    (l : List SetRecord) : Filled jenkinsHash st (sets ++ l) D b :=
  ⟨h.hv, h.length, h.room, fun hj => (h.bytes hj).append (hd _) l⟩

/-- What a thread in the call knows. -/
def CallOk (jenkinsHash : List UInt8 → UInt32) (st : BenchSettings) (B : ℕ → Body)
    (L : ℕ → Fin 5 → List ℕ) (sets : List SetRecord) (D : ℕ → ℕ → Prop) (c : Core) :
    BenchCall → Prop
  | .find _ | .look _ => True
  | .make key => ∀ y, On L y → (B y).key ≠ key
  | .put x key => ¬ On L x ∧ (B x).key = key ∧ Filled jenkinsHash st sets D (B x) ∧
      ∀ y, On L y → (B y).key ≠ key
  | .check x key | .unrefNew x key | .fields x key | .store x key _ | .unref x key =>
    On L x ∧ (B x).key = key
  | .copy x key todo => On L x ∧ (B x).key = key ∧ (∀ j ∈ todo, j < st.valuesize) ∧
      ∀ j < st.valuesize, j ∉ todo → Regular sets (· ∈ c.seen) key j (c.txBuf (Core.getAt j))
  | .answer x key => On L x ∧ (B x).key = key ∧
      ∀ j < st.valuesize, Regular sets (· ∈ c.seen) key j (c.txBuf (Core.getAt j))

theorem CallOk.key_eq (h : CallOk jenkinsHash st B L sets D c call) (hx : x ∈ call.items) :
    (B x).key = call.key := by
  cases call with
  | find | make | look => cases hx
  | put it key | copy it key todo | answer it key =>
    obtain rfl := List.mem_singleton.1 hx
    exact h.2.1
  | check it key | unref it key | fields it key | store it key todo =>
    obtain rfl := List.mem_singleton.1 hx
    exact h.2
  | unrefNew it key =>
    obtain rfl : x = it := by simpa [BenchCall.items] using hx
    exact h.2

theorem CallOk.on (h : CallOk jenkinsHash st B L sets D c call) (hx : x ∈ call.items)
    (ho : call.owns ≠ some x) : On L x := by
  cases call with
  | find | make | look => cases hx
  | put it key =>
    obtain rfl := List.mem_singleton.1 hx
    exact absurd rfl ho
  | check it key | unref it key | fields it key | store it key todo | copy it key todo
  | answer it key =>
    obtain rfl := List.mem_singleton.1 hx
    exact h.1
  | unrefNew it key =>
    obtain rfl : x = it := by simpa [BenchCall.items] using hx
    exact h.1

theorem CallOk.off (h : CallOk jenkinsHash st B L sets D c call) (ho : call.owns = some x) :
    ¬ On L x ∧ (B x).key = call.key := by
  cases call <;> cases ho
  exact ⟨h.1, h.2.1⟩

/-- What the thread knows is kept while stored items keep their keys, its own item is left alone,
and the key it is to add is not added. -/
theorem CallOk.congr (h : CallOk jenkinsHash st B L sets D c call)
    (hon : ∀ y, On L y → On L' y ∧ (B' y).key = (B y).key)
    (ho : ∀ x, call.owns = some x → ¬ On L' x ∧ B' x = B x ∧ Fewer st sets D D' call.key)
    (ha : call.Adds → ∀ y, On L' y → On L y ∨ (B' y).key ≠ call.key) :
    CallOk jenkinsHash st B' L' sets D' c call := by
  have hno : call.Adds → (∀ y, On L y → (B y).key ≠ call.key) →
      ∀ y, On L' y → (B' y).key ≠ call.key := fun hadd hno y hy => by
    rcases ha hadd y hy with hy | hy
    · rw [(hon y hy).2]
      exact hno y hy
    · exact hy
  cases call with
  | find | look => trivial
  | make key => exact hno trivial h
  | put x key =>
    obtain ⟨-, hk, hf, hn⟩ := h
    obtain ⟨hoff, hb, hd⟩ := ho x rfl
    rw [← hb] at hk hf
    exact ⟨hoff, hk, hf.mono (hk ▸ hd), hno trivial hn⟩
  | check x key | unrefNew x key | fields x key | store x key todo | unref x key =>
    obtain ⟨hx, hk⟩ := h
    exact ⟨(hon x hx).1, (hon x hx).2.trans hk⟩
  | copy x key todo | answer x key =>
    obtain ⟨hx, hk, hj⟩ := h
    exact ⟨(hon x hx).1, (hon x hx).2.trans hk, hj⟩

/-- Another SET begins. -/
theorem CallOk.append (h : CallOk jenkinsHash st B L sets D c call)
    (hd : ∀ j e, D j e → e < sets.length) (hc : ∀ e ∈ c.seen, e < sets.length)
    (l : List SetRecord) : CallOk jenkinsHash st B L (sets ++ l) D c call := by
  cases call with
  | put x key =>
    obtain ⟨hoff, hk, hf, hn⟩ := h
    exact ⟨hoff, hk, hf.append hd l, hn⟩
  | copy x key todo =>
    obtain ⟨hx, hk, hlt, hj⟩ := h
    exact ⟨hx, hk, hlt, fun j hjv hn => (hj j hjv hn).append hc l⟩
  | answer x key =>
    obtain ⟨hx, hk, hj⟩ := h
    exact ⟨hx, hk, fun j hjv => (hj j hjv).append hc l⟩
  | find | make | check | unrefNew | fields | store | unref | look => exact h

/-- Some item in the table has the key. -/
def Has (B : ℕ → Body) (L : ℕ → Fin 5 → List ℕ) (key : List UInt8) : Prop :=
  ∃ x, On L x ∧ (B x).key = key

theorem Has.mono (hon : ∀ y, On L y → On L' y ∧ (B' y).key = (B y).key) (h : Has B L key) :
    Has B' L' key := by
  obtain ⟨x, hx, hk⟩ := h
  exact ⟨x, (hon x hx).1, (hon x hx).2.trans hk⟩

end Phases

theorem mem_eraseIdx_of_ne {l : List ℕ} {a b c : ℕ} (h : c ∈ l) (ha : l[a]? = some b)
    (hne : c ≠ b) : c ∈ l.eraseIdx a := by
  obtain ⟨d, hd⟩ := List.mem_iff_getElem?.1 h
  have hda : d ≠ a := by
    rintro rfl
    rw [ha] at hd
    exact hne (Option.some.inj hd).symm
  exact List.mem_eraseIdx_iff_getElem?.2 ⟨d, hda, hd⟩

section Loading

variable {H H' : List UInt8 → Prop} {p p' : BenchmarkPhase} {c c' : Core} {call call' : BenchCall}
  {i : Fin st.threads} {k : ℕ} {key : List UInt8}

/-- The calls of thread `i` in the phase. -/
def CorePhase.May (st : BenchSettings) (i : ℕ) : CorePhase → BenchCall → Prop
  | load _, call => (∃ j, st.keys[j]? = some call.key ∧ j % st.threads = i) ∧ ¬ call.Looks
  | run, call => call.key ∈ st.keys ∧ ¬ call.Missed
  | _, _ => False

/-- The keys before it have been begun. -/
def CorePhase.upTo (st : BenchSettings) : CorePhase → ℕ
  | start => 0
  | load k => k
  | _ => st.keys.length

def Core.Loads (c : Core) (key : List UInt8) : Prop :=
  (∃ k, c.phase = .load k) ∧ ∃ call, c.call = some call ∧ call.key = key

structure CoreOk (st : BenchSettings) (i : Fin st.threads) (p : BenchmarkPhase)
    (H : List UInt8 → Prop) (c : Core) : Prop where
  may : ∀ {call}, c.call = some call → c.phase.May st i call
  turn : ∀ {k}, c.phase = .load k → k % st.threads = i
  stored : ∀ {j key}, st.keys[j]? = some key → j % st.threads = i → j < c.phase.upTo st →
    H key ∨ c.Loads key
  after : c.phase = .run ∨ c.phase = .done → BenchmarkPhase.running.val ≤ p.val

theorem CorePhase.May.load_or_run {q : CorePhase} {a : ℕ} (h : q.May st a call) :
    (∃ k, q = .load k) ∨ q = .run := by
  cases q with
  | load k => exact .inl ⟨k, rfl⟩
  | run => exact .inr rfl
  | start | loaded | ready | done => exact h.elim

theorem CorePhase.May.follow {q : CorePhase} {a : ℕ} (h : q.May st a call)
    (hk : call'.key = call.key) (hl : ¬ call'.Looks)
    (hm : q = .run → call'.Missed → call.Missed) : q.May st a call' := by
  cases q with
  | load k => exact ⟨by rw [hk]; exact h.1, hl⟩
  | run => exact ⟨by rw [hk]; exact h.1, fun hc => h.2 (hm rfl hc)⟩
  | start | loaded | ready | done => exact h.elim

theorem CoreOk.mono (h : CoreOk st i p H c) (hp : p.val ≤ p'.val) (hH : ∀ key, H key → H' key) :
    CoreOk st i p' H' c :=
  ⟨h.may, h.turn, fun hj hi hlt => (h.stored hj hi hlt).imp_left (hH _),
    fun hc => (h.after hc).trans hp⟩

/-- A step inside of a call. -/
theorem CoreOk.follow (h : CoreOk st i p H c) (hp : c'.phase = c.phase) (hc : c.call = some call)
    (hc' : c'.call = some call') (hk : call'.key = call.key) (hl : ¬ call'.Looks)
    (hm : c.phase = .run → call'.Missed → call.Missed) : CoreOk st i p H c' where
  may hcall := by
    rw [hc'] at hcall
    cases hcall
    rw [hp]
    exact (h.may hc).follow hk hl hm
  turn hload := h.turn (hp ▸ hload)
  stored hj hi hlt := by
    rw [hp] at hlt
    refine (h.stored hj hi hlt).imp_right fun ⟨⟨k, hload⟩, call₀, hc₀, hk₀⟩ => ?_
    rw [hc] at hc₀
    cases hc₀
    exact ⟨⟨k, hp.trans hload⟩, call', hc', hk.trans hk₀⟩
  after := by
    rw [hp]
    exact h.after

/-- The end of a call. -/
theorem CoreOk.finish (h : CoreOk st i p H c) (hc : c.call = some call)
    (hH : H call.key ∨ c.phase = .run) : CoreOk st i p H { c with call := none } where
  may hcall := nomatch hcall
  turn := h.turn
  stored hj hi hlt := by
    rcases h.stored hj hi hlt with hs | ⟨⟨k, hload⟩, call₀, hc₀, hk₀⟩
    · exact .inl hs
    · rw [hc] at hc₀
      cases hc₀
      refine .inl (hk₀ ▸ hH.resolve_right fun hrun => ?_)
      rw [hload] at hrun
      cases hrun
  after := h.after

/-- The next key is loaded. -/
theorem CoreOk.next {m : ℕ} (h : CoreOk st i p H c) (hp : c.phase = .load k) (hc : c.call = none)
    (hk : st.keys[k]? = some key) :
    CoreOk st i p H { c with
      phase := .load (k + st.threads), call := some (.find key), turn := m } where
  may hcall := by
    cases hcall
    exact ⟨⟨k, hk, h.turn hp⟩, id⟩
  turn hload := by
    cases hload
    rw [Nat.add_mod_right]
    exact h.turn hp
  stored {j key'} hj hi hlt := by
    rcases lt_trichotomy j k with hjk | rfl | hjk
    · have hold := h.stored hj hi (by rw [hp]; exact hjk)
      refine hold.imp_right fun ⟨_, call, hcall, _⟩ => ?_
      rw [hc] at hcall
      cases hcall
    · rw [hk] at hj
      cases hj
      exact .inr ⟨⟨_, rfl⟩, _, rfl, rfl⟩
    · have hlt' : j < k + st.threads := hlt
      have hmod := h.turn hp
      have hdiv : j - k = 0 ∨ st.threads ≤ j - k :=
        Nat.eq_zero_or_pos (j - k) |>.imp_right fun hpos => Nat.le_of_dvd hpos
          ((Nat.modEq_iff_dvd' hjk.le).1 (hmod.trans hi.symm))
      omega
  after hrun := by
    rcases hrun with hrun | hrun <;> cases hrun

/-- Between two requests a thread goes from one phase to the next. -/
theorem CoreOk.advance (h : CoreOk st i p H c) (hc : c.call = none) {q : CorePhase}
    (hq : st.keys.length ≤ c.phase.upTo st) (hl : q.Past ∨ q = .loaded)
    (ha : q = .run ∨ q = .done → BenchmarkPhase.running.val ≤ p.val) :
    CoreOk st i p H { c with phase := q } where
  may hcall := by
    rw [show ({ c with phase := q } : Core).call = c.call from rfl, hc] at hcall
    cases hcall
  turn hload := by
    rcases hl with hl | rfl
    · rw [show q = _ from hload] at hl
      exact hl.elim
    · cases hload
  stored {j key} hj hi _ := by
    have hlt := (List.getElem?_eq_some_iff.1 hj).1
    refine (h.stored hj hi (hlt.trans_le hq)).imp_right fun ⟨_, call, hcall, _⟩ => ?_
    rw [hc] at hcall
    cases hcall
  after := ha

/-- The first key of a thread. -/
theorem CoreOk.begin (hc : c.call = none) :
    CoreOk st i p H { c with phase := .load i } where
  may hcall := by
    rw [show ({ c with phase := .load i } : Core).call = c.call from rfl, hc] at hcall
    cases hcall
  turn hload := by
    cases hload
    exact Nat.mod_eq_of_lt i.2
  stored {j key} _ hi hlt := by
    have hji : j < (i : ℕ) := hlt
    rw [Nat.mod_eq_of_lt (hji.trans i.2)] at hi
    omega
  after hrun := by
    rcases hrun with hrun | hrun <;> cases hrun

end Loading

section History

variable {n : ℕ} {core : Fin n → Core} {sets : List SetRecord} {ended : List ℕ} {i : Fin n}
  {c' : Core} {call : BenchCall} {key : List UInt8} {j e : ℕ}

/-- The records fit what the threads do. -/
structure History (st : BenchSettings) (sets : List SetRecord) (ended : List ℕ)
    (core : Fin n → Core) : Prop where
  begun : ∀ {i call}, (core i).call = some call → call.Sets → (core i).turn ∉ ended ∧
    ∃ r, sets[(core i).turn]? = some r ∧ r.key = call.key ∧ r.value = (core i).setValue st call.key
  turns : ∀ {i j call call'}, (core i).call = some call → (core j).call = some call' → call.Sets →
    call'.Sets → (core i).turn = (core j).turn → i = j
  ended_lt : ∀ e ∈ ended, e < sets.length
  seen : ∀ r ∈ sets, ∀ e ∈ r.seen, e ∈ ended
  gets : ∀ i, ∀ e ∈ (core i).seen, e ∈ ended

/-- The SETs that have written the byte at `j`. -/
def WroteBy (ended : List ℕ) (core : Fin n → Core) (j e : ℕ) : Prop :=
  e ∈ ended ∨ ∃ i call, (core i).call = some call ∧ call.Wrote j ∧ (core i).turn = e

theorem wroteBy_update (h : WroteBy ended (update core i c') j e) : WroteBy ended core j e ∨
    e = c'.turn ∧ ∃ call, c'.call = some call ∧ call.Wrote j := by
  rcases h with he | ⟨a, call, hc, hw, rfl⟩
  · exact .inl (.inl he)
  · rcases eq_or_ne a i with rfl | hai
    · rw [update_self] at hc ⊢
      exact .inr ⟨rfl, call, hc, hw⟩
    · rw [update_of_ne hai] at hc ⊢
      exact .inl (.inr ⟨a, call, hc, hw, rfl⟩)

namespace History

variable (h : History st sets ended core)
include h

theorem wrote_lt (hw : WroteBy ended core j e) : e < sets.length := by
  rcases hw with he | ⟨i, call, hc, hw, rfl⟩
  · exact h.ended_lt e he
  · obtain ⟨-, r, hr, -⟩ := h.begun hc hw.set
    exact (List.getElem?_eq_some_iff.1 hr).1

/-- No SET that has begun saw the end of one that has not ended. -/
theorem not_seen {r : SetRecord} {e' : ℕ} (he : e ∉ ended) (hr : sets[e']? = some r) :
    e ∉ r.seen := fun hs => he (h.seen r (List.mem_of_getElem? hr) e hs)

/-- A step of a thread in which no SET begins or ends. -/
theorem follow (hc : ∀ {call'}, c'.call = some call' → call'.Sets →
      ∃ call, (core i).call = some call ∧ call.Sets ∧ call'.key = call.key ∧
        c'.txBuf = (core i).txBuf)
    (ht : c'.turn = (core i).turn) (hs : ∀ e ∈ c'.seen, e ∈ ended) :
    History st sets ended (update core i c') := by
  have hback : ∀ {a call'}, (update core i c' a).call = some call' → call'.Sets →
      ∃ call, (core a).call = some call ∧ call.Sets ∧ call'.key = call.key ∧
        (update core i c' a).txBuf = (core a).txBuf ∧
          (update core i c' a).turn = (core a).turn := fun {a call'} hc' hsets => by
    rcases eq_or_ne a i with rfl | hai
    · rw [update_self] at hc' ⊢
      obtain ⟨call, h1, h2, h3, h4⟩ := hc hc' hsets
      exact ⟨call, h1, h2, h3, h4, ht⟩
    · rw [update_of_ne hai] at hc' ⊢
      exact ⟨call', hc', hsets, rfl, rfl, rfl⟩
  refine ⟨fun {a call'} hc' hsets => ?_, fun {a b call' call''} hca hcb hsa hsb he => ?_,
    h.ended_lt, h.seen, fun a => ?_⟩
  · obtain ⟨call, hc₀, hs₀, hk, hbuf, hturn⟩ := hback hc' hsets
    rw [hturn, hk, Core.setValue, hbuf]
    exact h.begun hc₀ hs₀
  · obtain ⟨_, hca₀, hsa₀, -, -, hta⟩ := hback hca hsa
    obtain ⟨_, hcb₀, hsb₀, -, -, htb⟩ := hback hcb hsb
    exact h.turns hca₀ hcb₀ hsa₀ hsb₀ (hta.symm.trans (he.trans htb))
  · rcases eq_or_ne a i with rfl | hai
    · rw [update_self]
      exact hs
    · rw [update_of_ne hai]
      exact h.gets a

/-- A step inside of a SET. -/
theorem within {call' : BenchCall} (hc : (core i).call = some call) (hs : call.Sets)
    (hk : call'.key = call.key) :
    History st sets ended (update core i { core i with call := some call' }) := by
  refine h.follow (fun {call₀} hc' _ => ?_) rfl (h.gets i)
  cases hc'
  exact ⟨call, hc, hs, hk, rfl⟩

theorem endSet (hc : (core i).call = some call) (hsets : call.Sets) (hc' : c'.call = none)
    (hs : c'.seen = (core i).seen) :
    History st sets (ended ++ [(core i).turn]) (update core i c') := by
  have hback : ∀ {a call'}, (update core i c' a).call = some call' → a ≠ i ∧
      update core i c' a = core a := fun {a call'} hca => by
    rcases eq_or_ne a i with rfl | hai
    · rw [update_self, hc'] at hca
      cases hca
    · exact ⟨hai, update_of_ne hai ..⟩
  refine ⟨fun {a call'} hca hsa => ?_, fun {a b call' call''} hca hcb hsa hsb he => ?_,
    fun e he => ?_, fun r hr e he => List.mem_append_left _ (h.seen r hr e he), fun a e he => ?_⟩
  · obtain ⟨hai, ha⟩ := hback hca
    rw [ha] at hca ⊢
    obtain ⟨hno, hr⟩ := h.begun hca hsa
    refine ⟨fun hm => ?_, hr⟩
    rcases List.mem_append.1 hm with hm | hm
    · exact hno hm
    · exact hai (h.turns hca hc hsa hsets (List.mem_singleton.1 hm))
  · obtain ⟨-, ha⟩ := hback hca
    obtain ⟨-, hb⟩ := hback hcb
    rw [ha] at hca he
    rw [hb] at hcb he
    exact h.turns hca hcb hsa hsb he
  · rcases List.mem_append.1 he with he | he
    · exact h.ended_lt e he
    · obtain ⟨-, r, hr, -⟩ := h.begun hc hsets
      rw [List.mem_singleton.1 he]
      exact (List.getElem?_eq_some_iff.1 hr).1
  · refine List.mem_append_left _ ?_
    rcases eq_or_ne a i with rfl | hai
    · rw [update_self, hs] at he
      exact h.gets a e he
    · rw [update_of_ne hai] at he
      exact h.gets a e he

theorem beginSet (hc' : c'.call = some (.find key)) (ht : c'.turn = sets.length)
    (hbuf : c'.txBuf = (core i).txBuf) (hs : c'.seen = (core i).seen) :
    History st (sets ++ [⟨key, (core i).setValue st key, ended⟩]) ended (update core i c') := by
  have hold : ∀ {a call'}, a ≠ i → (core a).call = some call' → call'.Sets →
      (core a).turn < sets.length := fun _ hca hsa => by
    obtain ⟨-, r, hr, -⟩ := h.begun hca hsa
    exact (List.getElem?_eq_some_iff.1 hr).1
  refine ⟨fun {a call'} hca hsa => ?_, fun {a b call' call''} hca hcb hsa hsb he => ?_,
    fun e he => ?_, fun r hr e he => ?_, fun a e he => ?_⟩
  · rcases eq_or_ne a i with rfl | hai
    · rw [update_self] at hca ⊢
      rw [hc'] at hca
      cases hca
      rw [ht]
      refine ⟨fun hm => lt_irrefl _ (h.ended_lt _ hm), _, List.getElem?_concat_length, rfl, ?_⟩
      simp only [Core.setValue, hbuf]
      rfl
    · rw [update_of_ne hai] at hca ⊢
      rw [List.getElem?_append_left (hold hai hca hsa)]
      exact h.begun hca hsa
  · rcases eq_or_ne a i with rfl | hai <;> rcases eq_or_ne b a with rfl | hba
    · rfl
    · rw [update_self, update_of_ne hba, ht] at he
      rw [update_of_ne hba] at hcb
      exact absurd he.symm (hold hba hcb hsb).ne
    · rfl
    · rcases eq_or_ne b i with rfl | hbi
      · rw [update_self, update_of_ne hai, ht] at he
        rw [update_of_ne hai] at hca
        exact absurd he (hold hai hca hsa).ne
      · rw [update_of_ne hai] at hca he
        rw [update_of_ne hbi] at hcb he
        exact h.turns hca hcb hsa hsb he
  · rw [List.length_append]
    exact Nat.lt_add_right _ (h.ended_lt e he)
  · rcases List.mem_append.1 hr with hr | hr
    · exact h.seen r hr e he
    · rw [List.mem_singleton.1 hr] at he
      exact he
  · rcases eq_or_ne a i with rfl | hai
    · rw [update_self, hs] at he
      exact h.gets a e he
    · rw [update_of_ne hai] at he
      exact h.gets a e he

end History

end History

end FlexKvs

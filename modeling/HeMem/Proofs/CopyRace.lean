import HeMem.CopyRace
import Mathlib.Algebra.Order.Ring.Nat
import Mathlib.Algebra.Group.Nat.Even
import Mathlib.Data.Fintype.Option
import Mathlib.Tactic.Ring

/-!
# Copying with several threads is atomic

Rounds of the barrier alternate: in an even one the copy threads wait for a call, in an odd one
they copy.  A participant is tied to the round by the number of its turns (`Barrier.turns`), even
outside a copy and odd inside.
-/

namespace HeMem

open Function

variable {T : Type} {n : ℕ} {s s' : CopyRace T n} {c : CopyCall} {t : T} {w : Fin n}

section Phases

/-- In `pthread_barrier_wait`. -/
def CopyPhase.waits : CopyPhase → Bool
  | waiting | leaving => true
  | _ => false

/-- Before the first barrier or after the second. -/
def CopyPhase.outside : CopyPhase → Bool
  | wait | leaving => true
  | _ => false

def CallerPhase.waits : CallerPhase → Bool
  | starting _ | finishing _ => true
  | _ => false

def CallerPhase.outside : CallerPhase → Bool
  | starting _ | finish _ => false
  | _ => true

/-- With the lock. -/
def CallerPhase.holds : CallerPhase → Bool
  | idle | lock _ => false
  | _ => true

/-- What the caller has written to `pmemcpy` so far. -/
def CallerPhase.Wrote (m : Pmemcpy) : CallerPhase → Prop
  | idle | lock _ | setDst _ => True
  | setSrc c => m.dst = c.dst
  | setLength c => m.dst = c.dst ∧ c.src.getD m.src = m.src
  | setZeros c => m.dst = c.dst ∧ c.src.getD m.src = m.src ∧ m.length = c.length
  | start c | starting c | finish c | finishing c | unlock c =>
    m.dst = c.dst ∧ c.src.getD m.src = m.src ∧ m.length = c.length ∧ m.writeZeros = c.src.isNone

/-- The call that has been copied and has not returned yet. -/
def CallerPhase.copied : CallerPhase → Option CopyCall
  | finishing c | unlock c => some c
  | _ => none

/-- How much of its part a copy thread has written. -/
def CopyPhase.progress (chunk : ℕ) : CopyPhase → ℕ
  | copy _ _ _ i => i
  | done | leaving => chunk
  | _ => 0

/-- What a copy thread has read from `pmemcpy`. -/
def CopyPhase.Read (n : ℕ) (c : CopyCall) (w : ℕ) : CopyPhase → Prop
  | readDst chunk => chunk = c.chunkSize n
  | readZeros chunk dst => chunk = c.chunkSize n ∧ dst = c.dst + w * chunk
  | readSrc chunk dst => chunk = c.chunkSize n ∧ dst = c.dst + w * chunk ∧ c.src.isSome
  | copy chunk dst src i => chunk = c.chunkSize n ∧ dst = c.dst + w * chunk ∧
      src = c.src.map (· + w * chunk) ∧ i ≤ chunk
  | _ => True

end Phases

/-- The copy threads have begun on a call, and each has written its part as far as it has come. -/
structure Copying (n : ℕ) (c : CopyCall) (worker : Fin n → CopyPhase) (mem expected : ℕ → UInt8) :
    Prop where
  read : ∀ w, (worker w).Read n c w
  part : ∀ (w : Fin n) i, i < c.chunkSize n → mem (c.dst + (w * c.chunkSize n + i)) =
    if i < (worker w).progress (c.chunkSize n) then c.byte expected (w * c.chunkSize n + i)
    else expected (c.dst + (w * c.chunkSize n + i))
  rest : ∀ a, ¬ (c.dst ≤ a ∧ a < c.dst + n * c.chunkSize n) → mem a = expected a

section Memory

variable {worker : Fin n → CopyPhase} {mem expected : ℕ → UInt8} {p : CopyPhase}

theorem parts_apart {chunk i j : ℕ} {v w : Fin n} (hi : i < chunk) (hj : j < chunk)
    (h : (v : ℕ) * chunk + i = w * chunk + j) : v = w ∧ i = j := by
  have hv : ((v : ℕ) * chunk + i) / chunk = v := by
    rw [Nat.mul_comm, Nat.mul_add_div (by omega), Nat.div_eq_of_lt hi, Nat.add_zero]
  have hw : ((w : ℕ) * chunk + j) / chunk = w := by
    rw [Nat.mul_comm, Nat.mul_add_div (by omega), Nat.div_eq_of_lt hj, Nat.add_zero]
  have he : (v : ℕ) = w := by rw [← hv, h, hw]
  refine ⟨Fin.ext he, ?_⟩
  rw [he] at h
  omega

theorem part_lt {chunk i : ℕ} {w : Fin n} (hi : i < chunk) : (w : ℕ) * chunk + i < n * chunk := by
  calc (w : ℕ) * chunk + i < w * chunk + chunk := by omega
    _ = (w + 1) * chunk := by ring
    _ ≤ n * chunk := Nat.mul_le_mul_right _ w.isLt

theorem parts_le : n * c.chunkSize n ≤ c.length := Nat.mul_div_le ..

/-- Nothing has been written yet. -/
theorem Copying.begin (hread : ∀ w, (worker w).Read n c w)
    (hp : ∀ w, (worker w).progress (c.chunkSize n) = 0) : Copying n c worker mem mem :=
  ⟨hread, fun w i _ => by simp [hp w], fun _ _ => rfl⟩

/-- A copy thread goes on without a write. -/
theorem Copying.goes (h : Copying n c worker mem expected) (hread : p.Read n c w)
    (hp : p.progress (c.chunkSize n) = (worker w).progress (c.chunkSize n)) :
    Copying n c (update worker w p) mem expected := by
  refine ⟨fun v => ?_, fun v i hi => ?_, h.rest⟩
  · rcases eq_or_ne v w with rfl | hv
    · simpa using hread
    · simpa [hv] using h.read v
  · rw [h.part v i hi]
    rcases eq_or_ne v w with rfl | hv
    · rw [update_self, hp]
    · rw [update_of_ne hv]

/-- All parts have been written. -/
theorem Copying.finish (h : Copying n c worker mem expected)
    (hp : ∀ w, (worker w).progress (c.chunkSize n) = c.chunkSize n) :
    mem = c.applied n expected := by
  funext a
  unfold CopyCall.applied
  split
  · rename_i ha
    have hpos : 0 < c.chunkSize n := by
      by_contra h0
      have h0 : c.chunkSize n = 0 := by omega
      rw [h0] at ha
      omega
    obtain ⟨d, rfl⟩ := Nat.exists_eq_add_of_le ha.1
    have hd : d < n * c.chunkSize n := by omega
    have hw : d / c.chunkSize n < n := Nat.div_lt_of_lt_mul (by rwa [Nat.mul_comm])
    have hi : d % c.chunkSize n < c.chunkSize n := Nat.mod_lt _ hpos
    have hpart := h.part ⟨d / c.chunkSize n, hw⟩ (d % c.chunkSize n) hi
    rw [hp, if_pos hi] at hpart
    rw [Nat.add_sub_cancel_left]
    dsimp only at hpart
    rwa [Nat.div_add_mod'] at hpart
  · exact h.rest a ‹_›

/-- The source is outside the destination. -/
theorem Copying.source (h : Copying n c worker mem expected) (hc : c.Apart) {i : ℕ}
    (hi : i < n * c.chunkSize n) : c.byte mem i = c.byte expected i := by
  unfold CopyCall.byte
  cases hs : c.src with
  | none => rfl
  | some src =>
    refine h.rest _ ?_
    have hle := parts_le (c := c) (n := n)
    rcases hc src hs with hb | hb <;> omega

/-- A copy thread writes the next byte of its part. -/
theorem Copying.copy (h : Copying n c worker mem expected) (hc : c.Apart) {chunk dst i : ℕ}
    {src : Option ℕ} (hw : worker w = .copy chunk dst src i) (hi : i < chunk) :
    Copying n c (update worker w (.copy chunk dst src (i + 1)))
      (update mem (dst + i) (src.elim 0 fun src => mem (src + i))) expected := by
  have hread := h.read w
  rw [hw] at hread
  obtain ⟨rfl, rfl, rfl, -⟩ := hread
  have hbyte : ((c.src.map (· + w * c.chunkSize n)).elim 0 fun src => mem (src + i)) =
      c.byte expected (w * c.chunkSize n + i) := by
    rw [← h.source hc (part_lt hi)]
    unfold CopyCall.byte
    cases c.src with
    | none => rfl
    | some src => simp [Nat.add_assoc]
  rw [hbyte, Nat.add_assoc]
  refine ⟨fun v => ?_, fun v j hj => ?_, fun a ha => ?_⟩
  · rcases eq_or_ne v w with rfl | hv
    · rw [update_self]
      exact ⟨rfl, rfl, rfl, hi⟩
    · rw [update_of_ne hv]
      exact h.read v
  · by_cases he : v = w ∧ j = i
    · obtain ⟨rfl, rfl⟩ := he
      simp [CopyPhase.progress]
    · have hne : c.dst + ((v : ℕ) * c.chunkSize n + j) ≠ c.dst + (w * c.chunkSize n + i) := by
        intro heq
        exact he (parts_apart hj hi (by omega))
      rw [update_of_ne hne, h.part v j hj]
      rcases eq_or_ne v w with rfl | hv
      · have hji : j ≠ i := fun hji => he ⟨rfl, hji⟩
        have hlt : j < i + 1 ↔ j < i := by omega
        simp [hw, CopyPhase.progress, hlt]
      · rw [update_of_ne hv]
  · have hne : a ≠ c.dst + (w * c.chunkSize n + i) := by
      have hlt := part_lt (n := n) (w := w) hi
      omega
    rw [update_of_ne hne, h.rest a ha]

/-- A byte elsewhere is written. -/
theorem Copying.write (h : Copying n c worker mem expected) {a : ℕ} {b : UInt8} (ha : ¬ c.Uses a) :
    Copying n c worker (update mem a b) (update expected a b) := by
  have hle := parts_le (c := c) (n := n)
  simp only [CopyCall.Uses, not_or, not_exists] at ha
  have hbyte : ∀ i < n * c.chunkSize n, c.byte (update expected a b) i = c.byte expected i := by
    intro i hi
    unfold CopyCall.byte
    cases hs : c.src with
    | none => rfl
    | some src =>
      have hsrc := ha.2 src
      simp only [hs, true_and] at hsrc
      exact update_of_ne (by omega) ..
  refine ⟨h.read, fun w i hi => ?_, fun x hx => ?_⟩
  · have hlt := part_lt (n := n) (w := w) hi
    have hne : c.dst + ((w : ℕ) * c.chunkSize n + i) ≠ a := by omega
    rw [update_of_ne hne, update_of_ne hne, hbyte _ hlt, h.part w i hi]
  · rcases eq_or_ne x a with rfl | hxa
    · simp
    · rw [update_of_ne hxa, update_of_ne hxa, h.rest x hx]

end Memory

section Tied

variable {ι : Type*} [DecidableEq ι] [Fintype ι] {b b' : Barrier ι} {p q : ι} {waits outside : Bool}

/-- Whether a participant waits at the barrier, and whether it has come an even number of times. -/
structure Tied (b : Barrier ι) (p : ι) (waits outside : Bool) : Prop where
  waits : (b.waits p).isSome = waits
  turns : Even (b.turns p) ↔ outside = true

omit [DecidableEq ι] [Fintype ι] in
theorem Tied.none (h : Tied b p false outside) : b.waits p = none := by
  simpa using h.waits

omit [DecidableEq ι] [Fintype ι] in
/-- Who does not wait has come as often as there have been rounds. -/
theorem Tied.round (h : Tied b p false outside) : Even b.round ↔ outside = true := by
  rw [← Barrier.turns_of_none h.none]
  exact h.turns

theorem Tied.arrive (h : Tied b p false outside) (hb : b.Wf) :
    Tied (b.arrive p (Fintype.card ι)) p true (!outside) := by
  refine ⟨by simp [Barrier.waits_arrive], ?_⟩
  rw [hb.turns_arrive h.none, if_pos rfl, Nat.even_add_one, h.turns]
  cases outside <;> simp

theorem Tied.arrive_ne (h : Tied b q waits outside) (hb : b.Wf) (hp : b.waits p = .none)
    (hq : q ≠ p) : Tied (b.arrive p (Fintype.card ι)) q waits outside := by
  refine ⟨?_, ?_⟩
  · rw [Barrier.waits_arrive, update_of_ne hq]
    exact h.waits
  · rw [hb.turns_arrive hp, if_neg hq]
    exact h.turns

/-- Who leaves has been let go by the round before this one. -/
theorem Tied.leave (h : Tied b p true outside) (hb : b.Wf) (hl : b.leave p = some b') :
    Tied b' p false outside ∧ (Even b.round ↔ outside = true) := by
  have ht := hb.turns_leave (q := p) hl
  obtain ⟨-, rfl⟩ := Barrier.leave_eq_some hl
  have hp : Tied { b with waits := update b.waits p .none } p false outside := by
    refine ⟨by simp, ?_⟩
    rw [ht]
    exact h.turns
  exact ⟨hp, hp.round⟩

theorem Tied.leave_ne (h : Tied b q waits outside) (hb : b.Wf) (hl : b.leave p = some b')
    (hq : q ≠ p) : Tied b' q waits outside := by
  have ht := hb.turns_leave (q := q) hl
  obtain ⟨-, rfl⟩ := Barrier.leave_eq_some hl
  refine ⟨?_, ?_⟩
  · dsimp only
    rw [update_of_ne hq]
    exact h.waits
  · rw [ht]
    exact h.turns

omit [DecidableEq ι] [Fintype ι] in
/-- Who waits in this round has come once more than there have been rounds. -/
theorem Tied.of_waits (h : Tied b p waits outside) (hw : b.waits p = some b.round) :
    waits = true ∧ (Even b.round ↔ outside = false) := by
  refine ⟨by rw [← h.waits, hw]; rfl, ?_⟩
  have ht := h.turns
  rw [Barrier.turns_of_some hw, Nat.even_add_one] at ht
  cases outside <;> simp_all

end Tied

namespace CopyRace

/-- Where the thread that holds the lock stands. -/
def holder (s : CopyRace T n) : CallerPhase := s.lock.elim .idle s.caller

structure Inv (s : CopyRace T n) : Prop where
  barrier : s.barrier.Wf
  workers : ∀ w, Tied s.barrier (some w) (s.worker w).waits (s.worker w).outside
  slot : Tied s.barrier none s.holder.waits s.holder.outside
  holds : ∀ t, (s.caller t).holds = true ↔ s.lock = some t
  apart : ∀ t c, (s.caller t).call = some c → c.Apart
  wrote : s.holder.Wrote s.pmemcpy
  even : Even s.barrier.round →
    s.mem = s.holder.copied.elim s.expected (·.applied n s.expected)
  odd : ¬ Even s.barrier.round → ∀ c, s.current = some c → Copying n c s.worker s.mem s.expected

theorem current_eq (s : CopyRace T n) : s.current = s.holder.call := by
  unfold current holder
  cases s.lock <;> rfl

theorem Inv.apart_current (h : s.Inv) (hc : s.current = some c) : c.Apart := by
  unfold current at hc
  obtain ⟨t, -, ht⟩ := Option.bind_eq_some_iff.1 hc
  exact h.apart t c ht

/-- In an odd round a call is between its barriers. -/
theorem Inv.active (h : s.Inv) (hodd : ¬ Even s.barrier.round) :
    ∃ c, s.holder = .starting c ∨ s.holder = .finish c ∨ s.holder = .finishing c := by
  have hslot := h.slot
  cases hh : s.holder with
  | starting c => exact ⟨c, .inl rfl⟩
  | finish c => exact ⟨c, .inr (.inl rfl)⟩
  | finishing c => exact ⟨c, .inr (.inr rfl)⟩
  | _ =>
    rw [hh] at hslot
    exact (hodd (hslot.round.2 rfl)).elim

/-- What the copy threads then read. -/
theorem Inv.args (h : s.Inv) (hodd : ¬ Even s.barrier.round) : ∃ c, s.current = some c ∧
    Copying n c s.worker s.mem s.expected ∧ s.pmemcpy.dst = c.dst ∧
    c.src.getD s.pmemcpy.src = s.pmemcpy.src ∧ s.pmemcpy.length = c.length ∧
    s.pmemcpy.writeZeros = c.src.isNone := by
  obtain ⟨c, hc⟩ := h.active hodd
  have hwrote := h.wrote
  have hcur : s.current = some c := by
    rw [current_eq]
    rcases hc with hc | hc | hc <;> rw [hc] <;> rfl
  refine ⟨c, hcur, h.odd hodd c hcur, ?_⟩
  rcases hc with hc | hc | hc <;> rw [hc] at hwrote <;> exact hwrote

section Worker

/-- A copy thread goes on between barriers. -/
theorem Inv.work (h : s.Inv) {p : CopyPhase} {mem : ℕ → UInt8}
    (hw : (s.worker w).waits = false ∧ (s.worker w).outside = false)
    (hp : p.waits = false ∧ p.outside = false)
    (hcopy : ∀ c, s.current = some c → Copying n c s.worker s.mem s.expected → c.Apart →
      s.pmemcpy.dst = c.dst → c.src.getD s.pmemcpy.src = s.pmemcpy.src →
      s.pmemcpy.length = c.length → s.pmemcpy.writeZeros = c.src.isNone →
        Copying n c (update s.worker w p) mem s.expected) :
    ({ s with mem := mem }.setWorker w p).Inv := by
  have htied := h.workers w
  rw [hw.1, hw.2] at htied
  have hodd : ¬ Even s.barrier.round := by simp [htied.round]
  obtain ⟨c, hcur, hcopying, hdst, hsrc, hlen, hzero⟩ := h.args hodd
  refine ⟨h.barrier, fun v => ?_, h.slot, h.holds, h.apart, h.wrote, fun heven => ?_,
    fun _ c' hc' => ?_⟩
  · rcases eq_or_ne v w with rfl | hv
    · simpa [setWorker, hp.1, hp.2] using htied
    · simpa [setWorker, hv] using h.workers v
  · exact (hodd heven).elim
  · cases hcur.symm.trans hc'
    exact hcopy c hcur hcopying (h.apart_current hcur) hdst hsrc hlen hzero

theorem workers_arrive (h : s.Inv) {p : CopyPhase} (hw : (s.worker w).waits = false)
    (hp : p.waits = true ∧ p.outside = !(s.worker w).outside) (v : Fin n) :
    Tied (s.barrier.arrive (some w) (n + 1)) (some v) (update s.worker w p v).waits
      (update s.worker w p v).outside := by
  have hcard : Fintype.card (Option (Fin n)) = n + 1 := by simp
  have htied := h.workers w
  rw [hw] at htied
  rw [← hcard]
  rcases eq_or_ne v w with rfl | hv
  · rw [update_self, hp.1, hp.2]
    exact htied.arrive h.barrier
  · rw [update_of_ne hv]
    exact (h.workers v).arrive_ne h.barrier htied.none (by simpa using hv)

theorem eq_waiting {p : CopyPhase} (hw : p.waits = true) (ho : p.outside = false) :
    p = .waiting := by
  cases p <;> simp_all [CopyPhase.waits, CopyPhase.outside]

theorem eq_leaving {p : CopyPhase} (hw : p.waits = true) (ho : p.outside = true) :
    p = .leaving := by
  cases p <;> simp_all [CopyPhase.waits, CopyPhase.outside]

/-- All copy threads have come to the first barrier. -/
theorem Inv.begins (h : s.Inv) {worker : Fin n → CopyPhase} (heven : Even s.barrier.round)
    (hc : s.holder.copied = none) (hw : ∀ v, worker v = .waiting) :
    Copying n c worker s.mem s.expected := by
  have hmem := h.even heven
  rw [hc] at hmem
  rw [← show s.mem = s.expected from hmem]
  exact Copying.begin (fun v => by simp [hw v, CopyPhase.Read])
    (fun v => by simp [hw v, CopyPhase.progress])

/-- All copy threads have come to the second. -/
theorem copied_of_leaving {worker : Fin n → CopyPhase} (h : Copying n c worker s.mem s.expected)
    (hw : ∀ v, worker v = .leaving) : s.mem = c.applied n s.expected :=
  h.finish fun v => by simp [hw v, CopyPhase.progress]

theorem Inv.enterFirst (h : s.Inv) (hw : s.worker w = .wait) :
    ((s.enters (some w)).setWorker w .waiting).Inv := by
  have hcard : Fintype.card (Option (Fin n)) = n + 1 := by simp
  have htied := h.workers w
  rw [hw] at htied
  have heven : Even s.barrier.round := htied.round.2 rfl
  have hwork := workers_arrive h (p := .waiting) (by rw [hw]; rfl) ⟨rfl, by rw [hw]; rfl⟩
  have hslot : Tied (s.barrier.arrive (some w) (n + 1)) none s.holder.waits s.holder.outside :=
    hcard ▸ h.slot.arrive_ne h.barrier htied.none (by simp)
  obtain ⟨hwf, hround⟩ := h.barrier.arrive_cases htied.none
  rw [hcard] at hwf hround
  refine ⟨hwf, hwork, hslot, h.holds, h.apart, h.wrote, fun hr' => ?_, fun hr' c hc => ?_⟩
  · rcases hround with hr | ⟨hr, -⟩
    · exact h.even heven
    · rw [setWorker, enters, hr, Nat.even_add_one] at hr'
      exact (hr' heven).elim
  · rcases hround with hr | ⟨-, hall⟩
    · rw [setWorker, enters, hr] at hr'
      exact (hr' heven).elim
    · obtain ⟨hwaits, hout⟩ := h.slot.of_waits (hall none (by simp))
      have hcopied : s.holder.copied = none := by
        have ho := hout.1 heven
        cases hh : s.holder <;> rw [hh] at hwaits ho <;>
          simp_all [CallerPhase.waits, CallerPhase.outside, CallerPhase.copied]
      refine h.begins heven hcopied fun v => ?_
      rcases eq_or_ne v w with rfl | hv
      · simp [setWorker]
      · obtain ⟨hvw, hvo⟩ := (h.workers v).of_waits (hall (some v) (by simpa using hv))
        simpa [setWorker, enters, hv] using eq_waiting hvw (hvo.1 heven)

theorem Inv.enterSecond (h : s.Inv) (hw : s.worker w = .done) :
    ((s.enters (some w)).setWorker w .leaving).Inv := by
  have hcard : Fintype.card (Option (Fin n)) = n + 1 := by simp
  have htied := h.workers w
  rw [hw] at htied
  have hodd : ¬ Even s.barrier.round := by simp [htied.round, CopyPhase.outside]
  have hwork := workers_arrive h (p := .leaving) (by rw [hw]; rfl) ⟨rfl, by rw [hw]; rfl⟩
  have hslot : Tied (s.barrier.arrive (some w) (n + 1)) none s.holder.waits s.holder.outside :=
    hcard ▸ h.slot.arrive_ne h.barrier htied.none (by simp)
  obtain ⟨hwf, hround⟩ := h.barrier.arrive_cases htied.none
  rw [hcard] at hwf hround
  have hgoes : ∀ c, s.current = some c →
      Copying n c (update s.worker w .leaving) s.mem s.expected := by
    intro c hc
    refine (h.odd hodd c hc).goes trivial ?_
    rw [hw]
    rfl
  refine ⟨hwf, hwork, hslot, h.holds, h.apart, h.wrote, fun hr' => ?_, fun hr' c hc => hgoes c hc⟩
  rcases hround with hr | ⟨-, hall⟩
  · rw [setWorker, enters, hr] at hr'
    exact (hodd hr').elim
  · obtain ⟨hwaits, hout⟩ := h.slot.of_waits (hall none (by simp))
    obtain ⟨c, hc⟩ : ∃ c, s.holder = .finishing c := by
      have ho : s.holder.outside = true := by simpa using mt hout.2 hodd
      cases hh : s.holder <;> rw [hh] at hwaits ho <;>
        simp_all [CallerPhase.waits, CallerPhase.outside]
    have hcur : s.current = some c := by rw [current_eq, hc]; rfl
    have hmem := copied_of_leaving (hgoes c hcur) fun v => by
      rcases eq_or_ne v w with rfl | hv
      · simp
      · obtain ⟨hvw, hvo⟩ := (h.workers v).of_waits (hall (some v) (by simpa using hv))
        rw [update_of_ne hv]
        exact eq_leaving hvw (by simpa using mt hvo.2 hodd)
    change s.mem = s.holder.copied.elim s.expected _
    rw [hc]
    exact hmem

/-- A copy thread leaves the barrier. -/
theorem Inv.leaveWorker (h : s.Inv) {p : CopyPhase} {b : Barrier (Option (Fin n))}
    (hl : s.barrier.leave (some w) = some b) (hw : (s.worker w).waits = true)
    (hp : p.waits = false ∧ p.outside = (s.worker w).outside)
    (hgoes : (s.worker w).outside = false → ∀ c, p.Read n c w ∧
      p.progress (c.chunkSize n) = (s.worker w).progress (c.chunkSize n)) :
    ({ s with barrier := b }.setWorker w p).Inv := by
  have htied := h.workers w
  rw [hw] at htied
  obtain ⟨hself, hround⟩ := htied.leave h.barrier hl
  have hr : b.round = s.barrier.round := by
    obtain ⟨-, rfl⟩ := Barrier.leave_eq_some hl
    rfl
  refine ⟨h.barrier.leave hl, fun v => ?_, h.slot.leave_ne h.barrier hl (by simp), h.holds,
    h.apart, h.wrote, fun hr' => h.even (hr ▸ hr'), fun hr' c hc => ?_⟩
  · rcases eq_or_ne v w with rfl | hv
    · simpa [setWorker, hp.1, hp.2] using hself
    · simpa [setWorker, hv] using (h.workers v).leave_ne h.barrier hl (by simpa using hv)
  · have hodd : ¬ Even s.barrier.round := hr ▸ hr'
    have ho : (s.worker w).outside = false := by simpa using mt hround.2 hodd
    exact (h.odd hodd c hc).goes (hgoes ho c).1 (hgoes ho c).2

/-- A copy thread takes a step. -/
theorem Inv.workerStep (h : s.Inv) (hs : s.workerStep w = some s') : s'.Inv := by
  unfold CopyRace.workerStep at hs
  split at hs
  case h_1 hw =>
    cases hs
    exact h.enterFirst hw
  case h_2 hw =>
    obtain ⟨s₁, hl, rfl⟩ := Option.map_eq_some_iff.1 hs
    obtain ⟨b, hb, rfl⟩ := Option.map_eq_some_iff.1 hl
    refine h.leaveWorker hb (by rw [hw]; rfl) ⟨rfl, by rw [hw]; rfl⟩ fun _ c => ⟨trivial, ?_⟩
    rw [hw]
    rfl
  case h_3 hw =>
    cases hs
    refine h.work (p := .readDst _) (by rw [hw]; exact ⟨rfl, rfl⟩) ⟨rfl, rfl⟩
      fun c _ hc _ _ _ hlen _ => hc.goes ?_ ?_
    · rw [hlen]
      rfl
    · rw [hw]
      rfl
  case h_4 chunk hw =>
    cases hs
    refine h.work (p := .readZeros _ _) (by rw [hw]; exact ⟨rfl, rfl⟩) ⟨rfl, rfl⟩
      fun c _ hc _ hdst _ _ _ => hc.goes ?_ ?_
    · have hread := hc.read w
      rw [hw] at hread
      exact ⟨hread, by rw [hdst]⟩
    · rw [hw]
      rfl
  case h_5 chunk dst hw =>
    cases hs
    split
    · rename_i hz
      refine h.work (p := .copy _ _ _ _) (by rw [hw]; exact ⟨rfl, rfl⟩) ⟨rfl, rfl⟩
        fun c _ hc _ _ _ _ hzero => hc.goes ?_ ?_
      · have hread := hc.read w
        rw [hw] at hread
        rw [hz, eq_comm, Option.isNone_iff_eq_none] at hzero
        exact ⟨hread.1, hread.2, by rw [hzero]; rfl, Nat.zero_le _⟩
      · rw [hw]
        rfl
    · rename_i hz
      refine h.work (p := .readSrc _ _) (by rw [hw]; exact ⟨rfl, rfl⟩) ⟨rfl, rfl⟩
        fun c _ hc _ _ _ _ hzero => hc.goes ?_ ?_
      · have hread := hc.read w
        rw [hw] at hread
        refine ⟨hread.1, hread.2, ?_⟩
        rw [Option.isSome_iff_ne_none, ne_eq, ← Option.isNone_iff_eq_none, ← hzero]
        exact hz
      · rw [hw]
        rfl
  case h_6 chunk dst hw =>
    cases hs
    refine h.work (p := .copy _ _ _ _) (by rw [hw]; exact ⟨rfl, rfl⟩) ⟨rfl, rfl⟩
      fun c _ hc _ _ hsrc _ _ => hc.goes ?_ ?_
    · have hread := hc.read w
      rw [hw] at hread
      obtain ⟨src, he⟩ := Option.isSome_iff_exists.1 hread.2.2
      rw [he] at hsrc
      exact ⟨hread.1, hread.2.1, by rw [he, ← hsrc]; rfl, Nat.zero_le _⟩
    · rw [hw]
      rfl
  case h_7 chunk dst src i hw =>
    split at hs
    · rename_i hi
      cases hs
      exact h.work (p := .copy _ _ _ _) (by rw [hw]; exact ⟨rfl, rfl⟩) ⟨rfl, rfl⟩
        fun c _ hc hapart _ _ _ _ => hc.copy hapart hw hi
    · rename_i hi
      cases hs
      refine h.work (p := .done) (by rw [hw]; exact ⟨rfl, rfl⟩) ⟨rfl, rfl⟩
        fun c _ hc _ _ _ _ _ => hc.goes trivial ?_
      have hread := hc.read w
      rw [hw] at hread ⊢
      obtain ⟨rfl, -, -, hle⟩ := hread
      exact Nat.le_antisymm (Nat.le_of_not_lt hi) hle
  case h_8 hw =>
    cases hs
    exact h.enterSecond hw
  case h_9 hw =>
    obtain ⟨s₁, hl, rfl⟩ := Option.map_eq_some_iff.1 hs
    obtain ⟨b, hb, rfl⟩ := Option.map_eq_some_iff.1 hl
    refine h.leaveWorker hb (by rw [hw]; rfl) ⟨rfl, by rw [hw]; rfl⟩ fun ho => ?_
    rw [hw] at ho
    cases ho

end Worker

section Caller

variable [DecidableEq T] {p : CallerPhase} {m : Pmemcpy} {b : Barrier (Option (Fin n))}
  {e : ℕ → UInt8}

omit [DecidableEq T] in
theorem Inv.holder_eq (h : s.Inv) (ht : (s.caller t).holds = true) :
    s.lock = some t ∧ s.holder = s.caller t := by
  have hl := (h.holds t).1 ht
  refine ⟨hl, ?_⟩
  rw [holder, hl]
  rfl

theorem Inv.holds_set (h : s.Inv) (ht : (s.caller t).holds = true) (hp : p.holds = true) (t' : T) :
    (update s.caller t p t').holds = true ↔ s.lock = some t' := by
  rcases eq_or_ne t' t with rfl | hne
  · rw [update_self, (h.holder_eq ht).1]
    simp [hp]
  · rw [update_of_ne hne]
    exact h.holds t'

theorem Inv.apart_set (h : s.Inv) (hp : ∀ c, p.call = some c → c.Apart) (t' : T) (c : CopyCall)
    (hc : (update s.caller t p t').call = some c) : c.Apart := by
  rcases eq_or_ne t' t with rfl | hne
  · rw [update_self] at hc
    exact hp c hc
  · rw [update_of_ne hne] at hc
    exact h.apart t' c hc

theorem holder_set {u : CopyRace T n} (hl : u.lock = some t) (hc : u.caller = update s.caller t p) :
    u.holder = p := by
  simp [holder, hl, hc]

/-- The caller with the lock writes to `pmemcpy`. -/
theorem Inv.prepare (h : s.Inv) (ht : (s.caller t).holds = true)
    (hbefore : (s.caller t).waits = false ∧ (s.caller t).outside = true ∧ (s.caller t).copied = none)
    (hp : p.holds = true ∧ p.waits = false ∧ p.outside = true ∧ p.copied = none)
    (hcall : p.call = (s.caller t).call) (hw : p.Wrote m) :
    ({ s with pmemcpy := m }.setCaller t p).Inv := by
  obtain ⟨hl, hh⟩ := h.holder_eq ht
  have hslot := h.slot
  rw [hh, hbefore.1, hbefore.2.1] at hslot
  have heven : Even s.barrier.round := hslot.round.2 rfl
  have hmem := h.even heven
  rw [hh, hbefore.2.2] at hmem
  have hset : ({ s with pmemcpy := m }.setCaller t p).holder = p := holder_set (s := s) hl rfl
  refine ⟨h.barrier, h.workers, ?_, h.holds_set ht hp.1,
    h.apart_set (fun c hc => h.apart t c (hcall ▸ hc)), ?_, fun _ => ?_, fun hodd => ?_⟩
  · rw [hset, hp.2.1, hp.2.2.1]
    exact hslot
  · rw [hset]
    exact hw
  · rw [hset, hp.2.2.2]
    exact hmem
  · exact (hodd heven).elim

/-- A caller takes the lock. -/
theorem Inv.takeLock (h : s.Inv) (ht : s.caller t = .lock c) (hl : s.lock = none) :
    ({ s with lock := some t }.setCaller t (.setDst c)).Inv := by
  have hh : s.holder = .idle := by
    rw [holder, hl]
    rfl
  have hslot := h.slot
  rw [hh] at hslot
  have heven : Even s.barrier.round := hslot.round.2 rfl
  have hmem := h.even heven
  rw [hh] at hmem
  have hset : ({ s with lock := some t }.setCaller t (.setDst c)).holder = .setDst c :=
    holder_set (s := s) rfl rfl
  refine ⟨h.barrier, h.workers, ?_, fun t' => ?_,
    h.apart_set (fun c' hc => h.apart t c' (by rw [ht]; exact hc)), ?_, fun _ => ?_,
    fun hodd => (hodd heven).elim⟩
  · rw [hset]
    exact hslot
  · change (update s.caller t (.setDst c) t').holds = true ↔ some t = some t'
    rcases eq_or_ne t' t with rfl | hne
    · simp [CallerPhase.holds]
    · have hno : (s.caller t').holds ≠ true := by
        rw [ne_eq, h.holds t', hl]
        nofun
      simp [hne, hne.symm, hno]
  · rw [hset]
    trivial
  · rw [hset]
    exact hmem

/-- It gives the lock back. -/
theorem Inv.unlocks (h : s.Inv) (ht : s.caller t = .unlock c) :
    ({ s with lock := none, expected := c.applied n s.expected }.setCaller t .idle).Inv := by
  obtain ⟨hl, hh⟩ := h.holder_eq (t := t) (by rw [ht]; rfl)
  rw [ht] at hh
  have hslot := h.slot
  rw [hh] at hslot
  have heven : Even s.barrier.round := hslot.round.2 rfl
  have hmem := h.even heven
  rw [hh] at hmem
  refine ⟨h.barrier, h.workers, hslot, fun t' => ?_, h.apart_set (fun c' hc => by cases hc),
    trivial, fun _ => hmem, fun hodd => (hodd heven).elim⟩
  change (update s.caller t .idle t').holds = true ↔ none = some t'
  rcases eq_or_ne t' t with rfl | hne
  · simp [CallerPhase.holds]
  · have hno : (s.caller t').holds ≠ true := by
      rw [ne_eq, h.holds t', hl]
      simpa using hne.symm
    simp [hne, hno]

omit [DecidableEq T] in
theorem workers_arrive_slot (h : s.Inv) (hn : s.barrier.waits none = none) (v : Fin n) :
    Tied (s.barrier.arrive none (n + 1)) (some v) (s.worker v).waits (s.worker v).outside := by
  have hcard : Fintype.card (Option (Fin n)) = n + 1 := by simp
  rw [← hcard]
  exact (h.workers v).arrive_ne h.barrier hn (by simp)

/-- The caller with the lock comes to the barrier. -/
theorem Inv.enterCaller (h : s.Inv) (ht : (s.caller t).holds = true)
    (hbefore : (s.caller t).waits = false)
    (hp : p.holds = true ∧ p.waits = true ∧ p.outside = !(s.caller t).outside)
    (hcall : p.call = (s.caller t).call)
    (hwrote : (s.caller t).Wrote s.pmemcpy → p.Wrote s.pmemcpy)
    (heven : Even (s.barrier.arrive none (n + 1)).round →
      s.mem = p.copied.elim s.expected fun c => c.applied n s.expected)
    (hodd : ¬ Even (s.barrier.arrive none (n + 1)).round → ∀ c, p.call = some c →
      Copying n c s.worker s.mem s.expected) :
    ((s.enters none).setCaller t p).Inv := by
  have hcard : Fintype.card (Option (Fin n)) = n + 1 := by simp
  obtain ⟨hl, hh⟩ := h.holder_eq ht
  have hslot := h.slot
  rw [hh, hbefore] at hslot
  have hset : ((s.enters none).setCaller t p).holder = p := holder_set (s := s) hl rfl
  have hbefore_wrote := h.wrote
  rw [hh] at hbefore_wrote
  obtain ⟨hwf, -⟩ := h.barrier.arrive_cases hslot.none
  have hself := hslot.arrive h.barrier
  rw [hcard] at hwf hself
  refine ⟨hwf, workers_arrive_slot h hslot.none, ?_, h.holds_set ht hp.1,
    h.apart_set (fun c hc => h.apart t c (hcall ▸ hc)), ?_, fun hr => ?_, fun hr c hc => ?_⟩
  · rw [hset, hp.2.1, hp.2.2]
    exact hself
  · rw [hset]
    exact hwrote hbefore_wrote
  · rw [hset]
    exact heven hr
  · rw [current_eq, hset] at hc
    exact hodd hr c hc

theorem Inv.callerFirst (h : s.Inv) (ht : s.caller t = .start c) :
    ((s.enters none).setCaller t (.starting c)).Inv := by
  have hcard : Fintype.card (Option (Fin n)) = n + 1 := by simp
  obtain ⟨-, hh⟩ := h.holder_eq (t := t) (by rw [ht]; rfl)
  rw [ht] at hh
  have hslot := h.slot
  rw [hh] at hslot
  have heven : Even s.barrier.round := hslot.round.2 rfl
  have hmem := h.even heven
  rw [hh] at hmem
  obtain ⟨-, hround⟩ := h.barrier.arrive_cases hslot.none
  rw [hcard] at hround
  refine h.enterCaller (by rw [ht]; rfl) (by rw [ht]; rfl) ⟨rfl, rfl, by rw [ht]; rfl⟩
    (by rw [ht]; rfl) (fun hwrote => by rwa [ht] at hwrote) (fun _ => hmem) fun hr' c' hc => ?_
  rcases hround with hr | ⟨-, hall⟩
  · rw [hr] at hr'
    exact (hr' heven).elim
  · refine h.begins heven (by rw [hh]; rfl) fun v => ?_
    obtain ⟨hvw, hvo⟩ := (h.workers v).of_waits (hall (some v) (by simp))
    exact eq_waiting hvw (hvo.1 heven)

theorem Inv.callerSecond (h : s.Inv) (ht : s.caller t = .finish c) :
    ((s.enters none).setCaller t (.finishing c)).Inv := by
  have hcard : Fintype.card (Option (Fin n)) = n + 1 := by simp
  obtain ⟨-, hh⟩ := h.holder_eq (t := t) (by rw [ht]; rfl)
  rw [ht] at hh
  have hslot := h.slot
  rw [hh] at hslot
  have hodd : ¬ Even s.barrier.round := by simp [hslot.round, CallerPhase.outside]
  have hcur : s.current = some c := by
    rw [current_eq, hh]
    rfl
  have hcopying := h.odd hodd c hcur
  obtain ⟨-, hround⟩ := h.barrier.arrive_cases hslot.none
  rw [hcard] at hround
  refine h.enterCaller (by rw [ht]; rfl) (by rw [ht]; rfl) ⟨rfl, rfl, by rw [ht]; rfl⟩
    (by rw [ht]; rfl) (fun hwrote => by rwa [ht] at hwrote) (fun hr' => ?_) fun _ c' hc => ?_
  · rcases hround with hr | ⟨-, hall⟩
    · rw [hr] at hr'
      exact (hodd hr').elim
    · refine copied_of_leaving hcopying fun v => ?_
      obtain ⟨hvw, hvo⟩ := (h.workers v).of_waits (hall (some v) (by simp))
      exact eq_leaving hvw (by simpa using mt hvo.2 hodd)
  · cases hc
    exact hcopying

/-- The caller leaves the barrier. -/
theorem Inv.leaveCaller (h : s.Inv) (hl : s.barrier.leave none = some b)
    (ht : (s.caller t).holds = true) (hw : (s.caller t).waits = true)
    (hp : p.holds = true ∧ p.waits = false ∧ p.outside = (s.caller t).outside)
    (hcall : p.call = (s.caller t).call) (hcopied : p.copied = (s.caller t).copied)
    (hwrote : p.Wrote s.pmemcpy ↔ (s.caller t).Wrote s.pmemcpy) :
    ({ s with barrier := b }.setCaller t p).Inv := by
  obtain ⟨hlock, hh⟩ := h.holder_eq ht
  have hslot := h.slot
  rw [hh, hw] at hslot
  obtain ⟨hself, hround⟩ := hslot.leave h.barrier hl
  have hr : b.round = s.barrier.round := by
    obtain ⟨-, rfl⟩ := Barrier.leave_eq_some hl
    rfl
  have hset : ({ s with barrier := b }.setCaller t p).holder = p := holder_set (s := s) hlock rfl
  refine ⟨h.barrier.leave hl, fun v => (h.workers v).leave_ne h.barrier hl (by simp), ?_,
    h.holds_set ht hp.1, h.apart_set (fun c hc => h.apart t c (hcall ▸ hc)), ?_, fun hr' => ?_,
    fun hr' c hc => ?_⟩
  · rw [hset, hp.2.1, hp.2.2]
    exact hself
  · rw [hset]
    exact hwrote.2 (hh ▸ h.wrote)
  · have hmem := h.even (hr ▸ hr')
    rw [hh] at hmem
    rw [hset, hcopied]
    exact hmem
  · refine h.odd (hr ▸ hr') c ?_
    rw [current_eq, hset] at hc
    rw [current_eq, hh, ← hcall]
    exact hc

/-- A caller takes a step. -/
theorem Inv.callerStep (h : s.Inv) (hs : s.callerStep t = some s') : s'.Inv := by
  have hwrote := h.wrote
  have holder : (s.caller t).holds = true → (s.caller t).Wrote s.pmemcpy := by
    intro ht
    rw [← (h.holder_eq ht).2]
    exact hwrote
  unfold CopyRace.callerStep at hs
  split at hs
  case h_1 => cases hs
  case h_2 c ht =>
    split at hs
    · cases hs
      exact h.takeLock ht ‹_›
    · cases hs
  case h_3 c ht =>
    cases hs
    rw [ht] at holder
    split
    · exact h.prepare (by rw [ht]; rfl) (by rw [ht]; exact ⟨rfl, rfl, rfl⟩) ⟨rfl, rfl, rfl, rfl⟩
        (by rw [ht]; rfl) rfl
    · rename_i hsrc
      refine h.prepare (by rw [ht]; rfl) (by rw [ht]; exact ⟨rfl, rfl, rfl⟩) ⟨rfl, rfl, rfl, rfl⟩
        (by rw [ht]; rfl) ⟨rfl, ?_⟩
      cases hc : c.src with
      | none => rfl
      | some src => simp [hc] at hsrc
  case h_4 c ht =>
    cases hs
    rw [ht] at holder
    refine h.prepare (by rw [ht]; rfl) (by rw [ht]; exact ⟨rfl, rfl, rfl⟩) ⟨rfl, rfl, rfl, rfl⟩
      (by rw [ht]; rfl) ⟨holder rfl, ?_⟩
    cases c.src <;> rfl
  case h_5 c ht =>
    cases hs
    rw [ht] at holder
    exact h.prepare (by rw [ht]; rfl) (by rw [ht]; exact ⟨rfl, rfl, rfl⟩) ⟨rfl, rfl, rfl, rfl⟩
      (by rw [ht]; rfl) ⟨(holder rfl).1, (holder rfl).2, rfl⟩
  case h_6 c ht =>
    cases hs
    rw [ht] at holder
    obtain ⟨h1, h2, h3⟩ := holder rfl
    exact h.prepare (by rw [ht]; rfl) (by rw [ht]; exact ⟨rfl, rfl, rfl⟩) ⟨rfl, rfl, rfl, rfl⟩
      (by rw [ht]; rfl) ⟨h1, h2, h3, rfl⟩
  case h_7 c ht =>
    cases hs
    exact h.callerFirst ht
  case h_8 c ht =>
    obtain ⟨s₁, hl, rfl⟩ := Option.map_eq_some_iff.1 hs
    obtain ⟨b, hb, rfl⟩ := Option.map_eq_some_iff.1 hl
    refine h.leaveCaller hb ?_ ?_ ⟨rfl, rfl, ?_⟩ ?_ ?_ ?_ <;> rw [ht] <;> rfl
  case h_9 c ht =>
    cases hs
    exact h.callerSecond ht
  case h_10 c ht =>
    obtain ⟨s₁, hl, rfl⟩ := Option.map_eq_some_iff.1 hs
    obtain ⟨b, hb, rfl⟩ := Option.map_eq_some_iff.1 hl
    refine h.leaveCaller hb ?_ ?_ ⟨rfl, rfl, ?_⟩ ?_ ?_ ?_ <;> rw [ht] <;> rfl
  case h_11 c ht =>
    cases hs
    exact h.unlocks ht

end Caller

section Others

variable {a : ℕ} {b : UInt8} {e : ℕ → UInt8}

theorem applied_update (ha : ¬ c.Uses a) :
    c.applied n (update e a b) = update (c.applied n e) a b := by
  have hle := parts_le (c := c) (n := n)
  simp only [CopyCall.Uses, not_or, not_exists] at ha
  funext x
  rcases eq_or_ne x a with rfl | hx
  · have hno : ¬ (c.dst ≤ x ∧ x < c.dst + n * c.chunkSize n) := by omega
    simp [CopyCall.applied, hno]
  · rw [update_of_ne hx]
    simp only [CopyCall.applied, update_of_ne hx]
    split
    · unfold CopyCall.byte
      cases hs : c.src with
      | none => rfl
      | some src =>
        have hsrc := ha.2 src
        simp only [hs, true_and] at hsrc
        exact update_of_ne (by omega) ..
    · rfl

theorem Inv.write (h : s.Inv) (ha : ∀ c, s.current = some c → ¬ c.Uses a) :
    Inv { s with mem := update s.mem a b, expected := update s.expected a b } := by
  refine ⟨h.barrier, h.workers, h.slot, h.holds, h.apart, h.wrote, fun heven => ?_,
    fun hodd c hc => (h.odd hodd c hc).write (ha c hc)⟩
  have hmem := h.even heven
  change update s.mem a b = s.holder.copied.elim (update s.expected a b) _
  cases hc : s.holder.copied with
  | none =>
    rw [hc] at hmem
    rw [show s.mem = s.expected from hmem]
    rfl
  | some c =>
    have hcur : s.current = some c := by
      rw [current_eq]
      cases hh : s.holder <;> rw [hh] at hc <;> cases hc <;> rfl
    rw [hc] at hmem
    rw [show s.mem = c.applied n s.expected from hmem]
    exact (applied_update (ha c hcur)).symm

theorem Inv.call [DecidableEq T] (h : s.Inv) (ht : s.caller t = .idle) (hc : c.Apart) :
    (s.setCaller t (.lock c)).Inv := by
  have hno : s.lock ≠ some t := by
    rw [ne_eq, ← h.holds t, ht]
    nofun
  have hset : (s.setCaller t (.lock c)).holder = s.holder := by
    unfold holder setCaller
    cases hl : s.lock with
    | none => rfl
    | some t' =>
      have hne : t' ≠ t := by
        rintro rfl
        exact hno hl
      exact update_of_ne hne ..
  have hcur : (s.setCaller t (.lock c)).current = s.current := by
    rw [current_eq, current_eq, hset]
  refine ⟨h.barrier, h.workers, hset ▸ h.slot, fun t' => ?_,
    h.apart_set (fun c' hc' => by cases hc'; exact hc), hset ▸ h.wrote, fun heven => ?_,
    fun hodd c' hc' => h.odd hodd c' (hcur ▸ hc')⟩
  · change (update s.caller t (.lock c) t').holds = true ↔ s.lock = some t'
    rcases eq_or_ne t' t with rfl | hne
    · simp [CallerPhase.holds, hno]
    · rw [update_of_ne hne]
      exact h.holds t'
  · rw [hset]
    exact h.even heven

end Others

theorem Starts.inv (h : s.Starts) : s.Inv := by
  obtain ⟨hlock, hbarrier, hworker, hcaller, hexpected⟩ := h
  have hh : s.holder = .idle := by
    rw [holder, hlock]
    rfl
  have htied : ∀ p : Option (Fin n), Tied s.barrier p false true := by
    intro p
    rw [hbarrier]
    exact ⟨rfl, by simp [Barrier.turns, Barrier.start]⟩
  refine ⟨by rw [hbarrier]; exact Barrier.start_wf, fun w => ?_, ?_, fun t => ?_, fun t c hc => ?_,
    ?_, fun _ => ?_, fun hodd => ?_⟩
  · rw [hworker w]
    exact htied _
  · rw [hh]
    exact htied _
  · rw [hcaller t, hlock]
    simp [CallerPhase.holds]
  · rw [hcaller t] at hc
    cases hc
  · rw [hh]
    trivial
  · rw [hh]
    exact hexpected.symm
  · rw [hbarrier] at hodd
    simp [Barrier.start] at hodd

theorem Inv.step [DecidableEq T] (h : s.Inv) {a : CopyAct T n} (hl : a.Legal s)
    (hs : a.next s = some s') : s'.Inv := by
  cases a with
  | call t c =>
    simp only [CopyAct.next] at hs
    split at hs
    · cases hs
      exact h.call ‹_› hl
    · cases hs
  | caller t => exact h.callerStep hs
  | worker w => exact h.workerStep hs
  | write a b =>
    cases hs
    exact h.write hl

theorem applied_outside {e : ℕ → UInt8} {a : ℕ} (ha : ¬ (c.dst ≤ a ∧ a < c.dst + c.length)) :
    c.applied n e a = e a := by
  have hle := parts_le (c := c) (n := n)
  exact if_neg (by omega)

theorem Inv.atomic (h : s.Inv) : s.Atomic where
  others a ha := by
    by_cases heven : Even s.barrier.round
    · rw [h.even heven]
      cases hc : s.holder.copied with
      | none => rfl
      | some c =>
        refine applied_outside (ha c ?_)
        rw [current_eq]
        cases hh : s.holder <;> rw [hh] at hc <;> cases hc <;> rfl
    · obtain ⟨c, hcur, hcopying, -⟩ := h.args heven
      have hle := parts_le (c := c) (n := n)
      have hno := ha c hcur
      exact hcopying.rest a (by omega)
  returns t c ht := by
    obtain ⟨-, hh⟩ := h.holder_eq (t := t) (by rw [ht]; rfl)
    rw [ht] at hh
    have hslot := h.slot
    rw [hh] at hslot
    have hmem := h.even (hslot.round.2 rfl)
    rw [hh] at hmem
    exact hmem

/-- Somebody can go on as long as a call is not over. -/
theorem Inv.goesOn [DecidableEq T] (h : s.Inv) (hl : s.lock = some t) :
    (s.callerStep t).isSome ∨ ∃ w, (s.workerStep w).isSome := by
  have leaves : ∀ p, s.barrier.waits p ≠ some s.barrier.round → (s.barrier.waits p).isSome →
      (s.leaves p).isSome := by
    intro p hne hsome
    obtain ⟨r, hr⟩ := Option.isSome_iff_exists.1 hsome
    have hrr : r ≠ s.barrier.round := by
      rintro rfl
      exact hne hr
    simp [CopyRace.leaves, Barrier.leave, hr, hrr]
  obtain ⟨p, hp⟩ := h.barrier.exists_free
  cases p with
  | none =>
    have hholds := (h.holds t).2 hl
    have hslot := h.slot
    rw [(h.holder_eq hholds).2] at hslot
    left
    unfold CopyRace.callerStep
    cases hph : s.caller t <;> rw [hph] at hholds hslot <;> first
      | rfl
      | (rw [Option.isSome_map]
         exact leaves _ hp hslot.waits)
      | cases hholds
  | some w =>
    have htied := h.workers w
    refine .inr ⟨w, ?_⟩
    unfold CopyRace.workerStep
    cases hph : s.worker w <;> rw [hph] at htied <;> first
      | rfl
      | (rw [Option.isSome_map]
         exact leaves _ hp htied.waits)
      | (dsimp only
         split <;> rfl)

variable [DecidableEq T]

theorem reach_inv (h : (copyRace T n).Reach (fun s a => a.Legal s) s) : s.Inv :=
  h.invariant (fun _ h => h.inv) fun _ _ _ hi hl hs => hi.step hl hs

/-- The parts of the copy threads add up to a huge page. -/
example : maxCopyThreads ∣ 2 ^ 21 := by decide

/-- However callers, copy threads and others interleave, memory is as if each call had copied at
once. -/
theorem copies_atomic (h : (copyRace T n).Reach (fun s a => a.Legal s) s) : s.Atomic :=
  (reach_inv h).atomic

/-- No call gets stuck at the barrier. -/
theorem copy_goes_on (h : (copyRace T n).Reach (fun s a => a.Legal s) s)
    (hl : s.lock = some t) : (s.callerStep t).isSome ∨ ∃ w, (s.workerStep w).isSome :=
  (reach_inv h).goesOn hl

end CopyRace

/-- Each byte is its address. -/
def CopyRace.idle (n : ℕ) : CopyRace (Fin 1) n :=
  ⟨fun a => UInt8.ofNat a, ⟨false, 0, 0, 0⟩, none, .start, fun _ => .wait, fun _ => .idle,
    fun a => UInt8.ofNat a⟩

theorem CopyRace.idle_starts : (CopyRace.idle n).Starts :=
  ⟨rfl, rfl, fun _ => rfl, fun _ => rfl, rfl⟩

/-- The acts of one caller that copies five bytes from 100, and of two copy threads. -/
def fiveBytes : List (CopyAct (Fin 1) 2) :=
  [.call ⟨0, Nat.one_pos⟩ ⟨200, some 100, 5⟩, .caller ⟨0, Nat.one_pos⟩, .worker ⟨0, Nat.two_pos⟩,
    .worker ⟨1, Nat.one_lt_two⟩]

theorem fiveBytes_legal (s : CopyRace (Fin 1) 2) (a : CopyAct (Fin 1) 2) (ha : a ∈ fiveBytes) :
    a.Legal s := by
  simp only [fiveBytes, List.mem_cons, List.not_mem_nil, or_false] at ha
  rcases ha with rfl | rfl | rfl | rfl
  · intro src hsrc
    cases hsrc
    exact .inl (by decide)
  all_goals trivial

/-- Two threads copy two bytes each, and the call is about to return. -/
theorem CopyRace.copies_atomic_returned : ∃ s : CopyRace (Fin 1) 2,
    s.caller 0 = .unlock ⟨200, some 100, 5⟩ ∧ s.mem 203 = 103 ∧ s.mem 204 = 204 ∧ s.Atomic := by
  obtain ⟨s, hs, hP⟩ := System.drive_reach (fun s a => a.next s) (fun _ a => a ∈ fiveBytes)
    (S := copyRace (Fin 1) 2) (fun _ _ _ => id) fiveBytes_legal CopyRace.idle_starts
    ([.call 0 ⟨200, some 100, 5⟩, .worker 0] ++ List.replicate 6 (.caller 0) ++
      List.replicate 9 (.worker 1) ++ List.replicate 9 (.worker 0) ++
      [.caller 0, .caller 0, .worker 1, .caller 0])
    (fun s => s.caller 0 = .unlock ⟨200, some 100, 5⟩ ∧ s.mem 203 = 103 ∧ s.mem 204 = 204)
    (by decide +kernel)
  obtain ⟨h0, h1, h2⟩ := of_decide_eq_true hP
  exact ⟨s, h0, h1, h2, copies_atomic hs⟩

/-- The caller waits for the copy threads. -/
theorem CopyRace.copy_goes_on_waiting : ∃ s : CopyRace (Fin 1) 2,
    s.caller 0 = .starting ⟨200, some 100, 5⟩ ∧ (s.callerStep 0).isNone ∧
      ((s.callerStep 0).isSome ∨ ∃ w, (s.workerStep w).isSome) := by
  obtain ⟨s, hs, hP⟩ := System.drive_reach (fun s a => a.next s) (fun _ a => a ∈ fiveBytes)
    (S := copyRace (Fin 1) 2) (fun _ _ _ => id) fiveBytes_legal CopyRace.idle_starts
    ([.call 0 ⟨200, some 100, 5⟩, .worker 0] ++ List.replicate 6 (.caller 0))
    (fun s => s.caller 0 = .starting ⟨200, some 100, 5⟩ ∧ (s.callerStep 0).isNone ∧
      s.lock = some 0) (by decide +kernel)
  obtain ⟨h0, h1, h2⟩ := of_decide_eq_true hP
  exact ⟨s, h0, h1, copy_goes_on hs h2⟩

end HeMem

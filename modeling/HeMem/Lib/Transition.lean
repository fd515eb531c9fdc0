import Mathlib.Algebra.Order.Ring.Nat
import Mathlib.Tactic.Common

/-!
# Runs of labelled systems

A system starts in one of its initial states and takes labelled steps.  `Reach S C` are the states
of the runs each of whose steps meets the condition `C` on its label and the state before it.
-/

variable {σ lab : Type*}

structure System (σ lab : Type*) where
  init : σ → Prop
  step : σ → lab → σ → Prop

namespace System

variable (S : System σ lab) (C : σ → lab → Prop)

inductive Reach : σ → Prop
  | init {s : σ} (h : S.init s) : Reach s
  | step {s s' : σ} {l : lab} (h : Reach s) (hc : C s l) (hs : S.step s l s') : Reach s'

variable {S C}

/-- A weaker condition reaches more. -/
theorem Reach.mono {C' : σ → lab → Prop} {s : σ} (h : S.Reach C s)
    (hc : ∀ s l, C s l → C' s l) : S.Reach C' s := by
  induction h with
  | init h => exact .init h
  | step _ hl hs ih => exact .step ih (hc _ _ hl) hs

/-- What the initial states have and every step keeps, every reachable state has. -/
theorem Reach.invariant {I : σ → Prop} {s : σ} (h : S.Reach C s) (hi : ∀ s, S.init s → I s)
    (hs : ∀ s l s', I s → C s l → S.step s l s' → I s') : I s := by
  induction h with
  | init h => exact hi _ h
  | step _ hl hst ih => exact hs _ _ _ ih hl hst

section Drive

variable (next : σ → lab → Option σ) (D : σ → lab → Prop) [∀ s, DecidablePred (D s)]

/-- Takes the steps in turn, each of them where the condition holds. -/
def drive : List lab → σ → Option σ
  | [], s => some s
  | l :: ls, s => if D s l then (next s l).bind (drive ls) else none

variable {next D}

/-- Where the steps driven are steps of the system, what they lead to is reached. -/
theorem Reach.drive (hn : ∀ s l s', next s l = some s' → S.step s l s')
    (hC : ∀ s l, D s l → C s l) : ∀ {ls : List lab} {s t : σ}, S.Reach C s →
      System.drive next D ls s = some t → S.Reach C t
  | [], s, t, h, he => by
    cases he
    exact h
  | l :: ls, s, t, h, he => by
    unfold System.drive at he
    split at he
    · rename_i hl
      obtain ⟨s', hs, he⟩ := Option.bind_eq_some_iff.1 he
      exact (h.step (hC s l hl) (hn s l s' hs)).drive hn hC he
    · cases he

variable (next D) in
/-- The start may be a computation that fails. -/
theorem drive_reach_of (hn : ∀ s l s', next s l = some s' → S.step s l s')
    (hC : ∀ s l, D s l → C s l) {start : Option σ} (hs : ∀ s, start = some s → S.init s)
    (ls : List lab) (P : σ → Bool) (h : (start.bind (drive next D ls)).any P = true) :
    ∃ t, S.Reach C t ∧ P t = true := by
  obtain ⟨t, ht, hP⟩ := (Option.any_eq_true P _).1 h
  obtain ⟨s, hstart, ht⟩ := Option.bind_eq_some_iff.1 ht
  exact ⟨t, (Reach.init (hs s hstart)).drive hn hC ht, hP⟩

variable (next D) in
theorem drive_reach (hn : ∀ s l s', next s l = some s' → S.step s l s')
    (hC : ∀ s l, D s l → C s l) {s : σ} (hs : S.init s) (ls : List lab) (P : σ → Bool)
    (h : (drive next D ls s).any P = true) : ∃ t, S.Reach C t ∧ P t = true :=
  drive_reach_of next D hn hC (fun _ he => Option.some.inj he ▸ hs) ls P h

end Drive

end System

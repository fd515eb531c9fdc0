import HeMem.Lib.Hoare

/-!
# Sequences of calls and what they should do

Each call of a program has an effect in abstract terms: what it returns and the abstract state after
it.  Where one call, allowed in the abstract state, does what it should, any sequence of them does.
-/

namespace Refine

open Hoare

variable {σ τ ε κ ρ : Type}

/-- One call after another, and what they return. -/
def calls (m : κ → StateT σ (Except ε) ρ) : List κ → StateT σ (Except ε) (List ρ)
  | [] => return []
  | c :: cs => do
    let r ← m c
    let rs ← calls m cs
    return r :: rs

section Abstract

variable (f : κ → τ → ρ × τ)

/-- What the calls should return, and the abstract state after them. -/
def effects : List κ → τ → List ρ × τ
  | [], t => ([], t)
  | c :: cs, t => ((f c t).1 :: (effects cs (f c t).2).1, (effects cs (f c t).2).2)

variable (legal : τ → κ → Prop)

/-- Each call is allowed where it is made. -/
def Allowed : List κ → τ → Prop
  | [], _ => True
  | c :: cs, t => legal t c ∧ Allowed cs (f c t).2

end Abstract

variable {m : κ → StateT σ (Except ε) ρ} {f : κ → τ → ρ × τ} {legal : τ → κ → Prop}
  {R : σ → τ → Prop}

theorem calls_sat (hm : ∀ c s t, R s t → legal t c →
      Sat (m c) (fun r s' => r = (f c t).1 ∧ R s' (f c t).2) (fun _ => False) s) :
    ∀ {cs : List κ} {s : σ} {t : τ}, R s t → Allowed f legal cs t →
      Sat (calls m cs) (fun rs s' => rs = (effects f cs t).1 ∧ R s' (effects f cs t).2)
        (fun _ => False) s
  | [], _, _, hR, _ => ⟨rfl, hR⟩
  | c :: cs, s, t, hR, ⟨hc, hcs⟩ => by
    unfold calls
    refine (hm c s t hR hc).bind fun r s₁ ⟨hr, hR₁⟩ => ?_
    refine (calls_sat hm hR₁ hcs).bind fun rs s₂ ⟨hrs, hR₂⟩ => ?_
    subst hr hrs
    exact ⟨rfl, hR₂⟩

/-- From related states, allowed calls return what they should, and end in related states. -/
theorem calls_refine (hm : ∀ c s t, R s t → legal t c →
      Sat (m c) (fun r s' => r = (f c t).1 ∧ R s' (f c t).2) (fun _ => False) s)
    {cs : List κ} {s : σ} {t : τ} (hR : R s t) (hcs : Allowed f legal cs t) :
    ∃ s', calls m cs s = .ok ((effects f cs t).1, s') ∧ R s' (effects f cs t).2 := by
  obtain ⟨rs, s', hr, rfl, hR'⟩ := (calls_sat hm hR hcs).returns
  exact ⟨s', hr, hR'⟩

end Refine

import Mathlib.Algebra.Order.Ring.Nat
import Mathlib.Tactic.Common

/-!
# Outcomes of a program that keeps a state and may abort

`Sat m Q E s`: run from `s`, the program `m` either returns, with `Q` of the value and the state
after it, or aborts, with `E` of the reason.  The rules follow the program's text, so a proof
about a program is a walk along it.
-/

namespace Hoare

variable {σ ε α β : Type}

/-- Fail with `e` unless `c` holds. -/
def check (c : Prop) [Decidable c] (e : ε) : StateT σ (Except ε) Unit :=
  if c then pure () else throw e

/-- Run from `s`, `m` returns with `Q` or aborts with `E`. -/
def Sat (m : StateT σ (Except ε) α) (Q : α → σ → Prop) (E : ε → Prop) (s : σ) : Prop :=
  match m s with
  | .ok (a, s') => Q a s'
  | .error e => E e

section Rules

variable {m : StateT σ (Except ε) α} {f : α → StateT σ (Except ε) β} {Q Q' : α → σ → Prop}
  {R : β → σ → Prop} {E E' : ε → Prop} {s s' : σ} {a : α} {e : ε}

theorem Sat.ok (h : Sat m Q E s) (hr : m s = .ok (a, s')) : Q a s' := by
  unfold Sat at h
  rw [hr] at h
  exact h

theorem Sat.error (h : Sat m Q E s) (hr : m s = .error e) : E e := by
  unfold Sat at h
  rw [hr] at h
  exact h

theorem sat_of_ok (hr : m s = .ok (a, s')) : Sat m Q E s ↔ Q a s' := by
  unfold Sat
  rw [hr]

theorem sat_of_error (hr : m s = .error e) : Sat m Q E s ↔ E e := by
  unfold Sat
  rw [hr]

theorem sat_iff : Sat m Q E s ↔
    (∀ a s', m s = .ok (a, s') → Q a s') ∧ ∀ e, m s = .error e → E e := by
  unfold Sat
  rcases m s with e | ⟨a, s'⟩ <;> simp

theorem Sat.mono (h : Sat m Q E s) (hq : ∀ a s', Q a s' → Q' a s') (he : ∀ e, E e → E' e) :
    Sat m Q' E' s := by
  obtain ⟨h1, h2⟩ := sat_iff.1 h
  exact sat_iff.2 ⟨fun a s' hr => hq a s' (h1 a s' hr), fun e hr => he e (h2 e hr)⟩

/-- A program that never aborts returns. -/
theorem Sat.returns (h : Sat m Q (fun _ => False) s) : ∃ a s', m s = .ok (a, s') ∧ Q a s' := by
  rcases hm : m s with e | ⟨a, s'⟩
  · exact (h.error hm).elim
  · exact ⟨a, s', rfl, h.ok hm⟩

theorem Sat.post (h : Sat m Q E s) (hq : ∀ a s', Q a s' → Q' a s') : Sat m Q' E s :=
  h.mono hq fun _ => id

theorem Sat.and (h : Sat m Q E s) (h' : Sat m Q' E' s) :
    Sat m (fun a s' => Q a s' ∧ Q' a s') E s :=
  sat_iff.2 ⟨fun _ _ hr => ⟨h.ok hr, h'.ok hr⟩, fun _ hr => h.error hr⟩

/-- The value and the state returned may be told by the run itself. -/
theorem Sat.run (h : Sat m Q E s) : Sat m (fun a s' => m s = .ok (a, s') ∧ Q a s') E s :=
  sat_iff.2 ⟨fun _ _ hr => ⟨hr, h.ok hr⟩, fun _ hr => h.error hr⟩

theorem sat_true : Sat m (fun _ _ => True) (fun _ => True) s :=
  sat_iff.2 ⟨fun _ _ _ => trivial, fun _ _ => trivial⟩

@[simp] theorem sat_pure : Sat (pure a : StateT σ (Except ε) α) Q E s ↔ Q a s := Iff.rfl

@[simp] theorem sat_bind : Sat (m >>= f) R E s ↔ Sat m (fun a s' => Sat (f a) R E s') E s := by
  unfold Sat
  change (match (m s >>= fun p => f p.1 p.2) with | .ok (a, s') => R a s' | .error e => E e) ↔ _
  rcases m s with e | ⟨a, s'⟩ <;> rfl

theorem Sat.bind (h : Sat m Q E s) (hf : ∀ a s', Q a s' → Sat (f a) R E s') :
    Sat (m >>= f) R E s :=
  sat_bind.2 (h.post hf)

@[simp] theorem sat_throw : Sat (throw e : StateT σ (Except ε) α) Q E s ↔ E e := Iff.rfl

@[simp] theorem sat_get {Q : σ → σ → Prop} :
    Sat (get : StateT σ (Except ε) σ) Q E s ↔ Q s s := Iff.rfl

@[simp] theorem sat_modify {Q : PUnit → σ → Prop} {g : σ → σ} :
    Sat (modify g : StateT σ (Except ε) PUnit) Q E s ↔ Q ⟨⟩ (g s) := Iff.rfl

theorem sat_check {Q : Unit → σ → Prop} {c : Prop} [Decidable c] :
    Sat (check c e) Q E s ↔ (c → Q () s) ∧ (¬ c → E e) := by
  unfold check
  by_cases h : c <;> simp [h]

theorem sat_ite {c : Prop} [Decidable c] {m' : StateT σ (Except ε) α} :
    Sat (if c then m else m') Q E s ↔ (c → Sat m Q E s) ∧ (¬ c → Sat m' Q E s) := by
  by_cases h : c <;> simp [h]

theorem bind_of_ok (hr : m s = .ok (a, s')) : (m >>= f) s = f a s' := by
  change (m s >>= fun r => f r.1 r.2) = _
  rw [hr]
  rfl

theorem bind_of_error (hr : m s = .error e) : (m >>= f) s = .error e := by
  change (m s >>= fun r => f r.1 r.2) = _
  rw [hr]
  rfl

/-- What follows need only agree where the program before it returns. -/
theorem bind_eq_of_ok {k : α → StateT σ (Except ε) β}
    (h : ∀ a s', m s = .ok (a, s') → f a s' = k a s') : (m >>= f) s = (m >>= k) s := by
  rcases hm : m s with e | ⟨a, s'⟩
  · rw [bind_of_error hm, bind_of_error hm]
  · rw [bind_of_ok hm, bind_of_ok hm]
    exact h a s' hm

/-- A program whose value is dropped has returned one. -/
theorem ok_of_dropped {m : StateT σ (Except ε) α}
    (h : (m >>= fun _ => pure PUnit.unit : StateT σ (Except ε) PUnit) s = .ok (⟨⟩, s')) :
    ∃ a, m s = .ok (a, s') := by
  change (m s >>= fun r => Except.ok (PUnit.unit, r.2)) = _ at h
  rcases hm : m s with e | ⟨a, t⟩
  · rw [hm] at h
    cases h
  · rw [hm] at h
    cases h
    exact ⟨a, rfl⟩

theorem toOption_eq_some {x : Except ε α} : x.toOption = some a ↔ x = .ok a := by
  cases x <;> simp [Except.toOption]

end Rules

section Frames

variable {γ : Type} {f : σ → γ} {m m' : StateT σ (Except ε) α} {k : α → StateT σ (Except ε) β}
  {c : Prop} [Decidable c]

/-- `m` leaves alone what `f` reads of the state. -/
def Frames (f : σ → γ) (m : StateT σ (Except ε) α) : Prop :=
  ∀ s, Sat m (fun _ s' => f s' = f s) (fun _ => True) s

theorem frames_pure {a : α} : Frames f (pure a : StateT σ (Except ε) α) := fun _ => rfl

theorem frames_throw {e : ε} : Frames f (throw e : StateT σ (Except ε) α) := fun _ => trivial

theorem frames_get : Frames f (get : StateT σ (Except ε) σ) := fun _ => rfl

theorem frames_check {e : ε} : Frames f (check c e) := fun _ => by
  rw [sat_check]
  exact ⟨fun _ => rfl, fun _ => trivial⟩

theorem frames_modify {g : σ → σ} (h : ∀ s, f (g s) = f s) :
    Frames f (modify g : StateT σ (Except ε) PUnit) := h

theorem Frames.bind (hm : Frames f m) (hk : ∀ a, Frames f (k a)) : Frames f (m >>= k) :=
  fun s => (hm s).bind fun a s' h => (hk a s').post fun _ _ h' => h'.trans h

theorem frames_ite (h : Frames f m) (h' : Frames f m') : Frames f (if c then m else m') := by
  split
  · exact h
  · exact h'

end Frames

section Avoids

variable {m m' : StateT σ (Except ε) α} {k : α → StateT σ (Except ε) β} {c : Prop} [Decidable c]
  {e e' : ε}

/-- `m` does not abort with `e`. -/
def Avoids (e : ε) (m : StateT σ (Except ε) α) : Prop :=
  ∀ s, Sat m (fun _ _ => True) (fun e' => e' ≠ e) s

theorem avoids_pure {a : α} : Avoids e (pure a : StateT σ (Except ε) α) := fun _ => trivial

theorem avoids_throw (h : e' ≠ e) : Avoids e (throw e' : StateT σ (Except ε) α) := fun _ => h

theorem avoids_get : Avoids e (get : StateT σ (Except ε) σ) := fun _ => trivial

theorem avoids_modify {g : σ → σ} : Avoids e (modify g : StateT σ (Except ε) PUnit) :=
  fun _ => trivial

theorem avoids_check (h : e' ≠ e) : Avoids e (check c e' : StateT σ (Except ε) Unit) := fun _ => by
  rw [sat_check]
  exact ⟨fun _ => trivial, fun _ => h⟩

theorem Avoids.bind (hm : Avoids e m) (hk : ∀ a, Avoids e (k a)) : Avoids e (m >>= k) :=
  fun s => (hm s).bind fun a s' _ => hk a s'

theorem avoids_ite (h : Avoids e m) (h' : Avoids e m') : Avoids e (if c then m else m') := by
  split
  · exact h
  · exact h'

end Avoids

section Erases

variable {τ : Type} {view : τ → σ} {m m' : StateT τ (Except ε) α} {n n' : StateT σ (Except ε) α}
  {k : α → StateT τ (Except ε) β} {l : α → StateT σ (Except ε) β} {c : Prop} [Decidable c]

/-- Over a state that keeps more, `m` does what `n` does over the part `view` shows. -/
def Erases (view : τ → σ) (m : StateT τ (Except ε) α) (n : StateT σ (Except ε) α) : Prop :=
  ∀ t, (m t).map (fun r => (r.1, view r.2)) = n (view t)

theorem erases_pure {a : α} : Erases view (pure a : StateT τ (Except ε) α) (pure a) := fun _ => rfl

theorem erases_throw {e : ε} : Erases view (throw e : StateT τ (Except ε) α) (throw e) :=
  fun _ => rfl

theorem erases_check {e : ε} : Erases view (check c e) (check c e) := fun t => by
  unfold check
  split <;> rfl

theorem Erases.bind (hm : Erases view m n) (hk : ∀ a, Erases view (k a) (l a)) :
    Erases view (m >>= k) (n >>= l) := fun t => by
  have h := hm t
  rcases hr : m t with e | ⟨a, t'⟩
  · rw [hr] at h
    rw [bind_of_error hr, bind_of_error h.symm]
    rfl
  · rw [hr] at h
    rw [bind_of_ok hr, bind_of_ok h.symm]
    exact hk a t'

/-- What only what is kept besides changes is erased. -/
theorem Erases.silent {g : τ → τ} (hg : ∀ t, view (g t) = view t)
    {k : PUnit → StateT τ (Except ε) β} {n : StateT σ (Except ε) β} (hk : Erases view (k ⟨⟩) n) :
    Erases view (modify g >>= k) n := fun t => by
  have h := hk (g t)
  rw [hg] at h
  exact h

theorem erases_ite (h : Erases view m n) (h' : Erases view m' n') :
    Erases view (if c then m else m') (if c then n else n') := by
  split
  · exact h
  · exact h'

end Erases

end Hoare

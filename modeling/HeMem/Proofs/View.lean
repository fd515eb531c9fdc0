import HeMem.Proofs.Fifo
import HeMem.Proofs.Ring
import HeMem.View

/-!
# Programs between views

`Spec m v Q E`: started in any well-formed state that looks like `v`, the program `m` returns
into a well-formed state, with `Q` of its result and of what that state looks like, or aborts,
with `E` of the reason.  A list operation changes the list of one page and nothing else, so from
here on lists are a function on pages.
-/

namespace HeMem

open Hoare Function

variable {α β : Type}

/-- The lists and the rings of a state are well formed. -/
structure State.Good (s : State) : Prop where
  fifo : s.fifo.Wf
  requests : ∀ hot, (s.requestRing hot).Wf
  free : s.freePageRing.Wf

def Spec (m : M α) (v : View) (Q : α → View → Prop) (E : Abort → Prop) : Prop :=
  ∀ s : State, s.Good → s.view = v → Sat m (fun a s' => s'.Good ∧ Q a s'.view) E s

section Rules

variable {m : M α} {f : α → M β} {k : M β} {v v' : View} {Q : α → View → Prop}
  {R : β → View → Prop} {E E' : Abort → Prop} {a : α} {c : Prop} [Decidable c] {e : Abort}

theorem spec_pure (h : Q a v) : Spec (pure a) v Q E := by
  rintro s hg rfl
  exact ⟨hg, h⟩

theorem spec_throw (h : E e) : Spec (throw e : M α) v Q E := fun _ _ _ => h

theorem Spec.at (h : Spec m v Q E) {s : State} (hg : s.Good) (hv : s.view = v) :
    Sat m (fun a s' => s'.Good ∧ Q a s'.view) E s := h s hg hv

theorem Spec.bind (h : Spec m v Q E) (hf : ∀ a v', Q a v' → Spec (f a) v' R E) :
    Spec (m >>= f) v R E :=
  fun s hg hv => (h s hg hv).bind fun a s' hq => hf a s'.view hq.2 s' hq.1 rfl

theorem Spec.mono {Q' : α → View → Prop} (h : Spec m v Q E) (hq : ∀ a v', Q a v' → Q' a v')
    (he : ∀ e, E e → E' e) : Spec m v Q' E' :=
  fun s hg hv => (h s hg hv).mono (fun a s' hs => ⟨hs.1, hq a s'.view hs.2⟩) he

theorem spec_last (h : Spec (m >>= Pure.pure) v Q E) : Spec m v Q E := by
  rwa [bind_pure] at h

theorem spec_get {f : State → M β} (h : ∀ s, s.Good → s.view = v → Spec (f s) v R E) :
    Spec (get >>= f) v R E :=
  fun s hg hv => sat_bind.2 (h s hg hv s hg hv)

theorem spec_modify {w : View} {g : State → State} {f : PUnit → M β}
    (hg : ∀ s, s.Good → s.view = v → (g s).Good ∧ (g s).view = w)
    (h : Spec (f ⟨⟩) w R E) : Spec (modify g >>= f) v R E :=
  fun s hs hv => sat_bind.2 (h (g s) (hg s hs hv).1 (hg s hs hv).2)

theorem spec_check {f : Unit → M β} (he : ¬ c → E e) (h : c → Spec (f ()) v R E) :
    Spec (Hoare.check c e >>= f) v R E :=
  fun s hg hv => sat_bind.2 (sat_check.2 ⟨fun hc => h hc s hg hv, he⟩)

theorem spec_ite {m' : M α} (h : c → Spec m v Q E) (h' : ¬ c → Spec m' v Q E) :
    Spec (if c then m else m') v Q E :=
  fun s hg hv => sat_ite.2 ⟨fun hc => h hc s hg hv, fun hc => h' hc s hg hv⟩

/-- A conditional change that cannot be seen from above. -/
theorem spec_hidden {g : State → State} (hg : ∀ s, s.Good → (g s).Good ∧ (g s).view = s.view)
    (h : Spec k v R E) : Spec (if c then modify g >>= fun _ => k else k) v R E :=
  spec_ite (fun _ => spec_modify (fun s hs hv => hv ▸ hg s hs) h) fun _ => h

theorem spec_getPage {p : PageId} {f : HememPage → M β} (h : Spec (f (v.page p)) v R E) :
    Spec (getPage p >>= f) v R E := by
  rintro s hg rfl
  exact sat_bind.2 (h s hg rfl)

theorem spec_getList {p : PageId} {f : Option ListId → M β} (h : Spec (f (v.list p)) v R E) :
    Spec (getList p >>= f) v R E := by
  rintro s hg rfl
  exact sat_bind.2 (h s hg rfl)

theorem spec_modifyPage {p : PageId} {g : HememPage → HememPage} {f : Unit → M β}
    (h : Spec (f ()) (v.edit p g) R E) : Spec (modifyPage p g >>= f) v R E := by
  rintro s hg rfl
  exact sat_bind.2 (h _ ⟨hg.fifo, hg.requests, hg.free⟩ rfl)

theorem spec_onKernel {g : Kernel → Kernel} {f : Unit → M β}
    (h : Spec (f ()) { v with kernel := g v.kernel } R E) : Spec (onKernel g >>= f) v R E := by
  rintro s hg rfl
  exact sat_bind.2 (h _ ⟨hg.fifo, hg.requests, hg.free⟩ rfl)

end Rules

section Lists

variable {v : View} {p : PageId} {q : ListId} {R : β → View → Prop} {E : Abort → Prop}

theorem sat_onFifo {m : FifoM ListId PageId α} {s : State} {a : α} {h : Heap ListId PageId}
    {Q : α → State → Prop} (hm : m s.fifo = .ok (a, h)) :
    Sat (onFifo m) Q E s ↔ Q a { s with fifo := h } := by
  apply sat_of_ok
  unfold onFifo
  rw [hm]

theorem sat_getPage {f : HememPage → M β} {s : State} {Q : β → State → Prop} {E : Abort → Prop} :
    Sat (getPage p >>= f) Q E s ↔ Sat (f (s.page p)) Q E s := Iff.rfl

theorem sat_modifyPage {g : HememPage → HememPage} {f : Unit → M β} {s : State}
    {Q : β → State → Prop} {E : Abort → Prop} : Sat (modifyPage p g >>= f) Q E s ↔
      Sat (f ()) Q E { s with page := update s.page p (g (s.page p)) } := Iff.rfl

/-- A list operation changes the links and nothing else. -/
theorem onFifo_frame {m : FifoM ListId PageId α} {s : State} : Sat (onFifo m)
    (fun _ s' => ∃ h, s' = { s with fifo := h }) (fun _ => True) s := by
  rcases hm : m s.fifo with e | ⟨r, h⟩
  · have he : onFifo m s = .error (.fifo e) := by
      unfold onFifo
      rw [hm]
    exact (sat_of_error he).2 trivial
  · exact (sat_onFifo hm).2 ⟨h, rfl⟩

theorem frames_onFifo {γ : Type} {f : State → γ} {m : FifoM ListId PageId α}
    (hf : ∀ s h, f { s with fifo := h } = f s) : Frames f (onFifo m) :=
  fun s => onFifo_frame.post fun _ _ ⟨h, hs⟩ => hs ▸ hf s h

theorem spec_enqueue {f : Unit → M β} (hp : v.list p = none) (h : Spec (f ()) (v.put q p) R E) :
    Spec (onFifo (enqueueFifo q p) >>= f) v R E := by
  rintro s hg rfl
  obtain ⟨h', he, hw, hl⟩ := hg.fifo.enqueue (q := q) hp
  rw [sat_bind, sat_onFifo he]
  refine h _ ⟨hw, hg.requests, hg.free⟩ ?_
  exact congrArg (fun l => { s.view with list := l }) hl

/-- Which page a list gives away is not visible from above. -/
theorem spec_dequeue {f : Option PageId → M β}
    (hn : (∀ p, v.list p ≠ some q) → Spec (f none) v R E)
    (hs : ∀ p, v.list p = some q → Spec (f (some p)) (v.off p) R E) :
    Spec (onFifo (dequeueFifo q) >>= f) v R E := by
  rintro s hg rfl
  rcases hg.fifo.dequeue q with ⟨he, -, hl⟩ | ⟨p, h', he, hw, -, hp, hl, -⟩
  · rw [sat_bind, sat_onFifo he]
    exact hn hl s hg rfl
  · rw [sat_bind, sat_onFifo he]
    refine hs p hp _ ⟨hw, hg.requests, hg.free⟩ ?_
    exact congrArg (fun l => { s.view with list := l }) hl

theorem spec_remove {f : Unit → M β} (hp : v.list p = some q) (h : Spec (f ()) (v.off p) R E) :
    Spec (onFifo (pageListRemovePage q p) >>= f) v R E := by
  rintro s hg rfl
  obtain ⟨h', he, hw, hl⟩ := hg.fifo.remove hp
  rw [sat_bind, sat_onFifo he]
  refine h _ ⟨hw, hg.requests, hg.free⟩ ?_
  exact congrArg (fun l => { s.view with list := l }) hl

theorem spec_nextPage {c : Option PageId} {f : Option PageId → M β}
    (hc : ∀ p, c = some p → v.list p = some q)
    (h : ∀ r, (∀ y, r = some y → v.list y = some q ∧ c ≠ some y) → Spec (f r) v R E) :
    Spec (onFifo (nextPage q c) >>= f) v R E := by
  rintro s hg rfl
  obtain ⟨r, he, hr⟩ := hg.fifo.nextPage hc
  rw [sat_bind, sat_onFifo he]
  exact h r hr s hg rfl

/-- `next_page` from a page of another list fails its assertion. -/
theorem spec_nextPage_error {f : Option PageId → M β} (hp : v.list p ≠ some q)
    (h : E (.fifo .nextList)) : Spec (onFifo (HeMem.nextPage q (some p)) >>= f) v R E := by
  rintro s hg rfl
  have he : onFifo (HeMem.nextPage q (some p)) s = .error (.fifo .nextList) := by
    have hs : Sat (HeMem.nextPage q (some p)) (fun _ _ => False) (· = .nextList) s.fifo := by
      unfold HeMem.nextPage
      simp only [sat_bind, sat_get, sat_check]
      exact ⟨fun hl => hp hl, fun _ => trivial⟩
    unfold onFifo
    rcases hm : HeMem.nextPage q (some p) s.fifo with e | ⟨a, h'⟩
    · rw [hs.error hm]
    · exact (hs.ok hm).elim
  rw [sat_bind, sat_of_error he]
  exact h

end Lists

end HeMem

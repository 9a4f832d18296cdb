import Mathlib.Init

/-!
# Triples for stateful code that can stop

Code with a state and early exits is a program of `EStateM`. `Triple P x Q E` says that from every state
in `P` the program either returns `a` in a state of `Q a` or stops with `e` in a state of `E e`; the
state is kept when it stops.
-/

namespace Hoare

variable {ε σ α β : Type}
variable {a : α} {c : Prop} {ι : Type} {s t : σ}
variable {x y : EStateM ε σ α} {f : α → EStateM ε σ β}

/-- What a run of a program left behind. -/
def Outcome (Q : α → σ → Prop) (E : ε → σ → Prop) : EStateM.Result ε σ α → Prop
  | .ok a t => Q a t
  | .error e t => E e t

/-- What a program returns from a given state is found by evaluation. -/
instance decidableOkAnd [DecidableEq α] {P : σ → Prop} [DecidablePred P] (x : EStateM ε σ α) (s : σ) (a : α) :
    Decidable (∃ t, x s = .ok a t ∧ P t) :=
  match x s with
  | .ok b t => decidable_of_iff (b = a ∧ P t) (by simp [and_assoc])
  | .error _ _ => isFalse (by simp)

instance decidableOk [DecidableEq α] (x : EStateM ε σ α) (s : σ) (a : α) : Decidable (∃ t, x s = .ok a t) :=
  decidable_of_iff (∃ t, x s = .ok a t ∧ True) (by simp only [and_true])

instance decidableError [DecidableEq ε] (x : EStateM ε σ α) (s : σ) (e : ε) : Decidable (∃ t, x s = .error e t) :=
  match x s with
  | .ok _ _ => isFalse (by simp)
  | .error e' _ => decidable_of_iff (e' = e) (by simp)

def Triple (P : σ → Prop) (x : EStateM ε σ α) (Q : α → σ → Prop) (E : ε → σ → Prop) : Prop :=
  ∀ s, P s → Outcome Q E (x s)

variable {P P' : σ → Prop} {Q Q' : α → σ → Prop} {R : β → σ → Prop} {E E' : ε → σ → Prop}

theorem bind_of_ok (h : x s = .ok a t) : (x >>= f) s = f a t := by
  change EStateM.bind x f s = f a t
  rw [EStateM.bind, h]

theorem bind_of_error {e : ε} (h : x s = .error e t) : (x >>= f) s = .error e t := by
  change EStateM.bind x f s = .error e t
  rw [EStateM.bind, h]

theorem Triple.bind (hx : Triple P x Q E) (hf : ∀ a, Triple (Q a) (f a) R E) : Triple P (x >>= f) R E := by
  intro s hs
  have h := hx s hs
  cases hr : x s with
  | ok a t =>
    rw [hr] at h
    rw [bind_of_ok hr]
    exact hf a t h
  | error e t =>
    rw [hr] at h
    rw [bind_of_error hr]
    exact h

theorem Triple.pure (h : ∀ s, P s → Q a s) : Triple P (Pure.pure a) Q E := fun s hs => h s hs

theorem Triple.of_ok (h : Triple P x Q E) (hs : P s) (hx : x s = .ok a t) : Q a t := by
  have hr := h s hs
  rwa [hx] at hr

theorem Triple.exists_ok (h : Triple P x Q E) (hs : P s) (hE : ∀ e t, ¬ E e t) :
    ∃ a t, x s = .ok a t ∧ Q a t := by
  have hr := h s hs
  cases hx : x s with
  | ok a t => rw [hx] at hr; exact ⟨a, t, rfl, hr⟩
  | error e t => rw [hx] at hr; exact absurd hr (hE e t)

theorem Triple.any : Triple P x (fun _ _ => True) fun _ _ => True := fun s _ => by
  cases x s <;> trivial

theorem Triple.unreachable : Triple (fun _ => False) x Q E := fun _ hs => hs.elim

theorem Triple.exists {P : ι → σ → Prop} (h : ∀ c, Triple (P c) x Q E) : Triple (fun s => ∃ c, P c s) x Q E :=
  fun s ⟨c, hc⟩ => h c s hc

theorem Triple.of_fact {φ : Prop} (h : φ → Triple P x Q E) :
    Triple (fun s => φ ∧ P s) x Q E := fun s hs => h hs.1 s hs.2

theorem Triple.bind_fact {φ : α → Prop} (hx : Triple P x (fun a s => φ a ∧ Q a s) E)
    (hf : ∀ a, φ a → Triple (Q a) (f a) R E) : Triple P (x >>= f) R E := hx.bind fun a => .of_fact (hf a)

theorem Triple.bind_exists {φ : α → ι → Prop} {Q : α → ι → σ → Prop}
    (hx : Triple P x (fun a s => ∃ c, φ a c ∧ Q a c s) E) (hf : ∀ a c, φ a c → Triple (Q a c) (f a) R E) :
    Triple P (x >>= f) R E := hx.bind fun a => .exists fun c => .of_fact (hf a c)

theorem Triple.bind_exists₂ {κ : Type} {φ : α → ι → κ → Prop} {Q : α → ι → κ → σ → Prop}
    (hx : Triple P x (fun a s => ∃ c d, φ a c d ∧ Q a c d s) E)
    (hf : ∀ a c d, φ a c d → Triple (Q a c d) (f a) R E) : Triple P (x >>= f) R E :=
  hx.bind fun a => .exists fun c => .exists fun d => .of_fact (hf a c d)

theorem Triple.read (hx : Triple P x (fun b s => b = a ∧ P s) E) (hf : Triple P (f a) R E) :
    Triple P (x >>= f) R E := hx.bind_fact fun _ hb => hb ▸ hf

theorem Triple.imp (h : Triple P x Q E) (hP : ∀ s, P' s → P s)
    (hQ : ∀ a s, Q a s → Q' a s) (hE : ∀ e s, E e s → E' e s) : Triple P' x Q' E' := by
  intro s hs
  have hr := h s (hP s hs)
  cases hx : x s with
  | ok a t => rw [hx] at hr; exact hQ a t hr
  | error e t => rw [hx] at hr; exact hE e t hr

theorem Triple.pre (h : Triple P x Q E) (hP : ∀ s, P' s → P s) : Triple P' x Q E := fun s hs => h s (hP s hs)

theorem Triple.post (h : Triple P x Q E) (hQ : ∀ a s, Q a s → Q' a s) : Triple P x Q' E :=
  h.imp (fun _ hs => hs) hQ fun _ _ he => he

theorem Triple.err (h : Triple P x Q E) (hE : ∀ e s, E e s → E' e s) : Triple P x Q E' :=
  h.imp (fun _ hs => hs) (fun _ _ hs => hs) hE

theorem Triple.and (h : Triple P x Q E) (h' : Triple P' x Q' E') :
    Triple (fun s => P s ∧ P' s) x (fun a s => Q a s ∧ Q' a s) fun e s => E e s ∧ E' e s := by
  intro s hs
  have hr := h s hs.1
  have hr' := h' s hs.2
  cases hx : x s with
  | ok a t => rw [hx] at hr hr'; exact ⟨hr, hr'⟩
  | error e t => rw [hx] at hr hr'; exact ⟨hr, hr'⟩

theorem Triple.or (h : Triple P x Q E) (h' : Triple P' x Q E) :
    Triple (fun s => P s ∨ P' s) x Q E := fun s hs => hs.elim (h s) (h' s)

theorem Triple.ite [Decidable c] (hx : c → Triple P x Q E) (hy : ¬ c → Triple P y Q E) :
    Triple P (if c then x else y) Q E := by
  by_cases h : c
  · rw [if_pos h]; exact hx h
  · rw [if_neg h]; exact hy h

/-- Where `x` returns, `y` does the same. -/
def Agrees (x y : EStateM ε σ α) : Prop := ∀ s a t, x s = .ok a t → y s = .ok a t

theorem Agrees.refl (x : EStateM ε σ α) : Agrees x x := fun _ _ _ h => h

theorem Agrees.bind {g : α → EStateM ε σ β} (hx : Agrees x y) (hf : ∀ a, Agrees (f a) (g a)) :
    Agrees (x >>= f) (y >>= g) := by
  intro s b t h
  cases hr : x s with
  | ok a u =>
    rw [bind_of_ok hr] at h
    rw [bind_of_ok (hx s a u hr)]
    exact hf a u b t h
  | error e u =>
    simp [bind_of_error hr] at h

theorem Agrees.ite [Decidable c] {x' y' : EStateM ε σ α} (hx : c → Agrees x x') (hy : ¬ c → Agrees y y') :
    Agrees (if c then x else y) (if c then x' else y') := by
  by_cases h : c
  · rw [if_pos h, if_pos h]; exact hx h
  · rw [if_neg h, if_neg h]; exact hy h

theorem Triple.of_agrees (h : Agrees x y) (hx : Triple P x Q fun _ _ => False) : Triple P y Q E := by
  intro s hs
  obtain ⟨a, t, ht, hq⟩ := hx.exists_ok hs fun _ _ hf => hf
  rw [h s a t ht]
  exact hq

/-- `for (i = a; i < a + k; i++) body(i)`. -/
def loop (body : Nat → EStateM ε σ Unit) : Nat → Nat → EStateM ε σ Unit
  | _, 0 => Pure.pure ()
  | i, k + 1 => body i >>= fun _ => loop body (i + 1) k

theorem Triple.loop {I : Nat → σ → Prop} {body : Nat → EStateM ε σ Unit} (k : Nat) :
    ∀ i, (∀ j, i ≤ j → j < i + k → Triple (I j) (body j) (fun _ => I (j + 1)) E) →
      Triple (I i) (loop body i k) (fun _ => I (i + k)) E := by
  induction k with
  | zero => intro i _ s hs; exact hs
  | succ k ih =>
    intro i hbody
    refine Triple.bind (hbody i (Nat.le_refl i) (by omega)) fun _ => ?_
    have hrest := ih (i + 1) fun j hj hj' => hbody j (by omega) (by omega)
    rwa [show i + 1 + k = i + (k + 1) by omega] at hrest

/-- Whether it returns or stops, the program keeps `I`. -/
def Keeps (I : σ → Prop) (x : EStateM ε σ α) : Prop := Triple I x (fun _ => I) fun _ => I

theorem Keeps.bind {I : σ → Prop} (hx : Keeps I x) (hf : ∀ a, Keeps I (f a)) : Keeps I (x >>= f) := Triple.bind hx hf

theorem Keeps.loop {I : σ → Prop} {body : Nat → EStateM ε σ Unit} (h : ∀ j, Keeps I (body j)) (i k : Nat) :
    Keeps I (loop body i k) := Triple.loop k i fun j _ _ => h j

end Hoare

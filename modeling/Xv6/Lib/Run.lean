import Mathlib.Algebra.GroupWithZero.Nat
import Mathlib.Data.List.Induction
import Mathlib.Tactic.SplitIfs

/-!
# Runs of a guarded step function

A machine is a partial step function `step : σ → ε → Option σ`; an event that is not enabled steps to
`none`. `Run step ok s es t` says that the events `es` lead from `s` to `t` and that each of them met
the side condition `ok` in the state it was taken in. Runs grow at the end, so an invariant may speak
of the events taken so far.
-/

namespace Machine

variable {σ ε : Type*}

/-- The events `es` lead from `s` to the last state, each taken where `ok` allows it. -/
inductive Run (step : σ → ε → Option σ) (ok : σ → ε → Prop) (s : σ) : List ε → σ → Prop
  | nil : Run step ok s [] s
  | snoc {es : List ε} {t u : σ} {e : ε} :
      Run step ok s es t → ok t e → step t e = some u → Run step ok s (es ++ [e]) u

/-- No side condition. -/
def any (_ : σ) (_ : ε) : Prop := True

instance (s : σ) (e : ε) : Decidable (any s e) := inferInstanceAs (Decidable True)

-- the processes of concrete runs are numbered
instance neZero_two : NeZero 2 := ⟨by decide⟩
instance neZero_three : NeZero 3 := ⟨by decide⟩
instance neZero_four : NeZero 4 := ⟨by decide⟩

namespace Run

variable {step : σ → ε → Option σ} {ok ok' : σ → ε → Prop} {s t u : σ} {es es' : List ε} {e : ε}

theorem inv {I : List ε → σ → Prop} (h : Run step ok s es t) (h0 : I [] s)
    (hstep : ∀ es t e u, Run step ok s es t → I es t → ok t e → step t e = some u → I (es ++ [e]) u) :
    I es t := by
  induction h with
  | nil => exact h0
  | snoc hrun hok hs ih => exact hstep _ _ _ _ hrun ih hok hs

theorem mono (himp : ∀ t e, ok t e → ok' t e) (h : Run step ok s es t) : Run step ok' s es t := by
  induction h with
  | nil => exact .nil
  | snoc _ hok hs ih => exact .snoc ih (himp _ _ hok) hs

theorem strengthen {I : σ → Prop} (h : Run step ok s es t) (h0 : I s) (hok : ∀ t e, I t → ok t e → ok' t e)
    (hstep : ∀ t e u, I t → ok' t e → step t e = some u → I u) : Run step ok' s es t ∧ I t := by
  induction h with
  | nil => exact ⟨.nil, h0⟩
  | snoc _ he hs ih => exact ⟨.snoc ih.1 (hok _ _ ih.2 he) hs, hstep _ _ _ ih.2 (hok _ _ ih.2 he) hs⟩

theorem append (h : Run step ok s es t) (h' : Run step ok t es' u) : Run step ok s (es ++ es') u := by
  induction h' with
  | nil => rwa [List.append_nil]
  | snoc _ hok hs ih =>
    rw [← List.append_assoc]
    exact .snoc ih hok hs

theorem snoc_inv (h : Run step ok s (es ++ [e]) u) :
    ∃ t, Run step ok s es t ∧ ok t e ∧ step t e = some u := by
  generalize hes : es ++ [e] = fs at h
  cases h with
  | nil => simp at hes
  | snoc hrun hok hs =>
    obtain ⟨rfl, he⟩ := List.append_inj' hes rfl
    obtain rfl : e = _ := by simpa using he
    exact ⟨_, hrun, hok, hs⟩

theorem split (h : Run step ok s (es ++ es') u) : ∃ t, Run step ok s es t ∧ Run step ok t es' u := by
  induction es' using List.reverseRecOn generalizing u with
  | nil => exact ⟨u, by rwa [List.append_nil] at h, .nil⟩
  | append_singleton es' e ih =>
    rw [← List.append_assoc] at h
    obtain ⟨v, hv, hok, hs⟩ := snoc_inv h
    obtain ⟨t, ht, hrest⟩ := ih hv
    exact ⟨t, ht, .snoc hrest hok hs⟩

theorem cons (hok : ok s e) (hs : step s e = some t) (h : Run step ok t es u) :
    Run step ok s (e :: es) u := by
  have h1 : Run step ok s ([] ++ [e]) t := .snoc .nil hok hs
  exact h1.append h

end Run

theorem snoc_split {α : Type*} {A C h : List α} {x y : α} (e : h ++ [x] = A ++ y :: C) :
    (C = [] ∧ A = h ∧ y = x) ∨ ∃ C', C = C' ++ [x] ∧ h = A ++ y :: C' := by
  rcases List.eq_nil_or_concat C with rfl | ⟨C', z, rfl⟩
  · obtain ⟨hA, hy⟩ := List.append_inj' e rfl
    exact .inl ⟨rfl, hA.symm, by simpa using hy.symm⟩
  · rw [List.concat_eq_append] at e ⊢
    rw [← List.cons_append, ← List.append_assoc] at e
    obtain ⟨hA, hz⟩ := List.append_inj' e rfl
    obtain rfl : x = z := by simpa using hz
    exact .inr ⟨C', rfl, hA⟩

/-- Run a list of events, stopping with `none` at the first that is not enabled or not allowed. -/
def exec (step : σ → ε → Option σ) (ok : σ → ε → Prop) [∀ s e, Decidable (ok s e)] : σ → List ε → Option σ
  | s, [] => some s
  | s, e :: es => if ok s e then (step s e).bind fun t => exec step ok t es else none

section Exec

variable {step : σ → ε → Option σ} {ok : σ → ε → Prop} [∀ s e, Decidable (ok s e)] {s t : σ} {es : List ε}

theorem run_of_exec (h : exec step ok s es = some t) : Run step ok s es t := by
  induction es generalizing s with
  | nil =>
    obtain rfl : s = t := by simpa [exec] using h
    exact .nil
  | cons e es ih =>
    rw [exec] at h
    split_ifs at h with hok
    obtain ⟨u, hu, hrest⟩ := Option.bind_eq_some_iff.mp h
    exact Run.cons hok hu (ih hrest)

theorem exec_append (es' : List ε) :
    exec step ok s (es ++ es') = (exec step ok s es).bind fun t => exec step ok t es' := by
  induction es generalizing s with
  | nil => rfl
  | cons e es ih =>
    by_cases hok : ok s e
    · simp [exec, hok, ih, Option.bind_assoc]
    · simp [exec, hok]

theorem exec_of_run (h : Run step ok s es t) : exec step ok s es = some t := by
  induction h with
  | nil => rfl
  | snoc _ hok hs ih => simp [exec_append, ih, exec, hok, hs]

/-- A run on given events is found by evaluation. -/
instance decidableRunAnd {P : σ → Prop} [DecidablePred P] : Decidable (∃ t, Run step ok s es t ∧ P t) :=
  decidable_of_iff ((exec step ok s es).any (fun t => decide (P t)) = true) <| by
    simp only [Option.any_eq_true, decide_eq_true_eq]
    exact ⟨fun ⟨t, ht, hp⟩ => ⟨t, run_of_exec ht, hp⟩, fun ⟨t, ht, hp⟩ => ⟨t, exec_of_run ht, hp⟩⟩

instance decidableRun : Decidable (∃ t, Run step ok s es t) :=
  decidable_of_iff (∃ t, Run step ok s es t ∧ True) (by simp only [and_true])

end Exec

/-! ## One process moves -/

section Move

variable {P ι : Type*} [DecidableEq P] {f : P → ι} {p q : P} {x y : ι}

theorem of_update (h : Function.update f p x q = y) (hx : x ≠ y) : q ≠ p ∧ f q = y := by
  by_cases hq : q = p
  · rw [hq, Function.update_self] at h
    exact absurd h hx
  · rw [Function.update_of_ne hq] at h
    exact ⟨hq, h⟩

theorem update_of (hp : f p ≠ y) (h : f q = y) : Function.update f p x q = y := by
  have hq : q ≠ p := fun hq => hp (hq ▸ h)
  rw [Function.update_of_ne hq, h]

end Move

end Machine

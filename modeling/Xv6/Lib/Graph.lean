import Mathlib.Data.Set.Card
import Mathlib.Logic.Relation

/-!
# References that come and go

`count R i` is the number of sources that refer to `i`, for a relation `R` between sources and what they
refer to. Adding or dropping one reference changes one count by one. What is reached along references stays reached when
those of what is reached stay.
-/

namespace Graph

variable {ε ι : Type*} {R R' : ε → ι → Prop} {i j : ι} {e : ε}

/-- How many sources refer to `i`. -/
noncomputable def count (R : ε → ι → Prop) (i : ι) : ℕ := {e | R e i}.ncard

/-- Only finitely many sources refer to anything. -/
def Finite (R : ε → ι → Prop) : Prop := ∀ i, {e | R e i}.Finite

theorem count_congr (h : ∀ e, R e i ↔ R' e i) : count R i = count R' i := by
  unfold count
  congr 1
  exact Set.ext h

theorem count_pos (hfin : Finite R) (h : R e i) : 0 < count R i := (Set.ncard_pos (hfin i)).mpr ⟨e, h⟩

theorem exists_of_count_pos (h : 0 < count R i) : ∃ e, R e i := Set.nonempty_of_ncard_ne_zero (Nat.pos_iff_ne_zero.mp h)

theorem not_of_count_eq_zero (hfin : Finite R) (h : count R i = 0) : ¬ R e i := fun he => by
  have := count_pos hfin he
  omega

theorem count_eq_zero (h : ∀ e, ¬ R e i) : count R i = 0 := by
  unfold count
  rw [Set.eq_empty_of_forall_notMem h]
  exact Set.ncard_empty _

theorem count_mono (hfin : Finite R') (h : ∀ e, R e i → R' e i) : count R i ≤ count R' i :=
  Set.ncard_le_ncard h (hfin i)

theorem count_le_one (h : ∀ e', R e' i → e' = e) : count R i ≤ 1 :=
  (Set.ncard_le_ncard h (Set.finite_singleton e)).trans_eq (Set.ncard_singleton e)

theorem one_lt_count {e' : ε} (hfin : Finite R) (h : R e i) (h' : R e' i) (hne : e ≠ e') : 1 < count R i :=
  (Set.one_lt_ncard (hfin i)).mpr ⟨e, h, e', h', hne⟩

theorem count_add [DecidableEq ι] (hfin : Finite R) (hnew : ¬ R e j)
    (h : ∀ e' i, R' e' i ↔ R e' i ∨ e' = e ∧ i = j) : count R' i = count R i + if i = j then 1 else 0 := by
  by_cases hij : i = j
  · subst hij
    rw [if_pos rfl]
    unfold count
    have hset : {e' | R' e' i} = insert e {e' | R e' i} := by
      ext e'
      simp only [h, and_true, Set.mem_ofPred_eq, Set.mem_insert_iff]
      exact Or.comm
    have hmem : e ∉ {e' | R e' i} := hnew
    rw [hset, Set.ncard_insert_of_notMem hmem (hfin i)]
  · rw [if_neg hij]
    refine count_congr fun e' => ?_
    simp [h, hij]

theorem Finite.mono (hfin : Finite R) (h : ∀ e i, R' e i → R e i) : Finite R' := fun i =>
  (hfin i).subset fun e he => h e i he

/-! ## Reachability -/

variable {T T' : ι → ι → Prop} {r : ι}

theorem reach_of_edges (h : ∀ a b, Relation.ReflTransGen T r a → T a b → T' a b) (hi : Relation.ReflTransGen T r i) :
    Relation.ReflTransGen T' r i := by
  induction hi with
  | refl => exact .refl
  | tail hab hbc ih => exact ih.tail (h _ _ hab hbc)

end Graph

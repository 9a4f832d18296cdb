import Mathlib.Algebra.BigOperators.Ring.Finset
import Mathlib.Data.Fintype.Basic

/-!
# Sums over all processes when one of them moves

The counters of a system of processes are sums over all processes of something read off their local
states. A step changes what is read off at most one of them.
-/

namespace Machine

variable {P ι : Type*} [Fintype P]
variable {f : P → ι} {c : ι → Bool}

theorem sum_move [DecidableEq P] {f g : P → Nat} (p : P) (h : ∀ q, q ≠ p → g q = f q) :
    (∑ q, g q) + f p = (∑ q, f q) + g p := by
  have hp : p ∈ (Finset.univ : Finset P) := Finset.mem_univ p
  rw [← Finset.add_sum_erase _ g hp, ← Finset.add_sum_erase _ f hp]
  have hrest : ∑ q ∈ Finset.univ.erase p, g q = ∑ q ∈ Finset.univ.erase p, f q :=
    Finset.sum_congr rfl fun q hq => h q (Finset.ne_of_mem_erase hq)
  omega

/-- The number of processes in states that satisfy `c`. -/
def count (c : ι → Bool) (f : P → ι) : Nat := (Finset.univ.filter fun p => c (f p) = true).card

theorem count_eq_sum (c : ι → Bool) (f : P → ι) : count c f = ∑ p, (c (f p)).toNat := by
  rw [count, Finset.card_filter]
  exact Finset.sum_congr rfl fun p _ => by cases c (f p) <;> rfl

theorem count_move [DecidableEq P] {g : P → ι} (p : P) (h : ∀ q, q ≠ p → c (g q) = c (f q)) :
    count c g + (c (f p)).toNat = count c f + (c (g p)).toNat := by
  rw [count_eq_sum, count_eq_sum]
  exact sum_move p fun q hq => congrArg Bool.toNat (h q hq)

theorem count_le (c : ι → Bool) (f : P → ι) : count c f ≤ Fintype.card P := Finset.card_le_univ _

theorem count_pos {p : P} (h : c (f p) = true) : 0 < count c f :=
  Finset.card_pos.mpr ⟨p, Finset.mem_filter.mpr ⟨Finset.mem_univ p, h⟩⟩

theorem count_eq_zero : count c f = 0 ↔ ∀ p, c (f p) = false := by
  rw [count, Finset.card_eq_zero, Finset.filter_eq_empty_iff]
  simp

end Machine

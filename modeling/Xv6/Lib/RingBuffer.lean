import Mathlib.Data.Nat.ModEq
import Mathlib.Logic.Function.Basic

/-!
# A ring with counters that wrap

A queue in `n` cells with two counters of `w` bits, which count what was put in and what was taken out and are
reduced modulo `n` to find a cell. The counters wrap, but as `n` divides `2 ^ w` and is less than it, the cells and
the tests for full and empty are the right ones after any number of operations.
-/

structure RingBuffer (α : Type*) (n w : Nat) where
  cells : Nat → α
  head : BitVec w
  tail : BitVec w

namespace RingBuffer

variable {α : Type*} {n w k : Nat} {r : RingBuffer α n w} {q : List α} {a : α}

def push (r : RingBuffer α n w) (a : α) : RingBuffer α n w :=
  { r with cells := Function.update r.cells (r.tail.toNat % n) a, tail := r.tail + 1 }

def front (r : RingBuffer α n w) : α := r.cells (r.head.toNat % n)

def pop (r : RingBuffer α n w) : RingBuffer α n w := { r with head := r.head + 1 }

/-- Take the last element back. -/
def unpush (r : RingBuffer α n w) : RingBuffer α n w := { r with tail := r.tail - 1 }

/-- After `k` elements have been taken out, the ring holds `q`. -/
structure Holds (r : RingBuffer α n w) (k : Nat) (q : List α) : Prop where
  head : r.head = BitVec.ofNat w k
  tail : r.tail = BitVec.ofNat w (k + q.length)
  bound : q.length ≤ n
  cells : ∀ i (h : i < q.length), r.cells ((k + i) % n) = q[i]

theorem ofNat_add_one (m : Nat) : BitVec.ofNat w m + 1 = BitVec.ofNat w (m + 1) := by
  rw [BitVec.ofNat_add]
  rfl

theorem toNat_mod (hn : n ∣ 2 ^ w) (m : Nat) : (BitVec.ofNat w m).toNat % n = m % n := by
  rw [BitVec.toNat_ofNat, Nat.mod_mod_of_dvd _ hn]

theorem mod_ne {i j : Nat} (hij : i < j) (hj : j < n) : (k + i) % n ≠ (k + j) % n := by
  intro h
  have hdvd := (Nat.modEq_iff_dvd' (by omega)).mp (show k + i ≡ k + j [MOD n] from h)
  have hle := Nat.le_of_dvd (by omega) hdvd
  omega

theorem ofNat_add_eq_iff {i j : Nat} (hi : i < 2 ^ w) (hj : j < 2 ^ w) :
    BitVec.ofNat w (k + i) = BitVec.ofNat w (k + j) ↔ i = j := by
  rw [BitVec.ofNat_add, BitVec.ofNat_add]
  constructor
  · intro h
    have h' := congrArg BitVec.toNat ((BitVec.add_right_inj _).mp h)
    rwa [BitVec.toNat_ofNat, BitVec.toNat_ofNat, Nat.mod_eq_of_lt hi, Nat.mod_eq_of_lt hj] at h'
  · rintro rfl
    rfl

namespace Holds

variable (h : r.Holds k q)

include h

theorem empty_iff (hn : n < 2 ^ w) : r.head = r.tail ↔ q = [] := by
  have hb := h.bound
  have hiff := ofNat_add_eq_iff (k := k) (show 0 < 2 ^ w by omega) (show q.length < 2 ^ w by omega)
  rw [h.head, h.tail, ← List.length_eq_zero_iff, eq_comm (a := q.length)]
  exact hiff

theorem full_iff (hn : n < 2 ^ w) : r.tail = r.head + BitVec.ofNat w n ↔ q.length = n := by
  have hb := h.bound
  rw [h.head, h.tail, ← BitVec.ofNat_add, ofNat_add_eq_iff (by omega) hn]

theorem toNat_sub (hn : n < 2 ^ w) : (r.tail - r.head).toNat = q.length := by
  have hb := h.bound
  have heq : r.tail = r.head + BitVec.ofNat w q.length := by rw [h.head, h.tail, BitVec.ofNat_add]
  rw [heq, BitVec.add_comm, BitVec.add_sub_cancel, BitVec.toNat_ofNat, Nat.mod_eq_of_lt (by omega)]

theorem push (hn : n ∣ 2 ^ w) (hlt : q.length < n) : (r.push a).Holds k (q ++ [a]) where
  head := h.head
  tail := by
    rw [List.length_append, ← Nat.add_assoc]
    exact (congrArg (· + 1) h.tail).trans (ofNat_add_one _)
  bound := by
    rw [List.length_append]
    exact hlt
  cells i hi := by
    show Function.update r.cells _ a _ = _
    rw [h.tail, toNat_mod hn]
    rcases Nat.lt_or_ge i q.length with hi' | hi'
    · rw [Function.update_of_ne (mod_ne hi' hlt), List.getElem_append_left hi']
      exact h.cells i hi'
    · obtain rfl : i = q.length := by simp at hi; omega
      simp

theorem tail_sub_one (hne : q ≠ []) : r.tail - 1 = BitVec.ofNat w (k + (q.length - 1)) := by
  have hlen := List.length_pos_iff.mpr hne
  rw [h.tail, show k + q.length = k + (q.length - 1) + 1 by omega, ← ofNat_add_one]
  exact BitVec.add_sub_cancel ..

theorem unpush (hne : q ≠ []) : r.unpush.Holds k q.dropLast where
  head := h.head
  tail := by
    rw [List.length_dropLast]
    exact h.tail_sub_one hne
  bound := by
    have hb := h.bound
    rw [List.length_dropLast]
    omega
  cells i hi := by
    rw [List.getElem_dropLast]
    exact h.cells i _

theorem last (hn : n ∣ 2 ^ w) (hne : q ≠ []) : r.cells ((r.tail - 1).toNat % n) = q.getLast hne := by
  have hlen := List.length_pos_iff.mpr hne
  rw [h.tail_sub_one hne, toNat_mod hn, h.cells (q.length - 1) (by omega), List.getLast_eq_getElem]

omit h in
theorem front_pop (h : r.Holds k (a :: q)) (hn : n ∣ 2 ^ w) : r.front = a ∧ r.pop.Holds (k + 1) q := by
  refine ⟨?_, ?_, ?_, ?_, fun i hi => ?_⟩
  · rw [front, h.head, toNat_mod hn]
    exact h.cells 0 (by simp)
  · exact (congrArg (· + 1) h.head).trans (ofNat_add_one _)
  · have htail := h.tail
    rwa [List.length_cons, show k + (q.length + 1) = k + 1 + q.length by omega] at htail
  · have hb := h.bound
    simp at hb
    omega
  · have hc := h.cells (i + 1) (by simpa using hi)
    rwa [show k + (i + 1) = k + 1 + i by omega, List.getElem_cons_succ] at hc

end Holds

end RingBuffer

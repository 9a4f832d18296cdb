import Xv6.Param
import Mathlib.Data.List.Nodup
import Mathlib.Data.Finset.Basic

/-!
# `struct log` and the sections `log.c` runs under the log lock

The in-memory log of `kernel/log.c`. Only the first `lh.n` entries of `lh.block` are ever read, so the
header is the list of these entries and `lh.n` is its length. The functions here are the pieces of
`begin_op`, `log_write` and `end_op` that read or update the log in one go; what processes do between
them is in `Xv6.Log.Protocol` and `Xv6.Log.Kernel`.
-/

namespace Xv6

/-- `struct log` without its spin-lock; `lh` holds `lh.block[0 .. lh.n)`. -/
structure Log where
  start : Nat
  size : Nat
  dev : Nat
  outstanding : Int := 0
  committing : Bool := false
  lh : List Nat := []
  deriving DecidableEq, Repr

namespace Log

/-- `lh.n`. -/
def n (l : Log) : Nat := l.lh.length

/-- The second test of the loop in `begin_op`: this operation might exhaust log space. -/
def exhausted (l : Log) : Bool := (l.n : Int) + (l.outstanding + 1) * MAXOPBLOCKS > LOGSIZE

/-- The first test of `log_write`, made before the lock is taken. -/
def tooBig (l : Log) : Bool := l.n ≥ LOGSIZE || (l.n : Int) ≥ (l.size : Int) - 1

/-- The search of `log_write`: the first `i` with `lh.block[i] = b`, or `lh.n`. -/
def find (l : Log) (b : Nat) : Nat := l.lh.idxOf b

/-- The locked part of `log_write`: `lh.block[i] = b`, and `lh.n++` when the search ran off the end. -/
def record (l : Log) (b : Nat) : Log :=
  if l.find b = l.n then { l with lh := l.lh ++ [b] } else { l with lh := l.lh.set (l.find b) b }

/-- A block number belongs to the log area: the header block or one of the `size - 1` data blocks. -/
def area (l : Log) (b : Nat) : Prop := l.start ≤ b ∧ b < l.start + l.size

instance (l : Log) (b : Nat) : Decidable (l.area b) := inferInstanceAs (Decidable (_ ∧ _))

theorem find_eq_n {l : Log} {b : Nat} : l.find b = l.n ↔ b ∉ l.lh := by
  rw [find, n, List.idxOf_eq_length_iff]

theorem record_lh (l : Log) (b : Nat) : (l.record b).lh = if b ∈ l.lh then l.lh else l.lh ++ [b] := by
  by_cases hb : b ∈ l.lh
  · rw [record, if_neg (by rw [find_eq_n]; exact not_not.mpr hb), if_pos hb]
    have hlt : l.lh.idxOf b < l.lh.length := List.idxOf_lt_length_of_mem hb
    have hget : l.lh[l.lh.idxOf b] = b := List.getElem_idxOf hlt
    exact List.ext_getElem (by simp) fun i h1 h2 => by
      rw [List.getElem_set]
      split_ifs with hi
      · subst hi; exact hget.symm
      · rfl
  · rw [record, if_pos (find_eq_n.mpr hb), if_neg hb]

@[simp] theorem record_outstanding (l : Log) (b : Nat) : (l.record b).outstanding = l.outstanding := by
  unfold record; split_ifs <;> rfl

@[simp] theorem record_committing (l : Log) (b : Nat) : (l.record b).committing = l.committing := by
  unfold record; split_ifs <;> rfl

@[simp] theorem record_start (l : Log) (b : Nat) : (l.record b).start = l.start := by
  unfold record; split_ifs <;> rfl

@[simp] theorem record_size (l : Log) (b : Nat) : (l.record b).size = l.size := by
  unfold record; split_ifs <;> rfl

@[simp] theorem record_dev (l : Log) (b : Nat) : (l.record b).dev = l.dev := by
  unfold record; split_ifs <;> rfl

theorem mem_record {l : Log} {b c : Nat} : c ∈ (l.record b).lh ↔ c = b ∨ c ∈ l.lh := by
  rw [record_lh]
  split_ifs with hb
  · constructor
    · exact .inr
    · rintro (rfl | h)
      · exact hb
      · exact h
  · rw [List.mem_append, List.mem_singleton, or_comm]

theorem nodup_record {l : Log} {b : Nat} (h : l.lh.Nodup) : (l.record b).lh.Nodup := by
  rw [record_lh]
  split_ifs with hb
  · exact h
  · rw [← List.concat_eq_append]
    exact h.concat hb

theorem toFinset_record (l : Log) (b : Nat) : (l.record b).lh.toFinset = insert b l.lh.toFinset := by
  ext c
  rw [List.mem_toFinset, mem_record, Finset.mem_insert, List.mem_toFinset]

end Log

end Xv6

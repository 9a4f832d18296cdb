import Mathlib.Algebra.BigOperators.Group.Finset.Piecewise
import Mathlib.Data.List.Flatten

/-!
# Interleaved writes, in chunks

A sequence of chunks of data, each with the tag of its writer and the offset it was written at. The chunks
tile a range if each starts where the one before ends. What one writer wrote are the chunks with its tag, in
order.
-/

namespace Chunks

structure Chunk (ι α : Type) where
  tag : ι
  off : Nat
  data : List α

variable {ι α : Type}
variable {cs : List (Chunk ι α)} {c : Chunk ι α} {i : ι}

def data (cs : List (Chunk ι α)) : List α := cs.flatMap Chunk.data

@[simp] theorem data_nil : data ([] : List (Chunk ι α)) = [] := rfl

@[simp] theorem data_cons (c : Chunk ι α) (cs : List (Chunk ι α)) : data (c :: cs) = c.data ++ data cs :=
  List.flatMap_cons

theorem data_concat (cs : List (Chunk ι α)) (c : Chunk ι α) : data (cs ++ [c]) = data cs ++ c.data := by
  simp [data]

/-- Each chunk has at least one element and at most `max`, and starts where the one before ends; the first starts
at `a`. -/
def Tiles (max : Nat) : Nat → List (Chunk ι α) → Prop
  | _, [] => True
  | a, c :: cs => c.off = a ∧ 0 < c.data.length ∧ c.data.length ≤ max ∧ Tiles max (a + c.data.length) cs

theorem tiles_concat {max a : Nat} (h : Tiles max a cs)
    (hoff : c.off = a + (data cs).length) (hpos : 0 < c.data.length) (hmax : c.data.length ≤ max) :
    Tiles max a (cs ++ [c]) := by
  induction cs generalizing a with
  | nil => exact ⟨by simpa using hoff, hpos, hmax, trivial⟩
  | cons d ds ih =>
    obtain ⟨h1, h2, h3, h4⟩ := h
    refine ⟨h1, h2, h3, ih h4 ?_⟩
    rw [hoff, data_cons, List.length_append]
    omega

section Tags

variable [DecidableEq ι]

/-- What the writer with tag `i` wrote. -/
def of (i : ι) (cs : List (Chunk ι α)) : List α := data (cs.filter fun c => c.tag = i)

@[simp] theorem of_nil (i : ι) : of i ([] : List (Chunk ι α)) = [] := rfl

theorem of_concat_self (cs : List (Chunk ι α)) (h : c.tag = i) : of i (cs ++ [c]) = of i cs ++ c.data := by
  simp [of, data, h]

theorem of_concat_of_ne (cs : List (Chunk ι α)) (h : c.tag ≠ i) : of i (cs ++ [c]) = of i cs := by
  simp [of, h]

theorem of_eq_nil (h : ∀ c ∈ cs, c.tag ≠ i) : of i cs = [] := by
  rw [of, List.filter_eq_nil_iff.mpr fun c hc => by simpa using h c hc]
  rfl

theorem sum_length_of {S : Finset ι} (h : ∀ c ∈ cs, c.tag ∈ S) :
    ∑ i ∈ S, (of i cs).length = (data cs).length := by
  induction cs with
  | nil => simp
  | cons c cs ih =>
    have hcons : ∀ i, (of i (c :: cs)).length = (of i cs).length + if c.tag = i then c.data.length else 0 := by
      intro i
      by_cases hi : c.tag = i
      · simp [of, hi]
        omega
      · simp [of, hi]
    rw [Finset.sum_congr rfl fun i _ => hcons i, Finset.sum_add_distrib, ih fun d hd => h d (List.mem_cons_of_mem c hd),
      Finset.sum_ite_eq, if_pos (h c List.mem_cons_self), data_cons, List.length_append]
    omega

end Tags

end Chunks

import Mathlib.Data.BitVec
import Mathlib.Tactic.SplitIfs

/-!
# `memmove`

The two versions of `memmove`, that of `kernel/string.c` and that of `user/ulib.c`, on a flat memory of
`2^64` bytes. They choose the direction of the copy by different tests. Going up is right if no byte is
written before it has been read, which can only happen if the destination is above the source; going down,
the other way round.

The kernel's `n` is a `uint`, that of the user library an `int`; with a negative `n` there is nothing to copy.
-/

namespace Xv6.Memmove

open Function (update update_of_ne update_self)

abbrev Addr := BitVec 64

abbrev Memory := Addr → BitVec 8

/-- `while(n-- > 0) *d++ = *s++` -/
def copyUp : Nat → Addr → Addr → Memory → Memory
  | 0, _, _, m => m
  | n + 1, d, s, m => copyUp n (d + 1) (s + 1) (update m d (m s))

/-- `while(n-- > 0) *--d = *--s` -/
def copyDown : Nat → Addr → Addr → Memory → Memory
  | 0, _, _, m => m
  | n + 1, d, s, m => copyDown n (d - 1) (s - 1) (update m (d - 1) (m (s - 1)))

/-- `memmove` of the kernel. -/
def kmemmove (dst src : Addr) (n : BitVec 32) (m : Memory) : Memory :=
  if src < dst ∧ src + n.zeroExtend 64 > dst then
    copyDown n.toNat (dst + n.zeroExtend 64) (src + n.zeroExtend 64) m
  else copyUp n.toNat dst src m

/-- `memmove` of the user library. -/
def umemmove (dst src : Addr) (n : BitVec 32) (m : Memory) : Memory :=
  if src > dst then copyUp n.toInt.toNat dst src m
  else copyDown n.toInt.toNat (dst + n.signExtend 64) (src + n.signExtend 64) m

/-- `[dst, dst + n)` of `m'` is `[src, src + n)` of `m`, and all other bytes are those of `m`. -/
structure Moved (dst src : Addr) (n : Nat) (m m' : Memory) : Prop where
  copied : ∀ i < n, m' (dst + BitVec.ofNat 64 i) = m (src + BitVec.ofNat 64 i)
  frame : ∀ a, (∀ i < n, a ≠ dst + BitVec.ofNat 64 i) → m' a = m a

/-- The `n` bytes from `a` on are not behind the end of the memory. -/
def Inside (a : Addr) (n : Nat) : Prop := a.toNat + n ≤ 2 ^ 64

instance Inside.decidable (a : Addr) (n : Nat) : Decidable (Inside a n) := inferInstanceAs (Decidable (_ ≤ _))

variable {d s : Addr} {n i j : Nat} {m m' m₁ m₂ : Memory}

theorem Moved.unique (h₁ : Moved d s n m m₁) (h₂ : Moved d s n m m₂) : m₁ = m₂ := by
  funext a
  by_cases ha : ∃ i < n, a = d + BitVec.ofNat 64 i
  · obtain ⟨i, hi, rfl⟩ := ha
    rw [h₁.copied i hi, h₂.copied i hi]
  · have hne : ∀ i < n, a ≠ d + BitVec.ofNat 64 i := fun i hi heq => ha ⟨i, hi, heq⟩
    rw [h₁.frame a hne, h₂.frame a hne]

theorem toNat_add_ofNat (h : Inside d n) (hi : i < n) : (d + BitVec.ofNat 64 i).toNat = d.toNat + i := by
  rw [Inside] at h
  rw [BitVec.toNat_add, BitVec.toNat_ofNat, Nat.mod_eq_of_lt (show i < 2 ^ 64 by omega), Nat.mod_eq_of_lt (by omega)]

theorem add_one_add (a : Addr) (i : Nat) : a + 1 + BitVec.ofNat 64 i = a + BitVec.ofNat 64 (i + 1) := by
  rw [BitVec.add_assoc, Nat.add_comm i 1, BitVec.ofNat_add]
  rfl

theorem copyUp_moved (hd : Inside d n) (hs : Inside s n) (h : ∀ i j, i < j → j < n → d.toNat + i ≠ s.toNat + j) :
    Moved d s n m (copyUp n d s m) := by
  induction n generalizing d s m with
  | zero => exact ⟨fun i hi => absurd hi (Nat.not_lt_zero i), fun _ _ => rfl⟩
  | succ n ih =>
    have hnext : ∀ {a : Addr}, Inside a (n + 1) → 0 < n → (a + 1).toNat = a.toNat + 1 := fun ha hn =>
      toNat_add_ofNat ha (show 1 < n + 1 by omega)
    have hin : ∀ {a : Addr}, Inside a (n + 1) → Inside (a + 1) n := by
      intro a ha
      rcases Nat.eq_zero_or_pos n with rfl | hn
      · exact Nat.le_of_lt (a + 1).isLt
      · rw [Inside] at ha ⊢
        rw [hnext ha hn]
        omega
    have hrest : Moved (d + 1) (s + 1) n (update m d (m s)) (copyUp n (d + 1) (s + 1) (update m d (m s))) := by
      refine ih (hin hd) (hin hs) fun i j hij hj => ?_
      rw [hnext hd (by omega), hnext hs (by omega)]
      have := h (i + 1) (j + 1) (by omega) (by omega)
      omega
    have hfirst : ∀ i < n, d ≠ d + 1 + BitVec.ofNat 64 i := by
      intro i hi heq
      have := congrArg BitVec.toNat heq
      rw [add_one_add, toNat_add_ofNat hd (by omega)] at this
      omega
    refine ⟨fun i hi => ?_, fun a ha => ?_⟩
    · cases i with
      | zero =>
        rw [show d + BitVec.ofNat 64 0 = d from BitVec.add_zero d, show s + BitVec.ofNat 64 0 =
          s from BitVec.add_zero s]
        exact (hrest.frame d hfirst).trans (update_self ..)
      | succ i =>
        rw [← add_one_add, ← add_one_add, copyUp, hrest.copied i (by omega), update_of_ne]
        intro heq
        have := congrArg BitVec.toNat heq
        rw [add_one_add, toNat_add_ofNat hs hi] at this
        exact h 0 (i + 1) (Nat.succ_pos i) hi (by omega)
    · refine (hrest.frame a fun i hi => ?_).trans (update_of_ne ?_ _ _)
      · rw [add_one_add]
        exact ha (i + 1) (by omega)
      · rw [← BitVec.add_zero d]
        exact ha 0 (Nat.succ_pos n)

theorem copyDown_moved (hd : Inside d n) (hs : Inside s n) (h : ∀ i j, i < j → j < n → d.toNat + j ≠ s.toNat + i) :
    Moved d s n m (copyDown n (d + BitVec.ofNat 64 n) (s + BitVec.ofNat 64 n) m) := by
  induction n generalizing m with
  | zero => exact ⟨fun i hi => absurd hi (Nat.not_lt_zero i), fun _ _ => rfl⟩
  | succ n ih =>
    have hlast : ∀ a : Addr, a + BitVec.ofNat 64 (n + 1) - 1 = a + BitVec.ofNat 64 n := fun a => by
      rw [BitVec.ofNat_add, ← BitVec.add_assoc]
      exact BitVec.add_sub_cancel _ _
    rw [Inside] at hd hs
    have hrest : Moved d s n (update m (d + BitVec.ofNat 64 n) (m (s + BitVec.ofNat 64 n)))
        (copyDown (n + 1) (d + BitVec.ofNat 64 (n + 1)) (s + BitVec.ofNat 64 (n + 1)) m) := by
      rw [copyDown, hlast, hlast]
      exact ih (by rw [Inside]; omega) (by rw [Inside]; omega) fun i j hij hj => h i j hij (by omega)
    have hne : ∀ i < n, d + BitVec.ofNat 64 n ≠ d + BitVec.ofNat 64 i := by
      intro i hi heq
      have := congrArg BitVec.toNat heq
      rw [toNat_add_ofNat hd (Nat.lt_succ_self n), toNat_add_ofNat hd (by omega)] at this
      omega
    refine ⟨fun i hi => ?_, fun a ha => ?_⟩
    · rcases Nat.lt_succ_iff_lt_or_eq.mp hi with hi | rfl
      · rw [hrest.copied i hi, update_of_ne]
        intro heq
        have := congrArg BitVec.toNat heq
        rw [toNat_add_ofNat hs (by omega), toNat_add_ofNat hd (Nat.lt_succ_self n)] at this
        exact h i n hi (Nat.lt_succ_self n) this.symm
      · exact (hrest.frame _ hne).trans (update_self ..)
    · exact (hrest.frame a fun i hi => ha i (by omega)).trans (update_of_ne (ha n (Nat.lt_succ_self n)) _ _)

theorem kmemmove_moved (dst src : Addr) (n : BitVec 32) (m : Memory) (hd : Inside dst n.toNat)
    (hs : Inside src n.toNat) :
    Moved dst src n.toNat m (kmemmove dst src n m) := by
  have hn : n.zeroExtend 64 = BitVec.ofNat 64 n.toNat := BitVec.eq_of_toNat_eq (by simp)
  rw [kmemmove, hn]
  split_ifs with hback
  · refine copyDown_moved hd hs fun i j hij _ => ?_
    have := BitVec.lt_def.mp hback.1
    omega
  · refine copyUp_moved hd hs fun i j hij hj heq => hback ?_
    -- the destination is above the source, and inside of it
    have hlt : src.toNat < dst.toNat := by omega
    refine ⟨BitVec.lt_def.mpr hlt, BitVec.lt_def.mpr ?_⟩
    rw [Inside] at hd
    rw [toNat_add_ofNat (by rw [Inside]; omega) (Nat.lt_succ_self _)]
    omega

theorem umemmove_moved (dst src : Addr) (n : BitVec 32) (m : Memory) (hd : Inside dst n.toInt.toNat)
    (hs : Inside src n.toInt.toNat) : Moved dst src n.toInt.toNat m (umemmove dst src n m) := by
  rw [umemmove]
  split_ifs with hup
  · refine copyUp_moved hd hs fun i j hij _ => ?_
    have := BitVec.lt_def.mp hup
    omega
  · by_cases hneg : n.toInt < 0
    · rw [show n.toInt.toNat = 0 by omega]
      exact ⟨fun i hi => absurd hi (Nat.not_lt_zero i), fun _ _ => rfl⟩
    · have hn : n.signExtend 64 = BitVec.ofNat 64 n.toInt.toNat := by
        rw [BitVec.signExtend, ← BitVec.ofInt_natCast, Int.toNat_of_nonneg (by omega)]
      rw [hn]
      refine copyDown_moved hd hs fun i j hij _ => ?_
      have := BitVec.lt_def.not.mp hup
      omega

/-- Both functions move the bytes and change no others, for every overlap of the two ranges; so they agree
on every number of bytes that both can be given. -/
theorem memmove_exact (m : Memory) (dst src : Addr) :
    (∀ n : BitVec 32, Inside dst n.toNat → Inside src n.toNat → Moved dst src n.toNat m (kmemmove dst src n m)) ∧
    (∀ n : BitVec 32, Inside dst n.toInt.toNat → Inside src n.toInt.toNat →
      Moved dst src n.toInt.toNat m (umemmove dst src n m)) ∧
    ∀ k n : BitVec 32, (k.toNat : Int) = n.toInt → Inside dst k.toNat → Inside src k.toNat →
      kmemmove dst src k m = umemmove dst src n m := by
  refine ⟨fun n => kmemmove_moved dst src n m, fun n => umemmove_moved dst src n m, fun k n hkn hd hs => ?_⟩
  have hnat : n.toInt.toNat = k.toNat := by rw [← hkn, Int.toNat_natCast]
  have hu := umemmove_moved dst src n m (by rwa [hnat]) (by rwa [hnat])
  rw [hnat] at hu
  exact (kmemmove_moved dst src k m hd hs).unique hu

/-- Three bytes are moved up by one, over themselves. -/
theorem memmove_exact_overlap : kmemmove 11 10 3 (fun a => a.truncate 8) 13 = 12 ∧
    kmemmove 11 10 3 (fun a => a.truncate 8) = umemmove 11 10 3 fun a => a.truncate 8 :=
  ⟨by decide, (memmove_exact _ 11 10).2.2 3 3 (by decide) (by decide) (by decide)⟩

end Xv6.Memmove

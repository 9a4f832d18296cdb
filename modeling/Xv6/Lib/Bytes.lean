import Mathlib.Data.Nat.Digits.Defs
import Mathlib.Tactic.Ring
import Mathlib.Tactic.SplitIfs

/-!
# Byte buffers and little-endian fields

A buffer of `n` bytes, stores of a run of bytes into it, and fields of a whole number of bytes read and
written in little-endian order.
-/

/-- A buffer of `n` bytes. -/
abbrev Bytes (n : Nat) := Fin n → BitVec 8

namespace Bytes

variable {n : Nat}
variable {k len off off' w : Nat} {src : Nat → BitVec 8} {b : Bytes n}

/-- The byte at offset `k`; zero past the end. -/
def get (b : Bytes n) (k : Nat) : BitVec 8 := if h : k < n then b ⟨k, h⟩ else 0

/-- Copy `len` bytes of `src` to offset `off`. -/
def store (b : Bytes n) (off : Nat) (src : Nat → BitVec 8) (len : Nat) : Bytes n :=
  fun j => if off ≤ j.val ∧ j.val < off + len then src (j.val - off) else b j

theorem get_zero (k : Nat) : get (fun _ => 0 : Bytes n) k = 0 := by
  unfold get
  split <;> rfl

theorem ext_get {c : Bytes n} (h : ∀ k, k < n → b.get k = c.get k) : b = c := by
  funext j
  have := h j.val j.isLt
  simpa [get, j.isLt] using this

theorem get_store (b : Bytes n) (off : Nat) (src : Nat → BitVec 8) (len k : Nat) :
    (b.store off src len).get k =
      if off ≤ k ∧ k < off + len ∧ k < n then src (k - off) else b.get k := by
  by_cases hk : k < n
  · simp [get, store, hk]
  · simp [get, hk]

theorem get_store_of_lt (b : Bytes n) (src : Nat → BitVec 8) (h : k < off) :
    (b.store off src len).get k = b.get k := by
  rw [get_store, if_neg (by omega)]

theorem get_store_of_ge (b : Bytes n) (src : Nat → BitVec 8) (h : off + len ≤ k) :
    (b.store off src len).get k = b.get k := by
  rw [get_store, if_neg (by omega)]

theorem store_zero (b : Bytes n) (off : Nat) (src : Nat → BitVec 8) : b.store off src 0 = b :=
  funext fun j => if_neg (by omega)

theorem store_congr (b : Bytes n) {src' : Nat → BitVec 8} (h : ∀ k, k < len → src k = src' k) :
    b.store off src len = b.store off src' len := by
  funext j
  unfold store
  split_ifs with hj
  · exact h _ (by omega)
  · rfl

theorem store_eq_self_iff (b : Bytes n) (h : off + len ≤ n) :
    b.store off src len = b ↔ ∀ k, k < len → src k = b.get (off + k) := by
  constructor
  · intro heq k hk
    have hget := get_store b off src len (off + k)
    rwa [heq, if_pos (by omega), Nat.add_sub_cancel_left, eq_comm] at hget
  · intro hsame
    refine ext_get fun k hk => ?_
    rw [get_store]
    split_ifs with hin
    · rw [hsame _ (by omega), Nat.add_sub_cancel' hin.1]
    · rfl

theorem store_store (b : Bytes n) (off : Nat) (src : Nat → BitVec 8) (k len : Nat) :
    (b.store off src k).store (off + k) (fun i => src (k + i)) len = b.store off src (k + len) := by
  funext j
  unfold store
  by_cases h1 : off + k ≤ j.val ∧ j.val < off + k + len
  · rw [if_pos h1, if_pos (by omega)]
    change src (k + (j.val - (off + k))) = src (j.val - off)
    rw [show k + (j.val - (off + k)) = j.val - off by omega]
  · rw [if_neg h1]
    exact if_congr (by omega) rfl rfl

/-! ## Little-endian numbers -/

/-- The number spelled by the `k` bytes `f 0, f 1, …`, least significant first. -/
def leNat (f : Nat → BitVec 8) : Nat → Nat
  | 0 => 0
  | k + 1 => (f 0).toNat + 256 * leNat (fun i => f (i + 1)) k

/-- Byte `i` of the number `v`. -/
def leByte (v i : Nat) : BitVec 8 := BitVec.ofNat 8 (v / 256 ^ i)

theorem leNat_congr {f g : Nat → BitVec 8} (h : ∀ i, i < k → f i = g i) : leNat f k = leNat g k := by
  induction k generalizing f g with
  | zero => rfl
  | succ k ih =>
    rw [leNat, leNat, h 0 (Nat.succ_pos k), ih fun i hi => h (i + 1) (Nat.succ_lt_succ hi)]

theorem leNat_leByte (v k : Nat) : leNat (leByte v) k = v % 256 ^ k := by
  induction k generalizing v with
  | zero => simp [leNat, Nat.mod_one]
  | succ k ih =>
    have hshift : (fun i => leByte v (i + 1)) = leByte (v / 256) := by
      funext i
      rw [leByte, leByte, pow_succ', Nat.div_div_eq_div_mul]
    have hmod : v % 256 ^ (k + 1) = v % 256 + 256 * (v / 256 % 256 ^ k) := by
      rw [pow_succ', Nat.mod_mul]
    rw [leNat, hshift, ih, hmod, leByte, pow_zero, Nat.div_one, BitVec.toNat_ofNat]

/-- The `w`-bit field at byte offset `off`. -/
def field (w : Nat) (b : Bytes n) (off : Nat) : BitVec w :=
  BitVec.ofNat w (leNat (fun i => b.get (off + i)) (w / 8))

/-- Write a `w`-bit field at byte offset `off`. -/
def setField {w : Nat} (b : Bytes n) (off : Nat) (v : BitVec w) : Bytes n :=
  b.store off (leByte v.toNat) (w / 8)

theorem field_congr {m : Nat} {c : Bytes m} (h : ∀ i, i < w / 8 → b.get (off + i) = c.get (off' + i)) :
    field w b off = field w c off' := by
  unfold field
  rw [leNat_congr h]

theorem field_store_of_disjoint (b : Bytes n) (src : Nat → BitVec 8) (h : off' + w / 8 ≤ off ∨ off + len ≤ off') :
    field w (b.store off src len) off' = field w b off' := by
  refine field_congr fun i hi => ?_
  rcases h with h | h
  · exact get_store_of_lt b src (by omega)
  · exact get_store_of_ge b src (by omega)

theorem field_setField_of_disjoint {w' : Nat} (b : Bytes n) (v : BitVec w)
    (h : off' + w' / 8 ≤ off ∨ off + w / 8 ≤ off') :
    field w' (b.setField off v) off' = field w' b off' :=
  field_store_of_disjoint b _ h

theorem field_setField (hw : 8 ∣ w) (b : Bytes n) (v : BitVec w) (h : off + w / 8 ≤ n) :
    field w (b.setField off v) off = v := by
  have hread : leNat (fun i => (b.setField off v).get (off + i)) (w / 8) = v.toNat := by
    rw [leNat_congr, leNat_leByte, Nat.mod_eq_of_lt]
    · have : (256 : Nat) ^ (w / 8) = 2 ^ w := by
        rw [show (256 : Nat) = 2 ^ 8 from rfl, ← pow_mul, Nat.mul_div_cancel' hw]
      rw [this]
      exact v.isLt
    · intro i hi
      rw [setField, get_store, if_pos ⟨by omega, by omega, by omega⟩, Nat.add_sub_cancel_left]
  rw [field, hread, BitVec.ofNat_toNat, BitVec.setWidth_eq]

theorem field_store (hw : 8 ∣ w) (b : Bytes n) (v : BitVec w)
    (hlen : k + w / 8 ≤ len) (hn : off + len ≤ n) (hsrc : ∀ i, i < w / 8 → src (k + i) = leByte v.toNat i) :
    field w (b.store off src len) (off + k) = v := by
  rw [← field_setField hw b v (show off + k + w / 8 ≤ n by omega)]
  refine field_congr fun i hi => ?_
  rw [get_store, if_pos (by omega), setField, get_store, if_pos (by omega), Nat.add_sub_cancel_left,
    show off + k + i - off = k + i by omega]
  exact hsrc i hi

theorem leNat_zero (k : Nat) : leNat (fun _ => 0) k = 0 := by
  induction k with
  | zero => rfl
  | succ k ih => rw [leNat, ih]; rfl

theorem field_eq_zero (h : ∀ i, i < w / 8 → b.get (off + i) = 0) : field w b off = 0 := by
  rw [field, leNat_congr h, leNat_zero]
  rfl

/-! ## Single bytes and bits -/

/-- Assign to one byte. -/
def set (b : Bytes n) (k : Nat) (v : BitVec 8) : Bytes n := b.store k (fun _ => v) 1

theorem get_set (b : Bytes n) (k : Nat) (v : BitVec 8) (j : Nat) :
    (b.set k v).get j = if j = k ∧ j < n then v else b.get j := by
  rw [set, get_store]
  exact if_congr (by omega) rfl rfl

/-- The mask `1 << k`. -/
def mask (k : Nat) : BitVec 8 := 1#8 <<< k

/-- Bit `k` of the bytes, as `b[k / 8] & (1 << k % 8)` tests it. -/
def bit (b : Bytes n) (k : Nat) : Bool := b.get (k / 8) &&& mask (k % 8) ≠ 0

def setBit (b : Bytes n) (k : Nat) : Bytes n := b.set (k / 8) (b.get (k / 8) ||| mask (k % 8))

def clearBit (b : Bytes n) (k : Nat) : Bytes n := b.set (k / 8) (b.get (k / 8) &&& ~~~ mask (k % 8))

theorem getLsbD_mask (k i : Nat) : (mask k).getLsbD i = (decide (i < 8) && decide (i = k)) := by
  rw [mask, BitVec.getLsbD_shiftLeft]
  by_cases h : i = k
  · subst h
    simp
  · by_cases hi : i < k
    · simp [hi, h]
    · simp [hi, h, BitVec.getLsbD_one, show i - k ≠ 0 by omega]

theorem and_mask_ne_zero (x : BitVec 8) (hk : k < 8) : x &&& mask k ≠ 0 ↔ x.getLsbD k = true := by
  constructor
  · intro h
    by_contra hx
    refine h (BitVec.eq_of_getLsbD_eq fun i hi => ?_)
    rw [BitVec.getLsbD_and, getLsbD_mask]
    by_cases hik : i = k
    · subst hik
      rw [Bool.not_eq_true _ |>.mp hx, Bool.false_and]
      exact (BitVec.getLsbD_zero).symm
    · simp [hik]
  · intro h hx
    have hk' : (x &&& mask k).getLsbD k = true := by
      rw [BitVec.getLsbD_and, getLsbD_mask, h, decide_eq_true hk, decide_eq_true rfl]
      rfl
    rw [hx] at hk'
    exact absurd hk' (by rw [BitVec.ofNat_eq_ofNat, BitVec.getLsbD_zero]; decide)

theorem bit_eq_getLsbD (b : Bytes n) (k : Nat) : b.bit k = (b.get (k / 8)).getLsbD (k % 8) := by
  rw [bit, Bool.eq_iff_iff, decide_eq_true_iff]
  exact and_mask_ne_zero _ (Nat.mod_lt k (by decide))

theorem bit_setBit (b : Bytes n) (hk : k / 8 < n) (j : Nat) :
    (b.setBit k).bit j = (decide (j = k) || b.bit j) := by
  have hj := Nat.mod_lt j (show 8 > 0 by decide)
  rw [bit_eq_getLsbD, bit_eq_getLsbD, setBit, get_set]
  by_cases h : j / 8 = k / 8
  · rw [if_pos ⟨h, h ▸ hk⟩, BitVec.getLsbD_or, getLsbD_mask, h, Bool.or_comm, decide_eq_true hj, Bool.true_and]
    congr 2
    rw [eq_iff_iff]
    omega
  · rw [if_neg fun hc => h hc.1, decide_eq_false fun hc => h (by rw [hc]), Bool.false_or]

theorem bit_clearBit (b : Bytes n) (hk : k / 8 < n) (j : Nat) :
    (b.clearBit k).bit j = (!decide (j = k) && b.bit j) := by
  have hj := Nat.mod_lt j (show 8 > 0 by decide)
  rw [bit_eq_getLsbD, bit_eq_getLsbD, clearBit, get_set]
  by_cases h : j / 8 = k / 8
  · rw [if_pos ⟨h, h ▸ hk⟩, BitVec.getLsbD_and, BitVec.getLsbD_not, getLsbD_mask, h, Bool.and_comm,
      decide_eq_true hj, Bool.true_and, Bool.true_and]
    congr 3
    rw [eq_iff_iff]
    omega
  · rw [if_neg fun hc => h hc.1, decide_eq_false fun hc => h (by rw [hc]), Bool.not_false, Bool.true_and]

end Bytes

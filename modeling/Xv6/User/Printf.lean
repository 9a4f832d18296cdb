import Mathlib.Data.BitVec
import Mathlib.Data.Nat.Digits.Lemmas

/-!
# `printf`

`vprintf` of `user/printf.c`. `printint` puts the digits of its argument in a buffer of 16 bytes, the lowest
first, and prints them from the end. Its argument is an `int`, so `%l`, which takes a `uint64` from the
arguments, prints the low 32 bits of it.

The arguments are a stream of 64-bit slots, from which `va_arg` takes the low bits; `str` tells what string
is at an address.
-/

namespace Xv6.Printf

abbrev Byte := BitVec 8

def ch (c : Char) : Byte := BitVec.ofNat 8 c.toNat

def chars (s : String) : List Byte := s.toList.map ch

/-- `digits[d]` -/
def digit (d : Nat) : Byte := (chars "0123456789ABCDEF").getD d 0

/-- `buf[i++] = c` for a buffer of 16 bytes. -/
def put (buf : List Byte) (c : Byte) : Option (List Byte) := if buf.length < 16 then some (buf ++ [c]) else none

/-- The loop of `printint`. It fills the buffer, so it is not run more than 17 times. -/
def digitLoop (base : Nat) : Nat → Nat → List Byte → Option (List Byte)
  | 0, _, _ => none
  | fuel + 1, x, buf => (put buf (digit (x % base))).bind fun buf =>
      if x / base ≠ 0 then digitLoop base fuel (x / base) buf else some buf

/-- What `printint` prints; nothing if it writes behind its buffer. -/
def printint (xx : BitVec 32) (base : Nat) (sgn : Bool) : Option (List Byte) :=
  let neg := sgn && xx.slt 0
  let x := if neg then -xx else xx
  (digitLoop base 17 x.toNat []).bind fun buf => (if neg then put buf (ch '-') else some buf).map List.reverse

/-- The loop of `printptr`. -/
def ptrLoop : Nat → BitVec 64 → List Byte
  | 0, _ => []
  | n + 1, x => digit (x >>> 60).toNat :: ptrLoop n (x <<< 4)

def printptr (x : BitVec 64) : List Byte := chars "0x" ++ ptrLoop 16 x

/-- `vprintf` between two characters of the format. -/
structure State where
  percent : Bool := false
  ap : Nat → BitVec 64
  out : List Byte := []

def State.putc (s : State) (c : Byte) : State := { s with out := s.out ++ [c] }

/-- A conversion has printed `text` for its argument. -/
def State.conv (s : State) (text : List Byte) : State :=
  { percent := false, ap := fun i => s.ap (i + 1), out := s.out ++ text }

/-- One turn of the loop. -/
def turn (str : BitVec 64 → List Byte) (s : State) (c : Byte) : Option State :=
  if s.percent = false then some (if c = ch '%' then { s with percent := true } else s.putc c)
  else if c = ch 'd' then (printint ((s.ap 0).truncate 32) 10 true).map s.conv
  else if c = ch 'l' then (printint ((s.ap 0).truncate 32) 10 false).map s.conv
  else if c = ch 'x' then (printint ((s.ap 0).truncate 32) 16 false).map s.conv
  else if c = ch 'p' then some (s.conv (printptr (s.ap 0)))
  else if c = ch 's' then some (s.conv (if s.ap 0 = 0 then chars "(null)" else str (s.ap 0)))
  else if c = ch 'c' then some (s.conv [(s.ap 0).truncate 8])
  else if c = ch '%' then some { s.putc c with percent := false }
  else some { (s.putc (ch '%')).putc c with percent := false }

/-- `vprintf`, up to the zero that ends the format. -/
def vprintf (str : BitVec 64 → List Byte) (fmt : List Byte) (ap : Nat → BitVec 64) : Option (List Byte) :=
  ((fmt.takeWhile (· ≠ 0)).foldlM (turn str) { ap := ap }).map State.out

/-! ## Numerals -/

/-- `s` is `n` in base `base`, the highest digit first. -/
def Numeral (base : Nat) (s : List Byte) (n : Nat) : Prop :=
  ∃ ds : List Nat, ds ≠ [] ∧ (∀ d ∈ ds, d < base) ∧ s = (ds.map digit).reverse ∧ Nat.ofDigits base ds = n

/-- `s` is the signed decimal number `i`. -/
def SignedNumeral (s : List Byte) (i : Int) : Prop :=
  Numeral 10 s i.natAbs ∧ 0 ≤ i ∨ (∃ r, s = ch '-' :: r ∧ Numeral 10 r i.natAbs) ∧ i < 0

variable {base x n : Nat} {s : List Byte} {str : BitVec 64 → List Byte}

theorem digit_injective : ∀ d < 16, ∀ e < 16, digit d = digit e → d = e := by decide

theorem Numeral.unique {m : Nat} (hbase : base ≤ 16) (hn : Numeral base s n) (hm : Numeral base s m) : n = m := by
  obtain ⟨ds, -, hds, rfl, rfl⟩ := hn
  obtain ⟨es, -, hes, heq, rfl⟩ := hm
  have hmap : ds.map digit = es.map digit := List.reverse_injective heq
  have hinj : ∀ {ds es : List Nat}, (∀ d ∈ ds, d < base) → (∀ e ∈ es, e < base) → ds.map digit = es.map digit →
    ds = es := by
    intro ds
    induction ds with
    | nil =>
      intro es _ _ h
      exact (List.map_eq_nil_iff.mp h.symm).symm
    | cons d ds ih =>
      intro es hds hes h
      cases es with
      | nil => cases h
      | cons e es =>
        obtain ⟨hd, hds⟩ := List.forall_mem_cons.mp hds
        obtain ⟨he, hes⟩ := List.forall_mem_cons.mp hes
        obtain ⟨hde, hrest⟩ := List.cons.inj h
        rw [digit_injective d (by omega) e (by omega) hde, ih hds hes hrest]
  rw [hinj hds hes hmap]

/-- The digits that the loop of `printint` writes. -/
def lowFirst (base x : Nat) : List Nat := if x = 0 then [0] else Nat.digits base x

theorem lowFirst_div (hb : 1 < base) :
    lowFirst base x = x % base :: if x / base ≠ 0 then lowFirst base (x / base) else [] := by
  rw [lowFirst]
  split_ifs with h0 hdiv hdiv
  · rw [h0, Nat.zero_div] at hdiv
    exact absurd rfl hdiv
  · rw [h0, Nat.zero_mod]
  · rw [Nat.digits_def' hb (Nat.pos_of_ne_zero h0), lowFirst, if_neg hdiv]
  · rw [Nat.digits_def' hb (Nat.pos_of_ne_zero h0), not_not.mp hdiv, Nat.digits_zero]

theorem digitLoop_eq {buf : List Byte} {fuel : Nat} (hb : 1 < base) (hfuel : (lowFirst base x).length ≤ fuel)
    (hbuf : buf.length + (lowFirst base x).length ≤ 16) :
    digitLoop base fuel x buf = some (buf ++ (lowFirst base x).map digit) := by
  induction fuel generalizing x buf with
  | zero =>
    rw [lowFirst_div hb] at hfuel
    simp at hfuel
  | succ fuel ih =>
    rw [lowFirst_div hb] at hfuel hbuf ⊢
    rw [List.length_cons] at hfuel hbuf
    rw [digitLoop, put, if_pos (by omega), Option.bind_some]
    split_ifs at hfuel hbuf ⊢ with hdiv
    · rw [ih (by omega) (by rw [List.length_append, List.length_singleton]; omega), List.append_assoc]
      rfl
    · rfl

theorem length_lowFirst {k : Nat} (hb : 1 < base) (hk : 0 < k) (hx : x < base ^ k) : (lowFirst base x).length ≤ k := by
  rw [lowFirst]
  split_ifs with h0
  · exact hk
  · exact (Nat.digits_length_le_iff hb x).mpr hx

theorem numeral_lowFirst (hb : 1 < base) : Numeral base ((lowFirst base x).map digit).reverse x := by
  refine ⟨lowFirst base x, ?_, ?_, rfl, ?_⟩
  · rw [lowFirst_div hb]
    exact List.cons_ne_nil _ _
  · rw [lowFirst]
    split_ifs with h0
    · intro d hd
      rw [List.mem_singleton.mp hd]
      omega
    · exact fun d hd => Nat.digits_lt_base hb hd
  · rw [lowFirst]
    split_ifs with h0
    · rw [h0]
      rfl
    · exact Nat.ofDigits_digits base x

/-! ## `printint` and `printptr` -/

theorem printint_unsigned (xx : BitVec 32) (hb : 10 ≤ base) :
    ∃ text, printint xx base false = some text ∧ Numeral base text xx.toNat := by
  have hlen : (lowFirst base xx.toNat).length ≤ 10 := by
    refine length_lowFirst (by omega) (by decide) (lt_of_lt_of_le xx.isLt ?_)
    calc 2 ^ 32 ≤ 10 ^ 10 := by decide
      _ ≤ base ^ 10 := Nat.pow_le_pow_left hb 10
  refine ⟨_, ?_, numeral_lowFirst (by omega)⟩
  simp only [printint, Bool.false_and, Bool.false_eq_true, if_false]
  rw [digitLoop_eq (by omega) (by omega) (by rw [List.length_nil]; omega)]
  rfl

theorem printint_signed (xx : BitVec 32) : ∃ text, printint xx 10 true = some text ∧ SignedNumeral text xx.toInt := by
  by_cases hneg : xx.toInt < 0
  · have hslt : xx.slt 0 = true := by simpa [BitVec.slt] using hneg
    -- also for the lowest number, which is its own negation
    have habs : (-xx).toNat = xx.toInt.natAbs := by
      have := xx.isLt
      rw [BitVec.toInt_eq_toNat_cond] at hneg ⊢
      rw [BitVec.toNat_neg]
      split_ifs at hneg ⊢ with hlow
      · omega
      · omega
    have hlen : (lowFirst 10 (-xx).toNat).length ≤ 10 :=
      length_lowFirst (by decide) (by decide) (lt_trans (-xx).isLt (by decide))
    refine ⟨ch '-' :: ((lowFirst 10 (-xx).toNat).map digit).reverse, ?_,
      .inr ⟨⟨_, rfl, habs ▸ numeral_lowFirst (by decide)⟩, hneg⟩⟩
    simp only [printint, hslt, Bool.and_self, if_true]
    rw [digitLoop_eq (by decide) (by omega) (by rw [List.length_nil]; omega), Option.bind_some, List.nil_append,
      put, List.length_map,
      if_pos (by omega), Option.map_some, List.reverse_append]
    rfl
  · have hslt : xx.slt 0 = false := by simpa [BitVec.slt] using hneg
    have habs : xx.toNat = xx.toInt.natAbs := by
      rw [BitVec.toInt_eq_toNat_cond] at hneg ⊢
      split_ifs at hneg ⊢ with hlow
      · omega
      · omega
    obtain ⟨text, htext, hnum⟩ := printint_unsigned xx (le_refl 10)
    refine ⟨text, ?_, .inl ⟨habs ▸ hnum, by omega⟩⟩
    rw [← htext]
    simp only [printint, hslt, Bool.and_false]

theorem ptrLoop_eq (x : BitVec 64) (n : Nat) (hn : n ≤ 16) (hlow : x.toNat % 2 ^ (4 * (16 - n)) = 0) :
    ∃ ds : List Nat, ds.length = n ∧ (∀ d ∈ ds, d < 16) ∧ ptrLoop n x = (ds.map digit).reverse ∧
      x.toNat = Nat.ofDigits 16 ds * 2 ^ (4 * (16 - n)) := by
  induction n generalizing x with
  | zero =>
    refine ⟨[], rfl, by simp, rfl, ?_⟩
    have := x.isLt
    simp only [Nat.sub_zero, Nat.ofDigits_nil, Nat.zero_mul] at hlow ⊢
    omega
  | succ n ih =>
    obtain ⟨k, hk⟩ : ∃ k, 16 = n + 1 + k := ⟨16 - (n + 1), by omega⟩
    have hpow : 2 ^ (4 * (16 - n)) = 16 * 2 ^ (4 * k) := by
      rw [show 4 * (16 - n) = 4 + 4 * k by omega, Nat.pow_add]
    have hpow' : 4 * (16 - (n + 1)) = 4 * k := by omega
    have hall : 16 * (2 ^ (4 * n) * 2 ^ (4 * k)) = 2 ^ 64 := by
      rw [← Nat.pow_add, show (16 : Nat) = 2 ^ 4 from rfl, ← Nat.pow_add]
      congr 1
      omega
    have hshl : (x <<< 4).toNat = x.toNat % 2 ^ 60 * 16 := by
      rw [BitVec.toNat_shiftLeft, Nat.shiftLeft_eq]
      omega
    have hshr : (x >>> 60).toNat = x.toNat / 2 ^ 60 := by rw [BitVec.toNat_ushiftRight, Nat.shiftRight_eq_div_pow]
    rw [hpow'] at hlow ⊢
    have h60 : 2 ^ 60 = 2 ^ (4 * n) * 2 ^ (4 * k) := by omega
    obtain ⟨ds, hlen, hlt, hloop, hval⟩ := ih (x <<< 4) (by omega) (by
      rw [hshl, hpow, Nat.mul_comm 16, Nat.mul_mod_mul_right]
      rw [show x.toNat % 2 ^ 60 % 2 ^ (4 * k) = 0 by
        rw [h60, Nat.mod_mod_of_dvd _ (Nat.dvd_mul_left _ _)]
        exact hlow])
    refine ⟨ds ++ [x.toNat / 2 ^ 60], by rw [List.length_append, hlen]; rfl, ?_, ?_, ?_⟩
    · have := x.isLt
      intro d hd
      rcases List.mem_append.mp hd with hd | hd
      · exact hlt d hd
      · rw [List.mem_singleton.mp hd]
        omega
    · rw [ptrLoop, hloop, hshr, List.map_append, List.reverse_append]
      rfl
    · rw [hshl, hpow] at hval
      have hrest : x.toNat % 2 ^ 60 = Nat.ofDigits 16 ds * 2 ^ (4 * k) := by
        refine Nat.eq_of_mul_eq_mul_right (show 0 < 16 by decide) ?_
        rw [hval]
        ring
      rw [Nat.ofDigits_append, Nat.ofDigits_singleton, hlen, Nat.add_mul, ← hrest, show 16 ^ n = 2 ^ (4 * n) from by
        rw [Nat.pow_mul], Nat.mul_right_comm, ← h60]
      omega

theorem printptr_eq (x : BitVec 64) : ∃ ds, printptr x = chars "0x" ++ ds ∧ ds.length = 16 ∧ Numeral 16 ds x.toNat := by
  obtain ⟨ds, hlen, hlt, hloop, hval⟩ := ptrLoop_eq x 16 (le_refl 16) (Nat.mod_one _)
  refine ⟨ptrLoop 16 x, rfl, by rw [hloop, List.length_reverse, List.length_map, hlen], ds, ?_, hlt, hloop, ?_⟩
  · intro hnil
    simp [hnil] at hlen
  · rw [hval]
    exact (Nat.mul_one _).symm

/-! ## `vprintf` -/

inductive Conversion
  | d
  | x
  | p
  | l

def Conversion.char : Conversion → Byte
  | .d => ch 'd'
  | .x => ch 'x'
  | .p => ch 'p'
  | .l => ch 'l'

/-- What is to be printed for an argument in the slot `a`. -/
def Conversion.Denotes : Conversion → BitVec 64 → List Byte → Prop
  | .d, a, text => SignedNumeral text (a.truncate 32).toInt
  | .x, a, text => Numeral 16 text (a.truncate 32).toNat
  | .p, a, text => ∃ ds, text = chars "0x" ++ ds ∧ ds.length = 16 ∧ Numeral 16 ds a.toNat
  | .l, a, text => Numeral 10 text a.toNat

theorem turn_ne_none (str : BitVec 64 → List Byte) (s : State) (c : Byte) : ∃ t, turn str s c = some t := by
  obtain ⟨td, hd, -⟩ := printint_signed ((s.ap 0).truncate 32)
  obtain ⟨tl, hl, -⟩ := printint_unsigned ((s.ap 0).truncate 32) (le_refl 10)
  obtain ⟨tx, hx, -⟩ := printint_unsigned ((s.ap 0).truncate 32) (show 10 ≤ 16 by decide)
  unfold turn
  rw [hd, hl, hx]
  split_ifs <;> exact ⟨_, rfl⟩

theorem turn_conversion (s : State) (hs : s.percent = false) (k : Conversion) :
    ∃ text, (turn str s (ch '%')).bind (turn str · k.char) = some (s.conv text) ∧
      (k.Denotes (s.ap 0) text ↔ (k = .l → (s.ap 0).toNat < 2 ^ 32)) := by
  have hp : turn str s (ch '%') = some { s with percent := true } := by simp [turn, hs]
  rw [hp, Option.bind_some]
  cases k with
  | d =>
    obtain ⟨text, htext, hnum⟩ := printint_signed ((s.ap 0).truncate 32)
    exact ⟨text, by simp [turn, Conversion.char, htext, State.conv], iff_of_true hnum nofun⟩
  | x =>
    obtain ⟨text, htext, hnum⟩ := printint_unsigned ((s.ap 0).truncate 32) (show 10 ≤ 16 by decide)
    exact ⟨text, by simp [turn, Conversion.char, htext, State.conv, ch], iff_of_true hnum nofun⟩
  | p =>
    exact ⟨_, by simp [turn, Conversion.char, State.conv, ch], iff_of_true (printptr_eq _) nofun⟩
  | l =>
    obtain ⟨text, htext, hnum⟩ := printint_unsigned ((s.ap 0).truncate 32) (le_refl 10)
    rw [BitVec.toNat_setWidth] at hnum
    refine ⟨text, by simp [turn, Conversion.char, htext, State.conv, ch], fun h _ => ?_, fun h => ?_⟩
    · -- the number that was printed has 32 bits
      rw [Numeral.unique (by decide) h hnum]
      exact Nat.mod_lt _ (by decide)
    · rwa [Nat.mod_eq_of_lt (h rfl)] at hnum

theorem vprintf_ne_none (fmt : List Byte) (ap : Nat → BitVec 64) : ∃ out, vprintf str fmt ap = some out := by
  have hall : ∀ (l : List Byte) (s : State), ∃ t, l.foldlM (turn str) s = some t := by
    intro l
    induction l with
    | nil => exact fun s => ⟨s, rfl⟩
    | cons c l ih =>
      intro s
      obtain ⟨t, ht⟩ := turn_ne_none str s c
      obtain ⟨u, hu⟩ := ih t
      exact ⟨u, by rw [List.foldlM_cons, ht]; exact hu⟩
  obtain ⟨t, ht⟩ := hall (fmt.takeWhile (· ≠ 0)) { ap := ap }
  exact ⟨t.out, by rw [vprintf, ht]; rfl⟩

/-- No format makes `printint` write behind its buffer, and a conversion anywhere in a format prints its
argument, if and only if the argument of `%l` has 32 bits. -/
theorem printed_numbers_denote_iff (str : BitVec 64 → List Byte) :
    (∀ fmt ap, ∃ out, vprintf str fmt ap = some out) ∧
    ∀ (s : State) (k : Conversion), s.percent = false →
      ∃ text, (turn str s (ch '%')).bind (turn str · k.char) = some (s.conv text) ∧
        (k.Denotes (s.ap 0) text ↔ (k = .l → (s.ap 0).toNat < 2 ^ 32)) :=
  ⟨vprintf_ne_none, fun s k hs => turn_conversion s hs k⟩

theorem printed_numbers_denote_lowest : ∃ text, vprintf (fun _ => []) (chars "%d") (fun _ => 2 ^ 31) = some text ∧
    SignedNumeral text (-2 ^ 31) := by
  obtain ⟨text, htext, hiff⟩ := (printed_numbers_denote_iff fun _ => []).2 { ap := fun _ => 2 ^ 31 } .d rfl
  refine ⟨text, ?_, hiff.mpr nofun⟩
  have hfold : (chars "%d").takeWhile (· ≠ 0) = [ch '%', ch 'd'] := by decide
  simp only [vprintf, hfold, List.foldlM_cons, List.foldlM_nil, bind_pure]
  exact congrArg (Option.map State.out) htext

/-- `%l` of `2^32` prints `0`. -/
theorem printed_long_is_cut : vprintf (fun _ => []) (chars "%l") (fun _ => 2 ^ 32) = some (chars "0") ∧
    ¬ Numeral 10 (chars "0") (2 ^ 32) := by
  refine ⟨by decide, fun h => ?_⟩
  exact absurd (h.unique (by decide) ⟨[0], by decide, by decide, by decide, rfl⟩) (by decide)

end Xv6.Printf

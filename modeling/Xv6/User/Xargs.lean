import Mathlib.Data.List.TakeWhile
import Mathlib.Logic.Function.Basic
import Xv6.Sys.Name

/-!
# `xargs`

`user/xargs.c` reads its standard input line by line into a table of strings and calls `exec` with the table after
each line. `more_to_read` ends the arguments of a line with a null pointer, which stays in the table: a later line
with more words stores through it. So the program does what it should as long as no line has more words than the one
before. An empty line passes an empty argument. What is behind the last newline is stored, but not passed to `exec`.

Here `fork` succeeds, and the commands leave the standard input alone.
-/

namespace Xv6.Xargs

open Function (update update_of_ne update_self)

def MAX_LENGTH : Nat := 30

def space : BitVec 8 := 32

def newline : BitVec 8 := 10

/-- A string of C, without the terminating zero. -/
abbrev Str := List (BitVec 8)

/-! ## The program -/

/-- The table `params`: pointers to buffers of `MAX_LENGTH + 1` bytes. -/
structure Table where
  params : Nat → Option Nat
  buf : Nat → Nat → BitVec 8

/-- `params[i][j] = c`. There is no result if the store is outside of the table and its buffers. -/
def Table.store (t : Table) (i j : Nat) (c : BitVec 8) : Option Table :=
  if i < MAXARG then
    match t.params i with
    | some b =>
      if j ≤ MAX_LENGTH then some { t with buf := update t.buf b (update (t.buf b) j c) } else none
    | none => none
  else none

/-- `params[i] = 0` -/
def Table.clear (t : Table) (i : Nat) : Option Table :=
  if i < MAXARG then some { t with params := update t.params i none } else none

/-- `strcpy(params[i], s)`, from byte `j` on. -/
def strcpy (i : Nat) : Nat → Str → Table → Option Table
  | j, [], t => t.store i j 0
  | j, c :: s, t => (t.store i j c).bind (strcpy i (j + 1) s)

/-- The loop that copies the initial arguments. -/
def copyArgs : Nat → List Str → Table → Option Table
  | _, [], t => some t
  | i, s :: args, t => (strcpy i 0 s t).bind (copyArgs (i + 1) args)

/-- The loop that reads a line: the table and the rest of the input after the line, or nothing at the end of the
input. -/
def readLoop : Nat → Nat → Str → Table → Option (Option (Table × Str))
  | _, _, [], _ => some none
  | paramCnt, letterCnt, a :: input, t =>
    if a = space then (t.store paramCnt letterCnt 0).bind (readLoop (paramCnt + 1) 0 input)
    else if a = newline then
      (t.store paramCnt letterCnt 0).bind fun t => (t.clear (paramCnt + 1)).map fun t => some (t, input)
    else (t.store paramCnt letterCnt a).bind (readLoop paramCnt (letterCnt + 1) input)

def moreToRead (args : List Str) (input : Str) (t : Table) : Option (Option (Table × Str)) :=
  (copyArgs 0 args t).bind (readLoop args.length 0 input)

/-- What `exec` finds in the table from entry `i` on, up to the null pointer. -/
def Table.vectorFrom (t : Table) : Nat → Nat → Option (List Str)
  | 0, _ => none
  | n + 1, i =>
    match t.params i with
    | none => some []
    | some b => (t.vectorFrom n (i + 1)).map (strOf (t.buf b) (MAX_LENGTH + 1) :: ·)

def Table.vector (t : Table) : Option (List Str) := t.vectorFrom MAXARG 0

/-- The loop of `main`: the argument vectors that `exec` is called with. Every line takes at least one byte. -/
def mainLoop (args : List Str) : Nat → Str → Table → Option (List (List Str))
  | 0, _, _ => none
  | fuel + 1, input, t =>
    (moreToRead args input t).bind fun
      | none => some []
      | some (t, input) => t.vector.bind fun v => (mainLoop args fuel input t).map (v :: ·)

/-- `main`, with what `malloc` leaves in the buffers. -/
def main (buf : Nat → Nat → BitVec 8) (args : List Str) (input : Str) : Option (List (List Str)) :=
  mainLoop args (input.length + 1) input ⟨some, buf⟩

/-! ## Strings in the table -/

variable {t : Table} {i j n : Nat} {s rest : Str}
variable {lines : List (List Str)} {k : Nat} {s' : Str}

/-- Put the bytes of `s` in buffer `i`, from byte `j` on. -/
def Table.puts (t : Table) (i j : Nat) : Str → Table
  | [] => t
  | c :: s => ({ t with buf := update t.buf i (update (t.buf i) j c) } : Table).puts i (j + 1) s

theorem puts_cons (c : BitVec 8) : t.puts i j (c :: s) = (t.puts i j [c]).puts i (j + 1) s := rfl

theorem puts_append : t.puts i j (s ++ s') = (t.puts i j s).puts i (j + s.length) s' := by
  induction s generalizing t j with
  | nil => rfl
  | cons c s ih =>
    rw [List.cons_append, puts_cons, ih, ← puts_cons, List.length_cons, Nat.add_right_comm, Nat.add_assoc]

@[simp] theorem puts_params : (t.puts i j s).params = t.params := by
  induction s generalizing t j with
  | nil => rfl
  | cons c s ih => exact ih

theorem puts_buf_of_ne (hk : k ≠ i) : (t.puts i j s).buf k = t.buf k := by
  induction s generalizing t j with
  | nil => rfl
  | cons c s ih =>
    rw [puts_cons, ih]
    exact update_of_ne hk ..

theorem puts_buf_below (hk : k < j) : (t.puts i j s).buf i k = t.buf i k := by
  induction s generalizing t j with
  | nil => rfl
  | cons c s ih =>
    rw [puts_cons, ih (by omega)]
    simp [Table.puts, update_of_ne (show k ≠ j by omega)]

theorem puts_buf_at (hk : k < s.length) : (t.puts i j s).buf i (j + k) = s.getD k 0 := by
  induction s generalizing t j k with
  | nil => exact absurd hk (Nat.not_lt_zero k)
  | cons c s ih =>
    rw [puts_cons]
    cases k with
    | zero =>
      refine (puts_buf_below (Nat.lt_add_one j)).trans ?_
      simp [Table.puts]
    | succ k =>
      have hrest := ih (t := t.puts i j [c]) (j := j + 1) (k := k) (by simpa using hk)
      rw [show j + (k + 1) = j + 1 + k by omega, hrest]
      rfl

/-- What is read at a string, up to its first zero. -/
def cstr (s : Str) : Str := s.takeWhile (· ≠ 0)

theorem strOf_eq {p : Nat → BitVec 8} (hat : ∀ k < s.length, p k = s.getD k 0) (hend : p s.length = 0)
    (hn : s.length < n) :
    strOf p n = cstr s := by
  induction s generalizing p n with
  | nil =>
    cases n with
    | zero => rfl
    | succ n => simpa [strOf, cstr] using hend
  | cons c s ih =>
    cases n with
    | zero => simp at hn
    | succ n =>
      have hrest : strOf (fun i => p (i + 1)) n = cstr s :=
        ih (fun k hk => hat (k + 1) (by simpa using hk)) hend (by simpa using hn)
      have hc : p 0 = c := hat 0 (by simp)
      rw [strOf, hc, hrest]
      split_ifs with h
      · exact (List.takeWhile_cons_of_pos (by simpa using h)).symm
      · exact (List.takeWhile_cons_of_neg (by simpa using h)).symm

theorem strOf_puts (hn : s.length < n) : strOf ((t.puts i 0 (s ++ [0])).buf i) n = cstr s := by
  have hat : ∀ k < (s ++ [0]).length, (t.puts i 0 (s ++ [0])).buf i k = (s ++ [0]).getD k 0 := by
    intro k hk
    simpa using puts_buf_at (t := t) (i := i) (j := 0) hk
  refine strOf_eq (fun k hk => ?_) ?_ hn
  · rw [hat k (by simp; omega), List.getD_append _ _ _ _ hk]
  · rw [hat s.length (by simp)]
    simp

/-- Put the strings `ss` in the buffers from `i` on. -/
def Table.fill (t : Table) : Nat → List Str → Table
  | _, [] => t
  | i, s :: ss => (t.puts i 0 (s ++ [0])).fill (i + 1) ss

variable {ss : List Str}

@[simp] theorem fill_params : (t.fill i ss).params = t.params := by
  induction ss generalizing t i with
  | nil => rfl
  | cons s ss ih => rw [Table.fill, ih, puts_params]

theorem fill_buf_below (hk : k < i) : (t.fill i ss).buf k = t.buf k := by
  induction ss generalizing t i with
  | nil => rfl
  | cons s ss ih => rw [Table.fill, ih (by omega), puts_buf_of_ne (by omega)]

theorem strOf_fill (hss : ∀ s ∈ ss, s.length ≤ MAX_LENGTH) (hk : k < ss.length) :
    strOf ((t.fill i ss).buf (i + k)) (MAX_LENGTH + 1) = cstr ss[k] := by
  induction ss generalizing t i k with
  | nil => exact absurd hk (Nat.not_lt_zero k)
  | cons s ss ih =>
    obtain ⟨hs, hss⟩ := List.forall_mem_cons.mp hss
    cases k with
    | zero =>
      rw [Nat.add_zero, Table.fill, fill_buf_below (Nat.lt_add_one i)]
      exact strOf_puts (Nat.lt_succ_of_le hs)
    | succ k =>
      rw [show i + (k + 1) = i + 1 + k by omega]
      exact ih hss (by simpa using hk)

/-! ## Stores -/

/-- The first `n` pointers are good, and the next one is null. -/
structure Ready (t : Table) (n : Nat) : Prop where
  le : n ≤ MAXARG
  good : ∀ i < n, t.params i = some i
  null : n < MAXARG → t.params n = none

theorem Ready.puts (hr : Ready t n) : Ready (t.puts i j s) n := ⟨hr.le, by simpa using hr.good, by simpa using hr.null⟩

theorem Ready.store (hr : Ready t n) (hi : i < n) (c : BitVec 8) :
    t.store i j c = if j ≤ MAX_LENGTH then some (t.puts i j [c]) else none := by
  rw [Table.store, if_pos (hi.trans_le hr.le), hr.good i hi]
  rfl

theorem Ready.store_none (hr : Ready t n) (c : BitVec 8) : t.store n j c = none := by
  by_cases hn : n < MAXARG
  · rw [Table.store, if_pos hn, hr.null hn]
  · rw [Table.store, if_neg hn]

theorem Ready.strcpy (hr : Ready t n) (hi : i < n) :
    strcpy i j s t = if j + s.length ≤ MAX_LENGTH then some (t.puts i j (s ++ [0])) else none := by
  induction s generalizing t j with
  | nil => exact hr.store hi 0
  | cons c s ih =>
    rw [Xargs.strcpy, hr.store hi, List.length_cons]
    by_cases hj : j ≤ MAX_LENGTH
    · rw [if_pos hj, Option.bind_some, ih hr.puts, Nat.add_right_comm, Nat.add_assoc]
      rfl
    · rw [if_neg hj, if_neg (by omega), Option.bind_none]

theorem Ready.copyArgs (hr : Ready t n) (hi : i ≤ n) :
    copyArgs i ss t = if (∀ s ∈ ss, s.length ≤ MAX_LENGTH) ∧ i + ss.length ≤ n then some (t.fill i ss) else none := by
  induction ss generalizing t i with
  | nil => exact (if_pos ⟨by simp, hi⟩).symm
  | cons s ss ih =>
    rw [Xargs.copyArgs]
    rcases hi.eq_or_lt with rfl | hi
    · rw [if_neg (by simp)]
      cases s with
      | nil => rw [Xargs.strcpy, hr.store_none, Option.bind_none]
      | cons c s => rw [Xargs.strcpy, hr.store_none, Option.bind_none, Option.bind_none]
    · rw [hr.strcpy hi, Nat.zero_add]
      by_cases hs : s.length ≤ MAX_LENGTH
      · rw [if_pos hs, Option.bind_some, ih hr.puts hi]
        exact if_congr (by simp [hs, Nat.add_assoc, Nat.add_comm 1]) rfl rfl
      · rw [if_neg hs, if_neg fun h => hs (h.1 s List.mem_cons_self), Option.bind_none]

/-! ## Reading -/

/-- A string that fits in a buffer. -/
def Fits (s : Str) : Prop := s.length ≤ MAX_LENGTH ∧ ∀ c ∈ s, c ≠ 0

/-- Letters of a word. -/
def Letters (s : Str) : Prop := ∀ c ∈ s, c ≠ space ∧ c ≠ newline

/-- The text of a line. -/
def lineText (ss : List Str) : Str := [space].intercalate ss ++ [newline]

/-- A word of the input. -/
structure Word (s : Str) : Prop where
  fits : Fits s
  letters : Letters s

instance (s : Str) : Decidable (Fits s) := inferInstanceAs (Decidable (_ ∧ _))

instance (s : Str) : Decidable (Letters s) := inferInstanceAs (Decidable (∀ c ∈ s, _))

instance (s : Str) : Decidable (Word s) :=
  decidable_of_iff (Fits s ∧ Letters s) ⟨fun h => ⟨h.1, h.2⟩, fun h => ⟨h.fits, h.letters⟩⟩

theorem Fits.cstr_eq (h : Fits s) : cstr s = s := List.takeWhile_eq_self_iff.mpr fun c hc => decide_eq_true (h.2 c hc)

theorem readLoop_none (hr : Ready t n) (hs : s ≠ []) : readLoop n j s t = none := by
  cases s with
  | nil => exact absurd rfl hs
  | cons c s => simp only [readLoop, hr.store_none, Option.bind_none, ite_self]

theorem readLoop_letters (rest : Str) (hs : Letters s) (hr : Ready t n) (hi : i < n) (hj : j ≤ MAX_LENGTH + 1) :
    readLoop i j (s ++ rest) t =
    if j + s.length ≤ MAX_LENGTH + 1 then readLoop i (j + s.length) rest (t.puts i j s) else none := by
  induction s generalizing t j with
  | nil => exact (if_pos hj).symm
  | cons c s ih =>
    obtain ⟨⟨hsp, hnl⟩, hs⟩ := List.forall_mem_cons.mp hs
    rw [List.cons_append, readLoop, if_neg hsp, if_neg hnl, hr.store hi, List.length_cons]
    by_cases h : j ≤ MAX_LENGTH
    · rw [if_pos h, Option.bind_some, ih hs hr.puts (by omega), ← puts_cons, Nat.add_right_comm, Nat.add_assoc]
    · rw [if_neg h, if_neg (by omega), Option.bind_none]

theorem readLoop_end {b : BitVec 8} (hb : b = space ∨ b = newline) (hs : Letters s) (hr : Ready t n) (hi : i ≤ n) :
    readLoop i 0 (s ++ b :: rest) t =
      if i < n ∧ s.length ≤ MAX_LENGTH then readLoop i s.length (b :: rest) (t.puts i 0 s) else none := by
  rcases hi.eq_or_lt with rfl | hi
  · rw [readLoop_none hr (by simp), if_neg (by omega)]
  · rw [readLoop_letters _ hs hr hi (Nat.zero_le _), Nat.zero_add]
    by_cases h : s.length ≤ MAX_LENGTH
    · rw [if_pos (by omega), if_pos ⟨hi, h⟩]
    · rw [if_neg (fun hc : i < n ∧ _ => h hc.2)]
      split_ifs
      · rcases hb with rfl | rfl
        · rw [readLoop, if_pos rfl, hr.puts.store hi, if_neg h, Option.bind_none]
        · rw [readLoop, if_neg (by decide), if_pos rfl, hr.puts.store hi, if_neg h, Option.bind_none]
      · rfl

theorem readLoop_word (hs : Letters s) (hr : Ready t n) (hi : i ≤ n) : readLoop i 0 (s ++ space :: rest) t =
    if i < n ∧ s.length ≤ MAX_LENGTH then readLoop (i + 1) 0 rest (t.puts i 0 (s ++ [0])) else none := by
  rw [readLoop_end (.inl rfl) hs hr hi]
  split_ifs with h
  · rw [readLoop, if_pos rfl, hr.puts.store h.1, if_pos h.2, Option.bind_some, puts_append, Nat.zero_add]
  · rfl

theorem lineText_cons : lineText (s :: s' :: ss) = s ++ space :: lineText (s' :: ss) := by
  simp [lineText, List.intercalate_cons_cons]

/-- The words of a line and the null pointer behind them have their places, from entry `i` on. -/
def LineOk (i n : Nat) (ss : List Str) : Prop :=
  (∀ s ∈ ss, s.length ≤ MAX_LENGTH) ∧ i + ss.length ≤ n ∧ i + ss.length < MAXARG

instance LineOk.decidable (i n : Nat) (ss : List Str) : Decidable (LineOk i n ss) :=
  inferInstanceAs (Decidable (_ ∧ _ ∧ _))

theorem lineOk_cons : LineOk i n (s :: s' :: ss) ↔ (i < n ∧ s.length ≤ MAX_LENGTH) ∧ LineOk (i + 1) n (s' :: ss) := by
  rw [LineOk, LineOk, List.forall_mem_cons, List.length_cons, List.length_cons]
  constructor
  · rintro ⟨⟨hs, hss⟩, hn, hmax⟩
    exact ⟨⟨by omega, hs⟩, hss, by omega, by omega⟩
  · rintro ⟨⟨-, hs⟩, hss, hn, hmax⟩
    exact ⟨⟨hs, hss⟩, by omega, by omega⟩

theorem readLoop_line (hss : ∀ s ∈ ss, Letters s) (hne : ss ≠ []) (hr : Ready t n) (hi : i ≤ n) :
    readLoop i 0 (lineText ss ++ rest) t = if LineOk i n ss then
      some (some ({ t.fill i ss with params := update t.params (i + ss.length) none }, rest)) else none := by
  induction ss generalizing t i with
  | nil => exact absurd rfl hne
  | cons s ss ih =>
    obtain ⟨hs, hss⟩ := List.forall_mem_cons.mp hss
    cases ss with
    | nil =>
      rw [lineText, List.intercalate_singleton, List.append_assoc, List.singleton_append,
        readLoop_end (.inr rfl) hs hr hi]
      by_cases h : i < n ∧ s.length ≤ MAX_LENGTH
      · rw [if_pos h, readLoop, if_neg (by decide), if_pos rfl, hr.puts.store h.1, if_pos h.2,
          Option.bind_some, Table.clear]
        by_cases hmax : i + 1 < MAXARG
        · rw [if_pos hmax, if_pos ⟨by simpa using h.2, h.1, hmax⟩, puts_params, puts_params, Option.map_some]
          have hputs : t.puts i 0 (s ++ [0]) = (t.puts i 0 s).puts i s.length [0] := by rw [puts_append, Nat.zero_add]
          rw [Table.fill, hputs]
          rfl
        · rw [if_neg hmax, if_neg fun hc => hmax hc.2.2]
          rfl
      · rw [if_neg h, if_neg fun hc => h ⟨hc.2.1, hc.1 s List.mem_cons_self⟩]
    | cons s' ss =>
      rw [lineText_cons, List.append_assoc, List.cons_append, readLoop_word hs hr hi]
      by_cases h : i < n ∧ s.length ≤ MAX_LENGTH
      · rw [if_pos h, ih hss (List.cons_ne_nil _ _) hr.puts h.1, puts_params]
        refine if_congr ?_ ?_ rfl
        · rw [lineOk_cons]
          exact (and_iff_right h).symm
        · have hlen : i + 1 + (s' :: ss).length = i + (s :: s' :: ss).length := by
            rw [List.length_cons (a := s), Nat.add_assoc, Nat.add_comm 1]
          rw [hlen]
          rfl
      · rw [if_neg h, if_neg fun hc => h (lineOk_cons.mp hc).1]

/-- The words behind the last newline have their places. The last one is not terminated. -/
def FragOk (n : Nat) : Nat → List Str → Prop
  | _, [] => True
  | i, [s] => s = [] ∨ i < n ∧ s.length ≤ MAX_LENGTH + 1
  | i, s :: s' :: ss => (i < n ∧ s.length ≤ MAX_LENGTH) ∧ FragOk n (i + 1) (s' :: ss)

instance FragOk.decidable (n : Nat) : ∀ i ss, Decidable (FragOk n i ss)
  | _, [] => isTrue trivial
  | i, [s] => inferInstanceAs (Decidable (s = [] ∨ i < n ∧ s.length ≤ MAX_LENGTH + 1))
  | i, s :: s' :: ss =>
    have := FragOk.decidable n (i + 1) (s' :: ss)
    inferInstanceAs (Decidable ((i < n ∧ s.length ≤ MAX_LENGTH) ∧ FragOk n (i + 1) (s' :: ss)))

theorem readLoop_frag (hss : ∀ s ∈ ss, Letters s) (hr : Ready t n) (hi : i ≤ n) :
    readLoop i 0 ([space].intercalate ss) t = if FragOk n i ss then some none else none := by
  induction ss generalizing t i with
  | nil => rfl
  | cons s ss ih =>
    obtain ⟨hs, hss⟩ := List.forall_mem_cons.mp hss
    cases ss with
    | nil =>
      rw [List.intercalate_singleton]
      by_cases hnil : s = []
      · rw [if_pos (show FragOk n i [s] from .inl hnil), hnil]
        rfl
      rcases hi.eq_or_lt with rfl | hi
      · rw [readLoop_none hr hnil, if_neg (by simp [FragOk, hnil])]
      · have hread := readLoop_letters [] hs hr hi (Nat.zero_le _)
        rw [List.append_nil, Nat.zero_add] at hread
        rw [hread]
        exact if_congr (by simp [FragOk, hnil, hi]) rfl rfl
    | cons s' ss =>
      rw [List.intercalate_cons_cons, List.append_assoc, List.singleton_append, readLoop_word hs hr hi]
      by_cases h : i < n ∧ s.length ≤ MAX_LENGTH
      · rw [if_pos h, ih hss hr.puts h.1]
        exact if_congr (and_iff_right h).symm rfl rfl
      · rw [if_neg h, if_neg fun hc => h hc.1]

theorem LineOk.frag (h : LineOk i n ss) : FragOk n i ss := by
  induction ss generalizing i with
  | nil => trivial
  | cons s ss ih =>
    cases ss with
    | nil => exact .inr ⟨h.2.1, Nat.le_succ_of_le (h.1 s List.mem_cons_self)⟩
    | cons s' ss =>
      obtain ⟨hs, hrest⟩ := lineOk_cons.mp h
      exact ⟨hs, ih hrest⟩

/-! ## One line -/

variable {args : List Str}

theorem fill_append {ss' : List Str} : t.fill i (ss ++ ss') = (t.fill i ss).fill (i + ss.length) ss' := by
  induction ss generalizing t i with
  | nil => rfl
  | cons s ss ih => rw [List.cons_append, Table.fill, ih, Table.fill, List.length_cons, Nat.add_assoc, Nat.add_comm 1]

theorem vectorFrom_eq (hp : ∀ k < ss.length, t.params (i + k) = some (i + k))
    (hs : ∀ k (h : k < ss.length), strOf (t.buf (i + k)) (MAX_LENGTH + 1) = ss[k])
    (hnull : t.params (i + ss.length) = none) (hn : ss.length < n) : t.vectorFrom n i = some ss := by
  induction ss generalizing i n with
  | nil =>
    cases n with
    | zero => simp at hn
    | succ n => simp only [Table.vectorFrom, show t.params i = none from hnull]
  | cons s ss ih =>
    cases n with
    | zero => simp at hn
    | succ n =>
      have hrest : t.vectorFrom n (i + 1) = some ss := by
        apply ih
        · intro k hk
          rw [Nat.add_assoc, Nat.add_comm 1]
          exact hp (k + 1) (by simpa using hk)
        · intro k hk
          rw [Nat.add_assoc, Nat.add_comm 1]
          exact hs (k + 1) (by simpa using hk)
        · rw [Nat.add_assoc, Nat.add_comm 1]
          exact hnull
        · simpa using hn
      have hi : t.params i = some i := hp 0 (by simp)
      have hs0 : strOf (t.buf i) (MAX_LENGTH + 1) = s := hs 0 (by simp)
      simp only [Table.vectorFrom, hi, hrest, hs0, Option.map_some]

/-- The table after a line. -/
def Table.line (t : Table) (args ss : List Str) : Table :=
  { (t.fill 0 args).fill args.length ss with params := update t.params (args.length + ss.length) none }

theorem line_ready (hr : Ready t n) (h : LineOk args.length n ss) :
    Ready (t.line args ss) (args.length + ss.length) := by
  obtain ⟨-, hn, hmax⟩ := h
  refine ⟨hmax.le, fun k hk => ?_, fun _ => update_self ..⟩
  exact (update_of_ne (by omega) ..).trans (hr.good k (by omega))

theorem line_vector (hargs : ∀ s ∈ args, s.length ≤ MAX_LENGTH) (hr : Ready t n) (h : LineOk args.length n ss) :
    (t.line args ss).vector = some ((args ++ ss).map cstr) := by
  have hready := line_ready hr h
  have hlen : ((args ++ ss).map cstr).length = args.length + ss.length := by rw [List.length_map, List.length_append]
  have hfits : ∀ s ∈ args ++ ss, s.length ≤ MAX_LENGTH := fun s hs => (List.mem_append.mp hs).elim (hargs s) (h.1 s)
  apply vectorFrom_eq
  · intro k hk
    rw [Nat.zero_add]
    exact hready.good k (hlen ▸ hk)
  · intro k hk
    rw [List.length_map] at hk
    have hbuf := strOf_fill (t := t) (i := 0) hfits hk
    rw [fill_append, Nat.zero_add] at hbuf
    rw [List.getElem_map]
    exact hbuf
  · rw [hlen, Nat.zero_add]
    exact hready.null h.2.2
  · rw [hlen]
    exact h.2.2

theorem moreToRead_line (rest : Str) (hargs : ∀ s ∈ args, s.length ≤ MAX_LENGTH) (hss : ∀ s ∈ ss, Letters s)
    (hne : ss ≠ [])
    (hr : Ready t n) (hm : args.length ≤ n) : moreToRead args (lineText ss ++ rest) t =
      if LineOk args.length n ss then some (some (t.line args ss, rest)) else none := by
  have hfill : Ready (t.fill 0 args) n := ⟨hr.le, by simpa using hr.good, by simpa using hr.null⟩
  rw [moreToRead, hr.copyArgs (Nat.zero_le n), if_pos ⟨hargs, by simpa using hm⟩, Option.bind_some,
    readLoop_line hss hne hfill hm, fill_params]
  rfl

theorem moreToRead_frag (hargs : ∀ s ∈ args, s.length ≤ MAX_LENGTH) (hss : ∀ s ∈ ss, Letters s) (hr : Ready t n)
    (hm : args.length ≤ n) :
    moreToRead args ([space].intercalate ss) t = if FragOk n args.length ss then some none else none := by
  have hfill : Ready (t.fill 0 args) n := ⟨hr.le, by simpa using hr.good, by simpa using hr.null⟩
  rw [moreToRead, hr.copyArgs (Nat.zero_le n), if_pos ⟨hargs, by simpa using hm⟩, Option.bind_some,
    readLoop_frag hss hfill hm]

/-! ## All lines -/

/-- All lines have their places behind `a` arguments, with `frag` behind the last newline. -/
def Safe (a : Nat) (frag : List Str) : Nat → List (List Str) → Prop
  | n, [] => FragOk n a frag
  | n, ss :: lines => LineOk a n ss ∧ Safe a frag (a + ss.length) lines

instance Safe.decidable (a : Nat) (frag : List Str) : ∀ n lines, Decidable (Safe a frag n lines)
  | n, [] => inferInstanceAs (Decidable (FragOk n a frag))
  | n, ss :: lines =>
    have := Safe.decidable a frag (a + ss.length) lines
    inferInstanceAs (Decidable (LineOk a n ss ∧ Safe a frag (a + ss.length) lines))

theorem mainLoop_eq {frag : List Str} {fuel : Nat} (hargs : ∀ s ∈ args, s.length ≤ MAX_LENGTH)
    (hlines : ∀ ss ∈ lines, ss ≠ [] ∧ ∀ s ∈ ss, Letters s) (hfrag : ∀ s ∈ frag, Letters s) (hr : Ready t n)
    (hm : args.length ≤ n) (hfuel : lines.length < fuel) :
    mainLoop args fuel (lines.flatMap lineText ++ [space].intercalate frag) t =
      if Safe args.length frag n lines then some (lines.map fun ss => (args ++ ss).map cstr) else none := by
  induction lines generalizing t n fuel with
  | nil =>
    cases fuel with
    | zero => simp at hfuel
    | succ fuel =>
      rw [List.flatMap_nil, List.nil_append, mainLoop, moreToRead_frag hargs hfrag hr hm]
      by_cases h : FragOk n args.length frag
      · rw [if_pos h, if_pos (show Safe args.length frag n [] from h)]
        rfl
      · rw [if_neg h, if_neg (show ¬Safe args.length frag n [] from h)]
        rfl
  | cons ss lines ih =>
    obtain ⟨⟨hne, hss⟩, hlines⟩ := List.forall_mem_cons.mp hlines
    cases fuel with
    | zero => simp at hfuel
    | succ fuel =>
      rw [List.flatMap_cons, List.append_assoc, mainLoop, moreToRead_line _ hargs hss hne hr hm]
      by_cases h : LineOk args.length n ss
      · rw [if_pos h, Option.bind_some]
        dsimp only
        rw [line_vector hargs hr h, Option.bind_some, ih hlines (line_ready hr h) (Nat.le_add_right _ _)
          (by simpa using hfuel)]
        rw [apply_ite (Option.map _), Option.map_some, Option.map_none]
        exact if_congr (and_iff_right h).symm rfl rfl
      · rw [if_neg h, if_neg fun hc => h hc.1, Option.bind_none]

theorem ready_start (buf : Nat → Nat → BitVec 8) : Ready ⟨some, buf⟩ MAXARG :=
  ⟨Nat.le_refl _, fun _ _ => rfl, fun h => absurd h (Nat.lt_irrefl _)⟩

theorem length_flatMap_lineText (lines : List (List Str)) : lines.length ≤ (lines.flatMap lineText).length := by
  induction lines with
  | nil => simp
  | cons ss lines ih =>
    rw [List.flatMap_cons, List.length_append, List.length_cons]
    have : 0 < (lineText ss).length := by simp [lineText]
    omega

/-! ## Lines that shrink -/

/-- An empty line has one word, which is empty. -/
def wordsOf (ss : List Str) : List Str := if ss = [] then [[]] else ss

theorem lineText_wordsOf (ss : List Str) : lineText (wordsOf ss) = lineText ss := by
  cases ss with
  | nil => rfl
  | cons s ss => rfl

theorem wordsOf_eq_iff : wordsOf ss = ss ↔ ss ≠ [] := by
  cases ss with
  | nil => simp [wordsOf]
  | cons s ss => simp [wordsOf]

theorem safe_iff {a : Nat} (hle : a ≤ n)
    (hlines : ∀ ss ∈ lines, (∀ s ∈ ss, s.length ≤ MAX_LENGTH) ∧ a + ss.length < MAXARG) : Safe a [[]] n lines ↔
      (∀ ss ∈ lines, a + ss.length ≤ n) ∧ (lines.map List.length).Pairwise (· ≥ ·) := by
  induction lines generalizing n with
  | nil => simp [Safe, FragOk]
  | cons ss lines ih =>
    obtain ⟨⟨hwords, hmax⟩, hlines⟩ := List.forall_mem_cons.mp hlines
    rw [Safe, ih (Nat.le_add_right _ _) hlines]
    simp only [List.forall_mem_cons, List.map_cons, List.pairwise_cons, List.forall_mem_map]
    constructor
    · rintro ⟨⟨-, hn, -⟩, hle, hpair⟩
      exact ⟨⟨hn, fun l hl => (hle l hl).trans hn⟩, fun l hl => Nat.le_of_add_le_add_left (hle l hl), hpair⟩
    · rintro ⟨⟨hn, -⟩, hle, hpair⟩
      exact ⟨⟨hwords, hn, hmax⟩, fun l hl => Nat.add_le_add_left (hle l hl) a, hpair⟩

/-- `xargs` runs its command once for each line, with the initial arguments and the words of the line, if and only
if no line is empty and none has more words than the one before. -/
theorem xargs_runs_each_line_iff (buf : Nat → Nat → BitVec 8) {args : List Str} {lines : List (List Str)}
    (hmax : args.length < MAXARG) (hargs : ∀ s ∈ args, Fits s)
    (hlines : ∀ ss ∈ lines, args.length + ss.length < MAXARG ∧ ∀ s ∈ ss, Word s) :
    main buf args (lines.flatMap lineText) = some (lines.map (args ++ ·)) ↔
      (∀ ss ∈ lines, ss ≠ []) ∧ (lines.map List.length).Pairwise (· ≥ ·) := by
  have hargs' : ∀ s ∈ args, s.length ≤ MAX_LENGTH := fun s hs => (hargs s hs).1
  have hmain : main buf args (lines.flatMap lineText) = if Safe args.length [[]] MAXARG (lines.map wordsOf) then
      some ((lines.map wordsOf).map fun ss => (args ++ ss).map cstr) else none := by
    have htext : lines.flatMap lineText = (lines.map wordsOf).flatMap lineText ++ [space].intercalate [[]] := by
      rw [List.flatMap_map, List.intercalate_singleton, List.append_nil]
      simp only [lineText_wordsOf]
    have hfuel := length_flatMap_lineText lines
    rw [main]
    nth_rewrite 2 [htext]
    refine mainLoop_eq hargs' ?_ (by decide) (ready_start buf) hmax.le (by rw [List.length_map]; omega)
    intro ss hss
    obtain ⟨ss, hmem, rfl⟩ := List.mem_map.mp hss
    rw [wordsOf]
    split_ifs with hnil
    · decide
    · exact ⟨hnil, fun s hs => ((hlines ss hmem).2 s hs).letters⟩
  have hnorm : (∀ ss ∈ lines, ss ≠ []) → lines.map wordsOf = lines := fun h =>
    (List.map_congr_left fun ss hss => wordsOf_eq_iff.mpr (h ss hss)).trans (List.map_id lines)
  have hcstr : ∀ ss ∈ lines, (args ++ wordsOf ss).map cstr = args ++ wordsOf ss := by
    intro ss hss
    refine (List.map_congr_left fun s hs => ?_).trans (List.map_id _)
    rw [wordsOf] at hs
    rcases List.mem_append.mp hs with hs | hs
    · exact (hargs s hs).cstr_eq
    · split_ifs at hs
      · rw [List.mem_singleton.mp hs]
        rfl
      · exact ((hlines ss hss).2 s hs).fits.cstr_eq
  have hshort : ∀ ss ∈ lines, (∀ s ∈ ss, s.length ≤ MAX_LENGTH) ∧ args.length + ss.length < MAXARG := fun ss hss =>
    ⟨fun s hs => ((hlines ss hss).2 s hs).fits.1, (hlines ss hss).1⟩
  rw [hmain]
  constructor
  · intro h
    split_ifs at h with hsafe
    rw [List.map_map, Option.some.injEq, List.map_inj_left] at h
    have hne : ∀ ss ∈ lines, ss ≠ [] := fun ss hss =>
      wordsOf_eq_iff.mp (List.append_cancel_left ((hcstr ss hss).symm.trans (h ss hss)))
    rw [hnorm hne, safe_iff hmax.le hshort] at hsafe
    exact ⟨hne, hsafe.2⟩
  · rintro ⟨hne, hpair⟩
    have hsafe := (safe_iff hmax.le hshort).mpr ⟨fun ss hss => (hlines ss hss).1.le, hpair⟩
    rw [← hnorm hne] at hsafe
    rw [if_pos hsafe, List.map_map]
    refine congrArg some (List.map_congr_left fun ss hss => ?_)
    exact (hcstr ss hss).trans (congrArg (args ++ ·) (wordsOf_eq_iff.mpr (hne ss hss)))

/-- `xargs e` with the lines `b c` and `a`. -/
theorem xargs_runs_each_line_iff_two :
    main (fun _ _ => 0) [[101]] ([[[98], [99]], [[97]]].flatMap lineText) = some [[[101], [98], [99]], [[101], [97]]] :=
  (xargs_runs_each_line_iff (fun _ _ => 0) (by decide) (by decide) (by decide)).mpr (by decide)

/-- With the lines `a` and `b c`, the word `c` is stored through a null pointer; with an empty line, the command gets an
empty argument. -/
theorem xargs_goes_wrong :
    main (fun _ _ => 0) [[101]] ([[[97]], [[98], [99]]].flatMap lineText) = none ∧
    main (fun _ _ => 0) [[101]] (lineText []) = some [[[101], []]] := by
  decide

/-! ## Any input -/

/-- The words of the lines that end with a newline. -/
def fullLines (input : Str) : List (List Str) := (input.splitOn newline).dropLast.map (List.splitOn space)

/-- The words behind the last newline. -/
def lastWords (input : Str) : List Str := ((input.splitOn newline).getLastD []).splitOn space

theorem splitOn_spec {b : BitVec 8} {l : Str} (hl : l ∈ s.splitOn b) : b ∉ l ∧ ∀ c ∈ l, c ∈ s := by
  induction s generalizing l with
  | nil =>
    rw [List.splitOn_nil, List.mem_singleton] at hl
    rw [hl]
    exact ⟨List.not_mem_nil, fun c hc => hc⟩
  | cons d s ih =>
    rw [List.splitOn_cons_eq_if_modifyHead] at hl
    split_ifs at hl with hd
    · rcases List.mem_cons.mp hl with rfl | hl
      · exact ⟨List.not_mem_nil, fun c hc => absurd hc List.not_mem_nil⟩
      · exact ⟨(ih hl).1, fun c hc => List.mem_cons_of_mem d ((ih hl).2 c hc)⟩
    · cases hparts : s.splitOn b with
      | nil => exact absurd hparts (List.splitOn_ne_nil b s)
      | cons f fs =>
        rw [hparts] at ih hl
        rcases List.mem_cons.mp hl with rfl | hl
        · obtain ⟨hb, hsub⟩ := ih List.mem_cons_self
          refine ⟨fun h => ?_, fun c hc => ?_⟩
          · rcases List.mem_cons.mp h with rfl | h
            · exact hd (beq_self_eq_true b)
            · exact hb h
          · exact (List.mem_cons.mp hc).elim (fun h => h ▸ List.mem_cons_self) fun h =>
              List.mem_cons_of_mem d (hsub c h)
        · obtain ⟨hb, hsub⟩ := ih (List.mem_cons_of_mem f hl)
          exact ⟨hb, fun c hc => List.mem_cons_of_mem d (hsub c hc)⟩

theorem splitOn_letters {l : Str} (hl : newline ∉ l) : ∀ s ∈ l.splitOn space, Letters s := by
  intro s hs c hc
  obtain ⟨hsp, hsub⟩ := splitOn_spec hs
  exact ⟨fun h => hsp (h ▸ hc), fun h => hl (h ▸ hsub c hc)⟩

theorem intercalate_newline (ls : List Str) (l : Str) :
    [newline].intercalate (ls ++ [l]) = (ls.map (List.splitOn space)).flatMap lineText ++ l := by
  induction ls with
  | nil => exact List.intercalate_singleton
  | cons l' ls ih =>
    have htext : lineText (l'.splitOn space) = l' ++ [newline] := by rw [lineText, List.intercalate_splitOn]
    rw [List.cons_append, List.intercalate_cons_of_ne_nil (by simp), ih, List.map_cons, List.flatMap_cons, htext]
    simp only [List.append_assoc]

theorem splitOn_concat (input : Str) :
    (input.splitOn newline).dropLast ++ [(input.splitOn newline).getLastD []] = input.splitOn newline := by
  have hne := List.splitOn_ne_nil newline input
  rw [List.getLastD_eq_getLast?, List.getLast?_eq_some_getLast hne, Option.getD_some, List.dropLast_concat_getLast hne]

theorem input_eq (input : Str) :
    input = (fullLines input).flatMap lineText ++ [space].intercalate (lastWords input) := by
  rw [fullLines, lastWords, List.intercalate_splitOn, ← intercalate_newline, splitOn_concat, List.intercalate_splitOn]

/-- Every store is inside: the arguments are not too many or too long, the words of the lines and of what is
behind the last newline have their places, and no line has more words than the one before. -/
def InBounds (args : List Str) (input : Str) : Prop :=
  ((∀ s ∈ args, s.length ≤ MAX_LENGTH) ∧ args.length ≤ MAXARG) ∧
  Safe args.length (lastWords input) MAXARG (fullLines input)

instance InBounds.decidable (args : List Str) (input : Str) : Decidable (InBounds args input) :=
  inferInstanceAs (Decidable ((_ ∧ _) ∧ _))

theorem main_eq (buf : Nat → Nat → BitVec 8) (args : List Str) (input : Str) : main buf args input =
    if InBounds args input then some ((fullLines input).map fun ss => (args ++ ss).map cstr) else none := by
  by_cases hargs : (∀ s ∈ args, s.length ≤ MAX_LENGTH) ∧ args.length ≤ MAXARG
  · have hlast : ∀ s ∈ lastWords input, Letters s := by
      have hmem := List.mem_append_right (input.splitOn newline).dropLast
        (List.mem_singleton_self ((input.splitOn newline).getLastD []))
      rw [splitOn_concat] at hmem
      exact splitOn_letters (splitOn_spec hmem).1
    have hlines : ∀ ss ∈ fullLines input, ss ≠ [] ∧ ∀ s ∈ ss, Letters s := by
      intro ss hss
      obtain ⟨l, hl, rfl⟩ := List.mem_map.mp hss
      exact ⟨List.splitOn_ne_nil space l, splitOn_letters (splitOn_spec ((List.dropLast_sublist _).subset hl)).1⟩
    have hfuel : (fullLines input).length < input.length + 1 := by
      have := length_flatMap_lineText (fullLines input)
      have hlen := congrArg List.length (input_eq input)
      rw [List.length_append] at hlen
      omega
    rw [main]
    nth_rewrite 2 [input_eq input]
    rw [mainLoop_eq hargs.1 hlines hlast (ready_start buf) hargs.2 hfuel]
    exact if_congr (and_iff_right hargs).symm rfl rfl
  · rw [if_neg fun h => hargs h.1, main, mainLoop, moreToRead, (ready_start buf).copyArgs (Nat.zero_le _), Nat.zero_add,
      if_neg hargs]
    rfl

/-- The stores of `xargs` are inside of its table and buffers exactly under this condition. -/
theorem xargs_in_bounds_iff (buf : Nat → Nat → BitVec 8) (args : List Str) (input : Str) :
    main buf args input ≠ none ↔ InBounds args input := by
  rw [main_eq]
  split_ifs with h
  · exact iff_of_true (Option.some_ne_none _) h
  · exact iff_of_false (fun hne => hne rfl) h

/-- A second line with more words than the first, a word of 31 bytes and a line of 32 words are too much. -/
theorem xargs_out_of_bounds : main (fun _ _ => 0) [[101]] [97, 10, 98, 32, 99] = none ∧
    main (fun _ _ => 0) [[101]] (List.replicate 31 97 ++ [10]) = none ∧
    main (fun _ _ => 0) [[101]] (List.replicate 32 32) = none := by
  decide +kernel

theorem fullLines_newline (s : Str) : fullLines (s ++ [newline]) = fullLines s ++ [lastWords s] ∧
    lastWords (s ++ [newline]) = [[]] := by
  have hsplit : (s ++ [newline]).splitOn newline = s.splitOn newline ++ [[]] := by
    rw [List.splitOn_append_cons_self, List.splitOn_nil]
  constructor
  · rw [fullLines, fullLines, lastWords, hsplit, List.dropLast_concat, ← List.map_singleton, ← List.map_append,
      splitOn_concat]
  · rw [lastWords, hsplit, List.getLastD_concat, List.splitOn_nil]

theorem Safe.of_append {a : Nat} {frag : List Str} (h : Safe a [[]] n (lines ++ [frag])) :
    Safe a frag n lines := by
  induction lines generalizing n with
  | nil => exact h.1.frag
  | cons ss lines ih => exact ⟨h.1, ih h.2⟩

theorem InBounds.of_newline (h : InBounds args (s ++ [newline])) : InBounds args s := by
  obtain ⟨hargs, hsafe⟩ := h
  rw [(fullLines_newline s).1, (fullLines_newline s).2] at hsafe
  exact ⟨hargs, hsafe.of_append⟩

/-- A newline at the end makes a difference whenever the stores are inside: with it, the last line is
executed as well. -/
theorem xargs_newline_iff (buf : Nat → Nat → BitVec 8) (args : List Str) (s : Str) :
    (main buf args s = main buf args (s ++ [newline]) ↔ ¬InBounds args s) ∧
    (InBounds args (s ++ [newline]) → ∃ vs, main buf args s = some vs ∧
      main buf args (s ++ [newline]) = some (vs ++ [(args ++ lastWords s).map cstr])) := by
  have hnl : InBounds args (s ++ [newline]) → main buf args (s ++ [newline]) =
      some (((fullLines s).map fun ss => (args ++ ss).map cstr) ++ [(args ++ lastWords s).map cstr]) := by
    intro h
    rw [main_eq, if_pos h, (fullLines_newline s).1, List.map_append]
    rfl
  refine ⟨⟨fun heq hin => ?_, fun hout => ?_⟩, fun h => ⟨_, (main_eq buf args s).trans (if_pos h.of_newline), hnl h⟩⟩
  · rw [main_eq, if_pos hin] at heq
    by_cases h : InBounds args (s ++ [newline])
    · rw [hnl h, Option.some.injEq] at heq
      exact absurd (congrArg List.length heq) (by simp)
    · simp [main_eq, if_neg h] at heq
  · rw [main_eq, main_eq, if_neg hout, if_neg fun h => hout h.of_newline]

/-- `xargs e` with `a` on its standard input, without and with a newline. -/
theorem xargs_newline_iff_one : ¬main (fun _ _ => 0) [[101]] [97] = main (fun _ _ => 0) [[101]] ([97] ++ [newline]) :=
  fun h => (xargs_newline_iff (fun _ _ => 0) [[101]] [97]).1.mp h (by decide)

theorem xargs_drops_last_line : main (fun _ _ => 0) [[101]] [97] = some [] ∧
    main (fun _ _ => 0) [[101]] ([97] ++ [newline]) = some [[[101], [97]]] := by
  decide

end Xv6.Xargs

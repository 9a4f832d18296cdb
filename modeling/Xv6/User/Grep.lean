import Mathlib.Data.List.TakeWhile

/-!
# `grep`

`user/grep.c`: the matcher for regular expressions, and the loop that looks for lines in a buffer of 1024 bytes.

A string is the list of its bytes without the terminating zero. `matchstar` gets `matchhere(re, ·)` as an
argument, so that both are defined by recursion on the pattern and on the text; this is also why they end.

The loop keeps the beginning of a line that is not complete yet at the start of the buffer. A line that does
not fit makes the next `read` ask for no bytes, which looks like the end of the file.
-/

namespace Xv6.Grep

abbrev Byte := BitVec 8

abbrev Str := List Byte

def caret : Byte := 94

def dollar : Byte := 36

def dot : Byte := 46

def asterisk : Byte := 42

def newline : Byte := 10

/-! ## The matcher -/

/-- `matchstar(c, re, text)`, where `here` is `matchhere(re, ·)`. -/
def matchstar (here : Str → Bool) (c : Byte) : Str → Bool
  | [] => here []
  | t :: text => here (t :: text) || (decide (t = c ∨ c = dot) && matchstar here c text)

def matchhere : Str → Str → Bool
  | [], _ => true
  | [c], text =>
    if c = dollar then text.isEmpty
    else match text with
      | [] => false
      | t :: _ => decide (c = dot ∨ c = t)
  | c :: d :: re, text =>
    if d = asterisk then matchstar (matchhere re) c text
    else match text with
      | [] => false
      | t :: text => decide (c = dot ∨ c = t) && matchhere (d :: re) text

/-- The loop of `match`. -/
def matchAnywhere (re : Str) : Str → Bool
  | [] => matchhere re []
  | t :: text => matchhere re (t :: text) || matchAnywhere re text

/-- `match` -/
def matchRe (re text : Str) : Bool := if re.head? = some caret then matchhere re.tail text else matchAnywhere re text

/-! ## Regular expressions -/

inductive Item
  | one (c : Byte)
  | star (c : Byte)

/-- The items of a pattern behind a leading `^`, and whether it ends with `$`. -/
def items : Str → List Item × Bool
  | [] => ([], false)
  | [c] => if c = dollar then ([], true) else ([.one c], false)
  | c :: d :: re =>
    if d = asterisk then (.star c :: (items re).1, (items re).2)
    else (.one c :: (items (d :: re)).1, (items (d :: re)).2)

/-- `.` stands for any byte. -/
def Stands (c b : Byte) : Prop := c = dot ∨ c = b

def Item.Lang : Item → Str → Prop
  | .one c, w => ∃ b, w = [b] ∧ Stands c b
  | .star c, w => ∀ b ∈ w, Stands c b

def Lang : List Item → Str → Prop
  | [], w => w = []
  | i :: is, w => ∃ u v, w = u ++ v ∧ i.Lang u ∧ Lang is v

/-- The text begins with a word of the pattern, and ends with it if the pattern says so. -/
def Here (p : List Item × Bool) (text : Str) : Prop :=
  ∃ w post, text = w ++ post ∧ Lang p.1 w ∧ (p.2 = true → post = [])

variable {re text : Str} {c d : Byte} {is : List Item} {b : Bool}

theorem here_nil : Here ([], false) text := ⟨[], text, rfl, rfl, nofun⟩

theorem here_end : Here ([], true) text ↔ text = [] := by
  constructor
  · rintro ⟨w, post, rfl, rfl, hpost⟩
    exact hpost rfl
  · rintro rfl
    exact ⟨[], [], rfl, rfl, fun _ => rfl⟩

theorem here_cons (i : Item) : Here (i :: is, b) text ↔ ∃ u v, text = u ++ v ∧ i.Lang u ∧ Here (is, b) v := by
  constructor
  · rintro ⟨w, post, rfl, ⟨u, v, rfl, hu, hv⟩, hpost⟩
    exact ⟨u, v ++ post, List.append_assoc u v post, hu, v, post, rfl, hv, hpost⟩
  · rintro ⟨u, v, rfl, hu, w, post, rfl, hw, hpost⟩
    exact ⟨u ++ w, post, (List.append_assoc u w post).symm, ⟨u, w, rfl, hu, hw⟩, hpost⟩

theorem here_one : Here (.one c :: is, b) text ↔ ∃ t rest, text = t :: rest ∧ Stands c t ∧ Here (is, b) rest := by
  rw [here_cons]
  constructor
  · rintro ⟨u, v, rfl, ⟨t, rfl, ht⟩, hv⟩
    exact ⟨t, v, rfl, ht, hv⟩
  · rintro ⟨t, rest, rfl, ht, hrest⟩
    exact ⟨[t], rest, rfl, ⟨t, rfl, ht⟩, hrest⟩

theorem matchstar_iff {here : Str → Bool} :
    matchstar here c text = true ↔ ∃ u v, text = u ++ v ∧ (Item.star c).Lang u ∧ here v = true := by
  induction text with
  | nil =>
    rw [matchstar]
    constructor
    · exact fun h => ⟨[], [], rfl, by simp [Item.Lang], h⟩
    · rintro ⟨u, v, huv, -, hv⟩
      rwa [(List.append_eq_nil_iff.mp huv.symm).2] at hv
  | cons t text ih =>
    rw [matchstar, Bool.or_eq_true, Bool.and_eq_true, decide_eq_true_iff, ih]
    constructor
    · rintro (h | ⟨ht, u, v, rfl, hu, hv⟩)
      · exact ⟨[], t :: text, rfl, by simp [Item.Lang], h⟩
      · refine ⟨t :: u, v, rfl, ?_, hv⟩
        intro b hb
        rcases List.mem_cons.mp hb with rfl | hb
        · exact ht.symm.imp_right Eq.symm
        · exact hu b hb
    · rintro ⟨u, v, huv, hu, hv⟩
      cases u with
      | nil =>
        left
        rw [huv]
        exact hv
      | cons s u =>
        obtain ⟨rfl, rfl⟩ := List.cons.inj huv
        exact .inr ⟨(hu t List.mem_cons_self).symm.imp_left Eq.symm, u, v, rfl, fun b hb =>
          hu b (List.mem_cons_of_mem t hb), hv⟩

theorem matchhere_iff (re text : Str) : matchhere re text = true ↔ Here (items re) text := by
  induction re using items.induct generalizing text with
  | case1 => exact iff_of_true rfl here_nil
  | case2 => simp only [matchhere, items, if_true, List.isEmpty_iff, here_end]
  | case3 c hc =>
    simp only [matchhere, items, if_neg hc, here_one]
    cases text with
    | nil => simp
    | cons t text => simp [here_nil, Stands]
  | case4 c re ih =>
    simp only [matchhere, items, if_true, matchstar_iff, here_cons, ih]
  | case5 c d re hd ih =>
    simp only [matchhere, items, if_neg hd, here_one]
    cases text with
    | nil => simp
    | cons t text =>
      simp only [Bool.and_eq_true, decide_eq_true_iff, ih]
      constructor
      · rintro ⟨hc, h⟩
        exact ⟨t, text, rfl, hc, h⟩
      · rintro ⟨_, _, heq, hc, h⟩
        cases heq
        exact ⟨hc, h⟩

theorem matchAnywhere_iff : matchAnywhere re text = true ↔ ∃ pre rest, text = pre ++ rest ∧ Here (items re) rest := by
  induction text with
  | nil =>
    rw [matchAnywhere, matchhere_iff]
    constructor
    · exact fun h => ⟨[], [], rfl, h⟩
    · rintro ⟨pre, rest, heq, h⟩
      rwa [(List.append_eq_nil_iff.mp heq.symm).2] at h
  | cons t text ih =>
    rw [matchAnywhere, Bool.or_eq_true, matchhere_iff, ih]
    constructor
    · rintro (h | ⟨pre, rest, rfl, h⟩)
      · exact ⟨[], _, rfl, h⟩
      · exact ⟨t :: pre, rest, rfl, h⟩
    · rintro ⟨pre, rest, heq, h⟩
      cases pre with
      | nil => exact .inl (by rwa [heq])
      | cons s pre =>
        obtain ⟨rfl, rfl⟩ := List.cons.inj heq
        exact .inr ⟨pre, rest, rfl, h⟩

/-- `match` finds a word of the pattern in the text: at its beginning if the pattern begins with `^`, and up
to its end if it ends with `$`. -/
theorem match_exact (re text : Str) : matchRe re text = true ↔
    ∃ pre w post, text = pre ++ w ++ post ∧
      Lang (items (if re.head? = some caret then re.tail else re)).1 w ∧
      (re.head? = some caret → pre = []) ∧
      ((items (if re.head? = some caret then re.tail else re)).2 = true → post = []) := by
  rw [matchRe]
  split_ifs with hc
  · rw [matchhere_iff]
    constructor
    · rintro ⟨w, post, rfl, hw, hpost⟩
      exact ⟨[], w, post, rfl, hw, fun _ => rfl, hpost⟩
    · rintro ⟨pre, w, post, rfl, hw, hpre, hpost⟩
      exact ⟨w, post, by rw [hpre hc]; rfl, hw, hpost⟩
  · rw [matchAnywhere_iff]
    constructor
    · rintro ⟨pre, rest, rfl, w, post, rfl, hw, hpost⟩
      exact ⟨pre, w, post, (List.append_assoc ..).symm, hw, fun h => absurd h hc, hpost⟩
    · rintro ⟨pre, w, post, rfl, hw, -, hpost⟩
      exact ⟨pre, w ++ post, List.append_assoc .., w, post, rfl, hw, hpost⟩

/-! ## The loop -/

/-- `sizeof(buf)` -/
def BUF : Nat := 1024

/-- `strchr` on the bytes from `p` on: how far away the byte is. -/
def strchr (c : Byte) : Str → Option Nat
  | [] => none
  | b :: s => if b = 0 then none else if b = c then some 0 else (strchr c s).map (· + 1)

/-- The string at the start of some bytes. -/
def cstr (s : Str) : Str := s.takeWhile (· ≠ 0)

/-- The loop over the lines in the buffer, with the lines that are written. The first argument bounds the
number of lines. -/
def lineLoop (pattern : Str) : Nat → Str → Nat → List Str → Str × Nat × List Str
  | 0, buf, p, out => (buf, p, out)
  | fuel + 1, buf, p, out =>
    match strchr newline (buf.drop p) with
    | none => (buf, p, out)
    | some k =>
      let buf := buf.set (p + k) 0
      if matchRe pattern (cstr (buf.drop p)) then
        let buf := buf.set (p + k) newline
        lineLoop pattern fuel buf (p + k + 1) (out ++ [(buf.drop p).take (k + 1)])
      else lineLoop pattern fuel buf (p + k + 1) out

/-- How many bytes `read` returns that has been asked for `req` bytes, if it is up to `f`. -/
def readSize (f req left : Nat) : Nat := min (max f 1) (min req left)

/-- The outer loop: `m` bytes of the buffer are in use, and `input` is still to be read. -/
def grepLoop (pattern : Str) : List Nat → Nat → Str → Nat → Str → List Str → List Str
  | _, 0, _, _, _, out => out
  | fs, fuel + 1, buf, m, input, out =>
    let n := readSize (fs.headD 1) (BUF - m - 1) input.length
    if n = 0 then out
    else
      let buf := buf.take m ++ input.take n ++ buf.drop (m + n)
      let m := m + n
      let buf := buf.set m 0
      let r := lineLoop pattern BUF buf 0 out
      -- `m > 0` here; `memmove(buf, p, m)`
      let m := m - r.2.1
      grepLoop pattern fs.tail fuel ((r.1.drop r.2.1).take m ++ r.1.drop m) m (input.drop n) r.2.2

/-- The lines that `grep` writes, if the buffer has some contents at first and `fs` says how much each
`read` returns. -/
def grep (pattern : Str) (buf : Str) (fs : List Nat) (input : Str) : List Str :=
  grepLoop pattern fs (input.length + 1) buf 0 input []

/-! ## Lines -/

/-- The complete lines of a text, of which the first begins with `acc`. -/
def linesFrom (acc : Str) : Str → List Str
  | [] => []
  | c :: s => if c = newline then acc :: linesFrom [] s else linesFrom (acc ++ [c]) s

def lines (s : Str) : List Str := linesFrom [] s

/-- What is behind the last newline of a text. -/
def lastFrom (acc : Str) : Str → Str
  | [] => acc
  | c :: s => if c = newline then lastFrom [] s else lastFrom (acc ++ [c]) s

/-- A line that fits in the buffer. -/
def Short (l : Str) : Prop := l.length ≤ BUF - 2

instance Short.decidable (l : Str) : Decidable (Short l) := inferInstanceAs (Decidable (_ ≤ _))

variable {acc s s' line rest : Str} {pattern buf : Str}

theorem linesFrom_append (acc s s' : Str) : linesFrom acc (s ++ s') = linesFrom acc s ++ linesFrom (lastFrom acc s) s' ∧
    lastFrom acc (s ++ s') = lastFrom (lastFrom acc s) s' := by
  induction s generalizing acc with
  | nil => exact ⟨rfl, rfl⟩
  | cons c s ih =>
    rw [List.cons_append, linesFrom, linesFrom, lastFrom, lastFrom]
    split_ifs
    · rw [(ih []).1, (ih []).2, List.cons_append]
      exact ⟨rfl, rfl⟩
    · exact ih (acc ++ [c])

theorem linesFrom_line (acc rest : Str) (h : newline ∉ line) :
    linesFrom acc (line ++ newline :: rest) = (acc ++ line) :: lines rest ∧
    lastFrom acc (line ++ newline :: rest) = lastFrom [] rest := by
  induction line generalizing acc with
  | nil =>
    rw [List.nil_append, linesFrom, lastFrom, if_pos rfl, if_pos rfl, List.append_nil]
    exact ⟨rfl, rfl⟩
  | cons c line ih =>
    have hc := (List.ne_of_not_mem_cons h).symm
    rw [List.cons_append, linesFrom, lastFrom, if_neg hc, if_neg hc, List.append_cons acc c line]
    exact ih (acc ++ [c]) (List.not_mem_of_not_mem_cons h)

theorem linesFrom_of_not_mem (acc : Str) (h : newline ∉ s) : linesFrom acc s = [] ∧ lastFrom acc s = acc ++ s := by
  induction s generalizing acc with
  | nil => exact ⟨rfl, (List.append_nil acc).symm⟩
  | cons c s ih =>
    have hc := (List.ne_of_not_mem_cons h).symm
    rw [linesFrom, lastFrom, if_neg hc, if_neg hc, List.append_cons acc c s]
    exact ih (acc ++ [c]) (List.not_mem_of_not_mem_cons h)

theorem not_mem_lastFrom (h : newline ∉ acc) : newline ∉ lastFrom acc s := by
  induction s generalizing acc with
  | nil => exact h
  | cons c s ih =>
    rw [lastFrom]
    split_ifs with hc
    · exact ih List.not_mem_nil
    · refine ih fun hmem => ?_
      rcases List.mem_append.mp hmem with hmem | hmem
      · exact h hmem
      · exact hc (List.mem_singleton.mp hmem).symm

theorem length_lines_le (hl : line ∈ linesFrom acc s) : line.length < acc.length + s.length := by
  induction s generalizing acc with
  | nil => exact absurd hl List.not_mem_nil
  | cons c s ih =>
    rw [linesFrom] at hl
    rw [List.length_cons]
    split_ifs at hl with hc
    · rcases List.mem_cons.mp hl with rfl | hl
      · omega
      · have := ih hl
        rw [List.length_nil] at this
        omega
    · have := ih hl
      rw [List.length_append, List.length_singleton] at this
      omega

theorem mem_of_mem_lastFrom {b : Byte} (h : b ∈ lastFrom acc s) : b ∈ acc ++ s := by
  induction s generalizing acc with
  | nil => exact List.mem_append_left _ h
  | cons c s ih =>
    rw [lastFrom] at h
    split_ifs at h
    · exact List.mem_append_right _ (List.mem_cons_of_mem _ (ih h))
    · rw [List.append_cons]
      exact ih h

theorem takeWhile_long (h : BUF - 1 ≤ acc.length) (s : Str) : (linesFrom acc s).takeWhile (Short ·) = [] := by
  induction s generalizing acc with
  | nil => rfl
  | cons c s ih =>
    rw [linesFrom]
    split_ifs
    · refine List.takeWhile_cons_of_neg ?_
      rw [decide_eq_true_iff, Short]
      have hB : BUF = 1024 := rfl
      omega
    · exact ih (by rw [List.length_append]; omega)

/-! ## Correctness -/

theorem strchr_none {junk : Str} (h0 : 0 ∉ s) (hs : newline ∉ s) : strchr newline (s ++ 0 :: junk) = none := by
  induction s with
  | nil => rfl
  | cons b s ih =>
    rw [List.cons_append, strchr, if_neg (List.ne_of_not_mem_cons h0).symm, if_neg (List.ne_of_not_mem_cons hs).symm,
      ih (List.not_mem_of_not_mem_cons h0) (List.not_mem_of_not_mem_cons hs), Option.map_none]

theorem strchr_line (h0 : 0 ∉ line) (hs : newline ∉ line) :
    strchr newline (line ++ newline :: rest) = some line.length := by
  induction line with
  | nil => rfl
  | cons b s ih =>
    rw [List.cons_append, strchr, if_neg (List.ne_of_not_mem_cons h0).symm, if_neg (List.ne_of_not_mem_cons hs).symm,
      ih (List.not_mem_of_not_mem_cons h0) (List.not_mem_of_not_mem_cons hs), Option.map_some, List.length_cons]

theorem cstr_append (h0 : 0 ∉ line) : cstr (line ++ 0 :: rest) = line := by
  have hall : ∀ b ∈ line, decide (b ≠ 0) = true := fun b hb => decide_eq_true fun hb0 => h0 (hb0 ▸ hb)
  rw [cstr, List.takeWhile_append_of_pos hall, List.takeWhile_cons_of_neg (by simp), List.append_nil]

/-- What is written for the lines `ls`. -/
def written (pattern : Str) (ls : List Str) : List Str := (ls.filter (matchRe pattern)).map (· ++ [newline])

theorem written_append (ls ls' : List Str) :
    written pattern (ls ++ ls') = written pattern ls ++ written pattern ls' := by
  rw [written, List.filter_append, List.map_append]
  rfl

theorem lineLoop_eq (pattern pre junk : Str) (out : List Str) {fuel : Nat} (h0 : 0 ∉ s) (hfuel : s.length < fuel) :
    ∃ pre', lineLoop pattern fuel (pre ++ (s ++ 0 :: junk)) pre.length out =
        (pre' ++ (lastFrom [] s ++ 0 :: junk), pre'.length, out ++ written pattern (lines s)) ∧
      pre'.length + (lastFrom [] s).length = pre.length + s.length := by
  induction fuel generalizing s pre out with
  | zero => omega
  | succ fuel ih =>
    rw [lineLoop, List.drop_left]
    by_cases hnl : newline ∈ s
    · obtain ⟨line, rest, rfl, hline⟩ := List.eq_append_cons_of_mem hnl
      have h0line : 0 ∉ line := fun h => h0 (List.mem_append_left _ h)
      have h0rest : 0 ∉ rest := fun h => h0 (List.mem_append_right _ (List.mem_cons_of_mem _ h))
      have hset : ∀ b x : Byte, (pre ++ (line ++ b :: (rest ++ 0 :: junk))).set (pre.length + line.length) x =
          pre ++ (line ++ x :: (rest ++ 0 :: junk)) := by
        intro b x
        rw [List.set_append_right _ _ (Nat.le_add_right _ _), Nat.add_sub_cancel_left,
          List.set_append_right _ _ (Nat.le_refl _), Nat.sub_self, List.set_cons_zero]
      obtain ⟨hlines, hlast⟩ := linesFrom_line [] rest hline
      rw [List.length_append, List.length_cons] at hfuel
      -- the loop goes on behind the newline, whatever is there now
      have hgo : ∀ (b : Byte) (out' : List Str), out' = out ++ written pattern [line] →
          ∃ pre', lineLoop pattern fuel (pre ++ (line ++ b :: (rest ++ 0 :: junk)))
          (pre.length + line.length + 1) out' =
            (pre' ++ (lastFrom [] rest ++ 0 :: junk), pre'.length, out ++ written pattern (line :: lines rest)) ∧
          pre'.length + (lastFrom [] rest).length = pre.length + (line ++ newline :: rest).length := by
        rintro b _ rfl
        obtain ⟨pre', heq, hlen⟩ := ih (pre ++ (line ++ [b])) (out ++ written pattern [line]) h0rest (by omega)
        refine ⟨pre', ?_, ?_⟩
        · have hlen' : (pre ++ (line ++ [b])).length = pre.length + line.length + 1 := by
            simp only [List.length_append, List.length_singleton]
            omega
          rw [hlen', List.append_assoc, List.append_assoc, List.singleton_append, List.append_assoc] at heq
          rw [heq, ← written_append]
          rfl
        · simp only [List.length_append, List.length_cons, List.length_nil] at hlen ⊢
          omega
      rw [List.append_assoc, List.cons_append, strchr_line h0line hline, hlast, lines, hlines, List.nil_append]
      simp only [hset, List.drop_left, cstr_append h0line]
      split_ifs with hm
      · apply hgo newline
        rw [written, List.filter_cons_of_pos hm, List.filter_nil, List.map_singleton]
        rw [List.take_append, List.take_of_length_le (Nat.le_succ _), Nat.succ_sub (Nat.le_refl _), Nat.sub_self,
          List.take_succ_cons, List.take_zero]
      · apply hgo 0
        rw [written, List.filter_cons_of_neg hm, List.filter_nil, List.map_nil, List.append_nil]
    · rw [strchr_none h0 hnl]
      obtain ⟨h1, h2⟩ := linesFrom_of_not_mem [] hnl
      rw [lines, h1, h2]
      exact ⟨pre, by rw [written, List.filter_nil, List.map_nil, List.append_nil, List.nil_append], rfl⟩

theorem grepLoop_eq (pattern carry junk : Str) {fs : List Nat} {fuel : Nat} {input : Str} {out : List Str}
    (hbuf : (carry ++ junk).length = BUF) (hcarry : newline ∉ carry) (h0c : 0 ∉ carry) (h0 : 0 ∉ input)
    (hfuel : input.length < fuel) :
    grepLoop pattern fs fuel (carry ++ junk) carry.length input out =
      out ++ written pattern ((linesFrom carry input).takeWhile (Short ·)) := by
  induction fuel generalizing fs carry junk input out with
  | zero => omega
  | succ fuel ih =>
    rw [grepLoop]
    generalize hn : readSize (fs.headD 1) (BUF - carry.length - 1) input.length = n
    have hn' : n ≤ BUF - carry.length - 1 ∧ n ≤ input.length ∧
        (n = 0 → BUF - carry.length - 1 = 0 ∨ input.length = 0) := by
      rw [← hn, readSize]
      omega
    obtain ⟨hreq, hleft, hzero⟩ := hn'
    rw [List.length_append] at hbuf
    split_ifs with h
    · -- nothing is read: the input is at its end, or no room is left
      rw [show (linesFrom carry input).takeWhile (Short ·) = [] from ?_]
      · exact (List.append_nil out).symm
      · rcases hzero h with hfull | hend
        · exact takeWhile_long (by omega) input
        · rw [List.length_eq_zero_iff.mp hend]
          rfl
    · obtain ⟨b, junk', hjunk⟩ := List.exists_cons_of_length_pos (l := junk.drop n) (by rw [List.length_drop]; omega)
      have hset : ((carry ++ junk).take carry.length ++ input.take n ++ (carry ++ junk).drop (carry.length + n)).set
          (carry.length + n) 0 = [] ++ (carry ++ input.take n ++ 0 :: junk') := by
        rw [List.take_left, ← List.drop_drop, List.drop_left, hjunk, List.nil_append]
        rw [List.set_append_right _ _ (by rw [List.length_append, List.length_take]; omega)]
        rw [List.length_append, List.length_take, Nat.min_eq_left hleft, Nat.sub_self, List.set_cons_zero]
      have h0s : 0 ∉ carry ++ input.take n := fun hm =>
        (List.mem_append.mp hm).elim h0c fun hm => h0 (List.mem_of_mem_take hm)
      have hslen : (carry ++ input.take n).length = carry.length + n := by
        rw [List.length_append, List.length_take, Nat.min_eq_left hleft]
      have hsBUF : (carry ++ input.take n).length < BUF := by omega
      obtain ⟨pre', heq, hlen⟩ := lineLoop_eq pattern [] junk' out h0s hsBUF
      obtain ⟨hnone, hown⟩ := linesFrom_of_not_mem [] hcarry
      obtain ⟨hlines, hlast⟩ := linesFrom_append [] carry (input.take n)
      rw [hnone, hown, List.nil_append, List.nil_append] at hlines
      rw [hown, List.nil_append] at hlast
      have hdrop : linesFrom carry input =
          lines (carry ++ input.take n) ++ linesFrom (lastFrom [] (carry ++ input.take n)) (input.drop n) := by
        rw [lines, hlines, hlast, ← (linesFrom_append _ _ _).1, List.take_append_drop]
      have hfit : ∀ l ∈ lines (carry ++ input.take n), decide (Short l) = true := by
        intro l hl
        have := length_lines_le hl
        have hB : BUF = 1024 := rfl
        rw [decide_eq_true_iff, Short]
        rw [List.length_nil, Nat.zero_add] at this
        omega
      rw [List.length_nil] at heq
      rw [List.length_nil, Nat.zero_add] at hlen
      have hm : carry.length + n - pre'.length = (lastFrom [] (carry ++ input.take n)).length := by omega
      simp only [hset]
      simp only [heq, hm, List.drop_left, List.take_left]
      rw [ih _ _ ?_ (not_mem_lastFrom List.not_mem_nil) ?_ (fun hm => h0 (List.mem_of_mem_drop hm)) ?_]
      · rw [hdrop, List.takeWhile_append_of_pos hfit, written_append, List.append_assoc]
      · have := congrArg List.length hjunk
        simp only [List.length_append, List.length_drop, List.length_cons] at this ⊢
        omega
      · exact fun hm => h0s (mem_of_mem_lastFrom hm :)
      · rw [List.length_drop]
        omega

theorem grep_eq {input : Str} (fs : List Nat) (hbuf : buf.length = BUF) (h0 : 0 ∉ input) :
    grep pattern buf fs input = written pattern ((lines input).takeWhile (Short ·)) :=
  grepLoop_eq pattern [] buf hbuf List.not_mem_nil List.not_mem_nil h0 (Nat.lt_succ_self _)

/-- If every line fits in the buffer, exactly the lines are written that match, however the input arrives. -/
theorem grep_exact {input : Str} (fs : List Nat) (hbuf : buf.length = BUF) (h0 : 0 ∉ input)
    (hlines : ∀ l ∈ lines input, (l ++ [newline]).length ≤ BUF - 1) :
    grep pattern buf fs input = written pattern (lines input) := by
  rw [grep_eq fs hbuf h0, List.takeWhile_eq_self_iff.mpr]
  intro l hl
  have hfit := hlines l hl
  rw [List.length_append, List.length_singleton] at hfit
  rw [decide_eq_true_iff, Short]
  omega

/-- `^a*b$` on the lines `aab`, `ba` and `b`, in reads of two, one and then five bytes. -/
theorem grep_exact_three : grep [94, 97, 42, 98, 36] (List.replicate BUF 0) [2, 1, 5]
    [97, 97, 98, 10, 98, 97, 10, 98, 10, 97] = [[97, 97, 98, 10], [98, 10]] :=
  (grep_exact [2, 1, 5] List.length_replicate (by decide) (by decide)).trans (by decide)

/-- A line that fits and that matches is lost exactly if there is a longer line in front of it. -/
theorem grep_after_long_iff {input : Str} (fs : List Nat) (hbuf : buf.length = BUF) (h0 : 0 ∉ input) :
    (written pattern ((lines input).filter (Short ·))).Sublist (grep pattern buf fs input) ↔
      ∀ l ∈ (lines input).dropWhile (Short ·), Short l → matchRe pattern l = false := by
  have hsplit : (lines input).filter (Short ·) =
      (lines input).takeWhile (Short ·) ++ ((lines input).dropWhile (Short ·)).filter (Short ·) := by
    have hall : ∀ l ∈ (lines input).takeWhile (Short ·), decide (Short l) = true := by
      intro l hl
      exact List.mem_takeWhile_imp (p := (Short ·)) hl
    rw [← List.filter_eq_self.mpr hall, ← List.filter_append, List.takeWhile_append_dropWhile]
  rw [grep_eq fs hbuf h0, hsplit, written_append]
  constructor
  · intro h l hl hshort
    have hnil : written pattern (((lines input).dropWhile (Short ·)).filter (Short ·)) = [] := by
      have := h.length_le
      rw [List.length_append] at this
      exact List.length_eq_zero_iff.mp (by omega)
    rw [written, List.map_eq_nil_iff, List.filter_eq_nil_iff] at hnil
    exact Bool.eq_false_iff.mpr (hnil l (List.mem_filter.mpr ⟨hl, decide_eq_true hshort⟩))
  · intro h
    have hnil : written pattern (((lines input).dropWhile (Short ·)).filter (Short ·)) = [] := by
      rw [written, List.map_eq_nil_iff, List.filter_eq_nil_iff]
      intro l hl hm
      obtain ⟨hl, hshort⟩ := List.mem_filter.mp hl
      rw [h l hl (of_decide_eq_true hshort)] at hm
      exact Bool.false_ne_true hm
    simp only [hnil, List.append_nil, List.Sublist.refl]

section LongLine

theorem not_mem_longLine {b : Byte} (hb : b ≠ 97) : b ∉ List.replicate (BUF - 1) 97 := fun h =>
  hb (List.eq_of_mem_replicate h)

theorem not_short_longLine : ¬ Short (List.replicate (BUF - 1) 97) := by
  rw [Short, List.length_replicate]
  decide

/-- A line `b`, a line of 1023 bytes and a line `c`. -/
def longMiddle : Str := [98] ++ newline :: (List.replicate (BUF - 1) 97 ++ newline :: [99, 10])

theorem lines_longMiddle : lines longMiddle = [[98], List.replicate (BUF - 1) 97, [99]] := by
  rw [lines, longMiddle, (linesFrom_line [] _ (by decide)).1, lines,
    (linesFrom_line [] _ (not_mem_longLine (by decide))).1]
  rfl

/-- The line behind the long one does not match, and nothing is lost. -/
theorem grep_after_long_longMiddle : lines longMiddle = [[98], List.replicate (BUF - 1) 97, [99]] ∧
    [[98, 10]].Sublist (grep [98] (List.replicate BUF 0) [4] longMiddle) := by
  have h0 : 0 ∉ longMiddle := by
    simp only [longMiddle, List.mem_append, List.mem_cons, not_or]
    exact ⟨by decide, by decide, not_mem_longLine (by decide), by decide⟩
  have hfilter : (lines longMiddle).filter (Short ·) = [[98], [99]] := by
    rw [lines_longMiddle, List.filter_cons_of_pos (by decide),
      List.filter_cons_of_neg (by simpa using not_short_longLine)]
    rfl
  have hdrop : (lines longMiddle).dropWhile (Short ·) = [List.replicate (BUF - 1) 97, [99]] := by
    rw [lines_longMiddle, List.dropWhile_cons_of_pos (by decide),
      List.dropWhile_cons_of_neg (by simpa using not_short_longLine)]
  have hiff : (written [98] ((lines longMiddle).filter (Short ·))).Sublist
      (grep [98] (List.replicate BUF 0) [4] longMiddle) ↔ _ := grep_after_long_iff [4] List.length_replicate h0
  rw [hfilter, hdrop] at hiff
  refine ⟨lines_longMiddle, hiff.mpr fun l hl hshort => ?_⟩
  simp only [List.mem_cons, List.not_mem_nil, or_false] at hl
  rcases hl with rfl | rfl
  · exact absurd hshort not_short_longLine
  · decide

/-- One line of 1023 bytes, and a line `b` behind it. -/
def longFirst : Str := List.replicate (BUF - 1) 97 ++ newline :: [98, 10]

/-- Nothing is written for the line `b`. -/
theorem grep_long_hides_rest : lines longFirst = [List.replicate (BUF - 1) 97, [98]] ∧ 0 ∉ longFirst ∧
    matchRe ([98]) ([98]) = true ∧ grep ([98]) (List.replicate BUF 0) [] longFirst = [] := by
  have hlines : lines longFirst = [List.replicate (BUF - 1) 97, [98]] :=
    (linesFrom_line [] _ (not_mem_longLine (by decide))).1
  have h0 : 0 ∉ longFirst := fun h =>
    (List.mem_append.mp h).elim (not_mem_longLine (by decide)) (by decide)
  refine ⟨hlines, h0, by decide, ?_⟩
  rw [grep_eq [] List.length_replicate h0, hlines]
  rw [List.takeWhile_cons_of_neg (by simpa using not_short_longLine)]
  rfl

end LongLine

end Xv6.Grep

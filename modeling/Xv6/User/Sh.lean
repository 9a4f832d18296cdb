import Mathlib.Data.List.GetD
import Mathlib.Data.List.TakeWhile

/-!
# The parser of the shell

`parsecmd` of `user/sh.c` and the functions under it: a recursive descent over a line with one cursor, which
`peek` and `gettoken` move. A pointer into the line is its offset; the byte behind the last is zero. The
first part is the code. The second says what `gettoken` and `peek` do in terms of the tokens of the rest of
the line.

`malloc` does not fail here, and the stack does not overflow.
-/

namespace Xv6.Sh

abbrev Byte := BitVec 8

def ch (c : Char) : Byte := BitVec.ofNat 8 c.toNat

def chars (cs : List Char) : List Byte := cs.map ch

def MAXARGS : Nat := 10

def O_RDONLY : BitVec 32 := 0x000

def O_WRONLY : BitVec 32 := 0x001

def O_CREATE : BitVec 32 := 0x200

def O_TRUNC : BitVec 32 := 0x400

/-- A word of the line: pointers to its first byte and behind its last. -/
structure Span where
  q : Nat
  eq : Nat
  deriving DecidableEq

/-- A redirection, whose file name is a word of the line or a string. -/
structure Redir (W : Type) where
  file : W
  mode : BitVec 32
  fd : Nat
  deriving DecidableEq

inductive Cmd (W : Type)
  | exec (argv : List W)
  | redir (cmd : Cmd W) (r : Redir W)
  | pipe (left right : Cmd W)
  | list (left right : Cmd W)
  | back (cmd : Cmd W)
  deriving DecidableEq

inductive Panic
  | missingFile
  | parseblock
  | missingParen
  | badSyntax
  | tooManyArgs
  deriving DecidableEq

/-- The parser panics, or does not end within the fuel. -/
inductive Stop
  | panic (p : Panic)
  | fuel
  deriving DecidableEq

/-! ## The code -/

def whitespace : List Byte := chars [' ', '\t', '\r', '\n', '\x0b']

def symbols : List Byte := chars ['<', '|', '>', '&', ';', '(', ')']

def isSpace (c : Byte) : Bool := whitespace.contains c

def isWord (c : Byte) : Bool := !whitespace.contains c && !symbols.contains c

/-- `*s` -/
def byteAt (line : List Byte) (s : Nat) : Byte := line.getD s 0

/-- `while(s < es && p(*s)) s++`, where `n` is `es - s`. -/
def skip (line : List Byte) (p : Byte → Bool) : Nat → Nat → Nat
  | 0, s => s
  | n + 1, s => if p (byteAt line s) then skip line p n (s + 1) else s

def skipWhile (line : List Byte) (p : Byte → Bool) (s : Nat) : Nat := skip line p (line.length - s) s

/-- What `gettoken` returns, with `q` and `eq`. -/
structure Got where
  ret : Byte
  span : Span

/-- The `switch` of `gettoken`: `ret` and the end of the token at `q`. -/
def tokenAt (line : List Byte) (q : Nat) : Byte × Nat :=
  let c := byteAt line q
  if c = 0 then (c, q)
  else if c ∈ chars ['|', '(', ')', ';', '&', '<'] then (c, q + 1)
  else if c = ch '>' then if byteAt line (q + 1) = ch '>' then (ch '+', q + 2) else (c, q + 1)
  else (ch 'a', skipWhile line isWord q)

def gettoken (line : List Byte) (s : Nat) : Got × Nat :=
  let q := skipWhile line isSpace s
  let t := tokenAt line q
  (⟨t.1, ⟨q, t.2⟩⟩, skipWhile line isSpace t.2)

def peek (line : List Byte) (s : Nat) (toks : List Byte) : Bool × Nat :=
  let s := skipWhile line isSpace s
  (byteAt line s ≠ 0 && toks.contains (byteAt line s), s)

/-- The `switch` of `parseredirs`. -/
def redirFor {W : Type} (tok : Byte) (file : W) : List (Redir W) :=
  if tok = ch '<' then [⟨file, O_RDONLY, 0⟩]
  else if tok = ch '>' then [⟨file, O_WRONLY ||| O_CREATE ||| O_TRUNC, 1⟩]
  else if tok = ch '+' then [⟨file, O_WRONLY ||| O_CREATE, 1⟩]
  else []

/-- The redirections of a command, the first innermost. The code wraps them as it finds them, around an
`EXEC` that it goes on to fill. -/
def Cmd.wrap {W : Type} (cmd : Cmd W) (rs : List (Redir W)) : Cmd W := rs.foldl .redir cmd

def parseredirs (line : List Byte) : Nat → List (Redir Span) → Nat → Except Stop (List (Redir Span) × Nat)
  | 0, _, _ => .error .fuel
  | fuel + 1, rs, s =>
    let p := peek line s (chars ['<', '>'])
    if p.1 then
      let tok := gettoken line p.2
      let file := gettoken line tok.2
      if file.1.ret ≠ ch 'a' then .error (.panic .missingFile)
      else parseredirs line fuel (rs ++ redirFor tok.1.ret file.1.span) file.2
    else .ok (rs, p.2)

/-- The loop of `parseexec`: the words and the redirections so far. -/
def parsewords (line : List Byte) :
    Nat → List Span → List (Redir Span) → Nat → Except Stop ((List Span × List (Redir Span)) × Nat)
  | 0, _, _, _ => .error .fuel
  | fuel + 1, argv, rs, s =>
    let p := peek line s (chars ['|', ')', '&', ';'])
    if p.1 then .ok ((argv, rs), p.2)
    else
      let tok := gettoken line p.2
      if tok.1.ret = 0 then .ok ((argv, rs), tok.2)
      else if tok.1.ret ≠ ch 'a' then .error (.panic .badSyntax)
      else if MAXARGS ≤ argv.length + 1 then .error (.panic .tooManyArgs)
      else do
        let r ← parseredirs line fuel rs tok.2
        parsewords line fuel (argv ++ [tok.1.span]) r.1 r.2

/-- The loop of `parseline`. -/
def parsebacks (line : List Byte) : Nat → Cmd Span → Nat → Except Stop (Cmd Span × Nat)
  | 0, _, _ => .error .fuel
  | fuel + 1, cmd, s =>
    let p := peek line s (chars ['&'])
    if p.1 then parsebacks line fuel (.back cmd) (gettoken line p.2).2 else .ok (cmd, p.2)

mutual

def parseline (line : List Byte) : Nat → Nat → Except Stop (Cmd Span × Nat)
  | 0, _ => .error .fuel
  | fuel + 1, s => do
    let cmd ← parsepipe line fuel s
    let cmd ← parsebacks line fuel cmd.1 cmd.2
    let p := peek line cmd.2 (chars [';'])
    if p.1 then
      let rest ← parseline line fuel (gettoken line p.2).2
      return (.list cmd.1 rest.1, rest.2)
    else return (cmd.1, p.2)

def parsepipe (line : List Byte) : Nat → Nat → Except Stop (Cmd Span × Nat)
  | 0, _ => .error .fuel
  | fuel + 1, s => do
    let cmd ← parseexec line fuel s
    let p := peek line cmd.2 (chars ['|'])
    if p.1 then
      let rest ← parsepipe line fuel (gettoken line p.2).2
      return (.pipe cmd.1 rest.1, rest.2)
    else return (cmd.1, p.2)

def parseexec (line : List Byte) : Nat → Nat → Except Stop (Cmd Span × Nat)
  | 0, _ => .error .fuel
  | fuel + 1, s =>
    let p := peek line s (chars ['('])
    if p.1 then parseblock line fuel p.2
    else do
      let r ← parseredirs line fuel [] p.2
      let w ← parsewords line fuel [] r.1 r.2
      return (Cmd.wrap (.exec w.1.1) w.1.2, w.2)

def parseblock (line : List Byte) : Nat → Nat → Except Stop (Cmd Span × Nat)
  | 0, _ => .error .fuel
  | fuel + 1, s =>
    let p := peek line s (chars ['('])
    if p.1 then do
      let cmd ← parseline line fuel (gettoken line p.2).2
      let p := peek line cmd.2 (chars [')'])
      if p.1 then
        let r ← parseredirs line fuel [] (gettoken line p.2).2
        return (Cmd.wrap cmd.1 r.1, r.2)
      else .error (.panic .missingParen)
    else .error (.panic .parseblock)

end

/-- The words of a command are terminated in place. -/
def nulterminate : Cmd Span → List Byte → List Byte
  | .exec argv, buf => argv.foldl (fun buf w => buf.set w.eq 0) buf
  | .redir cmd r, buf => (nulterminate cmd buf).set r.file.eq 0
  | .pipe left right, buf => nulterminate right (nulterminate left buf)
  | .list left right, buf => nulterminate right (nulterminate left buf)
  | .back cmd, buf => nulterminate cmd buf

/-- The command and the buffer, with the words cut. -/
def parsecmd (line : List Byte) : Except Stop (Cmd Span × List Byte) := do
  let cmd ← parseline line (4 * line.length + 4) 0
  let p := peek line cmd.2 []
  if p.2 ≠ line.length then .error (.panic .badSyntax)
  else return (cmd.1, nulterminate cmd.1 (line ++ [0]))

/-! ## Tokens -/

inductive RedirOp
  | lt
  | gt
  | gtgt
  deriving DecidableEq

inductive Token
  | redir (op : RedirOp)
  | bar
  | amp
  | semi
  | lpar
  | rpar
  | word (w : List Byte)
  deriving DecidableEq

/-- The symbols of one byte that begin no longer one. -/
def symbol (c : Byte) : Option Token :=
  if c = ch '|' then some .bar
  else if c = ch '(' then some .lpar
  else if c = ch ')' then some .rpar
  else if c = ch ';' then some .semi
  else if c = ch '&' then some .amp
  else if c = ch '<' then some (.redir .lt)
  else none

/-- The tokens of a text: `>>` goes before `>`, and a word is as long as it can be. -/
def lex : List Byte → List Token
  | [] => []
  | c :: s =>
    if isSpace c then lex s
    else match symbol c with
      | some t => t :: lex s
      | none =>
        if c = ch '>' then
          if s.head? = some (ch '>') then .redir .gtgt :: lex s.tail else .redir .gt :: lex s
        else .word (c :: s.takeWhile isWord) :: lex (s.dropWhile isWord)
termination_by s => s.length
decreasing_by
  all_goals simp only [List.length_cons]
  · omega
  · omega
  · have := List.length_tail (l := s)
    omega
  · omega
  · have := (List.dropWhile_suffix isWord (l := s)).length_le
    omega

/-- What `gettoken` returns. -/
def Token.code : Token → Byte
  | .redir .lt => ch '<'
  | .redir .gt => ch '>'
  | .redir .gtgt => ch '+'
  | .bar => ch '|'
  | .amp => ch '&'
  | .semi => ch ';'
  | .lpar => ch '('
  | .rpar => ch ')'
  | .word _ => ch 'a'

/-- The symbol that `peek` sees. -/
def Token.first : Token → Option Byte
  | .redir .lt => some (ch '<')
  | .redir .gt => some (ch '>')
  | .redir .gtgt => some (ch '>')
  | .bar => some (ch '|')
  | .amp => some (ch '&')
  | .semi => some (ch ';')
  | .lpar => some (ch '(')
  | .rpar => some (ch ')')
  | .word _ => none

/-- The tokens of the line from `s` on. -/
def tokens (line : List Byte) (s : Nat) : List Token := lex (line.drop s)

/-- The word at `w`. -/
def text (line : List Byte) (w : Span) : List Byte := (line.drop w.q).take (w.eq - w.q)

/-- A word that is as long as it can be. -/
structure Cut (line : List Byte) (w : Span) : Prop where
  lt : w.q < w.eq
  inside : w.eq ≤ line.length
  word : ∀ i, w.q ≤ i → i < w.eq → isWord (byteAt line i) = true
  behind : w.eq = line.length ∨ isWord (byteAt line w.eq) = false

variable {line : List Byte} {s q : Nat} {c : Byte} {r : List Byte} {p : Byte → Bool} {ts : List Token} {t : Token}
    {toks : List Byte}

theorem byteAt_of_drop (h : line.drop s = c :: r) : byteAt line s = c ∧ line.drop (s + 1) = r := by
  have hlt : s < line.length := by
    by_contra hn
    simp [List.drop_eq_nil_of_le (Nat.le_of_not_lt hn)] at h
  rw [List.drop_eq_getElem_cons hlt] at h
  obtain ⟨hc, hr⟩ := List.cons.inj h
  refine ⟨?_, hr⟩
  rw [byteAt, List.getD_eq_getElem _ _ hlt, hc]

theorem byteAt_of_le (h : line.length ≤ s) : byteAt line s = 0 := List.getD_eq_default _ _ h

/-- What a loop over the line skips, and where it stops. -/
structure Skips (line : List Byte) (p : Byte → Bool) (s e : Nat) : Prop where
  drop : line.drop e = (line.drop s).dropWhile p
  le : s ≤ e
  inside : s ≤ line.length → e ≤ line.length
  all : ∀ i, s ≤ i → i < e → p (byteAt line i) = true
  stop : s ≤ line.length → e = line.length ∨ p (byteAt line e) = false

theorem skip_skips {n : Nat} (hn : n = line.length - s) : Skips line p s (skip line p n s) := by
  induction n generalizing s with
  | zero =>
    have hs : line.length ≤ s := by omega
    exact ⟨by rw [skip, List.drop_eq_nil_of_le hs, List.dropWhile_nil], le_refl s, id,
      fun i h1 h2 => absurd h1 (Nat.not_le_of_lt h2), fun h => .inl (Nat.le_antisymm h hs)⟩
  | succ n ih =>
    have hs : s < line.length := by omega
    have hdrop := List.drop_eq_getElem_cons hs
    have hbyte : byteAt line s = (line)[s] := List.getD_eq_getElem _ _ hs
    rw [skip]
    split_ifs with hp
    · have h := ih (s := s + 1) (by omega)
      refine ⟨?_, Nat.le_of_succ_le h.le, fun _ => h.inside hs, fun i h1 h2 => ?_, fun _ => h.stop hs⟩
      · rw [h.drop, hdrop, List.dropWhile_cons_of_pos (hbyte ▸ hp)]
      · rcases Nat.eq_or_lt_of_le h1 with rfl | h1
        · exact hp
        · exact h.all i h1 h2
    · refine ⟨?_, le_refl s, id, fun i h1 h2 => absurd h1 (Nat.not_le_of_lt h2), fun _ =>
        .inr (Bool.eq_false_iff.mpr hp)⟩
      rw [hdrop, List.dropWhile_cons_of_neg (hbyte ▸ hp)]

theorem skipWhile_skips (line : List Byte) (p : Byte → Bool) (s : Nat) : Skips line p s (skipWhile line p s) :=
  skip_skips rfl

theorem lex_dropWhile (l : List Byte) : lex (l.dropWhile isSpace) = lex l := by
  induction l with
  | nil => rfl
  | cons c l ih =>
    by_cases hc : isSpace c = true
    · rw [List.dropWhile_cons_of_pos hc, ih, lex, if_pos hc]
    · rw [List.dropWhile_cons_of_neg hc]

theorem tokens_skip (line : List Byte) (s : Nat) : tokens line (skipWhile line isSpace s) = tokens line s := by
  rw [tokens, (skipWhile_skips line isSpace s).drop, lex_dropWhile, tokens]

theorem skip_cases (h0 : 0 ∉ line) (s : Nat) : (tokens line s = [] ∧ byteAt line (skipWhile line isSpace s) = 0) ∨
    ∃ c r, line.drop (skipWhile line isSpace s) = c :: r ∧ isSpace c = false ∧ c ≠ 0 := by
  have hskip := skipWhile_skips line isSpace s
  cases hd : line.drop (skipWhile line isSpace s) with
  | nil =>
    refine .inl ⟨?_, byteAt_of_le (List.drop_eq_nil_iff.mp hd)⟩
    rw [← tokens_skip, tokens, hd, lex]
  | cons c r =>
    refine .inr ⟨c, r, rfl, ?_, fun hc => h0 ?_⟩
    · have hne := hskip.drop.symm.trans hd
      have := List.head?_dropWhile_not isSpace (line.drop s)
      rw [hne] at this
      exact this
    · exact hc ▸ List.drop_subset _ line (hd ▸ List.mem_cons_self)

theorem symbol_spec (h : symbol c = some t) : c ∈ chars ['|', '(', ')', ';', '&', '<'] ∧ t.code = c ∧ t.first =
    some c ∧ ∀ w, t ≠ .word w := by
  rw [symbol] at h
  split_ifs at h <;> subst_vars <;> obtain rfl :=
  Option.some.inj h <;> exact ⟨by decide, rfl, rfl, fun w => Token.noConfusion⟩

theorem symbol_none (h : symbol c = none) : c ∉ chars ['|', '(', ')', ';', '&', '<'] := by
  rw [symbol] at h
  split_ifs at h with h1 h2 h3 h4 h5 h6
  simp only [chars, List.map_cons, List.map_nil, List.mem_cons, List.not_mem_nil, or_false, not_or]
  exact ⟨h1, h2, h3, h4, h5, h6⟩

theorem isWord_of (hs : isSpace c = false) (hsym : c ∉ chars ['|', '(', ')', ';', '&', '<']) (hgt : c ≠ ch '>') :
    isWord c = true := by
  rw [isSpace] at hs
  have hc : symbols.contains c = false := by
    simp only [chars, List.map_cons, List.map_nil, List.mem_cons, List.not_mem_nil, or_false, not_or] at hsym
    obtain ⟨h1, h2, h3, h4, h5, h6⟩ := hsym
    simp only [symbols, chars, List.map_cons, List.map_nil, List.contains_eq_mem, List.mem_cons,
      List.not_mem_nil, or_false,
      decide_eq_false_iff_not, not_or]
    exact ⟨h6, h1, hgt, h5, h4, h2, h3⟩
  rw [isWord, hs, hc]
  rfl

theorem Skips.text_eq {e : Nat} (h : Skips line p s e) : text line ⟨s, e⟩ = (line.drop s).takeWhile p := by
  have hd : (line.drop s).drop (e - s) = (line.drop s).dropWhile p := by
    rw [List.drop_drop, Nat.add_sub_cancel' h.le, h.drop]
  have h1 := List.take_append_drop (e - s) (line.drop s)
  rw [hd] at h1
  exact List.append_cancel_right (h1.trans List.takeWhile_append_dropWhile.symm)

theorem tokenAt_spec (hd : line.drop q = c :: r) (hs : isSpace c = false) (hc : c ≠ 0) :
    ∃ t, lex (c :: r) = t :: lex (line.drop (tokenAt line q).2) ∧ (tokenAt line q).1 = t.code ∧
      (∀ d ∈ symbols, t.first = some d ↔ c = d) ∧ ∀ w, t = .word w → Cut line ⟨q, (tokenAt line q).2⟩ ∧
      text line ⟨q, (tokenAt line q).2⟩ = w := by
  obtain ⟨hbyte, hdrop⟩ := byteAt_of_drop hd
  have hlex : lex (c :: r) = match symbol c with
      | some t => t :: lex r
      | none =>
        if c = ch '>' then if r.head? = some (ch '>') then .redir .gtgt :: lex r.tail else .redir .gt :: lex r
        else .word (c :: r.takeWhile isWord) :: lex (r.dropWhile isWord) := by
    rw [lex, hs, if_neg Bool.false_ne_true]
  have hat : tokenAt line q = if c = 0 then (c, q)
      else if c ∈ chars ['|', '(', ')', ';', '&', '<'] then (c, q + 1)
      else if c = ch '>' then if byteAt line (q + 1) = ch '>' then (ch '+', q + 2) else (c, q + 1)
      else (ch 'a', skipWhile line isWord q) := by
    rw [tokenAt, hbyte]
  rw [if_neg hc] at hat
  cases hsym : symbol c with
  | some t =>
    obtain ⟨hmem, hcode, hfirst, hword⟩ := symbol_spec hsym
    rw [hsym] at hlex
    rw [hat, if_pos hmem]
    refine ⟨t, by rw [hlex, hdrop], hcode.symm, fun d _ => ?_, fun w hw => absurd hw (hword w)⟩
    rw [hfirst, Option.some.injEq]
  | none =>
    have hmem := symbol_none hsym
    rw [hsym] at hlex
    rw [if_neg hmem] at hat
    by_cases hgt : c = ch '>'
    · rw [if_pos hgt] at hat hlex
      have hfirst : ∀ d ∈ symbols, some (ch '>') = some d ↔ c = d := fun d _ => by rw [hgt, Option.some.injEq]
      -- two bytes or one
      by_cases hnext : r.head? = some (ch '>')
      · obtain ⟨r', rfl⟩ : ∃ r', r = ch '>' :: r' := by
          cases r with
          | nil => cases hnext
          | cons d r => exact ⟨r, congrArg (· :: r) (Option.some.inj hnext)⟩
        obtain ⟨hbyte', hdrop'⟩ := byteAt_of_drop hdrop
        rw [hat, if_pos hbyte']
        rw [if_pos hnext] at hlex
        exact ⟨.redir .gtgt, by rw [hlex]; exact congrArg (fun l => _ :: lex l) hdrop'.symm, rfl, hfirst,
          fun w hw => Token.noConfusion hw⟩
      · have hbyte' : byteAt line (q + 1) ≠ ch '>' := by
          intro hb
          cases r with
          | nil =>
            rw [byteAt_of_le (List.drop_eq_nil_iff.mp hdrop)] at hb
            exact absurd hb (by decide)
          | cons d r =>
            rw [(byteAt_of_drop hdrop).1] at hb
            exact hnext (congrArg some hb)
        rw [hat, if_neg hbyte']
        rw [if_neg hnext] at hlex
        exact ⟨.redir .gt, by rw [hlex, hdrop], hgt, hfirst, fun w hw => Token.noConfusion hw⟩
    · rw [if_neg hgt] at hat hlex
      rw [hat]
      have hw := isWord_of hs hmem hgt
      have hskip := skipWhile_skips line isWord q
      have hq : q < line.length := by
        by_contra hn
        simp [List.drop_eq_nil_of_le (Nat.le_of_not_lt hn)] at hd
      refine ⟨.word (c :: r.takeWhile isWord), ?_, rfl, fun d hdm => ⟨fun h => (by cases h), fun h => ?_⟩,
        fun w hweq => ⟨?_, ?_⟩⟩
      · rw [hlex, hskip.drop, hd, List.dropWhile_cons_of_pos hw]
      · rw [h, isWord, Bool.and_eq_true, Bool.not_eq_true', Bool.not_eq_true', List.contains_eq_mem,
          List.contains_eq_mem] at hw
        exact absurd hdm (of_decide_eq_false hw.2)
      · refine ⟨hskip.le.lt_of_ne fun heq => ?_, hskip.inside hq.le, hskip.all, hskip.stop hq.le⟩
        -- the first byte belongs to the word
        rcases hskip.stop hq.le with hstop | hstop
        · exact hq.ne (heq.trans hstop)
        · simp [← heq, hbyte, hw] at hstop
      · rw [hskip.text_eq, hd, List.takeWhile_cons_of_pos hw]
        exact Token.word.inj hweq

theorem gettoken_cons (h0 : 0 ∉ line) (hts : tokens line s = t :: ts) :
    (gettoken line s).1.ret = t.code ∧ tokens line (gettoken line s).2 = ts ∧
    ∀ w, t = .word w → Cut line (gettoken line s).1.span ∧ text line (gettoken line s).1.span = w := by
  rcases skip_cases h0 s with ⟨hnil, -⟩ | ⟨c, r, hd, hs, hc⟩
  · simp [hnil] at hts
  · obtain ⟨t', hlex, hcode, -, hword⟩ := tokenAt_spec hd hs hc
    rw [← tokens_skip, tokens, hd, hlex] at hts
    obtain ⟨rfl, rfl⟩ := List.cons.inj hts
    exact ⟨hcode, tokens_skip _ _, hword⟩

theorem gettoken_nil (h0 : 0 ∉ line) (hts : tokens line s = []) :
    (gettoken line s).1.ret = 0 ∧ tokens line (gettoken line s).2 = [] := by
  rcases skip_cases h0 s with ⟨-, hb⟩ | ⟨c, r, hd, hs, hc⟩
  · have hat : tokenAt line (skipWhile line isSpace s) = (0, skipWhile line isSpace s) := by
      rw [tokenAt, hb]
      rfl
    refine ⟨congrArg Prod.fst hat, ?_⟩
    rw [gettoken, hat, tokens_skip, tokens_skip, hts]
  · obtain ⟨t', hlex, -⟩ := tokenAt_spec hd hs hc
    rw [← tokens_skip, tokens, hd, hlex] at hts
    cases hts

theorem tokens_peek (line : List Byte) (s : Nat) (toks : List Byte) :
    tokens line (peek line s toks).2 = tokens line s := tokens_skip line s

theorem peek_iff (h0 : 0 ∉ line) (htoks : ∀ d ∈ toks, d ∈ symbols) :
    (peek line s toks).1 = true ↔ ∃ t ts, tokens line s = t :: ts ∧ ∃ d ∈ toks, t.first = some d := by
  rw [peek, Bool.and_eq_true, decide_eq_true_eq, List.contains_eq_mem, decide_eq_true_eq]
  rcases skip_cases h0 s with ⟨hnil, hb⟩ | ⟨c, r, hd, hs, hc⟩
  · rw [hb, hnil]
    exact ⟨fun h => absurd rfl h.1, fun ⟨t, ts, h, _⟩ => (by cases h)⟩
  · obtain ⟨t, hlex, -, hfirst, -⟩ := tokenAt_spec hd hs hc
    rw [(byteAt_of_drop hd).1, ← tokens_skip, tokens, hd, hlex]
    refine ⟨fun h => ⟨t, _, rfl, c, h.2, (hfirst c (htoks c h.2)).mpr rfl⟩, ?_⟩
    rintro ⟨t', ts, heq, d, hdm, hd'⟩
    obtain ⟨rfl, -⟩ := List.cons.inj heq
    obtain rfl := (hfirst d (htoks d hdm)).mp hd'
    exact ⟨hc, hdm⟩

theorem tokenAt_inside (h : q ≤ line.length) : (tokenAt line q).2 ≤ line.length := by
  have hlt : ∀ {i}, i ≤ line.length → byteAt line i ≠ 0 → i + 1 ≤ line.length := by
    intro i hi hb
    by_contra hn
    exact hb (byteAt_of_le (by omega))
  rw [tokenAt]
  split_ifs with h1 h2 h3 h4
  · exact h
  · exact hlt h h1
  · exact hlt (hlt h h1) (by rw [h4]; decide)
  · exact hlt h h1
  · exact (skipWhile_skips line isWord q).inside h

theorem peek_inside (h : s ≤ line.length) : (peek line s toks).2 ≤ line.length :=
  (skipWhile_skips line isSpace s).inside h

theorem gettoken_inside (h : s ≤ line.length) : (gettoken line s).2 ≤ line.length :=
  (skipWhile_skips line isSpace _).inside (tokenAt_inside ((skipWhile_skips line isSpace s).inside h))

theorem peek_end_iff (h0 : 0 ∉ line) (h : s ≤ line.length) :
    (peek line s toks).2 = line.length ↔ tokens line s = [] := by
  constructor
  · intro hend
    rw [← tokens_peek line s toks, hend, tokens, List.drop_length, lex]
  · intro hts
    rcases skip_cases h0 s with ⟨-, hb⟩ | ⟨c, r, hd, hs, hc⟩
    · refine Nat.le_antisymm (peek_inside h) (Nat.le_of_not_lt fun hlt => h0 ?_)
      have hget : byteAt line (peek line s toks).2 = (line)[(peek line s toks).2] := List.getD_eq_getElem _ _ hlt
      exact (hget.symm.trans hb) ▸ List.getElem_mem hlt
    · obtain ⟨t, hlex, -⟩ := tokenAt_spec hd hs hc
      rw [← tokens_skip, tokens, hd, hlex] at hts
      cases hts

theorem length_lex_le (l : List Byte) : (lex l).length ≤ l.length := by
  fun_induction lex l with
  | case1 => exact le_refl 0
  | case2 c s hc ih => exact ih.trans (Nat.le_succ _)
  | case3 c s hc t ht ih => exact Nat.succ_le_succ ih
  | case4 s hh hc ht ih =>
    have := List.length_tail (l := s)
    simp only [List.length_cons]
    omega
  | case5 s hh hc ht ih => exact Nat.succ_le_succ ih
  | case6 c s hc ht hgt ih =>
    have := (List.dropWhile_suffix isWord (l := s)).length_le
    simp only [List.length_cons]
    omega

end Xv6.Sh

import Xv6.User.Sh

/-!
# The grammar of the shell

What `parsecmd` accepts, and the tree it builds. A derivation is a value: it has the tokens that it derives
and the command that it stands for. The parser accepts no line that is not derived; on a derived line it
does not panic and builds the command of the derivation. Both are proved function by function over the
tokens that are left at the cursor.
-/

namespace Xv6.Sh

variable {cmd : Cmd Span} {rs : List (Redir Span)} {l : List Token} {ws : List Span}

/-! ## Derivations -/

namespace Grammar

/-- `redir ::= ('<' | '>' | '>>') word` -/
structure Redirection where
  op : RedirOp
  file : List Byte

def Redirection.node (r : Redirection) : Redir (List Byte) :=
  match r.op with
  | .lt => ⟨r.file, O_RDONLY, 0⟩
  | .gt => ⟨r.file, O_WRONLY ||| O_CREATE ||| O_TRUNC, 1⟩
  | .gtgt => ⟨r.file, O_WRONLY ||| O_CREATE, 1⟩

mutual

/-- `line ::= pipe '&'* [';' line]` -/
inductive Line
  | last (p : Pipe) (amps : Nat)
  | seq (p : Pipe) (amps : Nat) (rest : Line)

/-- `pipe ::= exec ['|' pipe]` -/
inductive Pipe
  | one (e : Exec)
  | bar (e : Exec) (rest : Pipe)

/-- `exec ::= '(' line ')' redir* | redir* (word redir*)*`, with at most `MAXARGS - 1` words. -/
inductive Exec
  | block (l : Line) (rs : List Redirection)
  | words (rs : List Redirection) (ws : List (List Byte × List Redirection)) (few : ws.length ≤ MAXARGS - 1)

end

def redirTokens (rs : List Redirection) : List Token := rs.flatMap fun r => [.redir r.op, .word r.file]

def wordTokens (ws : List (List Byte × List Redirection)) : List Token :=
  ws.flatMap fun w => .word w.1 :: redirTokens w.2

theorem redirTokens_cons (r : Redirection) (rs : List Redirection) :
    redirTokens (r :: rs) = .redir r.op :: .word r.file :: redirTokens rs := rfl

theorem wordTokens_cons (w : List Byte × List Redirection) (ws : List (List Byte × List Redirection)) :
    wordTokens (w :: ws) = .word w.1 :: (redirTokens w.2 ++ wordTokens ws) := rfl

mutual

def Line.tokens : Line → List Token
  | .last p amps => p.tokens ++ List.replicate amps .amp
  | .seq p amps rest => p.tokens ++ (List.replicate amps .amp ++ .semi :: rest.tokens)

def Pipe.tokens : Pipe → List Token
  | .one e => e.tokens
  | .bar e rest => e.tokens ++ .bar :: rest.tokens

def Exec.tokens : Exec → List Token
  | .block l rs => .lpar :: (l.tokens ++ .rpar :: redirTokens rs)
  | .words rs ws _ => redirTokens rs ++ wordTokens ws

end

end Grammar

/-- In the background, once for each `&`. -/
def Cmd.backs {W : Type} : Nat → Cmd W → Cmd W
  | 0, cmd => cmd
  | n + 1, cmd => backs n (.back cmd)

namespace Grammar

mutual

def Line.tree : Line → Cmd (List Byte)
  | .last p amps => p.tree.backs amps
  | .seq p amps rest => .list (p.tree.backs amps) rest.tree

def Pipe.tree : Pipe → Cmd (List Byte)
  | .one e => e.tree
  | .bar e rest => .pipe e.tree rest.tree

def Exec.tree : Exec → Cmd (List Byte)
  | .block l rs => l.tree.wrap (rs.map Redirection.node)
  | .words rs ws _ => (Cmd.exec (ws.map (·.1))).wrap ((rs ++ ws.flatMap (·.2)).map Redirection.node)

end

end Grammar

/-! ## Commands with the words read -/

section

variable {V W : Type}
variable {tree : Cmd (List Byte)} {c : Cmd Span} {argv : List Span} {buf : List Byte}
    {ds : List Grammar.Redirection} {n : Nat}

def Redir.map (f : V → W) (r : Redir V) : Redir W := ⟨f r.file, r.mode, r.fd⟩

def Cmd.map (f : V → W) : Cmd V → Cmd W
  | .exec argv => .exec (argv.map f)
  | .redir cmd r => .redir (cmd.map f) (r.map f)
  | .pipe left right => .pipe (left.map f) (right.map f)
  | .list left right => .list (left.map f) (right.map f)
  | .back cmd => .back (cmd.map f)

def Cmd.words : Cmd W → List W
  | .exec argv => argv
  | .redir cmd r => cmd.words ++ [r.file]
  | .pipe left right => left.words ++ right.words
  | .list left right => left.words ++ right.words
  | .back cmd => cmd.words

theorem Cmd.map_wrap (f : V → W) (cmd : Cmd V) (rs : List (Redir V)) :
    (cmd.wrap rs).map f = (cmd.map f).wrap (rs.map (Redir.map f)) := by
  induction rs generalizing cmd with
  | nil => rfl
  | cons r rs ih => exact ih (.redir cmd r)

theorem Cmd.words_wrap (cmd : Cmd W) (rs : List (Redir W)) : (cmd.wrap rs).words = cmd.words ++ rs.map Redir.file := by
  induction rs generalizing cmd with
  | nil => exact (List.append_nil _).symm
  | cons r rs ih =>
    refine (ih (.redir cmd r)).trans ?_
    rw [Cmd.words, List.append_assoc, List.singleton_append, List.map_cons]

theorem Cmd.map_backs (f : V → W) (n : Nat) (cmd : Cmd V) : (cmd.backs n).map f = (cmd.map f).backs n := by
  induction n generalizing cmd with
  | zero => rfl
  | succ n ih => exact ih (.back cmd)

theorem Cmd.words_backs (n : Nat) (cmd : Cmd W) : (cmd.backs n).words = cmd.words := by
  induction n generalizing cmd with
  | zero => rfl
  | succ n ih => exact ih (.back cmd)

end

/-- A command whose words are words of the line, and what it reads as. -/
structure Reads (line : List Byte) (cmd : Cmd Span) (tree : Cmd (List Byte)) : Prop where
  text : cmd.map (text line) = tree
  cut : ∀ w ∈ cmd.words, Cut line w

structure ReadsRedirs (line : List Byte) (rs : List (Redir Span)) (ds : List Grammar.Redirection) : Prop where
  text : rs.map (Redir.map (text line)) = ds.map Grammar.Redirection.node
  cut : ∀ r ∈ rs, Cut line r.file

variable {line : List Byte}

theorem readsRedirs_nil : ReadsRedirs line [] [] := ⟨rfl, fun _ hr => absurd hr List.not_mem_nil⟩

theorem Reads.wrap (h : Reads line cmd tree) (hr : ReadsRedirs line rs ds) :
    Reads line (cmd.wrap rs) (tree.wrap (ds.map Grammar.Redirection.node)) where
  text := by rw [Cmd.map_wrap, h.text, hr.text]
  cut w hw := by
    rw [Cmd.words_wrap] at hw
    rcases List.mem_append.mp hw with hw | hw
    · exact h.cut w hw
    · obtain ⟨r, hrm, rfl⟩ := List.mem_map.mp hw
      exact hr.cut r hrm

theorem Reads.backs (h : Reads line cmd tree) (n : Nat) : Reads line (cmd.backs n) (tree.backs n) where
  text := by rw [Cmd.map_backs, h.text]
  cut w hw := h.cut w (by rwa [Cmd.words_backs] at hw)

theorem Reads.pipe {l r : Cmd Span} {tl tr : Cmd (List Byte)} (hl : Reads line l tl) (hr : Reads line r tr) :
    Reads line (.pipe l r) (.pipe tl tr) where
  text := congrArg₂ Cmd.pipe hl.text hr.text
  cut w hw := (List.mem_append.mp hw).elim (hl.cut w) (hr.cut w)

theorem Reads.list {l r : Cmd Span} {tl tr : Cmd (List Byte)} (hl : Reads line l tl) (hr : Reads line r tr) :
    Reads line (.list l r) (.list tl tr) where
  text := congrArg₂ Cmd.list hl.text hr.text
  cut w hw := (List.mem_append.mp hw).elim (hl.cut w) (hr.cut w)

theorem ReadsRedirs.append {rs' : List (Redir Span)} {ds' : List Grammar.Redirection} (h : ReadsRedirs line rs ds)
    (h' : ReadsRedirs line rs' ds') : ReadsRedirs line (rs ++ rs') (ds ++ ds') where
  text := by rw [List.map_append, List.map_append, h.text, h'.text]
  cut r hr := (List.mem_append.mp hr).elim (h.cut r) (h'.cut r)

/-! ## Results of the parser -/

section

variable {α β : Type} {x : Except Stop α} {f : α → Except Stop β} {Q : α → Prop} {R : β → Prop}

theorem bind_ok {b : β} (h : x >>= f = .ok b) : ∃ a, x = .ok a ∧ f a = .ok b := by
  cases x with
  | error e => cases h
  | ok a => exact ⟨a, rfl, h⟩

/-- No panic, and if the fuel lasts the result is as said. -/
def Yields (x : Except Stop α) (Q : α → Prop) : Prop := x = .error .fuel ∨ ∃ a, x = .ok a ∧ Q a

theorem Yields.bind (hx : Yields x Q) (hf : ∀ a, Q a → Yields (f a) R) : Yields (x >>= f) R := by
  rcases hx with rfl | ⟨a, rfl, ha⟩
  · exact .inl rfl
  · exact hf a ha

theorem Yields.ok {a : α} (h : Q a) : Yields (.ok a) Q := .inr ⟨a, rfl, h⟩

/-- The fuel lasts. -/
def Ends (x : Except Stop α) : Prop := x ≠ .error .fuel

theorem Ends.bind (hx : Ends x) (hf : ∀ a, x = .ok a → Ends (f a)) : Ends (x >>= f) := by
  cases x with
  | error e =>
    intro h
    exact hx (congrArg Except.error (Except.error.inj h))
  | ok a => exact hf a rfl

theorem ends_ok (a : α) : Ends (.ok a : Except Stop α) := fun h => by cases h

theorem ends_panic (p : Panic) : Ends (.error (.panic p) : Except Stop α) := fun h => by cases h

end

/-! ## What `peek` sees -/

variable {s s' fuel : Nat} {t : Token} {ts rest : List Token}

theorem first_eq_iff {u : Token} (h : u ∈ [Token.bar, .amp, .semi, .lpar, .rpar]) : t.first = some u.code ↔ t = u := by
  simp only [List.mem_cons, List.not_mem_nil, or_false] at h
  cases t with
  | redir op => rcases h with rfl | rfl | rfl | rfl | rfl <;> cases op <;> decide
  | word w => rcases h with rfl | rfl | rfl | rfl | rfl <;> exact ⟨fun h => (by cases h), fun h => (by cases h)⟩
  | _ => rcases h with rfl | rfl | rfl | rfl | rfl <;> decide

theorem peek_one (h0 : 0 ∉ line) (u : Token) (h : u ∈ [Token.bar, .amp, .semi, .lpar, .rpar]) :
    (peek line s [u.code]).1 = true ↔ ∃ ts, tokens line s = u :: ts := by
  have hsym : ∀ d ∈ [u.code], d ∈ symbols := by
    intro d hd
    rw [List.mem_singleton.mp hd]
    simp only [List.mem_cons, List.not_mem_nil, or_false] at h
    rcases h with rfl | rfl | rfl | rfl | rfl <;> decide
  rw [peek_iff h0 hsym]
  refine ⟨fun ⟨t, ts, hts, d, hd, hf⟩ => ⟨ts, ?_⟩, fun ⟨ts, hts⟩ =>
    ⟨u, ts, hts, _, List.mem_cons_self, (first_eq_iff h).mpr rfl⟩⟩
  rw [List.mem_singleton.mp hd] at hf
  rw [hts, (first_eq_iff h).mp hf]

theorem peek_redir (h0 : 0 ∉ line) : (peek line s (chars ['<', '>'])).1 = true ↔ ∃ op ts, tokens line s =
    .redir op :: ts := by
  have hsym : ∀ d ∈ chars ['<', '>'], d ∈ symbols := by decide
  rw [peek_iff h0 hsym]
  constructor
  · rintro ⟨t, ts, hts, d, hd, hf⟩
    cases t with
    | redir op => exact ⟨op, ts, hts⟩
    | word w => cases hf
    | _ =>
      obtain rfl := Option.some.inj hf
      exact absurd hd (by decide)
  · rintro ⟨op, ts, hts⟩
    cases op with
    | lt => exact ⟨_, ts, hts, ch '<', by decide, rfl⟩
    | gt => exact ⟨_, ts, hts, ch '>', by decide, rfl⟩
    | gtgt => exact ⟨_, ts, hts, ch '>', by decide, rfl⟩

/-- The tokens that end the words of a command. -/
def closers : List Token := [.bar, .rpar, .amp, .semi]

theorem peek_closers (h0 : 0 ∉ line) :
    (peek line s (chars ['|', ')', '&', ';'])).1 = true ↔ ∃ t ts, tokens line s = t :: ts ∧ t ∈ closers := by
  have hsym : ∀ d ∈ chars ['|', ')', '&', ';'], d ∈ symbols := by decide
  rw [peek_iff h0 hsym]
  constructor
  · rintro ⟨t, ts, hts, d, hd, hf⟩
    refine ⟨t, ts, hts, ?_⟩
    cases t with
    | redir op =>
      cases op <;> obtain rfl := Option.some.inj hf <;> exact absurd hd (by decide)
    | word w => cases hf
    | lpar =>
      obtain rfl := Option.some.inj hf
      exact absurd hd (by decide)
    | _ => decide
  · rintro ⟨t, ts, hts, ht⟩
    simp only [closers, List.mem_cons, List.not_mem_nil, or_false] at ht
    rcases ht with rfl | rfl | rfl | rfl
    · exact ⟨_, ts, hts, ch '|', by decide, rfl⟩
    · exact ⟨_, ts, hts, ch ')', by decide, rfl⟩
    · exact ⟨_, ts, hts, ch '&', by decide, rfl⟩
    · exact ⟨_, ts, hts, ch ';', by decide, rfl⟩

theorem code_eq_word (h : t.code = ch 'a') : ∃ w, t = .word w := by
  cases t with
  | word w => exact ⟨w, rfl⟩
  | redir op => cases op <;> exact absurd h (by decide)
  | _ => exact absurd h (by decide)

theorem code_ne_zero : t.code ≠ 0 := by
  cases t with
  | redir op => cases op <;> decide
  | word w => exact (by decide : ch 'a' ≠ 0)
  | _ => decide

theorem tokens_after (h0 : 0 ∉ line) (toks : List Byte) (h : tokens line s = t :: ts) :
    tokens line (gettoken line (peek line s toks).2).2 = ts :=
  (gettoken_cons h0 ((tokens_peek line s toks).trans h)).2.1

/-! ## What is accepted is derived -/

/-- Between the two cursors there are these tokens. -/
structure Takes (line : List Byte) (s s' : Nat) (ts : List Token) : Prop where
  tokens : tokens line s = ts ++ tokens line s'
  inside : s ≤ line.length → s' ≤ line.length

theorem Takes.trans {s'' : Nat} {ts' : List Token} (h : Takes line s s' ts) (h' : Takes line s' s'' ts') :
    Takes line s s'' (ts ++ ts') where
  tokens := by rw [h.tokens, h'.tokens, List.append_assoc]
  inside hs := h'.inside (h.inside hs)

theorem takes_peek (line : List Byte) (s : Nat) (toks : List Byte) : Takes line s (peek line s toks).2 [] :=
  ⟨(tokens_peek line s toks).symm, peek_inside⟩

theorem takes_token (h0 : 0 ∉ line) (h : tokens line s = t :: ts) : Takes line s (gettoken line s).2 [t] :=
  ⟨by rw [h, (gettoken_cons h0 h).2.1, List.singleton_append], gettoken_inside⟩

theorem takes_seen (h0 : 0 ∉ line) (toks : List Byte) (h : tokens line s = t :: ts) :
    Takes line s (gettoken line (peek line s toks).2).2 [t] :=
  (takes_peek line s toks).trans (takes_token h0 ((tokens_peek line s toks).trans h))

theorem Takes.length_le (h : Takes line s s' ts) :
    (Sh.tokens line s').length + ts.length ≤ (Sh.tokens line s).length := by
  rw [h.tokens, List.length_append, Nat.add_comm]

theorem parsebacks_sound (h0 : 0 ∉ line) (h : parsebacks line fuel cmd s = .ok (c, s')) :
    ∃ n, Takes line s s' (List.replicate n .amp) := by
  induction fuel generalizing cmd s with
  | zero => cases h
  | succ fuel ih =>
    rw [parsebacks] at h
    split_ifs at h with hp
    · obtain ⟨ts, hts⟩ := (peek_one h0 .amp (by decide)).mp hp
      obtain ⟨n, hn⟩ := ih h
      exact ⟨n + 1, (takes_seen h0 _ hts).trans hn⟩
    · obtain ⟨-, rfl⟩ := Prod.mk.inj (Except.ok.inj h)
      exact ⟨0, takes_peek line s _⟩

theorem parseredirs_sound (h0 : 0 ∉ line) {rs' : List (Redir Span)} (h : parseredirs line fuel rs s = .ok (rs', s')) :
    ∃ ds, Takes line s s' (Grammar.redirTokens ds) := by
  induction fuel generalizing rs s with
  | zero => cases h
  | succ fuel ih =>
    rw [parseredirs] at h
    dsimp only at h
    split_ifs at h with hp hfile
    · obtain ⟨op, ts, hts⟩ := (peek_redir h0).mp hp
      have hop := takes_seen h0 (chars ['<', '>']) hts
      have hts' := tokens_after h0 (chars ['<', '>']) hts
      obtain ⟨ds, hds⟩ := ih h
      rw [not_not] at hfile
      cases ts with
      | nil =>
        rw [(gettoken_nil h0 hts').1] at hfile
        exact absurd hfile (by decide)
      | cons t ts =>
        rw [(gettoken_cons h0 hts').1] at hfile
        obtain ⟨w, rfl⟩ := code_eq_word hfile
        exact ⟨⟨op, w⟩ :: ds, hop.trans ((takes_token h0 hts').trans hds)⟩
    · obtain ⟨-, rfl⟩ := Prod.mk.inj (Except.ok.inj h)
      exact ⟨[], takes_peek line s _⟩

theorem parsewords_sound (h0 : 0 ∉ line) {r : List Span × List (Redir Span)}
    (hargv : argv.length < MAXARGS) (h : parsewords line fuel argv rs s = .ok (r, s')) :
    ∃ ws, Takes line s s' (Grammar.wordTokens ws) ∧ argv.length + ws.length < MAXARGS := by
  induction fuel generalizing argv rs s with
  | zero => cases h
  | succ fuel ih =>
    rw [parsewords] at h
    dsimp only at h
    split_ifs at h with hp hend hword hmany
    · obtain ⟨-, rfl⟩ := Prod.mk.inj (Except.ok.inj h)
      exact ⟨[], takes_peek line s _, hargv⟩
    · obtain ⟨-, rfl⟩ := Prod.mk.inj (Except.ok.inj h)
      cases hts : tokens line s with
      | nil =>
        obtain ⟨-, hnil⟩ := gettoken_nil h0 ((tokens_peek line s (chars ['|', ')', '&', ';'])).trans hts)
        exact ⟨[], ⟨hts.trans hnil.symm, fun hs => gettoken_inside (peek_inside hs)⟩, hargv⟩
      | cons t ts =>
        rw [(gettoken_cons h0 ((tokens_peek _ _ _).trans hts)).1] at hend
        exact absurd hend code_ne_zero
    · obtain ⟨r', hr, h⟩ := bind_ok h
      cases hts : tokens line s with
      | nil => exact absurd (gettoken_nil h0 ((tokens_peek _ _ _).trans hts)).1 hend
      | cons t ts =>
        have htok := takes_seen h0 (chars ['|', ')', '&', ';']) hts
        rw [not_not, (gettoken_cons h0 ((tokens_peek line s (chars ['|', ')', '&', ';'])).trans hts)).1] at hword
        obtain ⟨w, rfl⟩ := code_eq_word hword
        obtain ⟨ds, hds⟩ := parseredirs_sound h0 hr
        obtain ⟨ws, hws, hlen⟩ := ih (by rw [List.length_append, List.length_singleton]; omega) h
        rw [List.length_append, List.length_singleton] at hlen
        exact ⟨(w, ds) :: ws, htok.trans (hds.trans hws), by rw [List.length_cons]; omega⟩

/-- The functions that call each other, with this much fuel. -/
structure SoundAt (line : List Byte) (fuel : Nat) : Prop where
  ofLine : ∀ {s c s'}, parseline line fuel s = .ok (c, s') → ∃ d : Grammar.Line, Takes line s s' d.tokens
  ofPipe : ∀ {s c s'}, parsepipe line fuel s = .ok (c, s') → ∃ d : Grammar.Pipe, Takes line s s' d.tokens
  ofExec : ∀ {s c s'}, parseexec line fuel s = .ok (c, s') → ∃ d : Grammar.Exec, Takes line s s' d.tokens
  ofBlock : ∀ {s c s'}, parseblock line fuel s = .ok (c, s') → ∃ d : Grammar.Exec, Takes line s s' d.tokens

section

variable (h0 : 0 ∉ line) (ih : SoundAt line fuel)

include h0 ih

theorem parseline_sound (h : parseline line (fuel + 1) s = .ok (c, s')) :
    ∃ d : Grammar.Line, Takes line s s' d.tokens := by
  rw [parseline] at h
  obtain ⟨⟨c₁, s₁⟩, h1, h⟩ := bind_ok h
  obtain ⟨⟨c₂, s₂⟩, h2, h⟩ := bind_ok h
  obtain ⟨p, hp⟩ := ih.ofPipe h1
  obtain ⟨n, hn⟩ := parsebacks_sound h0 h2
  dsimp only at h
  split_ifs at h with hsemi
  · obtain ⟨⟨c₃, s₃⟩, h3, h⟩ := bind_ok h
    obtain ⟨-, rfl⟩ := Prod.mk.inj (Except.ok.inj h)
    obtain ⟨ts, hts⟩ := (peek_one h0 .semi (by decide)).mp hsemi
    obtain ⟨d, hd⟩ := ih.ofLine h3
    refine ⟨.seq p n d, ?_⟩
    rw [Grammar.Line.tokens]
    exact hp.trans (hn.trans ((takes_seen h0 _ hts).trans hd))
  · obtain ⟨-, rfl⟩ := Prod.mk.inj (Except.ok.inj h)
    refine ⟨.last p n, ?_⟩
    have hlast := (hp.trans hn).trans (takes_peek line s₂ (chars [';']))
    rw [List.append_nil] at hlast
    rw [Grammar.Line.tokens]
    exact hlast

theorem parsepipe_sound (h : parsepipe line (fuel + 1) s = .ok (c, s')) :
    ∃ d : Grammar.Pipe, Takes line s s' d.tokens := by
  rw [parsepipe] at h
  obtain ⟨⟨c₁, s₁⟩, h1, h⟩ := bind_ok h
  obtain ⟨e, he⟩ := ih.ofExec h1
  dsimp only at h
  split_ifs at h with hbar
  · obtain ⟨⟨c₂, s₂⟩, h2, h⟩ := bind_ok h
    obtain ⟨-, rfl⟩ := Prod.mk.inj (Except.ok.inj h)
    obtain ⟨ts, hts⟩ := (peek_one h0 .bar (by decide)).mp hbar
    obtain ⟨d, hd⟩ := ih.ofPipe h2
    refine ⟨.bar e d, ?_⟩
    rw [Grammar.Pipe.tokens]
    exact he.trans ((takes_seen h0 _ hts).trans hd)
  · obtain ⟨-, rfl⟩ := Prod.mk.inj (Except.ok.inj h)
    refine ⟨.one e, ?_⟩
    have hone := he.trans (takes_peek line s₁ (chars ['|']))
    rw [List.append_nil] at hone
    rw [Grammar.Pipe.tokens]
    exact hone

theorem parseexec_sound (h : parseexec line (fuel + 1) s = .ok (c, s')) :
    ∃ d : Grammar.Exec, Takes line s s' d.tokens := by
  have hpeek := takes_peek line s (chars ['('])
  rw [parseexec] at h
  split_ifs at h with hpar
  · obtain ⟨d, hd⟩ := ih.ofBlock h
    exact ⟨d, hpeek.trans hd⟩
  · obtain ⟨⟨rs, s₁⟩, h1, h⟩ := bind_ok h
    obtain ⟨⟨w, s₂⟩, h2, h⟩ := bind_ok h
    obtain ⟨-, rfl⟩ := Prod.mk.inj (Except.ok.inj h)
    obtain ⟨ds, hds⟩ := parseredirs_sound h0 h1
    obtain ⟨ws, hws, hlen⟩ := parsewords_sound h0 (by decide) h2
    rw [List.length_nil, Nat.zero_add] at hlen
    refine ⟨.words ds ws (Nat.le_sub_one_of_lt hlen), ?_⟩
    rw [Grammar.Exec.tokens]
    exact hpeek.trans (hds.trans hws)

theorem parseblock_sound (h : parseblock line (fuel + 1) s = .ok (c, s')) :
    ∃ d : Grammar.Exec, Takes line s s' d.tokens := by
  rw [parseblock] at h
  split_ifs at h with hopen
  obtain ⟨⟨c₁, s₁⟩, h1, h⟩ := bind_ok h
  dsimp only at h
  split_ifs at h with hclose
  obtain ⟨⟨rs, s₂⟩, h2, h⟩ := bind_ok h
  obtain ⟨-, rfl⟩ := Prod.mk.inj (Except.ok.inj h)
  obtain ⟨ts, hts⟩ := (peek_one h0 .lpar (by decide)).mp hopen
  obtain ⟨ts', hts'⟩ := (peek_one h0 .rpar (by decide)).mp hclose
  obtain ⟨l, hl⟩ := ih.ofLine h1
  obtain ⟨ds, hds⟩ := parseredirs_sound h0 h2
  refine ⟨.block l ds, ?_⟩
  rw [Grammar.Exec.tokens]
  exact (takes_seen h0 _ hts).trans (hl.trans ((takes_seen h0 _ hts').trans hds))

end

theorem soundAt (h0 : 0 ∉ line) (fuel : Nat) : SoundAt line fuel := by
  induction fuel with
  | zero =>
    refine ⟨fun h => ?_, fun h => ?_, fun h => ?_, fun h => ?_⟩
    · simp [parseline] at h
    · simp [parsepipe] at h
    · simp [parseexec] at h
    · simp [parseblock] at h
  | succ fuel ih => exact ⟨parseline_sound h0 ih, parsepipe_sound h0 ih, parseexec_sound h0 ih, parseblock_sound h0 ih⟩

/-! ## What is derived is accepted -/

/-- What may come next: the end, or one of these tokens. -/
def Follow (l : List Token) (rest : List Token) : Prop := ∀ t ∈ rest.head?, t ∈ l

theorem Follow.mono {l' : List Token} (h : Follow l rest) (hsub : ∀ t ∈ l, t ∈ l') :
    Follow l' rest := fun t ht => hsub t (h t ht)

theorem follow_cons (h : t ∈ l) : Follow l (t :: rest) := fun u hu => by
  rw [← Option.some.inj hu]
  exact h

theorem Follow.ne (h : Follow l rest) (ht : t ∉ l) : rest ≠ t :: ts := by
  rintro rfl
  exact ht (h t rfl)

theorem peek_one_false (h0 : 0 ∉ line) (u : Token) (h : u ∈ [Token.bar, .amp, .semi, .lpar, .rpar])
    (hts : tokens line s = rest) (hf : Follow l rest) (hu : u ∉ l) : (peek line s [u.code]).1 ≠ true := fun hp => by
  obtain ⟨ts, hts'⟩ := (peek_one h0 u h).mp hp
  exact hf.ne hu (hts.symm.trans hts')

theorem parsebacks_complete (h0 : 0 ∉ line) (hts : tokens line s = List.replicate n .amp ++ rest)
    (hrest : Follow [.semi, .rpar] rest) (fuel : Nat) :
    Yields (parsebacks line fuel cmd s) fun r => r.1 = cmd.backs n ∧ tokens line r.2 = rest := by
  induction fuel generalizing n cmd s with
  | zero => exact .inl rfl
  | succ fuel ih =>
    rw [parsebacks]
    cases n with
    | zero =>
      have hpeek : (peek line s (chars ['&'])).1 ≠ true := peek_one_false h0 .amp (by decide) hts hrest (by decide)
      rw [if_neg hpeek]
      exact .ok ⟨rfl, (tokens_peek line s (chars ['&'])).trans hts⟩
    | succ n =>
      rw [List.replicate_succ, List.cons_append] at hts
      have hpeek : (peek line s (chars ['&'])).1 = true := (peek_one h0 .amp (by decide)).mpr ⟨_, hts⟩
      rw [if_pos hpeek]
      exact ih (tokens_after h0 _ hts)

theorem redirFor_code {W : Type} (op : RedirOp) (file : W) (text : W → List Byte) :
    (redirFor (Token.redir op).code file).map (Redir.map text) = [Grammar.Redirection.node ⟨op, text file⟩] := by
  cases op <;> rfl

theorem redirFor_file {W : Type} {tok : Byte} {file : W} : ∀ r ∈ redirFor tok file, r.file = file := by
  intro r hr
  rw [redirFor] at hr
  split_ifs at hr
  · rw [List.mem_singleton.mp hr]
  · rw [List.mem_singleton.mp hr]
  · rw [List.mem_singleton.mp hr]
  · exact absurd hr List.not_mem_nil

theorem parseredirs_complete (h0 : 0 ∉ line) {before : List Grammar.Redirection} (hrs : ReadsRedirs line rs before)
    (hts : tokens line s = Grammar.redirTokens ds ++ rest) (hrest : ∀ op ts, rest ≠ .redir op :: ts) (fuel : Nat) :
    Yields (parseredirs line fuel rs s) fun r => ReadsRedirs line r.1 (before ++ ds) ∧ tokens line r.2 = rest := by
  induction fuel generalizing rs before ds s with
  | zero => exact .inl rfl
  | succ fuel ih =>
    rw [parseredirs]
    dsimp only
    cases ds with
    | nil =>
      have hpeek : (peek line s (chars ['<', '>'])).1 ≠ true := fun hp => by
        obtain ⟨op, ts, hts'⟩ := (peek_redir h0).mp hp
        exact hrest op ts (hts.symm.trans hts')
      rw [if_neg hpeek, List.append_nil]
      exact .ok ⟨hrs, (tokens_peek line s (chars ['<', '>'])).trans hts⟩
    | cons d ds =>
      rw [Grammar.redirTokens_cons, List.cons_append, List.cons_append] at hts
      have hpeek : (peek line s (chars ['<', '>'])).1 = true := (peek_redir h0).mpr ⟨d.op, _, hts⟩
      obtain ⟨htok, hts', -⟩ := gettoken_cons h0 ((tokens_peek line s (chars ['<', '>'])).trans hts)
      obtain ⟨hfile, hrest', hword⟩ := gettoken_cons h0 hts'
      obtain ⟨hcut, htext⟩ := hword d.file rfl
      have hnew : ReadsRedirs line (redirFor (gettoken line (peek line s (chars ['<', '>'])).2).1.ret
          (gettoken line (gettoken line (peek line s (chars ['<', '>'])).2).2).1.span) [d] := by
        refine ⟨?_, fun r hr => ?_⟩
        · rw [htok, redirFor_code, htext]
          rfl
        · rw [redirFor_file r hr]
          exact hcut
      have hall := ih (hrs.append hnew) hrest'
      rw [List.append_assoc, List.singleton_append] at hall
      rw [if_pos hpeek, if_neg (not_not.mpr (show _ = ch 'a' from hfile))]
      exact hall

theorem closers_ne_redir (hf : Follow closers rest) (op : RedirOp) (ts : List Token) : rest ≠ .redir op :: ts :=
  hf.ne (by cases op <;> decide)

theorem wordTokens_ne {ws : List (List Byte × List Grammar.Redirection)} (hf : Follow closers rest) :
    (∀ op ts, Grammar.wordTokens ws ++ rest ≠ .redir op :: ts) ∧ ∀ ts, Grammar.wordTokens ws ++ rest ≠ .lpar :: ts := by
  cases ws with
  | nil => exact ⟨closers_ne_redir hf, fun ts => hf.ne (by decide)⟩
  | cons w ws => exact ⟨fun op ts h => Token.noConfusion (List.cons.inj h).1, fun ts h =>
      Token.noConfusion (List.cons.inj h).1⟩

theorem parsewords_complete (h0 : 0 ∉ line) {before : List Grammar.Redirection}
    {ws : List (List Byte × List Grammar.Redirection)} {old : List (List Byte)} (hargv : argv.map (text line) = old)
    (hcut : ∀ w ∈ argv, Cut line w) (hrs : ReadsRedirs line rs before) (hfew : argv.length + ws.length < MAXARGS)
    (hts : tokens line s = Grammar.wordTokens ws ++ rest) (hrest : Follow closers rest) (fuel : Nat) :
    Yields (parsewords line fuel argv rs s) fun r =>
    (r.1.1.map (text line) = old ++ ws.map (·.1) ∧ ∀ w ∈ r.1.1, Cut line w) ∧
      ReadsRedirs line r.1.2 (before ++ ws.flatMap (·.2)) ∧ tokens line r.2 = rest := by
  induction fuel generalizing argv rs before ws old s with
  | zero => exact .inl rfl
  | succ fuel ih =>
    rw [parsewords]
    dsimp only
    cases ws with
    | nil =>
      have hdone : (argv.map (text line) = old ++ [] ∧ ∀ w ∈ argv, Cut line w) ∧
        ReadsRedirs line rs (before ++ []) := by
        rw [List.append_nil, List.append_nil]
        exact ⟨⟨hargv, hcut⟩, hrs⟩
      change tokens line s = rest at hts
      cases rest with
      | nil =>
        have hpeek : (peek line s (chars ['|', ')', '&', ';'])).1 ≠ true := fun hp => by
          obtain ⟨t, ts, hts', -⟩ := (peek_closers h0).mp hp
          rw [hts] at hts'
          cases hts'
        obtain ⟨hret, hend⟩ := gettoken_nil h0 ((tokens_peek line s (chars ['|', ')', '&', ';'])).trans hts)
        rw [if_neg hpeek, if_pos hret]
        exact .ok ⟨hdone.1, hdone.2, hend⟩
      | cons t ts =>
        have hpeek : (peek line s (chars ['|', ')', '&', ';'])).1 = true :=
          (peek_closers h0).mpr ⟨t, ts, hts, hrest t rfl⟩
        rw [if_pos hpeek]
        exact .ok ⟨hdone.1, hdone.2, (tokens_peek line s (chars ['|', ')', '&', ';'])).trans hts⟩
    | cons w ws =>
      rw [Grammar.wordTokens_cons, List.cons_append, List.append_assoc] at hts
      rw [List.length_cons] at hfew
      have hpeek : (peek line s (chars ['|', ')', '&', ';'])).1 ≠ true := fun hp => by
        obtain ⟨t, ts, hts', ht⟩ := (peek_closers h0).mp hp
        rw [hts] at hts'
        rw [← (List.cons.inj hts').1] at ht
        exact absurd ht (by simp [closers])
      obtain ⟨hret, hnext, hword⟩ := gettoken_cons h0 ((tokens_peek line s (chars ['|', ')', '&', ';'])).trans hts)
      obtain ⟨hwcut, hwtext⟩ := hword w.1 rfl
      rw [if_neg hpeek, if_neg (by rw [hret]; exact code_ne_zero),
        if_neg (not_not.mpr (show _ = ch 'a' from hret)), if_neg (by omega)]
      have hargv' : (argv ++ [(gettoken line (peek line s (chars ['|', ')', '&', ';'])).2).1.span]).map
        (text line) = old ++ [w.1] := by
        rw [List.map_append, hargv, List.map_singleton, hwtext]
      have hcut' : ∀ v ∈ argv ++ [(gettoken line (peek line s (chars ['|', ')', '&', ';'])).2).1.span], Cut line v := by
        intro v hv
        rcases List.mem_append.mp hv with hv | hv
        · exact hcut v hv
        · rw [List.mem_singleton.mp hv]
          exact hwcut
      refine (parseredirs_complete h0 hrs hnext (wordTokens_ne hrest).1 fuel).bind fun r ⟨hr, hrts⟩ => ?_
      have hall := ih hargv' hcut' hr (by rw [List.length_append, List.length_singleton]; omega) hrts
      rw [List.append_assoc, List.append_assoc, List.singleton_append] at hall
      exact hall

theorem follow_replicate (hamp : .amp ∈ l) (h : Follow l rest) : Follow l (List.replicate n .amp ++ rest) := by
  cases n with
  | zero => exact h
  | succ n => exact follow_cons hamp

mutual

theorem line_complete (h0 : 0 ∉ line) : ∀ (d : Grammar.Line) (fuel : Nat) {s : Nat} {rest : List Token},
    tokens line s = d.tokens ++ rest → Follow [.rpar] rest →
      Yields (parseline line fuel s) fun r => Reads line r.1 d.tree ∧ tokens line r.2 = rest
  | _, 0, _, _, _, _ => by
    rw [parseline]
    exact .inl rfl
  | .last p n, fuel + 1, s, rest, hts, hrest => by
    rw [Grammar.Line.tokens, List.append_assoc] at hts
    have hsub : ∀ t ∈ [Token.rpar], t ∈ [Token.amp, .semi, .rpar] := by decide
    rw [parseline]
    refine (pipe_complete h0 p fuel hts (follow_replicate (by decide) (hrest.mono hsub))).bind fun c ⟨hc, hcts⟩ => ?_
    refine (parsebacks_complete h0 hcts (hrest.mono (by decide)) fuel).bind fun b ⟨hb, hbts⟩ => ?_
    have hpeek : (peek line b.2 (chars [';'])).1 ≠ true := peek_one_false h0 .semi (by decide) hbts hrest (by decide)
    dsimp only
    rw [if_neg hpeek]
    exact .ok ⟨hb ▸ hc.backs n, (tokens_peek line b.2 (chars [';'])).trans hbts⟩
  | .seq p n l, fuel + 1, s, rest, hts, hrest => by
    rw [Grammar.Line.tokens, List.append_assoc, List.append_assoc, List.cons_append] at hts
    rw [parseline]
    refine (pipe_complete h0 p fuel hts (follow_replicate (by decide) (follow_cons (by decide)))).bind
      fun c ⟨hc, hcts⟩ => ?_
    refine (parsebacks_complete h0 hcts (follow_cons (by decide)) fuel).bind fun b ⟨hb, hbts⟩ => ?_
    have hpeek : (peek line b.2 (chars [';'])).1 = true := (peek_one h0 .semi (by decide)).mpr ⟨_, hbts⟩
    dsimp only
    rw [if_pos hpeek]
    refine (line_complete h0 l fuel (tokens_after h0 _ hbts) hrest).bind fun r ⟨hr, hrts⟩ => ?_
    exact .ok ⟨(hb ▸ hc.backs n : Reads line b.1 _).list hr, hrts⟩

theorem pipe_complete (h0 : 0 ∉ line) : ∀ (d : Grammar.Pipe) (fuel : Nat) {s : Nat} {rest : List Token},
    tokens line s = d.tokens ++ rest → Follow [.amp, .semi, .rpar] rest →
      Yields (parsepipe line fuel s) fun r => Reads line r.1 d.tree ∧ tokens line r.2 = rest
  | _, 0, _, _, _, _ => by
    rw [parsepipe]
    exact .inl rfl
  | .one e, fuel + 1, s, rest, hts, hrest => by
    rw [Grammar.Pipe.tokens] at hts
    rw [parsepipe]
    refine (exec_complete h0 e fuel hts (hrest.mono (by decide))).bind fun c ⟨hc, hcts⟩ => ?_
    have hpeek : (peek line c.2 (chars ['|'])).1 ≠ true := peek_one_false h0 .bar (by decide) hcts hrest (by decide)
    dsimp only
    rw [if_neg hpeek]
    exact .ok ⟨hc, (tokens_peek line c.2 (chars ['|'])).trans hcts⟩
  | .bar e p, fuel + 1, s, rest, hts, hrest => by
    rw [Grammar.Pipe.tokens, List.append_assoc, List.cons_append] at hts
    rw [parsepipe]
    refine (exec_complete h0 e fuel hts (follow_cons (by decide))).bind fun c ⟨hc, hcts⟩ => ?_
    have hpeek : (peek line c.2 (chars ['|'])).1 = true := (peek_one h0 .bar (by decide)).mpr ⟨_, hcts⟩
    dsimp only
    rw [if_pos hpeek]
    refine (pipe_complete h0 p fuel (tokens_after h0 _ hcts) hrest).bind fun r ⟨hr, hrts⟩ => ?_
    exact .ok ⟨hc.pipe hr, hrts⟩

theorem exec_complete (h0 : 0 ∉ line) : ∀ (d : Grammar.Exec) (fuel : Nat) {s : Nat} {rest : List Token},
    tokens line s = d.tokens ++ rest → Follow closers rest →
      Yields (parseexec line fuel s) fun r => Reads line r.1 d.tree ∧ tokens line r.2 = rest
  | _, 0, _, _, _, _ => by
    rw [parseexec]
    exact .inl rfl
  | .block l rs, 1, s, rest, hts, _ => by
    rw [Grammar.Exec.tokens, List.cons_append] at hts
    have hpeek : (peek line s (chars ['('])).1 = true := (peek_one h0 .lpar (by decide)).mpr ⟨_, hts⟩
    rw [parseexec]
    rw [if_pos hpeek, parseblock]
    exact .inl rfl
  | .block l rs, fuel + 2, s, rest, hts, hrest => by
    rw [Grammar.Exec.tokens, List.cons_append, List.append_assoc, List.cons_append] at hts
    have hpeek : (peek line s (chars ['('])).1 = true := (peek_one h0 .lpar (by decide)).mpr ⟨_, hts⟩
    have hts' := (tokens_peek line s (chars ['('])).trans hts
    have hpeek' : (peek line (peek line s (chars ['('])).2 (chars ['('])).1 = true :=
      (peek_one h0 .lpar (by decide)).mpr ⟨_, hts'⟩
    rw [parseexec]
    rw [if_pos hpeek, parseblock]
    dsimp only
    rw [if_pos hpeek']
    refine (line_complete h0 l fuel (tokens_after h0 _ hts') (follow_cons (by decide))).bind fun c ⟨hc, hcts⟩ => ?_
    have hclose : (peek line c.2 (chars [')'])).1 = true := (peek_one h0 .rpar (by decide)).mpr ⟨_, hcts⟩
    rw [if_pos hclose]
    refine (parseredirs_complete h0 readsRedirs_nil (tokens_after h0 _ hcts) (closers_ne_redir hrest)
      fuel).bind fun r ⟨hr, hrts⟩ => ?_
    exact .ok ⟨hc.wrap hr, hrts⟩
  | .words ds ws few, fuel + 1, s, rest, hts, hrest => by
    rw [Grammar.Exec.tokens, List.append_assoc] at hts
    have hpeek : (peek line s (chars ['('])).1 ≠ true := fun hp => by
      obtain ⟨ts, hts'⟩ := (peek_one h0 .lpar (by decide)).mp hp
      rw [hts] at hts'
      cases ds with
      | nil => exact (wordTokens_ne hrest).2 ts hts'
      | cons d ds => exact Token.noConfusion (List.cons.inj hts').1
    rw [parseexec]
    rw [if_neg hpeek]
    refine (parseredirs_complete h0 readsRedirs_nil ((tokens_peek line s (chars ['('])).trans hts)
      (wordTokens_ne hrest).1 fuel).bind fun r ⟨hr, hrts⟩ => ?_
    refine (parsewords_complete h0 rfl (fun w hw => absurd hw List.not_mem_nil) hr ?_ hrts hrest fuel).bind
      fun w ⟨⟨hwt, hwc⟩, hwr, hwts⟩ => ?_
    · rw [List.length_nil, Nat.zero_add]
      exact Nat.lt_of_le_sub_one (by decide) few
    · exact .ok ⟨Reads.wrap ⟨congrArg Cmd.exec hwt, hwc⟩ hwr, hwts⟩

end

/-! ## The parser ends -/

theorem parsebacks_ends (h0 : 0 ∉ line) (h : (tokens line s).length < fuel) : Ends (parsebacks line fuel cmd s) := by
  induction fuel generalizing cmd s with
  | zero => exact absurd h (Nat.not_lt_zero _)
  | succ fuel ih =>
    rw [parsebacks]
    split_ifs with hp
    · obtain ⟨ts, hts⟩ := (peek_one h0 .amp (by decide)).mp hp
      rw [hts, List.length_cons] at h
      exact ih (by rw [tokens_after h0 _ hts]; omega)
    · exact ends_ok _

theorem length_after_le (h0 : 0 ∉ line) (s : Nat) :
    (tokens line (gettoken line s).2).length ≤ (tokens line s).length - 1 := by
  cases hts : tokens line s with
  | nil => rw [(gettoken_nil h0 hts).2, List.length_nil]
  | cons t ts => rw [(gettoken_cons h0 hts).2.1, List.length_cons, Nat.add_sub_cancel]

theorem parseredirs_ends (h0 : 0 ∉ line) (h : (tokens line s).length < fuel) : Ends (parseredirs line fuel rs s) := by
  induction fuel generalizing rs s with
  | zero => exact absurd h (Nat.not_lt_zero _)
  | succ fuel ih =>
    rw [parseredirs]
    dsimp only
    split_ifs with hp hfile
    · exact ends_panic _
    · obtain ⟨op, ts, hts⟩ := (peek_redir h0).mp hp
      have hlen := length_after_le h0 (gettoken line (peek line s (chars ['<', '>'])).2).2
      rw [tokens_after h0 _ hts] at hlen
      rw [hts, List.length_cons] at h
      exact ih (by omega)
    · exact ends_ok _

theorem parsewords_ends (h0 : 0 ∉ line) (h : (tokens line s).length < fuel) :
    Ends (parsewords line fuel argv rs s) := by
  induction fuel generalizing argv rs s with
  | zero => exact absurd h (Nat.not_lt_zero _)
  | succ fuel ih =>
    rw [parsewords]
    dsimp only
    split_ifs with hp hend hword hmany
    · exact ends_ok _
    · exact ends_ok _
    · exact ends_panic _
    · exact ends_panic _
    · cases hts : tokens line s with
      | nil => exact absurd (gettoken_nil h0 ((tokens_peek _ _ _).trans hts)).1 hend
      | cons t ts =>
        have hrest := tokens_after h0 (chars ['|', ')', '&', ';']) hts
        rw [hts, List.length_cons] at h
        refine (parseredirs_ends h0 (by rw [hrest]; omega)).bind fun r hr => ih ?_
        obtain ⟨ds, hds⟩ := parseredirs_sound h0 hr
        have hlen := hds.length_le
        rw [hrest] at hlen
        omega

/-- The functions that call each other end with this much fuel. -/
structure EndsAt (line : List Byte) (fuel : Nat) : Prop where
  ofLine : ∀ {s}, 4 * (tokens line s).length + 4 ≤ fuel → Ends (parseline line fuel s)
  ofPipe : ∀ {s}, 4 * (tokens line s).length + 3 ≤ fuel → Ends (parsepipe line fuel s)
  ofExec : ∀ {s}, 4 * (tokens line s).length + 2 ≤ fuel → Ends (parseexec line fuel s)
  ofBlock : ∀ {s}, 4 * (tokens line s).length + 1 ≤ fuel → Ends (parseblock line fuel s)

section

variable (h0 : 0 ∉ line) (ih : EndsAt line fuel)

include h0 ih

theorem parseline_ends (h : 4 * (tokens line s).length + 4 ≤ fuel + 1) :
    Ends (parseline line (fuel + 1) s) := by
  rw [parseline]
  refine (ih.ofPipe (by omega)).bind fun c hc => ?_
  obtain ⟨d, hd⟩ := (soundAt h0 fuel).ofPipe hc
  have h1 := hd.length_le
  refine (parsebacks_ends h0 (by omega)).bind fun b hb => ?_
  obtain ⟨n, hn⟩ := parsebacks_sound h0 hb
  have h2 := hn.length_le
  dsimp only
  split_ifs with hp
  · obtain ⟨ts, hts⟩ := (peek_one h0 .semi (by decide)).mp hp
    rw [hts, List.length_cons] at h2
    exact (ih.ofLine (by rw [tokens_after h0 _ hts]; omega)).bind fun r _ => ends_ok _
  · exact ends_ok _

theorem parsepipe_ends (h : 4 * (tokens line s).length + 3 ≤ fuel + 1) :
    Ends (parsepipe line (fuel + 1) s) := by
  rw [parsepipe]
  refine (ih.ofExec (by omega)).bind fun c hc => ?_
  obtain ⟨d, hd⟩ := (soundAt h0 fuel).ofExec hc
  have h1 := hd.length_le
  dsimp only
  split_ifs with hp
  · obtain ⟨ts, hts⟩ := (peek_one h0 .bar (by decide)).mp hp
    rw [hts, List.length_cons] at h1
    exact (ih.ofPipe (by rw [tokens_after h0 _ hts]; omega)).bind fun r _ => ends_ok _
  · exact ends_ok _

theorem parseexec_ends (h : 4 * (tokens line s).length + 2 ≤ fuel + 1) :
    Ends (parseexec line (fuel + 1) s) := by
  have htokens := tokens_peek line s (chars ['('])
  rw [parseexec]
  split_ifs with hp
  · exact ih.ofBlock (by rw [htokens]; omega)
  · refine (parseredirs_ends h0 (by rw [htokens]; omega)).bind fun r hr => ?_
    obtain ⟨ds, hds⟩ := parseredirs_sound h0 hr
    have h1 := hds.length_le
    rw [htokens] at h1
    exact (parsewords_ends h0 (by omega)).bind fun w _ => ends_ok _

theorem parseblock_ends (h : 4 * (tokens line s).length + 1 ≤ fuel + 1) :
    Ends (parseblock line (fuel + 1) s) := by
  rw [parseblock]
  split_ifs with hp
  · obtain ⟨ts, hts⟩ := (peek_one h0 .lpar (by decide)).mp hp
    have hrest := tokens_after h0 (chars ['(']) hts
    rw [hts, List.length_cons] at h
    refine (ih.ofLine (by rw [hrest]; omega)).bind fun c hc => ?_
    obtain ⟨d, hd⟩ := (soundAt h0 fuel).ofLine hc
    have h1 := hd.length_le
    rw [hrest] at h1
    dsimp only
    split_ifs with hclose
    · have h2 := length_after_le h0 (peek line c.2 (chars [')'])).2
      rw [tokens_peek] at h2
      exact (parseredirs_ends h0 (by omega)).bind fun r _ => ends_ok _
    · exact ends_panic _
  · exact ends_panic _

end

theorem endsAt (h0 : 0 ∉ line) (fuel : Nat) : EndsAt line fuel := by
  induction fuel with
  | zero =>
    refine ⟨fun h => ?_, fun h => ?_, fun h => ?_, fun h => ?_⟩
    · omega
    · omega
    · omega
    · omega
  | succ fuel ih => exact ⟨parseline_ends h0 ih, parsepipe_ends h0 ih, parseexec_ends h0 ih, parseblock_ends h0 ih⟩

/-! ## The words are cut -/

/-- The string of C at `q`. -/
def cstring (buf : List Byte) (q : Nat) : List Byte := (buf.drop q).takeWhile (· ≠ 0)

/-- Set the byte behind each word to zero. -/
def cutAll (ws : List Span) (buf : List Byte) : List Byte := ws.foldl (fun buf w => buf.set w.eq 0) buf

theorem nulterminate_eq (cmd : Cmd Span) (buf : List Byte) : nulterminate cmd buf = cutAll cmd.words buf := by
  induction cmd generalizing buf with
  | exec argv => rfl
  | redir cmd r ih => rw [nulterminate, ih, Cmd.words, cutAll, cutAll, List.foldl_append]; rfl
  | pipe left right ihl ihr => rw [nulterminate, ihl, ihr, Cmd.words, cutAll, cutAll, cutAll, List.foldl_append]
  | list left right ihl ihr => rw [nulterminate, ihl, ihr, Cmd.words, cutAll, cutAll, cutAll, List.foldl_append]
  | back cmd ih => exact ih buf

theorem cutAll_get {i : Nat} (hi : ∀ w ∈ ws, w.eq ≠ i) : (cutAll ws buf)[i]? = buf[i]? := by
  induction ws generalizing buf with
  | nil => rfl
  | cons w ws ih =>
    refine (ih fun v hv => hi v (List.mem_cons_of_mem w hv)).trans ?_
    exact List.getElem?_set_ne (hi w List.mem_cons_self)

theorem cutAll_get_zero {i : Nat} (hi : ∃ w ∈ ws, w.eq = i) (hlt : i < buf.length) :
    (cutAll ws buf)[i]? = some 0 := by
  induction ws generalizing buf with
  | nil =>
    obtain ⟨w, hw, -⟩ := hi
    exact absurd hw List.not_mem_nil
  | cons v ws ih =>
    by_cases hlater : ∃ w ∈ ws, w.eq = i
    · exact ih hlater (by rwa [List.length_set])
    · obtain ⟨w, hw, rfl⟩ := hi
      obtain rfl := (List.mem_cons.mp hw).resolve_right fun hmem => hlater ⟨w, hmem, rfl⟩
      refine (cutAll_get fun u hu heq => hlater ⟨u, hu, heq⟩).trans ?_
      exact List.getElem?_set_self hlt

theorem cstring_eq_take {q : Nat} (hne : ∀ i, q ≤ i → i < q + n → ∃ c, buf[i]? = some c ∧ c ≠ 0)
    (hend : buf[q + n]? = some 0) : cstring buf q = (buf.drop q).take n := by
  induction n generalizing q with
  | zero =>
    rw [Nat.add_zero] at hend
    obtain ⟨hlt, hget⟩ := List.getElem?_eq_some_iff.mp hend
    rw [cstring, List.drop_eq_getElem_cons hlt, hget, List.take_zero]
    rfl
  | succ n ih =>
    obtain ⟨c, hc, hc0⟩ := hne q (le_refl q) (by omega)
    obtain ⟨hlt, rfl⟩ := List.getElem?_eq_some_iff.mp hc
    have htail : cstring buf (q + 1) = (buf.drop (q + 1)).take n :=
      ih (fun i h1 h2 => hne i (by omega) (by omega)) (by rw [Nat.add_right_comm]; exact hend)
    rw [cstring, List.drop_eq_getElem_cons hlt, List.takeWhile_cons, if_pos (decide_eq_true hc0), List.take_succ_cons]
    exact congrArg (_ :: ·) htail

theorem Cut.not_inside {v w : Span} (hw : Cut line w) (hv : Cut line v) : ¬(w.q ≤ v.eq ∧ v.eq < w.eq) := by
  rintro ⟨h1, h2⟩
  rcases hv.behind with hb | hb
  · have := hw.inside
    omega
  · simp [hw.word v.eq h1 h2] at hb

theorem cstring_cutAll (h0 : 0 ∉ line) {w : Span} (hcut : ∀ v ∈ ws, Cut line v) (hw : w ∈ ws) :
    cstring (cutAll ws (line ++ [0])) w.q = text line w := by
  have hwcut := hcut w hw
  have hlt := hwcut.lt
  have hin := hwcut.inside
  have hget : ∀ i, w.q ≤ i → i < w.eq → (cutAll ws (line ++ [0]))[i]? = (line)[i]? := by
    intro i h1 h2
    refine (cutAll_get fun v hv heq => ?_).trans (List.getElem?_append_left (by omega))
    exact hwcut.not_inside (hcut v hv) (heq ▸ ⟨h1, h2⟩)
  have hlen : w.q + (w.eq - w.q) = w.eq := by omega
  rw [cstring_eq_take (n := w.eq - w.q), text]
  · refine List.ext_getElem? fun j => ?_
    rw [List.getElem?_take, List.getElem?_take, List.getElem?_drop, List.getElem?_drop]
    split_ifs with hj
    · exact hget (w.q + j) (by omega) (by omega)
    · rfl
  · intro i h1 h2
    have hlt : i < line.length := by omega
    refine ⟨(line)[i], ?_, fun hc => h0 (hc ▸ List.getElem_mem hlt)⟩
    rw [hget i h1 (by omega), List.getElem?_eq_getElem hlt]
  · rw [hlen]
    exact cutAll_get_zero ⟨w, hw, rfl⟩ (by rw [List.length_append, List.length_singleton]; omega)

theorem Cmd.map_congr {V W : Type} {f g : V → W} {cmd : Cmd V} (h : ∀ w ∈ cmd.words, f w = g w) :
    cmd.map f = cmd.map g := by
  induction cmd with
  | exec argv => exact congrArg Cmd.exec (List.map_congr_left h)
  | redir cmd r ih =>
    have hr : r.map f = r.map g := by rw [Redir.map, Redir.map, h r.file (List.mem_append_right _ List.mem_cons_self)]
    rw [Cmd.map, Cmd.map, ih fun w hw => h w (List.mem_append_left _ hw), hr]
  | pipe left right ihl ihr =>
    rw [Cmd.map, Cmd.map, ihl fun w hw => h w (List.mem_append_left _ hw), ihr fun w hw =>
      h w (List.mem_append_right _ hw)]
  | list left right ihl ihr =>
    rw [Cmd.map, Cmd.map, ihl fun w hw => h w (List.mem_append_left _ hw), ihr fun w hw =>
      h w (List.mem_append_right _ hw)]
  | back cmd ih => exact congrArg Cmd.back (ih h)

theorem Reads.strings (h0 : 0 ∉ line) (h : Reads line cmd tree) :
    cmd.map (fun w => cstring (nulterminate cmd (line ++ [0])) w.q) = tree := by
  rw [← h.text, nulterminate_eq]
  exact Cmd.map_congr fun w hw => cstring_cutAll h0 h.cut hw

/-! ## `parsecmd` -/

theorem tokens_zero (line : List Byte) : tokens line 0 = lex line := by rw [tokens, List.drop_zero]

theorem parsecmd_derived (h0 : 0 ∉ line) {r : Cmd Span × List Byte} (h : parsecmd line = .ok r) :
    ∃ d : Grammar.Line, d.tokens = lex line := by
  rw [parsecmd] at h
  obtain ⟨⟨c, s⟩, hc, h⟩ := bind_ok h
  dsimp only at h
  split_ifs at h with hend
  obtain ⟨d, hd⟩ := (soundAt h0 _).ofLine hc
  rw [not_not, peek_end_iff h0 (hd.inside (Nat.zero_le _))] at hend
  refine ⟨d, ?_⟩
  rw [← tokens_zero, hd.tokens, hend, List.append_nil]

theorem parsecmd_ends (h0 : 0 ∉ line) : Ends (parsecmd line) := by
  have hlen := length_lex_le line
  rw [parsecmd]
  refine ((endsAt h0 _).ofLine (by rw [tokens_zero]; omega)).bind fun c _ => ?_
  dsimp only
  split_ifs
  · exact ends_panic _
  · exact ends_ok _

theorem parsecmd_builds (h0 : 0 ∉ line) (d : Grammar.Line) (hd : d.tokens = lex line) :
    ∃ cmd, parsecmd line = .ok (cmd, nulterminate cmd (line ++ [0])) ∧ Reads line cmd d.tree := by
  have hlen := length_lex_le line
  have hts : tokens line 0 = d.tokens ++ [] := by rw [tokens_zero, hd, List.append_nil]
  rcases line_complete h0 d (4 * line.length + 4) hts fun t ht =>
    absurd ht (by simp) with hfuel | ⟨⟨c, s⟩, hc, hreads, hrest⟩
  · exact absurd hfuel ((endsAt h0 _).ofLine (by rw [tokens_zero]; omega))
  · obtain ⟨d', hd'⟩ := (soundAt h0 _).ofLine hc
    have hend : (peek line s []).2 = line.length := (peek_end_iff h0 (hd'.inside (Nat.zero_le _))).mpr hrest
    refine ⟨c, ?_, hreads⟩
    rw [parsecmd, hc]
    change (if (peek line s []).2 ≠ line.length then _ else _) = _
    rw [if_neg (not_not.mpr hend)]
    rfl

/-- The parser ends on every line. It accepts a line if and only if its tokens are derived from the grammar,
and then the command that it builds, with its words cut in the line, is that of the derivation. -/
theorem parsecmd_exact (h0 : 0 ∉ line) : parsecmd line ≠ .error .fuel ∧
    ((∃ r, parsecmd line = .ok r) ↔ ∃ d : Grammar.Line, d.tokens = lex line) ∧
    ∀ d : Grammar.Line, d.tokens = lex line →
      ∃ cmd buf, parsecmd line = .ok (cmd, buf) ∧ cmd.map (fun w => cstring buf w.q) = d.tree := by
  refine ⟨parsecmd_ends h0, ⟨fun ⟨r, hr⟩ => parsecmd_derived h0 hr, fun ⟨d, hd⟩ => ?_⟩, fun d hd => ?_⟩
  · obtain ⟨cmd, h, -⟩ := parsecmd_builds h0 d hd
    exact ⟨_, h⟩
  · obtain ⟨cmd, h, hreads⟩ := parsecmd_builds h0 d hd
    exact ⟨cmd, _, h, hreads.strings h0⟩

/-- The strings at the words of the command are the words of the line. None of the bytes set to zero is in a
word or at its beginning, and all are in the line or on the zero behind it. -/
theorem nulterminate_faithful (h0 : 0 ∉ line) {cmd : Cmd Span} {buf : List Byte} (h : parsecmd line = .ok (cmd, buf)) :
    (∃ d : Grammar.Line, d.tokens = lex line ∧ cmd.map (text line) = d.tree) ∧
    cmd.map (fun w => cstring buf w.q) = cmd.map (text line) ∧
    ∀ w ∈ cmd.words, w.q < w.eq ∧ w.eq ≤ line.length ∧ ∀ v ∈ cmd.words, ¬(w.q ≤ v.eq ∧ v.eq < w.eq) := by
  obtain ⟨d, hd⟩ := parsecmd_derived h0 h
  obtain ⟨cmd', h', hreads⟩ := parsecmd_builds h0 d hd
  obtain ⟨rfl, rfl⟩ := Prod.mk.inj (Except.ok.inj (h.symm.trans h'))
  refine ⟨⟨d, hd, hreads.text⟩, (hreads.strings h0).trans hreads.text.symm, fun w hw => ?_⟩
  have hcut := hreads.cut w hw
  exact ⟨hcut.lt, hcut.inside, fun v hv => hcut.not_inside (hreads.cut v hv)⟩

/-- `(a>b|c)&;d` -/
def sample : List Byte := chars ['(', 'a', '>', 'b', '|', 'c', ')', '&', ';', 'd']

example : (match parsecmd sample with
    | .ok (cmd, buf) => decide (cmd.map (fun w => cstring buf w.q) =
        .list (.back (.pipe (.redir (.exec [chars ['a']]) ⟨chars ['b'], O_WRONLY ||| O_CREATE ||| O_TRUNC, 1⟩)
        (.exec [chars ['c']]))) (.exec [chars ['d']]))
    | .error _ => false) = true := by
  decide +kernel

theorem parsecmd_sample : ∃ r, parsecmd sample = .ok r := by
  have hok : (parsecmd sample).toOption.isSome = true := by decide +kernel
  cases h : parsecmd sample with
  | ok r => exact ⟨r, rfl⟩
  | error e =>
    rw [h] at hok
    cases hok

theorem parsecmd_exact_sample : (∃ d : Grammar.Line, d.tokens = lex sample) ∧ parsecmd sample ≠ .error .fuel ∧
    ((∃ r, parsecmd sample = .ok r) ↔ ∃ d : Grammar.Line, d.tokens = lex sample) ∧
    ∀ d : Grammar.Line, d.tokens = lex sample →
      ∃ cmd buf, parsecmd sample = .ok (cmd, buf) ∧ cmd.map (fun w => cstring buf w.q) = d.tree := by
  have hexact := parsecmd_exact (by decide : 0 ∉ sample)
  exact ⟨hexact.2.1.mp parsecmd_sample, hexact⟩

theorem nulterminate_faithful_sample : ∃ cmd buf, parsecmd sample = .ok (cmd, buf) ∧
    cmd.map (fun w => cstring buf w.q) = cmd.map (text sample) := by
  obtain ⟨⟨cmd, buf⟩, h⟩ := parsecmd_sample
  exact ⟨cmd, buf, h, (nulterminate_faithful (by decide : 0 ∉ sample) h).2.1⟩

end Xv6.Sh

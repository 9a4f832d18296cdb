import Xv6.Lib.RingBuffer
import Xv6.Lib.Run

/-!
# The console's line discipline

`consoleintr` and `consoleread` of `kernel/console.c`. Input goes through a ring with three indices that
wrap: `r` up to `w` is committed input, which readers take; `w` up to `e` is the line being edited. The
specification has a pair of lists in place of the ring, and keeps what was committed and who took it.

Echoing and the process listing of `^P` have no effect on the ring. A reader that sleeps may be resumed at
any time: the loop tests again.
-/

namespace Xv6.Console

open Function (update update_of_ne update_self)
open Machine (Run any)

def INPUT_BUF : Nat := 128

abbrev Byte := BitVec 8

/-- `C(x)`: Control-x. -/
def C (x : Char) : Byte := BitVec.ofNat 8 (x.toNat - '@'.toNat)

def newline : Byte := BitVec.ofNat 8 '\n'.toNat

def carriageReturn : Byte := BitVec.ofNat 8 '\r'.toNat

structure Cons where
  buf : Nat → Byte := fun _ => 0
  r : BitVec 32 := 0
  w : BitVec 32 := 0
  e : BitVec 32 := 0

/-- The loop for `^U`; there are `e - w` characters at most to erase. -/
def killLine : Nat → Cons → Cons
  | 0, cons => cons
  | k + 1, cons =>
    if cons.e ≠ cons.w ∧ cons.buf ((cons.e - 1).toNat % INPUT_BUF) ≠ newline then
      killLine k { cons with e := cons.e - 1 }
    else cons

/-- The console input interrupt handler, for a character from the UART. -/
def consoleintr (c : Byte) (cons : Cons) : Cons :=
  if c = C 'P' then cons
  else if c = C 'U' then killLine (cons.e - cons.w).toNat cons
  else if c = C 'H' ∨ c = 0x7f then if cons.e ≠ cons.w then { cons with e := cons.e - 1 } else cons
  else if c ≠ 0 ∧ (cons.e - cons.r).toNat < INPUT_BUF then
    let c := if c = carriageReturn then newline else c
    let cons := { cons with buf := update cons.buf (cons.e.toNat % INPUT_BUF) c, e := cons.e + 1 }
    if c = newline ∨ c = C 'D' ∨ cons.e = cons.r + BitVec.ofNat 32 INPUT_BUF then { cons with w := cons.e } else cons
  else cons

/-- How a stretch of `consoleread` ends: it returns, with the bytes it has copied out; it sleeps, with `n`
bytes still wanted; or it returns -1 as its process was killed. -/
inductive Outcome
  | ret (got : List Byte)
  | sleep (n : Nat) (got : List Byte)
  | killed (got : List Byte)
  deriving DecidableEq

/-- The loop of `consoleread`, up to where it sleeps or returns. -/
def consoleread (killed : Bool) (target : Nat) : Nat → List Byte → Cons → Cons × Outcome
  | 0, got, cons => (cons, .ret got)
  | n + 1, got, cons =>
    if cons.r = cons.w then (cons, if killed then .killed got else .sleep (n + 1) got)
    else
      let c := cons.buf (cons.r.toNat % INPUT_BUF)
      let cons := { cons with r := cons.r + 1 }
      if c = C 'D' then
        -- save ^D for next time, to make sure the caller gets a 0-byte result
        if n + 1 < target then ({ cons with r := cons.r - 1 }, .ret got) else (cons, .ret got)
      else if c = newline then (cons, .ret (got ++ [c]))
      else consoleread killed target n (got ++ [c]) cons

/-! ## The machine -/

/-- A call that sleeps: it wants `n` more bytes of `target`. -/
structure Reading where
  target : Nat
  n : Nat
  got : List Byte

/-- A call that has returned, with the bytes it delivered; `-1` if its process was killed. -/
structure Result (P : Type) where
  proc : P
  n : Nat
  bytes : List Byte
  killed : Bool

inductive Event (P : Type)
  | intr (c : Byte)
  | read (p : P) (n : Nat) (killed : Bool)
  | resume (p : P) (killed : Bool)

structure State (P : Type) where
  cons : Cons := {}
  asleep : P → Option Reading := fun _ => none
  results : List (Result P) := []

variable {P : Type} [DecidableEq P]

/-- What an outcome leaves of the call. -/
def Outcome.reading (target : Nat) : Outcome → Option Reading
  | .sleep n got => some ⟨target, n, got⟩
  | _ => none

def Outcome.result (p : P) (target : Nat) : Outcome → Option (Result P)
  | .ret got => some ⟨p, target, got, false⟩
  | .killed got => some ⟨p, target, got, true⟩
  | .sleep .. => none

def State.run (s : State P) (p : P) (killed : Bool) (rd : Reading) : State P :=
  let (cons, o) := consoleread killed rd.target rd.n rd.got s.cons
  { cons := cons
    asleep := update s.asleep p (o.reading rd.target)
    results := s.results ++ (o.result p rd.target).toList }

def step (s : State P) : Event P → Option (State P)
  | .intr c => some { s with cons := consoleintr c s.cons }
  | .read p n killed => if 1 ≤ n ∧ (s.asleep p).isNone then some (s.run p killed ⟨n, n, []⟩) else none
  | .resume p killed => (s.asleep p).map (s.run p killed)

/-! ## The specification -/

/-- Committed input that was not read, and the line being edited. The last fields are history: all that was
committed, which process took each byte, and the calls that have returned, each with the number of bytes
taken by then. -/
structure Spec (P : Type) where
  unread : List Byte := []
  line : List Byte := []
  asleep : P → Option Reading := fun _ => none
  committed : List Byte := []
  taken : List (P × Byte) := []
  returned : List (Result P × Nat) := []

def Spec.commit (q : Spec P) (line : List Byte) : Spec P :=
  { q with unread := q.unread ++ line, line := [], committed := q.committed ++ line }

/-- Editing changes the line only; a newline, `^D` or a full buffer commits it. -/
def Spec.intr (c : Byte) (q : Spec P) : Spec P :=
  if c = C 'P' then q
  else if c = C 'U' then { q with line := [] }
  else if c = C 'H' ∨ c = 0x7f then { q with line := q.line.dropLast }
  else if c ≠ 0 ∧ q.unread.length + q.line.length < INPUT_BUF then
    let c := if c = carriageReturn then newline else c
    if c = newline ∨ c = C 'D' ∨ q.unread.length + q.line.length + 1 = INPUT_BUF then q.commit (q.line ++ [c])
    else { q with line := q.line ++ [c] }
  else q

omit [DecidableEq P] in
theorem Spec.intr_eq (c : Byte) (q : Spec P) : ∃ new line,
    q.intr c = { q with unread := q.unread ++ new, line := line, committed := q.committed ++ new } := by
  have hsame : ∀ line, ({ q with line := line } : Spec P) =
      { q with unread := q.unread ++ [], line := line, committed := q.committed ++ [] } := fun line => by
    rw [List.append_nil, List.append_nil]
  rw [Spec.intr]
  generalize (if c = carriageReturn then newline else c) = c'
  dsimp only
  split_ifs
  · exact ⟨[], q.line, hsame q.line⟩
  · exact ⟨[], [], hsame []⟩
  · exact ⟨[], q.line.dropLast, hsame q.line.dropLast⟩
  · exact ⟨_, [], rfl⟩
  · exact ⟨[], _, hsame _⟩
  · exact ⟨[], q.line, hsame q.line⟩

/-- What a read takes of the input, what it leaves, and how it ends. -/
def takeLine (killed : Bool) (target : Nat) : Nat → List Byte → List Byte → List Byte × List Byte × Outcome
  | 0, got, unread => ([], unread, .ret got)
  | n + 1, got, [] => ([], [], if killed then .killed got else .sleep (n + 1) got)
  | n + 1, got, c :: unread =>
    if c = C 'D' then if n + 1 < target then ([], c :: unread, .ret got) else ([c], unread, .ret got)
    else if c = newline then ([c], unread, .ret (got ++ [c]))
    else
      let (now, rest, o) := takeLine killed target n (got ++ [c]) unread
      (c :: now, rest, o)

def Spec.run (q : Spec P) (p : P) (killed : Bool) (rd : Reading) : Spec P :=
  let (now, rest, o) := takeLine killed rd.target rd.n rd.got q.unread
  { q with
    unread := rest
    asleep := update q.asleep p (o.reading rd.target)
    taken := q.taken ++ now.map (p, ·)
    returned := q.returned ++ ((o.result p rd.target).map (·, q.taken.length + now.length)).toList }

def specStep (q : Spec P) : Event P → Option (Spec P)
  | .intr c => some (q.intr c)
  | .read p n killed => if 1 ≤ n ∧ (q.asleep p).isNone then some (q.run p killed ⟨n, n, []⟩) else none
  | .resume p killed => (q.asleep p).map (q.run p killed)

/-! ## The ring stands for the two lists -/

def Cons.ring (cons : Cons) : RingBuffer Byte INPUT_BUF 32 := ⟨cons.buf, cons.r, cons.e⟩

structure Rep (cons : Cons) (unread line : List Byte) : Prop where
  ring : ∃ k, cons.ring.Holds k (unread ++ line) ∧ cons.w = BitVec.ofNat 32 (k + unread.length)
  plain : newline ∉ line

variable {cons : Cons} {unread line : List Byte}

theorem dvd_buf : INPUT_BUF ∣ 2 ^ 32 := by decide

theorem buf_lt : INPUT_BUF < 2 ^ 32 := by decide

section

variable (h : Rep cons unread line)

include h

theorem Rep.bound : unread.length + line.length ≤ INPUT_BUF := by
  obtain ⟨k, hr, -⟩ := h.ring
  rw [← List.length_append]
  exact hr.bound

theorem Rep.edit_iff : cons.e = cons.w ↔ line = [] := by
  obtain ⟨k, hr, hw⟩ := h.ring
  have hb := h.bound
  have hbuf := buf_lt
  have he : cons.e = BitVec.ofNat 32 (k + unread.length + line.length) := by
    have := hr.tail
    rwa [List.length_append, ← Nat.add_assoc] at this
  have hiff := RingBuffer.ofNat_add_eq_iff (k := k + unread.length) (show line.length < 2 ^ 32 by omega)
    (show 0 < 2 ^ 32 by omega)
  rw [he, hw, ← List.length_eq_zero_iff]
  exact hiff

theorem Rep.empty_iff : cons.r = cons.w ↔ unread = [] := by
  obtain ⟨k, hr, hw⟩ := h.ring
  have hb := h.bound
  have hbuf := buf_lt
  have hhead : cons.r = BitVec.ofNat 32 k := hr.head
  have hiff := RingBuffer.ofNat_add_eq_iff (k := k) (show 0 < 2 ^ 32 by omega) (show unread.length < 2 ^ 32 by omega)
  rw [hhead, hw, ← List.length_eq_zero_iff, eq_comm (a := unread.length)]
  exact hiff

theorem Rep.used : (cons.e - cons.r).toNat = unread.length + line.length := by
  obtain ⟨k, hr, -⟩ := h.ring
  rw [← List.length_append]
  exact hr.toNat_sub buf_lt

theorem Rep.ready : (cons.w - cons.r).toNat = unread.length := by
  obtain ⟨k, hr, hw⟩ := h.ring
  have hb := h.bound
  have hbuf := buf_lt
  have hhead : cons.r = BitVec.ofNat 32 k := hr.head
  rw [hw, hhead, BitVec.ofNat_add, BitVec.add_comm, BitVec.add_sub_cancel, BitVec.toNat_ofNat,
    Nat.mod_eq_of_lt (by omega)]

theorem Rep.edited : (cons.e - cons.w).toNat = line.length := by
  obtain ⟨k, hr, hw⟩ := h.ring
  have hb := h.bound
  have hbuf := buf_lt
  have he : cons.e = BitVec.ofNat 32 (k + unread.length + line.length) := by
    have := hr.tail
    rwa [List.length_append, ← Nat.add_assoc] at this
  rw [he, hw, BitVec.ofNat_add (k + unread.length), BitVec.add_comm, BitVec.add_sub_cancel, BitVec.toNat_ofNat,
    Nat.mod_eq_of_lt (by omega)]

theorem Rep.erase (hne : line ≠ []) : Rep { cons with e := cons.e - 1 } unread line.dropLast := by
  obtain ⟨k, hr, hw⟩ := h.ring
  refine ⟨⟨k, ?_, hw⟩, fun hmem => h.plain (List.dropLast_subset line hmem)⟩
  have := hr.unpush (by simp [hne])
  rwa [List.dropLast_append_of_ne_nil hne] at this

theorem Rep.last (hne : line ≠ []) : cons.buf ((cons.e - 1).toNat % INPUT_BUF) ≠ newline := by
  obtain ⟨k, hr, -⟩ := h.ring
  have hlast : cons.buf ((cons.e - 1).toNat % INPUT_BUF) = (unread ++ line).getLast (by simp [hne]) := hr.last dvd_buf _
  rw [hlast, List.getLast_append_of_ne_nil _ hne]
  exact fun hc => h.plain (hc ▸ List.getLast_mem hne)

end

theorem killLine_rep : ∀ (k : Nat) (cons : Cons) (line : List Byte), line.length = k → Rep cons unread line →
    Rep (killLine k cons) unread [] := by
  intro k
  induction k with
  | zero =>
    intro cons line hk h
    rwa [List.length_eq_zero_iff.mp hk] at h
  | succ k ih =>
    intro cons line hk h
    have hne : line ≠ [] := by
      rintro rfl
      cases hk
    rw [killLine, if_pos ⟨fun he => hne (h.edit_iff.mp he), h.last hne⟩]
    exact ih _ _ (by rw [List.length_dropLast, hk]; rfl) (h.erase hne)

theorem Rep.type (h : Rep cons unread line) (hlt : unread.length + line.length < INPUT_BUF) (c : Byte) :
    ∃ k, RingBuffer.Holds (⟨update cons.buf (cons.e.toNat % INPUT_BUF) c, cons.r, cons.e + 1⟩ :
    RingBuffer Byte INPUT_BUF 32) k
      (unread ++ (line ++ [c])) ∧ cons.w = BitVec.ofNat 32 (k + unread.length) := by
  obtain ⟨k, hr, hw⟩ := h.ring
  refine ⟨k, ?_, hw⟩
  rw [← List.append_assoc]
  exact hr.push dvd_buf (by rwa [List.length_append])

variable {q : Spec P} {rd : Reading}

omit [DecidableEq P] in
theorem consoleintr_rep (c : Byte) (h : Rep cons q.unread q.line) :
    Rep (consoleintr c cons) (q.intr c).unread (q.intr c).line := by
  rw [consoleintr, Spec.intr]
  by_cases hP : c = C 'P'
  · rw [if_pos hP, if_pos hP]
    exact h
  rw [if_neg hP, if_neg hP]
  by_cases hU : c = C 'U'
  · rw [if_pos hU, if_pos hU, h.edited]
    exact killLine_rep _ cons q.line rfl h
  rw [if_neg hU, if_neg hU]
  by_cases hH : c = C 'H' ∨ c = 0x7f
  · rw [if_pos hH, if_pos hH]
    by_cases he : cons.e = cons.w
    · have hl := h.edit_iff.mp he
      rw [if_neg (not_not.mpr he)]
      rw [hl] at h ⊢
      exact h
    · rw [if_pos he]
      exact h.erase fun hl => he (h.edit_iff.mpr hl)
  rw [if_neg hH, if_neg hH, h.used]
  by_cases hroom : c ≠ 0 ∧ q.unread.length + q.line.length < INPUT_BUF
  · rw [if_pos hroom, if_pos hroom]
    generalize (if c = carriageReturn then newline else c) = c'
    obtain ⟨k, hr, hw⟩ := h.type hroom.2 c'
    have hfull : cons.e + 1 = cons.r + BitVec.ofNat 32 INPUT_BUF ↔ q.unread.length + q.line.length + 1 = INPUT_BUF := by
      have := hr.full_iff buf_lt
      rwa [List.length_append, List.length_append, List.length_singleton, ← Nat.add_assoc] at this
    have hiff := or_congr (Iff.refl (c' = newline)) (or_congr (Iff.refl (c' = C 'D')) hfull)
    by_cases hend : c' = newline ∨ c' = C 'D' ∨ q.unread.length + q.line.length + 1 = INPUT_BUF
    · rw [if_pos (hiff.mpr hend), if_pos hend]
      refine ⟨⟨k, ?_, ?_⟩, List.not_mem_nil⟩
      · change RingBuffer.Holds _ k (q.unread ++ (q.line ++ [c']) ++ [])
        rw [List.append_nil]
        exact hr
      · exact hr.tail
    · rw [if_neg (mt hiff.mp hend), if_neg hend]
      refine ⟨⟨k, hr, hw⟩, fun hmem => ?_⟩
      rcases List.mem_append.mp hmem with hl | hc
      · exact h.plain hl
      · exact hend (.inl (List.mem_singleton.mp hc).symm)
  · rw [if_neg hroom, if_neg hroom]
    exact h

theorem consoleread_rep (killed : Bool) (target : Nat) (n : Nat) :
    ∀ (got unread : List Byte) (cons : Cons), Rep cons unread line →
    ∃ cons', consoleread killed target n got cons = (cons', (takeLine killed target n got unread).2.2) ∧
      Rep cons' (takeLine killed target n got unread).2.1 line := by
  induction n with
  | zero => exact fun got unread cons h => ⟨cons, rfl, h⟩
  | succ n ih =>
    intro got unread cons h
    rw [consoleread]
    cases unread with
    | nil =>
      rw [if_pos (h.empty_iff.mpr rfl)]
      exact ⟨cons, rfl, h⟩
    | cons c unread =>
      rw [if_neg fun he => absurd (h.empty_iff.mp he) (List.cons_ne_nil _ _)]
      obtain ⟨k, hr, hw⟩ := h.ring
      obtain ⟨hfront, hpop⟩ := RingBuffer.Holds.front_pop (show cons.ring.Holds k (c :: (unread ++ line)) from hr)
        dvd_buf
      have hc : cons.buf (cons.r.toNat % INPUT_BUF) = c := hfront
      have h' : Rep { cons with r := cons.r + 1 } unread line := by
        refine ⟨⟨k + 1, hpop, ?_⟩, h.plain⟩
        rw [hw, List.length_cons, show k + (unread.length + 1) = k + 1 + unread.length by omega]
      simp only [hc, takeLine]
      by_cases hD : c = C 'D'
      · rw [if_pos hD, if_pos hD]
        by_cases hlt : n + 1 < target
        · rw [if_pos hlt, if_pos hlt]
          refine ⟨_, rfl, ?_⟩
          rw [BitVec.add_sub_cancel]
          exact h
        · rw [if_neg hlt, if_neg hlt]
          exact ⟨_, rfl, h'⟩
      rw [if_neg hD, if_neg hD]
      by_cases hn : c = newline
      · rw [if_pos hn, if_pos hn]
        exact ⟨_, rfl, h'⟩
      · rw [if_neg hn, if_neg hn]
        exact ih (got ++ [c]) unread _ h'

/-- A state and the specification's after the same events. -/
structure Refines (s : State P) (q : Spec P) : Prop where
  rep : Rep s.cons q.unread q.line
  asleep : s.asleep = q.asleep
  results : s.results = q.returned.map (·.1)

theorem Refines.run {s : State P} (h : Refines s q) (p : P) (killed : Bool) (rd : Reading) :
    Refines (s.run p killed rd) (q.run p killed rd) := by
  obtain ⟨cons', hread, hrep⟩ := consoleread_rep killed rd.target rd.n rd.got q.unread s.cons h.rep
  have hs : s.run p killed rd =
    ⟨cons', update s.asleep p ((takeLine killed rd.target rd.n rd.got q.unread).2.2.reading rd.target),
      s.results ++ ((takeLine killed rd.target rd.n rd.got q.unread).2.2.result p rd.target).toList⟩ := by
    rw [State.run, hread]
  rw [hs]
  refine ⟨hrep, ?_, ?_⟩
  · rw [h.asleep]
    rfl
  · rw [h.results, Spec.run, List.map_append]
    cases (takeLine killed rd.target rd.n rd.got q.unread).2.2.result p rd.target with
    | none => rfl
    | some res => rfl

theorem Refines.step {s s' : State P} (h : Refines s q) (e : Event P) (hs : step s e = some s') :
    ∃ q', specStep q e = some q' ∧ Refines s' q' := by
  cases e with
  | intr c =>
    obtain rfl := Option.some.inj hs
    obtain ⟨new, line, hq⟩ := q.intr_eq c
    refine ⟨q.intr c, rfl, consoleintr_rep c h.rep, ?_, ?_⟩
    · rw [hq]
      exact h.asleep
    · rw [hq]
      exact h.results
  | read p n killed =>
    rw [Console.step] at hs
    split_ifs at hs with hok
    obtain rfl := Option.some.inj hs
    rw [h.asleep] at hok
    exact ⟨_, if_pos hok, h.run p killed _⟩
  | resume p killed =>
    rw [Console.step, h.asleep] at hs
    obtain ⟨rd, hrd, rfl⟩ := Option.map_eq_some_iff.mp hs
    exact ⟨_, by rw [specStep, hrd]; rfl, h.run p killed rd⟩

/-! ## What the reads deliver -/

/-- A call in progress has met no `^D` and no newline. -/
structure Pending (rd : Reading) : Prop where
  pos : 1 ≤ rd.n
  length : rd.got.length + rd.n = rd.target
  no_eof : C 'D' ∉ rd.got
  no_newline : newline ∉ rd.got

/-- How a stretch of a read ends, after it took `now` and left `rest`. -/
def Ended (target : Nat) (got now rest : List Byte) : Outcome → Prop
  | .ret bytes => bytes = got ++ now ∧ bytes.length ≤ target ∧
    (now.getLast? = some newline ∨ bytes.length = target ∨ bytes ≠ [] ∧ rest.head? = some (C 'D'))
  | .sleep n bytes => bytes = got ++ now ∧ newline ∉ now ∧ 1 ≤ n ∧ bytes.length + n = target
  | .killed bytes => bytes = got ++ now ∧ newline ∉ now ∧ bytes.length ≤ target

theorem takeLine_spec (killed : Bool) (target : Nat) (n : Nat) : ∀ (got unread now rest : List Byte) (o : Outcome),
    takeLine killed target n got unread = (now, rest, o) → got.length + n = target → unread = now ++ rest ∧
      ((now = [C 'D'] ∧ got = [] ∧ o = .ret []) ∨
      (C 'D' ∉ now ∧ newline ∉ now.dropLast ∧ Ended target got now rest o)) := by
  induction n with
  | zero =>
    intro got unread now rest o h hlen
    obtain ⟨rfl, rfl, rfl⟩ : now = [] ∧ rest = unread ∧ o = .ret got := by simpa [takeLine, eq_comm] using h
    refine ⟨rfl, .inr ⟨List.not_mem_nil, List.not_mem_nil, (List.append_nil got).symm, Nat.le_of_eq hlen,
      .inr (.inl hlen)⟩⟩
  | succ n ih =>
    intro got unread now rest o h hlen
    cases unread with
    | nil =>
      obtain ⟨rfl, rfl, rfl⟩ : now = [] ∧ rest = [] ∧ o = if killed then .killed got else .sleep (n + 1) got := by
        simpa [takeLine, eq_comm] using h
      refine ⟨rfl, .inr ⟨List.not_mem_nil, List.not_mem_nil, ?_⟩⟩
      cases killed with
      | true => exact ⟨(List.append_nil got).symm, List.not_mem_nil, by omega⟩
      | false => exact ⟨(List.append_nil got).symm, List.not_mem_nil, by omega, hlen⟩
    | cons c unread =>
      rw [takeLine] at h
      by_cases hD : c = C 'D'
      · rw [if_pos hD] at h
        by_cases hlt : n + 1 < target
        · rw [if_pos hlt] at h
          obtain ⟨rfl, rfl, rfl⟩ : now = [] ∧ rest = c :: unread ∧ o = .ret got := by simpa [eq_comm] using h
          have hgot : got ≠ [] := List.ne_nil_of_length_pos (by omega)
          refine ⟨rfl, .inr ⟨List.not_mem_nil, List.not_mem_nil,
            (List.append_nil got).symm, by omega, .inr (.inr ⟨hgot, ?_⟩)⟩⟩
          rw [hD]
          rfl
        · rw [if_neg hlt] at h
          obtain ⟨rfl, rfl, rfl⟩ : now = [c] ∧ rest = unread ∧ o = .ret got := by simpa [eq_comm] using h
          have hgot : got = [] := List.length_eq_zero_iff.mp (by omega)
          exact ⟨rfl, .inl ⟨by rw [hD], hgot, by rw [hgot]⟩⟩
      rw [if_neg hD] at h
      by_cases hn : c = newline
      · rw [if_pos hn] at h
        obtain ⟨rfl, rfl, rfl⟩ : now = [c] ∧ rest = unread ∧ o = .ret (got ++ [c]) := by simpa [eq_comm] using h
        refine ⟨rfl, .inr ⟨?_, List.not_mem_nil, rfl, ?_, .inl (by rw [hn]; rfl)⟩⟩
        · exact fun hmem => hD (List.mem_singleton.mp hmem).symm
        · rw [List.length_append, List.length_singleton]
          omega
      rw [if_neg hn] at h
      obtain ⟨now', rest', o', htl⟩ : ∃ now' rest' o', takeLine killed target n (got ++ [c]) unread =
        (now', rest', o') := ⟨_, _, _, rfl⟩
      rw [htl] at h
      obtain ⟨rfl, rfl, rfl⟩ : now = c :: now' ∧ rest = rest' ∧ o = o' := by simpa [eq_comm] using h
      obtain ⟨hunread, hcases⟩ :=
        ih (got ++ [c]) unread now' rest o htl (by rw [List.length_append, List.length_singleton]; omega)
      refine ⟨by rw [hunread]; rfl, .inr ?_⟩
      rcases hcases with ⟨-, hgot, -⟩ | ⟨h1, h2, h3⟩
      · exact absurd hgot (by simp)
      · have hmem : C 'D' ∉ c :: now' := fun hmem => (List.mem_cons.mp hmem).elim (fun he => hD he.symm) h1
        have happ : ∀ l : List Byte, l = got ++ [c] ++ now' ↔ l = got ++ c :: now' := fun l => by
          rw [List.append_assoc, List.singleton_append]
        have hnl : newline ∉ now' → newline ∉ c :: now' := fun hnot hmem =>
          (List.mem_cons.mp hmem).elim (fun he => hn he.symm) hnot
        refine ⟨hmem, ?_, ?_⟩
        · cases now' with
          | nil => exact List.not_mem_nil
          | cons b now' => exact fun hmem => (List.mem_cons.mp hmem).elim (fun he => hn he.symm) h2
        · cases o with
          | ret bytes =>
            obtain ⟨hb, hle, hstop⟩ := h3
            refine ⟨(happ bytes).mp hb, hle, hstop.imp_left fun hlast => ?_⟩
            cases now' with
            | nil => cases hlast
            | cons b now' => rwa [List.getLast?_cons_cons]
          | sleep m bytes => exact ⟨(happ bytes).mp h3.1, hnl h3.2.1, h3.2.2⟩
          | killed bytes => exact ⟨(happ bytes).mp h3.1, hnl h3.2.1, h3.2.2⟩

/-- The bytes a call took: those it delivered, or the `^D` that made it return none. -/
def Result.took (res : Result P) : List Byte := if res.bytes = [] ∧ res.killed = false then [C 'D'] else res.bytes

/-- A call that returned after `k` bytes had been taken: its bytes end at a newline, at `n` bytes or before
a `^D`, or they are none and it has taken the `^D`. -/
structure Cut (committed : List Byte) (taken : List (P × Byte)) (res : Result P) (k : Nat) : Prop where
  length_le : res.bytes.length ≤ res.n
  no_eof : C 'D' ∉ res.bytes
  newline_last : newline ∉ res.bytes.dropLast
  stop : res.killed = false → res.bytes.getLast? = some newline ∨ res.bytes.length = res.n ∨
    (res.bytes ≠ [] ∧ committed[k]? = some (C 'D')) ∨ (res.bytes = [] ∧ 0 < k ∧ taken[k - 1]? = some (res.proc, C 'D'))

omit [DecidableEq P] in
theorem Cut.mono {committed : List Byte} {taken : List (P × Byte)} {res : Result P} {k : Nat}
    (h : Cut committed taken res k)
    (new : List Byte) (now : List (P × Byte)) : Cut (committed ++ new) (taken ++ now) res k := by
  have hget : ∀ {α : Type} (l l' : List α) (i : Nat) (a : α), l[i]? = some a → (l ++ l')[i]? = some a := by
    intro α l l' i a hi
    rw [List.getElem?_append_left (List.getElem?_eq_some_iff.mp hi).1, hi]
  refine ⟨h.length_le, h.no_eof, h.newline_last, fun hk => ?_⟩
  rcases h.stop hk with h1 | h2 | ⟨h3, h3'⟩ | ⟨h4, h4', h4''⟩
  · exact .inl h1
  · exact .inr (.inl h2)
  · exact .inr (.inr (.inl ⟨h3, hget _ _ _ _ h3'⟩))
  · exact .inr (.inr (.inr ⟨h4, h4', hget _ _ _ _ h4''⟩))

/-- What a call in progress has taken so far. -/
def gotten (asleep : P → Option Reading) (p : P) : List Byte := ((asleep p).map Reading.got).getD []

structure Spec.Inv (q : Spec P) : Prop where
  /-- what was taken, and then what is there to read, is all that was committed, in order -/
  stream : q.committed = q.taken.map (·.2) ++ q.unread
  pending : ∀ p rd, q.asleep p = some rd → Pending rd
  /-- a process has taken the bytes of its calls, one call after the other -/
  own : ∀ p, (q.taken.filter (·.1 = p)).map (·.2) =
    ((q.returned.filter (·.1.proc = p)).map (·.1.took)).flatten ++ gotten q.asleep p
  cut : ∀ x ∈ q.returned, Cut q.committed q.taken x.1 x.2
  /-- every `^D` that was taken made one call return no bytes -/
  eof : (q.taken.map (·.2)).count (C 'D') = q.returned.countP fun x => x.1.bytes = [] ∧ x.1.killed = false

theorem Spec.Inv.intr (h : q.Inv) (c : Byte) : (q.intr c).Inv := by
  obtain ⟨new, line, hq⟩ := q.intr_eq c
  rw [hq]
  refine ⟨?_, h.pending, h.own, fun x hx => ?_, h.eof⟩
  · rw [h.stream, List.append_assoc]
  · have := (h.cut x hx).mono new []
    rwa [List.append_nil] at this

omit [DecidableEq P] in
theorem outcome_spec {target : Nat} {now rest : List Byte} {o : Outcome} (p : P) (hrd : Pending rd)
    (ht : rd.target = target)
    (h : (now = [C 'D'] ∧ rd.got = [] ∧ o = .ret []) ∨
    (C 'D' ∉ now ∧ newline ∉ now.dropLast ∧ Ended target rd.got now rest o)) :
    ((o.result p target).toList.map Result.took).flatten ++ ((o.reading target).map Reading.got).getD [] =
    rd.got ++ now ∧
      (∀ rd', o.reading target = some rd' → Pending rd') ∧
      now.count (C 'D') = (o.result p target).toList.countP fun res => res.bytes = [] ∧ res.killed = false := by
  have hpos : 1 ≤ target := by
    have h1 := hrd.pos
    have h2 := hrd.length
    omega
  rcases h with ⟨rfl, hgot, rfl⟩ | ⟨hD, -, hend⟩
  · refine ⟨?_, fun rd' h => (by cases h), rfl⟩
    rw [hgot]
    rfl
  have hcount : now.count (C 'D') = 0 := List.count_eq_zero.mpr hD
  cases o with
  | ret bytes =>
    obtain ⟨hb, -, hstop⟩ := hend
    have hne : bytes ≠ [] := by
      rintro rfl
      rcases hstop with h1 | h2 | h3
      · simp [(List.append_eq_nil_iff.mp hb.symm).2] at h1
      · rw [List.length_nil] at h2
        omega
      · exact h3.1 rfl
    refine ⟨?_, fun rd' h => (by cases h), ?_⟩
    · change [Result.took ⟨p, target, bytes, false⟩].flatten ++ [] = _
      rw [List.append_nil, List.flatten_singleton, Result.took, if_neg fun hc => hne hc.1, hb]
    · rw [hcount]
      change 0 = List.countP _ [(⟨p, target, bytes, false⟩ : Result P)]
      rw [List.countP_singleton, if_neg]
      exact fun hc => hne (of_decide_eq_true hc).1
  | sleep n bytes =>
    obtain ⟨hb, hn, hn1, hlen⟩ := hend
    refine ⟨hb, fun rd' h => ?_, hcount⟩
    obtain rfl := Option.some.inj h
    refine ⟨hn1, hlen, fun hmem => ?_, fun hmem => ?_⟩
    · rw [hb] at hmem
      exact (List.mem_append.mp hmem).elim hrd.no_eof hD
    · rw [hb] at hmem
      exact (List.mem_append.mp hmem).elim hrd.no_newline hn
  | killed bytes =>
    obtain ⟨hb, -, -⟩ := hend
    refine ⟨?_, fun rd' h => (by cases h), ?_⟩
    · change [Result.took ⟨p, target, bytes, true⟩].flatten ++ [] = _
      rw [List.append_nil, List.flatten_singleton, Result.took, if_neg fun hc => Bool.noConfusion hc.2, hb]
    · rw [hcount]
      change 0 = List.countP _ [(⟨p, target, bytes, true⟩ : Result P)]
      rw [List.countP_singleton, if_neg]
      exact fun hc => Bool.noConfusion (of_decide_eq_true hc).2

omit [DecidableEq P] in
theorem cut_of_ended {now rest : List Byte} {o : Outcome} {res : Result P} {taken : List (P × Byte)} (p : P)
    (hrd : Pending rd)
    (h : (now = [C 'D'] ∧ rd.got = [] ∧ o = .ret []) ∨
    (C 'D' ∉ now ∧ newline ∉ now.dropLast ∧ Ended rd.target rd.got now rest o))
    (hres : o.result p rd.target = some res) :
    Cut (taken.map (·.2) ++ (now ++ rest)) (taken ++ now.map (p, ·)) res (taken.length + now.length) := by
  have hnext : rest.head? = some (C 'D') → (taken.map (·.2) ++ (now ++ rest))[taken.length + now.length]? =
    some (C 'D') := by
    intro hhead
    rw [List.head?_eq_getElem?] at hhead
    rw [← List.append_assoc, List.getElem?_append_right (by simp), List.length_append, List.length_map,
      Nat.sub_self, hhead]
  rcases h with ⟨rfl, hgot, rfl⟩ | ⟨hD, hnl, hend⟩
  · obtain rfl := Option.some.inj hres
    refine ⟨Nat.zero_le _, List.not_mem_nil, List.not_mem_nil, fun _ => .inr (.inr (.inr ⟨rfl, Nat.succ_pos _, ?_⟩))⟩
    change (taken ++ [(p, C 'D')])[taken.length + 1 - 1]? = _
    rw [Nat.add_sub_cancel, List.getElem?_concat_length]
  -- the bytes of the call: what it had, without newline, and what it took now
  have hbytes : ∀ bytes, bytes = rd.got ++ now → C 'D' ∉ bytes ∧ newline ∉ bytes.dropLast := by
    rintro bytes rfl
    refine ⟨fun hmem => (List.mem_append.mp hmem).elim hrd.no_eof hD, fun hmem => ?_⟩
    cases hnow : now with
    | nil =>
      rw [hnow, List.append_nil] at hmem
      exact hrd.no_newline (List.dropLast_subset _ hmem)
    | cons c l =>
      rw [List.dropLast_append_of_ne_nil (by rw [hnow]; exact List.cons_ne_nil _ _)] at hmem
      exact (List.mem_append.mp hmem).elim hrd.no_newline hnl
  cases o with
  | ret bytes =>
    obtain rfl := Option.some.inj hres
    obtain ⟨hb, hle, hstop⟩ := hend
    obtain ⟨h1, h2⟩ := hbytes bytes hb
    refine ⟨hle, h1, h2, fun _ => ?_⟩
    rcases hstop with hs | hs | ⟨hs, hs'⟩
    · refine .inl ?_
      rw [hb, List.getLast?_append, hs]
      rfl
    · exact .inr (.inl hs)
    · exact .inr (.inr (.inl ⟨hs, hnext hs'⟩))
  | sleep n bytes => cases hres
  | killed bytes =>
    obtain rfl := Option.some.inj hres
    obtain ⟨hb, -, hle⟩ := hend
    obtain ⟨h1, h2⟩ := hbytes bytes hb
    exact ⟨hle, h1, h2, fun hk => Bool.noConfusion hk⟩

theorem Spec.Inv.run (h : q.Inv) (p : P) (killed : Bool) (hrd : Pending rd) (hgot : gotten q.asleep p = rd.got) :
    (q.run p killed rd).Inv := by
  obtain ⟨now, rest, o, htake⟩ : ∃ now rest o, takeLine killed rd.target rd.n rd.got q.unread = (now, rest, o) :=
  ⟨_, _, _, rfl⟩
  obtain ⟨hunread, hcases⟩ := takeLine_spec killed rd.target rd.n rd.got q.unread now rest o htake hrd.length
  have hq : q.run p killed rd = { q with
      unread := rest
      asleep := update q.asleep p (o.reading rd.target)
      taken := q.taken ++ now.map (p, ·)
      returned := q.returned ++ ((o.result p rd.target).map (·, q.taken.length + now.length)).toList } := by
    rw [Spec.run, htake]
  obtain ⟨htook, hpend, hcount⟩ := outcome_spec p hrd rfl hcases
  have hnow : (now.map (p, ·)).map (·.2) = now := by rw [List.map_map]; exact List.map_id now
  have hproc : ∀ res, o.result p rd.target = some res → res.proc = p := by
    intro res hres
    cases o with
    | ret bytes => rw [← Option.some.inj hres]
    | sleep n bytes => cases hres
    | killed bytes => rw [← Option.some.inj hres]
  obtain ⟨new, hnew⟩ : ∃ new, new = ((o.result p rd.target).map (·, q.taken.length + now.length)).toList := ⟨_, rfl⟩
  have hmem : ∀ x ∈ new, o.result p rd.target = some x.1 ∧ x.2 = q.taken.length + now.length := by
    intro x hx
    rw [hnew] at hx
    obtain ⟨res, hres, rfl⟩ := Option.map_eq_some_iff.mp (Option.mem_toList.mp hx)
    exact ⟨hres, rfl⟩
  have hmap : new.map (·.1) = (o.result p rd.target).toList := by
    rw [hnew]
    cases o.result p rd.target with
    | none => rfl
    | some res => rfl
  rw [hq, ← hnew]
  refine ⟨?_, fun p' rd' hp' => ?_, fun p' => ?_, fun x hx => ?_, ?_⟩
  · rw [h.stream, hunread, List.map_append, hnow, List.append_assoc]
  · change update q.asleep p _ p' = some rd' at hp'
    by_cases hpp : p' = p
    · rw [hpp, update_self] at hp'
      exact hpend rd' hp'
    · rw [update_of_ne hpp] at hp'
      exact h.pending p' rd' hp'
  · change ((q.taken ++ now.map (p, ·)).filter (·.1 = p')).map (·.2) =
      (((q.returned ++ new).filter (·.1.proc = p')).map (·.1.took)).flatten ++
      gotten (update q.asleep p (o.reading rd.target)) p'
    rw [List.filter_append, List.map_append, h.own, List.filter_append, List.map_append, List.flatten_append,
      List.append_assoc,
      List.append_assoc]
    congr 1
    by_cases hpp : p' = p
    · -- the calling process
      have h1 : (now.map (p, ·)).filter (·.1 = p') = now.map (p, ·) := List.filter_eq_self.mpr fun x hx => by
        obtain ⟨b, -, rfl⟩ := List.mem_map.mp hx
        exact decide_eq_true hpp.symm
      have h2 : new.filter (·.1.proc = p') = new := List.filter_eq_self.mpr fun x hx =>
        decide_eq_true ((hproc _ (hmem x hx).1).trans hpp.symm)
      have h3 : new.map (·.1.took) = (o.result p rd.target).toList.map Result.took := by rw [← hmap, List.map_map]; rfl
      rw [h1, h2, h3, hnow, hpp, hgot, gotten, update_self, ← htook]
    · have h1 : (now.map (p, ·)).filter (·.1 = p') = [] := List.filter_eq_nil_iff.mpr fun x hx => by
        obtain ⟨b, -, rfl⟩ := List.mem_map.mp hx
        exact fun hc => hpp (of_decide_eq_true hc).symm
      have h2 : new.filter (·.1.proc = p') = [] := List.filter_eq_nil_iff.mpr fun x hx hc =>
        hpp ((of_decide_eq_true hc).symm.trans (hproc _ (hmem x hx).1))
      rw [h1, h2, gotten, gotten, update_of_ne hpp]
      exact List.append_nil _
  · rcases List.mem_append.mp hx with hold | hin
    · have := (h.cut x hold).mono [] (now.map (p, ·))
      rwa [List.append_nil] at this
    · obtain ⟨hres, hk⟩ := hmem x hin
      rw [h.stream, hunread, hk]
      exact cut_of_ended p hrd hcases hres
  · rw [List.map_append, List.count_append, List.countP_append, hnow, hcount, ← hmap, List.countP_map]
    exact congrArg (· + _) h.eof

theorem Spec.Inv.step {q' : Spec P} (h : q.Inv) (e : Event P) (hs : specStep q e = some q') : q'.Inv := by
  cases e with
  | intr c =>
    obtain rfl := Option.some.inj hs
    exact h.intr c
  | read p n killed =>
    rw [specStep] at hs
    split_ifs at hs with hok
    obtain rfl := Option.some.inj hs
    refine h.run p killed ⟨hok.1, Nat.zero_add n, List.not_mem_nil, List.not_mem_nil⟩ ?_
    rw [gotten, Option.isNone_iff_eq_none.mp hok.2]
    rfl
  | resume p killed =>
    obtain ⟨rd, hrd, rfl⟩ := Option.map_eq_some_iff.mp hs
    refine h.run p killed (h.pending p rd hrd) ?_
    rw [gotten, hrd]
    rfl

/-- In every run of interrupts and reads, the ring stands for the specification's two lists after the same
events, and what the reads delivered is what was committed, in order. -/
theorem console_line_discipline {es : List (Event P)} {s : State P} (hrun : Run step any {} es s) :
    ∃ q : Spec P, Run specStep any {} es q ∧ Refines s q ∧ q.Inv ∧
      (s.cons.w - s.cons.r).toNat = q.unread.length ∧ (s.cons.e - s.cons.r).toNat = q.unread.length + q.line.length ∧
      q.unread.length + q.line.length ≤ INPUT_BUF := by
  have hinit : Refines ({} : State P) {} :=
    ⟨⟨⟨0, ⟨rfl, rfl, Nat.zero_le _, fun i hi => absurd hi (Nat.not_lt_zero i)⟩, rfl⟩, List.not_mem_nil⟩, rfl, rfl⟩
  have hspec : ({} : Spec P).Inv :=
    ⟨rfl, fun p rd h => (by cases h), fun p => rfl, fun x hx => absurd hx List.not_mem_nil, rfl⟩
  obtain ⟨q, hq, href, hinv⟩ : ∃ q, Run specStep any {} es q ∧ Refines s q ∧ q.Inv := by
    refine hrun.inv (I := fun es s => ∃ q, Run specStep any {} es q ∧ Refines s q ∧ q.Inv) ⟨{}, .nil, hinit, hspec⟩ ?_
    rintro es t e u - ⟨q, hq, href, hinv⟩ - hstep
    obtain ⟨q', hq', href'⟩ := href.step e hstep
    exact ⟨q', .snoc hq trivial hq', href', hinv.step e hq'⟩
  exact ⟨q, hq, href, hinv, href.rep.ready, href.rep.used, href.rep.bound⟩

/-- A line, a `^D` after some bytes, and three reads: the bytes, then the end of file as a result of its own. -/
def typing : List (Event Unit) :=
  [.read () 10 false, .intr (C 'A'), .intr (C 'A'), .intr 0x7f, .intr newline, .resume () false, .intr (C 'B'),
  .intr (C 'D'), .read () 10 false, .read () 10 false]

theorem console_line_discipline_typing : ∃ s : State Unit, Run step any {} typing s ∧
    s.results.map (·.bytes) = [[C 'A', newline], [C 'B'], []] ∧
    ∃ q : Spec Unit, Run specStep any {} typing q ∧ Refines s q ∧ q.Inv ∧
      (s.cons.w - s.cons.r).toNat = q.unread.length ∧ (s.cons.e - s.cons.r).toNat = q.unread.length + q.line.length ∧
      q.unread.length + q.line.length ≤ INPUT_BUF := by
  obtain ⟨s, hrun, hres⟩ : ∃ s, Run step any ({} : State Unit) typing s ∧
      s.results.map (·.bytes) = [[C 'A', newline], [C 'B'], []] := by decide +kernel
  exact ⟨s, hrun, hres, console_line_discipline hrun⟩

end Xv6.Console

import Mathlib.Algebra.BigOperators.Group.Finset.Basic
import Mathlib.Data.Nat.Prime.Basic
import Mathlib.Logic.Function.Basic
import Mathlib.Tactic.IntervalCases
import Xv6.Lib.Run

/-!
# `primes`

`user/primes.c` is a pipeline of processes. Each stage `find_prime` reads its numbers from the pipe on its left with
one `read`, prints the first, writes those it does not divide to the pipe on its right and forks the next stage. All
stages but the first are forked after their numbers have been written. The first is forked before, and one `read`
returns what is in the pipe at that time: the program prints the primes in the schedules in which `main` has written
all its numbers by then, and not in the others.

The pipes hold whole integers: `pipewrite` holds the lock of the pipe for the four bytes of a number, and the 34
numbers of a pipe do not fill its ring. `fork` and `pipe` succeed.
-/

namespace Xv6.Primes

open Function (update update_of_ne update_self)
open Machine (Run any)

variable {junk : Nat → Nat → Int}

/-! ## The program -/

/-- A pipe between two stages. The field `sent` records all that was ever written to it. -/
structure Pipe where
  data : List Int
  writeOpen : Bool
  sent : List Int
  deriving DecidableEq

def Pipe.fresh : Pipe := ⟨[], true, []⟩

def Pipe.write (p : Pipe) (x : Int) : Pipe := { p with data := p.data ++ [x], sent := p.sent ++ [x] }

def Pipe.close (p : Pipe) : Pipe := { p with writeOpen := false }

/-- A read of at most `n` numbers. It sleeps as long as the pipe is empty and open for writing. -/
def Pipe.read (p : Pipe) (n : Nat) : Option (List Int × Pipe) :=
  if p.data = [] ∧ p.writeOpen = true then none
  else some (p.data.take n, { p with data := p.data.drop n })

/-- Where a process of `find_prime` is. -/
inductive Loc
  | unborn | enter | read | print
  | filter (i : Nat)
  | fork | wait | exited
  deriving DecidableEq

/-- A call of `find_prime(read_end, read_num)` and its local variables. -/
structure Stage where
  readNum : Nat
  num : Nat → Int
  remain : Nat
  loc : Loc

inductive MainLoc
  | write (i : Nat)
  | wait | exited
  deriving DecidableEq

/-- Pipe `k` leads to stage `k`, from `main` or from the stage before. -/
structure State where
  main : MainLoc
  pipe : Nat → Pipe
  stage : Nat → Stage
  out : List Int

def State.setStage (s : State) (k : Nat) (t : Stage) : State := { s with stage := update s.stage k t }

def State.setPipe (s : State) (k : Nat) (p : Pipe) : State := { s with pipe := update s.pipe k p }

/-- Stage `k` moves on to `loc`. -/
def State.goto (s : State) (k : Nat) (loc : Loc) : State := s.setStage k { s.stage k with loc := loc }

/-- What a `read` leaves in the array `num`. -/
def fill (num : Nat → Int) (xs : List Int) : Nat → Int := fun i => xs[i]?.getD (num i)

section

-- what is on the stack of stage `k`, where its array `num` will be
variable (junk : Nat → Nat → Int)

/-- A step of the loop in `main`, the `close` and the `wait` after it. -/
def stepMain (s : State) : Option State :=
  match s.main with
  | .write i =>
    if i ≤ 35 then some { s.setPipe 0 ((s.pipe 0).write i) with main := .write (i + 1) }
    else some { s.setPipe 0 (s.pipe 0).close with main := .wait }
  | .wait => if (s.stage 0).loc = .exited then some { s with main := .exited } else none
  | .exited => none

def stepStage (s : State) (k : Nat) : Option State :=
  let t := s.stage k
  match t.loc with
  | .unborn => none
  | .enter => if t.readNum = 0 then some (s.goto k .exited) else some (s.goto k .read)
  | .read =>
    ((s.pipe k).read t.readNum).map fun (xs, p) =>
      (s.setPipe k p).setStage k { t with num := fill t.num xs, loc := .print }
  | .print => some { s.goto k (.filter 1) with out := s.out ++ [t.num 0] }
  | .filter i =>
    if i < t.readNum then
      if (t.num i).tmod (t.num 0) ≠ 0 then
        some ((s.setPipe (k + 1) ((s.pipe (k + 1)).write (t.num i))).setStage k
          { t with remain := t.remain + 1, loc := .filter (i + 1) })
      else some (s.goto k (.filter (i + 1)))
    else some ((s.setPipe (k + 1) (s.pipe (k + 1)).close).goto k .fork)
  | .fork =>
    some ((s.goto k .wait).setStage (k + 1)
      { readNum := t.remain, num := junk (k + 1), remain := 0, loc := .enter })
  | .wait => if (s.stage (k + 1)).loc = .exited then some (s.goto k .exited) else none
  | .exited => none

/-- `main` takes a step, or a stage. -/
def step (s : State) : Option Nat → Option State
  | none => stepMain s
  | some k => stepStage junk s k

/-- `main` has forked the first stage and has not written anything. -/
def init : State where
  main := .write 2
  pipe := fun _ => .fresh
  stage := fun k => { readNum := 34, num := junk k, remain := 0, loc := if k = 0 then .enter else .unborn }
  out := []

end

/-! ## The numbers of each stage -/

/-- What a stage passes on of the numbers it was given. -/
def next : List Int → List Int
  | [] => []
  | p :: xs => xs.filter fun x => x.tmod p ≠ 0

/-- The numbers that stage `k` is given. -/
def sieve : Nat → List Int
  | 0 => (List.range 34).map fun i : Nat => (i : Int) + 2
  | k + 1 => next (sieve k)

/-- The numbers to be printed. -/
def primes : List Int := ((List.range 36).filter Nat.Prime).map Int.ofNat

theorem primes_eq : primes = [2, 3, 5, 7, 11, 13, 17, 19, 23, 29, 31] := by decide +kernel

theorem sieve_eleven (k : Nat) : sieve (11 + k) = [] := by
  induction k with
  | zero => decide +kernel
  | succ k ih => rw [← Nat.add_assoc, sieve, ih, next]

variable {s u : State} {i k : Nat} {L : List Int} {t : Stage} {l l' r : Pipe}

theorem lt_eleven_of_sieve (h : sieve k ≠ []) : k < 11 := by
  by_contra hk
  obtain ⟨m, rfl⟩ := Nat.exists_eq_add_of_le (not_lt.mp hk)
  exact h (sieve_eleven m)

theorem sieve_head : ∀ k < 11, (sieve k)[0]? = primes[k]? := by decide +kernel

theorem length_sieve_le : ∀ k ≤ 11, (sieve k).length ≤ 34 := by decide +kernel

theorem next_take_succ {p x : Int} (hi : 1 ≤ i) (hp : L[0]? = some p) (hx : L[i]? = some x) :
    next (L.take (i + 1)) = next (L.take i) ++ if x.tmod p ≠ 0 then [x] else [] := by
  cases L with
  | nil => simp at hp
  | cons q L =>
    obtain ⟨j, rfl⟩ := Nat.exists_eq_add_of_le' hi
    obtain rfl : q = p := by simpa using hp
    have hx' : L[j]? = some x := by simpa using hx
    rw [List.take_succ_cons, List.take_succ_cons, next, next, List.take_add_one, hx', Option.toList_some,
      List.filter_append]
    congr 1
    by_cases h : x.tmod q = 0 <;> simp [h]

/-! ## The invariant -/

/-- The numbers `L` were written to the pipe on its left and the stage has them in its array. -/
structure Got (L : List Int) (t : Stage) (left : Pipe) : Prop where
  sent : left.sent = L
  readNum : t.readNum = L.length
  num : ∀ i < L.length, L[i]? = some (t.num i)

/-- A stage that is to be given the numbers `L`, between its two pipes. -/
def Local (L : List Int) (t : Stage) (left right : Pipe) : Prop :=
  match t.loc with
  | .unborn => right = .fresh
  | .enter => t.readNum = L.length ∧ t.remain = 0 ∧ left.data = left.sent ∧ right = .fresh
  | .read => t.readNum = L.length ∧ 0 < L.length ∧ t.remain = 0 ∧ left.data = left.sent ∧ right = .fresh
  | .print => Got L t left ∧ 0 < L.length ∧ t.remain = 0 ∧ right = .fresh
  | .filter i => Got L t left ∧ 1 ≤ i ∧ i ≤ L.length ∧ right.sent = next (L.take i) ∧ right.data = right.sent ∧
      t.remain = right.sent.length
  | .fork => Got L t left ∧ 0 < L.length ∧ right.sent = next L ∧ right.data = right.sent ∧
      t.remain = right.sent.length ∧ right.writeOpen = false
  | .wait => Got L t left ∧ 0 < L.length ∧ right.sent = next L ∧ right.writeOpen = false
  | .exited => Got L t left ∧ right.sent = next L

/-- How far `main` is. -/
def MainAt (s : State) : Prop :=
  match s.main with
  | .write i => 2 ≤ i ∧ i ≤ 36 ∧ (s.pipe 0).sent = (sieve 0).take (i - 2)
  | .wait => (s.pipe 0).sent = sieve 0 ∧ (s.pipe 0).writeOpen = false
  | .exited => (s.pipe 0).sent = sieve 0 ∧ (s.stage 0).loc = .exited

/-- A stage that is running: it is neither waiting nor at its end. -/
def Loc.Active (loc : Loc) : Prop := loc ≠ .unborn ∧ loc ≠ .wait ∧ loc ≠ .exited

/-- How many numbers have been printed when stage `k` is running at `loc`. -/
def printedAt (k : Nat) : Loc → Nat
  | .filter _ | .fork => k + 1
  | .unborn | .enter | .read | .print | .wait | .exited => k

/-- Stage `k` is the one that is running. -/
structure Running (s : State) (k : Nat) : Prop where
  bound : k ≤ 11
  active : (s.stage k).loc.Active
  before : ∀ j < k, (s.stage j).loc = .wait
  after : ∀ j, k < j → (s.stage j).loc = .unborn
  out : s.out = primes.take (printedAt k (s.stage k).loc)

/-- The stages from `k` on have exited. -/
structure Finishing (s : State) (k : Nat) : Prop where
  bound : k ≤ 11
  before : ∀ j < k, (s.stage j).loc = .wait
  exited : ∀ j, k ≤ j → j ≤ 11 → (s.stage j).loc = .exited
  after : ∀ j, 11 < j → (s.stage j).loc = .unborn
  out : s.out = primes

structure Inv (s : State) : Prop where
  main : MainAt s
  local_ : ∀ k, Local (sieve k) (s.stage k) (s.pipe k) (s.pipe (k + 1))
  phase : ∃ k, Running s k ∨ Finishing s k

theorem inv_init (junk : Nat → Nat → Int) : Inv (init junk) where
  main := by simp [MainAt, init, Pipe.fresh]
  local_ k := by
    by_cases hk : k = 0
    · subst hk
      exact ⟨by simp [init, sieve], rfl, rfl, rfl⟩
    · simp [Local, init, hk]
  phase := by
    refine ⟨0, .inl ⟨by decide, by simp [Loc.Active, init], by simp, ?_, by simp [init, printedAt]⟩⟩
    intro j hj
    simp [init, hj.ne']

theorem Inv.running (h : Inv s) (hk : (s.stage k).loc.Active) : Running s k := by
  obtain ⟨hborn, hwait, hexit⟩ := hk
  obtain ⟨m, hrun | hfin⟩ := h.phase
  · rcases lt_trichotomy k m with hlt | rfl | hgt
    · exact absurd (hrun.before k hlt) hwait
    · exact hrun
    · exact absurd (hrun.after k hgt) hborn
  · rcases lt_or_ge k m with hlt | hge
    · exact absurd (hfin.before k hlt) hwait
    · rcases le_or_gt k 11 with h11 | h11
      · exact absurd (hfin.exited k hge h11) hexit
      · exact absurd (hfin.after k h11) hborn

theorem Inv.finishing (h : Inv s) (hk : (s.stage k).loc = .exited) : ∃ m ≤ k, Finishing s m := by
  obtain ⟨m, hrun | hfin⟩ := h.phase
  · exfalso
    rcases lt_trichotomy k m with hlt | rfl | hgt
    · simp [hrun.before k hlt] at hk
    · exact hrun.active.2.2 hk
    · simp [hrun.after k hgt] at hk
  · refine ⟨m, ?_, hfin⟩
    by_contra hkm
    simp [hfin.before k (not_le.mp hkm)] at hk

theorem Local.of_wait {r' : Pipe} (h : Local L t l r) (ht : t.loc = .wait)
    (hl : l'.sent = l.sent) (hs : r'.sent = r.sent) (hw : r'.writeOpen = r.writeOpen) : Local L t l' r' := by
  simp only [Local, ht] at h ⊢
  rw [hs, hw]
  exact ⟨⟨hl.trans h.1.sent, h.1.readNum, h.1.num⟩, h.2⟩

theorem Local.of_unborn (h : Local L t l r) (ht : t.loc = .unborn) : Local L t l' r := by
  simpa only [Local, ht] using h

theorem MainAt.of_sent (h : MainAt s) (hmain : u.main = s.main)
    (hs : (u.pipe 0).sent = (s.pipe 0).sent) (hw : (u.pipe 0).writeOpen = (s.pipe 0).writeOpen)
    (hexit : (s.stage 0).loc = .exited → (u.stage 0).loc = .exited) : MainAt u := by
  unfold MainAt at h ⊢
  rw [hmain, hs, hw]
  cases hm : s.main with
  | write i => simpa only [hm] using h
  | wait => simpa only [hm] using h
  | exited =>
    simp only [hm] at h ⊢
    exact ⟨h.1, hexit h.2⟩

theorem Inv.move (h : Inv s) (hk : (s.stage k).loc.Active) (hk' : (u.stage k).loc.Active) (hmain : u.main = s.main)
    (hstage : ∀ j, j ≠ k → u.stage j = s.stage j) (hpipe : ∀ j, j ≠ k → j ≠ k + 1 → u.pipe j = s.pipe j)
    (hsent : (u.pipe k).sent = (s.pipe k).sent) (hopen : (u.pipe k).writeOpen = (s.pipe k).writeOpen)
    (hlocal : Local (sieve k) (u.stage k) (u.pipe k) (u.pipe (k + 1)))
    (hout : u.out = primes.take (printedAt k (u.stage k).loc)) : Inv u := by
  have hrun := h.running hk
  have hsame : ∀ j ≤ k, (u.pipe j).sent = (s.pipe j).sent ∧ (u.pipe j).writeOpen = (s.pipe j).writeOpen := by
    intro j hj
    rcases eq_or_lt_of_le hj with rfl | hlt
    · exact ⟨hsent, hopen⟩
    · rw [hpipe j hlt.ne (by omega)]
      exact ⟨rfl, rfl⟩
  refine ⟨?_, ?_, k, .inl ⟨hrun.bound, hk', ?_, ?_, hout⟩⟩
  · refine h.main.of_sent hmain (hsame 0 k.zero_le).1 (hsame 0 k.zero_le).2 fun h0 => ?_
    rcases Nat.eq_zero_or_pos k with rfl | hpos
    · exact absurd h0 hk.2.2
    · rwa [hstage 0 hpos.ne]
  · intro j
    rcases lt_trichotomy j k with hj | rfl | hj
    · rw [hstage j hj.ne]
      exact (h.local_ j).of_wait (hrun.before j hj) (hsame j hj.le).1 (hsame _ hj).1 (hsame _ hj).2
    · exact hlocal
    · rw [hstage j hj.ne', hpipe (j + 1) (by omega) (by omega)]
      exact (h.local_ j).of_unborn (hrun.after j hj)
  · intro j hj
    rw [hstage j hj.ne, hrun.before j hj]
  · intro j hj
    rw [hstage j hj.ne', hrun.after j hj]

theorem Inv.fork (h : Inv s) (hk : (s.stage k).loc = .fork) (num : Nat → Int) :
    Inv ((s.goto k .wait).setStage (k + 1)
      { readNum := (s.stage k).remain, num := num, remain := 0, loc := .enter }) := by
  have hrun : Running s k := h.running (by simp [Loc.Active, hk])
  have hloc := h.local_ k
  simp only [Local, hk] at hloc
  obtain ⟨hgot, hpos, hsent, hdata, hremain, hopen⟩ := hloc
  have hk11 : k < 11 := lt_eleven_of_sieve (List.length_pos_iff.mp hpos)
  refine ⟨?_, ?_, k + 1, .inl ⟨hk11, ?_, ?_, ?_, ?_⟩⟩
  · refine h.main.of_sent rfl rfl rfl fun h0 => ?_
    rcases Nat.eq_zero_or_pos k with rfl | hpos
    · simp [hk] at h0
    · simp [hrun.before 0 hpos] at h0
  · intro j
    rcases lt_trichotomy j (k + 1) with hj | rfl | hj
    · rcases eq_or_lt_of_le (Nat.le_of_lt_succ hj) with rfl | hlt
      · simp only [State.setStage, State.goto, update_of_ne hj.ne, update_self, Local]
        exact ⟨⟨hgot.sent, hgot.readNum, hgot.num⟩, hpos, hsent, hopen⟩
      · simp only [State.setStage, State.goto, update_of_ne hj.ne, update_of_ne hlt.ne]
        exact h.local_ j
    · have hnext := h.local_ (k + 1)
      rw [Local, hrun.after (k + 1) (by omega)] at hnext
      simp only [State.setStage, State.goto, update_self, Local]
      exact ⟨by rw [hremain, hsent, sieve], trivial, hdata, hnext⟩
    · simp only [State.setStage, State.goto, update_of_ne hj.ne', update_of_ne (show j ≠ k by omega)]
      exact h.local_ j
  · simp [Loc.Active, State.setStage]
  · intro j hj
    rcases eq_or_lt_of_le (Nat.le_of_lt_succ hj) with rfl | hlt
    · simp [State.setStage, State.goto]
    · simp [State.setStage, State.goto, hj.ne, hlt.ne, hrun.before j hlt]
  · intro j hj
    simp [State.setStage, State.goto, hj.ne', show j ≠ k by omega, hrun.after j (by omega)]
  · have := hrun.out
    rw [hk] at this
    simpa [State.setStage, State.goto, printedAt] using this

theorem Inv.exit (h : Inv s) (hk : k ≤ 11) (hbefore : ∀ j < k, (s.stage j).loc = .wait)
    (hexited : ∀ j, k < j → j ≤ 11 → (s.stage j).loc = .exited) (hafter : ∀ j, 11 < j → (s.stage j).loc = .unborn)
    (hout : s.out = primes) (hgot : Got (sieve k) (s.stage k) (s.pipe k))
    (hsent : (s.pipe (k + 1)).sent = next (sieve k)) : Inv (s.goto k .exited) := by
  refine ⟨?_, ?_, k, .inr ⟨hk, ?_, ?_, ?_, hout⟩⟩
  · refine h.main.of_sent rfl rfl rfl fun h0 => ?_
    rcases Nat.eq_zero_or_pos k with rfl | hpos
    · simp [State.goto, State.setStage]
    · simpa [State.goto, State.setStage, hpos.ne] using h0
  · intro j
    by_cases hj : j = k
    · subst hj
      simp only [State.setStage, State.goto, update_self, Local]
      exact ⟨⟨hgot.sent, hgot.readNum, hgot.num⟩, hsent⟩
    · simp only [State.setStage, State.goto, update_of_ne hj]
      exact h.local_ j
  · intro j hj
    simp [State.goto, State.setStage, hj.ne, hbefore j hj]
  · intro j hkj hj
    by_cases hjk : j = k
    · simp [State.goto, State.setStage, hjk]
    · simp [State.goto, State.setStage, hjk, hexited j (by omega) hj]
  · intro j hj
    simp [State.goto, State.setStage, show j ≠ k by omega, hafter j hj]

/-! ## Steps -/

/-- `main` has written all its numbers by the time the first stage reads. -/
def WrittenFirst (s : State) (e : Option Nat) : Prop :=
  e = some 0 → (s.stage 0).loc = .read → (s.pipe 0).sent.length = 34

instance (s : State) (e : Option Nat) : Decidable (WrittenFirst s e) :=
  inferInstanceAs (Decidable (_ → _ → _))

theorem Got.of_left (h : Got L t l) (hsent : l.sent = L → l'.sent = L) : Got L t l' :=
  ⟨hsent h.sent, h.readNum, h.num⟩

theorem Local.of_left (h : Local L t l r)
    (hdata : l.data = l.sent → l'.data = l'.sent) (hsent : l.sent = L → l'.sent = L) : Local L t l' r := by
  cases hloc : t.loc with
  | unborn => exact h.of_unborn hloc
  | enter =>
    simp only [Local, hloc] at h ⊢
    exact ⟨h.1, h.2.1, hdata h.2.2.1, h.2.2.2⟩
  | read =>
    simp only [Local, hloc] at h ⊢
    exact ⟨h.1, h.2.1, h.2.2.1, hdata h.2.2.2.1, h.2.2.2.2⟩
  | print | filter | fork | wait | exited =>
    simp only [Local, hloc] at h ⊢
    exact ⟨h.1.of_left hsent, h.2⟩

theorem length_sieve_zero : (sieve 0).length = 34 := by simp [sieve]

theorem sieve_zero_get (h2 : 2 ≤ i) (hi : i ≤ 35) : (sieve 0)[i - 2]? = some (i : Int) := by
  have hlt : i - 2 < 34 := by omega
  rw [sieve, List.getElem?_map, List.getElem?_range hlt, Option.map_some]
  congr 1
  omega

theorem Inv.of_main (h : Inv s) (hmain : MainAt u) (hstage : u.stage = s.stage) (hout : u.out = s.out)
    (hpipe : ∀ j, j ≠ 0 → u.pipe j = s.pipe j)
    (hdata : (s.pipe 0).data = (s.pipe 0).sent → (u.pipe 0).data = (u.pipe 0).sent)
    (hsent : (s.pipe 0).sent = sieve 0 → (u.pipe 0).sent = sieve 0) : Inv u := by
  refine ⟨hmain, ?_, ?_⟩
  · intro k
    rw [hstage, hpipe (k + 1) k.succ_ne_zero]
    cases k with
    | zero => exact (h.local_ 0).of_left hdata hsent
    | succ k =>
      rw [hpipe (k + 1) k.succ_ne_zero]
      exact h.local_ (k + 1)
  · obtain ⟨k, hrun | hfin⟩ := h.phase
    · exact ⟨k, .inl ⟨hrun.bound, by rw [hstage]; exact hrun.active, by rw [hstage]; exact hrun.before,
        by rw [hstage]; exact hrun.after, by rw [hstage, hout]; exact hrun.out⟩⟩
    · exact ⟨k, .inr ⟨hfin.bound, by rw [hstage]; exact hfin.before, by rw [hstage]; exact hfin.exited,
        by rw [hstage]; exact hfin.after, by rw [hout]; exact hfin.out⟩⟩

theorem inv_main (h : Inv s) (hs : stepMain s = some u) : Inv u := by
  have hm := h.main
  revert hs
  fun_cases stepMain s with
  | case1 i hmain hi =>
    rintro ⟨⟩
    simp only [MainAt, hmain] at hm
    refine h.of_main ⟨by omega, by omega, ?_⟩ rfl rfl ?_ ?_ ?_
    · have hi' : i + 1 - 2 = i - 2 + 1 := by omega
      simp [State.setPipe, Pipe.write, hm.2.2, hi', List.take_add_one, sieve_zero_get hm.1 hi]
    · intro j hj
      simp [State.setPipe, hj]
    · simp [State.setPipe, Pipe.write]
    · intro hall
      have hlen := congrArg List.length (hm.2.2.symm.trans hall)
      rw [List.length_take, length_sieve_zero] at hlen
      omega
  | case2 i hmain hi =>
    rintro ⟨⟩
    simp only [MainAt, hmain] at hm
    obtain rfl : i = 36 := by omega
    refine h.of_main ⟨?_, ?_⟩ rfl rfl ?_ ?_ ?_
    · simp only [State.setPipe, update_self, Pipe.close, hm.2.2]
      rfl
    · simp [State.setPipe, Pipe.close]
    · intro j hj
      simp [State.setPipe, hj]
    · simp [State.setPipe, Pipe.close]
    · simp [State.setPipe, Pipe.close]
  | case3 hmain hexit =>
    rintro ⟨⟩
    simp only [MainAt, hmain] at hm
    exact h.of_main ⟨hm.1, hexit⟩ rfl rfl (fun _ _ => rfl) id id
  | case4 => simp
  | case5 => simp

theorem Inv.input (h : Inv s) (hok : WrittenFirst s (some k)) (hk : (s.stage k).loc = .read) :
    (s.pipe k).data = sieve k := by
  have hloc := h.local_ k
  simp only [Local, hk] at hloc
  rw [hloc.2.2.2.1]
  cases k with
  | zero =>
    have hlen := hok rfl hk
    have hm := h.main
    unfold MainAt at hm
    cases hmain : s.main with
    | write i =>
      simp only [hmain] at hm
      have : i - 2 = 34 := by
        rw [hm.2.2, List.length_take, length_sieve_zero] at hlen
        omega
      rw [hm.2.2, this]
      rfl
    | wait => simp only [hmain] at hm; exact hm.1
    | exited => simp only [hmain] at hm; exact hm.1
  | succ k =>
    have hrun : Running s (k + 1) := h.running (by simp [Loc.Active, hk])
    have hprev := h.local_ k
    rw [Local, hrun.before k k.lt_succ_self] at hprev
    exact hprev.2.2.1

theorem got_fill {left : Pipe} (hsent : left.sent = L) (hread : t.readNum = L.length) :
    Got L { t with num := fill t.num (L.take t.readNum), loc := .print } left := by
  refine ⟨hsent, hread, ?_⟩
  intro i hi
  rw [hread, List.take_length]
  simp [fill, List.getElem?_eq_getElem hi]

theorem Got.of_loc {left : Pipe} (h : Got L t left) (remain : Nat) (loc : Loc) :
    Got L { t with remain := remain, loc := loc } left :=
  ⟨h.sent, h.readNum, h.num⟩

theorem Inv.goto (h : Inv s) {loc : Loc} {out : List Int} (hk : (s.stage k).loc.Active)
    (hloc : loc.Active) (hlocal : Local (sieve k) { s.stage k with loc := loc } (s.pipe k) (s.pipe (k + 1)))
    (hout : out = primes.take (printedAt k loc)) : Inv { s.goto k loc with out := out } := by
  apply h.move hk
  · simpa [State.goto, State.setStage] using hloc
  · rfl
  · intro j hj
    simp [State.goto, State.setStage, hj]
  · intro j _ _
    rfl
  · rfl
  · rfl
  · simpa [State.goto, State.setStage] using hlocal
  · simpa [State.goto, State.setStage] using hout

theorem inv_read {xs : List Int} {p : Pipe} (h : Inv s) (hok : WrittenFirst s (some k))
    (hk : (s.stage k).loc = .read) (hread : (s.pipe k).read (s.stage k).readNum = some (xs, p)) :
    Inv ((s.setPipe k p).setStage k { s.stage k with num := fill (s.stage k).num xs, loc := .print }) := by
  have hact : (s.stage k).loc.Active := by simp [Loc.Active, hk]
  have hin := h.input hok hk
  have hout := (h.running hact).out
  have hloc := h.local_ k
  simp only [Local, hk] at hloc
  obtain ⟨hnum, hpos, hremain, hdata, hright⟩ := hloc
  unfold Pipe.read at hread
  split_ifs at hread
  cases hread
  have hne : k + 1 ≠ k := k.succ_ne_self
  refine h.move hact ?_ rfl ?_ ?_ ?_ ?_ ?_ ?_
  · simp [Loc.Active, State.setStage]
  · intro j hj
    simp [State.setStage, State.setPipe, hj]
  · intro j hj _
    simp [State.setStage, State.setPipe, hj]
  · simp [State.setStage, State.setPipe]
  · simp [State.setStage, State.setPipe]
  · simp only [Local, State.setStage, State.setPipe, update_self, update_of_ne hne, hin]
    exact ⟨got_fill (hdata.symm.trans hin) hnum, hpos, hremain, hright⟩
  · rw [hk] at hout
    simpa [State.setStage, State.setPipe, printedAt] using hout

theorem inv_print (h : Inv s) (hk : (s.stage k).loc = .print) :
    Inv { s.goto k (.filter 1) with out := s.out ++ [(s.stage k).num 0] } := by
  have hact : (s.stage k).loc.Active := by simp [Loc.Active, hk]
  have hout := (h.running hact).out
  have hloc := h.local_ k
  simp only [Local, hk] at hloc
  obtain ⟨hgot, hpos, hremain, hright⟩ := hloc
  refine h.goto hact (by simp [Loc.Active]) ⟨hgot.of_loc _ _, le_rfl, hpos, ?_, ?_, ?_⟩ ?_
  · have htake : next ((sieve k).take 1) = [] := by cases sieve k <;> rfl
    rw [hright, htake, Pipe.fresh]
  · rw [hright, Pipe.fresh]
  · rw [hright]
    exact hremain
  · have hk11 : k < 11 := lt_eleven_of_sieve (List.length_pos_iff.mp hpos)
    have hhead := sieve_head k hk11
    rw [hgot.num 0 hpos] at hhead
    rw [hout, hk, printedAt, printedAt, List.take_add_one, ← hhead, Option.toList_some]

theorem inv_filter (h : Inv s) (hk : (s.stage k).loc = .filter i) (hi : i < (s.stage k).readNum) :
    Inv (if ((s.stage k).num i).tmod ((s.stage k).num 0) ≠ 0 then
      (s.setPipe (k + 1) ((s.pipe (k + 1)).write ((s.stage k).num i))).setStage k
          { s.stage k with remain := (s.stage k).remain + 1, loc := .filter (i + 1) }
      else s.goto k (.filter (i + 1))) := by
  have hact : (s.stage k).loc.Active := by simp [Loc.Active, hk]
  have hout := (h.running hact).out
  have hloc := h.local_ k
  simp only [Local, hk] at hloc
  obtain ⟨hgot, h1, hle, hsent, hdata, hremain⟩ := hloc
  rw [hgot.readNum] at hi
  have hnext := next_take_succ h1 (hgot.num 0 (by omega)) (hgot.num i hi)
  rw [hk] at hout
  split_ifs with hdiv
  · rw [if_pos hdiv] at hnext
    refine h.move hact ?_ rfl ?_ ?_ ?_ ?_ ?_ ?_
    · simp [Loc.Active, State.setStage]
    · intro j hj
      simp [State.setStage, State.setPipe, hj]
    · intro j _ hj
      simp [State.setStage, State.setPipe, hj]
    · simp [State.setStage, State.setPipe]
    · simp [State.setStage, State.setPipe]
    · simp only [Local, State.setStage, State.setPipe, update_self,
        update_of_ne k.succ_ne_self.symm, Pipe.write]
      exact ⟨hgot.of_loc _ _, by omega, hi, by rw [hsent, hnext], by rw [hdata], by rw [hremain]; simp⟩
    · simpa [State.setStage, State.setPipe, printedAt] using hout
  · rw [if_neg hdiv, List.append_nil] at hnext
    exact h.goto hact (by simp [Loc.Active])
      ⟨hgot.of_loc _ _, by omega, hi, by rw [hsent, hnext], hdata, hremain⟩ hout

theorem inv_close (h : Inv s) (hk : (s.stage k).loc = .filter i) (hi : ¬ i < (s.stage k).readNum) :
    Inv ((s.setPipe (k + 1) (s.pipe (k + 1)).close).goto k .fork) := by
  have hact : (s.stage k).loc.Active := by simp [Loc.Active, hk]
  have hout := (h.running hact).out
  have hloc := h.local_ k
  simp only [Local, hk] at hloc
  obtain ⟨hgot, h1, hle, hsent, hdata, hremain⟩ := hloc
  rw [hgot.readNum] at hi
  have hpos : 0 < (sieve k).length := by omega
  rw [List.take_of_length_le (not_lt.mp hi)] at hsent
  rw [hk] at hout
  refine h.move hact ?_ rfl ?_ ?_ ?_ ?_ ?_ ?_
  · simp [Loc.Active, State.goto, State.setStage]
  · intro j hj
    simp [State.goto, State.setStage, State.setPipe, hj]
  · intro j _ hj
    simp [State.goto, State.setStage, State.setPipe, hj]
  · simp [State.goto, State.setStage, State.setPipe]
  · simp [State.goto, State.setStage, State.setPipe]
  · simp only [Local, State.goto, State.setStage, State.setPipe, update_self,
      update_of_ne k.succ_ne_self.symm, Pipe.close]
    exact ⟨hgot.of_loc _ _, hpos, hsent, hdata, hremain, trivial⟩
  · simpa [State.goto, State.setStage, State.setPipe, printedAt] using hout

theorem inv_enter_exit (h : Inv s) (hk : (s.stage k).loc = .enter) (h0 : (s.stage k).readNum = 0) :
    Inv (s.goto k .exited) := by
  have hrun : Running s k := h.running (by simp [Loc.Active, hk])
  have hloc := h.local_ k
  simp only [Local, hk] at hloc
  obtain ⟨hnum, -, -, hright⟩ := hloc
  have hnil : sieve k = [] := List.eq_nil_of_length_eq_zero (hnum.symm.trans h0)
  -- the stages before have numbers, so this is the stage after the last prime
  obtain rfl : k = 11 := by
    by_contra hne
    have hlt : k < 11 := lt_of_le_of_ne hrun.bound hne
    have := sieve_head k hlt
    rw [hnil, primes_eq] at this
    interval_cases k <;> simp at this
  have hprev := h.local_ 10
  rw [Local, hrun.before 10 (by decide)] at hprev
  refine h.exit le_rfl hrun.before (fun j hj hj' => by omega) hrun.after ?_ ⟨hprev.2.2.1, hnum, ?_⟩ ?_
  · rw [hrun.out, hk, printedAt]
    exact List.take_of_length_le (by rw [primes_eq]; decide)
  · intro i hi
    simp [hnil] at hi
  · rw [hright, hnil]
    rfl

theorem inv_wait_exit (h : Inv s) (hk : (s.stage k).loc = .wait) (hnext : (s.stage (k + 1)).loc = .exited) :
    Inv (s.goto k .exited) := by
  obtain ⟨m, hm, hfin⟩ := h.finishing hnext
  have hloc := h.local_ k
  simp only [Local, hk] at hloc
  obtain ⟨hgot, hpos, hsent, -⟩ := hloc
  have hk11 : k < 11 := lt_eleven_of_sieve (List.length_pos_iff.mp hpos)
  have hkm : m = k + 1 := by
    by_contra hne
    have := hfin.exited k (by omega) (by omega)
    simp [hk] at this
  subst hkm
  exact h.exit hk11.le (fun j hj => hfin.before j (by omega)) (fun j hj => hfin.exited j hj) hfin.after hfin.out
    hgot hsent

theorem inv_stage (h : Inv s) (hok : WrittenFirst s (some k)) (hs : stepStage junk s k = some u) : Inv u := by
  unfold stepStage at hs
  cases hk : (s.stage k).loc with
  | unborn => simp [hk] at hs
  | exited => simp [hk] at hs
  | enter =>
    simp only [hk] at hs
    split_ifs at hs with h0
    · cases hs
      exact inv_enter_exit h hk h0
    · cases hs
      have hact : (s.stage k).loc.Active := by simp [Loc.Active, hk]
      have hout := (h.running hact).out
      have hloc := h.local_ k
      simp only [Local, hk] at hloc
      rw [hk] at hout
      exact h.goto hact (by simp [Loc.Active])
        ⟨hloc.1, hloc.1 ▸ Nat.pos_of_ne_zero h0, hloc.2⟩ hout
  | read =>
    simp only [hk] at hs
    obtain ⟨⟨xs, p⟩, hread, rfl⟩ := Option.map_eq_some_iff.mp hs
    exact inv_read h hok hk hread
  | print =>
    simp only [hk] at hs
    cases hs
    exact inv_print h hk
  | filter i =>
    simp only [hk] at hs
    by_cases hi : i < (s.stage k).readNum
    · have := inv_filter h hk hi
      split_ifs at hs this <;> cases hs <;> exact this
    · rw [if_neg hi] at hs
      cases hs
      exact inv_close h hk hi
  | fork =>
    simp only [hk] at hs
    cases hs
    exact h.fork hk _
  | wait =>
    simp only [hk] at hs
    split_ifs at hs with hexit
    cases hs
    exact inv_wait_exit h hk hexit

theorem inv_run {es : List (Option Nat)} (h : Run (step junk) WrittenFirst (init junk) es s) : Inv s := by
  induction h with
  | nil => exact inv_init junk
  | @snoc es t u e _ hok hs ih =>
    cases e with
    | none => exact inv_main ih hs
    | some k => exact inv_stage ih hok hs

/-! ## Progress -/

theorem Inv.stage_enabled (h : Inv s) (junk : Nat → Nat → Int) (hk : (s.stage k).loc.Active)
    (hok : WrittenFirst s (some k)) : ∃ u, stepStage junk s k = some u := by
  unfold stepStage
  cases hloc : (s.stage k).loc with
  | unborn => exact absurd hloc hk.1
  | wait => exact absurd hloc hk.2.1
  | exited => exact absurd hloc hk.2.2
  | enter => simp only [hloc, ← apply_ite some, Option.some.injEq, exists_eq']
  | read =>
    have hin := h.input hok hloc
    have hl := h.local_ k
    simp only [Local, hloc] at hl
    have hne : (s.pipe k).data ≠ [] := by
      rw [hin]
      exact List.length_pos_iff.mp hl.2.1
    simp [hloc, Pipe.read, hne]
  | print => simp [hloc]
  | filter i => simp only [hloc, ← apply_ite some, Option.some.injEq, exists_eq']
  | fork => simp [hloc]

theorem Inv.progress (h : Inv s) (junk : Nat → Nat → Int) (hmain : s.main ≠ .exited) :
    ∃ e u, WrittenFirst s e ∧ step junk s e = some u := by
  have hm := h.main
  unfold MainAt at hm
  cases hw : s.main with
  | exited => exact absurd hw hmain
  | write i =>
    refine ⟨none, ?_⟩
    simp only [step, stepMain, hw, ← apply_ite some, Option.some.injEq]
    exact ⟨_, by simp [WrittenFirst], rfl⟩
  | wait =>
    simp only [hw] at hm
    have hok : ∀ e, WrittenFirst s e := fun e _ _ => by rw [hm.1, length_sieve_zero]
    obtain ⟨k, hrun | hfin⟩ := h.phase
    · obtain ⟨u, hu⟩ := h.stage_enabled junk hrun.active (hok _)
      exact ⟨some k, u, hok _, hu⟩
    · cases k with
      | zero =>
        refine ⟨none, { s with main := .exited }, hok _, ?_⟩
        simp [step, stepMain, hw, hfin.exited 0 le_rfl (by decide)]
      | succ k =>
        refine ⟨some k, s.goto k .exited, hok _, ?_⟩
        simp [step, stepStage, hfin.before k k.lt_succ_self, hfin.exited (k + 1) le_rfl hfin.bound]

/-- A bound on the steps that a stage has to take. -/
def Loc.work : Loc → Nat
  | .unborn => 42
  | .enter => 41
  | .read => 40
  | .print => 39
  | .filter i => 38 - i
  | .fork => 3
  | .wait => 2
  | .exited => 1

def MainLoc.work : MainLoc → Nat
  | .write i => 38 - i
  | .wait => 1
  | .exited => 0

def State.work (s : State) : Nat := s.main.work + ∑ k ∈ Finset.range 12, (s.stage k).loc.work

theorem work_setStage (s : State) (hk : k ≤ 11) (t : Stage) :
    (s.setStage k t).work + (s.stage k).loc.work = s.work + t.loc.work := by
  have hmem : k ∈ Finset.range 12 := Finset.mem_range.mpr (by omega)
  have hrest : ∑ j ∈ (Finset.range 12).erase k, ((s.setStage k t).stage j).loc.work =
      ∑ j ∈ (Finset.range 12).erase k, (s.stage j).loc.work := by
    refine Finset.sum_congr rfl fun j hj => ?_
    simp [State.setStage, Finset.ne_of_mem_erase hj]
  have hself : ((s.setStage k t).stage k).loc.work = t.loc.work := by simp [State.setStage]
  unfold State.work
  rw [← Finset.add_sum_erase _ _ hmem, ← Finset.add_sum_erase (Finset.range 12) (fun j => (s.stage j).loc.work) hmem,
    hrest, hself]
  simp only [State.setStage]
  omega

theorem work_goto_lt (s : State) (hk : k ≤ 11) (h : t.loc.work < (s.stage k).loc.work) :
    (s.setStage k t).work < s.work := by
  have := work_setStage s hk t
  omega

theorem work_main_lt (h : Inv s) (hs : stepMain s = some u) : u.work < s.work := by
  have hm := h.main
  revert hs
  fun_cases stepMain s with
  | case1 i hmain hi =>
    rintro ⟨⟩
    simp only [State.work, MainLoc.work, State.setPipe, hmain]
    omega
  | case2 i hmain hi =>
    rintro ⟨⟩
    simp only [MainAt, hmain] at hm
    simp only [State.work, MainLoc.work, State.setPipe, hmain]
    omega
  | case3 hmain hexit =>
    rintro ⟨⟩
    simp only [State.work, MainLoc.work, hmain]
    omega
  | case4 => simp
  | case5 => simp

theorem Inv.le_eleven (h : Inv s) (hk : (s.stage k).loc ≠ .unborn) : k ≤ 11 := by
  obtain ⟨m, hrun | hfin⟩ := h.phase
  · by_contra hgt
    exact hk (hrun.after k (by have := hrun.bound; omega))
  · by_contra hgt
    exact hk (hfin.after k (by omega))

theorem work_stage_lt (h : Inv s) (hs : stepStage junk s k = some u) : u.work < s.work := by
  have hl := h.local_ k
  unfold stepStage at hs
  by_cases hborn : (s.stage k).loc = .unborn
  · simp [hborn] at hs
  have hk11 := h.le_eleven hborn
  have hlen := length_sieve_le k hk11
  cases hloc : (s.stage k).loc with
  | unborn => exact absurd hloc hborn
  | exited => simp [hloc] at hs
  | enter =>
    simp only [hloc] at hs
    split_ifs at hs <;> cases hs <;> exact work_goto_lt s hk11 (by simp [hloc, Loc.work])
  | read =>
    simp only [hloc] at hs
    obtain ⟨⟨xs, p⟩, -, rfl⟩ := Option.map_eq_some_iff.mp hs
    exact work_goto_lt (s.setPipe k p) hk11 (by simp [hloc, Loc.work, State.setPipe])
  | print =>
    simp only [hloc] at hs
    cases hs
    exact work_goto_lt s hk11 (by simp [hloc, Loc.work])
  | filter i =>
    simp only [hloc] at hs
    simp only [Local, hloc] at hl
    split_ifs at hs <;> cases hs
    · exact work_goto_lt (s.setPipe (k + 1) _) hk11 (by simp only [State.setPipe, hloc, Loc.work]; omega)
    · exact work_goto_lt s hk11 (by simp only [hloc, Loc.work]; omega)
    · exact work_goto_lt (s.setPipe (k + 1) _) hk11 (by simp only [State.setPipe, hloc, Loc.work]; omega)
  | fork =>
    simp only [hloc] at hs
    cases hs
    simp only [Local, hloc] at hl
    have hk : k < 11 := lt_eleven_of_sieve (List.length_pos_iff.mp hl.2.1)
    have hrun : Running s k := h.running (by simp [Loc.Active, hloc])
    have h1 : (s.goto k .wait).work < s.work := work_goto_lt s hk11 (by simp [hloc, Loc.work])
    refine lt_trans (work_goto_lt _ (by omega) ?_) h1
    simp [State.goto, State.setStage, hrun.after (k + 1) (by omega), Loc.work]
  | wait =>
    simp only [hloc] at hs
    split_ifs at hs
    cases hs
    exact work_goto_lt s hk11 (by simp [hloc, Loc.work])

theorem work_run {es : List (Option Nat)} (h : Run (step junk) WrittenFirst (init junk) es s) :
    es.length + s.work ≤ (init junk).work := by
  induction h with
  | nil => simp
  | @snoc es t u e hrun hok hs ih =>
    have hlt : u.work < t.work := by
      cases e with
      | none => exact work_main_lt (inv_run hrun) hs
      | some k => exact work_stage_lt (inv_run hrun) hs
    simp only [List.length_append, List.length_singleton]
    omega

/-! ## The pipeline -/

/-- The stage has read its numbers, or had none to read. -/
def Loc.hasRead : Loc → Bool
  | .print | .filter _ | .fork | .wait | .exited => true
  | .unborn | .enter | .read => false

theorem Inv.got (h : Inv s) (hk : (s.stage k).loc.hasRead = true) : Got (sieve k) (s.stage k) (s.pipe k) := by
  have hl := h.local_ k
  cases hloc : (s.stage k).loc with
  | unborn | enter | read => simp [hloc, Loc.hasRead] at hk
  | print | filter | fork | wait | exited =>
    simp only [Local, hloc] at hl
    exact hl.1

theorem Inv.out_prefix (h : Inv s) : s.out <+: primes := by
  obtain ⟨k, hrun | hfin⟩ := h.phase
  · rw [hrun.out]
    exact List.take_prefix _ _
  · exact ⟨[], by rw [hfin.out, List.append_nil]⟩

/-- In every schedule in which `main` has written its numbers when the first stage reads, each stage gets the numbers
that were written for it, the primes are printed in order, and the program comes to its end. -/
theorem primes_printed_in_order (junk : Nat → Nat → Int) (es : List (Option Nat)) (s : State)
    (h : Run (step junk) WrittenFirst (init junk) es s) :
    (∀ k, (s.stage k).loc.hasRead = true → (s.pipe k).sent.length = (s.stage k).readNum ∧
      ∀ i < (s.stage k).readNum, (s.pipe k).sent[i]? = some ((s.stage k).num i)) ∧
    s.out <+: primes ∧ (s.main = .exited → s.out = primes) ∧
    (s.main ≠ .exited → ∃ e u, WrittenFirst s e ∧ step junk s e = some u) ∧
    es.length ≤ 539 := by
  have hinv := inv_run h
  refine ⟨?_, hinv.out_prefix, ?_, hinv.progress junk, ?_⟩
  · intro k hk
    have hgot := hinv.got hk
    rw [hgot.sent, hgot.readNum]
    exact ⟨rfl, hgot.num⟩
  · intro hm
    have h0 := hinv.main
    simp only [MainAt, hm] at h0
    obtain ⟨m, -, hfin⟩ := hinv.finishing h0.2
    exact hfin.out
  · have hwork := work_run h
    have hinit : (init junk).work = 539 := by
      simp [State.work, init, MainLoc.work, Finset.sum_range_succ, Loc.work]
    omega

/-- A schedule in which every process runs until it has to wait. -/
def oneByOne : List (Option Nat) :=
  List.replicate 35 none ++ (List.range 11).flatMap (fun k => List.replicate ((sieve k).length + 4) (some k)) ++
    (List.range 12).reverse.map some ++ [none]

theorem primes_printed_in_order_oneByOne :
    ∃ s, Run (step fun _ _ => 0) WrittenFirst (init fun _ _ => 0) oneByOne s ∧ s.main = .exited ∧
      s.out = [2, 3, 5, 7, 11, 13, 17, 19, 23, 29, 31] := by
  obtain ⟨s, hrun, hp⟩ : ∃ s, Run (step fun _ _ => 0) WrittenFirst (init fun _ _ => 0) oneByOne s ∧
      s.main = .exited := by decide +kernel
  have hexit : s.main = .exited := by simpa using hp
  refine ⟨s, hrun, hexit, ?_⟩
  rw [← primes_eq]
  exact (primes_printed_in_order _ _ s hrun).2.2.1 hexit

/-- The first stage reads when `main` has written one number: the others are lost, and only `2` is printed. -/
theorem primes_lost_when_read_early :
    ∃ es s, Run (step fun _ _ => 0) any (init fun _ _ => 0) es s ∧ s.main = .exited ∧
      (s.stage 0).readNum = 34 ∧ (s.pipe 0).sent[1]? = some 3 ∧ (s.stage 0).num 1 = 0 ∧ s.out = [2] := by
  let es : List (Option Nat) :=
    none :: List.replicate 38 (some 0) ++ [some 1, some 0] ++ List.replicate 35 none
  obtain ⟨s, hs, hp⟩ : ∃ s, Run (step fun _ _ => 0) any (init fun _ _ => 0) es s ∧ s.main = .exited ∧
      (s.stage 0).readNum = 34 ∧ (s.pipe 0).sent[1]? = some 3 ∧ (s.stage 0).num 1 = 0 ∧ s.out = [2] :=
      by decide +kernel
  exact ⟨es, s, hs, by simpa using hp⟩

end Xv6.Primes

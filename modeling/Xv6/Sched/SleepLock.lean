import Xv6.Sched.Monitor

/-!
# Sleep-locks

`acquiresleep` and `releasesleep` of `kernel/sleeplock.c` on one lock. Only a process that has the lock releases it.
-/

namespace Xv6.Sched

/-- `struct sleeplock`, and who has acquired it. -/
structure SleepLock where
  locked : Bool := false
  has : Slot → Bool := fun _ => false

/-- Where a process is in `acquiresleep` (`test`, `done`) or in `releasesleep` (`clear`, `wake`, `done`). -/
inductive SleepLockLoc
  | test
  | clear
  | wake
  | done
  deriving DecidableEq

namespace SleepLock

def take (lk : SleepLock) (p : Slot) : SleepLock := { locked := true, has := Function.update lk.has p true }

def give (lk : SleepLock) (p : Slot) : SleepLock := { locked := false, has := Function.update lk.has p false }

/-- The code of process `p`; the lock is channel 0. -/
def code (p : Slot) (lk : SleepLock) : SleepLockLoc → Within SleepLock SleepLockLoc
  | .test => if lk.locked then .sleep 0 .test else .update (lk.take p) .done
  | .clear => .update (lk.give p) .wake
  | .wake => .wakeup 0 .done
  | .done => .leave

end SleepLock

/-- Any process may call `acquiresleep`, and a process that has the lock `releasesleep`. -/
def sleepLock : Monitor where
  Data := SleepLock
  Loc := SleepLockLoc
  Input := Unit
  data := {}
  allowed lk p l := l = .test || l = .clear && lk.has p
  body p _ _ lk l := some (lk.code p l)

namespace SleepLock

variable {lk : SleepLock} {p q : Slot}

/-- One process has it, or nobody does. -/
structure Exclusive (lk : SleepLock) : Prop where
  one : ∀ p q, lk.has p = true → lk.has q = true → p = q
  locked : ∀ p, lk.has p = true → lk.locked = true

theorem Exclusive.take (h : lk.Exclusive) (hl : lk.locked = false) : (lk.take p).Exclusive where
  one q r hq hr := by
    have hno : ∀ q, lk.has q = false := fun q => Bool.eq_false_iff.mpr fun hq => by simp [h.locked q hq] at hl
    have hp : ∀ q, (lk.take p).has q = true → q = p := by
      intro q hq
      by_contra hne
      simp [SleepLock.take, Function.update_of_ne hne, hno] at hq
    rw [hp q hq, hp r hr]
  locked _ _ := rfl

theorem Exclusive.give (h : lk.Exclusive) (hp : lk.has p = true) : (lk.give p).Exclusive := by
  have hno : ∀ q, (lk.give p).has q = false := by
    intro q
    by_cases hq : q = p
    · simp [SleepLock.give, hq]
    · simp only [SleepLock.give, Function.update_of_ne hq]
      exact Bool.eq_false_iff.mpr fun h' => hq (h.one q p h' hp)
  exact ⟨fun q _ hq => by simp [hno] at hq, fun q hq => by simp [hno] at hq⟩

/-- A process in `releasesleep` has the lock until it clears it. -/
def Pre (p : Slot) (l : SleepLockLoc) (lk : SleepLock) : Prop := l = .clear → lk.has p = true

theorem code_update {lk' : SleepLock} {l l' : SleepLockLoc} (h : lk.code p l = .update lk' l') (hx : lk.Exclusive)
    (hpre : Pre p l lk) : lk'.Exclusive ∧ Pre p l' lk' ∧ ∀ q m, q ≠ p → Pre q m lk → Pre q m lk' := by
  cases l with
  | test =>
    simp only [code] at h
    split at h
    case isTrue => cases h
    case isFalse hl =>
      cases h
      refine ⟨hx.take (by simpa using hl), by simp [Pre], fun q m hq hm heq => ?_⟩
      simpa [SleepLock.take, Function.update_of_ne hq] using hm heq
  | clear =>
    cases h
    refine ⟨hx.give (hpre rfl), by simp [Pre], fun q m hq hm heq => ?_⟩
    simpa [SleepLock.give, Function.update_of_ne hq] using hm heq
  | _ => cases h

theorem code_next {n : Nat} {l l' : SleepLockLoc} (h : lk.code p l = .sleep n l' ∨ lk.code p l = .wakeup n l') :
    l' ≠ .clear := by
  rcases h with h | h <;> cases l <;> simp only [code] at h
  case inl.test => split at h <;> cases h; simp
  case inr.test => split at h <;> cases h
  all_goals cases h
  simp

def proto : Proto sleepLock where
  Good := Exclusive
  Pre := Pre
  Valid := Pre
  start := ⟨fun _ _ h => (by cases h), fun _ h => (by cases h)⟩
  call := by
    rintro lk p l h rfl
    simpa [sleepLock] using h
  enter _ h := h
  update h := code_update (Option.some.inj h)
  sleep h _ _ heq := absurd heq (code_next (.inl (Option.some.inj h)))
  wakeup h _ _ heq := absurd heq (code_next (.inr (Option.some.inj h)))

/-- A process sleeps on the lock because it is taken. -/
def Reason (lk : SleepLock) (n : Nat) : Prop := n = 0 ∧ lk.locked = true

/-- In `releasesleep` the wakeup is still to come. -/
def Owes (l : SleepLockLoc) (_ : SleepLock) (n : Nat) : Prop := l = .wake ∧ n = 0

theorem code_keeps (p : Slot) (lk : SleepLock) (l : SleepLockLoc) :
    Keeps (M := sleepLock) Reason Owes lk l (lk.code p l) := by
  cases l with
  | test =>
    simp only [code]
    split
    case isTrue hl => exact ⟨⟨rfl, hl⟩, fun n h => absurd h.1 (by simp)⟩
    case isFalse => exact fun n h => .inl ⟨h.elim (·.1) (·.2), rfl⟩
  | clear => exact fun n h => .inr ⟨rfl, h.elim (·.1) (·.2)⟩
  | wake => exact fun n hn h => absurd h.2 hn
  | done => exact fun n h => absurd h.1 (by simp)

end SleepLock

variable {C : Type} [DecidableEq C] {s : State sleepLock C}

/-- At most one process has the lock, and nobody sleeps on it when it is free. -/
theorem sleep_lock_excludes_and_wakes (h : Reachable s) :
    (∀ p q, s.data.has p = true → s.data.has q = true → p = q) ∧
    (s.lk = none → s.data.locked = false → ∀ p, ¬ Asleep s p 0) := by
  obtain ⟨es, hrun⟩ := h
  have hkeeps : ∀ (s : State sleepLock C) (ch : Choice sleepLock) (p : Slot),
      KeepsStep SleepLock.Reason SleepLock.Owes s ch p := by
    intro s ch p l x w _ _ hbody
    obtain rfl : s.data.code p l = w := Option.some.inj hbody
    exact SleepLock.code_keeps p s.data l
  obtain ⟨hh, hr⟩ := monitor_run SleepLock.Reason SleepLock.Owes SleepLock.proto hrun fun s c ch p _ _ _ =>
    hkeeps s ch p
  refine ⟨hh.inv.one, fun hlk hl p hp => ?_⟩
  simpa [hl] using (hr p 0 hlk hp).2

/-- `init` acquires the lock, process 1 sleeps on it, and `init` releases it. -/
def wakeOne : List (Bool × Choice sleepLock) :=
  goes false 4 ++ (false, .call .fork) :: goes false 7 ++ goes true 7 ++
    [(false, .call (.enter SleepLockLoc.test)), (false, .go), (false, .input ()), (false, .input ())] ++
    [(true, .call (.enter SleepLockLoc.test)), (true, .go), (true, .input ())] ++ goes true 6 ++
    [(false, .call (.enter SleepLockLoc.clear)), (false, .go), (false, .input ()), (false, .input ())] ++
    goes false 193 ++ [(false, .input ())]

instance : DecidableEq sleepLock.Loc := inferInstanceAs (DecidableEq SleepLockLoc)

theorem sleep_lock_excludes_and_wakes_wakeOne : ∃ s : State sleepLock Bool, s.lk = none ∧ s.data.locked = false ∧
    s.thread slot1 = .sleep (.monitor 0 .test) .saved ∧
    ((∀ p q, s.data.has p = true → s.data.has q = true → p = q) ∧
    (s.lk = none → s.data.locked = false → ∀ p, ¬ Asleep s p 0)) := by
  obtain ⟨s, hs, h1, h2, h3⟩ : ∃ s : State sleepLock Bool, Reachable s ∧ s.lk = none ∧
      s.data.locked = false ∧ s.thread slot1 = .sleep (.monitor 0 .test) .saved :=
    exists_reachable wakeOne (by decide +kernel)
  exact ⟨s, h1, h2, h3, sleep_lock_excludes_and_wakes hs⟩

end Xv6.Sched

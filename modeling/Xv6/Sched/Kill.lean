import Xv6.Sched.Step

/-!
# Who is killed

`freeproc` clears `killed`, but `kill` looks at `pid` only, and a free entry has pid 0, or the pid that `allocproc` has
left when it could not get a trapframe. As long as no `kill` finds a free entry, a process starts with `killed` clear
and is killed by its own pid.
-/

namespace Xv6.Sched

open Machine (Run)

variable {M : Monitor} {C : Type} {s t : State M C} {c : C} {q : Slot} {ch : Choice M}

/-- `kill` does not find a free entry. -/
def killsLive (s : State M C) (e : C × Choice M) : Bool :=
  match (s.cpu e.1).pc with
  | .away p =>
    match s.thread p with
    | .scan (.kill pid) (.body j) _ => (s.proc j).pid ≠ pid || (s.proc j).state ≠ .unused
    | _ => true
  | _ => true

theorem Change.killed {x : Proc} (h : Change s t c q x) :
    (x.killed = (s.proc q).killed ∧ (x.state = .unused → (s.proc q).state = .unused)) ∨ x = Proc.free ∨
    x = (s.proc q).kill ∧ ∃ p k, (s.cpu c).pc = .away p ∧ s.thread p = .scan (.kill (s.proc q).pid) (.body q) k := by
  cases h with
  | kill hc hpc => exact .inr (.inr ⟨rfl, _, _, hc, hpc⟩)
  | fail | reap => exact .inr (.inl rfl)
  | same | tidy | give | number => exact .inl ⟨rfl, id⟩
  | _ => exact .inl ⟨rfl, by simp⟩

/-- Free entries are clean. -/
def Clean (s : State M C) : Prop := ∀ q, (s.proc q).state = .unused → (s.proc q).killed = false

theorem live_of_kill {p : Slot} {k : Pc M.Loc} (hok : killsLive s (c, ch) = true) (hc : (s.cpu c).pc = .away p)
    (hpc : s.thread p = .scan (.kill (s.proc q).pid) (.body q) k) : (s.proc q).state ≠ .unused := by
  simpa [killsLive, hc, hpc] using hok

theorem Proc.kill_unused {x : Proc} (h : x.kill.state = .unused) : x.state = .unused := by
  simp only [kill] at h
  split at h
  · cases h
  · exact h

variable [DecidableEq C]

theorem Clean.born (hcl : Clean s) (hi : Inv s) (h : step s (c, ch) = some t) (hst : (s.proc q).state = .unused)
    (hst' : (t.proc q).state ≠ .unused) : (t.proc q).killed = false := by
  rcases (step_change hi h q).killed with ⟨hsame, -⟩ | hfree | ⟨hkill, -⟩
  · rw [hsame]
    exact hcl q hst
  · rw [hfree]
    rfl
  · exact absurd (by simp [hkill, Proc.kill, hst]) hst'

theorem Clean.step (hcl : Clean s) (hi : Inv s) (hok : killsLive s (c, ch) = true) (h : step s (c, ch) = some t) :
    Clean t := by
  intro q hst
  rcases (step_change hi h q).killed with ⟨hsame, hunused⟩ | hfree | ⟨hkill, p, k, hc, hpc⟩
  · rw [hsame]
    exact hcl q (hunused hst)
  · rw [hfree]
    rfl
  · rw [hkill] at hst
    exact absurd (Proc.kill_unused hst) (live_of_kill hok hc hpc)

/-- As long as no `kill` finds a free entry, free entries are clean, so that processes start with `killed` clear, and
a process is killed only by a `kill` with its own pid when it is there. -/
theorem free_slots_are_clean {es : List (C × Choice M)}
    (h : Run step (fun s e => killsLive s e = true) (State.boot M C) es s) :
    (∀ q, (s.proc q).state = .unused → (s.proc q).killed = false) ∧
    (∀ c ch t q, step s (c, ch) = some t → (s.proc q).state = .unused → (t.proc q).state ≠ .unused →
      (t.proc q).killed = false) ∧
    ∀ c ch t q, killsLive s (c, ch) = true → step s (c, ch) = some t → (s.proc q).killed = false →
      (t.proc q).killed = true → (s.proc q).state ≠ .unused ∧
        ∃ p k, (s.cpu c).pc = .away p ∧ s.thread p = .scan (.kill (s.proc q).pid) (.body q) k := by
  obtain ⟨hi, hcl⟩ := h.inv (I := fun _ s => Inv s ∧ Clean s)
    ⟨inv_boot, fun q _ => by by_cases hq : q = initproc <;> simp [State.boot, hq]⟩
    fun _ _ _ _ _ ⟨hi, hcl⟩ hok hs => ⟨hi.step hs, hcl.step hi hok hs⟩
  refine ⟨hcl, fun c ch t q hs => hcl.born hi hs, fun c ch t q hok hs hk hk' => ?_⟩
  rcases (step_change hi hs q).killed with ⟨hsame, -⟩ | hfree | ⟨-, p, k, hc, hpc⟩
  · simp [hsame, hk] at hk'
  · rw [hfree] at hk'
    cases hk'
  · exact ⟨live_of_kill hok hc hpc, p, k, hc, hpc⟩

/-- `init` makes process 1 and kills it. -/
def childKilled : List (Fin 4 × Choice Monitor.idle) :=
  goes 0 4 ++ (0, .call .fork) :: goes 0 7 ++ (0, .call (.kill 2)) :: goes 0 6

theorem free_slots_are_clean_childKilled : ∃ s : State Monitor.idle (Fin 4), (s.proc slot1).killed = true ∧
    (∀ q, (s.proc q).state = .unused → (s.proc q).killed = false) ∧
    (∀ c ch t q, step s (c, ch) = some t → (s.proc q).state = .unused → (t.proc q).state ≠ .unused →
      (t.proc q).killed = false) ∧
    ∀ c ch t q, killsLive s (c, ch) = true → step s (c, ch) = some t → (s.proc q).killed = false →
      (t.proc q).killed = true → (s.proc q).state ≠ .unused ∧
        ∃ p k, (s.cpu c).pc = .away p ∧ s.thread p = .scan (.kill (s.proc q).pid) (.body q) k := by
  obtain ⟨s, hs, hdec⟩ : ∃ s, Machine.Run step (fun s e => killsLive s e = true) (State.boot Monitor.idle (Fin 4))
      childKilled s ∧ (s.proc slot1).killed = true := by decide +kernel
  exact ⟨s, hdec, free_slots_are_clean hs⟩

/-- `init` calls `kill(0)`, which finds the first free entry. -/
def killZero : List (Fin 4 × Choice Monitor.idle) := goes 0 4 ++ (0, .call (.kill 0)) :: goes 0 6

/-- The free entry is marked, and the process that `fork` makes there is born killed. -/
theorem free_slot_is_killed : (∃ s : State Monitor.idle (Fin 4), Reachable s ∧ (s.proc slot1).state = .unused ∧
      (s.proc slot1).killed = true) ∧
    ∃ s : State Monitor.idle (Fin 4), Reachable s ∧ s.thread slot1 = .fresh ∧ (s.proc slot1).state = .runnable ∧
      (s.proc slot1).killed = true := by
  exact ⟨exists_reachable killZero (by decide +kernel),
    exists_reachable (killZero ++ (0, .call .fork) :: goes 0 6) (by decide +kernel)⟩

end Xv6.Sched

import Xv6.Sched.Deadlock

/-!
# The process tree and the checks of the locks

However `fork`, `exit` and `wait` interleave, the parents lead from every process to `init` through processes that
have not exited, and the checks of `acquire`, `release` and `sched` that end in `panic` do not fail, unless a process
sleeps with another spinlock. That includes the runs in which the process locks deadlock.
-/

namespace Xv6.Sched

variable {M : Monitor} {C : Type} {s t : State M C} {c : C} {p q r : Slot} {ch : Choice M} {a : Act M}

/-! ## Parents -/

/-- `r` is the parent of `q` and has not exited. -/
def ChildOf (s : State M C) (q r : Slot) : Prop :=
  (s.proc q).parent = some r ∧ (s.proc r).state ≠ .unused ∧ (s.proc r).state ≠ .zombie

/-- Only `init` has no parent. -/
def Parented (s : State M C) : Prop := ∀ q, (s.proc q).state ≠ .unused → (s.proc q).parent = none → q = initproc

theorem Change.orphan (hi : Inv s) {x : Proc} (h : Change s t c q x) (hst : x.state ≠ .unused)
    (hpar : x.parent = none) :
    (s.proc q).state ≠ .unused ∧ (s.proc q).parent = none := by
  have hself : (s.cpu c).pc = .away q → (s.proc q).state ≠ .unused := fun hc =>
    (hi.away c q hc).2 ▸ Pc.shows_ne_unused
  cases h with
  | same | number => exact ⟨hst, hpar⟩
  | wake hst' | run hst' => exact ⟨by simp [hst'], hpar⟩
  | yield hc | sleep hc | tidy hc | finish hc => exact ⟨hself hc, hpar⟩
  | kill => exact ⟨fun h => hst (by simp [Proc.kill, h]), hpar⟩
  | give | spawn => cases hpar
  | fail | reap => exact absurd rfl hst

theorem Pc.rid_of_shows {L : Type} {pc : Pc L} (h : pc.shows = .zombie) : pc.rid q := by
  cases pc with
  | exit status i => cases i <;> trivial
  | yield i | sleep w i => cases i <;> cases h
  | _ => cases h

theorem Family.childOf (hf : Family s) (hi : Inv s) (hpar : (s.proc q).parent = some r) : ChildOf s q r := by
  refine ⟨hpar, fun hst => hf.rid r q (by rw [hi.dead_of_unused hst]; trivial) hpar, fun hst => hf.rid r q ?_ hpar⟩
  by_cases haway : ∃ c, (s.cpu c).pc = .away r
  · obtain ⟨c, hc⟩ := haway
    exact Pc.rid_of_shows ((hi.away c r hc).2.symm.trans hst)
  · have hrest := hi.rest r fun c => ⟨fun hc => haway ⟨c, hc⟩, fun hc => by simp [(hi.going c r hc).2] at hst⟩
    rw [Pc.dead_of_rests hrest (.inl hst)]
    trivial

/-! ## Locks -/

/-- The parent that a process in `exit` remembers is not the process itself and, even if the entry was used again,
not its child. -/
def Apart (s : State M C) : Prop := ∀ p op, (s.thread p).op = some op → op ≠ p ∧ (s.proc op).parent ≠ some p

theorem Pc.exiting_of_op {L : Type} {op : Slot} {pc : Pc L} (h : pc.op = some op) : pc.exiting = true := by
  induction pc with
  | yield i k ih | scan w i k ih => exact ih h
  | exit => rfl
  | _ => cases h

theorem Apart.step [DecidableEq C] (ha : Apart s) (hi : Inv s) (hf : Family s) (h : step s (c, ch) = some t) :
    Apart t := by
  intro p op hop
  have hold : op ≠ p ∧ (s.proc op).parent ≠ some p := by
    have hmove := step_move hi h p
    generalize t.thread p = pc at hmove hop
    cases hmove with
    | quiet hq => exact ha p op (hq.family.1 ▸ hop)
    | act hc hcode =>
      rcases code_op _ hcode hop with hop | hpar
      · exact ha p op hop
      · have hlt := hf.born_parent p op hpar
        exact ⟨fun heq => absurd hlt (by simp [heq]), fun hpar' => absurd (hf.born_parent op p hpar') (by omega)⟩
    | spawn => cases hop
  refine ⟨hold.1, fun hpar => ?_⟩
  have hexit := Pc.exiting_of_op hop
  rcases hf.change_parent hi (step_change hi h op) with hsame | ⟨hinit, -⟩ | ⟨p', hp', hto, -⟩ | ⟨hnone, -⟩
  · exact hold.2 (hsame ▸ hpar)
  · obtain rfl : initproc = p := by simpa [hinit] using hpar
    simp [hf.step_init hi h] at hexit
  · obtain rfl : p' = p := by simpa [hp'] using hpar
    simp [hto, Pc.exiting] at hexit
  · simp [hnone] at hpar

/-- The number of process locks and of the monitor's lock that a CPU holds. -/
def State.lockCount [DecidableEq C] (s : State M C) (c : C) : Nat :=
  (Finset.univ.filter fun q => s.lock q = some c).card + if s.lk = some c then 1 else 0

/-- The checks of `acquire`, `release` and `sched`, in a thread that holds `others` more spinlocks, as
`consolewrite` holds `cons.lock` around `uartputc`. The `noff` that `sched` looks at counts all of them. -/
def Act.panics [DecidableEq C] (s : State M C) (c : C) (p : Slot) (others : Nat) : Act M → Bool
  | .acquire q _ => s.lock q = some c
  | .release q _ => s.lock q ≠ some c
  | .acquireLk _ => s.lk = some c
  | .releaseLk _ => s.lk ≠ some c
  | .swtch _ => s.lock p ≠ some c || s.lockCount c + others ≠ 1 || (s.proc p).state = .running
  | _ => false

theorem Inv.not_acquired (hi : Inv s) (hf : Family s) (hap : Apart s) (hc : (s.cpu c).pc = .away p) {pc : Pc M.Loc}
    (ha : code s p ch (s.thread p) = some (.acquire q pc)) : s.lock q ≠ some c := by
  intro hl
  have hmem : q ∈ (s.thread p).locks p := State.locks_away hc ▸ (hi.locks q c).mp hl
  rcases code_acquire ha with h | ⟨addr, h⟩ | ⟨status, op, h, rfl⟩ | ⟨status, op, h⟩
  · simp [h] at hmem
  · have hlt := hf.born_parent q p (hf.child p q (by rw [h]; rfl))
    obtain rfl : q = p := by simpa [h, Pc.locks, Wait.locks] using hmem
    omega
  · exact (hap q op (by rw [h]; rfl)).1 (by simpa [h, Pc.locks, Exit.locks, eq_comm] using hmem)
  · have hpar := hf.child p q (by rw [h]; rfl)
    have hor : q = p ∨ q = op := by simpa [h, Pc.locks, Exit.locks] using hmem
    rcases hor with rfl | rfl
    · exact absurd (hf.born_parent q q hpar) (by omega)
    · exact (hap p q (by rw [h]; rfl)).2 hpar

variable [DecidableEq C]

theorem Reachable.parents (h : Reachable s) : Inv s ∧ Family s ∧ Parented s ∧ Apart s := by
  obtain ⟨es, hrun⟩ := h
  refine hrun.inv (I := fun _ s => Inv s ∧ Family s ∧ Parented s ∧ Apart s)
    ⟨inv_boot, family_boot, fun q hst _ => ?_, fun p op hop => ?_⟩
    fun _ _ _ _ _ ⟨hi, hf, hp, ha⟩ _ hs => ⟨hi.step hs, hf.step hi hs, fun q hst hpar => ?_, ha.step hi hf hs⟩
  · by_contra hq
    simp [State.boot, hq] at hst
  · by_cases hp : p = initproc <;> simp [State.boot, hp, Pc.op] at hop
  · obtain ⟨hst, hpar⟩ := (step_change hi hs q).orphan hi hst hpar
    exact hp q hst hpar

/-- The parents of a process lead to `init`, and none of them has exited. -/
theorem process_tree (h : Reachable s) (hq : (s.proc q).state ≠ .unused) :
    Relation.ReflTransGen (ChildOf s) q initproc := by
  obtain ⟨hi, hf, hp, -⟩ := h.parents
  -- a parent is older
  induction hn : s.born q using Nat.strong_induction_on generalizing q with
  | _ n ih =>
    cases hpar : (s.proc q).parent with
    | none => rw [hp q hq hpar]
    | some r =>
      have hr := hf.childOf hi hpar
      exact .head hr (ih _ (hn ▸ hf.born_parent q r hpar) hr.2.1 rfl)

/-- A thread does not acquire a lock that its CPU holds or release one that it does not hold, and it calls
`sched` with the lock of its process, without the monitor's, and with a state that is not `RUNNING`. So the
checks pass unless it calls `sched` with spinlocks from outside. -/
theorem lock_checks_pass_iff (h : Reachable s) (hc : (s.cpu c).pc = .away p) (ha : code s p ch (s.thread p) = some a)
    (others : Nat) : a.panics s c p others = false ↔ others = 0 ∨ ∀ pc, a ≠ .swtch pc := by
  obtain ⟨hi, hf, -, hap⟩ := h.parents
  have hl := code_locks (hi.wf p) a ha
  have hk := code_lk (hi.wf p) a ha
  have hlk := hi.lk c
  rw [State.lkHeld_away hc] at hlk
  cases a with
  | acquire r pc => simpa [Act.panics] using hi.not_acquired hf hap hc ha
  | release r pc => simpa [Act.panics] using hi.lock_of_mem hc (hl.mem_iff.mpr List.mem_cons_self)
  | acquireLk | releaseLk => simp [Act.panics, hlk, hk.1]
  | swtch pc =>
    have hown : ∀ r, s.lock r = some c ↔ r = p :=
      fun r => by rw [hi.locks, State.locks_away hc, hl.1, List.mem_singleton]
    have hoff : (s.thread p).lkHeld = false := by
      rcases code_special (hi.wf p) _ ha with ⟨k, h, -⟩ | ⟨w, h, -⟩ | ⟨status, h, -⟩ <;> rw [h] <;> rfl
    have hst := (code_place (hi.wf p) _ ha).2
    rw [← (hi.away c p hc).2] at hst
    simp [Act.panics, State.lockCount, hown, hlk, hoff, hst, Finset.filter_eq']
  | _ => simp [Act.panics]

/-! Process 2 in `exit` has locked its former parent's entry and waits for the lock of its child 3. -/

theorem process_tree_circle : ∃ s : State Monitor.idle (Fin 4), s.lock slot1 = some 2 ∧
    Relation.ReflTransGen (ChildOf s) slot3 initproc := by
  obtain ⟨s, hr, -, h3, -, hwait, hl, -⟩ := circle_run
  exact ⟨s, hl, process_tree hr (by simp [(hr.inv.away 3 slot3 h3).2, hwait, Pc.shows])⟩

/-- The timer interrupts `init`, which is about to call `sched`. -/
def timerYield : List (Fin 4 × Choice Monitor.idle) := goes 0 4 ++ (0, .timer) :: goes 0 2

theorem lock_checks_pass_iff_timerYield : ∃ (s : State Monitor.idle (Fin 4)) (pc : Pc Empty), Reachable s ∧
    code s initproc .go (s.thread initproc) = some (.swtch pc) ∧
    Act.panics s 0 initproc 0 (.swtch pc) = false ∧ Act.panics s 0 initproc 1 (.swtch pc) = true := by
  obtain ⟨s, hr, hc, hpc⟩ : ∃ s : State Monitor.idle (Fin 4), Reachable s ∧
      (s.cpu 0).pc = .away initproc ∧ s.thread initproc = .yield .sched .user :=
    exists_reachable timerYield (by decide +kernel)
  have hcode : code s initproc .go (s.thread initproc) = some (.swtch (.yield .saved .user)) := by rw [hpc]; rfl
  have hiff := lock_checks_pass_iff hr hc hcode
  exact ⟨s, _, hr, hcode, (hiff 0).mpr (.inl rfl), by simpa using mt (hiff 1).mp (by simp)⟩

end Xv6.Sched

import Mathlib.Data.Finset.Max
import Mathlib.Data.Fintype.Card
import Mathlib.Logic.Relation
import Xv6.Sched.Family

/-!
# The order of the process locks

A CPU waits for a process lock while it holds another one in three places: in `wait`, where a parent locks a
child, and in `exit`, where a process locks its parent, itself and then its children. In each of them what it
waits for is younger than what it holds, as long as `original_parent` is what it was when it was read. If it has
exited and been waited for in the meantime, and `fork` has put a new process in its place, that process can be
younger, and then the processes can wait for each other in a circle.
-/

namespace Xv6.Sched

open Machine (Run)

variable {M : Monitor} {C : Type} {s t : State M C} {c c' : C} {p q r : Slot} {ch : Choice M} {pc : Pc M.Loc}
  {a : Act M}

/-- CPU `c` is in `acquire` of the lock of entry `q`. -/
def Acquires (s : State M C) (c : C) (q : Slot) : Prop :=
  match (s.cpu c).pc with
  | .loop k => k = q.val
  | .intr _ (.acquire j) _ => j = q.val
  | .away p => ∃ pc, code s p .go (s.thread p) = some (.acquire q pc)
  | _ => False

/-- CPU `c` holds a process lock and waits for one that `c'` holds. -/
def WaitsFor (s : State M C) (c c' : C) : Prop :=
  (∃ r, s.lock r = some c) ∧ ∃ q, Acquires s c q ∧ s.lock q = some c'

def Deadlock (s : State M C) : Prop := ∃ c, Relation.TransGen (WaitsFor s) c c

/-- `fork` does not make a new process in an entry that a process in `exit` has as `original_parent`. -/
def keepsParent (s : State M C) (e : C × Choice M) : Bool :=
  match (s.cpu e.1).pc with
  | .away p =>
    match code s p e.2 (s.thread p) with
    | some (.spawn q _) => decide (∀ r, (s.thread r).op ≠ some q)
    | _ => true
  | _ => true

theorem code_acquire {pc' : Pc M.Loc} (h : code s p ch pc = some (.acquire q pc')) :
    pc.locks p = [] ∨ (∃ addr, pc = .wait addr (.acquireChild q)) ∨
      (∃ status op, pc = .exit status (.acquireAgain op) ∧ q = p) ∨
      ∃ status op, pc = .exit status (.acquireChild op q) := by
  cases code_step h
  case waitAcquireChild addr => exact .inr (.inl ⟨addr, rfl⟩)
  case exitAcquireAgain st op => exact .inr (.inr (.inl ⟨st, op, rfl, rfl⟩))
  case exitAcquireChild st op => exact .inr (.inr (.inr ⟨st, op, rfl⟩))
  all_goals exact .inl rfl

/-- `original_parent` is older. -/
def OlderParent (s : State M C) : Prop := ∀ p op, (s.thread p).op = some op → s.born op < s.born p

theorem older_of_acquires (hi : Inv s) (hf : Family s) (ho : OlderParent s) (hl : s.lock r = some c)
    (ha : Acquires s c q) : s.born r < s.born q := by
  have hr := (hi.locks r c).mp hl
  unfold Acquires at ha
  split at ha
  case h_1 k hc => simp [State.locks, hc, CpuPc.locks] at hr
  case h_2 chan j k hc => simp [State.locks, hc, CpuPc.locks, Scan.locks] at hr
  case h_4 => exact absurd ha id
  case h_3 p hc =>
    obtain ⟨pc, hcode⟩ := ha
    rw [State.locks_away hc] at hr
    rcases code_acquire hcode with h | ⟨addr, h⟩ | ⟨status, op, h, rfl⟩ | ⟨status, op, h⟩
    · simp [h] at hr
    · have hpar := hf.born_parent q p (hf.child p q (by rw [h]; rfl))
      obtain rfl : r = p := by simpa [h, Pc.locks, Wait.locks] using hr
      exact hpar
    · obtain rfl : r = op := by simpa [h, Pc.locks, Exit.locks] using hr
      exact ho q r (by rw [h]; rfl)
    · have hpar := hf.born_parent q p (hf.child p q (by rw [h]; rfl))
      have hop := ho p op (by rw [h]; rfl)
      have hmem : r = p ∨ r = op := by simpa [h, Pc.locks, Exit.locks] using hr
      rcases hmem with rfl | rfl
      · exact hpar
      · exact hop.trans hpar

theorem older_of_transGen (hi : Inv s) (hf : Family s) (ho : OlderParent s) (h : Relation.TransGen (WaitsFor s) c c')
    (hl : s.lock r = some c) : ∃ q, s.lock q = some c' ∧ s.born r < s.born q := by
  induction h with
  | single h =>
    obtain ⟨-, q, ha, hq⟩ := h
    exact ⟨q, hq, older_of_acquires hi hf ho hl ha⟩
  | tail _ h ih =>
    obtain ⟨q, hq, hlt⟩ := ih
    obtain ⟨-, q', ha, hq'⟩ := h
    exact ⟨q', hq', hlt.trans (older_of_acquires hi hf ho hq ha)⟩

variable [DecidableEq C]

theorem not_deadlock (hi : Inv s) (hf : Family s) (ho : OlderParent s) : ¬ Deadlock s := by
  rintro ⟨c, hcycle⟩
  obtain ⟨_, ⟨⟨r, hr⟩, -⟩, -⟩ := Relation.TransGen.head'_iff.mp hcycle
  have hne : (Finset.univ.filter fun q => s.lock q = some c).Nonempty := ⟨r, by simp [hr]⟩
  obtain ⟨m, hm, hmax⟩ := Finset.exists_max_image _ s.born hne
  simp only [Finset.mem_filter, Finset.mem_univ, true_and] at hm hmax
  obtain ⟨q, hq, hlt⟩ := older_of_transGen hi hf ho hcycle hm
  exact absurd (hmax q hq) (Nat.not_le.mpr hlt)

theorem OlderParent.step (ho : OlderParent s) (hi : Inv s) (hf : Family s) (hk : keepsParent s (c, ch) = true)
    (h : step s (c, ch) = some t) : OlderParent t := by
  intro p op hop
  -- `fork` does not touch the entry of a recorded parent
  have hkeep : (s.thread p).op = some op → t.born op = s.born op := by
    intro hop
    rcases Family.step_born hi h with ⟨h, -⟩ | ⟨p', q, pc, hc, -, hcode, h, -⟩
    · rw [h]
    · have hne : op ≠ q := by
        rintro rfl
        simp only [keepsParent, hc, hcode, decide_eq_true_eq] at hk
        exact hk p hop
      rw [h, Function.update_of_ne hne]
  have hold : s.born op < s.born p ∧ s.thread p ≠ .dead ∧ t.born op = s.born op := by
    have hmove := step_move hi h p
    generalize t.thread p = pc at hmove hop
    cases hmove with
    | quiet hq =>
      rw [hq.family.1] at hop
      exact ⟨ho p op hop, fun hd => by simp [hd, Pc.op] at hop, hkeep hop⟩
    | act hc ha =>
      rcases code_op _ ha hop with hop | hpar
      · exact ⟨ho p op hop, fun hd => by simp [hd, Pc.op] at hop, hkeep hop⟩
      · have hused : (s.proc op).state ≠ .unused := fun hst =>
          hf.rid op p (by rw [hi.dead_of_unused hst]; trivial) hpar
        exact ⟨hf.born_parent p op hpar, fun hd => by simp [hd, code] at ha, Family.born_same hi h hused⟩
    | spawn hc hpc => cases hop
  obtain ⟨hlt, hdead, hbop⟩ := hold
  rwa [hbop, Family.born_same hi h fun hst => hdead (hi.dead_of_unused hst)]

/-- As long as no entry is used again while a process in `exit` has it as `original_parent`, the processes do not
wait for each other's locks in a circle. -/
theorem process_locks_do_not_deadlock {es : List (C × Choice M)}
    (h : Run step (fun s e => keepsParent s e = true) (State.boot M C) es s) : ¬ Deadlock s := by
  have hinv := h.inv (I := fun _ s => Inv s ∧ Family s ∧ OlderParent s)
    ⟨inv_boot, family_boot, fun p op hop => by by_cases hp : p = initproc <;> simp [State.boot, hp, Pc.op] at hop⟩
    fun _ _ _ _ _ hi hk hs => ⟨hi.1.step hs, hi.2.1.step hi.1 hs, hi.2.2.step hi.1 hi.2.1 hk hs⟩
  exact not_deadlock hinv.1 hinv.2.1 hinv.2.2

/-! ## A circle -/

section circle

/-- Process 2 enters `exit` and reads that its parent is 1; then 1 exits, and `init` waits for it. -/
def parentExits : List (Fin 4 × Choice Monitor.idle) :=
  (2, .call (.exit 0)) :: goes 2 6 ++ (1, .call (.exit 0)) :: goes 1 81 ++ (0, .call (.wait false)) :: goes 0 7

/-- Process 3 makes a process in entry 1 and waits for it, when 2 has locked that entry as its parent's. -/
def childWaits : List (Fin 4 × Choice Monitor.idle) :=
  (3, .call .fork) :: goes 3 7 ++ (3, .call (.wait false)) :: goes 3 3 ++ goes 2 6

theorem deadlock_of_circle {s : State Monitor.idle (Fin 4)} (h2 : (s.cpu 2).pc = .away slot2)
    (h3 : (s.cpu 3).pc = .away slot3) (hexit : s.thread slot2 = .exit 0 (.acquireChild slot1 slot3))
    (hwait : s.thread slot3 = .wait false (.acquireChild slot1)) (hl1 : s.lock slot1 = some 2)
    (hl3 : s.lock slot3 = some 3) : Deadlock s := by
  have h23 : WaitsFor s 2 3 := ⟨⟨slot1, hl1⟩, slot3, by simp [Acquires, h2, hexit, code, exitCode], hl3⟩
  have h32 : WaitsFor s 3 2 := ⟨⟨slot3, hl3⟩, slot1, by simp [Acquires, h3, hwait, code, waitCode], hl1⟩
  exact ⟨2, .tail (.single h23) h32⟩

theorem circle_run : ∃ s : State Monitor.idle (Fin 4), Reachable s ∧ (s.cpu 2).pc = .away slot2 ∧
    (s.cpu 3).pc = .away slot3 ∧ s.thread slot2 = .exit 0 (.acquireChild slot1 slot3) ∧
    s.thread slot3 = .wait false (.acquireChild slot1) ∧ s.lock slot1 = some 2 ∧ s.lock slot3 = some 3 :=
  exists_reachable (threeForks ++ parentExits ++ childWaits) (by decide +kernel)

/-- The parent that `exit` has locked is a new process, and a child's child. -/
theorem process_locks_deadlock : ∃ s : State Monitor.idle (Fin 4), Reachable s ∧ Deadlock s := by
  obtain ⟨s, hs, h2, h3, hexit, hwait, hl1, hl3⟩ := circle_run
  exact ⟨s, hs, deadlock_of_circle h2 h3 hexit hwait hl1 hl3⟩

/-- Process 1 has exited and been waited for, and 2 in `exit` has locked its entry. Unless that is used
again, nobody waits in a circle. -/
theorem process_locks_do_not_deadlock_parentExits : ∃ s : State Monitor.idle (Fin 4),
    Run step (fun s e => keepsParent s e = true) (State.boot _ _) (threeForks ++ parentExits ++ goes 2 6) s ∧
      (s.proc slot1).state = .unused ∧ s.lock slot1 = some 2 ∧ s.thread slot2 = .exit 0 (.acquireChild slot1 slot3) ∧
      ¬ Deadlock s := by
  obtain ⟨s, hs, hst, hl, hpc⟩ : ∃ s, Machine.Run step (fun s e => keepsParent s e = true)
      (State.boot Monitor.idle (Fin 4)) (threeForks ++ parentExits ++ goes 2 6) s ∧ (s.proc slot1).state = .unused ∧
      s.lock slot1 = some 2 ∧ s.thread slot2 = .exit 0 (.acquireChild slot1 slot3) :=
      by decide +kernel
  exact ⟨s, hs, hst, hl, hpc, process_locks_do_not_deadlock hs⟩

end circle

end Xv6.Sched

import Xv6.Sched.Step

/-!
# Parents and children

Only `fork` makes a process the parent of another, and only the parent's own `exit` gives its children to `init`.
So what a process reads from `parent` fields without their locks stays true as far as it is concerned, a process
that has left `exit` has no children, and parents are older than their children.
-/

namespace Xv6.Sched

/-! ## What a position says about the family -/

section positions

variable {L : Type}

/-- `original_parent`, once it is read. -/
def Exit.op : Exit → Option Slot
  | .releaseSelf op | .acquireParent op | .acquireAgain op | .reparent op _ | .acquireChild op _ | .give op _
  | .releaseChild op _ | .finish op | .releaseParent op => some op
  | .acquireInit | .wakeInit | .releaseInit | .acquireSelf | .readParent | .sched => none

def Pc.op : Pc L → Option Slot
  | .yield _ k | .scan _ _ k => k.op
  | .exit _ i => i.op
  | _ => none

def Exit.child : Exit → Option Slot
  | .acquireChild _ k | .give _ k => some k
  | _ => none

def Wait.child : Wait → Option Slot
  | .acquireChild k | .test k | .releaseChild k => some k
  | _ => none

/-- The entry that the process has found to be a child, and is working on. -/
def Pc.child : Pc L → Option Slot
  | .exit _ i => i.child
  | .wait _ i => i.child
  | _ => none

def Exit.rid (q : Slot) : Exit → Prop
  | .reparent _ k => q.val < k
  | .acquireChild _ k | .give _ k => q < k
  | .releaseChild _ k => q ≤ k
  | .finish _ | .releaseParent _ | .sched => True
  | _ => False

/-- The process is not the parent of `q` any more. -/
def Pc.rid (q : Slot) : Pc L → Prop
  | .exit _ i => i.rid q
  | .dead => True
  | _ => False

/-- In `exit`, or past it. -/
def Pc.exiting : Pc L → Bool
  | .yield _ k | .scan _ _ k => k.exiting
  | .exit _ _ | .dead => true
  | _ => false

theorem Pc.exiting_of_rid {q : Slot} {pc : Pc L} (h : pc.rid q) : pc.exiting = true := by
  cases pc <;> simp_all [rid, exiting]

end positions

variable {M : Monitor} {C : Type} {s t : State M C} {c c' : C} {p q r : Slot} {ch : Choice M} {pc : Pc M.Loc}
  {a : Act M}

theorem code_op {op : Slot} : ∀ a ∈ code s p ch pc, a.pc.op = some op → pc.op = some op ∨ (s.proc p).parent =
    some op := by
  intro a ha
  cases code_step ha
  case call o ho => cases o <;> simp [Act.pc, Op.entry, Pc.op, Exit.op]
  case exitReadParent st op' hop =>
    intro h
    obtain rfl : op' = op := by simpa [Act.pc, Pc.op, Exit.op] using h
    exact .inr hop
  case write hw => cases hw <;> exact .inl
  all_goals simp +contextual [Act.pc, Pc.op, Exit.op]

theorem Pc.returns.child {k : Pc L} (h : k.returns) : k.child = none := by
  rcases h with h | ⟨l, rfl⟩
  · cases k with
    | exit _ i => cases i <;> simp_all [Pc.interruptible, Exit.lockFree, Pc.child, Exit.child]
    | wait _ i => cases i <;> simp_all [Pc.interruptible, Wait.lockFree, Pc.child, Wait.child]
    | _ => rfl
  · rfl

theorem code_child {k : Slot} (hwf : pc.Wf) : ∀ a ∈ code s p ch pc, a.pc.child = some k →
    pc.child = some k ∧ (∀ q x pc', a ≠ .write q x pc') ∧ (∀ pc', a ≠ .reap k pc') ∨
      (s.proc k).parent = some p ∧ ∃ pc', a = .goto pc' := by
  intro a ha
  cases code_step ha
  case call o ho => cases o <;> simp [Act.pc, Op.entry, Pc.child, Exit.child, Wait.child]
  case yieldRelease => simp [Act.pc, Pc.returns.child (.inl hwf)]
  case scanEnd => simp [Act.pc, Pc.returns.child hwf]
  case scanDone => simp [Act.pc, Pc.returns.child hwf]
  case write hw => cases hw <;> rintro ⟨⟩
  all_goals simp +contextual [Act.pc, Pc.child, Exit.child, Wait.child]
  all_goals grind

theorem Pc.returns.not_rid {k : Pc L} (h : k.returns) (q : Slot) : ¬ k.rid q := by
  rcases h with h | ⟨l, rfl⟩
  · cases k with
    | exit _ i => cases i <;> simp_all [Pc.interruptible, Exit.lockFree, Pc.rid, Exit.rid]
    | dead => simp [Pc.interruptible] at h
    | _ => simp [Pc.rid]
  · simp [Pc.rid]

theorem code_rid (hwf : pc.Wf) : ∀ a ∈ code s p ch pc, a.pc.rid q → pc.rid q ∨ (s.proc q).parent ≠ some p ∨
    ∃ pc', a = .write q { s.proc q with parent := some initproc } pc' := by
  intro a ha
  cases code_step ha
  case call o ho => cases o <;> simp [Act.pc, Op.entry, Pc.rid, Exit.rid]
  case yieldRelease => exact fun h => absurd h (Pc.returns.not_rid (.inl hwf) q)
  case scanEnd => exact fun h => absurd h (Pc.returns.not_rid hwf q)
  case scanDone => exact fun h => absurd h (Pc.returns.not_rid hwf q)
  case exitSkip st op k hpar =>
    intro h
    rcases Nat.lt_succ_iff_lt_or_eq.mp h with h | h
    · exact .inl h
    · obtain rfl : q = k := Fin.ext h
      exact .inr (.inl hpar)
  case exitReparented st op k hk => exact fun _ => .inl (Nat.lt_of_lt_of_le q.isLt (Nat.le_of_not_lt hk))
  case write hw =>
    cases hw
    case give k st op =>
      intro h
      rcases Nat.lt_or_eq_of_le (show q.val ≤ k.val from h) with h | h
      · exact .inl h
      · obtain rfl : q = k := Fin.ext h
        exact .inr (.inr ⟨_, rfl⟩)
    all_goals exact False.elim
  case exitReleaseChild st op k => exact fun h => .inl (Nat.lt_succ_iff.mp h)
  all_goals simp [Act.pc, Pc.rid, Exit.rid]
  all_goals grind

theorem code_exiting (hexit : pc.exiting = false) : ∀ a ∈ code s p ch pc, a.pc.exiting = true → p ≠ initproc := by
  intro a ha
  cases code_step ha
  case call o ho => cases o <;> simp_all [Act.pc, Op.entry, Pc.exiting, Op.allowed]
  case write hw => cases hw <;> simp_all [Act.pc, Pc.exiting]
  all_goals simp_all [Act.pc, Pc.exiting]

theorem QuietMove.family (h : QuietMove s c q pc) : pc.op = (s.thread q).op ∧ pc.exiting = (s.thread q).exiting ∧
    (∀ k, pc.child = some k → (s.thread q).child = some k) ∧ ∀ r, pc.rid r → (s.thread q).rid r := by
  cases h with
  | none => simp
  | resume hc =>
    generalize s.thread q = pc
    cases pc with
    | yield i k => cases i <;> simp [Pc.resume, Pc.op, Pc.exiting, Pc.child, Pc.rid]
    | sleep w i => cases i <;> simp [Pc.resume, Pc.op, Pc.exiting, Pc.child, Pc.rid]
    | _ => simp [Pc.resume, Pc.op, Pc.exiting, Pc.child, Pc.rid]
  | timer hc hk => simp [Pc.op, Pc.exiting, Pc.child, Pc.rid]
  | device hc hk chan => simp [Pc.op, Pc.exiting, Pc.child, Pc.rid]

/-! ## The invariant -/

structure Family (s : State M C) : Prop where
  init : (s.thread initproc).exiting = false
  unused : ∀ q, (s.proc q).state = .unused → (s.proc q).parent = none
  child : ∀ p k, (s.thread p).child = some k → (s.proc k).parent = some p
  op : ∀ p op, (s.thread p).op = some op → (s.proc p).parent = some op ∨ (s.proc p).parent = some initproc
  rid : ∀ p q, (s.thread p).rid q → (s.proc q).parent ≠ some p
  born_init : s.born initproc = 0
  born_lt : ∀ q, (s.proc q).state ≠ .unused → s.born q < s.births
  born_parent : ∀ q r, (s.proc q).parent = some r → s.born r < s.born q

theorem family_boot : Family (State.boot M C) where
  init := by simp [State.boot, Pc.exiting]
  unused q h := by by_cases hq : q = initproc <;> simp_all [State.boot]
  child p k h := by by_cases hp : p = initproc <;> simp_all [State.boot, Pc.child]
  op p op h := by by_cases hp : p = initproc <;> simp_all [State.boot, Pc.op]
  rid p q _ := by by_cases hq : q = initproc <;> simp [State.boot, hq]
  born_init := rfl
  born_lt q _ := by simp [State.boot]
  born_parent q r h := by by_cases hq : q = initproc <;> simp [State.boot, hq] at h

namespace Family

theorem change_parent (hf : Family s) (hi : Inv s) {x : Proc} (h : Change s t c q x) :
    x.parent = (s.proc q).parent ∨
    (x.parent = some initproc ∧ ∃ p status op, t.thread p = .exit status (.releaseChild op q) ∧
      s.thread p = .exit status (.give op q) ∧ (s.proc q).parent = some p) ∨
    (∃ p, x.parent = some p ∧ t.thread p = .fork (.done q) ∧ s.thread p = .fork (.fill q) ∧ s.thread q = .dead ∧
      t.born q = s.births) ∨
    (x.parent = none ∧ ∃ p addr, t.thread p = .wait addr (.releaseFound q) ∧ s.thread p = .wait addr (.test q) ∧
      s.thread q = .dead) := by
  cases h with
  | give hc hto hpc => exact .inr (.inl ⟨rfl, _, _, _, hto, hpc, hf.child _ q (by rw [hpc]; rfl)⟩)
  | fail hc hpc => exact .inl (by rw [hf.unused q (hi.filling _ q hpc)]; rfl)
  | kill => exact .inl rfl
  | spawn hc hto hpc hborn => exact .inr (.inr (.inl ⟨_, rfl, hto, hpc, hi.dead_of_fill hc hpc, hborn⟩))
  | reap hc hto hpc hst => exact .inr (.inr (.inr ⟨rfl, _, _, hto, hpc, hi.dead_of_test hc hpc hst⟩))
  | _ => exact .inl rfl

variable [DecidableEq C]

section

variable (hf : Family s) (hi : Inv s) (h : step s (c, ch) = some t)

include hf hi h

theorem step_init : (t.thread initproc).exiting = false := by
  have hmove := step_move hi h initproc
  generalize t.thread initproc = pc at hmove
  cases hmove with
  | quiet hq => rw [hq.family.2.1]; exact hf.init
  | act hc ha => exact Bool.eq_false_iff.mpr fun he => code_exiting hf.init _ ha he rfl
  | spawn hc hpc => rfl

theorem step_unused (hst : (t.proc q).state = .unused) : (t.proc q).parent = none := by
  have hchange := step_change hi h q
  generalize t.proc q = x at hchange hst
  have hold := hf.unused q
  cases hchange with
  | kill =>
    refine hold ?_
    simp only [Proc.kill] at hst
    split at hst
    · cases hst
    · exact hst
  | give hc hto hpc => simpa [hold hst] using hf.child _ q (by rw [hpc]; rfl)
  | number hc hpc hst' => exact hold hst'
  | fail | reap => rfl
  | same | tidy => exact hold hst
  | _ => cases hst

theorem step_child {k : Slot} (hk : (t.thread p).child = some k) : (t.proc k).parent = some p := by
  -- before the step, and the parent of the entry has not changed since
  have hpar : (s.proc k).parent = some p := by
    have hmove := step_move hi h p
    generalize t.thread p = pc at hmove hk
    cases hmove with
    | quiet hq => exact hf.child p k (hq.family.2.2.1 k hk)
    | act hc ha =>
      rcases code_child (hi.wf p) _ ha hk with ⟨h, -⟩ | ⟨h, -⟩
      · exact hf.child p k h
      · exact h
    | spawn hc hpc => cases hk
  rcases hf.change_parent hi (step_change hi h k) with hsame | ⟨-, r, status, op, hto, -, hpar'⟩ |
    ⟨r, -, -, hpc, -⟩ | ⟨-, r, addr, hto, hpc, -⟩
  · rw [hsame, hpar]
  · obtain rfl : p = r := by simpa [hpar] using hpar'
    simp [hto, Pc.child, Exit.child] at hk
  · simp [hf.unused k (hi.filling r k hpc)] at hpar
  · have hpar' := hf.child r k (by rw [hpc]; rfl)
    obtain rfl : p = r := by simpa [hpar] using hpar'
    simp [hto, Pc.child, Wait.child] at hk

theorem step_op {op : Slot} (hop : (t.thread p).op = some op) :
    (t.proc p).parent = some op ∨ (t.proc p).parent = some initproc := by
  have hold : (s.proc p).parent = some op ∨ (s.proc p).parent = some initproc := by
    have hmove := step_move hi h p
    generalize t.thread p = pc at hmove hop
    cases hmove with
    | quiet hq => exact hf.op p op (hq.family.1 ▸ hop)
    | act hc ha =>
      rcases code_op _ ha hop with h | h
      · exact hf.op p op h
      · exact .inl h
    | spawn hc hpc => cases hop
  rcases hf.change_parent hi (step_change hi h p) with hsame | ⟨h, -⟩ | ⟨r, -, -, -, hdead, -⟩ | ⟨-, r,
    addr, -, -, hdead⟩
  · rw [hsame]; exact hold
  · exact .inr h
  · rcases step_dead hi h hdead with h | h <;> simp [h, Pc.op] at hop
  · rcases step_dead hi h hdead with h | h <;> simp [h, Pc.op] at hop

theorem step_rid (hr : (t.thread p).rid q) : (t.proc q).parent ≠ some p := by
  have hpi : p ≠ initproc := by
    rintro rfl
    exact absurd (Pc.exiting_of_rid hr) (by simp [hf.step_init hi h])
  intro hpar
  rcases hf.change_parent hi (step_change hi h q) with hsame | ⟨h', -⟩ | ⟨r, h', hto, -⟩ | ⟨h', -⟩
  · rw [hsame] at hpar
    have hnot : ¬ (s.thread p).rid q := fun hr => hf.rid p q hr hpar
    rcases step_cases hi h with ⟨p0, a, hc, ha, ht⟩ | hquiet
    · by_cases hp : p = p0
      · subst hp
        rw [perform_self ht] at hr
        rcases code_rid (hi.wf p) a ha hr with h | h | ⟨pc, rfl⟩
        · exact hnot h
        · exact h hpar
        · cases ht
          simp only [Function.update_self] at hsame
          rw [← hsame] at hpar
          exact hpi (by simpa using hpar.symm)
      · rcases perform_thread ht hp with h | ⟨pc, -, h⟩
        · exact hnot (h ▸ hr)
        · simp [h, Pc.rid] at hr
    · exact hnot ((hquiet.thread p).family.2.2.2 q hr)
  · rw [h'] at hpar
    exact hpi (by simpa using hpar.symm)
  · obtain rfl : r = p := by simpa [h'] using hpar
    simp [hto, Pc.rid] at hr
  · simp [h'] at hpar

end

omit [DecidableEq C] in
theorem born_of_spawn (hf : Family s) (hi : Inv s) (hc : (s.cpu c).pc = .away p) (hpc : s.thread p = .fork (.fill q)) :
    p ≠ q ∧ q ≠ initproc ∧ s.born p < s.births ∧ ∀ r, (s.proc r).parent ≠ some q := by
  have hst : (s.proc p).state = .running := by rw [(hi.away c p hc).2, hpc]; rfl
  have hdead := hi.dead_of_fill hc hpc
  refine ⟨?_, ?_, hf.born_lt p (by simp [hst]), fun r => hf.rid q r (by rw [hdead]; trivial)⟩
  · rintro rfl
    simp [hpc] at hdead
  · rintro rfl
    have := hf.init
    simp [hdead, Pc.exiting] at this

theorem step_born (hi : Inv s) (h : step s (c, ch) = some t) :
    (t.born = s.born ∧ t.births = s.births) ∨ ∃ p q pc, (s.cpu c).pc = .away p ∧ s.thread p = .fork (.fill q) ∧
      code s p ch (s.thread p) = some (.spawn q pc) ∧ t.born = Function.update s.born q s.births ∧
      t.births = s.births + 1 := by
  rcases step_cases hi h with ⟨p, a, hc, ha, ht⟩ | hquiet
  case inr => exact .inl ⟨hquiet.born, hquiet.births⟩
  case inl =>
  cases a with
  | spawn q pc =>
    have hs := code_special (hi.wf p) _ ha
    cases ht
    exact .inr ⟨p, q, pc, hc, hs.1, ha, rfl, rfl⟩
  | acquire r pc =>
    obtain ⟨-, rfl⟩ := perform_acquire.mp ht
    exact .inl ⟨rfl, rfl⟩
  | acquireLk pc =>
    obtain ⟨-, rfl⟩ := perform_acquireLk.mp ht
    exact .inl ⟨rfl, rfl⟩
  | _ => cases ht; exact .inl ⟨rfl, rfl⟩

theorem born_same (hi : Inv s) (h : step s (c, ch) = some t) (hq : (s.proc q).state ≠ .unused) :
    t.born q = s.born q := by
  rcases step_born hi h with ⟨h, -⟩ | ⟨p, r, -, hc, hpc, -, h, -⟩
  · rw [h]
  · have hne : q ≠ r := by
      rintro rfl
      exact hq (hi.filling p q hpc)
    rw [h, Function.update_of_ne hne]

section

variable (hf : Family s) (hi : Inv s) (h : step s (c, ch) = some t)

include hf hi h

theorem step_born_lt (hq : (t.proc q).state ≠ .unused) : t.born q < t.births := by
  by_cases hold : (s.proc q).state = .unused
  · obtain ⟨h1, h2, -⟩ := ((step_change hi h q).of_unused hi hold).resolve_left hq
    omega
  · have hlt := hf.born_lt q hold
    rw [born_same hi h hold]
    rcases step_born hi h with ⟨-, h⟩ | ⟨-, -, -, -, -, -, -, h⟩ <;> omega

theorem step_born_init : t.born initproc = 0 := by
  rcases step_born hi h with ⟨h, -⟩ | ⟨p, q, -, hc, hpc, -, h, -⟩
  · rw [h]; exact hf.born_init
  · rw [h, Function.update_of_ne (hf.born_of_spawn hi hc hpc).2.1.symm]
    exact hf.born_init

theorem step_born_parent (hpar : (t.proc q).parent = some r) : t.born r < t.born q := by
  have hused : ∀ r, (s.proc q).parent = some r → (s.proc q).state ≠ .unused := by
    intro r hr hst
    simp [hf.unused q hst] at hr
  rcases hf.change_parent hi (step_change hi h q) with hsame | ⟨h', p, status, op, -, -, hpar'⟩ |
    ⟨p, h', hto, hpc, -, hborn⟩ | ⟨h', -⟩
  · rw [hsame] at hpar
    rw [born_same hi h (hused r hpar)]
    have hlt := hf.born_parent q r hpar
    rcases step_born hi h with ⟨h, -⟩ | ⟨p', q', -, hc, hpc, -, h, -⟩
    · rwa [h]
    · have hne : r ≠ q' := by
        rintro rfl
        exact (hf.born_of_spawn hi hc hpc).2.2.2 q hpar
      rwa [h, Function.update_of_ne hne]
  · obtain rfl : initproc = r := by simpa [h'] using hpar
    have hlt := hf.born_parent q p hpar'
    rw [born_same hi h (hused p hpar'), hf.step_born_init hi h]
    omega
  · obtain rfl : p = r := by simpa [h'] using hpar
    obtain ⟨c', hc'⟩ := hi.exists_away (by rw [hpc]; rfl)
    obtain ⟨-, -, hlt, -⟩ := hf.born_of_spawn hi hc' hpc
    have hst : (s.proc p).state ≠ .unused := by simp [(hi.away c' p hc').2, hpc, Pc.shows]
    rw [hborn, born_same hi h hst]
    exact hlt
  · simp [h'] at hpar

end

theorem step (hf : Family s) (hi : Inv s) {e : C × Choice M} (h : step s e = some t) : Family t where
  init := hf.step_init hi h
  unused _ := hf.step_unused hi h
  child _ _ := hf.step_child hi h
  op _ _ := hf.step_op hi h
  rid _ _ := hf.step_rid hi h
  born_init := hf.step_born_init hi h
  born_lt _ := hf.step_born_lt hi h
  born_parent _ _ := hf.step_born_parent hi h

end Family

end Xv6.Sched

import Xv6.Sched.Inv

/-!
# What one step can do

A step of a CPU is an action of the process it runs, or it is quiet: the scheduler or an interrupt, which change
no more than states of processes that the CPU has locked. Either way an entry of the table changes only under its
lock.
-/

namespace Xv6.Sched

open Function (update_of_ne)

variable {M : Monitor} {C : Type} {s t : State M C} {c c' : C} {p q : Slot} {ch : Choice M} {a : Act M}
variable {x : Proc}

/-- What a quiet step of CPU `c` can do to the thread of process `q`. -/
inductive QuietMove (s : State M C) (c : C) (q : Slot) : Pc M.Loc → Prop
  | none : QuietMove s c q (s.thread q)
  | resume (hc : (s.cpu c).pc = .going q) : QuietMove s c q (s.thread q).resume
  | timer (hc : (s.cpu c).pc = .away q) (hk : (s.thread q).interruptible = true) :
      QuietMove s c q (.yield .acquire (s.thread q))
  | device (hc : (s.cpu c).pc = .away q) (hk : (s.thread q).interruptible = true) (chan : Chan) :
      QuietMove s c q (.scan (.wakeup chan) (.acquire 0) (s.thread q))

/-- What a quiet step of CPU `c` can do to entry `q`. -/
inductive QuietChange (s : State M C) (c : C) (q : Slot) : Proc → Prop
  | none : QuietChange s c q (s.proc q)
  | wakeup (hl : s.lock q = some c) (chan : Chan) : QuietChange s c q ((s.proc q).wakeup chan)
  | run (hl : s.lock q = some c) (hst : (s.proc q).state = .runnable) :
      QuietChange s c q { s.proc q with state := .running }

/-- A step that is not an action of a process. -/
structure Quiet (s t : State M C) (c : C) : Prop where
  thread : ∀ q, QuietMove s c q (t.thread q)
  proc : ∀ q, QuietChange s c q (t.proc q)
  lk : t.lk = s.lk
  data : t.data = s.data
  born : t.born = s.born
  births : t.births = s.births
  events : t.events = s.events

theorem Quiet.refl_thread (hth : t.thread = s.thread) (hproc : ∀ q, QuietChange s c q (t.proc q)) (hlk : t.lk = s.lk)
    (hdata : t.data = s.data) (hborn : t.born = s.born) (hbirths : t.births = s.births)
    (hevents : t.events = s.events) : Quiet s t c :=
  ⟨fun q => by rw [hth]; exact .none, hproc, hlk, hdata, hborn, hbirths, hevents⟩

variable [DecidableEq C]

theorem intrStep_quiet (hi : Inv s) {chan : Chan} {i : Scan} {k : Nat} (hc : (s.cpu c).pc = .intr chan i k)
    (h : intrStep s c chan k i = some t) : Quiet s t c := by
  cases i with
  | acquire j =>
    simp only [intrStep] at h
    split at h
    case isTrue hj =>
      split at h
      case isFalse => cases h
      case isTrue =>
      cases h
      exact .refl_thread rfl (fun q => .none) rfl rfl rfl rfl rfl
    case isFalse =>
      cases h
      exact .refl_thread rfl (fun q => .none) rfl rfl rfl rfl rfl
  | body j =>
    cases h
    refine .refl_thread rfl (fun q => ?_) rfl rfl rfl rfl rfl
    by_cases hq : q = j
    · subst hq
      have hl : s.lock q = some c := (hi.locks q c).mpr (by simp [State.locks, hc, CpuPc.locks, Scan.locks])
      simpa using QuietChange.wakeup hl chan
    · simpa [update_of_ne hq] using QuietChange.none
  | release j d =>
    cases h
    exact .refl_thread rfl (fun q => .none) rfl rfl rfl rfl rfl

theorem step_cases (hi : Inv s) (h : step s (c, ch) = some t) :
    (∃ p a, (s.cpu c).pc = .away p ∧ code s p ch (s.thread p) = some a ∧ perform s c p a = some t) ∨
      Quiet s t c := by
  simp only [step] at h
  split at h
  case h_1 k hc =>
    right
    cases ch with
    | go =>
      dsimp only at h
      split at h
      case isTrue hk =>
        split at h
        case isFalse => cases h
        case isTrue hfree =>
        cases h
        exact .refl_thread rfl (fun q => .none) rfl rfl rfl rfl rfl
      case isFalse =>
        cases h
        exact .refl_thread rfl (fun q => .none) rfl rfl rfl rfl rfl
    | device chan =>
      cases h
      exact .refl_thread rfl (fun q => .none) rfl rfl rfl rfl rfl
    | _ => cases h
  case h_2 chan i k hc => exact .inr (intrStep_quiet hi hc h)
  case h_3 k hc =>
    right
    split at h
    case isTrue hst =>
      cases h
      refine .refl_thread rfl (fun q => ?_) rfl rfl rfl rfl rfl
      by_cases hq : q = k
      · subst hq
        have hl : s.lock q = some c := (hi.locks q c).mpr (by simp [State.locks, hc, CpuPc.locks])
        simpa using QuietChange.run hl hst
      · simpa [update_of_ne hq] using QuietChange.none
    case isFalse =>
      cases h
      exact .refl_thread rfl (fun q => .none) rfl rfl rfl rfl rfl
  case h_4 k hc =>
    right
    cases h
    refine ⟨fun q => ?_, fun q => .none, rfl, rfl, rfl, rfl, rfl⟩
    by_cases hq : q = k
    · subst hq
      simpa using QuietMove.resume hc
    · simpa [update_of_ne hq] using QuietMove.none
  case h_5 p hc =>
    cases ch with
    | timer =>
      right
      simp only [procStep] at h
      split at h
      case isFalse => cases h
      case isTrue hk =>
      cases h
      refine ⟨fun q => ?_, fun q => .none, rfl, rfl, rfl, rfl, rfl⟩
      by_cases hq : q = p
      · subst hq
        simpa using QuietMove.timer hc hk.1
      · simpa [update_of_ne hq] using QuietMove.none
    | device chan =>
      right
      simp only [procStep] at h
      split at h
      case isFalse => cases h
      case isTrue hk =>
      cases h
      refine ⟨fun q => ?_, fun q => .none, rfl, rfl, rfl, rfl, rfl⟩
      by_cases hq : q = p
      · subst hq
        simpa using QuietMove.device hc hk chan
      · simpa [update_of_ne hq] using QuietMove.none
    | _ =>
      obtain ⟨a, ha, ht⟩ := Option.bind_eq_some_iff.mp h
      exact .inl ⟨p, a, hc, ha, ht⟩
  case h_6 k hc =>
    cases h
    exact .inr (.refl_thread rfl (fun q => .none) rfl rfl rfl rfl rfl)
  case h_7 k hc =>
    cases h
    exact .inr (.refl_thread rfl (fun q => .none) rfl rfl rfl rfl rfl)

/-! ## The entries of the table -/

/-- What a step of CPU `c` can do to entry `q`, and where that leaves the process that did it. -/
inductive Change (s t : State M C) (c : C) (q : Slot) : Proc → Prop
  | same : Change s t c q (s.proc q)
  | wake (hst : (s.proc q).state = .sleeping) : Change s t c q { s.proc q with state := .runnable }
  | run (hst : (s.proc q).state = .runnable) : Change s t c q { s.proc q with state := .running }
  | yield {k : Pc M.Loc} (hc : (s.cpu c).pc = .away q) (hpc : s.thread q = .yield .mark k) :
      Change s t c q { s.proc q with state := .runnable }
  | sleep {w : Sleeper M.Loc} (hc : (s.cpu c).pc = .away q) (hpc : s.thread q = .sleep w .mark) :
      Change s t c q { s.proc q with chan := some (w.chan q), state := .sleeping }
  | tidy {w : Sleeper M.Loc} (hc : (s.cpu c).pc = .away q) (hpc : s.thread q = .sleep w .tidy) :
      Change s t c q { s.proc q with chan := none }
  | kill {p : Slot} {k : Pc M.Loc} (hc : (s.cpu c).pc = .away p)
      (hpc : s.thread p = .scan (.kill (s.proc q).pid) (.body q) k) : Change s t c q (s.proc q).kill
  | give {p op : Slot} {status : BitVec 32} (hc : (s.cpu c).pc = .away p)
      (hto : t.thread p = .exit status (.releaseChild op q)) (hpc : s.thread p = .exit status (.give op q)) :
      Change s t c q { s.proc q with parent := some initproc }
  | fail {p : Slot} (hc : (s.cpu c).pc = .away p) (hpc : s.thread p = .fork (.fill q)) : Change s t c q Proc.free
  | number {p : Slot} (hc : (s.cpu c).pc = .away p) (hpc : s.thread p = .fork (.test q))
      (hst : (s.proc q).state = .unused) : Change s t c q { s.proc q with pid := s.nextpid }
  | spawn {p : Slot} (hc : (s.cpu c).pc = .away p) (hto : t.thread p = .fork (.done q))
      (hpc : s.thread p = .fork (.fill q)) (hborn : t.born q = s.births) (hbirths : t.births = s.births + 1) :
      Change s t c q { s.proc q with parent := some p, state := .runnable }
  | finish {op : Slot} {status : BitVec 32} (hc : (s.cpu c).pc = .away q)
      (hpc : s.thread q = .exit status (.finish op)) :
      Change s t c q { s.proc q with xstate := status, state := .zombie }
  | reap {p : Slot} {addr : Bool} (hc : (s.cpu c).pc = .away p) (hto : t.thread p = .wait addr (.releaseFound q))
      (hpc : s.thread p = .wait addr (.test q)) (hst : (s.proc q).state = .zombie) : Change s t c q Proc.free

omit [DecidableEq C] in
theorem Change.wakeup (chan : Chan) : Change s t c q ((s.proc q).wakeup chan) := by
  rcases (s.proc q).wakeup_cases chan with h | ⟨hst, h⟩
  · rw [h]; exact .same
  · rw [h]; exact .wake hst

omit [DecidableEq C] in
theorem QuietChange.change (h : QuietChange s c q x) : Change s t c q x := by
  cases h with
  | none => exact .same
  | wakeup hl chan => exact .wakeup chan
  | run hl hst => exact .run hst

omit [DecidableEq C] in
theorem Writes.change {pc : Pc M.Loc} (hc : (s.cpu c).pc = .away p) (hto : t.thread p = pc)
    (hw : Writes s p (s.thread p) q x pc) : Change s t c q x := by
  generalize hpc : s.thread p = pc0 at hw
  cases hw with
  | yield => exact .yield hc hpc
  | wakeup | init => exact .wakeup _
  | kill pid _ k hpid => exact .kill hc (hpid ▸ hpc)
  | sleep => exact .sleep hc hpc
  | tidy | tidyWait => exact .tidy hc hpc
  | give => exact .give hc hto hpc
  | fail => exact .fail hc hpc

theorem perform_self (h : perform s c p a = some t) : t.thread p = a.pc := by
  cases a with
  | acquire r pc =>
    obtain ⟨-, rfl⟩ := perform_acquire.mp h
    simp [Act.pc]
  | acquireLk pc =>
    obtain ⟨-, rfl⟩ := perform_acquireLk.mp h
    simp [Act.pc]
  | _ => cases h; simp [Act.pc]

theorem step_change (hi : Inv s) (h : step s (c, ch) = some t) (q : Slot) : Change s t c q (t.proc q) := by
  rcases step_cases hi h with ⟨p, a, hc, ha, ht⟩ | hquiet
  case inr => exact (hquiet.proc q).change
  case inl =>
  have hs := code_special (hi.wf p) a ha
  have hto := perform_self ht
  cases a with
  | write r x pc =>
    cases ht
    by_cases hq : q = r
    · subst hq
      simpa using hs.change hc hto
    · simpa [update_of_ne hq] using Change.same
  | number r pc =>
    cases ht
    by_cases hq : q = r
    · subst hq
      simpa using Change.number hc hs.1 hs.2.2
    · simpa [update_of_ne hq] using Change.same
  | spawn r pc =>
    cases ht
    by_cases hq : q = r
    · subst hq
      simpa using Change.spawn hc (hto.trans hs.2) hs.1 (by simp) rfl
    · simpa [update_of_ne hq] using Change.same
  | finish op status pc =>
    cases ht
    by_cases hq : q = p
    · subst hq
      simpa using Change.finish hc hs.1
    · by_cases hop : q = op
      · subst hop
        simpa [update_of_ne hq] using Change.wakeup _
      · simpa [update_of_ne hq, update_of_ne hop] using Change.same
  | reap r pc =>
    cases ht
    obtain ⟨addr, hpc, hpc', hst⟩ := hs
    by_cases hq : q = r
    · subst hq
      simpa using Change.reap hc (hto.trans hpc') hpc hst
    · simpa [update_of_ne hq] using Change.same
  | acquire r pc =>
    obtain ⟨-, rfl⟩ := perform_acquire.mp ht
    exact .same
  | acquireLk pc =>
    obtain ⟨-, rfl⟩ := perform_acquireLk.mp ht
    exact .same
  | _ => cases ht; exact .same

omit [DecidableEq C] in
theorem Inv.dead_of_locked (hi : Inv s) (hc : (s.cpu c).pc = .away p) (hl : q ∈ (s.thread p).locks p)
    (hshows : (s.thread p).shows = .running) (hst : (s.proc q).state = .zombie ∨ (s.proc q).state = .unused) :
    s.thread q = .dead := by
  have hne : (s.cpu c).pc.engaged ≠ some q := by
    intro he
    obtain rfl : p = q := by simpa [hc, CpuPc.engaged] using he
    rw [(hi.away c p hc).2, hshows] at hst
    simp at hst
  have hno := hi.unengaged (hi.lock_of_mem hc hl) hne (by rcases hst with h | h <;> simp [h])
  exact Pc.dead_of_rests (hi.rest q (Inv.resting hno)) hst

omit [DecidableEq C] in
theorem Inv.dead_of_test (hi : Inv s) {addr : Bool} (hc : (s.cpu c).pc = .away p)
    (hpc : s.thread p = .wait addr (.test q)) (hst : (s.proc q).state = .zombie) : s.thread q = .dead :=
  hi.dead_of_locked hc (by rw [hpc]; exact List.mem_cons_self ..) (by rw [hpc]; rfl) (.inl hst)

omit [DecidableEq C] in
theorem Inv.dead_of_fill (hi : Inv s) (hc : (s.cpu c).pc = .away p) (hpc : s.thread p = .fork (.fill q)) :
    s.thread q = .dead :=
  hi.dead_of_locked hc (by rw [hpc]; exact List.mem_cons_self ..) (by rw [hpc]; rfl) (.inr (hi.filling p q hpc))

omit [DecidableEq C] in
theorem Change.of_alive (hi : Inv s) (h : Change s t c q x) (hq : s.thread q ≠ .dead) :
    x.pid = (s.proc q).pid ∧
    (x.parent = (s.proc q).parent ∨ x.parent = some initproc ∧ ∃ p status op, (s.cpu c).pc = .away p ∧
      s.thread p = .exit status (.give op q)) ∧
    (x.chan = (s.proc q).chan ∨ (s.cpu c).pc = .away q ∧ ∃ w, s.thread q = .sleep w .mark ∨ s.thread q =
    .sleep w .tidy) ∧
    (x.state = .sleeping → (s.proc q).state = .sleeping ∨ (s.cpu c).pc = .away q ∧ ∃ w, s.thread q = .sleep w .mark) ∧
    (x.state = .zombie → (s.proc q).state = .zombie ∨ (s.cpu c).pc = .away q ∧
      ∃ status op, s.thread q = .exit status (.finish op)) := by
  cases h with
  | kill hc hpc => simp only [Proc.kill]; split <;> simp_all
  | give hc hto hpc => exact ⟨rfl, .inr ⟨rfl, _, _, _, hc, hpc⟩, .inl rfl, .inl, .inl⟩
  | fail hc hpc => exact absurd (hi.dead_of_fill hc hpc) hq
  | number hc hpc hst =>
    exact absurd (hi.dead_of_locked hc (by rw [hpc]; exact List.mem_cons_self ..) (by rw [hpc]; rfl) (.inr hst)) hq
  | spawn hc hto hpc => exact absurd (hi.dead_of_fill hc hpc) hq
  | reap hc hto hpc hst => exact absurd (hi.dead_of_test hc hpc hst) hq
  | _ => simp_all

omit [DecidableEq C] in
theorem Change.of_unused (hi : Inv s) (h : Change s t c q x) (hst : (s.proc q).state = .unused) :
    x.state = .unused ∨ t.born q = s.births ∧ t.births = s.births + 1 ∧ ∃ p, (s.cpu c).pc = .away p ∧
      s.thread p = .fork (.fill q) := by
  have hshows : (s.cpu c).pc = .away q → (s.thread q).shows = .unused := fun hc => by rw [← (hi.away c q hc).2, hst]
  cases h with
  | kill hc hpc => exact .inl (by simp [Proc.kill, hst])
  | spawn hc hto hpc hborn hbirths => exact .inr ⟨hborn, hbirths, _, hc, hpc⟩
  | yield hc hpc | sleep hc hpc => simp [hpc, Pc.shows, hc] at hshows
  | finish hc hpc => simp [hpc, Pc.shows, Exit.shows, hc] at hshows
  | fail => exact .inl rfl
  | wake hst' | run hst' | reap hc hto hpc hst' => simp [hst] at hst'
  | _ => exact .inl hst

/-! ## The threads -/

/-- What a step of CPU `c` can do to the thread of process `q`. -/
inductive Move (s : State M C) (c : C) (ch : Choice M) (q : Slot) : Pc M.Loc → Prop
  | quiet {pc : Pc M.Loc} (h : QuietMove s c q pc) : Move s c ch q pc
  | act {a : Act M} (hc : (s.cpu c).pc = .away q) (ha : code s q ch (s.thread q) = some a) : Move s c ch q a.pc
  | spawn {p : Slot} (hc : (s.cpu c).pc = .away p) (hpc : s.thread p = .fork (.fill q)) : Move s c ch q .fresh

theorem perform_thread (h : perform s c p a = some t) (hq : q ≠ p) :
    t.thread q = s.thread q ∨ ∃ pc, a = .spawn q pc ∧ t.thread q = .fresh := by
  cases a with
  | spawn r pc =>
    cases h
    by_cases hqr : q = r
    · subst hqr
      exact .inr ⟨pc, rfl, by simp [update_of_ne hq]⟩
    · exact .inl (by simp [update_of_ne hq, update_of_ne hqr])
  | acquire r pc =>
    obtain ⟨-, rfl⟩ := perform_acquire.mp h
    exact .inl (by simp [update_of_ne hq])
  | acquireLk pc =>
    obtain ⟨-, rfl⟩ := perform_acquireLk.mp h
    exact .inl (by simp [update_of_ne hq])
  | _ => cases h; exact .inl (by simp [update_of_ne hq])

theorem step_move (hi : Inv s) (h : step s (c, ch) = some t) (q : Slot) : Move s c ch q (t.thread q) := by
  rcases step_cases hi h with ⟨p, a, hc, ha, ht⟩ | hquiet
  case inr => exact .quiet (hquiet.thread q)
  case inl =>
  by_cases hq : q = p
  · subst hq
    rw [perform_self ht]
    exact .act hc ha
  · rcases perform_thread ht hq with h | ⟨pc, rfl, h⟩
    · rw [h]; exact .quiet .none
    · rw [h]
      exact .spawn hc (code_special (hi.wf p) _ ha).1

theorem step_dead (hi : Inv s) (h : step s (c, ch) = some t) (hq : s.thread q = .dead) :
    t.thread q = .dead ∨ t.thread q = .fresh := by
  have hmove := step_move hi h q
  generalize t.thread q = pc at hmove
  cases hmove with
  | quiet hm =>
    cases hm with
    | none => exact .inl hq
    | resume hc => rw [hq]; exact .inl rfl
    | timer hc hk => simp [hq, Pc.interruptible] at hk
    | device hc hk => simp [hq, Pc.interruptible] at hk
  | act hc ha => simp [hq, code] at ha
  | spawn hc hpc => exact .inr rfl

/-! ## Channels -/

/-- A process in `sleep` has its channel set. -/
def Sleep.marked : Sleep → Bool
  | .sched | .saved | .tidy => true
  | _ => false

omit [DecidableEq C] in
theorem code_marked (hwf : (s.thread p).Wf) : ∀ a ∈ code s p ch (s.thread p), ∀ w i, a.pc = .sleep w i →
    i.marked = true → (∃ i', s.thread p = .sleep w i' ∧ i'.marked = true ∧ ∃ pc, a = .swtch pc) ∨
      ∃ pc, a = .write p { s.proc p with chan := some (w.chan p), state := .sleeping } pc := by
  intro a ha
  generalize s.thread p = pc at hwf ha
  cases code_step ha
  case call op _ => cases op <;> simp [Act.pc, Op.entry, Sleep.marked]
  case yieldRelease => exact fun w i h => absurd h (Pc.returns.ne_sleep (.inl hwf) w i)
  case scanEnd => exact fun w i h => absurd h (Pc.returns.ne_sleep hwf w i)
  case scanDone => exact fun w i h => absurd h (Pc.returns.ne_sleep hwf w i)
  case write hw => cases hw <;> simp [Act.pc, Sleep.marked]
  all_goals simp [Act.pc, Sleep.marked]

omit [DecidableEq C] in
theorem QuietChange.chan (h : QuietChange s c q x) : x.chan = (s.proc q).chan := by
  cases h with
  | wakeup hl chan => rcases (s.proc q).wakeup_cases chan with h | ⟨-, h⟩ <;> rw [h]
  | _ => rfl

def Marked (s : State M C) : Prop :=
  ∀ p w i, s.thread p = .sleep w i → i.marked = true → (s.proc p).chan = some (w.chan p)

omit [DecidableEq C] in
theorem marked_boot : Marked (State.boot M C) := by
  intro p w i h
  by_cases hp : p = initproc <;> simp [State.boot, hp] at h

theorem Marked.step (hm : Marked s) (hi : Inv s) (h : step s (c, ch) = some t) : Marked t := by
  intro p w i hpc hmark
  rcases step_cases hi h with ⟨p0, a, hc, ha, ht⟩ | hquiet
  · by_cases hp : p = p0
    · subst hp
      rw [perform_self ht] at hpc
      rcases code_marked (hi.wf p) a ha w i hpc hmark with ⟨i', hpc', hmark', pc, rfl⟩ | ⟨pc, rfl⟩
      · cases ht
        exact hm p w i' hpc' hmark'
      · cases ht
        simp
    · obtain hsame : t.thread p = s.thread p :=
        (perform_thread ht hp).resolve_right fun ⟨_, _, hf⟩ => by simp [hf] at hpc
      rw [hsame] at hpc
      obtain ⟨-, -, hchan | ⟨hc', -⟩, -⟩ := (step_change hi h p).of_alive hi (by simp [hpc])
      · rw [hchan]
        exact hm p w i hpc hmark
      · exact absurd (by simpa [hc] using hc'.symm) hp
  · rw [(hquiet.proc p).chan]
    have hmove := hquiet.thread p
    generalize t.thread p = pc at hmove hpc
    cases hmove with
    | none => exact hm p w i hpc hmark
    | resume hg => exact hm p w .saved (Pc.resume_eq_sleep (hi.going c p hg).1 hpc).1 rfl
    | timer => cases hpc
    | device => cases hpc

/-! ## One CPU for each process -/

/-- CPU `c` is about to switch to process `p`, is on its kernel stack, or has just left it. -/
def Engaged (s : State M C) (c : C) (p : Slot) : Prop :=
  (s.cpu c).pc = .going p ∨ (s.cpu c).pc = .away p ∨ (s.cpu c).pc = .back p

omit [DecidableEq C] in
theorem engaged_iff : Engaged s c p ↔ (s.cpu c).pc.engaged = some p := by
  unfold Engaged
  cases (s.cpu c).pc <;> simp [CpuPc.engaged]

/-- What the scheduler relies on. -/
structure Exclusive (s : State M C) : Prop where
  /-- `c->proc = p` holds exactly for a CPU that runs `p` or is in a switch to or from it. -/
  proc : ∀ c p, (s.cpu c).proc = some p ↔ Engaged s c p
  one : ∀ c c' p, Engaged s c p → Engaged s c' p → c = c'
  running : ∀ p, (s.proc p).state = .running → ∃ c, Engaged s c p
  /-- From the change of `p->state` to the end of the switch `p->lock` is held. -/
  held : ∀ c p, Engaged s c p → (s.proc p).state ≠ .running → s.lock p = some c
  /-- A saved context is not loaded twice. -/
  resumed : ∀ p, s.resumed p ≤ 1

omit [DecidableEq C] in
theorem Inv.exclusive (hi : Inv s) : Exclusive s where
  proc c p := by rw [engaged_iff, hi.proc c]
  one c c' p h h' := hi.once c c' p (engaged_iff.mp h) (engaged_iff.mp h')
  running p hst := by
    by_contra hno
    have hrest : s.Resting p := fun c => ⟨fun h => hno ⟨c, .inr (.inl h)⟩, fun h => hno ⟨c, .inl h⟩⟩
    have hr := hi.rest p hrest
    rw [hst] at hr
    cases hpc : s.thread p <;> simp [hpc, Pc.rests] at hr
  held c p h hst := by
    rw [hi.locks]
    rcases h with h | h | h
    · exact absurd (hi.going c p h).2 hst
    · rw [State.locks_away h]
      exact Pc.mem_locks_of_shows ((hi.away c p h).2 ▸ hst)
    · simp [State.locks, h, CpuPc.locks]
  resumed := hi.resumed

omit [DecidableEq C] in
theorem Change.of_zombie (hi : Inv s) (h : Change s t c q x) (hz : (s.proc q).state = .zombie) :
    (x.state = .zombie ∧ x.pid = (s.proc q).pid ∧ x.xstate = (s.proc q).xstate) ∨
      (x = Proc.free ∧ ∃ p addr, (s.cpu c).pc = .away p ∧ s.thread p = .wait addr (.test q)) := by
  have hshows : (s.cpu c).pc = .away q → (s.thread q).shows = .zombie := fun hc => by rw [← (hi.away c q hc).2, hz]
  cases h with
  | kill hc hpc => exact .inl ⟨by simp [Proc.kill, hz], rfl, rfl⟩
  | fail hc hpc | spawn hc hto hpc => simp [hi.filling _ q hpc] at hz
  | yield hc hpc | sleep hc hpc | tidy hc hpc => simp [hpc, Pc.shows, hc] at hshows
  | finish hc hpc => simp [hpc, Pc.shows, Exit.shows, hc] at hshows
  | wake hst | run hst | number hc hpc hst => simp [hst] at hz
  | reap hc hto hpc => exact .inr ⟨rfl, _, _, hc, hpc⟩
  | _ => exact .inl ⟨hz, rfl, rfl⟩

theorem step_free (hi : Inv s) (h : step s (c, ch) = some t) (hz : (s.proc q).state = .zombie)
    (hf : (t.proc q).state ≠ .zombie) (c' : C) : ¬ Engaged s c' q := by
  rcases (step_change hi h q).of_zombie hi hz with ⟨hst, -⟩ | ⟨-, p, addr, hc, hpc⟩
  · exact absurd hst hf
  · rw [engaged_iff]
    have hl := hi.lock_of_mem hc (by rw [hpc]; exact List.mem_cons_self ..)
    have hne : (s.cpu c).pc.engaged ≠ some q := by
      intro he
      obtain rfl : p = q := by simpa [hc, CpuPc.engaged] using he
      simp [(hi.away c p hc).2, hpc, Pc.shows] at hz
    exact hi.unengaged hl hne (by simp [hz]) c'

/-- A process is run by one CPU at a time, and its entry is not freed while its kernel stack is in use. -/
theorem one_cpu_for_each_process (h : Reachable s) :
    Exclusive s ∧ ∀ c ch t q, step s (c, ch) = some t → (s.proc q).state = .zombie → (t.proc q).state ≠ .zombie →
      ∀ c', ¬ Engaged s c' q :=
  ⟨h.inv.exclusive, fun _ _ _ _ hstep hz hf c' => step_free h.inv hstep hz hf c'⟩

/-! Concrete runs. -/

section run

instance : DecidableEq Monitor.idle.Loc := inferInstanceAs (DecidableEq Empty)

def slot1 : Slot := ⟨1, one_lt_NPROC⟩
def slot2 : Slot := ⟨2, by decide⟩
def slot3 : Slot := ⟨3, by decide⟩

/-- CPU `c` goes on for `n` steps. -/
def goes (c : C) (n : Nat) : List (C × Choice M) := List.replicate n (c, .go)

/-- `init` in entry 0 makes process 1, which makes process 2, which makes process 3, each on its own CPU. -/
def threeForks : List (Fin 4 × Choice Monitor.idle) :=
  goes 0 4 ++ (0, .call .fork) :: goes 0 7 ++ goes 1 7 ++ (1, .call .fork) :: goes 1 10 ++ goes 2 10 ++
    (2, .call .fork) :: goes 2 13 ++ goes 3 13

theorem one_cpu_for_each_process_threeForks : ∃ s : State Monitor.idle (Fin 4), (s.cpu 3).proc = some slot3 ∧
    Exclusive s ∧ ∀ c ch t q, step s (c, ch) = some t → (s.proc q).state = .zombie → (t.proc q).state ≠ .zombie →
      ∀ c', ¬ Engaged s c' q := by
  obtain ⟨s, hs, hdec⟩ : ∃ s : State Monitor.idle (Fin 4), Reachable s ∧ (s.cpu 3).proc = some slot3 :=
    exists_reachable threeForks (by decide +kernel)
  exact ⟨s, hdec, one_cpu_for_each_process hs⟩

end run

end Xv6.Sched

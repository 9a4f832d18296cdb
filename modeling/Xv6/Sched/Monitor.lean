import Xv6.Sched.Step

/-!
# Functions under a spinlock that sleep and wake up

What has to be checked about the functions of a monitor, one step of their code at a time, so that

* the data keeps its invariant, and every place in the code finds what it expects (`Proto`), and
* no wakeup is lost (`Keeps`): whoever sleeps has a reason to, or the process that has the spinlock is about to
  wake it up.

`sleep` takes the process lock before it gives back the spinlock, and `wakeup` goes through the table one process
lock at a time, with the spinlock held. So a process that the scan has passed was not on its way to sleep.
-/

namespace Xv6.Sched

variable {M : Monitor} {C : Type} {s t : State M C} {c c' : C} {p q r : Slot} {n : Nat} {ch : Choice M}
  {pc : Pc M.Loc} {a : Act M} {d d' : M.Data}

/-- The data after an action. -/
def Act.data (d : M.Data) : Act M → M.Data
  | .update d' _ => d'
  | _ => d

theorem perform_data [DecidableEq C] (h : perform s c p a = some t) : t.data = a.data s.data := by
  cases a with
  | acquire r pc =>
    obtain ⟨-, rfl⟩ := perform_acquire.mp h
    rfl
  | acquireLk pc =>
    obtain ⟨-, rfl⟩ := perform_acquireLk.mp h
    rfl
  | _ => cases h; rfl

theorem Inv.one_holder (hi : Inv s) (hp : (s.thread p).lkHeld = true) (hq : (s.thread q).lkHeld = true) : p = q := by
  obtain ⟨c, hc⟩ := hi.exists_away (Pc.runs_of_lkHeld hp)
  obtain ⟨c', hc'⟩ := hi.exists_away (Pc.runs_of_lkHeld hq)
  have h := (hi.lk c).mpr (by rw [State.lkHeld_away hc]; exact hp)
  have h' := (hi.lk c').mpr (by rw [State.lkHeld_away hc']; exact hq)
  obtain rfl : c = c' := by simpa [h] using h'
  simpa [hc] using hc'

theorem code_data (hlk : pc.lkHeld = false) : ∀ a ∈ code s p ch pc, a.data d = d := by
  intro a ha
  cases code_step ha with
  | update => cases hlk
  | _ => rfl

theorem code_update {pc' : Pc M.Loc} (h : code s p ch pc = some (.update d pc')) :
    ∃ l l' x, pc = .inside l ∧ pc' = .inside l' ∧ ch = .input x ∧
      M.body p (s.proc p).killed x s.data l = some (.update d l') := by
  cases code_step h with
  | update x l _ l' hch hbody => exact ⟨l, l', x, rfl, rfl, hch, hbody⟩

section holder

variable [DecidableEq C]

theorem step_body (hi : Inv s) (h : step s (c, ch) = some t) : t.data = s.data ∨
    ∃ p l l' x, M.body p (s.proc p).killed x s.data l = some (.update t.data l') := by
  rcases step_cases hi h with ⟨p, a, hc, ha, ht⟩ | hquiet
  · rw [perform_data ht]
    cases a with
    | update d pc' =>
      obtain ⟨l, l', x, -, -, -, hbody⟩ := code_update ha
      exact .inr ⟨p, l, l', x, hbody⟩
    | _ => exact .inl rfl
  · exact .inl hquiet.data

theorem step_holder (hi : Inv s) (h : step s (c, ch) = some t) (hlk : (s.thread p).lkHeld = true) :
    (t.thread p = s.thread p ∧ t.data = s.data) ∨
      ∃ a, (s.cpu c).pc = .away p ∧ code s p ch (s.thread p) = some a ∧ perform s c p a = some t := by
  rcases step_cases hi h with ⟨p0, a, hc, ha, ht⟩ | hquiet
  · by_cases hp : p = p0
    · subst hp
      exact .inr ⟨a, hc, ha, ht⟩
    · have hlk0 : (s.thread p0).lkHeld = false := Bool.eq_false_iff.mpr fun h0 => hp (hi.one_holder hlk h0)
      refine .inl ⟨(perform_thread ht hp).resolve_right ?_, (perform_data ht).trans (code_data hlk0 a ha)⟩
      rintro ⟨pc, rfl, -⟩
      have hdead := hi.dead_of_fill hc (code_special (hi.wf p0) _ ha).1
      simp [hdead, Pc.lkHeld] at hlk
  · refine .inl ⟨?_, hquiet.data⟩
    have hmove := hquiet.thread p
    generalize t.thread p = pc at hmove
    cases hmove with
    | none => rfl
    | resume hg =>
      have hres := (hi.going c p hg).1
      simp [Pc.not_resumable (Pc.runs_of_lkHeld hlk)] at hres
    | timer _ hk => simp [(Pc.interruptible_spec hk p).2.1] at hlk
    | device _ hk => simp [(Pc.interruptible_spec hk p).2.1] at hlk

theorem step_data (hi : Inv s) (h : step s (c, ch) = some t) (hno : ∀ p, (s.thread p).lkHeld = false) :
    t.data = s.data := by
  rcases step_cases hi h with ⟨p, a, hc, ha, ht⟩ | hquiet
  · exact (perform_data ht).trans (code_data (hno p) a ha)
  · exact hquiet.data

end holder

/-! ## Preconditions -/

/-- An invariant of the data, and for each place in the code what is known there: with the spinlock (`Valid`), and
before it is acquired (`Pre`), which the other processes must not disturb. -/
structure Proto (M : Monitor) where
  Good : M.Data → Prop
  Pre : Slot → M.Loc → M.Data → Prop
  Valid : Slot → M.Loc → M.Data → Prop
  start : Good M.data
  call : ∀ {d p l}, M.allowed d p l = true → Pre p l d
  enter : ∀ {d p l}, Good d → Pre p l d → Valid p l d
  update : ∀ {p k x d l d' l'}, M.body p k x d l = some (.update d' l') → Good d → Valid p l d →
    Good d' ∧ Valid p l' d' ∧ ∀ q m, q ≠ p → Pre q m d → Pre q m d'
  sleep : ∀ {p k x d l n l'}, M.body p k x d l = some (.sleep n l') → Good d → Valid p l d → Pre p l' d
  wakeup : ∀ {p k x d l n l'}, M.body p k x d l = some (.wakeup n l') → Good d → Valid p l d → Valid p l' d

def Sleeper.fits (R : Proto M) (p : Slot) (d : M.Data) : Sleeper M.Loc → Prop
  | .monitor _ l => R.Pre p l d
  | _ => True

/-- What is known at a position of process `p`. -/
def Pc.fits (R : Proto M) (p : Slot) (d : M.Data) : Pc M.Loc → Prop
  | .yield _ k | .scan _ _ k => k.fits R p d
  | .sleep w _ => w.fits R p d
  | .enter l => R.Pre p l d
  | .inside l => R.Valid p l d
  | _ => True

structure Proto.Holds (R : Proto M) (s : State M C) : Prop where
  inv : R.Good s.data
  fits : ∀ p, (s.thread p).fits R p s.data

variable {R : Proto M}

theorem code_fits (hinv : R.Good s.data) (hfits : pc.fits R p s.data) :
    ∀ a ∈ code s p ch pc, a.pc.fits R p (a.data s.data) ∧ R.Good (a.data s.data) ∧
      ∀ q m, q ≠ p → R.Pre q m s.data → R.Pre q m (a.data s.data) := by
  have hsame : ∀ q m, q ≠ p → R.Pre q m s.data → R.Pre q m s.data := fun _ _ _ h => h
  intro a ha
  cases code_step ha
  case call op hop =>
    cases op with
    | enter l => exact ⟨R.call hop, hinv, hsame⟩
    | _ => exact ⟨trivial, hinv, hsame⟩
  case enter l => exact ⟨R.enter hinv hfits, hinv, hsame⟩
  case update hbody =>
    obtain ⟨h1, h2, h3⟩ := R.update hbody hinv hfits
    exact ⟨h2, h1, h3⟩
  case callSleep hbody => exact ⟨R.sleep hbody hinv hfits, hinv, hsame⟩
  case callWakeup hbody => exact ⟨R.wakeup hbody hinv hfits, hinv, hsame⟩
  case write hw => cases hw <;> exact ⟨hfits, hinv, hsame⟩
  all_goals first | exact ⟨hfits, hinv, hsame⟩ | exact ⟨trivial, hinv, hsame⟩

theorem Pc.fits_stable (hwf : pc.Wf) (hlk : pc.lkHeld = false) (hpre : ∀ m, R.Pre q m d → R.Pre q m d')
    (h : pc.fits R q d) : pc.fits R q d' := by
  induction pc with
  | yield i k ih =>
    obtain ⟨-, hlk', -, -, hwf'⟩ := interruptible_spec hwf q
    exact ih hwf' hlk' h
  | scan w i k ih => exact ih (returns_spec hwf q).2.2.2 hlk h
  | sleep w i =>
    cases w with
    | monitor n l => exact hpre l h
    | _ => trivial
  | enter l => exact hpre l h
  | inside l => cases hlk
  | _ => trivial

theorem Pc.fits_resume (h : pc.fits R p d) : pc.resume.fits R p d := by
  cases pc with
  | yield i k => cases i <;> exact h
  | sleep w i => cases i <;> exact h
  | fresh => trivial
  | _ => exact h

theorem Proto.boot : R.Holds (State.boot M C) where
  inv := R.start
  fits p := by by_cases hp : p = initproc <;> simp [State.boot, hp, Pc.fits]

theorem Proto.Holds.step [DecidableEq C] (hr : R.Holds s) (hi : Inv s) (h : step s (c, ch) = some t) : R.Holds t := by
  rcases step_cases hi h with ⟨p, a, hc, ha, ht⟩ | hquiet
  case inr =>
    refine ⟨hquiet.data ▸ hr.inv, fun q => ?_⟩
    rw [hquiet.data]
    have hmove := hquiet.thread q
    generalize t.thread q = pc at hmove
    cases hmove with
    | none => exact hr.fits q
    | resume => exact Pc.fits_resume (hr.fits q)
    | timer => exact hr.fits q
    | device => exact hr.fits q
  case inl =>
  obtain ⟨hfits, hinv, hpre⟩ := code_fits hr.inv (hr.fits p) a ha
  rw [← perform_data ht] at hfits hinv hpre
  refine ⟨hinv, fun q => ?_⟩
  by_cases hq : q = p
  · subst hq
    rwa [perform_self ht]
  rcases perform_thread ht hq with hsame | ⟨pc, -, hfresh⟩
  case inr => rw [hfresh]; trivial
  case inl =>
  rw [hsame]
  cases hlk : (s.thread q).lkHeld with
  | false => exact Pc.fits_stable (hi.wf q) hlk (fun m => hpre q m hq) (hr.fits q)
  | true =>
    have hlk' : (s.thread p).lkHeld = false := Bool.eq_false_iff.mpr fun h => hq (hi.one_holder hlk h)
    rw [perform_data ht, code_data hlk' a ha]
    exact hr.fits q

/-! ## Reasons to sleep -/

section reasons

variable (Reason : M.Data → Nat → Prop) (Owes : M.Loc → M.Data → Nat → Prop)

/-- A step of the code at `l`, where a wakeup on the channels `Owes l d` is still to come: it sleeps with a reason,
it takes away the reason of others only if it owes them a wakeup, and it does not give back the spinlock before
the wakeup. -/
def Keeps (d : M.Data) (l : M.Loc) : Within M.Data M.Loc → Prop
  | .update d' l' => ∀ n, Reason d n ∨ Owes l d n → Reason d' n ∨ Owes l' d' n
  | .sleep m _ => Reason d m ∧ ∀ n, Owes l d n → Reason d n
  | .wakeup m l' => ∀ n, n ≠ m → Owes l d n → Reason d n ∨ Owes l' d n
  | .leave => ∀ n, Owes l d n → Reason d n

/-- The scan of `wakeup` has not passed entry `p` yet. -/
def Scan.ahead (p : Slot) : Scan → Prop
  | .acquire j => j ≤ p.val
  | .body j => j ≤ p
  | .release j done => done = false ∧ j < p

/-- The process at this position will wake up `p` if it sleeps on channel `n`. -/
def Pc.owes (d : M.Data) (n : Nat) (p : Slot) : Pc M.Loc → Prop
  | .scan w i k => w = .wakeup (.monitor n) ∧ i.ahead p ∨ k.owes d n p
  | .inside l => Owes l d n
  | _ => False

def Sleep.commits : Sleep → Bool
  | .acquire | .releaseLk | .mark => true
  | _ => false

/-- Process `p` sleeps on channel `n` of the monitor, or is on its way in `sleep`. -/
def Bound (s : State M C) (p : Slot) (n : Nat) : Prop :=
  (∃ l i, s.thread p = .sleep (.monitor n l) i ∧ i.commits = true) ∨
    (s.proc p).state = .sleeping ∧ (s.proc p).chan = some (.monitor n)

def Reasons (s : State M C) : Prop :=
  ∀ p n, Bound s p n → Reason s.data n ∨ ∃ r, (s.thread r).lkHeld = true ∧ (s.thread r).owes Owes s.data n p

theorem reasons_boot : Reasons Reason Owes (State.boot M C) := by
  rintro p n (⟨l, i, h, -⟩ | ⟨h, -⟩) <;> by_cases hp : p = initproc <;> simp [State.boot, hp] at h

variable {Reason Owes}

/-- What the code does in a step is as `Keeps` asks. -/
def KeepsStep (Reason : M.Data → Nat → Prop) (Owes : M.Loc → M.Data → Nat → Prop) (s : State M C) (ch : Choice M)
    (p : Slot) : Prop :=
  ∀ l x w, s.thread p = .inside l → ch = .input x → M.body p (s.proc p).killed x s.data l = some w →
    Keeps Reason Owes s.data l w

theorem code_owes (hlk : (s.thread p).lkHeld = true) (hkeeps : KeepsStep Reason Owes s ch p) :
    ∀ a ∈ code s p ch (s.thread p), Reason s.data n ∨ (s.thread p).owes Owes s.data n q →
      Reason (a.data s.data) n ∨ (a.pc.lkHeld = true ∧ a.pc.owes Owes (a.data s.data) n q) ∨
        ∃ pc', a = .write q ((s.proc q).wakeup (.monitor n)) pc' := by
  intro a ha hor
  generalize hpc : s.thread p = pc at hlk ha hor
  cases code_step ha
  case scanAcquire => exact hor.imp_right fun h => .inl ⟨hlk, h⟩
  case scanEnd j hj =>
    exact hor.imp_right fun h => .inl ⟨hlk, h.resolve_left fun hw => hj (Nat.lt_of_le_of_lt hw.2 q.isLt)⟩
  case write hw =>
    cases hw
    case wakeup j chan k =>
      rcases hor with hr | ⟨hw, hle⟩ | hk
      · exact .inl hr
      · cases hw
        rcases Nat.lt_or_eq_of_le (show j.val ≤ q.val from hle) with hlt | heq
        · exact .inr (.inl ⟨hlk, .inl ⟨rfl, rfl, hlt⟩⟩)
        · obtain rfl : j = q := Fin.ext heq
          exact .inr (.inr ⟨_, rfl⟩)
      · exact .inr (.inl ⟨hlk, .inr hk⟩)
    case kill => exact hor.imp_right fun h => .inl ⟨hlk, .inr (h.resolve_left nofun)⟩
    all_goals cases hlk
  case killSkip => exact hor.imp_right fun h => .inl ⟨hlk, .inr (h.resolve_left nofun)⟩
  case scanDone => exact hor.imp_right fun h => .inl ⟨hlk, h.resolve_left fun hw => by cases hw.2.1⟩
  case scanNext => exact hor.imp_right fun h => .inl ⟨hlk, h.imp_left fun hw => ⟨hw.1, hw.2.2⟩⟩
  case sleepAcquire => exact .inl (hor.resolve_right id)
  case sleepReleaseLk => exact .inl (hor.resolve_right id)
  case update x l d' l' hch hbody => exact (hkeeps l x _ hpc hch hbody n hor).imp_right fun h => .inl ⟨rfl, h⟩
  case callSleep x l m l' hch hbody => exact .inl (hor.elim id ((hkeeps l x _ hpc hch hbody).2 n))
  case callWakeup x l m l' hch hbody =>
    rcases hor with hr | ho
    · exact .inl hr
    · by_cases hn : n = m
      · subst hn
        exact .inr (.inl ⟨rfl, .inl ⟨rfl, Nat.zero_le _⟩⟩)
      · exact (hkeeps l x _ hpc hch hbody n hn ho).imp_right fun h => .inl ⟨rfl, .inr h⟩
  case leave x l hch hbody => exact .inl (hor.elim id (hkeeps l x _ hpc hch hbody n))
  all_goals cases hlk

theorem code_commits (hwf : pc.Wf) {l : M.Loc} {i : Sleep} (hcom : i.commits = true) :
    ∀ a ∈ code s p ch pc, a.pc = .sleep (.monitor n l) i →
      (∃ i', pc = .sleep (.monitor n l) i' ∧ i'.commits = true) ∨
      ∃ l' x, pc = .inside l' ∧ ch = .input x ∧ M.body p (s.proc p).killed x s.data l' = some (.sleep n l) ∧
        a.data s.data = s.data := by
  intro a ha
  cases code_step ha
  case call op _ => cases op <;> simp [Act.pc, Op.entry]
  case yieldRelease => exact fun h => absurd h (Pc.returns.ne_sleep (.inl hwf) _ i)
  case scanEnd => exact fun h => absurd h (Pc.returns.ne_sleep hwf _ i)
  case scanDone => exact fun h => absurd h (Pc.returns.ne_sleep hwf _ i)
  case callSleep x l' _ _ hch hbody =>
    rintro ⟨⟩
    exact .inr ⟨l', x, rfl, hch, hbody, rfl⟩
  case write hw => cases hw <;> rintro ⟨⟩ <;> cases hcom
  all_goals rintro ⟨⟩
  all_goals first | exact .inl ⟨_, rfl, rfl⟩ | cases hcom

variable [DecidableEq C]

theorem step_mark {w : Sleeper M.Loc} (hc : (s.cpu c).pc = .away p) (hpc : s.thread p = .sleep w .mark)
    (h : step s (c, ch) = some t) : (t.proc p).chan = some (w.chan p) := by
  simp only [step, hc] at h
  cases ch <;> simp [procStep, hpc, Pc.interruptible, code, sleepCode, perform] at h
  all_goals subst h; simp

theorem Bound.of_step (hi : Inv s) (h : step s (c, ch) = some t) (hb : Bound t p n) :
    Bound s p n ∨ ∃ l x l', (s.cpu c).pc = .away p ∧ s.thread p = .inside l ∧ ch = .input x ∧
      M.body p (s.proc p).killed x s.data l = some (.sleep n l') ∧ t.data = s.data := by
  rcases hb with ⟨l, i, hpc, hcom⟩ | ⟨hst, hchan⟩
  · rcases step_cases hi h with ⟨p0, a, hc, ha, ht⟩ | hquiet
    · by_cases hp : p = p0
      · subst hp
        rw [perform_self ht] at hpc
        rcases code_commits (hi.wf p) hcom a ha hpc with ⟨i', hpc', hcom'⟩ | ⟨l', x, h1, h2, h3, h4⟩
        · exact .inl (.inl ⟨l, i', hpc', hcom'⟩)
        · exact .inr ⟨l', x, l, hc, h1, h2, h3, (perform_data ht).trans h4⟩
      · rcases perform_thread ht hp with hsame | ⟨pc, -, hfresh⟩
        · exact .inl (.inl ⟨l, i, hsame ▸ hpc, hcom⟩)
        · simp [hfresh] at hpc
    · have hmove := hquiet.thread p
      generalize t.thread p = pc at hmove hpc
      cases hmove with
      | none => exact .inl (.inl ⟨l, i, hpc, hcom⟩)
      | resume hg =>
        obtain ⟨-, rfl⟩ := Pc.resume_eq_sleep (hi.going c p hg).1 hpc
        cases hcom
      | timer => cases hpc
      | device => cases hpc
  · -- a process that is asleep is not dead
    have halive : s.thread p ≠ .dead := by
      intro hd
      obtain ⟨w, ⟨hpc, -⟩ | hpc⟩ := (hi.step h).sleep_of_sleeping hst <;>
        rcases step_dead hi h hd with hd' | hd' <;> simp [hpc] at hd'
    obtain ⟨-, -, hchan', hsleep, -⟩ := (step_change hi h p).of_alive hi halive
    rcases hsleep hst with hold | ⟨hc, w, hpc⟩
    · rcases hchan' with hsame | ⟨hc, w, hpc⟩
      · exact .inl (.inr ⟨hold, hsame ▸ hchan⟩)
      · rw [(hi.away c p hc).2] at hold
        rcases hpc with hpc | hpc <;> simp [hpc, Pc.shows] at hold
    · rw [step_mark hc hpc h] at hchan
      cases w with
      | monitor m l =>
        obtain rfl : m = n := by simpa [Sleeper.chan] using hchan
        exact .inl (.inl ⟨l, .mark, hpc, rfl⟩)
      | _ => simp [Sleeper.chan] at hchan

theorem not_bound_of_wakeup (hi : Inv s) (hc : (s.cpu c).pc = .away r) (hlk : (s.thread r).lkHeld = true)
    (ha : code s r ch (s.thread r) = some (.write p ((s.proc p).wakeup (.monitor n)) pc))
    (ht : perform s c r (.write p ((s.proc p).wakeup (.monitor n)) pc) = some t) : ¬ Bound t p n := by
  have hw : Writes s r (s.thread r) p _ pc := code_special (hi.wf r) _ ha
  rintro (⟨l, i, hpc, hcom⟩ | ⟨hst, hchan⟩)
  · have hp : p ≠ r := by
      rintro rfl
      rw [perform_self ht] at hpc
      generalize s.thread p = pc0 at hw hlk
      generalize (s.proc p).wakeup (.monitor n) = x at hw
      cases hw <;> first | cases hlk | cases hpc
    obtain hsame : t.thread p = s.thread p := (perform_thread ht hp).resolve_right (by simp)
    rw [hsame] at hpc
    obtain ⟨c', hc'⟩ := hi.exists_away (by rw [hpc]; cases i <;> first | rfl | cases hcom)
    cases i with
    | mark =>
      have hl := hi.lock_of_mem hc hw.mem_locks
      have hl' := hi.lock_of_mem hc' (by rw [hpc]; exact List.mem_cons_self ..)
      obtain rfl : c = c' := by simpa [hl] using hl'
      exact hp (by simpa [hc] using hc'.symm)
    | acquire => exact hp (hi.one_holder (by rw [hpc]; rfl) hlk)
    | releaseLk => exact hp (hi.one_holder (by rw [hpc]; rfl) hlk)
    | _ => cases hcom
  · cases ht
    simp only [Function.update_self] at hst hchan
    unfold Proc.wakeup at hst hchan
    split at hst
    case isTrue => cases hst
    case isFalse hno => exact hno ⟨hst, by simpa [hno] using hchan⟩

theorem Reasons.step (hr : Reasons Reason Owes s) (hi : Inv s) (h : step s (c, ch) = some t)
    (hkeeps : ∀ p, (s.cpu c).pc = .away p → KeepsStep Reason Owes s ch p) : Reasons Reason Owes t := by
  intro p n hb
  rcases hb.of_step hi h with hold | ⟨l, x, l', hc, hpc, hch, hbody, hdata⟩
  case inr => exact .inl (hdata ▸ (hkeeps p hc l x _ hpc hch hbody).1)
  case inl =>
  by_cases hno : ∀ r, (s.thread r).lkHeld = false
  · rw [step_data hi h hno]
    exact .inl ((hr p n hold).resolve_right fun ⟨r, hlk, _⟩ => by simp [hno r] at hlk)
  obtain ⟨r, hlk⟩ : ∃ r, (s.thread r).lkHeld = true := by simpa using hno
  have hor : Reason s.data n ∨ (s.thread r).owes Owes s.data n p := by
    refine (hr p n hold).imp_right ?_
    rintro ⟨r', hlk', howes⟩
    exact hi.one_holder hlk' hlk ▸ howes
  rcases step_holder hi h hlk with ⟨hsame, hdata⟩ | ⟨a, hc, ha, ht⟩
  · rw [hdata]
    exact hor.imp_right fun howes => ⟨r, by rwa [hsame], by rwa [hsame]⟩
  · rw [perform_data ht]
    rcases code_owes hlk (hkeeps r hc) a ha hor with hreason | hgoes | ⟨pc, rfl⟩
    · exact .inl hreason
    · exact .inr ⟨r, by rwa [perform_self ht]⟩
    · exact absurd hb (not_bound_of_wakeup hi hc hlk ha ht)

omit [DecidableEq C] in
theorem Reasons.reason (hr : Reasons Reason Owes s) (hi : Inv s) (hlk : s.lk = none) (hb : Bound s p n) :
    Reason s.data n := by
  refine (hr p n hb).resolve_right ?_
  rintro ⟨r, hheld, -⟩
  obtain ⟨c, hc⟩ := hi.exists_away (Pc.runs_of_lkHeld hheld)
  have hl := (hi.lk c).mpr (by rw [State.lkHeld_away hc]; exact hheld)
  simp [hlk] at hl

/-- Process `p` sleeps on channel `n`, or has given back the spinlock in order to. -/
def Asleep (s : State M C) (p : Slot) (n : Nat) : Prop :=
  (∃ l i, s.thread p = .sleep (.monitor n l) i ∧ (i = .mark ∨ i = .sched)) ∨
    (s.proc p).state = .sleeping ∧ (s.proc p).chan = some (.monitor n)

omit [DecidableEq C] in
theorem Asleep.bound (hi : Inv s) (hm : Marked s) (h : Asleep s p n) : Bound s p n := by
  rcases h with ⟨l, i, hpc, rfl | rfl⟩ | h
  · exact .inl ⟨l, .mark, hpc, rfl⟩
  · obtain ⟨c, hc⟩ := hi.exists_away (by rw [hpc]; rfl)
    exact .inr ⟨by rw [(hi.away c p hc).2, hpc]; rfl, hm p _ _ hpc rfl⟩
  · exact .inr h

theorem monitor_run (Reason : M.Data → Nat → Prop) (Owes : M.Loc → M.Data → Nat → Prop) (R : Proto M)
    {ok : State M C → C × Choice M → Prop} {es : List (C × Choice M)}
    (h : Machine.Run step ok (State.boot M C) es s)
    (hkeeps : ∀ s c ch p, R.Holds s → ok s (c, ch) → (s.cpu c).pc = .away p → KeepsStep Reason Owes s ch p) :
    R.Holds s ∧ ∀ p n, s.lk = none → Asleep s p n → Reason s.data n := by
  obtain ⟨hi, hm, hh, hr⟩ := h.inv (I := fun _ s => Inv s ∧ Marked s ∧ R.Holds s ∧ Reasons Reason Owes s)
    ⟨inv_boot, marked_boot, R.boot, reasons_boot Reason Owes⟩
    fun _ s e _ _ ⟨hi, hm, hh, hr⟩ hok hs =>
      ⟨hi.step hs, hm.step hi hs, hh.step hi hs, hr.step hi hs fun p hc => hkeeps s e.1 e.2 p hh hok hc⟩
  exact ⟨hh, fun p n hlk ha => hr.reason hi hlk (ha.bound hi hm)⟩

end reasons

end Xv6.Sched

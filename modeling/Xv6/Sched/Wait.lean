import Mathlib.Data.List.Nodup
import Xv6.Sched.Family

/-!
# `exit` and `wait`

A child that exits locks its parent before it becomes a zombie, and the parent keeps its own lock from the first
entry it looks at until it is asleep. So a zombie that the parent has not seen wakes it up.
-/

namespace Xv6.Sched

open Function (update update_of_ne update_self)

variable {M : Monitor} {C : Type} {s t : State M C} {c c' : C} {p q j : Slot} {ch : Choice M} {a : Act M}

/-! ## What the parent has seen -/

section positions

variable {L : Type}

def Sleeper.isWait : Sleeper L → Prop
  | .wait _ => True
  | _ => False

def Wait.seen (j : Slot) : Wait → Prop
  | .scan k _ => j.val < k
  | .acquireChild k | .test k => j < k
  | .releaseChild k => j ≤ k
  | _ => False

def Sleep.seen (w : Sleeper L) : Sleep → Prop
  | .mark | .sched | .saved => w.isWait
  | _ => False

/-- In `wait` the process has looked at entry `j` since it locked itself. -/
def Pc.seen (j : Slot) : Pc L → Prop
  | .wait _ i => i.seen j
  | .sleep w i => i.seen w
  | _ => False

theorem Pc.mem_locks_of_seen {pc : Pc L} (h : pc.seen j) (hruns : pc.runs = true) : p ∈ pc.locks p := by
  cases pc with
  | wait addr i => cases i <;> simp_all [seen, Wait.seen, locks, Wait.locks]
  | sleep w i => cases i <;> simp_all [seen, Sleep.seen, runs, locks, Sleep.locks]
  | _ => exact absurd h id

theorem Pc.saved_of_seen {pc : Pc L} (h : pc.seen j) (hruns : pc.runs = false) :
    ∃ addr, pc = .sleep (.wait addr) .saved := by
  cases pc with
  | sleep w i =>
    obtain rfl : i = .saved := by simpa [runs] using hruns
    cases w with
    | wait addr => exact ⟨addr, rfl⟩
    | _ => exact absurd h id
  | wait => cases hruns
  | _ => exact absurd h id

theorem Pc.returns.not_seen {k : Pc L} (h : k.returns) : ¬ k.seen j := by
  rcases h with h | ⟨l, rfl⟩
  · cases k with
    | wait _ i => cases i <;> simp_all [Pc.interruptible, Wait.lockFree, Pc.seen, Wait.seen]
    | sleep => simp [Pc.interruptible] at h
    | _ => exact id
  · exact id

end positions

theorem code_seen (hwf : (s.thread p).Wf) : ∀ a ∈ code s p ch (s.thread p), a.pc.seen j →
    (s.thread p).seen j ∨ (s.proc j).parent ≠ some p ∨ (s.proc j).state ≠ .zombie := by
  intro a ha
  generalize s.thread p = pc at hwf ha
  cases code_step ha
  case call op _ => cases op <;> simp [Act.pc, Op.entry, Pc.seen, Wait.seen, Sleep.seen]
  case yieldRelease => exact fun h => absurd h (Pc.returns.not_seen (.inl hwf))
  case scanEnd => exact fun h => absurd h (Pc.returns.not_seen hwf)
  case scanDone => exact fun h => absurd h (Pc.returns.not_seen hwf)
  case write hw => cases hw <;> simp_all [Act.pc, Pc.seen, Sleep.seen, Wait.seen]
  case waitChild => exact .inl
  case waitSkip addr havekids k hpar =>
    intro h
    rcases Nat.lt_succ_iff_lt_or_eq.mp h with h | h
    · exact .inl h
    · obtain rfl : j = k := Fin.ext h
      exact .inr (.inl hpar)
  case waitSleep addr k havekids hk => exact fun _ => .inl (Nat.lt_of_lt_of_le j.isLt (Nat.le_of_not_lt hk))
  case waitAlive addr k hst =>
    intro h
    rcases Nat.lt_or_eq_of_le (show j.val ≤ k.val from h) with h | h
    · exact .inl h
    · obtain rfl : j = k := Fin.ext h
      exact .inr (.inr hst)
  case waitReleaseChild addr k => exact fun h => .inl (Nat.lt_succ_iff.mp h)
  all_goals simp_all [Act.pc, Pc.seen, Sleep.seen, Wait.seen, Sleeper.isWait]

omit s in
theorem QuietMove.seen {s : State M C} {pc : Pc M.Loc} (hi : Inv s) (h : QuietMove s c p pc) (hseen : pc.seen j) :
    pc = s.thread p := by
  cases h with
  | none => rfl
  | resume hg =>
    have hres := (hi.going c p hg).1
    cases hpc : s.thread p with
    | sleep w i =>
      obtain rfl : i = .saved := by simpa [hpc, Pc.resumable] using hres
      simp [hpc, Pc.resume, Pc.seen, Sleep.seen] at hseen
    | fresh => simp [hpc, Pc.resume, Pc.seen] at hseen
    | yield i k =>
      obtain rfl : i = .saved := by simpa [hpc, Pc.resumable] using hres
      simp [hpc, Pc.resume, Pc.seen] at hseen
    | _ => simp [hpc, Pc.resumable] at hres
  | timer => exact absurd hseen id
  | device => exact absurd hseen id

/-- Process `p` is in `wait`, has seen entry `j`, and is not yet called back. -/
def Seen (s : State M C) (p j : Slot) : Prop :=
  (s.thread p).seen j ∧ ((s.thread p).runs = true ∨ (s.proc p).state = .sleeping)

/-- The children of a process other than `init` that it has seen are not zombies. -/
def NoZombies (s : State M C) : Prop :=
  ∀ p j, p ≠ initproc → Seen s p j → (s.proc j).parent = some p → (s.proc j).state ≠ .zombie

theorem noZombies_boot : NoZombies (State.boot M C) := by
  intro p j hp h
  simp [Seen, State.boot, hp, Pc.seen] at h

/-! ## Zombies -/

/-- The number and the status of a zombie. -/
def Proc.corpse (x : Proc) : Option (BitVec 32 × BitVec 32) :=
  if x.state = .zombie then some (x.pid, x.xstate) else none

def State.corpse (s : State M C) (q : Slot) : Option (BitVec 32 × BitVec 32) := (s.proc q).corpse

theorem Proc.corpse_wakeup (x : Proc) (chan : Chan) : (x.wakeup chan).corpse = x.corpse := by
  unfold Proc.wakeup
  split <;> simp_all [Proc.corpse]

theorem QuietChange.corpse {x : Proc} (h : QuietChange s c q x) : x.corpse = (s.proc q).corpse := by
  cases h with
  | none => rfl
  | wakeup hl chan => exact Proc.corpse_wakeup _ chan
  | run hl hst => simp [Proc.corpse, hst]

theorem Writes.corpse (hi : Inv s) {x : Proc} {pc : Pc M.Loc} (hc : (s.cpu c).pc = .away p)
    (hw : Writes s p (s.thread p) q x pc) : x.corpse = (s.proc q).corpse := by
  have hst := (hi.away c p hc).2
  generalize hpc : s.thread p = pc0 at hw hst
  cases hw with
  | wakeup chan k => exact Proc.corpse_wakeup _ chan
  | kill pid k => by_cases h : (s.proc q).state = .sleeping <;> simp [Proc.corpse, Proc.kill, h]
  | init status => exact Proc.corpse_wakeup _ _
  | give status op => rfl
  | tidy | tidyWait => rfl
  | fail => simp [Proc.corpse, Proc.free, hi.filling p q hpc]
  | yield k => simp [Proc.corpse, hst, Pc.shows]
  | sleep w => simp [Proc.corpse, hst, Pc.shows]

theorem corpse_update {x : Proc} (hproc : t.proc = update s.proc q x) (hx : x.corpse = (s.proc q).corpse) :
    t.corpse = s.corpse := by
  funext r
  by_cases hr : r = q
  · subst hr
    simp [State.corpse, hproc, hx]
  · simp [State.corpse, hproc, update_of_ne hr]

variable [DecidableEq C]

/-- What a step does to the zombies and to the history: nothing, or a process exits, or `wait` takes one. -/
inductive Happens (s t : State M C) (c : C) : Prop
  | nothing (hev : t.events = s.events) (hz : t.corpse = s.corpse)
  | exited {p op : Slot} {status : BitVec 32} {pc : Pc M.Loc} (hc : (s.cpu c).pc = .away p)
      (hpc : s.thread p = .exit status (.finish op)) (hto : pc = .exit status (.releaseParent op))
      (ht : perform s c p (.finish op status pc) = some t)
  | reaped {p q : Slot} {addr : Bool} {pc : Pc M.Loc} (hc : (s.cpu c).pc = .away p)
      (hpc : s.thread p = .wait addr (.test q)) (hst : (s.proc q).state = .zombie)
      (ht : perform s c p (.reap q pc) = some t)

theorem step_happens (hi : Inv s) (h : step s (c, ch) = some t) : Happens s t c := by
  rcases step_cases hi h with ⟨p, a, hc, ha, ht⟩ | hquiet
  case inr => exact .nothing hquiet.events (funext fun q => (hquiet.proc q).corpse)
  case inl =>
  have hs := code_special (hi.wf p) a ha
  cases a with
  | write q x pc =>
    cases ht
    exact .nothing rfl (corpse_update rfl (hs.corpse hi hc))
  | number q pc =>
    cases ht
    exact .nothing rfl (corpse_update rfl (by simp [Proc.corpse, hs.2.2]))
  | spawn q pc =>
    cases ht
    exact .nothing rfl (corpse_update rfl (by simp [Proc.corpse, hi.filling p q hs.1]))
  | finish op status pc => exact .exited hc hs.1 hs.2 ht
  | reap q pc =>
    obtain ⟨addr, hpc, -, hst⟩ := hs
    exact .reaped hc hpc hst ht
  | acquire r pc =>
    obtain ⟨-, rfl⟩ := perform_acquire.mp ht
    exact .nothing rfl rfl
  | acquireLk pc =>
    obtain ⟨-, rfl⟩ := perform_acquireLk.mp ht
    exact .nothing rfl rfl
  | _ => cases ht; exact .nothing rfl rfl

theorem corpse_finish {op : Slot} {status : BitVec 32} {pc : Pc M.Loc}
    (ht : perform s c p (.finish op status pc) = some t) :
    t.corpse = update s.corpse p (some ((s.proc p).pid, status)) := by
  cases ht
  funext r
  by_cases hr : r = p
  · subst hr
    simp [State.corpse, Proc.corpse]
  · by_cases hop : r = op
    · subst hop
      simp [State.corpse, update_of_ne hr, Proc.corpse_wakeup]
    · simp [State.corpse, update_of_ne hr, update_of_ne hop]

theorem corpse_reap {pc : Pc M.Loc} (ht : perform s c p (.reap q pc) = some t) :
    t.corpse = update s.corpse q none := by
  cases ht
  funext r
  by_cases hr : r = q
  · subst hr
    simp [State.corpse, Proc.corpse, Proc.free]
  · simp [State.corpse, update_of_ne hr]

omit [DecidableEq C] in
theorem corpse_isSome : (s.corpse q).isSome = true ↔ (s.proc q).state = .zombie := by
  simp [State.corpse, Proc.corpse]

/-! ## The parent wakes up -/

theorem not_seen_of_finish (hi : Inv s) (hm : Marked s) {status : BitVec 32} {pc : Pc M.Loc}
    (hc : (s.cpu c).pc = .away j)
    (hpc : s.thread j = .exit status (.finish p)) (hto : pc = .exit status (.releaseParent p))
    (ht : perform s c j (.finish p status pc) = some t) : ¬ Seen t p j := by
  rintro ⟨hseen, hwait⟩
  have hp : p ≠ j := by
    rintro rfl
    rw [perform_self ht, Act.pc, hto] at hseen
    exact hseen
  have hsame : t.thread p = s.thread p := (perform_thread ht hp).resolve_right (by simp)
  rw [hsame] at hseen hwait
  by_cases hruns : (s.thread p).runs = true
  · obtain ⟨c', hc'⟩ := hi.exists_away hruns
    have hl := hi.lock_of_mem hc (q := p) (by rw [hpc]; simp [Pc.locks, Exit.locks])
    have hl' := hi.lock_of_mem hc' (Pc.mem_locks_of_seen hseen hruns)
    obtain rfl : c = c' := by simpa [hl] using hl'
    exact hp (by simpa [hc] using hc'.symm)
  · obtain ⟨addr, hsaved⟩ := Pc.saved_of_seen hseen (by simpa using hruns)
    have hchan : (s.proc p).chan = some (.proc p) := hm p _ _ hsaved rfl
    have hst := hwait.resolve_left hruns
    cases ht
    simp only [update_of_ne hp, update_self] at hst
    unfold Proc.wakeup at hst
    split at hst
    case isTrue => cases hst
    case isFalse hno => exact hno ⟨hst, hchan⟩

theorem Seen.of_step (hi : Inv s) (h : step s (c, ch) = some t) (hseen : Seen t p j) :
    Seen s p j ∨ (s.proc j).parent ≠ some p ∨ (s.proc j).state ≠ .zombie := by
  obtain ⟨hpos, hwait⟩ := hseen
  -- the state of a process that was seen to sleep
  have hstays : t.thread p = s.thread p → Seen s p j := by
    intro hsame
    rw [hsame] at hpos hwait
    refine ⟨hpos, or_iff_not_imp_left.mpr fun hruns => ?_⟩
    have halive : s.thread p ≠ .dead := fun hd => by rw [hd] at hpos; exact hpos
    obtain ⟨-, -, -, hsleep, -⟩ := (step_change hi h p).of_alive hi halive
    rcases hsleep (hwait.resolve_left hruns) with hold | ⟨hc, -⟩
    · exact hold
    · exact absurd (hi.away c p hc).1 hruns
  rcases step_cases hi h with ⟨p0, a, hc, ha, ht⟩ | hquiet
  · by_cases hp : p = p0
    · subst hp
      rw [perform_self ht] at hpos
      rcases code_seen (hi.wf p) a ha hpos with hold | hno
      · exact .inl ⟨hold, .inl (hi.away c p hc).1⟩
      · exact .inr hno
    · rcases perform_thread ht hp with hsame | ⟨pc, -, hfresh⟩
      · exact .inl (hstays hsame)
      · rw [hfresh] at hpos
        exact absurd hpos id
  · exact .inl (hstays ((hquiet.thread p).seen hi hpos))

theorem NoZombies.step (hn : NoZombies s) (hi : Inv s) (hf : Family s) (hm : Marked s) (h : step s (c, ch) = some t) :
    NoZombies t := by
  intro p j hp hseen hpar hz
  -- the parent of the zombie has not changed, so the parent has looked at it just now
  have hold : (s.proc j).state ≠ .zombie := by
    intro hz'
    have hpar' : (s.proc j).parent = some p := by
      rcases hf.change_parent hi (step_change hi h j) with hsame | ⟨hinit, -⟩ | ⟨r, hr, hto, -⟩ | ⟨hnone, -⟩
      · rwa [hsame] at hpar
      · rw [hinit] at hpar
        exact absurd (by simpa using hpar.symm) hp
      · obtain rfl : r = p := by simpa [hr] using hpar
        have hpos := hseen.1
        rw [hto] at hpos
        exact absurd hpos id
      · simp [hnone] at hpar
    rcases hseen.of_step hi h with hs | hno | hno
    · exact hn p j hp hs hpar' hz'
    · exact hno hpar'
    · exact hno hz'
  have hcorpse : ∀ {x}, t.corpse j = x → x = s.corpse j → False := by
    rintro _ hx rfl
    exact hold (corpse_isSome.mp (hx ▸ corpse_isSome.mpr hz))
  cases step_happens hi h with
  | nothing _ hsame => exact hcorpse (congrFun hsame j) rfl
  | @exited r op status pc hc hpc hto ht =>
    by_cases hj : j = r
    · subst hj
      have hop := hf.op j op (by rw [hpc]; rfl)
      have hsame : (t.proc j).parent = (s.proc j).parent := by cases ht; simp
      rw [hsame] at hpar
      rw [hpar] at hop
      obtain rfl : p = op := by
        rcases hop with hop | hop
        · simpa using hop
        · exact absurd (by simpa using hop) hp
      exact not_seen_of_finish hi hm hc hpc hto ht hseen
    · exact hcorpse (congrFun (corpse_finish ht) j) (update_of_ne hj _ _)
  | @reaped r q addr pc hc hpc hst ht =>
    by_cases hj : j = q
    · subst hj
      have hnone := corpse_isSome.mpr hz
      simp [corpse_reap ht] at hnone
    · exact hcorpse (congrFun (corpse_reap ht) j) (update_of_ne hj _ _)

/-! ## The history -/

def Event.exitOf : Event → Option Nat
  | .exited b _ _ => some b
  | .reaped _ _ _ _ => none

def Event.reapOf : Event → Option Nat
  | .exited _ _ _ => none
  | .reaped _ b _ _ => some b

theorem Event.mem_exitOf {l : List Event} {b : Nat} :
    b ∈ l.filterMap exitOf ↔ ∃ pid st, .exited b pid st ∈ l := by
  simp only [List.mem_filterMap]
  refine ⟨?_, fun ⟨pid, st, h⟩ => ⟨_, h, rfl⟩⟩
  rintro ⟨_ | _, h, hb⟩ <;> cases hb
  exact ⟨_, _, h⟩

theorem Event.mem_reapOf {l : List Event} {b : Nat} :
    b ∈ l.filterMap reapOf ↔ ∃ r pid st, .reaped r b pid st ∈ l := by
  simp only [List.mem_filterMap]
  refine ⟨?_, fun ⟨r, pid, st, h⟩ => ⟨_, h, rfl⟩⟩
  rintro ⟨_ | _, h, hb⟩ <;> cases hb
  exact ⟨_, _, _, h⟩

/-- What has happened to the processes that were made so far. -/
structure History (s : State M C) : Prop where
  inj : ∀ p q, (s.proc p).state ≠ .unused → (s.proc q).state ≠ .unused → s.born p = s.born q → p = q
  past : ∀ b pid st, .exited b pid st ∈ s.events → b < s.births
  alive : ∀ q, (s.proc q).state ≠ .unused → s.corpse q = none → ∀ pid st, .exited (s.born q) pid st ∉ s.events
  corpse : ∀ q pid st, s.corpse q = some (pid, st) →
    .exited (s.born q) pid st ∈ s.events ∧ ∀ r pid st, .reaped r (s.born q) pid st ∉ s.events
  exited : ∀ b pid st, .exited b pid st ∈ s.events →
    (∃ r, .reaped r b pid st ∈ s.events) ∨ ∃ q, s.corpse q = some (pid, st) ∧ s.born q = b
  reaped : ∀ r b pid st, .reaped r b pid st ∈ s.events → .exited b pid st ∈ s.events
  exitedOnce : (s.events.filterMap Event.exitOf).Nodup
  reapedOnce : (s.events.filterMap Event.reapOf).Nodup

omit [DecidableEq C] in
theorem history_boot : History (State.boot M C) where
  inj p q hp hq _ := by
    by_cases h : p = initproc <;> by_cases h' : q = initproc <;> simp_all [State.boot]
  past _ _ _ h := by simp [State.boot] at h
  alive _ _ _ _ _ := by simp [State.boot]
  corpse q pid st h := by by_cases hq : q = initproc <;> simp [State.corpse, Proc.corpse, State.boot, hq] at h
  exited _ _ _ h := by simp [State.boot] at h
  reaped _ _ _ _ h := by simp [State.boot] at h
  exitedOnce := .nil
  reapedOnce := .nil

theorem step_used (hi : Inv s) (h : step s (c, ch) = some t) (hq : (t.proc q).state ≠ .unused) :
    (s.proc q).state ≠ .unused ∧ t.born q = s.born q ∨
      t.born q = s.births ∧ ∃ p, (s.cpu c).pc = .away p ∧ s.thread p = .fork (.fill q) := by
  by_cases hold : (s.proc q).state = .unused
  · obtain ⟨hb, -, hp⟩ := ((step_change hi h q).of_unused hi hold).resolve_left hq
    exact .inr ⟨hb, hp⟩
  · exact .inl ⟨hold, Family.born_same hi h hold⟩

theorem step_births (hi : Inv s) (h : step s (c, ch) = some t) : s.births ≤ t.births := by
  rcases Family.step_born hi h with ⟨-, h⟩ | ⟨-, -, -, -, -, -, -, h⟩ <;> omega

namespace History

theorem step_inj (hh : History s) (hi : Inv s) (hf : Family s) (h : step s (c, ch) = some t)
    (hp : (t.proc p).state ≠ .unused) (hq : (t.proc q).state ≠ .unused) (heq : t.born p = t.born q) : p = q := by
  rcases step_used hi h hp with ⟨hp', hbp⟩ | ⟨hbp, r, hc, hpc⟩ <;>
    rcases step_used hi h hq with ⟨hq', hbq⟩ | ⟨hbq, r', hc', hpc'⟩
  · exact hh.inj p q hp' hq' (by omega)
  · have := hf.born_lt p hp'
    omega
  · have := hf.born_lt q hq'
    omega
  · obtain rfl : r = r' := by simpa [hc] using hc'
    simpa [hpc] using hpc'

theorem step_alive (hh : History s) (hi : Inv s) (h : step s (c, ch) = some t) (hq : (t.proc q).state ≠ .unused)
    (hsame : s.corpse q = none) (pid st : BitVec 32) : .exited (t.born q) pid st ∉ s.events := by
  intro hev
  rcases step_used hi h hq with ⟨hq', hb⟩ | ⟨hb, -⟩
  · exact hh.alive q hq' hsame pid st (hb ▸ hev)
  · exact absurd (hh.past _ _ _ hev) (by omega)

omit [DecidableEq C] in
theorem used_of_corpse {x : BitVec 32 × BitVec 32} (h : s.corpse q = some x) : (s.proc q).state ≠ .unused := by
  have hz := corpse_isSome.mp (h ▸ rfl : (s.corpse q).isSome = true)
  simp [hz]

theorem born_of_corpse (hi : Inv s) (h : step s (c, ch) = some t) {x : BitVec 32 × BitVec 32}
    (hx : s.corpse q = some x) : t.born q = s.born q :=
  Family.born_same hi h (used_of_corpse hx)

section

variable (hh : History s) (hi : Inv s) (hf : Family s) (h : step s (c, ch) = some t)

include hh hi hf h

theorem step_nothing (hev : t.events = s.events) (hz : t.corpse = s.corpse) : History t where
  inj _ _ := hh.step_inj hi hf h
  past b pid st hb := Nat.lt_of_lt_of_le (hh.past b pid st (hev ▸ hb)) (step_births hi h)
  alive q hq hnone pid st := by
    rw [hz] at hnone
    rw [hev]
    exact hh.step_alive hi h hq hnone pid st
  corpse q pid st hx := by
    rw [hz] at hx
    rw [hev, born_of_corpse hi h hx]
    exact hh.corpse q pid st hx
  exited b pid st hb := by
    rw [hev] at hb ⊢
    refine (hh.exited b pid st hb).imp_right ?_
    rintro ⟨q, hx, hq⟩
    exact ⟨q, hz ▸ hx, (born_of_corpse hi h hx).trans hq⟩
  reaped r b pid st hb := by
    rw [hev] at hb ⊢
    exact hh.reaped r b pid st hb
  exitedOnce := hev ▸ hh.exitedOnce
  reapedOnce := hev ▸ hh.reapedOnce

theorem step_exited {status : BitVec 32}
    (hst : (s.proc p).state = .running) (hev : t.events = s.events ++ [.exited (s.born p) (s.proc p).pid status])
    (hz : t.corpse = update s.corpse p (some ((s.proc p).pid, status))) : History t := by
  have hused : (s.proc p).state ≠ .unused := by simp [hst]
  have hnone : s.corpse p = none := by simp [State.corpse, Proc.corpse, hst]
  have hbp := Family.born_same hi h hused
  have halive := hh.alive p hused hnone
  have hother : ∀ {q}, q ≠ p → t.corpse q = s.corpse q := fun hq => by rw [hz, update_of_ne hq]
  refine ⟨fun _ _ => hh.step_inj hi hf h, ?_, ?_, ?_, ?_, ?_, ?_, ?_⟩
  · intro b pid st hb
    rw [hev, List.mem_append, List.mem_singleton] at hb
    refine Nat.lt_of_lt_of_le ?_ (step_births hi h)
    rcases hb with hb | hb
    · exact hh.past b pid st hb
    · cases hb
      exact hf.born_lt p hused
  · intro q hq hq' pid st hb
    have hne : q ≠ p := by
      rintro rfl
      simp [hz] at hq'
    rw [hev, List.mem_append, List.mem_singleton] at hb
    rcases hb with hb | hb
    · exact hh.step_alive hi h hq (hother hne ▸ hq') pid st hb
    · obtain ⟨hb, -⟩ : t.born q = s.born p ∧ _ := by simpa using hb
      have hp' : (t.proc p).state ≠ .unused := used_of_corpse (by rw [hz, update_self])
      exact hne (hh.step_inj hi hf h hq hp' (by omega))
  · intro q pid st hx
    by_cases hq : q = p
    · subst hq
      rw [hz, update_self] at hx
      cases hx
      rw [hbp, hev]
      refine ⟨by simp, fun r pid st hr => ?_⟩
      exact halive _ _ (hh.reaped r _ pid st (by simpa using hr))
    · rw [hother hq] at hx
      rw [born_of_corpse hi h hx, hev]
      obtain ⟨h1, h2⟩ := hh.corpse q pid st hx
      exact ⟨List.mem_append_left _ h1, fun r pid st hr => h2 r pid st (by simpa using hr)⟩
  · intro b pid st hb
    rw [hev] at hb ⊢
    rcases List.mem_append.mp hb with hb | hb
    · rcases hh.exited b pid st hb with ⟨r, hr⟩ | ⟨q, hx, hq⟩
      · exact .inl ⟨r, List.mem_append_left _ hr⟩
      · have hne : q ≠ p := by
          rintro rfl
          simp [hnone] at hx
        exact .inr ⟨q, (hother hne).trans hx, (born_of_corpse hi h hx).trans hq⟩
    · cases List.mem_singleton.mp hb
      exact .inr ⟨p, by rw [hz, update_self], hbp⟩
  · intro r b pid st hb
    rw [hev] at hb ⊢
    exact List.mem_append_left _ (hh.reaped r b pid st (by simpa using hb))
  · rw [hev, List.filterMap_append]
    refine List.Nodup.append hh.exitedOnce (List.nodup_singleton _) ?_
    refine List.disjoint_singleton.mpr fun hmem => ?_
    obtain ⟨pid, st, hmem⟩ := Event.mem_exitOf.mp hmem
    exact halive pid st hmem
  · rw [hev, List.filterMap_append]
    exact (List.append_nil _).symm ▸ hh.reapedOnce

theorem step_reaped (hst : (s.proc q).state = .zombie) (hfree : (t.proc q).state = .unused)
    (hev : t.events = s.events ++ [.reaped (s.born p) (s.born q) (s.proc q).pid (s.proc q).xstate])
    (hz : t.corpse = update s.corpse q none) : History t := by
  have hx : s.corpse q = some ((s.proc q).pid, (s.proc q).xstate) := by simp [State.corpse, Proc.corpse, hst]
  obtain ⟨hexit, hnot⟩ := hh.corpse q _ _ hx
  have hother : ∀ {r}, r ≠ q → t.corpse r = s.corpse r := fun hr => by rw [hz, update_of_ne hr]
  refine ⟨fun _ _ => hh.step_inj hi hf h, ?_, ?_, ?_, ?_, ?_, ?_, ?_⟩
  · intro b pid st hb
    rw [hev] at hb
    exact Nat.lt_of_lt_of_le (hh.past b pid st (by simpa using hb)) (step_births hi h)
  · intro r hr hr' pid st hb
    have hne : r ≠ q := by
      rintro rfl
      exact hr hfree
    rw [hev] at hb
    exact hh.step_alive hi h hr (hother hne ▸ hr') pid st (by simpa using hb)
  · intro r pid st hr
    have hne : r ≠ q := by
      rintro rfl
      simp [hz] at hr
    rw [hother hne] at hr
    rw [born_of_corpse hi h hr, hev]
    obtain ⟨h1, h2⟩ := hh.corpse r pid st hr
    refine ⟨List.mem_append_left _ h1, fun p' pid' st' hb => ?_⟩
    rcases List.mem_append.mp hb with hb | hb
    · exact h2 p' pid' st' hb
    · obtain ⟨-, hb, -⟩ : _ ∧ s.born r = s.born q ∧ _ := by simpa using hb
      exact hne (hh.inj r q (used_of_corpse hr) (by simp [hst]) hb)
  · intro b pid st hb
    rw [hev] at hb ⊢
    replace hb : .exited b pid st ∈ s.events := by simpa using hb
    rcases hh.exited b pid st hb with ⟨r, hr⟩ | ⟨r, hr, hbr⟩
    · exact .inl ⟨r, List.mem_append_left _ hr⟩
    · by_cases hne : r = q
      · subst hne
        rw [hx] at hr
        cases hr
        exact .inl ⟨s.born p, by simp [hbr]⟩
      · exact .inr ⟨r, (hother hne).trans hr, (born_of_corpse hi h hr).trans hbr⟩
  · intro r b pid st hb
    rw [hev] at hb ⊢
    refine List.mem_append_left _ ?_
    rcases List.mem_append.mp hb with hb | hb
    · exact hh.reaped r b pid st hb
    · cases List.mem_singleton.mp hb
      exact hexit
  · rw [hev, List.filterMap_append]
    exact (List.append_nil _).symm ▸ hh.exitedOnce
  · rw [hev, List.filterMap_append]
    refine List.Nodup.append hh.reapedOnce (List.nodup_singleton _) ?_
    refine List.disjoint_singleton.mpr fun hmem => ?_
    obtain ⟨r, pid, st, hmem⟩ := Event.mem_reapOf.mp hmem
    exact hnot r pid st hmem

theorem step : History t := by
  cases step_happens hi h with
  | nothing hev hz => exact hh.step_nothing hi hf h hev hz
  | exited hc hpc hto ht =>
    exact hh.step_exited hi hf h (by rw [(hi.away c _ hc).2, hpc]; rfl) (by cases ht; rfl) (corpse_finish ht)
  | @reaped p q addr pc hc hpc hst ht =>
    have hfree : (t.proc q).state = .unused := by cases ht; simp [Proc.free]
    exact hh.step_reaped (p := p) hi hf h hst hfree (by cases ht; rfl) (corpse_reap ht)

end

end History

/-! ## No child is lost -/

structure NeverLost (s : State M C) : Prop where
  /-- A process that sleeps in `wait` has no zombie to wait for. -/
  wakes : ∀ p q, p ≠ initproc → s.lock p = none → (s.proc p).state = .sleeping → (s.proc p).chan = some (.proc p) →
    (s.proc q).parent = some p → (s.proc q).state ≠ .zombie
  exitedOnce : (s.events.filterMap Event.exitOf).Nodup
  reapedOnce : (s.events.filterMap Event.reapOf).Nodup
  /-- `wait` returns the number and the status of a process that has exited. -/
  status : ∀ r b pid st, .reaped r b pid st ∈ s.events → .exited b pid st ∈ s.events
  /-- A process that has exited and has not been returned is still there. -/
  kept : ∀ b pid st, .exited b pid st ∈ s.events → (∃ r, .reaped r b pid st ∈ s.events) ∨
    ∃ q, (s.proc q).state = .zombie ∧ s.born q = b ∧ (s.proc q).pid = pid ∧ (s.proc q).xstate = st
  /-- Only a `wait` of its parent takes it away. -/
  taken : ∀ c ch t q, step s (c, ch) = some t → (s.proc q).state = .zombie → (t.proc q).state ≠ .zombie →
    ∃ p, (s.proc q).parent = some p ∧ (s.cpu c).pc = .away p ∧
      t.events = s.events ++ [.reaped (s.born p) (s.born q) (s.proc q).pid (s.proc q).xstate]
  /-- If `copyout` fails, everything is as it was. -/
  copyout : ∀ c p addr q early t, (s.cpu c).pc = .away p → s.thread p = .wait addr (.test q) →
    (s.proc q).state = .zombie → step s (c, .fail early) = some t → t.proc = s.proc ∧ t.events = s.events

omit [DecidableEq C] in
theorem seen_of_sleeping (hi : Inv s) (hm : Marked s) (hl : s.lock p = none) (hst : (s.proc p).state = .sleeping)
    (hchan : (s.proc p).chan = some (.proc p)) (j : Slot) : Seen s p j := by
  refine ⟨?_, .inr hst⟩
  obtain ⟨w, ⟨hpc, c, hc⟩ | hpc⟩ := hi.sleep_of_sleeping hst
  · simpa [hl] using hi.lock_of_mem hc (q := p) (by rw [hpc]; exact List.mem_cons_self ..)
  · have hw := hm p w .saved hpc rfl
    rw [hchan] at hw
    rw [hpc]
    cases w with
    | wait addr => trivial
    | _ => simp [Sleeper.chan] at hw

theorem zombie_taken (hi : Inv s) (hf : Family s) (h : step s (c, ch) = some t) (hz : (s.proc q).state = .zombie)
    (hz' : (t.proc q).state ≠ .zombie) : ∃ p, (s.proc q).parent = some p ∧ (s.cpu c).pc = .away p ∧
      t.events = s.events ++ [.reaped (s.born p) (s.born q) (s.proc q).pid (s.proc q).xstate] := by
  have hcorpse : t.corpse q ≠ s.corpse q := fun heq =>
    hz' (corpse_isSome.mp (heq ▸ corpse_isSome.mpr hz))
  cases step_happens hi h with
  | nothing _ hsame => exact absurd (congrFun hsame q) hcorpse
  | @exited p op status pc hc hpc hto ht =>
    by_cases hq : q = p
    · subst hq
      simp [(hi.away c q hc).2, hpc, Pc.shows, Exit.shows] at hz
    · exact absurd (by rw [corpse_finish ht, update_of_ne hq]) hcorpse
  | @reaped p r addr pc hc hpc hst ht =>
    by_cases hq : q = r
    · subst hq
      exact ⟨p, hf.child p q (by rw [hpc]; rfl), hc, by cases ht; rfl⟩
    · exact absurd (by rw [corpse_reap ht, update_of_ne hq]) hcorpse

/-- No child is lost between `exit` and `wait`, and none is returned twice. -/
theorem wait_never_loses_a_child (h : Reachable s) : NeverLost s := by
  obtain ⟨es, hrun⟩ := h
  obtain ⟨hi, hf, hm, hn, hh⟩ := hrun.inv (I := fun _ s => Inv s ∧ Family s ∧ Marked s ∧ NoZombies s ∧ History s)
    ⟨inv_boot, family_boot, marked_boot, noZombies_boot, history_boot⟩
    fun _ _ _ _ _ ⟨hi, hf, hm, hn, hh⟩ _ hs =>
      ⟨hi.step hs, hf.step hi hs, hm.step hi hs, hn.step hi hf hm hs, hh.step hi hf hs⟩
  refine ⟨?_, hh.exitedOnce, hh.reapedOnce, hh.reaped, ?_, fun c ch t q => zombie_taken hi hf, ?_⟩
  · intro p q hp hl hst hchan
    exact hn p q hp (seen_of_sleeping hi hm hl hst hchan q)
  · intro b pid st hb
    refine (hh.exited b pid st hb).imp_right ?_
    rintro ⟨q, hx, hq⟩
    simp only [State.corpse, Proc.corpse, Option.ite_none_right_eq_some, Option.some.injEq, Prod.mk.injEq] at hx
    exact ⟨q, hx.1, hq, hx.2⟩
  · intro c p addr q early t hc hpc hst hs
    cases addr with
    | false => simp [step, hc, procStep, hpc, code, waitCode, hst] at hs
    | true =>
      simp only [step, hc, procStep, hpc, code, waitCode, hst, if_true, Option.bind_some, perform] at hs
      cases hs
      exact ⟨rfl, rfl⟩

/-- Process 3 exits with status 7, and its parent 2 waits for it. -/
theorem wait_never_loses_a_child_run : ∃ s : State Monitor.idle (Fin 4),
    s.events = [.exited 3 4 7, .reaped 2 3 4 7] ∧ NeverLost s := by
  obtain ⟨s, hs, hdec⟩ : ∃ s : State Monitor.idle (Fin 4), Reachable s ∧ s.events = [.exited 3 4 7, .reaped 2 3 4 7] :=
    exists_reachable (threeForks ++ (3, .call (.exit 7)) :: goes 3 78 ++ (2, .call (.wait true)) :: goes 2 9)
      (by decide +kernel)
  exact ⟨s, hdec, wait_never_loses_a_child hs⟩

end Xv6.Sched

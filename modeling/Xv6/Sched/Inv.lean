import Xv6.Sched.Code

/-!
# Who holds which lock

The locks are held by the CPUs as the positions of the threads say. A lock passes from one thread to another in
`swtch` only, and then on one CPU: a process gives its own lock to the scheduler, and the scheduler gives it back
when it resumes the process.
-/

namespace Xv6.Sched

open Function (update update_of_ne update_self)

variable {M : Monitor} {C : Type} {s t : State M C} {p q : Slot} {ch : Choice M} {pc : Pc M.Loc} {a : Act M}

/-! ## The invariant -/

/-- The process locks that a CPU holds in the scheduler. -/
def CpuPc.locks : CpuPc → List Slot
  | .loop _ | .away _ => []
  | .intr _ i _ => i.locks
  | .test k | .going k | .back k | .unlock k => [k]

/-- The process that a CPU is about to run, runs, or has just left. -/
def CpuPc.engaged : CpuPc → Option Slot
  | .going k | .away k | .back k => some k
  | .loop _ | .intr _ _ _ | .test _ | .unlock _ => none

/-- The process locks that CPU `c` holds. -/
def State.locks (s : State M C) (c : C) : List Slot :=
  match (s.cpu c).pc with
  | .away p => (s.thread p).locks p
  | pc => pc.locks

def State.lkHeld (s : State M C) (c : C) : Bool :=
  match (s.cpu c).pc with
  | .away p => (s.thread p).lkHeld
  | _ => false

/-- No CPU runs process `p` or is about to. -/
def State.Resting (s : State M C) (p : Slot) : Prop := ∀ c, (s.cpu c).pc ≠ .away p ∧ (s.cpu c).pc ≠ .going p

structure Inv (s : State M C) : Prop where
  wf : ∀ p, (s.thread p).Wf
  nodup : ∀ p, ((s.thread p).locks p).Nodup
  locks : ∀ q c, s.lock q = some c ↔ q ∈ s.locks c
  lk : ∀ c, s.lk = some c ↔ s.lkHeld c = true
  proc : ∀ c, (s.cpu c).proc = (s.cpu c).pc.engaged
  once : ∀ c c' p, (s.cpu c).pc.engaged = some p → (s.cpu c').pc.engaged = some p → c = c'
  away : ∀ c p, (s.cpu c).pc = .away p → (s.thread p).runs = true ∧ (s.proc p).state = (s.thread p).shows
  going : ∀ c p, (s.cpu c).pc = .going p → (s.thread p).resumable = true ∧ (s.proc p).state = .running
  rest : ∀ p, s.Resting p → (s.thread p).rests (s.proc p).state
  filling : ∀ p j, s.thread p = .fork (.fill j) → (s.proc j).state = .unused
  saved : ∀ p, (s.thread p).resumable = true → s.resumed p = 0
  resumed : ∀ p, s.resumed p ≤ 1

variable {c c' : C}

theorem State.locks_away (hc : (s.cpu c).pc = .away p) : s.locks c = (s.thread p).locks p := by
  simp only [locks, hc]

theorem State.lkHeld_away (hc : (s.cpu c).pc = .away p) : s.lkHeld c = (s.thread p).lkHeld := by
  simp only [lkHeld, hc]

theorem inv_boot : Inv (State.boot M C) where
  wf p := by by_cases h : p = initproc <;> simp [State.boot, h, Pc.Wf]
  nodup p := by by_cases h : p = initproc <;> simp [State.boot, h, Pc.locks]
  locks q c := by simp [State.boot, State.locks, CpuPc.locks]
  lk c := by simp [State.boot, State.lkHeld]
  proc c := rfl
  once c c' p h := by simp [State.boot, CpuPc.engaged] at h
  away c p h := by simp [State.boot] at h
  going c p h := by simp [State.boot] at h
  rest p _ := by by_cases h : p = initproc <;> simp [State.boot, h, Pc.rests]
  filling p j h := by by_cases hp : p = initproc <;> simp [State.boot, hp] at h
  saved p _ := rfl
  resumed p := by simp [State.boot]

namespace Inv

theorem unengaged (hi : Inv s) (hl : s.lock q = some c) (hne : (s.cpu c).pc.engaged ≠ some q)
    (hst : (s.proc q).state ≠ .running) (c' : C) : (s.cpu c').pc.engaged ≠ some q := by
  intro he
  -- it would have the lock
  suffices hmem : q ∈ s.locks c' by
    have hl' := (hi.locks q c').mpr hmem
    obtain rfl : c = c' := by simpa [hl] using hl'
    exact hne he
  cases hc' : (s.cpu c').pc with
  | going k =>
    obtain rfl : k = q := by simpa [hc', CpuPc.engaged] using he
    exact absurd (hi.going c' k hc').2 hst
  | away k =>
    obtain rfl : k = q := by simpa [hc', CpuPc.engaged] using he
    rw [State.locks_away hc']
    exact Pc.mem_locks_of_shows ((hi.away c' k hc').2 ▸ hst)
  | back k =>
    obtain rfl : k = q := by simpa [hc', CpuPc.engaged] using he
    simp [State.locks, hc', CpuPc.locks]
  | _ => simp [hc', CpuPc.engaged] at he

theorem resting (h : ∀ c, (s.cpu c).pc.engaged ≠ some q) : s.Resting q := fun c =>
  ⟨fun hc => h c (by rw [hc]; rfl), fun hc => h c (by rw [hc]; rfl)⟩

/-- What a CPU may do to the state of a process that is not on it. -/
def Turns (s t : State M C) (c : C) (q : Slot) : Prop :=
  (t.proc q).state = (s.proc q).state ∨
    s.lock q = some c ∧ ((s.proc q).state = .sleeping ∧ (t.proc q).state = .runnable ∨
      (s.proc q).state = .zombie ∧ (t.proc q).state = .unused)

theorem turns (hi : Inv s) (h : Turns s t c q) (hne : (s.cpu c).pc.engaged ≠ some q) :
    (∀ c', (s.cpu c').pc = .away q → (t.proc q).state = (s.thread q).shows) ∧
    (∀ c', (s.cpu c').pc = .going q → (t.proc q).state = .running) ∧
    (s.Resting q → (s.thread q).rests (t.proc q).state) := by
  rcases h with h | ⟨hl, h⟩
  · rw [h]
    exact ⟨fun c' hc' => (hi.away c' q hc').2, fun c' hc' => (hi.going c' q hc').2, hi.rest q⟩
  · have hst : (s.proc q).state ≠ .running := by
      rcases h with ⟨h, -⟩ | ⟨h, -⟩ <;> simp [h]
    have hrest := resting (hi.unengaged hl hne hst)
    refine ⟨fun c' hc' => absurd hc' (hrest c').1, fun c' hc' => absurd hc' (hrest c').2, fun _ => ?_⟩
    have hr := hi.rest q hrest
    rcases h with ⟨h, h'⟩ | ⟨h, h'⟩
    · rw [h] at hr
      rw [h']
      exact Pc.rests_runnable hr
    · rw [Pc.dead_of_rests hr (.inl h), h']
      exact .inr rfl

theorem turns_refl (h : t.proc q = s.proc q) : Turns s t c q := .inl (by rw [h])

theorem turns_wakeup {chan : Chan} (h : t.proc q = (s.proc q).wakeup chan) (hl : s.lock q = some c) :
    Turns s t c q := by
  unfold Turns
  rw [h, Proc.wakeup]
  split
  case isTrue hs => exact .inr ⟨hl, .inl ⟨hs.1, rfl⟩⟩
  case isFalse => exact .inl rfl

theorem turns_kill (h : t.proc q = (s.proc q).kill) (hl : s.lock q = some c) : Turns s t c q := by
  unfold Turns
  rw [h]
  simp only [Proc.kill]
  split
  case isTrue hs => exact .inr ⟨hl, .inl ⟨hs, rfl⟩⟩
  case isFalse => exact .inl rfl

/-- What the invariant says of a process that no CPU but `c` is engaged with. -/
structure Fits (s : State M C) (c : C) (p : Slot) : Prop where
  wf : (s.thread p).Wf
  nodup : ((s.thread p).locks p).Nodup
  away : (s.cpu c).pc = .away p → (s.thread p).runs = true ∧ (s.proc p).state = (s.thread p).shows
  going : (s.cpu c).pc = .going p → (s.thread p).resumable = true ∧ (s.proc p).state = .running
  rest : (s.cpu c).pc ≠ .away p → (s.cpu c).pc ≠ .going p → (s.thread p).rests (s.proc p).state
  filling : ∀ j, s.thread p = .fork (.fill j) → (s.proc j).state = .unused
  saved : (s.thread p).resumable = true → s.resumed p = 0
  resumed : s.resumed p ≤ 1

theorem alone (hi : Inv s) (hc : (s.cpu c).pc.engaged = some p) (hne : c' ≠ c) :
    (s.cpu c').pc.engaged ≠ some p := fun h => hne (hi.once c' c p h hc)

theorem exists_away (hi : Inv s) (h : (s.thread p).runs = true) : ∃ c, (s.cpu c).pc = .away p := by
  by_contra hno
  have hno' : ∀ c, (s.cpu c).pc ≠ .away p := fun c hc => hno ⟨c, hc⟩
  have hsaved := Pc.not_resumable h
  by_cases hg : ∃ c, (s.cpu c).pc = .going p
  · obtain ⟨c, hc⟩ := hg
    simp [(hi.going c p hc).1] at hsaved
  · have hr := hi.rest p fun c => ⟨hno' c, fun hc => hg ⟨c, hc⟩⟩
    cases hpc : s.thread p <;> simp_all [Pc.rests, Pc.runs]

theorem sleep_of_sleeping (hi : Inv s) (hst : (s.proc q).state = .sleeping) :
    ∃ w, s.thread q = .sleep w .sched ∧ (∃ c, (s.cpu c).pc = .away q) ∨ s.thread q = .sleep w .saved := by
  by_cases haway : ∃ c, (s.cpu c).pc = .away q
  · obtain ⟨c, hc⟩ := haway
    have hshows := (hi.away c q hc).2
    rw [hst] at hshows
    cases hpc : s.thread q with
    | sleep w i => cases i <;> simp [hpc, Pc.shows] at hshows; exact ⟨w, .inl ⟨rfl, c, hc⟩⟩
    | yield i k => cases i <;> simp [hpc, Pc.shows] at hshows
    | exit st i => cases i <;> simp [hpc, Pc.shows, Exit.shows] at hshows
    | _ => simp [hpc, Pc.shows] at hshows
  · have hr := hi.rest q fun c => ⟨fun hc => haway ⟨c, hc⟩, fun hc => by simp [(hi.going c q hc).2] at hst⟩
    rw [hst] at hr
    cases hpc : s.thread q with
    | sleep w i =>
      obtain rfl : i = .saved := by simpa [hpc, Pc.rests] using hr
      exact ⟨w, .inr rfl⟩
    | _ => simp [hpc, Pc.rests] at hr

theorem dead_of_unused (hi : Inv s) (hst : (s.proc q).state = .unused) : s.thread q = .dead := by
  refine Pc.dead_of_rests (hi.rest q fun c => ⟨fun hc => ?_, fun hc => ?_⟩) (.inr hst)
  · exact Pc.shows_ne_unused (hst.symm.trans (hi.away c q hc).2).symm
  · simp [(hi.going c q hc).2] at hst

variable [DecidableEq C]

theorem local_step (hi : Inv s) (A : Slot → Prop) (hcpu : ∀ c', c' ≠ c → t.cpu c' = s.cpu c')
    (hproc : (t.cpu c).proc = (t.cpu c).pc.engaged) (hold : ∀ q, (s.cpu c).pc.engaged = some q → A q)
    (hnew : ∀ q, (t.cpu c).pc.engaged = some q → A q)
    (halone : ∀ q c', A q → c' ≠ c → (s.cpu c').pc.engaged ≠ some q)
    (hother : ∀ q, ¬ A q → t.thread q = s.thread q ∧ t.resumed q = s.resumed q ∧ Turns s t c q)
    (hheld : ∀ q, A q → (t.proc q).state = (s.proc q).state ∨ s.lock q = some c)
    (hlock : ∀ q c', t.lock q = some c' ↔ if c' = c then q ∈ t.locks c else s.lock q = some c')
    (hlk : ∀ c', t.lk = some c' ↔ if c' = c then t.lkHeld c = true else s.lk = some c')
    (hfits : ∀ q, A q → Fits t c q) : Inv t := by
  have haway : ∀ {c' q}, c' ≠ c → (s.cpu c').pc = .away q → t.thread q = s.thread q := by
    intro c' q hne hc'
    exact (hother q fun hA => halone q c' hA hne (by rw [hc']; rfl)).1
  constructor
  case wf =>
    intro q
    by_cases h : A q
    · exact (hfits q h).wf
    · rw [(hother q h).1]; exact hi.wf q
  case nodup =>
    intro q
    by_cases h : A q
    · exact (hfits q h).nodup
    · rw [(hother q h).1]; exact hi.nodup q
  case locks =>
    intro q c'
    rw [hlock]
    split
    case isTrue h => rw [h]
    case isFalse h =>
      have hsame : t.locks c' = s.locks c' := by
        simp only [State.locks, hcpu c' h]
        split
        · rw [haway h ‹_›]
        · rfl
      rw [hsame]
      exact hi.locks q c'
  case lk =>
    intro c'
    rw [hlk]
    split
    case isTrue h => rw [h]
    case isFalse h =>
      have hsame : t.lkHeld c' = s.lkHeld c' := by
        simp only [State.lkHeld, hcpu c' h]
        split
        · rw [haway h ‹_›]
        · rfl
      rw [hsame]
      exact hi.lk c'
  case proc =>
    intro c'
    by_cases h : c' = c
    · rw [h]; exact hproc
    · rw [hcpu c' h]; exact hi.proc c'
  case once =>
    intro c1 c2 q h1 h2
    by_cases e1 : c1 = c <;> by_cases e2 : c2 = c
    · rw [e1, e2]
    · rw [e1] at h1
      rw [hcpu c2 e2] at h2
      exact absurd h2 (halone q c2 (hnew q h1) e2)
    · rw [e2] at h2
      rw [hcpu c1 e1] at h1
      exact absurd h1 (halone q c1 (hnew q h2) e1)
    · rw [hcpu c1 e1] at h1
      rw [hcpu c2 e2] at h2
      exact hi.once c1 c2 q h1 h2
  case away =>
    intro c' q hc'
    by_cases h : c' = c
    · subst h
      exact (hfits q (hnew q (by rw [hc']; rfl))).away hc'
    · rw [hcpu c' h] at hc'
      have hA : ¬ A q := fun hA => halone q c' hA h (by rw [hc']; rfl)
      obtain ⟨hth, -, hturns⟩ := hother q hA
      rw [hth]
      exact ⟨(hi.away c' q hc').1, (hi.turns hturns fun he => hA (hold q he)).1 c' hc'⟩
  case going =>
    intro c' q hc'
    by_cases h : c' = c
    · subst h
      exact (hfits q (hnew q (by rw [hc']; rfl))).going hc'
    · rw [hcpu c' h] at hc'
      have hA : ¬ A q := fun hA => halone q c' hA h (by rw [hc']; rfl)
      obtain ⟨hth, -, hturns⟩ := hother q hA
      rw [hth]
      exact ⟨(hi.going c' q hc').1, (hi.turns hturns fun he => hA (hold q he)).2.1 c' hc'⟩
  case rest =>
    intro q hrest
    by_cases hA : A q
    · exact (hfits q hA).rest (hrest c).1 (hrest c).2
    · obtain ⟨hth, -, hturns⟩ := hother q hA
      rw [hth]
      refine (hi.turns hturns fun he => hA (hold q he)).2.2 fun c' => ?_
      by_cases h : c' = c
      · subst h
        constructor <;> intro h <;> exact hA (hold q (by rw [h]; rfl))
      · rw [← hcpu c' h]; exact hrest c'
  case filling =>
    intro q j hfill
    by_cases hA : A q
    · exact (hfits q hA).filling j hfill
    · rw [(hother q hA).1] at hfill
      have hun := hi.filling q j hfill
      -- another CPU runs `q` and has the lock of the entry
      obtain ⟨c', hc'⟩ := hi.exists_away (by rw [hfill]; rfl)
      have hne : c' ≠ c := by
        rintro rfl
        exact hA (hold q (by rw [hc']; rfl))
      have hl : s.lock j = some c' :=
        (hi.locks j c').mpr (by rw [State.locks_away hc', hfill]; simp [Pc.locks, Fork.locks])
      have hnl : s.lock j ≠ some c := by simpa [hl] using hne
      have hsame : (t.proc j).state = (s.proc j).state := by
        by_cases hj : A j
        · exact (hheld j hj).resolve_right hnl
        · exact (hother j hj).2.2.resolve_right fun h => hnl h.1
      rw [hsame, hun]
  case saved =>
    intro q hsaved
    by_cases h : A q
    · exact (hfits q h).saved hsaved
    · obtain ⟨hth, hres, -⟩ := hother q h
      rw [hth] at hsaved
      rw [hres]; exact hi.saved q hsaved
  case resumed =>
    intro q
    by_cases h : A q
    · exact (hfits q h).resumed
    · rw [(hother q h).2.1]; exact hi.resumed q

theorem proceed (hi : Inv s) (hc : (s.cpu c).pc = .away p) (hcpu : t.cpu = s.cpu)
    (hth : t.thread = update s.thread p pc) (hwf : pc.Wf) (hruns : pc.runs = true) (hnodup : (pc.locks p).Nodup)
    (hlock : ∀ q c', t.lock q = some c' ↔ if c' = c then q ∈ pc.locks p else s.lock q = some c')
    (hlk : ∀ c', t.lk = some c' ↔ if c' = c then pc.lkHeld = true else s.lk = some c')
    (hstate : (t.proc p).state = pc.shows) (hown : pc.shows = (s.thread p).shows ∨ p ∈ (s.thread p).locks p)
    (hfill : ∀ j, pc = .fork (.fill j) → (t.proc j).state = .unused) (hother : ∀ q, q ≠ p → Turns s t c q)
    (hres : t.resumed = s.resumed) : Inv t := by
  have hp : t.thread p = pc := by rw [hth, update_self]
  have hct : (t.cpu c).pc = .away p := by rw [hcpu, hc]
  have hengaged : ∀ q, (s.cpu c).pc.engaged = some q → q = p := by
    intro q h
    simpa [hc, CpuPc.engaged, eq_comm] using h
  refine hi.local_step (· = p) (fun c' _ => by rw [hcpu]) (by rw [hcpu]; exact hi.proc c) hengaged
    (by rw [hcpu]; exact hengaged) ?_ ?_ ?_ ?_ ?_ ?_
  · rintro q c' rfl hne
    exact hi.alone (by rw [hc]; rfl) hne
  · intro q hne
    exact ⟨by rw [hth, update_of_ne hne], by rw [hres], hother q hne⟩
  · rintro q rfl
    rcases hown with h | h
    · exact .inl (by rw [hstate, h, (hi.away c q hc).2])
    · exact .inr ((hi.locks q c).mpr (by rw [State.locks_away hc]; exact h))
  · rw [State.locks_away hct, hp]; exact hlock
  · rw [State.lkHeld_away hct, hp]; exact hlk
  · rintro q rfl
    have hsaved := Pc.not_resumable hruns
    exact {
      wf := by rw [hp]; exact hwf
      nodup := by rw [hp]; exact hnodup
      away := fun _ => by rw [hp]; exact ⟨hruns, hstate⟩
      going := fun h => by simp [hct] at h
      rest := fun h => absurd hct h
      filling := fun j h => hfill j (by rw [← hp, h])
      saved := fun h => by simp [hp, hsaved] at h
      resumed := by rw [hres]; exact hi.resumed q }

theorem idle (hi : Inv s) {x : Cpu} (hc : (s.cpu c).pc.engaged = none) (hcpu : t.cpu = update s.cpu c x)
    (hx : x.proc = none) (hpc : x.pc.engaged = none) (hth : t.thread = s.thread)
    (hlock : ∀ q c', t.lock q = some c' ↔ if c' = c then q ∈ x.pc.locks else s.lock q = some c')
    (hlk : t.lk = s.lk) (hother : ∀ q, Turns s t c q) (hres : t.resumed = s.resumed) : Inv t := by
  have hself : t.cpu c = x := by rw [hcpu, update_self]
  refine hi.local_step (fun _ => False) (fun c' h => by rw [hcpu, update_of_ne h])
    (by rw [hself, hx, hpc]) (by simp [hc]) (by simp [hself, hpc]) (by simp) ?_ (by simp) ?_ ?_ (by simp)
  · intro q _
    exact ⟨by rw [hth], by rw [hres], hother q⟩
  · have hlocks : t.locks c = x.pc.locks := by
      simp only [State.locks, hself]
      split
      case h_1 h => simp [h, CpuPc.engaged] at hpc
      case h_2 => rfl
    rw [hlocks]; exact hlock
  · intro c'
    have h1 : t.lkHeld c = false := by
      simp only [State.lkHeld, hself]
      split
      case h_1 h => simp [h, CpuPc.engaged] at hpc
      case h_2 => rfl
    have h2 : s.lkHeld c = false := by
      simp only [State.lkHeld]
      split
      case h_1 h => simp [h, CpuPc.engaged] at hc
      case h_2 => rfl
    split
    case isTrue h => rw [h, hlk, h1, ← h2]; exact hi.lk c
    case isFalse h => rw [hlk]

/-! ### The steps of a process -/

theorem lock_same (hi : Inv s) (hc : (s.cpu c).pc = .away p) (h : pc.locks p = (s.thread p).locks p)
    (q : Slot) (c' : C) :
    s.lock q = some c' ↔ if c' = c then q ∈ pc.locks p else s.lock q = some c' := by
  split
  case isTrue hcc => rw [hcc, h, ← State.locks_away hc]; exact hi.locks q c
  case isFalse => rfl

theorem lk_same (hi : Inv s) (hc : (s.cpu c).pc = .away p) (h : pc.lkHeld = (s.thread p).lkHeld) (c' : C) :
    s.lk = some c' ↔ if c' = c then pc.lkHeld = true else s.lk = some c' := by
  split
  case isTrue hcc => rw [hcc, h, ← State.lkHeld_away hc]; exact hi.lk c
  case isFalse => rfl

theorem write (hi : Inv s) (hc : (s.cpu c).pc = .away p) (hcpu : t.cpu = s.cpu)
    (hth : t.thread = update s.thread p pc) (hwf : pc.Wf) (hruns : pc.runs = true)
    (hl : pc.locks p = (s.thread p).locks p) (hk : pc.lkHeld = (s.thread p).lkHeld) (hlock : t.lock = s.lock)
    (hlk : t.lk = s.lk) (hres : t.resumed = s.resumed) (hstate : (t.proc p).state = pc.shows)
    (hown : pc.shows = (s.thread p).shows ∨ p ∈ (s.thread p).locks p)
    (hfill : ∀ j, pc = .fork (.fill j) → (t.proc j).state = .unused) (hother : ∀ q, q ≠ p → Turns s t c q) :
    Inv t :=
  hi.proceed hc hcpu hth hwf hruns (hl ▸ hi.nodup p) (by rw [hlock]; exact hi.lock_same hc hl)
    (by rw [hlk]; exact hi.lk_same hc hk) hstate hown hfill hother hres

end Inv

theorem Writes.turns {x : Proc} {pc' : Pc M.Loc} (hw : Writes s p pc q x pc') (hl : s.lock q = some c) (hne : q ≠ p)
    (hfill : ∀ j, pc = .fork (.fill j) → (s.proc j).state = .unused) (hq : t.proc q = x) : Inv.Turns s t c q := by
  cases hw with
  | wakeup chan => exact Inv.turns_wakeup hq hl
  | kill pid => exact Inv.turns_kill hq hl
  | init status => exact Inv.turns_wakeup hq hl
  | give status op => exact .inl (by rw [hq])
  | fail => exact .inl (by rw [hq, hfill q rfl]; rfl)
  | _ => exact absurd rfl hne

namespace Inv

theorem lock_of_mem (hi : Inv s) (hc : (s.cpu c).pc = .away p) (hq : q ∈ (s.thread p).locks p) :
    s.lock q = some c := (hi.locks q c).mpr (by rw [State.locks_away hc]; exact hq)

variable [DecidableEq C]

section

variable (hi : Inv s) (hc : (s.cpu c).pc = .away p)

include hi hc

theorem perform_write {x : Proc} (hw : Writes s p (s.thread p) q x pc) (hwf : pc.Wf) (hruns : pc.runs = true)
    (hl : pc.locks p = (s.thread p).locks p) (hk : pc.lkHeld = (s.thread p).lkHeld) :
    Inv { s with thread := update s.thread p pc, proc := update s.proc q x } := by
  obtain ⟨-, hst⟩ := hi.away c p hc
  have hlock := hi.lock_of_mem hc hw.mem_locks
  have hfill := hi.filling p
  refine hi.write hc rfl rfl hwf hruns hl hk rfl rfl rfl (hw.own hst hfill) ?_ ?_ ?_
  · by_cases h : p = q
    · exact .inr (h ▸ hw.mem_locks)
    · left
      rw [← hst, ← hw.own hst hfill, update_of_ne h]
  · exact fun j h => absurd h (hw.ne_fill j)
  · intro r hr
    by_cases h : r = q
    · subst h
      exact hw.turns hlock hr hfill (by simp)
    · exact turns_refl (by simp [update_of_ne h])

theorem perform_spawn (hpc : s.thread p = .fork (.fill q)) :
    Inv { s with
      thread := update (update s.thread q .fresh) p (.fork (.done q))
      proc := update s.proc q { s.proc q with parent := some p, state := .runnable }
      born := update s.born q s.births
      births := s.births + 1
      resumed := update s.resumed q 0 } := by
  have hun := hi.filling p q hpc
  obtain ⟨-, hst⟩ := hi.away c p hc
  have hqp : q ≠ p := by
    rintro rfl
    simp [hun, hpc, Pc.shows] at hst
  have hlock : s.lock q = some c := hi.lock_of_mem hc (by rw [hpc]; exact List.mem_cons_self ..)
  have hengaged : (s.cpu c).pc.engaged = some p := by rw [hc]; rfl
  have hq := hi.unengaged hlock (by rw [hengaged]; simpa using hqp.symm) (by simp [hun])
  have hsame : (Pc.fork (.done q) : Pc M.Loc).locks p = (s.thread p).locks p := by rw [hpc]; rfl
  have hlocks := hi.lock_same hc hsame
  have hlk := hi.lk_same hc (show (Pc.fork (.done q) : Pc M.Loc).lkHeld = _ by rw [hpc]; rfl)
  refine hi.local_step (fun r => r = p ∨ r = q) (fun _ _ => rfl) (hi.proc c) ?_ ?_ ?_ ?_ ?_ ?_ ?_ ?_
  · intro r hr
    exact .inl (by simpa [hengaged, eq_comm] using hr)
  · intro r hr
    exact .inl (by simpa [hengaged, eq_comm] using hr)
  · rintro r c' (rfl | rfl) hne
    · exact hi.alone hengaged hne
    · exact hq c'
  · intro r hr
    obtain ⟨hrp, hrq⟩ := not_or.mp hr
    exact ⟨by simp [update_of_ne hrp, update_of_ne hrq],
      by simp [update_of_ne hrq], turns_refl (by simp [update_of_ne hrq])⟩
  · rintro r (rfl | rfl)
    · exact .inl (by simp [update_of_ne hqp.symm])
    · exact .inr hlock
  · simpa [State.locks, hc] using hlocks
  · simpa [State.lkHeld, hc] using hlk
  · rintro r (rfl | rfl)
    · constructor <;> simp [update_of_ne hqp.symm, hc, Pc.Wf, Pc.locks, Fork.locks, hst, hpc, Pc.shows,
        Pc.resumable, hi.resumed]
      rfl
    · constructor <;> simp [update_of_ne hqp, Pc.Wf, Pc.locks, Pc.resumable, Pc.rests, resting hq c]

theorem perform_swtch (hl : (s.thread p).locks p = [p])
    (hl' : pc.locks p = []) (hrests : pc.rests (s.thread p).shows) (hwf : pc.Wf)
    (hlk : (s.thread p).lkHeld = false) (hfill : ∀ j, pc ≠ .fork (.fill j)) :
    Inv { s with
      thread := update s.thread p pc
      cpu := update s.cpu c { s.cpu c with pc := .back p }
      resumed := update s.resumed p 0 } := by
  have hengaged : (s.cpu c).pc.engaged = some p := by rw [hc]; rfl
  obtain ⟨-, hst⟩ := hi.away c p hc
  refine hi.local_step (c := c) (· = p) ?_ ?_ ?_ ?_ ?_ ?_ ?_ ?_ ?_ ?_
  · intro c' hne
    simp [update_of_ne hne]
  · simp only [update_self, hi.proc c, hengaged]
    rfl
  · intro r hr
    simpa [hengaged, eq_comm] using hr
  · intro r hr
    simpa [CpuPc.engaged, eq_comm] using hr
  · rintro r c' rfl hne
    exact hi.alone hengaged hne
  · intro r hr
    exact ⟨by simp [update_of_ne hr], by simp [update_of_ne hr], turns_refl rfl⟩
  · exact fun r _ => .inl rfl
  · -- the scheduler has the lock now
    intro r c'
    have h := hi.lock_same hc (show (s.thread p).locks p = _ from rfl) r c'
    simpa [State.locks, CpuPc.locks, hl] using h
  · intro c'
    have h := hi.lk_same hc (show (s.thread p).lkHeld = _ from rfl) c'
    simpa [State.lkHeld, hlk] using h
  · rintro r rfl
    constructor <;> simp [hwf, hl', hst, hrests, hfill]

theorem perform (ha : code s p ch (s.thread p) = some a) (h : perform s c p a = some t) : Inv t := by
  have hwf' := hi.wf p
  have hl := code_locks hwf' a ha
  have hk := code_lk hwf' a ha
  have hwf := code_wf hwf' a ha
  have hp := code_place hwf' a ha
  have hs := code_special hwf' a ha
  obtain ⟨-, hst⟩ := hi.away c p hc
  cases a with
  | goto pc =>
    cases h
    exact hi.write hc rfl rfl hwf hp.1 hl hk rfl rfl rfl (hst.trans hp.2.symm) (.inl hp.2)
      (fun j hj => absurd hj (hs j)) fun q _ => turns_refl rfl
  | acquire q pc =>
    simp only [Sched.perform] at h
    split at h
    case isFalse => cases h
    case isTrue hfree =>
    cases h
    have hl' : pc.locks p = q :: (s.thread p).locks p := hl
    refine hi.proceed hc rfl rfl hwf hp.1 ?_ ?_ (hi.lk_same hc hk) (hst.trans hp.2.symm) (.inl hp.2)
      (fun j hj => absurd hj (hs j)) (fun q _ => turns_refl rfl) rfl
    · rw [hl', List.nodup_cons]
      refine ⟨fun hmem => ?_, hi.nodup p⟩
      simp [hi.lock_of_mem hc hmem] at hfree
    · intro r c'
      rw [hl', List.mem_cons]
      by_cases hr : r = q
      · subst hr
        simp [hfree, eq_comm]
      · simp only [update_of_ne hr, hr, false_or]
        exact hi.lock_same hc rfl r c'
  | release q pc =>
    cases h
    have hl' : ((s.thread p).locks p).Perm (q :: pc.locks p) := hl
    have hnodup := hl'.nodup_iff.mp (hi.nodup p)
    rw [List.nodup_cons] at hnodup
    refine hi.proceed hc rfl rfl hwf hp.1 hnodup.2 ?_ (hi.lk_same hc hk) (hst.trans hp.2.symm) (.inl hp.2)
      (fun j hj => absurd hj (hs j)) (fun q _ => turns_refl rfl) rfl
    intro r c'
    by_cases hr : r = q
    · subst hr
      have hlock := hi.lock_of_mem hc (hl'.mem_iff.mpr (List.mem_cons_self ..))
      simp only [update_self, hlock]
      split
      case isTrue => simp [hnodup.1]
      case isFalse h => simp [Ne.symm h]
    · simp only [update_of_ne hr]
      have hmem : r ∈ (s.thread p).locks p ↔ r ∈ pc.locks p := by simp [hl'.mem_iff, hr]
      rw [← hmem]
      exact hi.lock_same hc rfl r c'
  | acquireLk pc =>
    simp only [Sched.perform] at h
    split at h
    case isFalse => cases h
    case isTrue hfree =>
    cases h
    refine hi.proceed hc rfl rfl hwf hp.1 (hl ▸ hi.nodup p) (hi.lock_same hc hl) ?_ (hst.trans hp.2.symm) (.inl hp.2)
      (fun j hj => absurd hj (hs j)) (fun q _ => turns_refl rfl) rfl
    intro c'
    simp [hk.2, hfree, eq_comm]
  | releaseLk pc =>
    cases h
    refine hi.proceed hc rfl rfl hwf hp.1 (hl ▸ hi.nodup p) (hi.lock_same hc hl) ?_ (hst.trans hp.2.symm) (.inl hp.2)
      (fun j hj => absurd hj (hs j)) (fun q _ => turns_refl rfl) rfl
    intro c'
    have hlk : s.lk = some c := (hi.lk c).mpr (by rw [State.lkHeld_away hc]; exact hk.1)
    simp only [hlk, hk.2]
    split
    case isTrue => simp
    case isFalse h => simp [Ne.symm h]
  | write q x pc =>
    cases h
    exact hi.perform_write hc hs hwf hp hl hk
  | number q pc =>
    cases h
    obtain ⟨hpc, rfl, hun⟩ := hs
    have hstate : ∀ r, (update s.proc q { s.proc q with pid := s.nextpid } r).state = (s.proc r).state := by
      intro r
      by_cases hr : r = q
      · subst hr; simp
      · rw [update_of_ne hr]
    refine hi.write hc rfl rfl hwf hp.1 hl hk rfl rfl rfl (by rw [hstate, hst]; exact hp.2.symm) (.inl hp.2) ?_
      fun r _ => .inl (hstate r)
    intro j hj
    obtain rfl : q = j := by simpa using hj
    rw [hstate, hun]
  | spawn q pc =>
    cases h
    obtain ⟨hpc, rfl⟩ := hs
    exact hi.perform_spawn hc hpc
  | finish op status pc =>
    cases h
    obtain ⟨hpc, rfl⟩ := hs
    have hmem : ∀ r, r ∈ [p, op] → r ∈ (s.thread p).locks p := fun r hr => by rw [hpc]; exact hr
    refine hi.write hc rfl rfl hwf hp.1 hl hk rfl rfl rfl (by simpa using hp.2.symm) (.inr (hmem p (by simp)))
      (by simp) ?_
    intro r hr
    by_cases hro : r = op
    · subst hro
      exact turns_wakeup ((update_of_ne hr ..).trans (update_self ..)) (hi.lock_of_mem hc (hmem r (by simp)))
    · exact turns_refl (by simp [update_of_ne hr, update_of_ne hro])
  | reap q pc =>
    cases h
    obtain ⟨addr, hpc, rfl, hz⟩ := hs
    have hmem : q ∈ (s.thread p).locks p := by rw [hpc]; exact List.mem_cons_self ..
    have hqp : p ≠ q := by
      rintro rfl
      simp [hst, hpc, Pc.shows] at hz
    refine hi.write hc rfl rfl hwf hp.1 hl hk rfl rfl rfl ?_ (.inl hp.2) (by simp) ?_
    · show (update s.proc q Proc.free p).state = _
      rw [update_of_ne hqp]
      exact hst.trans hp.2.symm
    · intro r hr
      by_cases hrq : r = q
      · subst hrq
        exact .inr ⟨hi.lock_of_mem hc hmem, .inr ⟨hz, by simp [Proc.free]⟩⟩
      · exact turns_refl (by simp [update_of_ne hrq])
  | update d pc =>
    cases h
    obtain ⟨l, l', -, rfl⟩ := hs
    exact hi.write hc rfl rfl hwf hp.1 hl hk rfl rfl rfl (hst.trans hp.2.symm) (.inl hp.2) (by simp)
      fun q _ => turns_refl rfl
  | swtch pc =>
    cases h
    refine hi.perform_swtch hc hl.1 hl.2 hp.1 hwf ?_ ?_
    · obtain ⟨k, h, -⟩ | ⟨w, h, -⟩ | ⟨st, h, -⟩ := hs <;> rw [h] <;> rfl
    · obtain ⟨k, -, rfl⟩ | ⟨w, -, rfl⟩ | ⟨st, -, rfl⟩ := hs <;> simp

theorem procStep (h : procStep s c p ch = some t) : Inv t := by
  obtain ⟨-, hst⟩ := hi.away c p hc
  cases ch with
  | timer =>
    simp only [Sched.procStep] at h
    split at h
    case isFalse => cases h
    case isTrue hk =>
    cases h
    obtain ⟨hl, hlk, -, hshows, -⟩ := Pc.interruptible_spec hk.1 p
    exact hi.write hc rfl rfl hk.1 rfl hl.symm hlk.symm rfl rfl rfl (by rw [hst, hshows]; rfl) (.inl hshows.symm)
      (by simp) fun q _ => turns_refl rfl
  | device chan =>
    simp only [Sched.procStep] at h
    split at h
    case isFalse => cases h
    case isTrue hk =>
    cases h
    obtain ⟨hl, -, -, hshows, -⟩ := Pc.interruptible_spec hk p
    exact hi.write hc rfl rfl (.inl hk) rfl hl.symm rfl rfl rfl rfl (by rw [hst, hshows]; rfl) (.inl hshows.symm)
      (by simp) fun q _ => turns_refl rfl
  | _ =>
    obtain ⟨a, ha, ht⟩ := Option.bind_eq_some_iff.mp h
    exact hi.perform hc ha ht

end

/-! ### The steps of the scheduler -/

section

variable (hi : Inv s)

include hi

theorem lock_idle {pc : CpuPc} (hc : (s.cpu c).pc.engaged = none) (h : pc.locks = (s.cpu c).pc.locks)
    (q : Slot) (c' : C) : s.lock q = some c' ↔ if c' = c then q ∈ pc.locks else s.lock q = some c' := by
  have hlocks : s.locks c = (s.cpu c).pc.locks := by
    simp only [State.locks]
    split
    case h_1 h => simp [h, CpuPc.engaged] at hc
    case h_2 => rfl
  split
  case isTrue hcc => rw [hcc, h, ← hlocks]; exact hi.locks q c
  case isFalse => rfl

theorem lk_idle (hc : ∀ p, (s.cpu c).pc ≠ .away p) (c' : C) : s.lk = some c' ↔ c' ≠ c ∧ s.lk = some c' := by
  have hlk : s.lkHeld c = false := by
    unfold State.lkHeld
    split
    case h_1 h => exact absurd h (hc _)
    case h_2 => rfl
  by_cases hcc : c' = c
  · simp [hcc, hi.lk c, hlk]
  · simp [hcc]

theorem sched_goto {pc : CpuPc} (hc : (s.cpu c).pc.engaged = none) (hpc : pc.engaged = none)
    (hl : pc.locks = (s.cpu c).pc.locks) : Inv (s.setCpu c { s.cpu c with pc := pc }) :=
  hi.idle hc rfl (by rw [hi.proc c, hc]) hpc rfl (hi.lock_idle hc hl) rfl (fun q => turns_refl rfl) rfl

theorem sched_acquire {pc : CpuPc} (hc : (s.cpu c).pc.engaged = none) (hpc : pc.engaged = none)
    (hold : (s.cpu c).pc.locks = []) (hl : pc.locks = [q]) (hfree : s.lock q = none) :
    Inv { s.setCpu c { s.cpu c with pc := pc } with lock := update s.lock q (some c) } := by
  refine hi.idle hc rfl (by rw [hi.proc c, hc]) hpc rfl ?_ rfl (fun q => turns_refl rfl) rfl
  intro r c'
  rw [hl, List.mem_singleton]
  by_cases hr : r = q
  · subst hr
    simp [hfree, eq_comm]
  · have h := hi.lock_idle hc rfl r c'
    rw [hold] at h
    simpa [update_of_ne hr, hr] using h

theorem sched_release {pc : CpuPc} (hc : (s.cpu c).pc.engaged = none) (hpc : pc.engaged = none)
    (hold : (s.cpu c).pc.locks = [q]) (hl : pc.locks = []) :
    Inv { s.setCpu c { s.cpu c with pc := pc } with lock := update s.lock q none } := by
  refine hi.idle hc rfl (by rw [hi.proc c, hc]) hpc rfl ?_ rfl (fun q => turns_refl rfl) rfl
  intro r c'
  have h := hi.lock_idle hc rfl r c'
  rw [hold, List.mem_singleton] at h
  rw [hl]
  by_cases hr : r = q
  · subst hr
    split
    case isTrue => simp
    case isFalse hne =>
      have hlock := (hi.lock_idle hc rfl r c).mpr (by simp [hold])
      simp [hlock, Ne.symm hne]
  · simpa [update_of_ne hr, hr] using h

theorem intrStep {chan : Chan} {i : Scan} {k : Nat} (hc : (s.cpu c).pc = .intr chan i k)
    (h : intrStep s c chan k i = some t) : Inv t := by
  have hengaged : (s.cpu c).pc.engaged = none := by rw [hc]; rfl
  cases i with
  | acquire j =>
    simp only [Sched.intrStep] at h
    split at h
    case isTrue hj =>
      split at h
      case isFalse => cases h
      case isTrue hfree =>
      cases h
      exact hi.sched_acquire hengaged rfl (by rw [hc]; rfl) rfl hfree
    case isFalse =>
      cases h
      exact hi.sched_goto hengaged rfl (by rw [hc]; rfl)
  | body j =>
    cases h
    have hl : (CpuPc.intr chan (.release j false) k).locks = (s.cpu c).pc.locks := by rw [hc]; rfl
    have hlock := (hi.lock_idle hengaged hl j c).mpr (by simp [CpuPc.locks, Scan.locks])
    refine hi.idle hengaged rfl (by rw [hi.proc c, hengaged]) rfl rfl (hi.lock_idle hengaged hl) rfl ?_ rfl
    intro q
    by_cases hq : q = j
    · subst hq
      exact turns_wakeup (update_self ..) hlock
    · exact turns_refl (by simp [update_of_ne hq])
  | release j d =>
    cases h
    exact hi.sched_release hengaged rfl (by rw [hc]; rfl) rfl

theorem choose (hc : (s.cpu c).pc = .test p) (hst : (s.proc p).state = .runnable) :
    Inv { s.setCpu c ⟨some p, .going p⟩ with
      proc := update s.proc p { s.proc p with state := .running } } := by
  have hengaged : (s.cpu c).pc.engaged = none := by rw [hc]; rfl
  have hl : (CpuPc.going p).locks = (s.cpu c).pc.locks := by rw [hc]; rfl
  have hlock := (hi.lock_idle hengaged hl p c).mpr (by simp [CpuPc.locks])
  have hp := hi.unengaged hlock (by simp [hengaged]) (by simp [hst])
  have hrests := hi.rest p (resting hp)
  have hth := Pc.resumable_of_rests hrests (by simp [hst]) (by simp [hst])
  refine hi.local_step (c := c) (· = p) ?_ ?_ ?_ ?_ ?_ ?_ ?_ ?_ ?_ ?_
  · intro c' hne
    simp [State.setCpu, update_of_ne hne]
  · simp [State.setCpu, CpuPc.engaged]
  · simp [hengaged]
  · simp [State.setCpu, CpuPc.engaged, eq_comm]
  · rintro r c' rfl -
    exact hp c'
  · intro r hr
    exact ⟨rfl, rfl, turns_refl (by simp [update_of_ne hr])⟩
  · rintro r rfl
    exact .inr hlock
  · simpa [State.locks, State.setCpu] using hi.lock_idle hengaged hl
  · simpa [State.lkHeld, State.setCpu] using hi.lk_idle (c := c) (by rw [hc]; simp)
  · rintro r rfl
    constructor <;> simp [State.setCpu, hi.wf, hi.nodup, hth, hi.saved]
    intro j hj
    simp [hj, Pc.resumable] at hth

theorem load (hc : (s.cpu c).pc = .going p) :
    Inv { s.setCpu c { s.cpu c with pc := .away p } with
      thread := update s.thread p (s.thread p).resume
      resumed := update s.resumed p (s.resumed p + 1) } := by
  have hengaged : (s.cpu c).pc.engaged = some p := by rw [hc]; rfl
  obtain ⟨hsaved, hst⟩ := hi.going c p hc
  obtain ⟨hruns, hshows, hlocks, hlk, hwf, hfork⟩ := Pc.resume_spec hsaved p
  refine hi.local_step (c := c) (· = p) ?_ ?_ ?_ ?_ ?_ ?_ ?_ ?_ ?_ ?_
  · intro c' hne
    simp [State.setCpu, update_of_ne hne]
  · simp only [State.setCpu, update_self, hi.proc c, hengaged]
    rfl
  · intro r hr
    simpa [hengaged, eq_comm] using hr
  · simp [State.setCpu, CpuPc.engaged, eq_comm]
  · rintro r c' rfl hne
    exact hi.alone hengaged hne
  · intro r hr
    exact ⟨by simp [update_of_ne hr], by simp [update_of_ne hr], turns_refl rfl⟩
  · exact fun r _ => .inl rfl
  · intro r c'
    have h := hi.locks r c'
    by_cases hcc : c' = c
    · subst hcc
      simpa [State.locks, State.setCpu, hc, CpuPc.locks, hlocks] using h
    · simp [State.setCpu, hcc]
  · simpa [State.lkHeld, State.setCpu, hlk] using hi.lk_idle (c := c) (by rw [hc]; simp)
  · rintro r rfl
    constructor <;> simp [State.setCpu, hwf (hi.wf r), hlocks, hruns, hst, hshows, Pc.not_resumable hruns, hfork,
    hi.saved r hsaved]

theorem leave (hc : (s.cpu c).pc = .back p) : Inv (s.setCpu c ⟨none, .unlock p⟩) := by
  have hengaged : (s.cpu c).pc.engaged = some p := by rw [hc]; rfl
  refine hi.local_step (c := c) (· = p) ?_ ?_ ?_ ?_ ?_ ?_ ?_ ?_ ?_ ?_
  · intro c' hne
    simp [State.setCpu, update_of_ne hne]
  · simp [State.setCpu, CpuPc.engaged]
  · intro r hr
    simpa [hengaged, eq_comm] using hr
  · simp [State.setCpu, CpuPc.engaged]
  · rintro r c' rfl hne
    exact hi.alone hengaged hne
  · exact fun r _ => ⟨rfl, rfl, turns_refl rfl⟩
  · exact fun r _ => .inl rfl
  · intro r c'
    have h := hi.locks r c'
    by_cases hcc : c' = c
    · subst hcc
      simpa [State.locks, State.setCpu, hc, CpuPc.locks] using h
    · simp [State.setCpu, hcc]
  · simpa [State.lkHeld, State.setCpu] using hi.lk_idle (c := c) (by rw [hc]; simp)
  · rintro r rfl
    have hrest : s.Resting r := by
      intro c'
      by_cases hcc : c' = c
      · simp [hcc, hc]
      · have h := hi.alone hengaged hcc
        constructor <;> intro h' <;> exact h (by rw [h']; rfl)
    constructor <;> simp [State.setCpu, hi.wf, hi.nodup, hi.rest r hrest, hi.resumed]
    · exact hi.filling r
    · exact hi.saved r

theorem step {e : C × Choice M} (h : step s e = some t) : Inv t := by
  obtain ⟨c, ch⟩ := e
  simp only [Sched.step] at h
  split at h
  case h_1 k hc =>
    have hengaged : (s.cpu c).pc.engaged = none := by rw [hc]; rfl
    cases ch with
    | go =>
      dsimp only at h
      split at h
      case isTrue hk =>
        split at h
        case isFalse => cases h
        case isTrue hfree =>
        cases h
        exact hi.sched_acquire hengaged rfl (by rw [hc]; rfl) rfl hfree
      case isFalse =>
        cases h
        exact hi.sched_goto hengaged rfl (by rw [hc]; rfl)
    | device chan =>
      cases h
      exact hi.sched_goto hengaged rfl (by rw [hc]; rfl)
    | _ => cases h
  case h_2 chan i k hc => exact hi.intrStep hc h
  case h_3 k hc =>
    split at h
    case isTrue hst =>
      cases h
      exact hi.choose hc hst
    case isFalse =>
      cases h
      exact hi.sched_goto (by rw [hc]; rfl) rfl (by rw [hc]; rfl)
  case h_4 k hc =>
    cases h
    exact hi.load hc
  case h_5 p hc => exact hi.procStep hc h
  case h_6 k hc =>
    cases h
    exact hi.leave hc
  case h_7 k hc =>
    cases h
    exact hi.sched_release (by rw [hc]; rfl) rfl (by rw [hc]; rfl) rfl

end

end Inv

theorem Reachable.inv [DecidableEq C] (h : Reachable s) : Inv s := by
  obtain ⟨es, hrun⟩ := h
  exact hrun.inv (I := fun _ s => Inv s) inv_boot fun _ _ _ _ _ hi _ hs => hi.step hs

end Xv6.Sched

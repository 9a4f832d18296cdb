import Xv6.Lib.Run
import Xv6.Panic
import Mathlib.Logic.Function.Basic

/-!
# Interrupts and nesting

`push_off` and `pop_off` of `kernel/spinlock.c` nest; the count `noff` and the state to go back to,
`intena`, belong to the CPU, and `sched` saves `intena` for the thread that leaves. Here any number of CPUs
run the scheduler and the kernel threads of processes, which nest `push_off` and `pop_off` as they like,
enable and disable interrupts outside of them, are interrupted, give up the CPU in `sched` and resume on any
other.

`push_off` reads the old state before it disables interrupts, so the thread may be interrupted, and move, in
between. The scheduler is a thread too, but nothing saves its `intena`: its `release` goes back to what the
last process had.
-/

namespace Xv6.Intr

open Function (update update_of_ne update_self)
open Machine (Run any)

/-- A kernel thread. The depth, and what comes before the pending read, are history: whether interrupts were
enabled before the outermost `push_off` (nothing for the `release` in `forkret`), and, if the thread has let
others run since, the `intena` that the last one left in the CPU. -/
structure Thread where
  depth : Nat := 0
  before : Option Bool := none
  handed : Option Bool := none
  /-- `old` of a `push_off` that has not disabled interrupts yet -/
  pend : Option Bool := none
  /-- the same of the code that was interrupted -/
  frames : List (Option Bool) := []
  deriving DecidableEq

/-- A CPU with the thread that runs on it. While a process runs, the scheduler's thread is kept aside. -/
structure Cpu (P : Type) where
  sie : Bool := false
  noff : Int := 0
  intena : Bool := false
  cur : Thread := {}
  away : Option (P × Thread) := none

variable {C P : Type}

def Cpu.pushOff (cpu : Cpu P) (old : Bool) : Cpu P :=
  { cpu with sie := false, intena := if cpu.noff = 0 then old else cpu.intena, noff := cpu.noff + 1 }

def Cpu.popOff (cpu : Cpu P) : Except Panic (Cpu P) :=
  if cpu.sie then .error .popOffInterruptible
  else if cpu.noff < 1 then .error .popOff
  else .ok { cpu with noff := cpu.noff - 1, sie := if cpu.noff - 1 = 0 ∧ cpu.intena = true then true else cpu.sie }

/-- An outermost `pop_off` of a process, or of a scheduler: what it was handed in between, the state before the matching
`push_off` and that after. -/
structure Restored (P : Type) where
  proc : Option P
  handed : Option Bool
  before : Bool
  after : Bool
  deriving DecidableEq

inductive Action (P : Type)
  /-- `push_off`, up to `old = intr_get()` -/
  | intrGet
  /-- the rest of `push_off` -/
  | push
  | pop
  | intrOn
  | intrOff
  /-- an interrupt, when they are enabled -/
  | trap
  | trapret
  /-- `sched`, by a process -/
  | sched
  /-- `swtch` to a process, by the scheduler -/
  | swtch (p : P)

inductive Event (C P : Type)
  | on (c : C) (a : Action P)
  /-- the slot is freed and allocated: the next run begins in `forkret` -/
  | alloc (p : P)

/-- A process that does not run has a thread and, if it is in `sched`, the `intena` that it saved. -/
structure State (C P : Type) where
  cpu : C → Cpu P
  ctx : P → Option (Thread × Option Bool)
  panicked : Option Panic := none
  log : List (Restored P) := []

/-- A thread that will return to `forkret`, which releases the lock that the scheduler acquired. -/
def fresh : Thread := { depth := 1 }

def boot : State C P := { cpu := fun _ => {}, ctx := fun _ => some (fresh, none) }

def Thread.push (t : Thread) (old : Bool) : Thread :=
  { t with
    depth := t.depth + 1
    before := if t.depth = 0 then some old else t.before
    handed := if t.depth = 0 then none else t.handed
    pend := none }

/-- What an outermost `pop_off` restored. -/
def Cpu.restored (cpu : Cpu P) (sie : Bool) : List (Restored P) :=
  if cpu.cur.depth = 1 then (cpu.cur.before.map fun b => ⟨cpu.away.map (·.1), cpu.cur.handed, b, sie⟩).toList else []

section Step

variable [DecidableEq C] [DecidableEq P]

def State.set (s : State C P) (c : C) (cpu : Cpu P) : State C P := { s with cpu := update s.cpu c cpu }

def act (s : State C P) (c : C) (cpu : Cpu P) : Action P → Option (State C P)
  | .intrGet =>
    if cpu.cur.pend = none then some (s.set c { cpu with cur := { cpu.cur with pend := some cpu.sie } }) else none
  | .push => cpu.cur.pend.map fun old => s.set c { cpu.pushOff old with cur := cpu.cur.push old }
  | .pop =>
    if 0 < cpu.cur.depth ∧ cpu.cur.pend = none then
      match cpu.popOff with
      | .error e => some { s with panicked := some e }
      | .ok cpu' => some { s.set c { cpu' with cur := { cpu.cur with depth := cpu.cur.depth - 1 } } with
          log := s.log ++ cpu.restored cpu'.sie }
    else none
  | .intrOn =>
    if cpu.cur.depth = 0 ∧ cpu.cur.pend = none ∧ cpu.cur.frames = [] then some (s.set c { cpu with sie := true })
    else none
  | .intrOff =>
    if cpu.cur.depth = 0 ∧ cpu.cur.pend = none ∧ cpu.cur.frames = [] then some (s.set c { cpu with sie := false })
    else none
  | .trap =>
    if cpu.sie then
      some (s.set c { cpu with
        sie := false
        cur := { cpu.cur with pend := none, frames := cpu.cur.pend :: cpu.cur.frames } })
    else none
  | .trapret =>
    match cpu.cur.frames with
    | [] => none
    | f :: fs =>
      if cpu.cur.depth = 0 ∧ cpu.cur.pend = none then
        some (s.set c { cpu with sie := true, cur := { cpu.cur with pend := f, frames := fs } })
      else none
  | .sched =>
    match cpu.away with
    | none => none
    | some (p, sch) =>
      -- `p->lock` is held, and perhaps other locks
      if 0 < cpu.cur.depth ∧ cpu.cur.pend = none then
        if cpu.noff ≠ 1 then some { s with panicked := some .schedLocks }
        else if cpu.sie then some { s with panicked := some .schedInterruptible }
        else some { s.set c { cpu with cur := { sch with handed := some cpu.intena }, away := none } with
          ctx := update s.ctx p (some (cpu.cur, some cpu.intena)) }
      else none
  | .swtch p =>
    match cpu.away, s.ctx p with
    | none, some (t, saved) =>
      if cpu.cur.depth = 1 ∧ cpu.cur.pend = none then
        some { s.set c { cpu with cur := t, away := some (p, cpu.cur), intena := saved.getD cpu.intena } with
          ctx := update s.ctx p none }
      else none
    | _, _ => none

def step (s : State C P) : Event C P → Option (State C P)
  | .on c a => if s.panicked = none then act s c (s.cpu c) a else none
  | .alloc p => if (s.ctx p).isSome then some { s with ctx := update s.ctx p (some (fresh, none)) } else none

end Step

/-! ## The invariant -/

structure CpuInv (cpu : Cpu P) : Prop where
  noff : cpu.noff = cpu.cur.depth
  off : 0 < cpu.cur.depth → cpu.sie = false
  intena : ∀ b, 0 < cpu.cur.depth → cpu.cur.before = some b → cpu.intena = cpu.cur.handed.getD b
  pend : ∀ old, cpu.cur.pend = some old → cpu.sie = old
  /-- code that was interrupted had interrupts enabled -/
  frames : some false ∉ cpu.cur.frames
  proc : ∀ p sch, cpu.away = some (p, sch) → cpu.cur.handed = none ∧ sch.depth = 1 ∧ sch.pend = none ∧
    some false ∉ sch.frames

/-- A thread that does not run holds one lock, and `sched` will put its own `intena` back. -/
structure CtxInv (t : Thread) (saved : Option Bool) : Prop where
  depth : t.depth = 1
  handed : t.handed = none
  pend : t.pend = none
  frames : some false ∉ t.frames
  saved : ∀ b, t.before = some b → saved = some b

/-- The state goes back to what was there before, or to what the last process left; nobody else runs in the
thread of a process. -/
def Restored.Good (x : Restored P) : Prop := x.after = x.handed.getD x.before ∧ (x.proc.isSome = true → x.handed = none)

/-- The only panic is that of `sched` in a process that holds another lock. -/
def State.PanicsOnlyLocked (s : State C P) : Prop :=
  ∀ e, s.panicked = some e → e = .schedLocks ∧ ∃ c, 1 < (s.cpu c).noff ∧ (s.cpu c).away.isSome = true

structure Inv (s : State C P) : Prop where
  cpu : ∀ c, CpuInv (s.cpu c)
  ctx : ∀ p t saved, s.ctx p = some (t, saved) → CtxInv t saved
  panicked : s.PanicsOnlyLocked
  log : ∀ x ∈ s.log, x.Good

theorem ctxInv_fresh : CtxInv fresh none := ⟨rfl, rfl, rfl, List.not_mem_nil, fun b h => by cases h⟩

theorem inv_boot : Inv (boot : State C P) where
  cpu c := ⟨rfl, fun h => absurd h (Nat.lt_irrefl 0), fun b h => absurd h (Nat.lt_irrefl 0), fun old h => (by cases h),
    List.not_mem_nil, fun p sch h => (by cases h)⟩
  ctx p t saved h := by
    obtain ⟨rfl, rfl⟩ := Prod.mk.inj (Option.some.inj h)
    exact ctxInv_fresh
  panicked e h := by cases h
  log x hx := absurd hx List.not_mem_nil

variable {cpu : Cpu P}

section

variable (h : CpuInv cpu)

include h

theorem CpuInv.push (old : Bool) : CpuInv { cpu.pushOff old with cur := cpu.cur.push old } where
  noff := by
    change cpu.noff + 1 = ((cpu.cur.depth + 1 : Nat) : Int)
    rw [h.noff]
    rfl
  off _ := rfl
  intena b _ hb := by
    change (if cpu.noff = 0 then old else cpu.intena) = (if cpu.cur.depth = 0 then none else cpu.cur.handed).getD b
    change (if cpu.cur.depth = 0 then some old else cpu.cur.before) = some b at hb
    rw [h.noff]
    by_cases h0 : cpu.cur.depth = 0
    · rw [if_pos h0] at hb
      rw [if_pos (by rw [h0]; rfl), if_pos h0]
      exact Option.some.inj hb
    · rw [if_neg h0] at hb
      rw [if_neg (by omega), if_neg h0]
      exact h.intena b (Nat.pos_of_ne_zero h0) hb
  pend old' h' := by cases h'
  frames := h.frames
  proc p sch haway := by
    obtain ⟨hh, hrest⟩ := h.proc p sch haway
    refine ⟨?_, hrest⟩
    change (if cpu.cur.depth = 0 then none else cpu.cur.handed) = none
    rw [hh, ite_self]

theorem CpuInv.popOff_eq (hpos : 0 < cpu.cur.depth) : cpu.popOff =
    .ok { cpu with noff := cpu.noff - 1, sie := if cpu.cur.depth = 1 then cpu.intena else false } := by
  have hsie := h.off hpos
  have hnoff := h.noff
  have hnew : (if cpu.noff - 1 = 0 ∧ cpu.intena = true then true else false) =
    if cpu.cur.depth = 1 then cpu.intena else false := by
    by_cases h1 : cpu.cur.depth = 1
    · rw [if_pos h1]
      cases cpu.intena with
      | true => exact if_pos ⟨by omega, rfl⟩
      | false => exact if_neg fun hc => Bool.noConfusion hc.2
    · rw [if_neg h1, if_neg fun hc => h1 (by omega)]
  rw [Cpu.popOff, hsie, if_neg (by decide), if_neg (by omega), hnew]

theorem CpuInv.pop (hpos : 0 < cpu.cur.depth) (hp : cpu.cur.pend = none) :
    CpuInv { cpu with
      noff := cpu.noff - 1
      sie := if cpu.cur.depth = 1 then cpu.intena else false
      cur := { cpu.cur with depth := cpu.cur.depth - 1 } } where
  noff := by
    change cpu.noff - 1 = ((cpu.cur.depth - 1 : Nat) : Int)
    have := h.noff
    omega
  off hpos' := by
    change 0 < cpu.cur.depth - 1 at hpos'
    exact if_neg (by omega)
  intena b _ hb := h.intena b hpos hb
  pend old hold := by
    change cpu.cur.pend = some old at hold
    simp [hp] at hold
  frames := h.frames
  proc := h.proc

theorem CpuInv.restored : ∀ x ∈ cpu.restored (if cpu.cur.depth = 1 then cpu.intena else false), x.Good := by
  intro x hx
  rw [Cpu.restored] at hx
  by_cases h1 : cpu.cur.depth = 1
  · rw [if_pos h1, if_pos h1] at hx
    obtain ⟨b, hb, rfl⟩ := Option.map_eq_some_iff.mp (Option.mem_toList.mp hx)
    refine ⟨h.intena b (by omega) hb, fun hsome => ?_⟩
    obtain ⟨p, hp⟩ := Option.isSome_iff_exists.mp hsome
    obtain ⟨⟨p', sch⟩, haway, -⟩ := Option.map_eq_some_iff.mp hp
    exact (h.proc p' sch haway).1
  · rw [if_neg h1] at hx
    exact absurd hx List.not_mem_nil

theorem CpuInv.switch (h0 : cpu.cur.depth = 0) (hp : cpu.cur.pend = none) (on : Bool) :
    CpuInv { cpu with sie := on } where
  noff := h.noff
  off hpos := absurd hpos (by rw [h0]; exact Nat.lt_irrefl 0)
  intena := h.intena
  pend old hold := by
    change cpu.cur.pend = some old at hold
    simp [hp] at hold
  frames := h.frames
  proc := h.proc

theorem CpuInv.trap (hs : cpu.sie = true) :
    CpuInv { cpu with
      sie := false
      cur := { cpu.cur with pend := none, frames := cpu.cur.pend :: cpu.cur.frames } } where
  noff := h.noff
  off _ := rfl
  intena := h.intena
  pend old hold := by cases hold
  frames hmem := by
    rcases List.mem_cons.mp hmem with hpend | hold
    · have := h.pend false hpend.symm
      simp [hs] at this
    · exact h.frames hold
  proc := h.proc

theorem CpuInv.trapret {f : Option Bool} {fs : List (Option Bool)} (hf : cpu.cur.frames = f :: fs)
    (h0 : cpu.cur.depth = 0) :
    CpuInv { cpu with sie := true, cur := { cpu.cur with pend := f, frames := fs } } where
  noff := h.noff
  off hpos := absurd hpos (by rw [show cpu.cur.depth = 0 from h0]; exact Nat.lt_irrefl 0)
  intena := h.intena
  pend old hold := by
    have hne := h.frames
    rw [hf, List.mem_cons, not_or] at hne
    change f = some old at hold
    cases old with
    | true => rfl
    | false => exact absurd hold.symm hne.1
  frames hmem := h.frames (by rw [hf]; exact List.mem_cons_of_mem f hmem)
  proc := h.proc

theorem CpuInv.sched {p : P} {sch : Thread} (haway : cpu.away = some (p, sch)) (h1 : cpu.cur.depth = 1)
    (hp : cpu.cur.pend = none) :
    CpuInv ({ cpu with cur := { sch with handed := some cpu.intena }, away := none } : Cpu P) ∧
      CtxInv cpu.cur (some cpu.intena) := by
  obtain ⟨hh, hd, hsp, hsf⟩ := h.proc p sch haway
  refine ⟨⟨?_, fun _ => h.off (by omega), fun b _ _ => rfl, fun old hold => ?_, hsf, fun p' sch' hc => (by cases hc)⟩,
    ⟨h1, hh, hp, h.frames, fun b hb => ?_⟩⟩
  · change cpu.noff = (sch.depth : Int)
    rw [h.noff, h1, hd]
  · change sch.pend = some old at hold
    simp [hsp] at hold
  · rw [h.intena b (by omega) hb, hh]
    rfl

theorem CpuInv.swtch {p : P} {t : Thread} {saved : Option Bool} (ht : CtxInv t saved) (h1 : cpu.cur.depth = 1)
    (hp : cpu.cur.pend = none) :
    CpuInv { cpu with cur := t, away := some (p, cpu.cur), intena := saved.getD cpu.intena } where
  noff := by
    change cpu.noff = (t.depth : Int)
    rw [h.noff, h1, ht.depth]
  off _ := h.off (by omega)
  intena b _ hb := by
    change saved.getD cpu.intena = t.handed.getD b
    rw [ht.saved b hb, ht.handed]
    rfl
  pend old hold := by
    change t.pend = some old at hold
    simp [ht.pend] at hold
  frames := ht.frames
  proc p' sch hc := by
    obtain ⟨-, rfl⟩ := Prod.mk.inj (Option.some.inj hc)
    exact ⟨ht.handed, h1, hp, h.frames⟩

end

/-! ## Every step keeps it -/

section Steps

variable [DecidableEq C] [DecidableEq P] {s s' : State C P} {c : C}

omit [DecidableEq P] in
theorem Inv.set (h : Inv s) (hrun : s.panicked = none) (hc : CpuInv cpu) : Inv (s.set c cpu) where
  cpu c' := by
    change CpuInv (update s.cpu c cpu c')
    by_cases hcc : c' = c
    · rw [hcc, update_self]
      exact hc
    · rw [update_of_ne hcc]
      exact h.cpu c'
  ctx := h.ctx
  panicked e he := by simp [State.set, hrun] at he
  log := h.log

omit [DecidableEq C] in
theorem Inv.ctx_update (h : Inv s) (p : P) {x : Option (Thread × Option Bool)}
    (hx : ∀ t saved, x = some (t, saved) → CtxInv t saved) :
    Inv { s with ctx := update s.ctx p x } where
  cpu := h.cpu
  ctx p' t saved hp' := by
    change update s.ctx p x p' = some (t, saved) at hp'
    by_cases hpp : p' = p
    · rw [hpp, update_self] at hp'
      exact hx t saved hp'
    · rw [update_of_ne hpp] at hp'
      exact h.ctx p' t saved hp'
  panicked := h.panicked
  log := h.log

omit [DecidableEq C] [DecidableEq P] in
theorem Inv.log_append (h : Inv s) {l : List (Restored P)} (hl : ∀ x ∈ l, x.Good) :
    Inv { s with log := s.log ++ l } where
  cpu := h.cpu
  ctx := h.ctx
  panicked := h.panicked
  log x hx := (List.mem_append.mp hx).elim (h.log x) (hl x)

theorem Inv.act (h : Inv s) (hrun : s.panicked = none) {a : Action P} (hs : act s c (s.cpu c) a = some s') :
    Inv s' := by
  have hc := h.cpu c
  generalize hcpu : s.cpu c = cpu at hs hc
  cases a with
  | intrGet =>
    rw [Intr.act] at hs
    split_ifs at hs with hp
    obtain rfl := Option.some.inj hs
    refine h.set hrun ⟨hc.noff, hc.off, hc.intena, fun old hold => ?_, hc.frames, hc.proc⟩
    exact Option.some.inj hold
  | push =>
    obtain ⟨old, hp, rfl⟩ := Option.map_eq_some_iff.mp hs
    exact h.set hrun (hc.push old)
  | pop =>
    rw [Intr.act] at hs
    split_ifs at hs with hok
    rw [hc.popOff_eq hok.1] at hs
    obtain rfl := Option.some.inj hs
    exact (h.set hrun (hc.pop hok.1 hok.2)).log_append hc.restored
  | intrOn =>
    rw [Intr.act] at hs
    split_ifs at hs with hok
    obtain rfl := Option.some.inj hs
    exact h.set hrun (hc.switch hok.1 hok.2.1 true)
  | intrOff =>
    rw [Intr.act] at hs
    split_ifs at hs with hok
    obtain rfl := Option.some.inj hs
    exact h.set hrun (hc.switch hok.1 hok.2.1 false)
  | trap =>
    rw [Intr.act] at hs
    split_ifs at hs with hok
    obtain rfl := Option.some.inj hs
    exact h.set hrun (hc.trap hok)
  | trapret =>
    rw [Intr.act] at hs
    cases hf : cpu.cur.frames with
    | nil =>
      simp [hf] at hs
    | cons f fs =>
      simp only [hf] at hs
      split_ifs at hs with hok
      obtain rfl := Option.some.inj hs
      exact h.set hrun (hc.trapret hf hok.1)
  | sched =>
    rw [Intr.act] at hs
    cases haway : cpu.away with
    | none =>
      simp [haway] at hs
    | some x =>
      obtain ⟨p, sch⟩ := x
      simp only [haway] at hs
      have hnoff := hc.noff
      split_ifs at hs with hok hlocks hsie
      · -- other locks are held
        obtain rfl := Option.some.inj hs
        refine ⟨h.cpu, h.ctx, fun e he => ⟨(Option.some.inj he).symm, c, ?_⟩, h.log⟩
        rw [hcpu, haway]
        exact ⟨by omega, rfl⟩
      · simp [hc.off hok.1] at hsie
      · obtain ⟨hnew, hctx⟩ := hc.sched haway (by omega) hok.2
        obtain rfl := Option.some.inj hs
        refine (h.set hrun hnew).ctx_update p fun t saved ht => ?_
        obtain ⟨rfl, rfl⟩ := Prod.mk.inj (Option.some.inj ht)
        exact hctx
  | swtch p =>
    rw [Intr.act] at hs
    split at hs
    · next t saved haway hctx =>
      split_ifs at hs with hok
      obtain rfl := Option.some.inj hs
      exact (h.set hrun (hc.swtch (h.ctx p t saved hctx) hok.1 hok.2)).ctx_update p fun t' saved' ht' => (by cases ht')
    · cases hs

theorem Inv.step (h : Inv s) {e : Event C P} (hs : step s e = some s') : Inv s' := by
  cases e with
  | on c a =>
    rw [Intr.step] at hs
    split_ifs at hs with hrun
    exact h.act hrun hs
  | alloc p =>
    rw [Intr.step] at hs
    split_ifs at hs
    obtain rfl := Option.some.inj hs
    refine h.ctx_update p fun t saved ht => ?_
    obtain ⟨rfl, rfl⟩ := Prod.mk.inj (Option.some.inj ht)
    exact ctxInv_fresh

/-- In every run, `noff` is the depth of the running thread, interrupts are off while it is positive,
`sched` panics only in a process that holds another lock, and nothing else panics. Each process's outermost
`pop_off` restores what was there before its `push_off`, wherever it has run in between. So does a
scheduler's, if no process has run in between; otherwise it goes back to the `intena` that the last one
left. -/
theorem interrupts_restored {es : List (Event C P)} (hrun : Run Intr.step any boot es s) :
    (∀ e, s.panicked = some e → e = .schedLocks ∧ ∃ c, 1 < (s.cpu c).noff ∧ (s.cpu c).away.isSome = true) ∧
      (∀ c, (s.cpu c).noff = (s.cpu c).cur.depth ∧ (0 < (s.cpu c).noff → (s.cpu c).sie = false)) ∧
      ∀ x ∈ s.log, (x.proc.isSome = true → x.after = x.before) ∧ (x.handed = none → x.after = x.before) ∧
        ∀ b, x.handed = some b → x.after = b := by
  have h : Inv s := hrun.inv (I := fun _ s => Inv s) inv_boot fun _ _ _ _ _ ht _ hs => ht.step hs
  refine ⟨h.panicked, fun c => ⟨(h.cpu c).noff, fun hpos => (h.cpu c).off ?_⟩, fun x hx => ?_⟩
  · rw [(h.cpu c).noff] at hpos
    exact Int.natCast_pos.mp hpos
  · obtain ⟨hafter, hproc⟩ := h.log x hx
    have hkept : x.handed = none → x.after = x.before := fun hh => by rw [hafter, hh]; rfl
    exact ⟨fun hp => hkept (hproc hp), hkept, fun b hb => by rw [hafter, hb]; rfl⟩

end Steps

/-- A new process runs on the first CPU, enables interrupts, acquires a lock, sleeps and goes on on the second CPU. -/
def migration : List (Event Bool Unit) :=
  [.on false .intrOn, .on false .intrGet, .on false .push, .on false (.swtch ()), .on false .pop,
  .on false .intrGet, .on false .push,
    .on false .sched, .on false .pop, .on true .intrGet, .on true .push, .on true (.swtch ()), .on true .pop]

theorem interrupts_restored_migration : ∃ s : State Bool Unit, Run step any boot migration s ∧
    (⟨some (), none, true, true⟩ : Restored Unit) ∈ s.log ∧ s.panicked = none ∧
    (∀ c, (s.cpu c).noff = (s.cpu c).cur.depth ∧ (0 < (s.cpu c).noff → (s.cpu c).sie = false)) ∧
    ∀ x ∈ s.log, (x.proc.isSome = true → x.after = x.before) ∧ (x.handed = none → x.after = x.before) ∧
      ∀ b, x.handed = some b → x.after = b := by
  obtain ⟨s, hrun, hlog, hpanicked⟩ : ∃ s, Run step any (boot : State Bool Unit) migration s ∧
      ⟨some (), none, true, true⟩ ∈ s.log ∧ s.panicked = none := by decide +kernel
  exact ⟨s, hrun, hlog, hpanicked, (interrupts_restored hrun).2⟩

/-- A new process runs and gives up the CPU in a timer interrupt from user space, where interrupts are off
in the kernel. -/
def tick : List (Event Unit Unit) :=
  [.on () .intrOn, .on () .intrGet, .on () .push, .on () (.swtch ()), .on () .pop, .on () .intrOff,
  .on () .intrGet, .on () .push, .on () .sched, .on () .pop]

/-- The scheduler had interrupts enabled before it acquired the process's lock, and has them disabled after
it released it. -/
theorem scheduler_release_leaves_off : ∃ s : State Unit Unit, Run step any boot tick s ∧
    (⟨none, some false, true, false⟩ : Restored Unit) ∈ s.log ∧ (s.cpu ()).sie = false := by
  obtain ⟨s, hs, hlog⟩ : ∃ s, Run step any (boot : State Unit Unit) tick s ∧
      ⟨none, some false, true, false⟩ ∈ s.log ∧ (s.cpu ()).sie = false := by decide +kernel
  exact ⟨s, hs, hlog⟩

end Xv6.Intr

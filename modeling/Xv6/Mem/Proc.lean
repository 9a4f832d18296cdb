import Xv6.Sched.Machine
import Xv6.Vm.Grow

/-!
# The memory of processes

The functions of `kernel/proc.c` that allocate and free memory for processes: `allocproc`, `freeproc`,
`proc_pagetable`, `proc_freepagetable`, `growproc` and `fork`, on the process table and physical memory.
`kend` is where the kernel ends and `trampoline` is the page of the trampoline code. Open files and the
current directory are not part of it.

A fork that fails leaves the table as it was only if it got as far as `freeproc`: when there is no page for
the trapframe, `allocproc` returns with the new pid in a slot that stays `UNUSED`.
-/

namespace Xv6.Mem

open Hoare (Triple bind_of_ok)
open Vm (Pa VmM)
open Sched (Slot ProcState)
open Function (update update_of_ne update_self update_idem)

/-- `struct proc`, with the memory of the process. -/
structure Proc extends Sched.Proc where
  sz : BitVec 64 := 0
  pagetable : Option Pa := none
  trapframe : Option Pa := none
  name : Bytes 16 := fun _ => 0

structure State where
  vm : Vm.State
  proc : Slot → Proc
  nextpid : BitVec 32

abbrev MemM := EStateM Panic State

/-- A function of `kernel/vm.c` or `kernel/kalloc.c`. -/
def vm {α : Type} (x : VmM α) : MemM α := fun s =>
  match x s.vm with
  | .ok a t => .ok a { s with vm := t }
  | .error e t => .error e { s with vm := t }

def getProc (p : Slot) : MemM Proc := fun s => .ok (s.proc p) s

def setProc (p : Slot) (f : Proc → Proc) : MemM Unit := fun s =>
  .ok () { s with proc := update s.proc p (f (s.proc p)) }

def allocpid : MemM (BitVec 32) := fun s => .ok s.nextpid { s with nextpid := s.nextpid + 1 }

/-- A pointer is used. -/
def deref (a : Option Pa) : MemM Pa := fun s =>
  match a with
  | some a => .ok a s
  | none => .error .kerneltrap s

/-- The first slot that is `UNUSED`. -/
def State.unused (s : State) : Option Slot := (List.finRange NPROC).find? fun p => (s.proc p).state = .unused

def findUnused : MemM (Option Slot) := fun s => .ok s.unused s

/-- `safestrcpy(s, t, 16)`: copies up to a NUL or 15 bytes, and stores a NUL after that. -/
def safestrcpy (s t : Bytes 16) : Bytes 16 :=
  let n := min ((List.range 15).findIdx (fun k => t.get k = 0) + 1) 15
  (s.store 0 t.get n).set n 0

section Code

variable (kend : Nat) (trampoline : Pa)

/-- Create a user page table for a process with the given trapframe, with no user memory. -/
def procPagetable (trapframe : Pa) : VmM (Option Pa) := do
  match ← Vm.uvmcreate with
  | none => return none
  | some pagetable => do
    if (← Vm.mappages pagetable (BitVec.ofNat 64 Vm.TRAMPOLINE) 4096 trampoline
      ((Vm.PTE_R ||| Vm.PTE_X).setWidth 32)) < 0 then do
      Vm.uvmfree kend pagetable 0
      return none
    else if (← Vm.mappages pagetable (BitVec.ofNat 64 Vm.TRAPFRAME) 4096 trapframe
      ((Vm.PTE_R ||| Vm.PTE_W).setWidth 32)) < 0 then do
      Vm.uvmunmap kend pagetable (BitVec.ofNat 64 Vm.TRAMPOLINE) 1 false
      Vm.uvmfree kend pagetable 0
      return none
    else return some pagetable

/-- Free a process's page table, and free the physical memory it refers to. -/
def procFreepagetable (pagetable : Pa) (sz : BitVec 64) : VmM Unit := do
  Vm.uvmunmap kend pagetable (BitVec.ofNat 64 Vm.TRAMPOLINE) 1 false
  Vm.uvmunmap kend pagetable (BitVec.ofNat 64 Vm.TRAPFRAME) 1 false
  Vm.uvmfree kend pagetable sz

/-- What `freeproc` leaves of a process. -/
def Proc.free (x : Proc) : Proc :=
  { x with
    trapframe := none, pagetable := none, sz := 0, pid := 0, parent := none, name := x.name.set 0 0,
    chan := none, killed := false, xstate := 0, state := .unused }

def freeproc (p : Slot) : MemM Unit := do
  let x ← getProc p
  (match x.trapframe with
    | some trapframe => vm (Vm.kfree kend trapframe)
    | none => pure ())
  (match x.pagetable with
    | some pagetable => vm (procFreepagetable kend pagetable x.sz)
    | none => pure ())
  setProc p Proc.free

/-- Look in the process table for an `UNUSED` slot and give it a pid, a trapframe and an empty user page table. -/
def allocproc : MemM (Option Slot) := do
  match ← findUnused with
  | none => return none
  | some p => do
    let pid ← allocpid
    setProc p fun x => { x with pid := pid }
    let trapframe ← vm Vm.kalloc
    setProc p fun x => { x with trapframe := trapframe }
    match trapframe with
    | none => return none
    | some trapframe => do
      let pagetable ← vm (procPagetable kend trampoline trapframe)
      setProc p fun x => { x with pagetable := pagetable }
      match pagetable with
      | none => do
        freeproc kend p
        return none
      | some _ => return some p

/-- `*(np->trapframe) = *(p->trapframe); np->trapframe->a0 = 0` -/
def copyTrapframe (dst src : Pa) : VmM Unit := do
  let pg ← Vm.loadPage src
  Vm.storeBytes dst 0 pg.get 288
  Vm.storeBytes dst 112 (fun _ => 0) 8

/-- Create a new process, copying the parent `p`; the result is its pid. -/
def fork (p : Slot) : MemM (Option (BitVec 32)) := do
  match ← allocproc kend trampoline with
  | none => return none
  | some np => do
    let x ← getProc p
    let y ← getProc np
    let old ← deref x.pagetable
    let new ← deref y.pagetable
    if (← vm (Vm.uvmcopy kend old new x.sz)) < 0 then do
      freeproc kend np
      return none
    else do
      let src ← deref x.trapframe
      let dst ← deref y.trapframe
      vm (copyTrapframe dst src)
      setProc np fun y => { y with sz := x.sz, parent := some p, name := safestrcpy y.name x.name, state := .runnable }
      return some y.pid

/-- Kill the process with the given pid. -/
def kill (pid : BitVec 32) : MemM Int := fun s =>
  match (List.finRange NPROC).find? fun p => (s.proc p).pid = pid with
  | none => .ok (-1) s
  | some p =>
    let x := s.proc p
    .ok 0 { s with
      proc := update s.proc p { x with killed := true, state := if x.state = .sleeping then .runnable else x.state } }

/-- Grow or shrink user memory by `n` bytes. The size is an `unsigned int` here. -/
def growproc (p : Slot) (n : BitVec 32) : MemM Int := do
  let x ← getProc p
  let sz := x.sz.setWidth 32
  if 0 < n.toInt then do
    let pagetable ← deref x.pagetable
    let sz := (← vm (Vm.uvmalloc kend pagetable (sz.setWidth 64) ((sz + n).setWidth 64))).setWidth 32
    if sz = (0 : BitVec 32) then return -1
    else do
      setProc p fun x => { x with sz := sz.setWidth 64 }
      return 0
  else if n.toInt < 0 then do
    let pagetable ← deref x.pagetable
    let sz := (← vm (Vm.uvmdealloc kend pagetable (sz.setWidth 64) ((sz + n).setWidth 64))).setWidth 32
    setProc p fun x => { x with sz := (sz : BitVec 32).setWidth 64 }
    return 0
  else do
    setProc p fun x => { x with sz := sz.setWidth 64 }
    return 0

end Code

/-! ## A fork that fails -/

section Failure

variable {kend : Nat} {trampoline : Pa} {α : Type} {s : State} {p : Slot} {T : Slot → Proc}

/-- The process table is `T`. -/
def Procs (T : Slot → Proc) (s : State) : Prop := s.proc = T

/-- Nothing is said of a panic. -/
def anyPanic (_ : Panic) (_ : State) : Prop := True

theorem vm_procs (x : VmM α) : Triple (Procs T) (vm x) (fun _ => Procs T) anyPanic := by
  intro s hs
  rw [vm]
  cases x s.vm with
  | ok a t => exact hs
  | error e t => exact trivial

theorem deref_procs (a : Option Pa) : Triple (Procs T) (deref a) (fun _ => Procs T) anyPanic := by
  intro s hs
  cases a with
  | none => exact trivial
  | some a => exact hs

theorem getProc_procs : Triple (Procs T) (getProc p) (fun x s => x = T p ∧ Procs T s) anyPanic := by
  rintro s rfl
  exact ⟨rfl, rfl⟩

theorem setProc_procs (f : Proc → Proc) :
    Triple (Procs T) (setProc p f) (fun _ => Procs (update T p (f (T p)))) anyPanic := by
  rintro s rfl
  rfl

theorem freeproc_procs : Triple (Procs T) (freeproc kend p) (fun _ => Procs (update T p (T p).free)) anyPanic := by
  refine .bind_fact getProc_procs fun x _ => ?_
  have htf : Triple (Procs T) (match x.trapframe with | some tf => vm (Vm.kfree kend tf) | none => pure ())
      (fun _ => Procs T) anyPanic := by
    cases x.trapframe with
    | none => exact .pure fun _ hs => hs
    | some tf => exact vm_procs _
  have hpt : Triple (Procs T)
      (match x.pagetable with | some pt => vm (procFreepagetable kend pt x.sz) | none => pure ())
      (fun _ => Procs T) anyPanic := by
    cases x.pagetable with
    | none => exact .pure fun _ hs => hs
    | some pt => exact vm_procs _
  exact .bind htf fun _ => .bind hpt fun _ => setProc_procs _

/-- The process table after a call that failed. -/
def State.failed (s : State) : Slot → Proc :=
  match s.unused with
  | none => s.proc
  | some p =>
    if s.vm.freelist = [] then update s.proc p { s.proc p with pid := s.nextpid, trapframe := none }
    else update s.proc p (s.proc p).free

/-- What `allocproc` and `fork` leave: the slot has a pid and a trapframe, and `freeproc` would make it free. -/
def Allocated (s₀ : State) (r : Option Slot) (s : State) : Prop :=
  match r with
  | none => s.proc = s₀.failed
  | some p => s₀.unused = some p ∧ s₀.vm.freelist ≠ [] ∧ ∃ x, s.proc = update s₀.proc p x ∧ x.free = (s₀.proc p).free

theorem update_twice (T : Slot → Proc) (x : Proc) (f : Proc → Proc) :
    update (update T p x) p (f (update T p x p)) = update T p (f x) := by
  rw [update_self, update_idem]

theorem setProc_twice {x : Proc} (f : Proc → Proc) :
    Triple (Procs (update T p x)) (setProc p f) (fun _ => Procs (update T p (f x))) anyPanic :=
  (setProc_procs f).post fun _ t ht => by rwa [update_twice] at ht

theorem freeproc_twice {x : Proc} :
    Triple (Procs (update T p x)) (freeproc kend p) (fun _ => Procs (update T p x.free)) anyPanic :=
  freeproc_procs.post fun _ t ht => by rwa [update_twice] at ht

theorem allocproc_spec (s₀ : State) : Triple (· = s₀) (allocproc kend trampoline) (Allocated s₀) anyPanic := by
  rintro s rfl
  have hfind : findUnused s = .ok s.unused s := rfl
  rw [allocproc, bind_of_ok hfind]
  cases hun : s.unused with
  | none =>
    change s.proc = s.failed
    rw [State.failed, hun]
  | some p =>
    -- the slot after `p->pid = allocpid()`
    obtain ⟨x, hx⟩ : ∃ x, x = { s.proc p with pid := s.nextpid } := ⟨_, rfl⟩
    obtain ⟨s1, hs1⟩ : ∃ s1 : State, s1 = ⟨s.vm, update s.proc p x, s.nextpid + 1⟩ := ⟨_, rfl⟩
    have hpid : allocpid s = .ok s.nextpid { s with nextpid := s.nextpid + 1 } := rfl
    have hset : setProc p (fun x => { x with pid := s.nextpid }) { s with nextpid := s.nextpid + 1 } = .ok () s1 := by
      rw [hs1, hx]
      rfl
    have hproc : Procs (update s.proc p x) s1 := by
      rw [hs1]
      rfl
    have hvm : s1.vm = s.vm := by rw [hs1]
    change Hoare.Outcome _ _ ((allocpid >>= _) s)
    rw [bind_of_ok hpid, bind_of_ok hset]
    cases hfree : s.vm.freelist with
    | nil =>
      have hk : vm Vm.kalloc s1 = .ok none s1 := by
        rw [vm, Vm.kalloc, hvm, hfree, hs1]
      rw [bind_of_ok hk]
      refine Triple.bind (setProc_twice _) (fun _ => Triple.pure fun t ht => ?_) s1 hproc
      change t.proc = s.failed
      rw [State.failed, hun]
      simp only [hfree, if_true]
      rw [show t.proc = _ from ht, hx]
    | cons b rest =>
      have hne : s.vm.freelist ≠ [] := by
        rw [hfree]
        exact List.cons_ne_nil b rest
      obtain ⟨s2, hk, hs2⟩ : ∃ s2, vm Vm.kalloc s1 = .ok (some b) s2 ∧ s2.proc = s1.proc := by
        refine ⟨{ s1 with vm := ⟨update s.vm.ram b fun _ => 5, rest⟩ }, ?_, rfl⟩
        rw [vm, Vm.kalloc, hvm, hfree]
      rw [bind_of_ok hk]
      refine Triple.bind (setProc_twice _) (fun _ => Triple.bind (vm_procs _) fun r =>
        Triple.bind (setProc_twice _) fun _ => ?_) s2
        (hs2.trans hproc)
      cases r with
      | none =>
        refine .bind freeproc_twice fun _ => .pure fun t ht => ?_
        change t.proc = s.failed
        rw [State.failed, hun]
        simp only [hne, if_false]
        rw [show t.proc = _ from ht, hx]
        rfl
      | some pt =>
        refine .pure fun t ht => ⟨hun, hne, _, ht, ?_⟩
        rw [hx]
        rfl

theorem fork_spec (s₀ : State) :
    Triple (· = s₀) (fork kend trampoline p) (fun r s => r = none → s.proc = s₀.failed) anyPanic := by
  refine .bind (allocproc_spec s₀) fun r => ?_
  cases r with
  | none => exact .pure fun t ht _ => ht
  | some np =>
    refine .of_fact fun hun => .of_fact fun hne => .exists fun y => ?_
    refine .imp ?_ (fun s hs => hs.symm) (fun _ _ h => h) fun _ _ h => h
    refine .of_fact fun hy => .bind_fact getProc_procs fun x _ => ?_
    refine .bind_fact getProc_procs fun y' _ => ?_
    refine .bind (deref_procs _) fun old => .bind (deref_procs _) fun new => ?_
    refine .bind (vm_procs _) fun res => .ite (fun _ => ?_) fun _ => ?_
    · refine .bind freeproc_twice fun _ => .pure fun t ht _ => ?_
      rw [State.failed, hun]
      simp only [hne, if_false]
      rw [show t.proc = _ from ht, hy]
    · refine .bind (deref_procs _) fun src => .bind (deref_procs _) fun dst => ?_
      refine .bind (vm_procs _) fun _ => .bind (setProc_procs _) fun _ => .pure fun t _ h => ?_
      cases h

/-- The fields that a failed call has to leave as they were. -/
def Proc.view (x : Proc) : ProcState × BitVec 32 × Option Slot × Option Pa × Option Pa × BitVec 64 × Bool :=
  (x.state, x.pid, x.parent, x.trapframe, x.pagetable, x.sz, x.killed)

def Unchanged (s t : State) : Prop := ∀ p, (t.proc p).view = (s.proc p).view

/-- There was no free slot; or there was no page for the trapframe and the slot already had the pid it gets;
or it was as `freeproc` leaves it. -/
def Undoes (s : State) : Prop :=
  ∀ p, s.unused = some p →
    if s.vm.freelist = [] then (s.proc p).pid = s.nextpid ∧ (s.proc p).trapframe = none
    else (s.proc p).view = ({} : Proc).view

theorem update_view_iff {x : Proc} : (∀ q, (update T p x q).view = (T q).view) ↔ x.view = (T p).view := by
  refine ⟨fun h => by simpa using h p, fun h q => ?_⟩
  by_cases hq : q = p
  · rw [hq, update_self, h]
  · rw [update_of_ne hq]

theorem failed_iff (s t : State) (h : t.proc = s.failed) : Unchanged s t ↔ Undoes s := by
  rw [Unchanged, h, State.failed, Undoes]
  cases hun : s.unused with
  | none => exact ⟨fun _ p hp => (by cases hp), fun _ _ => rfl⟩
  | some p =>
    simp only [Option.some.injEq, forall_eq']
    split_ifs with hfree
    · rw [update_view_iff]
      simp only [Proc.view, Prod.mk.injEq, true_and, and_true, eq_comm]
    · rw [update_view_iff]
      exact eq_comm

/-- A failed `allocproc` or `fork` leaves the process table as it was exactly in these cases. -/
theorem failed_fork_unchanged_iff (kend : Nat) (trampoline : Pa) (p : Slot) (s : State) :
    (∀ t, allocproc kend trampoline s = .ok none t → (Unchanged s t ↔ Undoes s)) ∧
      ∀ t, fork kend trampoline p s = .ok none t → (Unchanged s t ↔ Undoes s) := by
  refine ⟨fun t ht => ?_, fun t ht => ?_⟩
  · have h := (allocproc_spec s).of_ok rfl ht
    exact failed_iff s t h
  · have h := (fork_spec s).of_ok rfl ht rfl
    exact failed_iff s t h

/-- `init` is the only process, and some pages are free. -/
def onlyInit (freelist : List Pa) : State where
  vm := ⟨fun _ _ => 0, freelist⟩
  proc := update (fun _ => {}) Sched.initproc
    { state := .running, pid := 1, pagetable := some 0x80008000, trapframe := some 0x80009000 }
  nextpid := 2

/-- The slot after that of `init`. -/
def second : Slot := ⟨1, one_lt_NPROC⟩

/-- One page is enough for the trapframe and not for the page table: the slot is freed again. -/
theorem failed_fork_unchanged_iff_onePage : ∃ t,
    fork 0x80000000 0x80001000 Sched.initproc (onlyInit [0x80007000]) = .ok none t ∧
    Unchanged (onlyInit [0x80007000]) t := by
  obtain ⟨t, ht⟩ : ∃ t, fork 0x80000000 0x80001000 Sched.initproc (onlyInit [0x80007000]) =
    .ok none t := by decide +kernel
  have hun : (onlyInit [0x80007000]).unused = some second := by decide +kernel
  refine ⟨t, ht, ((failed_fork_unchanged_iff _ _ _ _).2 t ht).mpr fun p hp => ?_⟩
  obtain rfl : second = p := Option.some.inj (hun.symm.trans hp)
  rw [if_neg (show (onlyInit [0x80007000]).vm.freelist ≠ [] from List.cons_ne_nil _ _)]
  rfl

/-- Without a free page, `fork` fails and leaves a pid that nobody has been given, and `kill` finds it. -/
theorem failed_fork_leaves_pid : ∃ t u, fork 0x80000000 0x80001000 Sched.initproc (onlyInit []) = .ok none t ∧
    ¬ Unchanged (onlyInit []) t ∧ (t.proc second).state = .unused ∧ (t.proc second).pid = 2 ∧
    kill 2 t = .ok 0 u ∧ (u.proc second).killed = true := by
  obtain ⟨t, ht, hstate, hpid, u, hu, hkilled⟩ :
      ∃ t, fork 0x80000000 0x80001000 Sched.initproc (onlyInit []) = .ok none t ∧ (t.proc second).state = .unused ∧
        (t.proc second).pid = 2 ∧ ∃ u, kill 2 t = .ok 0 u ∧ (u.proc second).killed = true := by decide +kernel
  refine ⟨t, u, ht, fun h => ?_, hstate, hpid, hu, hkilled⟩
  have hview := congrArg (·.2.1) (h second)
  exact absurd (hpid.symm.trans hview) (by decide)

end Failure

end Xv6.Mem

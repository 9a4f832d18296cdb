import Mathlib.Logic.Function.Basic
import Xv6.Lib.Run
import Xv6.Param

/-!
# Processes, CPUs and the process locks

`kernel/proc.c` as a machine: `scheduler()` on every CPU, and in the kernel thread of every process `yield`,
`sleep`, `wakeup`, `kill`, `exit`, `fork` and `wait`. A step is taken by a CPU: it is an `acquire` or a
`release`, the code between two of those, a read without a lock, or a `swtch`. A CPU that spins in `acquire`
takes no step.

The processes also call functions that work on data under one spinlock and use `sleep` and `wakeup` while they
hold it. Which functions those are is a parameter, a `Monitor`. What the processes do apart from that is left
open, and so are memory allocation and `copyout`, which may fail. Interrupts come where no spinlock is held; the
handler may call `wakeup`, and `yield` if it was the timer.

The last fields of the state are history, and no step reads them.
-/

namespace Xv6.Sched

open Function (update)

/-- An entry of the process table. -/
abbrev Slot := Fin NPROC

/-- The entry that `allocproc` finds first, for `userinit`. -/
def initproc : Slot := ⟨0, NPROC_pos⟩

/-! ## Functions under a spinlock -/

/-- What such a function does next, with the lock held. -/
inductive Within (Data Loc : Type)
  | update (d : Data) (l : Loc)
  /-- `sleep(ch, lk)` -/
  | sleep (ch : Nat) (l : Loc)
  | wakeup (ch : Nat) (l : Loc)
  /-- Release the lock and return. -/
  | leave

/-- Data, the functions that work on it under its spinlock, and the places in them. -/
structure Monitor where
  Data : Type
  Loc : Type
  /-- What the functions do not decide themselves. -/
  Input : Type
  data : Data
  /-- Whether process `p` may call the function that starts at a place. -/
  allowed : Data → Slot → Loc → Bool
  /-- The code, for process `p`, whose `killed` flag it may read. -/
  body : (p : Slot) → (killed : Bool) → Input → Data → Loc → Option (Within Data Loc)

/-- No functions at all. -/
def Monitor.idle : Monitor where
  Data := Unit
  Loc := Empty
  Input := Empty
  data := ()
  allowed _ _ _ := false
  body _ _ _ _ _ := none

/-! ## The process table -/

inductive ProcState
  | unused
  | sleeping
  | runnable
  | running
  | zombie
  deriving DecidableEq

/-- What a process can sleep on: a process, a channel of the monitor, or something else. -/
inductive Chan
  | proc (p : Slot)
  | monitor (ch : Nat)
  | other (n : Nat)
  deriving DecidableEq

/-- `struct proc`, without the lock and what is private to the process. -/
structure Proc where
  state : ProcState := .unused
  parent : Option Slot := none
  chan : Option Chan := none
  killed : Bool := false
  xstate : BitVec 32 := 0
  pid : BitVec 32 := 0
  deriving DecidableEq

namespace Proc

/-- The body of the loop of `wakeup`, and `wakeup1`. -/
def wakeup (ch : Chan) (x : Proc) : Proc :=
  if x.state = .sleeping ∧ x.chan = some ch then { x with state := .runnable } else x

/-- What `kill` does to its victim. -/
def kill (x : Proc) : Proc :=
  { x with killed := true, state := if x.state = .sleeping then .runnable else x.state }

/-- `freeproc`. -/
def free : Proc := {}

end Proc

/-! ## Where a thread is

Each position is named after what comes next. -/

/-- In `yield`; `saved` is inside `swtch`. -/
inductive Yield
  | acquire
  | mark
  | sched
  | saved
  | release
  deriving DecidableEq

/-- In the loop of `wakeup` or `kill`. -/
inductive Scan
  | acquire (j : Nat)
  | body (j : Slot)
  | release (j : Slot) (done : Bool)
  deriving DecidableEq

inductive Scanner
  | wakeup (ch : Chan)
  | kill (pid : BitVec 32)
  deriving DecidableEq

/-- In `sleep`. -/
inductive Sleep
  | acquire
  | releaseLk
  | mark
  | sched
  | saved
  | tidy
  | release
  deriving DecidableEq

/-- Who called `sleep`: `wait`, a function of the monitor, which goes on at `l`, or another function with another
lock. -/
inductive Sleeper (L : Type)
  | wait (addr : Bool)
  | monitor (ch : Nat) (l : L)
  | other (n : Nat)
  deriving DecidableEq

/-- What `sleep` is called with as channel. -/
def Sleeper.chan {L : Type} (p : Slot) : Sleeper L → Chan
  | .wait _ => .proc p
  | .monitor ch _ => .monitor ch
  | .other n => .other n

/-- In `exit`, from `acquire(&initproc->lock)` on; `op` is `original_parent`. -/
inductive Exit
  | acquireInit
  | wakeInit
  | releaseInit
  | acquireSelf
  | readParent
  | releaseSelf (op : Slot)
  | acquireParent (op : Slot)
  | acquireAgain (op : Slot)
  | reparent (op : Slot) (k : Nat)
  | acquireChild (op k : Slot)
  | give (op k : Slot)
  | releaseChild (op k : Slot)
  | finish (op : Slot)
  | releaseParent (op : Slot)
  | sched
  deriving DecidableEq

/-- In `fork`, and in the `allocproc` it calls. -/
inductive Fork
  | acquire (j : Nat)
  | test (j : Slot)
  | release (j : Slot)
  | fill (j : Slot)
  | done (j : Slot)
  deriving DecidableEq

/-- In `wait`. -/
inductive Wait
  | acquire
  | scan (k : Nat) (havekids : Bool)
  | acquireChild (k : Slot)
  | test (k : Slot)
  | releaseChild (k : Slot)
  | releaseFound (k : Slot)
  | releaseSelf
  deriving DecidableEq

/-- Where the kernel thread of a process is. -/
inductive Pc (L : Type)
  /-- The context that `allocproc` sets up. -/
  | fresh
  | forkret
  /-- In user space, or in the kernel between the calls of the model. -/
  | user
  /-- There is no process, or it has left `exit`. -/
  | dead
  | yield (i : Yield) (k : Pc L)
  | scan (w : Scanner) (i : Scan) (k : Pc L)
  | sleep (w : Sleeper L) (i : Sleep)
  | exit (status : BitVec 32) (i : Exit)
  | fork (i : Fork)
  /-- With `addr` telling whether the status is wanted. -/
  | wait (addr : Bool) (i : Wait)
  /-- About to acquire the lock of the monitor. -/
  | enter (l : L)
  | inside (l : L)
  deriving DecidableEq

def Scan.lockFree : Scan → Bool
  | .acquire _ => true
  | _ => false

def Exit.lockFree : Exit → Bool
  | .acquireInit | .acquireSelf | .acquireParent _ => true
  | _ => false

def Fork.lockFree : Fork → Bool
  | .acquire _ => true
  | _ => false

def Wait.lockFree : Wait → Bool
  | .acquire => true
  | _ => false

/-- The places where no spinlock is held, so that interrupts are on. -/
def Pc.interruptible {L : Type} : Pc L → Bool
  | .user => true
  | .scan _ i k => i.lockFree && k.interruptible
  | .exit _ i => i.lockFree
  | .fork i => i.lockFree
  | .wait _ i => i.lockFree
  | .enter _ => true
  | .fresh | .forkret | .dead | .yield _ _ | .sleep _ _ | .inside _ => false

/-- Where the thread is after `swtch` has loaded its context. -/
def Pc.resume {L : Type} : Pc L → Pc L
  | .fresh => .forkret
  | .yield .saved k => .yield .release k
  | .sleep w .saved => .sleep w .tidy
  | pc => pc

/-- Where a CPU is in `scheduler()`: about to lock entry `k`, in an interrupt there, with the lock, before
`swtch` to the process, running it, after `swtch` back, and about to unlock. -/
inductive CpuPc
  | loop (k : Nat)
  | intr (ch : Chan) (i : Scan) (k : Nat)
  | test (k : Slot)
  | going (k : Slot)
  | away (k : Slot)
  | back (k : Slot)
  | unlock (k : Slot)
  deriving DecidableEq

structure Cpu where
  proc : Option Slot := none
  pc : CpuPc := .loop 0
  deriving DecidableEq

/-- `exit` of process `b`, and a `wait` of process `parent` that returns it. Processes are numbered in the order
in which `fork` makes them. -/
inductive Event
  | exited (b : Nat) (pid status : BitVec 32)
  | reaped (parent b : Nat) (pid status : BitVec 32)
  deriving DecidableEq

structure State (M : Monitor) (C : Type) where
  proc : Slot → Proc
  /-- The CPU that holds `p->lock`. -/
  lock : Slot → Option C
  cpu : C → Cpu
  thread : Slot → Pc M.Loc
  nextpid : BitVec 32
  /-- The CPU that holds the lock of the monitor. -/
  lk : Option C
  data : M.Data
  born : Slot → Nat
  births : Nat
  /-- How often the context was loaded since it was saved. -/
  resumed : Slot → Nat
  events : List Event

/-- After `userinit`, when the CPUs enter `scheduler()`. -/
def State.boot (M : Monitor) (C : Type) : State M C where
  proc := update (fun _ => {}) initproc { state := .runnable, pid := 1 }
  lock _ := none
  cpu _ := {}
  thread := update (fun _ => .dead) initproc .fresh
  nextpid := 2
  lk := none
  data := M.data
  born _ := 0
  births := 1
  resumed _ := 0
  events := []

/-! ## The code of a process -/

inductive Op (L : Type)
  | sleep (n : Nat)
  | wakeup (ch : Chan)
  | kill (pid : BitVec 32)
  | exit (status : BitVec 32)
  | fork
  | wait (addr : Bool)
  /-- Call the function of the monitor that starts at `l`. -/
  | enter (l : L)

inductive Choice (M : Monitor)
  | go
  | call (op : Op M.Loc)
  | timer
  | device (ch : Chan)
  /-- No memory, before or after the process got a trapframe; or `copyout` fails. -/
  | fail (early : Bool)
  | input (x : M.Input)

/-- What one step of a thread does, and where it goes. -/
inductive Act (M : Monitor)
  | goto (pc : Pc M.Loc)
  | acquire (q : Slot) (pc : Pc M.Loc)
  | release (q : Slot) (pc : Pc M.Loc)
  | acquireLk (pc : Pc M.Loc)
  | releaseLk (pc : Pc M.Loc)
  | write (q : Slot) (x : Proc) (pc : Pc M.Loc)
  /-- `p->pid = allocpid()` -/
  | number (q : Slot) (pc : Pc M.Loc)
  /-- The new process is ready. -/
  | spawn (q : Slot) (pc : Pc M.Loc)
  /-- The process becomes a zombie. -/
  | finish (op : Slot) (status : BitVec 32) (pc : Pc M.Loc)
  | reap (q : Slot) (pc : Pc M.Loc)
  | update (d : M.Data) (pc : Pc M.Loc)
  | swtch (pc : Pc M.Loc)

variable {M : Monitor} {C : Type}

/-- `init` does not exit. -/
def Op.allowed (s : State M C) (p : Slot) : Op M.Loc → Bool
  | .exit _ => p ≠ initproc
  | .enter l => M.allowed s.data p l
  | _ => true

def Op.entry {L : Type} : Op L → Pc L
  | .sleep n => .sleep (.other n) .acquire
  | .wakeup ch => .scan (.wakeup ch) (.acquire 0) .user
  | .kill pid => .scan (.kill pid) (.acquire 0) .user
  | .exit status => .exit status .acquireInit
  | .fork => .fork (.acquire 0)
  | .wait addr => .wait addr .acquire
  | .enter l => .enter l

section code

variable (s : State M C) (p : Slot)

def yieldCode (k : Pc M.Loc) : Yield → Option (Act M)
  | .acquire => some (.acquire p (.yield .mark k))
  | .mark => some (.write p { s.proc p with state := .runnable } (.yield .sched k))
  | .sched => some (.swtch (.yield .saved k))
  | .saved => none
  | .release => some (.release p k)

def scanCode (w : Scanner) (k : Pc M.Loc) : Scan → Option (Act M)
  | .acquire j =>
    if h : j < NPROC then some (.acquire ⟨j, h⟩ (.scan w (.body ⟨j, h⟩) k)) else some (.goto k)
  | .body j =>
    match w with
    | .wakeup ch => some (.write j ((s.proc j).wakeup ch) (.scan w (.release j false) k))
    | .kill pid =>
      if (s.proc j).pid = pid then some (.write j (s.proc j).kill (.scan w (.release j true) k))
      else some (.goto (.scan w (.release j false) k))
  | .release j true => some (.release j k)
  | .release j false => some (.release j (.scan w (.acquire (j + 1)) k))

/-- `wait` calls `sleep` with `p->lock`, which is then held already and not released at the end; it starts at
`mark`. -/
def sleepCode (w : Sleeper M.Loc) : Sleep → Option (Act M)
  | .acquire => some (.acquire p (.sleep w .releaseLk))
  | .releaseLk =>
    match w with
    | .monitor _ _ => some (.releaseLk (.sleep w .mark))
    | .other _ => some (.goto (.sleep w .mark))
    | .wait _ => none
  | .mark => some (.write p { s.proc p with chan := some (w.chan p), state := .sleeping } (.sleep w .sched))
  | .sched => some (.swtch (.sleep w .saved))
  | .saved => none
  | .tidy =>
    match w with
    | .wait addr => some (.write p { s.proc p with chan := none } (.wait addr (.scan 0 false)))
    | _ => some (.write p { s.proc p with chan := none } (.sleep w .release))
  | .release =>
    match w with
    | .monitor _ l => some (.release p (.enter l))
    | _ => some (.release p .user)

def exitCode (status : BitVec 32) : Exit → Option (Act M)
  | .acquireInit => some (.acquire initproc (.exit status .wakeInit))
  | .wakeInit => some (.write initproc ((s.proc initproc).wakeup (.proc initproc)) (.exit status .releaseInit))
  | .releaseInit => some (.release initproc (.exit status .acquireSelf))
  | .acquireSelf => some (.acquire p (.exit status .readParent))
  | .readParent => (s.proc p).parent.map fun op => .goto (.exit status (.releaseSelf op))
  | .releaseSelf op => some (.release p (.exit status (.acquireParent op)))
  | .acquireParent op => some (.acquire op (.exit status (.acquireAgain op)))
  | .acquireAgain op => some (.acquire p (.exit status (.reparent op 0)))
  | .reparent op k =>
    if h : k < NPROC then
      -- read without the lock of the entry
      if (s.proc ⟨k, h⟩).parent = some p then some (.goto (.exit status (.acquireChild op ⟨k, h⟩)))
      else some (.goto (.exit status (.reparent op (k + 1))))
    else some (.goto (.exit status (.finish op)))
  | .acquireChild op k => some (.acquire k (.exit status (.give op k)))
  | .give op k => some (.write k { s.proc k with parent := some initproc } (.exit status (.releaseChild op k)))
  | .releaseChild op k => some (.release k (.exit status (.reparent op (k + 1))))
  | .finish op => some (.finish op status (.exit status (.releaseParent op)))
  | .releaseParent op => some (.release op (.exit status .sched))
  | .sched => some (.swtch .dead)

def forkCode (ch : Choice M) : Fork → Option (Act M)
  | .acquire j =>
    if h : j < NPROC then some (.acquire ⟨j, h⟩ (.fork (.test ⟨j, h⟩))) else some (.goto .user)
  | .test j =>
    if (s.proc j).state = .unused then some (.number j (.fork (.fill j)))
    else some (.goto (.fork (.release j)))
  | .release j => some (.release j (.fork (.acquire (j + 1))))
  | .fill j =>
    match ch with
    | .go => some (.spawn j (.fork (.done j)))
    -- without a trapframe, `allocproc` leaves the entry as it is
    | .fail true => some (.goto (.fork (.done j)))
    | .fail false => some (.write j Proc.free (.fork (.done j)))
    | _ => none
  | .done j => some (.release j .user)

def waitCode (ch : Choice M) (addr : Bool) : Wait → Option (Act M)
  | .acquire => some (.acquire p (.wait addr (.scan 0 false)))
  | .scan k havekids =>
    if h : k < NPROC then
      -- read without the lock of the entry
      if (s.proc ⟨k, h⟩).parent = some p then some (.goto (.wait addr (.acquireChild ⟨k, h⟩)))
      else some (.goto (.wait addr (.scan (k + 1) havekids)))
    else if !havekids || (s.proc p).killed then some (.goto (.wait addr .releaseSelf))
    else some (.goto (.sleep (.wait addr) .mark))
  | .acquireChild k => some (.acquire k (.wait addr (.test k)))
  | .test k =>
    if (s.proc k).state = .zombie then
      match ch with
      | .go => some (.reap k (.wait addr (.releaseFound k)))
      | .fail _ => if addr then some (.goto (.wait addr (.releaseFound k))) else none
      | _ => none
    else some (.goto (.wait addr (.releaseChild k)))
  | .releaseChild k => some (.release k (.wait addr (.scan (k + 1) true)))
  | .releaseFound k => some (.release k (.wait addr .releaseSelf))
  | .releaseSelf => some (.release p .user)

def insideCode (ch : Choice M) (l : M.Loc) : Option (Act M) :=
  match ch with
  | .input x =>
    match M.body p (s.proc p).killed x s.data l with
    | some (.update d l') => some (.update d (.inside l'))
    | some (.sleep n l') => some (.goto (.sleep (.monitor n l') .acquire))
    | some (.wakeup n l') => some (.goto (.scan (.wakeup (.monitor n)) (.acquire 0) (.inside l')))
    | some .leave => some (.releaseLk .user)
    | none => none
  | _ => none

/-- What the thread of process `p` does next. -/
def code (ch : Choice M) : Pc M.Loc → Option (Act M)
  | .fresh => none
  | .forkret => some (.release p .user)
  | .user =>
    match ch with
    | .call op => if op.allowed s p then some (.goto op.entry) else none
    | _ => none
  | .dead => none
  | .yield i k => yieldCode s p k i
  | .scan w i k => scanCode s w k i
  | .sleep w i => sleepCode s p w i
  | .exit status i => exitCode s p status i
  | .fork i => forkCode s ch i
  | .wait addr i => waitCode s p ch addr i
  | .enter l => some (.acquireLk (.inside l))
  | .inside l => insideCode s p ch l

end code

/-! ## The steps -/

variable [DecidableEq C]

/-- CPU `c` does `a` in the thread of process `p`. -/
def perform (s : State M C) (c : C) (p : Slot) : Act M → Option (State M C)
  | .goto pc => some { s with thread := update s.thread p pc }
  | .acquire q pc =>
    if s.lock q = none then
      some { s with thread := update s.thread p pc, lock := update s.lock q (some c) }
    else none
  | .release q pc =>
    some { s with thread := update s.thread p pc, lock := update s.lock q none }
  | .acquireLk pc =>
    if s.lk = none then some { s with thread := update s.thread p pc, lk := some c } else none
  | .releaseLk pc => some { s with thread := update s.thread p pc, lk := none }
  | .write q x pc =>
    some { s with thread := update s.thread p pc, proc := update s.proc q x }
  | .number q pc =>
    some { s with
      thread := update s.thread p pc
      proc := update s.proc q { s.proc q with pid := s.nextpid }
      nextpid := s.nextpid + 1 }
  | .spawn q pc =>
    some { s with
      thread := update (update s.thread q .fresh) p pc
      proc := update s.proc q { s.proc q with parent := some p, state := .runnable }
      born := update s.born q s.births
      births := s.births + 1
      resumed := update s.resumed q 0 }
  | .finish op status pc =>
    some { s with
      thread := update s.thread p pc
      proc := update (update s.proc op ((s.proc op).wakeup (.proc op))) p
        { s.proc p with xstate := status, state := .zombie }
      events := s.events ++ [.exited (s.born p) (s.proc p).pid status] }
  | .reap q pc =>
    some { s with
      thread := update s.thread p pc
      proc := update s.proc q Proc.free
      events := s.events ++ [.reaped (s.born p) (s.born q) (s.proc q).pid (s.proc q).xstate] }
  | .update d pc => some { s with thread := update s.thread p pc, data := d }
  | .swtch pc =>
    some { s with
      thread := update s.thread p pc
      cpu := update s.cpu c { s.cpu c with pc := .back p }
      resumed := update s.resumed p 0 }

/-- CPU `c`, in the thread of process `p`, goes on or takes an interrupt. -/
def procStep (s : State M C) (c : C) (p : Slot) : Choice M → Option (State M C)
  | .timer =>
    if (s.thread p).interruptible ∧ (s.proc p).state = .running then
      some { s with thread := update s.thread p (.yield .acquire (s.thread p)) }
    else none
  | .device chan =>
    if (s.thread p).interruptible then
      some { s with thread := update s.thread p (.scan (.wakeup chan) (.acquire 0) (s.thread p)) }
    else none
  | ch => (code s p ch (s.thread p)).bind (perform s c p)

def State.setCpu (s : State M C) (c : C) (x : Cpu) : State M C := { s with cpu := update s.cpu c x }

/-- CPU `c` in an interrupt that came in `scheduler()`. -/
def intrStep (s : State M C) (c : C) (chan : Chan) (k : Nat) : Scan → Option (State M C)
  | .acquire j =>
    if h : j < NPROC then
      if s.lock ⟨j, h⟩ = none then
        some { s.setCpu c { s.cpu c with pc := .intr chan (.body ⟨j, h⟩) k } with
          lock := update s.lock ⟨j, h⟩ (some c) }
      else none
    else some (s.setCpu c { s.cpu c with pc := .loop k })
  | .body j =>
    some { s.setCpu c { s.cpu c with pc := .intr chan (.release j false) k } with
      proc := update s.proc j ((s.proc j).wakeup chan) }
  | .release j _ =>
    some { s.setCpu c { s.cpu c with pc := .intr chan (.acquire (j + 1)) k } with
      lock := update s.lock j none }

/-- One step of CPU `c`. -/
def step (s : State M C) (e : C × Choice M) : Option (State M C) :=
  let c := e.1
  match (s.cpu c).pc with
  | .loop k =>
    match e.2 with
    | .go =>
      if h : k < NPROC then
        if s.lock ⟨k, h⟩ = none then
          some { s.setCpu c { s.cpu c with pc := .test ⟨k, h⟩ } with
            lock := update s.lock ⟨k, h⟩ (some c) }
        else none
      else some (s.setCpu c { s.cpu c with pc := .loop 0 })
    | .device chan => some (s.setCpu c { s.cpu c with pc := .intr chan (.acquire 0) k })
    | _ => none
  | .intr chan i k => intrStep s c chan k i
  | .test k =>
    if (s.proc k).state = .runnable then
      some { s.setCpu c ⟨some k, .going k⟩ with
        proc := update s.proc k { s.proc k with state := .running } }
    else some (s.setCpu c { s.cpu c with pc := .unlock k })
  | .going k =>
    some { s.setCpu c { s.cpu c with pc := .away k } with
      thread := update s.thread k (s.thread k).resume
      resumed := update s.resumed k (s.resumed k + 1) }
  | .away p => procStep s c p e.2
  | .back k => some (s.setCpu c ⟨none, .unlock k⟩)
  | .unlock k =>
    some { s.setCpu c { s.cpu c with pc := .loop (k + 1) } with lock := update s.lock k none }

/-- A state that the system can get to. -/
def Reachable (s : State M C) : Prop := ∃ es, Machine.Run step Machine.any (State.boot M C) es s

theorem exists_reachable {P : State M C → Prop} (es : List (C × Choice M))
    (h : ∃ s, Machine.Run step Machine.any (State.boot M C) es s ∧ P s) : ∃ s : State M C, Reachable s ∧ P s := by
  obtain ⟨s, hrun, hp⟩ := h
  exact ⟨s, ⟨es, hrun⟩, hp⟩

end Xv6.Sched

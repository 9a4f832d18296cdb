import Xv6.Lib.Run
import Xv6.Lib.Sum
import Xv6.Log.Commit

/-!
# Processes that use the block layer

Any of the `NPROC` processes run `begin_op`, `bread`, changes to the data of buffers they hold,
`log_write`, `brelse` and `end_op`, in any order and interleaved in any way, within the rules the comments
of `kernel/log.c` and `kernel/bio.c` give: blocks are used inside operations, are not blocks of the log,
are changed by the holder of the buffer only, and a change is passed to `log_write` before the buffer is
released. `bread` takes three steps (`bget` under the cache lock, getting the buffer's lock, reading the
disk), and `log_write` and `brelse` take two.

`end_op` is one step, together with the `commit()` it may run: no operation is in progress then, so no
other process uses the block layer, and one that calls `begin_op` waits.

The last fields of the state are history, and no step reads them.
-/

namespace Xv6.Client

open Function (update)

abbrev Pid := Fin NPROC

/-- Where a process is in a call it has not finished. -/
inductive Act
  /-- In `bread` of block `b`, with a reference to a buffer and waiting for its lock. -/
  | wait (i : Fin NBUF) (b : Nat)
  /-- In `bread` of block `b`, holding the lock, before the data is known to be valid. -/
  | fill (i : Fin NBUF) (b : Nat)
  /-- In `log_write`, past the tests. -/
  | logging (i : Fin NBUF)
  /-- In `brelse`, after the lock was released. -/
  | releasing (i : Fin NBUF)
  deriving DecidableEq

structure Proc where
  inOp : Bool := false
  act : Option Act := none
  deriving DecidableEq

/-- What the outside sees: block `b` gets contents `d` by `log_write`, or `bread` of `b` returns `d`. -/
inductive Obs
  | stored (b : Nat) (d : Block)
  | returned (b : Nat) (d : Block)

/-- The writes of a group of operations, in order. -/
abbrev Tx := List (Nat × Block)

/-- A commit that has returned: what was committed, and how many blocks had been written to disk. -/
structure Committed where
  tx : Tx
  time : Nat

structure Sys where
  k : Kernel
  proc : Pid → Proc := fun _ => {}
  panicked : Option Panic := none
  /-- Buffers changed by their holder since they were read or logged. -/
  dirty : Fin NBUF → Bool := fun _ => false
  cur : Tx := []
  done : List Committed := []
  hist : List Obs := []

namespace Sys

def setProc (s : Sys) (p : Pid) (x : Proc) : Sys := { s with proc := update s.proc p x }

/-- Process `p` is at another point inside an operation. -/
def setAct (s : Sys) (p : Pid) (a : Option Act) : Sys := s.setProc p { inOp := true, act := a }

/-- Process `p` is in an operation and not in the middle of a call. -/
def ready (s : Sys) (p : Pid) : Prop := (s.proc p).inOp = true ∧ (s.proc p).act = none

instance (s : Sys) (p : Pid) : Decidable (s.ready p) := inferInstanceAs (Decidable (_ ∧ _))

def holds (s : Sys) (p : Pid) (i : Fin NBUF) : Prop := (s.k.bcache.buf i).lock = some p.val

instance (s : Sys) (p : Pid) (i : Fin NBUF) : Decidable (s.holds p i) :=
  inferInstanceAs (Decidable (_ = _))

/-- Call a kernel function. A process that sleeps takes no step. -/
def call {α : Type} (s : Sys) (x : KernelM α) (f : α → Sys → Sys) : Option Sys :=
  match x s.k with
  | .ok a k => some (f a { s with k })
  | .error (.panic m) k => some { s with k, panicked := some m }
  | .error .sleep _ => none

end Sys

inductive Event
  | beginOp (p : Pid)
  | bget (p : Pid) (b : Nat)
  | acquire (p : Pid)
  | fill (p : Pid)
  | modify (p : Pid) (i : Fin NBUF) (d : Block)
  | logGuard (p : Pid) (i : Fin NBUF)
  | logLocked (p : Pid)
  | unlock (p : Pid) (i : Fin NBUF)
  | unref (p : Pid)
  | endOp (p : Pid)

/-- A block a client may use. -/
def clientBlock (l : Log) (b : Nat) : Prop := ¬ l.area b ∧ b < 2 ^ 32

instance (l : Log) (b : Nat) : Decidable (clientBlock l b) := inferInstanceAs (Decidable (_ ∧ _))

/-- The history after the locked part of `log_write` on buffer `i`. -/
def Sys.stored (s : Sys) (i : Fin NBUF) : Sys :=
  let x := s.k.bcache.buf i
  { s with
    dirty := update s.dirty i false
    cur := s.cur ++ [(x.blockno, x.data)]
    hist := s.hist ++ [.stored x.blockno x.data] }

/-- The history after `bread` of block `b` returned buffer `i`. -/
def Sys.returned (s : Sys) (i : Fin NBUF) (b : Nat) : Sys :=
  { s with hist := s.hist ++ [.returned b (s.k.bcache.buf i).data] }

/-- The history after `commit()` returned; a commit without blocks does nothing. -/
def Sys.committed (s : Sys) : Sys :=
  if s.cur = [] then s
  else { s with cur := [], done := s.done ++ [⟨s.cur, s.k.writes.length⟩] }

/-- The steps of a process that is not stopped by a panic. -/
def next (s : Sys) : Event → Option Sys
  | .beginOp p =>
    if (s.proc p).inOp then none else s.call beginOp fun _ t => t.setAct p none
  | .bget p b =>
    if s.ready p ∧ clientBlock s.k.log b then
      s.call (bget s.k.log.dev b) fun i t => t.setAct p (some (.wait i b))
    else none
  | .acquire p =>
    match (s.proc p).act with
    | some (.wait i b) => s.call (acquiresleep p i) fun _ t => t.setAct p (some (.fill i b))
    | _ => none
  | .fill p =>
    match (s.proc p).act with
    | some (.fill i b) => s.call (fill i) fun _ t => (t.setAct p none).returned i b
    | _ => none
  | .modify p i d =>
    if s.ready p ∧ s.holds p i then
      s.call (setData i d) fun _ t => { t with dirty := update t.dirty i true }
    else none
  | .logGuard p i =>
    if s.ready p ∧ s.holds p i then s.call logGuard fun _ t => t.setAct p (some (.logging i))
    else none
  | .logLocked p =>
    match (s.proc p).act with
    | some (.logging i) => s.call (logLocked i) fun _ t => (t.setAct p none).stored i
    | _ => none
  | .unlock p i =>
    if s.ready p ∧ s.holds p i ∧ s.dirty i = false then
      s.call (brelseUnlock p i) fun _ t => t.setAct p (some (.releasing i))
    else none
  | .unref p =>
    match (s.proc p).act with
    | some (.releasing i) => s.call (brelseUnref i) fun _ t => t.setAct p none
    | _ => none
  | .endOp p =>
    if s.ready p ∧ ∀ i, ¬ s.holds p i then
      s.call (endOp p) fun _ t =>
        if s.k.log.outstanding = 1 then (t.setProc p {}).committed else t.setProc p {}
    else none

def step (s : Sys) (e : Event) : Option Sys := if s.panicked.isSome then none else next s e

/-- The system after boot: no process uses the block layer yet. -/
def start (k : Kernel) : Sys := { k }

end Xv6.Client

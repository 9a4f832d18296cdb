import Xv6.Lib.Run
import Xv6.Log.Header
import Xv6.Panic
import Mathlib.Data.Fintype.Basic
import Mathlib.Data.Finset.Card

/-!
# Group commit as a machine of interleaved steps

Any number of processes run `begin_op`, `log_write` and `end_op` of `kernel/log.c`. A step is what one
process does between two points where another may run: a pass of the loop in `begin_op` under the log
lock, the tests at the top of `log_write` (made without the lock), its locked search and append, the
locked part of `end_op`, and each block written by `commit()`, which runs without the lock.

The last two fields of the state are history: the number of operations admitted so far, and what was
logged by which operation and committed by which `commit()`. No step reads them.
-/

namespace Xv6.GroupCommit

/-- Where the committer is in `commit()`. -/
inductive CommitPc
  | enter
  | writeLog (tail : Nat)
  | writeHead
  | installTrans (tail : Nat)
  | reset
  | clearHead
  | leave
  deriving DecidableEq, Repr

/-- Between the start of `write_log` and the assignment `lh.n = 0`, inclusive. -/
def CommitPc.usesHeader : CommitPc → Bool
  | .clearHead | .leave => false
  | _ => true

/-- An operation: its number in the history and the blocks it has passed to `log_write`. -/
structure Op where
  id : Nat
  used : Finset Nat
  deriving DecidableEq

inductive ProcState
  | idle
  /-- Asleep on `&log` in `begin_op`. -/
  | sleeping
  /-- Woken up in `begin_op`, about to go round the loop. -/
  | woken
  /-- Between `begin_op` and `end_op`. -/
  | running (op : Op)
  /-- In `log_write(b)`, past the tests and before the lock. -/
  | logging (op : Op) (b : Nat)
  | committing (pc : CommitPc)
  deriving DecidableEq

namespace ProcState

/-- The operation of a process between `begin_op` and `end_op`. -/
def op? : ProcState → Option Op
  | running op => some op
  | logging op _ => some op
  | _ => none

def inOp (x : ProcState) : Bool := x.op?.isSome

def pc? : ProcState → Option CommitPc
  | committing pc => some pc
  | _ => none

/-- What `wakeup(&log)` does to a process. -/
def wake : ProcState → ProcState
  | sleeping => woken
  | x => x

@[simp] theorem op?_wake (x : ProcState) : x.wake.op? = x.op? := by cases x <;> rfl

@[simp] theorem pc?_wake (x : ProcState) : x.wake.pc? = x.pc? := by cases x <;> rfl

@[simp] theorem inOp_wake (x : ProcState) : x.wake.inOp = x.inOp := by simp [inOp]

theorem wake_eq_logging {x : ProcState} {op : Op} {b : Nat} : x.wake = logging op b ↔ x = logging op b := by
  cases x <;> simp [wake]

end ProcState

/-- One line of the history. -/
inductive Entry
  | logged (op : Nat) (b : Nat)
  | commit (blocks : List Nat)
  deriving DecidableEq

structure Sys (P : Type) where
  log : Log
  proc : P → ProcState
  panicked : Option Panic := none
  nextOp : Nat := 0
  hist : List Entry := []

inductive Event (P : Type)
  | beginOp (p : P)
  | logGuard (p : P) (b : Nat)
  | logLocked (p : P) (b : Nat)
  | endOp (p : P)
  | commit (p : P) (pc : CommitPc)
  deriving DecidableEq

/-- The process that takes the step. -/
def Event.actor {P : Type} : Event P → P
  | beginOp p | logGuard p _ | logLocked p _ | endOp p | commit p _ => p

/-- The step is part of a `log_write`. -/
def Event.isLogWrite {P : Type} : Event P → Bool
  | logGuard _ _ | logLocked _ _ => true
  | _ => false

variable {P : Type} [DecidableEq P]

/-- After `initlog` on a log that needs no recovery: no process is in the file system. -/
def init (P : Type) (start size : Nat) : Sys P :=
  { log := { start, size, dev := ROOTDEV }, proc := fun _ => .idle }

namespace Sys

def setProc (s : Sys P) (p : P) (x : ProcState) : Sys P :=
  { s with proc := Function.update s.proc p x }

/-- `wakeup(&log)`. -/
def wakeup (s : Sys P) : Sys P := { s with proc := fun q => (s.proc q).wake }

def panic (s : Sys P) (m : Panic) : Sys P := { s with panicked := some m }

end Sys

/-- One pass of the loop in `begin_op`, under the lock. -/
def beginOp (s : Sys P) (p : P) : Sys P :=
  if s.log.committing then s.setProc p .sleeping
  else if s.log.exhausted then s.setProc p .sleeping
  else
    { s.setProc p (.running ⟨s.nextOp, ∅⟩) with
      log := { s.log with outstanding := s.log.outstanding + 1 }
      nextOp := s.nextOp + 1 }

/-- The unlocked tests of `log_write`. -/
def logGuard (s : Sys P) (p : P) (op : Op) (b : Nat) : Sys P :=
  if s.log.tooBig then s.panic .tooBig
  else if s.log.outstanding < 1 then s.panic .outsideTrans
  else s.setProc p (.logging ⟨op.id, insert b op.used⟩ b)

/-- The locked part of `log_write`. -/
def logLocked (s : Sys P) (p : P) (op : Op) (b : Nat) : Sys P :=
  { s.setProc p (.running op) with
    log := s.log.record b
    hist := s.hist ++ [.logged op.id b] }

/-- The first locked section of `end_op`. -/
def endOp (s : Sys P) (p : P) : Sys P :=
  let l := { s.log with outstanding := s.log.outstanding - 1 }
  if s.log.committing then { s with log := l }.panic .logCommitting
  else if l.outstanding = 0 then
    { s.setProc p (.committing .enter) with log := { l with committing := true } }
  else { s.wakeup.setProc p .idle with log := l }

/-- The committer's next step; `leave` is the second locked section of `end_op`. -/
def commit (s : Sys P) (p : P) : CommitPc → Sys P
  | .enter => s.setProc p (.committing (if s.log.n > 0 then .writeLog 0 else .leave))
  | .writeLog tail =>
    s.setProc p (.committing (if tail < s.log.n then .writeLog (tail + 1) else .writeHead))
  | .writeHead =>
    { s.setProc p (.committing (.installTrans 0)) with hist := s.hist ++ [.commit s.log.lh] }
  | .installTrans tail =>
    s.setProc p (.committing (if tail < s.log.n then .installTrans (tail + 1) else .reset))
  | .reset => { s.setProc p (.committing .clearHead) with log := { s.log with lh := [] } }
  | .clearHead => s.setProc p (.committing .leave)
  | .leave => { s.wakeup.setProc p .idle with log := { s.log with committing := false } }

/-- A process can call only what comes next in its code, and nothing runs after a panic. -/
def step (s : Sys P) (e : Event P) : Option (Sys P) :=
  if s.panicked.isSome then none else
  match e with
  | .beginOp p =>
    match s.proc p with
    | .idle | .woken => some (beginOp s p)
    | _ => none
  | .logGuard p b =>
    match s.proc p with
    | .running op => some (logGuard s p op b)
    | _ => none
  | .logLocked p b =>
    match s.proc p with
    | .logging op b' => if b' = b then some (logLocked s p op b) else none
    | _ => none
  | .endOp p =>
    match s.proc p with
    | .running _ => some (endOp s p)
    | _ => none
  | .commit p pc => if s.proc p = .committing pc then some (commit s p pc) else none

/-- The block of the log area that a committer at `pc` is about to use, if it is in one of the loops of
`write_log` or `install_trans`. -/
def CommitPc.logBlock (l : Log) : CommitPc → Option Nat
  | .writeLog tail => if tail < l.n then some (l.start + tail + 1) else none
  | .installTrans tail => if tail < l.n then some (l.start + tail + 1) else none
  | _ => none

end Xv6.GroupCommit

import Xv6.Lib.Bytes
import Xv6.Log.Header
import Xv6.Panic
import Mathlib.Data.List.FinRange

/-!
# The buffer cache

`kernel/bio.c`. The list of all buffers through `prev`/`next` is the list `lru`, most recently released
first. A buffer's sleep-lock is the pid of its holder. `refcnt` is an unsigned 32-bit counter, so
decrementing it at zero gives `2 ^ 32 - 1`; the field `wrapped` is history and records that this
happened.

The disk is an array of blocks and `virtio_disk_rw` moves one block; it looks at the block number only.
`writes` is the history of the blocks written, in order.
-/

namespace Xv6

/-- The contents of a disk block. -/
abbrev Block := Bytes BSIZE

/-- The contents of every block of a disk. -/
abbrev Blocks := Nat → Block

/-- `struct buf`. -/
structure Buf where
  valid : Bool := false
  dev : Nat := 0
  blockno : Nat := 0
  lock : Option Nat := none
  refcnt : Nat := 0
  data : Block := fun _ => 0

structure Bcache where
  buf : Fin NBUF → Buf
  lru : List (Fin NBUF)
  wrapped : Bool := false

/-- `binit`: each buffer is put at the head of the list in turn. -/
def binit : Bcache := { buf := fun _ => {}, lru := (List.finRange NBUF).reverse }

/-- The state the block layer works on. -/
structure Kernel where
  bcache : Bcache
  disk : Blocks
  writes : List (Nat × Block) := []
  log : Log

/-- Why a process does not return from a call. -/
inductive Halt
  | panic (m : Panic)
  /-- Asleep, waiting for another process. -/
  | sleep
  deriving DecidableEq, Repr

abbrev KernelM := EStateM Halt Kernel

/-- `x++` on a `uint`. -/
def incr (x : Nat) : Nat := (x + 1) % 2 ^ 32

/-- `x--` on a `uint`. -/
def decr (x : Nat) : Nat := (x + (2 ^ 32 - 1)) % 2 ^ 32

namespace Bcache

def set (c : Bcache) (i : Fin NBUF) (x : Buf) : Bcache := { c with buf := Function.update c.buf i x }

@[simp] theorem set_self (c : Bcache) (i : Fin NBUF) (x : Buf) : (c.set i x).buf i = x :=
  Function.update_self ..

/-- The first loop of `bget`, from `head.next`. -/
def cached (c : Bcache) (dev blockno : Nat) : Option (Fin NBUF) :=
  c.lru.find? fun i => (c.buf i).dev == dev && (c.buf i).blockno == blockno

/-- The second loop of `bget`, from `head.prev`. -/
def unused (c : Bcache) : Option (Fin NBUF) := c.lru.reverse.find? fun i => (c.buf i).refcnt == 0

/-- Drop a reference, as `brelse` and `bunpin` do. -/
def unref (c : Bcache) (i : Fin NBUF) : Bcache :=
  { c.set i { c.buf i with refcnt := decr (c.buf i).refcnt } with
    wrapped := c.wrapped || (c.buf i).refcnt == 0 }

/-- Move a buffer to the head of the list. -/
def toFront (c : Bcache) (i : Fin NBUF) : Bcache := { c with lru := i :: c.lru.erase i }

end Bcache

def Kernel.setBuf (s : Kernel) (i : Fin NBUF) (x : Buf) : Kernel := { s with bcache := s.bcache.set i x }

@[simp] theorem Kernel.setBuf_self (s : Kernel) (i : Fin NBUF) (x : Buf) :
    (s.setBuf i x).bcache.buf i = x := Function.update_self ..

theorem Kernel.setBuf_of_ne (s : Kernel) {i j : Fin NBUF} (x : Buf) (h : j ≠ i) :
    (s.setBuf i x).bcache.buf j = s.bcache.buf j := Function.update_of_ne h _ _

theorem Kernel.setBuf_eq_self (s : Kernel) (i : Fin NBUF) : s.setBuf i (s.bcache.buf i) = s := by
  simp [Kernel.setBuf, Bcache.set]

/-- The part of `bget` under `bcache.lock`: the buffer is referenced but not locked yet. -/
def bget (dev blockno : Nat) : KernelM (Fin NBUF) := fun s =>
  match s.bcache.cached dev blockno with
  | some i => .ok i (s.setBuf i { s.bcache.buf i with refcnt := incr (s.bcache.buf i).refcnt })
  | none =>
    match s.bcache.unused with
    | some i => .ok i (s.setBuf i { s.bcache.buf i with dev, blockno, valid := false, refcnt := 1 })
    | none => .error (.panic .bgetNoBuffers) s

/-- `acquiresleep(&b->lock)` by process `p`. -/
def acquiresleep (p : Nat) (i : Fin NBUF) : KernelM Unit := fun s =>
  match (s.bcache.buf i).lock with
  | none => .ok () (s.setBuf i { s.bcache.buf i with lock := some p })
  | some _ => .error .sleep s

/-- The rest of `bread`: read the block from disk if the buffer does not hold it. -/
def fill (i : Fin NBUF) : KernelM Unit := fun s =>
  if (s.bcache.buf i).valid then .ok () s
  else .ok () (s.setBuf i
    { s.bcache.buf i with data := s.disk (s.bcache.buf i).blockno, valid := true })

def bread (p dev blockno : Nat) : KernelM (Fin NBUF) := do
  let i ← bget dev blockno
  acquiresleep p i
  fill i
  return i

/-- An assignment to `b->data`. -/
def setData (i : Fin NBUF) (d : Block) : KernelM Unit := fun s =>
  .ok () (s.setBuf i { s.bcache.buf i with data := d })

/-- `b->data`. -/
def getData (i : Fin NBUF) : KernelM Block := fun s => .ok (s.bcache.buf i).data s

def bwrite (p : Nat) (i : Fin NBUF) : KernelM Unit := fun s =>
  let x := s.bcache.buf i
  if x.lock ≠ some p then .error (.panic .bwrite) s
  else .ok () { s with
    disk := Function.update s.disk x.blockno x.data
    writes := s.writes ++ [(x.blockno, x.data)] }

/-- `brelse` up to `releasesleep(&b->lock)`. -/
def brelseUnlock (p : Nat) (i : Fin NBUF) : KernelM Unit := fun s =>
  if (s.bcache.buf i).lock ≠ some p then .error (.panic .brelse) s
  else .ok () (s.setBuf i { s.bcache.buf i with lock := none })

/-- The part of `brelse` under `bcache.lock`. -/
def brelseUnref (i : Fin NBUF) : KernelM Unit := fun s =>
  let c := s.bcache.unref i
  .ok () { s with bcache := if (c.buf i).refcnt = 0 then c.toFront i else c }

def brelse (p : Nat) (i : Fin NBUF) : KernelM Unit := do
  brelseUnlock p i
  brelseUnref i

def bpin (i : Fin NBUF) : KernelM Unit := fun s =>
  .ok () (s.setBuf i { s.bcache.buf i with refcnt := incr (s.bcache.buf i).refcnt })

def bunpin (i : Fin NBUF) : KernelM Unit := fun s => .ok () { s with bcache := s.bcache.unref i }

end Xv6

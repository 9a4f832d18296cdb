import Xv6.Bio.Cache
import Xv6.Lib.Hoare
import Xv6.Superblock

/-!
# The log over the buffer cache

`kernel/log.c` with its disk traffic. The log header on disk is a block whose first word is `n` and
whose next `n` words are the block numbers; the words are read and written through the bytes of the
block's buffer. `begin_op` that has to wait halts with `Halt.sleep` and leaves the state as it was.
-/

namespace Xv6

/-! ## The header block -/

/-- `lh->n` as a loop bound: a negative `int` makes no iterations. -/
def headN (hb : Block) : Nat := (hb.field 32 0).toInt.toNat

/-- `lh->block[i]`, converted to `uint` when it is used as a block number. -/
def headBlock (hb : Block) (i : Nat) : Nat := (hb.field 32 (4 * (i + 1))).toNat

/-- The entries `read_head` copies to memory. -/
def headEntries (hb : Block) : List Nat := (List.range (headN hb)).map (headBlock hb)

/-- The loop of `write_head` from entry `i` on. -/
def putEntries (hb : Block) : Nat → List Nat → Block
  | _, [] => hb
  | i, b :: bs => putEntries (hb.setField (4 * (i + 1)) (BitVec.ofNat 32 b)) (i + 1) bs

/-- The header block after `write_head` has stored `lh` in it. -/
def putHead (hb : Block) (lh : List Nat) : Block :=
  putEntries (hb.setField 0 (BitVec.ofNat 32 lh.length)) 0 lh

theorem field_putEntries (lh : List Nat) : ∀ (hb : Block) (i off : Nat), off + 4 ≤ 4 * (i + 1) →
    (putEntries hb i lh).field 32 off = hb.field 32 off := by
  induction lh with
  | nil => intro hb i off _; rfl
  | cons b bs ih =>
    intro hb i off h
    rw [putEntries, ih _ _ _ (by omega)]
    exact Bytes.field_setField_of_disjoint hb _ (.inl h)

theorem headBlock_putEntries (lh : List Nat) : ∀ (hb : Block) (i k : Nat), 4 * (i + lh.length + 1) ≤ BSIZE →
    (∀ b ∈ lh, b < 2 ^ 32) → (h : k < lh.length) → headBlock (putEntries hb i lh) (i + k) = lh[k] := by
  induction lh with
  | nil => intro hb i k _ _ h; cases h
  | cons b bs ih =>
    intro hb i k hsize hlt h
    rw [List.length_cons] at hsize h
    rw [putEntries]
    cases k with
    | zero =>
      have hb' : b % 2 ^ 32 = b := Nat.mod_eq_of_lt (hlt b List.mem_cons_self)
      rw [headBlock, Nat.add_zero, field_putEntries _ _ _ _ (by omega),
        Bytes.field_setField (by decide) _ _ (by omega), BitVec.toNat_ofNat, hb', List.getElem_cons_zero]
    | succ k =>
      have := ih (hb.setField (4 * (i + 1)) (BitVec.ofNat 32 b)) (i + 1) k (by omega)
        (fun c hc => hlt c (List.mem_cons_of_mem b hc)) (by omega)
      rw [show i + (k + 1) = i + 1 + k by omega, this, List.getElem_cons_succ]

theorem headEntries_putHead (hb : Block) {lh : List Nat} (hn : lh.length ≤ LOGSIZE) (hlt : ∀ b ∈ lh, b < 2 ^ 32) :
    headEntries (putHead hb lh) = lh := by
  have hL : LOGSIZE = 30 := rfl
  have hB : BSIZE = 1024 := rfl
  have hN : headN (putHead hb lh) = lh.length := by
    rw [headN, putHead, field_putEntries _ _ _ _ (by omega),
      Bytes.field_setField (by decide) _ _ (by rw [hB]; decide),
      BitVec.toInt_eq_toNat_of_lt (by rw [BitVec.toNat_ofNat]; omega), BitVec.toNat_ofNat]
    omega
  refine List.ext_getElem (by simp [headEntries, hN]) fun k hk hk' => ?_
  have := headBlock_putEntries lh (hb.setField 0 (BitVec.ofNat 32 lh.length)) 0 k (by omega) hlt hk'
  rw [Nat.zero_add] at this
  simpa [headEntries, putHead] using this

/-! ## The functions of `log.c` -/

def getLog : KernelM Log := fun s => .ok s.log s

def setLog (l : Log) : KernelM Unit := fun s => .ok () { s with log := l }

def panic {α : Type} (m : Panic) : KernelM α := fun s => .error (.panic m) s

/-- The body of the loop in `install_trans`. -/
def installBlock (p : Nat) (log : Log) (tail : Nat) : KernelM Unit := do
  let lbuf ← bread p log.dev (log.start + tail + 1)
  let dbuf ← bread p log.dev (log.lh.getD tail 0)
  let data ← getData lbuf
  setData dbuf data
  bwrite p dbuf
  bunpin dbuf
  brelse p lbuf
  brelse p dbuf

/-- Copy committed blocks from log to their home location. -/
def installTrans (p : Nat) : KernelM Unit := do
  let log ← getLog
  Hoare.loop (installBlock p log) 0 log.n

/-- Read the log header from disk into the in-memory log header. -/
def readHead (p : Nat) : KernelM Unit := do
  let log ← getLog
  let buf ← bread p log.dev log.start
  let hb ← getData buf
  setLog { log with lh := headEntries hb }
  brelse p buf

/-- Write in-memory log header to disk. -/
def writeHead (p : Nat) : KernelM Unit := do
  let log ← getLog
  let buf ← bread p log.dev log.start
  let hb ← getData buf
  setData buf (putHead hb log.lh)
  bwrite p buf
  brelse p buf

/-- `log.lh.n = 0`. -/
def clearLog : KernelM Unit := do
  let log ← getLog
  setLog { log with lh := [] }

def recoverFromLog (p : Nat) : KernelM Unit := do
  readHead p
  installTrans p
  clearLog
  writeHead p

def initlog (p dev : Nat) (sb : Superblock) : KernelM Unit :=
  if 4 * (LOGSIZE + 1) ≥ BSIZE then panic .bigLogheader
  else do
    let log ← getLog
    setLog { log with start := sb.logstart, size := sb.nlog, dev }
    recoverFromLog p

/-- One pass of the loop in `begin_op`. -/
def beginOp : KernelM Unit := fun s =>
  if s.log.committing then .error .sleep s
  else if s.log.exhausted then .error .sleep s
  else .ok () { s with log := { s.log with outstanding := s.log.outstanding + 1 } }

/-- The body of the loop in `write_log`. -/
def logBlock (p : Nat) (log : Log) (tail : Nat) : KernelM Unit := do
  let tobuf ← bread p log.dev (log.start + tail + 1)
  let frombuf ← bread p log.dev (log.lh.getD tail 0)
  let data ← getData frombuf
  setData tobuf data
  bwrite p tobuf
  brelse p frombuf
  brelse p tobuf

/-- Copy modified blocks from cache to log. -/
def writeLog (p : Nat) : KernelM Unit := do
  let log ← getLog
  Hoare.loop (logBlock p log) 0 log.n

def commit (p : Nat) : KernelM Unit := do
  let log ← getLog
  if log.n > 0 then do
    writeLog p
    writeHead p
    installTrans p
    clearLog
    writeHead p
  else pure ()

/-- The locked section of `end_op`; it says whether to commit. -/
def endOpLocked : KernelM Bool := do
  let log ← getLog
  setLog { log with outstanding := log.outstanding - 1 }
  if log.committing then panic .logCommitting
  else if log.outstanding - 1 = 0 then do
    setLog { log with outstanding := log.outstanding - 1, committing := true }
    return true
  else return false

/-- The last lines of `end_op`, after `commit()`. -/
def commitDone : KernelM Unit := do
  let log ← getLog
  setLog { log with committing := false }

def endOp (p : Nat) : KernelM Unit := do
  let doCommit ← endOpLocked
  if doCommit then do
    commit p
    commitDone
  else pure ()

/-- The tests of `log_write`, made without the lock. -/
def logGuard : KernelM Unit := do
  let log ← getLog
  if log.tooBig then panic .tooBig
  else if log.outstanding < 1 then panic .outsideTrans
  else pure ()

/-- The part of `log_write` under the lock. -/
def logLocked (i : Fin NBUF) : KernelM Unit := fun s =>
  let b := (s.bcache.buf i).blockno
  let t := { s with log := s.log.record b }
  if s.log.find b = s.log.n then bpin i t else .ok () t

def logWrite (i : Fin NBUF) : KernelM Unit := do
  logGuard
  logLocked i

end Xv6

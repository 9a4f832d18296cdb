import Xv6.Fs.Layout
import Xv6.Lib.Hoare
import Xv6.Vm.Copy

/-!
# Blocks, inodes and their contents

The functions of `kernel/fs.c` from `bzero` to `writei`. They use the block layer as an array of blocks,
which it refines as long as changes to a buffer are logged before the buffer is released. `writei` does not
keep that rule when `either_copyin` fails, so a block has two contents here: that of its buffer, and the one
logged last, which is read again once the buffer has been recycled. `recycle` says before which of the coming
calls of `bread` this has happened; a buffer that has been logged is pinned until the next commit, which
writes its contents of that time.

The calls run one after another, each with the locks it needs, so locks are not modelled; there is one
device.
-/

namespace Xv6.Fs

open Function (update)

/-- In-memory copy of an inode. -/
structure Inode where
  inum : Nat := 0
  ref : Nat := 0
  /-- The inode has been read from disk. -/
  valid : Bool := false
  d : Dinode := {}

/-- The inode cache. -/
abbrev Icache := Fin NINODE → Inode

structure State where
  buf : Blocks
  disk : Blocks
  pinned : Nat → Bool := fun _ => false
  recycle : List Bool := []
  /-- The blocks `log_write` was called for, the last one first. -/
  logged : List Nat := []
  icache : Icache := fun _ => {}

abbrev FsM := EStateM Panic State

def panic {α : Type} (m : Panic) : FsM α := fun s => .error m s

/-- The data of the buffer `bread` returns. -/
def bread (b : Nat) : FsM Block := fun s =>
  match s.recycle with
  | true :: r =>
    if s.pinned b then .ok (s.buf b) { s with recycle := r }
    else .ok (s.disk b) { s with recycle := r, buf := update s.buf b (s.disk b) }
  | false :: r => .ok (s.buf b) { s with recycle := r }
  | [] => .ok (s.buf b) s

/-- Change the data of a buffer that is held. -/
def modifyData (b : Nat) (f : Block → Block) : FsM Unit := fun s =>
  .ok () { s with buf := update s.buf b (f (s.buf b)) }

def logWrite (b : Nat) : FsM Unit := fun s =>
  .ok () { s with
    disk := update s.disk b (s.buf b)
    pinned := update s.pinned b true
    logged := b :: s.logged }

/-- `end_op` of the last operation in progress. -/
def commit : FsM Unit := fun s =>
  .ok () { s with disk := fun b => if s.pinned b then s.buf b else s.disk b, pinned := fun _ => false }

def getInode (ip : Fin NINODE) : FsM Inode := fun s => .ok (s.icache ip) s

def modifyInode (ip : Fin NINODE) (f : Inode → Inode) : FsM Unit := fun s =>
  .ok () { s with icache := update s.icache ip (f (s.icache ip)) }

/-! ## Blocks -/

/-- Zero a block. -/
def bzero (bno : Nat) : FsM Unit := do
  let _ ← bread bno
  modifyData bno fun _ _ => 0
  logWrite bno

/-- The inner loop of `balloc`: the first clear bit of a bitmap block from `bi` on, for the blocks from
`b` on. -/
def firstFree (d : Block) (b size : Nat) : Nat → Nat → Option Nat
  | 0, _ => none
  | k + 1, bi =>
    if b + bi < size then if d.bit bi then firstFree d b size k (bi + 1) else some bi else none

/-- The outer loop of `balloc`, with a bound on its iterations. -/
def ballocLoop (g : Geometry) : Nat → Nat → FsM Nat
  | 0, _ => panic .ballocOutOfBlocks
  | k + 1, b =>
    if b < g.size then do
      let d ← bread (g.bblock b)
      match firstFree d b g.size BPB 0 with
      | some bi => do
        modifyData (g.bblock b) (·.setBit bi)
        logWrite (g.bblock b)
        bzero (b + bi)
        return b + bi
      | none => ballocLoop g k (b + BPB)
    else panic .ballocOutOfBlocks

/-- Allocate a zeroed disk block. -/
def balloc (g : Geometry) : FsM Nat := ballocLoop g (g.size / BPB + 1) 0

/-- Free a disk block. -/
def bfree (g : Geometry) (b : Nat) : FsM Unit := do
  let d ← bread (g.bblock b)
  if d.bit (b % BPB) then do
    modifyData (g.bblock b) (·.clearBit (b % BPB))
    logWrite (g.bblock b)
  else panic .freeingFreeBlock

/-! ## Inodes -/

/-- Find the inode with number `inum` and return the in-memory copy. -/
def iget (inum : Nat) : FsM (Fin NINODE) := fun s =>
  match (List.finRange NINODE).find? fun ip => (s.icache ip).ref > 0 ∧ (s.icache ip).inum = inum with
  | some ip =>
    .ok ip { s with icache := update s.icache ip { s.icache ip with ref := (s.icache ip).ref + 1 } }
  | none =>
    match (List.finRange NINODE).find? fun ip => (s.icache ip).ref = 0 with
    | some ip =>
      .ok ip { s with icache := update s.icache ip { s.icache ip with inum, ref := 1, valid := false } }
    | none => .error .igetNoInodes s

/-- Increment the reference count. -/
def idup (ip : Fin NINODE) : FsM Unit := modifyInode ip fun x => { x with ref := x.ref + 1 }

/-- The loop of `ialloc` from inode `inum` on. -/
def iallocLoop (g : Geometry) (type : BitVec 16) : Nat → Nat → FsM (Fin NINODE)
  | 0, _ => panic .iallocNoInodes
  | k + 1, inum =>
    if inum < g.ninodes then do
      let d ← bread (g.iblock inum)
      if (Dinode.read d (inum % IPB)).type = 0 then do
        modifyData (g.iblock inum) (Dinode.clear · (inum % IPB) type)
        logWrite (g.iblock inum)
        iget inum
      else iallocLoop g type k (inum + 1)
    else panic .iallocNoInodes

/-- Allocate an inode. -/
def ialloc (g : Geometry) (type : BitVec 16) : FsM (Fin NINODE) := iallocLoop g type g.ninodes 1

/-- Copy a modified in-memory inode to disk. -/
def iupdate (g : Geometry) (ip : Fin NINODE) : FsM Unit := do
  let x ← getInode ip
  let _ ← bread (g.iblock x.inum)
  modifyData (g.iblock x.inum) (Dinode.write · (x.inum % IPB) x.d)
  logWrite (g.iblock x.inum)

/-- Lock the given inode; read it from disk if necessary. -/
def ilock (g : Geometry) (ip : Fin NINODE) : FsM Unit := do
  let x ← getInode ip
  if x.ref < 1 then panic .ilock
  else if x.valid then pure ()
  else do
    let d ← bread (g.iblock x.inum)
    modifyInode ip fun x => { x with valid := true, d := Dinode.read d (x.inum % IPB) }
    if (Dinode.read d (x.inum % IPB)).type = 0 then panic .ilockNoType else pure ()

/-! ## Contents -/

/-- `ip->addrs[k]`, allocating a block if there is none. -/
def mapAddr (g : Geometry) (ip : Fin NINODE) (k : Fin (NDIRECT + 1)) : FsM Nat := do
  let x ← getInode ip
  if x.d.addrs k = 0 then do
    let addr ← balloc g
    modifyInode ip fun x =>
      { x with d := { x.d with addrs := update x.d.addrs k (BitVec.ofNat 32 addr) } }
    return addr
  else return (x.d.addrs k).toNat

/-- Entry `j` of an indirect block. -/
def entry (d : Block) (j : Nat) : BitVec 32 := d.field 32 (4 * j)

/-- The disk block address of the `bn`th block of inode `ip`. If there is no such block, allocate one. -/
def bmap (g : Geometry) (ip : Fin NINODE) (bn : Nat) : FsM Nat :=
  if h : bn < NDIRECT then mapAddr g ip ⟨bn, Nat.lt_succ_of_lt h⟩
  else if bn - NDIRECT < NINDIRECT then do
    let ind ← mapAddr g ip (Fin.last NDIRECT)
    let a ← bread ind
    if entry a (bn - NDIRECT) = 0 then do
      let addr ← balloc g
      modifyData ind (·.setField (4 * (bn - NDIRECT)) (BitVec.ofNat 32 addr))
      logWrite ind
      return addr
    else return (entry a (bn - NDIRECT)).toNat
  else panic .bmapOutOfRange

/-- Free `ip->addrs[k]` if there is such a block. -/
def freeAddr (g : Geometry) (ip : Fin NINODE) (k : Fin (NDIRECT + 1)) : FsM Unit := do
  let x ← getInode ip
  if x.d.addrs k ≠ 0 then do
    bfree g (x.d.addrs k).toNat
    modifyInode ip fun x => { x with d := { x.d with addrs := update x.d.addrs k 0 } }
  else pure ()

/-- Free the block in entry `j` of an indirect block. -/
def freeEntry (g : Geometry) (a : Block) (j : Nat) : FsM Unit :=
  if entry a j ≠ 0 then bfree g (entry a j).toNat else pure ()

/-- Free the indirect block and the blocks in its entries, if there is one. -/
def freeIndirect (g : Geometry) (ip : Fin NINODE) : FsM Unit := do
  let x ← getInode ip
  if x.d.addrs (Fin.last NDIRECT) ≠ 0 then do
    let a ← bread (x.d.addrs (Fin.last NDIRECT)).toNat
    Hoare.loop (freeEntry g a) 0 NINDIRECT
    freeAddr g ip (Fin.last NDIRECT)
  else pure ()

/-- Truncate an inode. -/
def itrunc (g : Geometry) (ip : Fin NINODE) : FsM Unit := do
  Hoare.loop (fun i => freeAddr g ip (Fin.ofNat (NDIRECT + 1) i)) 0 NDIRECT
  freeIndirect g ip
  modifyInode ip fun x => { x with d := { x.d with size := 0 } }
  iupdate g ip

/-- Free an inode that has no links and no other references. -/
def ifree (g : Geometry) (ip : Fin NINODE) : FsM Unit := do
  itrunc g ip
  modifyInode ip fun x => { x with d := { x.d with type := 0 } }
  iupdate g ip
  modifyInode ip fun x => { x with valid := false }

/-- Whether `iput` frees the inode. -/
def Inode.unlinked (x : Inode) : Prop := x.ref = 1 ∧ x.valid = true ∧ x.d.nlink = 0

instance (x : Inode) : Decidable x.unlinked := inferInstanceAs (Decidable (_ ∧ _ ∧ _))

/-- Drop a reference to an in-memory inode; free the inode if that was the last one and it has no links. -/
def iput (g : Geometry) (ip : Fin NINODE) : FsM Unit := do
  let x ← getInode ip
  (if x.unlinked then ifree g ip else pure ())
  modifyInode ip fun x => { x with ref := x.ref - 1 }

/-- The loop of `readi`; it returns `tot` and the memory after the copies. -/
def readLoop (g : Geometry) (ip : Fin NINODE) (dst n : Nat) : Nat → (tot off : Nat) → Memory → FsM (Nat × Memory)
  | 0, tot, _, mem => return (tot, mem)
  | k + 1, tot, off, mem =>
    if tot < n then do
      let b ← bmap g ip (off / BSIZE)
      let d ← bread b
      let m := min (n - tot) (BSIZE - off % BSIZE)
      let (mem, ok) := mem.eitherCopyout ((dst + tot) % 2 ^ 64) (fun i => d.get (off % BSIZE + i)) m
      if ok then readLoop g ip dst n k (tot + m) (off + m) mem else return (tot, mem)
    else return (tot, mem)

/-- Read data from an inode to address `dst`. -/
def readi (g : Geometry) (ip : Fin NINODE) (mem : Memory) (dst : Nat) (off n : BitVec 32) : FsM (Nat × Memory) := do
  let x ← getInode ip
  if off > x.d.size ∨ off + n < off then return (0, mem)
  else
    let n := if off + n > x.d.size then x.d.size - off else n
    readLoop g ip dst n.toNat n.toNat 0 off.toNat mem

/-- The loop of `writei`; it returns `off`. -/
def writeLoop (g : Geometry) (ip : Fin NINODE) (mem : Memory) (src n : Nat) : Nat → (tot off : Nat) → FsM Nat
  | 0, _, off => return off
  | k + 1, tot, off =>
    if tot < n then do
      let b ← bmap g ip (off / BSIZE)
      let d ← bread b
      let m := min (n - tot) (BSIZE - off % BSIZE)
      let (d, ok) := mem.eitherCopyin d (off % BSIZE) ((src + tot) % 2 ^ 64) m
      modifyData b fun _ => d
      if ok then do
        logWrite b
        writeLoop g ip mem src n k (tot + m) (off + m)
      else return off
    else return off

/-- The end of `writei`: the new size, and the inode written back. -/
def writeBack (g : Geometry) (ip : Fin NINODE) (off : Nat) : FsM Unit := do
  modifyInode ip fun x =>
    if off > x.d.size.toNat then { x with d := { x.d with size := BitVec.ofNat 32 off } } else x
  iupdate g ip

/-- Write data at address `src` to an inode. -/
def writei (g : Geometry) (ip : Fin NINODE) (mem : Memory) (src : Nat) (off n : BitVec 32) : FsM Int := do
  let x ← getInode ip
  if off > x.d.size ∨ off + n < off then return -1
  else if off + n > BitVec.ofNat 32 (MAXFILE * BSIZE) then return -1
  else do
    let off ← writeLoop g ip mem src n.toNat n.toNat 0 off.toNat
    (if n > 0 then writeBack g ip off else pure ())
    return n.toInt

end Xv6.Fs

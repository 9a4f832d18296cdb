import Xv6.Fs.Dir

/-!
# `mkfs`

`mkfs/mkfs.c`: an image of `FSSIZE` zeroed sectors, a superblock, a root directory and one file for each
argument. Blocks and inodes are handed out by two counters. The operations on host files succeed, except that
an input file may not exist and that reading past the end of the image gives no bytes, on which `mkfs` gives up
with exit status 1; `read` may split a file in any way.
-/

namespace Xv6

/-- `sizeof(struct superblock)` bytes of a block, as `readsb` of `kernel/fs.c` copies them. -/
def Superblock.read (d : Block) : Superblock where
  magic := (d.field 32 0).toNat
  size := (d.field 32 4).toNat
  nblocks := (d.field 32 8).toNat
  ninodes := (d.field 32 12).toNat
  nlog := (d.field 32 16).toNat
  logstart := (d.field 32 20).toNat
  inodestart := (d.field 32 24).toNat
  bmapstart := (d.field 32 28).toNat

def Superblock.write (d : Block) (sb : Superblock) : Block :=
  let d := d.setField 0 (BitVec.ofNat 32 sb.magic)
  let d := d.setField 4 (BitVec.ofNat 32 sb.size)
  let d := d.setField 8 (BitVec.ofNat 32 sb.nblocks)
  let d := d.setField 12 (BitVec.ofNat 32 sb.ninodes)
  let d := d.setField 16 (BitVec.ofNat 32 sb.nlog)
  let d := d.setField 20 (BitVec.ofNat 32 sb.logstart)
  let d := d.setField 24 (BitVec.ofNat 32 sb.inodestart)
  d.setField 28 (BitVec.ofNat 32 sb.bmapstart)

theorem Superblock.read_write (d : Block) {sb : Superblock} (hmagic : sb.magic < 2 ^ 32) (hsize : sb.size < 2 ^ 32)
    (hnblocks : sb.nblocks < 2 ^ 32) (hninodes : sb.ninodes < 2 ^ 32) (hnlog : sb.nlog < 2 ^ 32)
    (hlog : sb.logstart < 2 ^ 32) (hinode : sb.inodestart < 2 ^ 32) (hbmap : sb.bmapstart < 2 ^ 32) :
    Superblock.read (Superblock.write d sb) = sb := by
  have hB : BSIZE = 1024 := rfl
  unfold Superblock.read Superblock.write
  simp (disch := omega) only [Bytes.field_setField_of_disjoint, Bytes.field_setField, BitVec.toNat_ofNat,
    Nat.mod_eq_of_lt]

namespace Mkfs

open Sys (Dirent T_DIR T_FILE)

/-- How `mkfs` can end other than with `exit(0)`. -/
inductive Stop
  | assertion
  | exit1
  deriving DecidableEq

/-- What `mkfs` has handed out and where it has written inodes. -/
inductive Event
  | block (b : Nat)
  | inode (i : Nat)
  | winode (bn : Nat)
  deriving DecidableEq

structure State where
  /-- The sectors of the image. -/
  img : Blocks := fun _ _ => 0
  /-- How many sectors the image has. -/
  len : Nat := 0
  freeinode : Nat := 1
  freeblock : Nat := 0
  trace : List Event := []

abbrev MkM := EStateM Stop State

def stop {α : Type} (e : Stop) : MkM α := fun s => .error e s

def assert (p : Prop) [Decidable p] : MkM Unit := if p then pure () else stop .assertion

def record (e : Event) : MkM Unit := fun s => .ok () { s with trace := s.trace ++ [e] }

/-- The sector that `lseek` finds for `sec`, whose offset is a 32-bit product. -/
def sector (sec : Nat) : Nat := sec * BSIZE % 2 ^ 32 / BSIZE

def wsect (sec : Nat) (buf : Block) : MkM Unit := fun s =>
  .ok () { s with img := Function.update s.img (sector sec) buf, len := max s.len (sector sec + 1) }

def rsect (sec : Nat) : MkM Block := fun s => if sector sec < s.len then .ok (s.img (sector sec)) s else .error .exit1 s

def winode (inum : Nat) (ip : Dinode) : MkM Unit := do
  let buf ← rsect (sb.iblock inum)
  wsect (sb.iblock inum) (Dinode.write buf (inum % IPB) ip)
  record (.winode (sb.iblock inum))

def rinode (inum : Nat) : MkM Dinode := do
  let buf ← rsect (sb.iblock inum)
  return Dinode.read buf (inum % IPB)

/-- `freeinode++`. -/
def freshInode : MkM Nat := fun s =>
  .ok s.freeinode { s with freeinode := s.freeinode + 1, trace := s.trace ++ [.inode s.freeinode] }

/-- `freeblock++`. -/
def freshBlock : MkM Nat := fun s =>
  .ok s.freeblock { s with freeblock := s.freeblock + 1, trace := s.trace ++ [.block s.freeblock] }

def ialloc (type : BitVec 16) : MkM Nat := do
  let inum ← freshInode
  winode inum { type := type, nlink := 1, size := 0 }
  return inum

/-- The bitmap with the first `used` bits set. -/
def bitmap (used : Nat) : Block := (List.range used).foldl (fun buf i => buf.setBit i) fun _ => 0

def balloc (used : Nat) : MkM Unit := do
  assert (used < BSIZE * 8)
  wsect sb.bmapstart (bitmap used)

/-- Give a file an indirect block if it has none. -/
def withIndirect (din : Dinode) : MkM Dinode :=
  if din.addrs (Fin.last NDIRECT) = 0 then do
    let b ← freshBlock
    return din.setAddr (Fin.last NDIRECT) (BitVec.ofNat 32 b)
  else return din

/-- Block `fbn` of a file; a new one if there is none. -/
def blockFor (din : Dinode) (fbn : Nat) : MkM (Dinode × Nat) :=
  if h : fbn < NDIRECT then
    if din.addrs ⟨fbn, Nat.lt_succ_of_lt h⟩ = 0 then do
      let b ← freshBlock
      return (din.setAddr ⟨fbn, Nat.lt_succ_of_lt h⟩ (BitVec.ofNat 32 b), b)
    else return (din, din.addr fbn)
  else do
    let din ← withIndirect din
    let indirect ← rsect (din.addr NDIRECT)
    if Fs.entry indirect (fbn - NDIRECT) = 0 then do
      let b ← freshBlock
      wsect (din.addr NDIRECT) (indirect.setField (4 * (fbn - NDIRECT)) (BitVec.ofNat 32 b))
      return (din, b)
    else return (din, (Fs.entry indirect (fbn - NDIRECT)).toNat)

/-- The loop of `iappend`, with a bound on its iterations. -/
def iappendLoop : Nat → Dinode → (off : Nat) → (p : List (BitVec 8)) → MkM (Dinode × Nat)
  | 0, din, off, _ => return (din, off)
  | k + 1, din, off, p =>
    if 0 < p.length then do
      let fbn := off / BSIZE
      assert (fbn < MAXFILE)
      let (din, x) ← blockFor din fbn
      let n1 := min p.length ((fbn + 1) * BSIZE - off)
      let buf ← rsect x
      wsect x (buf.store (off - fbn * BSIZE) (p.getD · 0) n1)
      iappendLoop k din (off + n1) (p.drop n1)
    else return (din, off)

/-- Every iteration appends a byte, so `p.length` iterations are enough. -/
def iappend (inum : Nat) (p : List (BitVec 8)) : MkM Unit := do
  let din ← rinode inum
  let (din, off) ← iappendLoop p.length din din.size.toNat p
  winode inum { din with size := BitVec.ofNat 32 off }

/-- An argument of `mkfs` after the name of the image. -/
structure Input where
  /-- The bytes of the argument, up to the terminating zero. -/
  path : List (BitVec 8)
  nonzero : ∀ b ∈ path, b ≠ 0
  /-- What `read` returns, call by call, before the first call that returns no bytes; `none` if there is no such
  file. -/
  chunks : Option (List (List (BitVec 8)))
  sizes : ∀ cs, chunks = some cs → ∀ c ∈ cs, 0 < c.length ∧ c.length ≤ BSIZE

theorem sizes_nil (cs : List (List (BitVec 8))) (h : some [] = some cs) :
    ∀ c ∈ cs, 0 < c.length ∧ c.length ≤ BSIZE := by
  cases h
  exact fun c hc => absurd hc List.not_mem_nil

/-- Get rid of `user/`. -/
def shortname (path : List (BitVec 8)) : List (BitVec 8) :=
  if path.take 5 = [117, 115, 101, 114, 47] then path.drop 5 else path

/-- Skip a leading `_`. -/
def skipUnderscore (name : List (BitVec 8)) : List (BitVec 8) := if name.head? = some 95 then name.tail else name

/-- The name that the file gets, cut to `DIRSIZ` bytes. -/
def Input.name (f : Input) : Name := Name.ofStr (skipUnderscore (shortname f.path))

def appendAll (inum : Nat) : List (List (BitVec 8)) → MkM Unit
  | [] => pure ()
  | c :: cs => do
    iappend inum c
    appendAll inum cs

/-- One turn of the loop over the arguments. -/
def addFile (rootino : Nat) (f : Input) : MkM Unit := do
  assert (SLASH ∉ shortname f.path)
  match f.chunks with
  | none => stop .exit1
  | some cs => do
    let inum ← ialloc T_FILE
    iappend rootino (Dirent.bytes { inum := BitVec.ofNat 16 inum, name := f.name })
    appendAll inum cs

def addFiles (rootino : Nat) : List Input → MkM Unit
  | [] => pure ()
  | f :: fs => do
    addFile rootino f
    addFiles rootino fs

/-- Fix the size of the root directory. -/
def fixRoot (rootino : Nat) : MkM Unit := do
  let din ← rinode rootino
  winode rootino { din with size := (din.size / BitVec.ofNat 32 BSIZE + 1) * BitVec.ofNat 32 BSIZE }

def setFreeblock (b : Nat) : MkM Unit := fun s => .ok () { s with freeblock := b }

def getFreeblock : MkM Nat := fun s => .ok s.freeblock s

/-- The loop that zeroes the image; irreducible, so that unification does not unroll it. -/
@[irreducible] def zeroSectors : MkM Unit := Hoare.loop (fun i => wsect i fun _ => 0) 0 FSSIZE

/-- `main`, for the arguments after the name of the image. -/
def main (args : List Input) : MkM Unit := do
  setFreeblock nmeta
  zeroSectors
  wsect 1 (Superblock.write (fun _ => 0) sb)
  let rootino ← ialloc T_DIR
  assert (rootino = ROOTINO)
  iappend rootino (Dirent.bytes { inum := BitVec.ofNat 16 rootino, name := .dot })
  iappend rootino (Dirent.bytes { inum := BitVec.ofNat 16 rootino, name := .dotdot })
  addFiles rootino args
  fixRoot rootino
  let used ← getFreeblock
  balloc used

end Mkfs

end Xv6

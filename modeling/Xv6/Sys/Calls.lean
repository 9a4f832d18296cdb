import Xv6.Fs.Layout
import Xv6.Lib.Hoare
import Xv6.Sys.Name

/-!
# The file-system calls

Directories and paths (`kernel/fs.c`, from `dirlookup` on), the system calls of `kernel/sysfile.c` that use
them, and what `kernel/file.c` and `fork`, `exit` do to references. Below them an inode is its fields and, for
a directory, the entries in it; the bytes of other files are not modelled. A call runs to its end before the
next one starts, so locks are not modelled. An inode is in the inode cache while its reference count is
positive; which entry of the cache it has does not matter.
-/

namespace Xv6.Sys

open Function (update)

def T_DIR : BitVec 16 := 1
def T_FILE : BitVec 16 := 2
def T_DEVICE : BitVec 16 := 3

def O_RDONLY : BitVec 32 := 0x000
def O_CREATE : BitVec 32 := 0x200
def O_TRUNC : BitVec 32 := 0x400

/-- `struct dirent`; a free slot has inode number 0. -/
structure Dirent where
  inum : BitVec 16 := 0
  name : Name := fun _ => 0

/-- Size of `struct dirent` in bytes. -/
def DIRENT : Nat := 16

/-- An inode, with the entries of a directory: those below `size` count. -/
structure Node where
  type : BitVec 16 := 0
  major : BitVec 16 := 0
  minor : BitVec 16 := 0
  nlink : BitVec 16 := 0
  size : Nat := 0
  ents : Nat → Dirent := fun _ => {}

abbrev Disk := Nat → Node

/-- What an open file is. -/
inductive FileType
  | none
  | inode
  | device
  deriving DecidableEq

/-- `struct file`. -/
structure File where
  ref : Nat := 0
  type : FileType := .none
  ip : Nat := 0

structure Proc where
  cwd : Nat
  ofile : Fin NOFILE → Option (Fin NFILE) := fun _ => none

abbrev Ftable := Fin NFILE → File

abbrev Procs := Fin NPROC → Option Proc

structure State where
  ninodes : Nat
  inode : Disk
  /-- References to the in-memory inode. -/
  ref : Nat → Nat := fun _ => 0
  /-- The in-memory inode has been read from disk. -/
  valid : Nat → Bool := fun _ => false
  /-- Entries of the inode cache in use. -/
  active : Nat := 0
  /-- At which of the coming calls of `balloc` there is no free block. -/
  full : List Bool := []
  ftable : Ftable := fun _ => {}
  proc : Procs := fun _ => none

abbrev SysM := EStateM Panic State

def panic {α : Type} (m : Panic) : SysM α := fun s => .error m s

def getNode (i : Nat) : SysM Node := fun s => .ok (s.inode i) s

/-- Change an inode in memory and on disk. -/
def setNode (i : Nat) (x : Node) : SysM Unit := fun s => .ok () { s with inode := update s.inode i x }

/-! ## Inodes -/

/-- `itrunc` of an inode. -/
def Node.trunc (x : Node) : Node := { x with size := 0 }

def iget (i : Nat) : SysM Unit := fun s =>
  if 0 < s.ref i then .ok () { s with ref := update s.ref i (s.ref i + 1) }
  else if s.active = NINODE then .error .igetNoInodes s
  else .ok () { s with
    ref := update s.ref i 1
    valid := update s.valid i false
    active := s.active + 1 }

def idup (i : Nat) : SysM Unit := fun s => .ok () { s with ref := update s.ref i (s.ref i + 1) }

def ilock (i : Nat) : SysM Unit := fun s =>
  if s.ref i < 1 then .error .ilock s
  else if s.valid i then .ok () s
  else if (s.inode i).type = 0 then .error .ilockNoType s
  else .ok () { s with valid := update s.valid i true }

/-- Whether `iput` frees the inode. -/
def State.Unlinked (s : State) (i : Nat) : Prop := s.ref i = 1 ∧ s.valid i = true ∧ (s.inode i).nlink = 0

instance (s : State) (i : Nat) : Decidable (s.Unlinked i) := inferInstanceAs (Decidable (_ ∧ _ ∧ _))

/-- Free an inode that has no links and no other references. -/
def ifree (i : Nat) : SysM Unit := fun s =>
  .ok () { s with
    inode := update s.inode i { (s.inode i).trunc with type := 0 }
    valid := update s.valid i false }

def iputRef (i : Nat) : SysM Unit := fun s =>
  .ok () { s with
    ref := update s.ref i (s.ref i - 1)
    active := if s.ref i = 1 then s.active - 1 else s.active }

/-- Drop a reference; `iunlockput` is the same, since locks are not modelled. -/
def iput (i : Nat) : SysM Unit := fun s =>
  if s.Unlinked i then (do ifree i; iputRef i : SysM Unit) s else iputRef i s

/-- The loop of `ialloc` from inode `i` on. -/
def iallocLoop (type : BitVec 16) : Nat → Nat → SysM Nat
  | 0, _ => panic .iallocNoInodes
  | k + 1, i => fun s =>
    if i < s.ninodes then
      if (s.inode i).type = 0 then (do setNode i { type }; iget i; return i : SysM Nat) s
      else iallocLoop type k (i + 1) s
    else .error .iallocNoInodes s

def ialloc (type : BitVec 16) : SysM Nat := fun s => iallocLoop type s.ninodes 1 s

/-! ## Directories -/

/-- The loops over the entries of a directory, from entry `k` on: the first one that `p` holds for. An entry
that is cut off by the end of the directory is a panic. -/
def scan (x : Node) (p : Dirent → Bool) (e : Panic) : Nat → Nat → SysM (Option Nat)
  | 0, _ => return none
  | n + 1, k =>
    if DIRENT * k < x.size then
      if x.size < DIRENT * k + DIRENT then panic e
      else if p (x.ents k) then return some k
      else scan x p e n (k + 1)
    else return none

/-- Number of entries, the last of which may be cut off. -/
def Node.slots (x : Node) : Nat := (x.size + (DIRENT - 1)) / DIRENT

def Dirent.matches (name : Name) (e : Dirent) : Bool := e.inum ≠ 0 ∧ namecmp name e.name = 0

/-- Look for a directory entry: the inode it names, and which entry it is. -/
def dirlookup (d : Nat) (name : Name) : SysM (Option (Nat × Nat)) := do
  let x ← getNode d
  if x.type ≠ T_DIR then panic .dirlookupNotDir
  else
    match ← scan x (Dirent.matches name) .dirlookupRead x.slots 0 with
    | none => return none
    | some k => do
      iget (x.ents k).inum.toNat
      return some ((x.ents k).inum.toNat, k)

/-- `balloc` for a directory that grows into a new block. -/
def takeBlock : SysM Unit := fun s =>
  match s.full with
  | true :: _ => .error .ballocOutOfBlocks s
  | false :: r => .ok () { s with full := r }
  | [] => .ok () s

/-- `writei` of entry `k`; `e` is the panic if it does not write the whole entry. -/
def writeEnt (d k : Nat) (de : Dirent) (e : Panic) : SysM Unit := do
  let x ← getNode d
  if DIRENT * k > x.size ∨ DIRENT * k + DIRENT > MAXFILE * BSIZE then panic e
  else do
    (if x.size ≤ DIRENT * k ∧ DIRENT * k % BSIZE = 0 then takeBlock else pure ())
    setNode d { x with size := max x.size (DIRENT * k + DIRENT), ents := update x.ents k de }

/-- Write a new directory entry into the directory `d`; false if the name is present. -/
def dirlink (d : Nat) (name : Name) (inum : Nat) : SysM Bool := do
  match ← dirlookup d name with
  | some (ip, _) => do
    iput ip
    return false
  | none => do
    let x ← getNode d
    let k ← scan x (fun de => de.inum = 0) .dirlinkRead x.slots 0
    writeEnt d (k.getD x.slots) { inum := BitVec.ofNat 16 inum, name := name.strncpy } .dirlink
    return true

/-! ## Paths -/

/-- The loop of `namex`; its first argument bounds the number of elements left. -/
def namexLoop (parent : Bool) : Nat → Nat → Path → Name → SysM (Option (Nat × Name))
  | 0, ip, _, name => return some (ip, name)
  | n + 1, ip, path, name =>
    match skipelem path name with
    | none =>
      if parent then do
        iput ip
        return none
      else return some (ip, name)
    | some (path, name) => do
      ilock ip
      let x ← getNode ip
      if x.type ≠ T_DIR then do
        iput ip
        return none
      else if parent ∧ path = [] then return some (ip, name)
      else
        match ← dirlookup ip name with
        | none => do
          iput ip
          return none
        | some (next, _) => do
          iput ip
          namexLoop parent n next path name

def getProc (p : Fin NPROC) : SysM Proc := fun s => .ok ((s.proc p).getD { cwd := ROOTINO }) s

/-- The inode for a path name, or for its parent, and the last element. -/
def namex (p : Fin NPROC) (path : Path) (parent : Bool) : SysM (Option (Nat × Name)) := do
  let pr ← getProc p
  let ip := if path.head? = some SLASH then ROOTINO else pr.cwd
  (if path.head? = some SLASH then iget ROOTINO else idup pr.cwd)
  namexLoop parent (path.length + 1) ip path fun _ => 0

def namei (p : Fin NPROC) (path : Path) : SysM (Option Nat) := do
  let r ← namex p path false
  return r.map Prod.fst

def nameiparent (p : Fin NPROC) (path : Path) : SysM (Option (Nat × Name)) := namex p path true

/-! ## Open files -/

def getFile (f : Fin NFILE) : SysM File := fun s => .ok (s.ftable f) s

def setFile (f : Fin NFILE) (x : File) : SysM Unit := fun s => .ok () { s with ftable := update s.ftable f x }

def setProc (p : Fin NPROC) (x : Option Proc) : SysM Unit := fun s => .ok () { s with proc := update s.proc p x }

def filealloc : SysM (Option (Fin NFILE)) := fun s =>
  match (List.finRange NFILE).find? fun f => (s.ftable f).ref = 0 with
  | some f => .ok (some f) { s with ftable := update s.ftable f { s.ftable f with ref := 1 } }
  | none => .ok none s

/-- Allocate a file descriptor for the given file. -/
def fdalloc (p : Fin NPROC) (f : Fin NFILE) : SysM (Option (Fin NOFILE)) := do
  let pr ← getProc p
  match (List.finRange NOFILE).find? fun fd => (pr.ofile fd).isNone with
  | some fd => do
    setProc p (some { pr with ofile := update pr.ofile fd (some f) })
    return some fd
  | none => return none

/-- Close file `f`: decrement the reference count, close when it reaches 0. -/
def fileclose (f : Fin NFILE) : SysM Unit := do
  let x ← getFile f
  if x.ref < 1 then panic .fileclose
  else if 1 < x.ref then setFile f { x with ref := x.ref - 1 }
  else do
    setFile f { x with ref := 0, type := .none }
    if x.type = .none then pure () else iput x.ip

/-! ## System calls -/

/-- The two lines `ip->nlink += n; iupdate(ip)`. -/
def addLinks (i : Nat) (n : BitVec 16) : SysM Unit := do
  let x ← getNode i
  setNode i { x with nlink := x.nlink + n }

/-- What `sys_link` does when the new name cannot be made. -/
def linkBad (ip : Nat) : SysM Int := do
  ilock ip
  addLinks ip (-1)
  iput ip
  return -1

/-- The paths are `none` if `argstr` fails. -/
def sysLink (p : Fin NPROC) : Option Path → Option Path → SysM Int
  | some old, some new => do
    match ← namei p old with
    | none => return -1
    | some ip => do
      ilock ip
      let x ← getNode ip
      if x.type = T_DIR then do
        iput ip
        return -1
      else do
        addLinks ip 1
        match ← nameiparent p new with
        | none => linkBad ip
        | some (dp, name) => do
          ilock dp
          if ← dirlink dp name ip then do
            iput dp
            iput ip
            return 0
          else do
            iput dp
            linkBad ip
  | _, _ => return -1

/-- Is the directory empty except for `.` and `..`? -/
def isdirempty (x : Node) : SysM Bool := do
  let k ← scan x (fun de => de.inum ≠ 0) .isdiremptyReadi x.slots 2
  return k.isNone

/-- Whether the inode is a directory with entries, which `sys_unlink` leaves alone. -/
def dirInUse (x : Node) : SysM Bool :=
  if x.type = T_DIR then do
    let empty ← isdirempty x
    return !empty
  else return false

def sysUnlink (p : Fin NPROC) : Option Path → SysM Int
  | none => return -1
  | some path => do
    match ← nameiparent p path with
    | none => return -1
    | some (dp, name) => do
      ilock dp
      if namecmp name .dot = 0 ∨ namecmp name .dotdot = 0 then do
        iput dp
        return -1
      else
        match ← dirlookup dp name with
        | none => do
          iput dp
          return -1
        | some (ip, k) => do
          ilock ip
          let x ← getNode ip
          if x.nlink.toInt < 1 then panic .unlinkNlink
          else if ← dirInUse x then do
            iput ip
            iput dp
            return -1
          else do
            writeEnt dp k {} .unlinkWritei
            (if x.type = T_DIR then addLinks dp (-1) else pure ())
            iput dp
            addLinks ip (-1)
            iput ip
            return 0

/-- The entries of a new directory. -/
def makeDots (dp ip : Nat) : SysM Unit := do
  addLinks dp 1
  if ← dirlink ip .dot ip then
    if ← dirlink ip .dotdot dp then pure () else panic .createDots
  else panic .createDots

/-- Make an inode with a name, or find the file that has the name; the inode is returned locked. -/
def create (p : Fin NPROC) (path : Path) (type major minor : BitVec 16) : SysM (Option Nat) := do
  match ← nameiparent p path with
  | none => return none
  | some (dp, name) => do
    ilock dp
    match ← dirlookup dp name with
    | some (ip, _) => do
      iput dp
      ilock ip
      let x ← getNode ip
      if type = T_FILE ∧ (x.type = T_FILE ∨ x.type = T_DEVICE) then return some ip
      else do
        iput ip
        return none
    | none => do
      let ip ← ialloc type
      ilock ip
      let x ← getNode ip
      setNode ip { x with major, minor, nlink := 1 }
      (if type = T_DIR then makeDots dp ip else pure ())
      if ← dirlink dp name ip then do
        iput dp
        return some ip
      else panic .createDirlink

/-- The first part of `sys_open`: find or make the inode, and lock it. -/
def openInode (p : Fin NPROC) (path : Path) (omode : BitVec 32) : SysM (Option Nat) := do
  if omode &&& O_CREATE ≠ 0 then create p path T_FILE 0 0
  else
    match ← namei p path with
    | none => return none
    | some ip => do
      ilock ip
      let x ← getNode ip
      if x.type = T_DIR ∧ omode ≠ O_RDONLY then do
        iput ip
        return none
      else return some ip

/-- The second part of `sys_open`: a file and a descriptor for the inode. -/
def openFile (p : Fin NPROC) (ip : Nat) (omode : BitVec 32) : SysM Int := do
  let x ← getNode ip
  if x.type = T_DEVICE ∧ (x.major.toInt < 0 ∨ (NDEV : Int) ≤ x.major.toInt) then do
    iput ip
    return -1
  else
    match ← filealloc with
    | none => do
      iput ip
      return -1
    | some f =>
      match ← fdalloc p f with
      | none => do
        fileclose f
        iput ip
        return -1
      | some fd => do
        let y ← getFile f
        setFile f { y with type := if x.type = T_DEVICE then .device else .inode, ip }
        (if omode &&& O_TRUNC ≠ 0 ∧ x.type = T_FILE then setNode ip x.trunc else pure ())
        return fd.val

def sysOpen (p : Fin NPROC) (omode : BitVec 32) : Option Path → SysM Int
  | none => return -1
  | some path => do
    match ← openInode p path omode with
    | none => return -1
    | some ip => openFile p ip omode

/-- `sys_mkdir` and `sys_mknod` drop the inode they make. -/
def makeNode (p : Fin NPROC) (type major minor : BitVec 16) : Option Path → SysM Int
  | none => return -1
  | some path => do
    match ← create p path type major minor with
    | none => return -1
    | some ip => do
      iput ip
      return 0

def sysMkdir (p : Fin NPROC) (path : Option Path) : SysM Int := makeNode p T_DIR 0 0 path

def sysMknod (p : Fin NPROC) (major minor : BitVec 16) (path : Option Path) : SysM Int :=
  makeNode p T_DEVICE major minor path

def sysChdir (p : Fin NPROC) : Option Path → SysM Int
  | none => return -1
  | some path => do
    match ← namei p path with
    | none => return -1
    | some ip => do
      ilock ip
      let x ← getNode ip
      if x.type ≠ T_DIR then do
        iput ip
        return -1
      else do
        let pr ← getProc p
        iput pr.cwd
        setProc p (some { pr with cwd := ip })
        return 0

def sysClose (p : Fin NPROC) (fd : Fin NOFILE) : SysM Int := do
  let pr ← getProc p
  match pr.ofile fd with
  | none => return -1
  | some f => do
    setProc p (some { pr with ofile := update pr.ofile fd none })
    fileclose f
    return 0

instance : NeZero NOFILE := ⟨by decide⟩

/-- Close a file of a process that exits. -/
def closeFd (p : Fin NPROC) (fd : Nat) : SysM Unit := do
  let pr ← getProc p
  match pr.ofile (Fin.ofNat NOFILE fd) with
  | none => pure ()
  | some f => do
    fileclose f
    setProc p (some { pr with ofile := update pr.ofile (Fin.ofNat NOFILE fd) none })

/-- Process 0 is `initproc`. -/
def exit (p : Fin NPROC) : SysM Unit := do
  if p.val = 0 then panic .initExiting
  else do
    Hoare.loop (closeFd p) 0 NOFILE
    let pr ← getProc p
    iput pr.cwd
    setProc p none

def filedup (f : Fin NFILE) : SysM Unit := do
  let x ← getFile f
  if x.ref < 1 then panic .filedup else setFile f { x with ref := x.ref + 1 }

/-- Copy an open file descriptor to a child. -/
def dupFd (p : Fin NPROC) (fd : Nat) : SysM Unit := do
  let pr ← getProc p
  match pr.ofile (Fin.ofNat NOFILE fd) with
  | none => pure ()
  | some f => filedup f

/-- The part of `fork` that is about files: the child is in slot `q`. -/
def fork (p q : Fin NPROC) : SysM Unit := do
  let pr ← getProc p
  Hoare.loop (dupFd p) 0 NOFILE
  idup pr.cwd
  setProc q (some pr)

end Xv6.Sys

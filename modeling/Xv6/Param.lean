import Mathlib.Data.Nat.Notation

/-!
# Build-time parameters

The constants of `kernel/param.h` and `kernel/fs.h` that the file system is compiled with.
-/

namespace Xv6

/-- Maximum number of processes. -/
def NPROC : Nat := 64

/-- Open files per process. -/
def NOFILE : Nat := 16

/-- Open files per system. -/
def NFILE : Nat := 100

/-- Maximum number of active i-nodes. -/
def NINODE : Nat := 50

/-- Maximum major device number. -/
def NDEV : Nat := 10

/-- Device number of the file system's root disk. -/
def ROOTDEV : Nat := 1

/-- Maximum number of blocks any file-system operation writes. -/
def MAXOPBLOCKS : Nat := 10

/-- Maximum number of data blocks in the on-disk log. -/
def LOGSIZE : Nat := MAXOPBLOCKS * 3

/-- Size of the disk block cache. -/
def NBUF : Nat := MAXOPBLOCKS * 3

/-- Size of the file system in blocks. -/
def FSSIZE : Nat := 1000

/-- Maximum number of arguments of `exec`. -/
def MAXARG : Nat := 32

/-- Maximum file path name. -/
def MAXPATH : Nat := 128

/-- Root i-number. -/
def ROOTINO : Nat := 1

/-- Block size. -/
def BSIZE : Nat := 1024

theorem NPROC_pos : 0 < NPROC := by decide

theorem one_lt_NPROC : 1 < NPROC := by decide

theorem NINODE_pos : 0 < NINODE := by decide

end Xv6

import Xv6.Param

/-!
# The superblock

`struct superblock` of `kernel/fs.h` and the one `mkfs` writes.
-/

namespace Xv6

def FSMAGIC : Nat := 0x10203040

/-- Size of `struct dinode` in bytes. -/
def DINODE : Nat := 64

/-- Inodes per block. -/
def IPB : Nat := BSIZE / DINODE

/-- Bitmap bits per block. -/
def BPB : Nat := BSIZE * 8

structure Superblock where
  magic : Nat
  /-- Size of the file system image in blocks. -/
  size : Nat
  nblocks : Nat
  ninodes : Nat
  nlog : Nat
  logstart : Nat
  inodestart : Nat
  bmapstart : Nat
  deriving DecidableEq, Repr

namespace Mkfs

def NINODES : Nat := 200

def nbitmap : Nat := FSSIZE / BPB + 1

def ninodeblocks : Nat := NINODES / IPB + 1

/-- Number of log blocks; the first of them is the header. -/
def nlog : Nat := LOGSIZE

/-- Number of meta blocks: boot, super, log, inodes, bitmap. -/
def nmeta : Nat := 2 + nlog + ninodeblocks + nbitmap

/-- The superblock of every image `mkfs` makes. -/
def sb : Superblock where
  magic := FSMAGIC
  size := FSSIZE
  nblocks := FSSIZE - nmeta
  ninodes := NINODES
  nlog := nlog
  logstart := 2
  inodestart := 2 + nlog
  bmapstart := 2 + nlog + ninodeblocks

end Mkfs

end Xv6

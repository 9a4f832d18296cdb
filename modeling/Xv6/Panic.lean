/-!
# Kernel panics

The calls of `panic` that the modelled code contains.
-/

namespace Xv6

inductive Panic
  | bgetNoBuffers
  | bwrite
  | brelse
  | bigLogheader
  | tooBig
  | outsideTrans
  | logCommitting
  | ballocOutOfBlocks
  | freeingFreeBlock
  | iallocNoInodes
  | igetNoInodes
  | ilock
  | ilockNoType
  | iunlock
  | schedLocks
  | schedInterruptible
  | popOffInterruptible
  | popOff
  | bmapOutOfRange
  | dirlookupNotDir
  | dirlookupRead
  | dirlinkRead
  | dirlink
  | isdiremptyReadi
  | unlinkNlink
  | unlinkWritei
  | createDots
  | createDirlink
  | fileclose
  | filedup
  | shortFilewrite
  | initExiting
  | virtioIntr1
  | virtioIntr2
  | virtioStatus
  | kerneltrap
  | kfree
  | walk
  | remap
  | uvmunmapNotAligned
  | uvmunmapWalk
  | uvmunmapNotMapped
  | uvmunmapNotLeaf
  | freewalkLeaf
  | uvmcopyPte
  | uvmcopyPage
  deriving DecidableEq, Repr

end Xv6

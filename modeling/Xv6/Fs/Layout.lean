import Xv6.Bio.Cache
import Xv6.Superblock

/-!
# The on-disk format

Where `kernel/fs.h` puts inodes, bitmap bits and the entries of indirect blocks, as functions of the
contents of all blocks. Each reader comes with the lemmas that say which writes it sees.
-/

namespace Xv6

def NDIRECT : Nat := 12

def NINDIRECT : Nat := BSIZE / 4

def MAXFILE : Nat := NDIRECT + NINDIRECT

/-- Block containing inode `i`. -/
def Superblock.iblock (sb : Superblock) (i : Nat) : Nat := i / IPB + sb.inodestart

/-- Block of the free map containing the bit for block `b`. -/
def Superblock.bblock (sb : Superblock) (b : Nat) : Nat := b / BPB + sb.bmapstart

/-- The first data block. -/
def Superblock.datastart (sb : Superblock) : Nat := sb.size - sb.nblocks

/-- A superblock whose areas follow each other as the comment in `fs.h` draws them. -/
structure Geometry extends Superblock where
  log_fits : logstart + nlog ≤ inodestart
  inodes_fit : (ninodes - 1) / IPB + inodestart < bmapstart
  bitmap_fits : (size - 1) / BPB + bmapstart < size - nblocks
  size_lt : size < 2 ^ 31

/-- The layout of every image `mkfs` makes. -/
def Mkfs.geometry : Geometry where
  toSuperblock := Mkfs.sb
  log_fits := by decide
  inodes_fit := by decide
  bitmap_fits := by decide
  size_lt := by decide

namespace Geometry

variable (g : Geometry) {b i : Nat}

theorem iblock_lt (h : i < g.ninodes) : g.iblock i < g.bmapstart := by
  have := g.inodes_fit
  have : i / IPB ≤ (g.ninodes - 1) / IPB := Nat.div_le_div_right (by omega)
  unfold Superblock.iblock
  omega

theorem bblock_lt (h : b < g.size) : g.bblock b < g.datastart := by
  have := g.bitmap_fits
  have : b / BPB ≤ (g.size - 1) / BPB := Nat.div_le_div_right (by omega)
  unfold Superblock.bblock Superblock.datastart
  omega

theorem bmapstart_le (b : Nat) : g.bmapstart ≤ g.bblock b := Nat.le_add_left _ _

theorem bmapstart_lt : g.bmapstart < g.datastart :=
  Nat.lt_of_le_of_lt (Nat.le_add_left _ _) g.bitmap_fits

theorem iblock_lt_datastart (h : i < g.ninodes) : g.iblock i < g.datastart :=
  (g.iblock_lt h).trans g.bmapstart_lt

theorem iblock_ne_bblock (h : i < g.ninodes) (b : Nat) : g.iblock i ≠ g.bblock b :=
  Nat.ne_of_lt (Nat.lt_of_lt_of_le (g.iblock_lt h) (g.bmapstart_le b))

end Geometry

/-! ## Inodes -/

/-- `struct dinode`. -/
structure Dinode where
  type : BitVec 16 := 0
  major : BitVec 16 := 0
  minor : BitVec 16 := 0
  nlink : BitVec 16 := 0
  size : BitVec 32 := 0
  addrs : Fin (NDIRECT + 1) → BitVec 32 := fun _ => 0

namespace Dinode

/-- Byte `t` of `addrs`. -/
def addrByte (x : Dinode) (t : Nat) : BitVec 8 :=
  if h : t / 4 < NDIRECT + 1 then Bytes.leByte (x.addrs ⟨t / 4, h⟩).toNat (t % 4) else 0

/-- The `k`th inode of a block, as `ilock` reads it. -/
def read (d : Block) (k : Nat) : Dinode where
  type := d.field 16 (DINODE * k)
  major := d.field 16 (DINODE * k + 2)
  minor := d.field 16 (DINODE * k + 4)
  nlink := d.field 16 (DINODE * k + 6)
  size := d.field 32 (DINODE * k + 8)
  addrs j := d.field 32 (DINODE * k + 12 + 4 * j)

/-- The block after `iupdate` has stored its `k`th inode. -/
def write (d : Block) (k : Nat) (x : Dinode) : Block :=
  let d := d.setField (DINODE * k) x.type
  let d := d.setField (DINODE * k + 2) x.major
  let d := d.setField (DINODE * k + 4) x.minor
  let d := d.setField (DINODE * k + 6) x.nlink
  let d := d.setField (DINODE * k + 8) x.size
  d.store (DINODE * k + 12) x.addrByte (4 * (NDIRECT + 1))

/-- The block after `ialloc` has cleared its `k`th inode and set the type. -/
def clear (d : Block) (k : Nat) (type : BitVec 16) : Block :=
  (d.store (DINODE * k) (fun _ => 0) DINODE).setField (DINODE * k) type

variable {d d' : Block} {k j : Nat}

theorem read_congr (h : ∀ t, DINODE * k ≤ t → t < DINODE * k + DINODE → d.get t = d'.get t) :
    read d k = read d' k := by
  have hD : DINODE = 64 := rfl
  have hfield : ∀ w off, off + w / 8 ≤ 64 → d.field w (DINODE * k + off) = d'.field w (DINODE * k + off) :=
    fun w off hoff => Bytes.field_congr fun i hi => h _ (by omega) (by omega)
  unfold read
  congr 1
  · exact hfield 16 0 (by decide)
  · exact hfield 16 2 (by decide)
  · exact hfield 16 4 (by decide)
  · exact hfield 16 6 (by decide)
  · exact hfield 32 8 (by decide)
  · funext j
    have hj : j.val < 13 := j.isLt
    have := hfield 32 (12 + 4 * j) (by omega)
    rwa [← Nat.add_assoc] at this

theorem read_write (x : Dinode) (hk : k < IPB) : read (write d k x) k = x := by
  have hB : BSIZE = 1024 := rfl
  have hk : k < 16 := hk
  unfold read write
  cases x with
  | mk type major minor nlink size addrs =>
    simp only [DINODE, NDIRECT]
    congr 1
    · simp (disch := omega) only [Bytes.field_store_of_disjoint, Bytes.field_setField_of_disjoint,
        Bytes.field_setField]
    · simp (disch := omega) only [Bytes.field_store_of_disjoint, Bytes.field_setField_of_disjoint,
        Bytes.field_setField]
    · simp (disch := omega) only [Bytes.field_store_of_disjoint, Bytes.field_setField_of_disjoint,
        Bytes.field_setField]
    · simp (disch := omega) only [Bytes.field_store_of_disjoint, Bytes.field_setField_of_disjoint,
        Bytes.field_setField]
    · simp (disch := omega) only [Bytes.field_store_of_disjoint, Bytes.field_setField]
    · funext j
      have hj : j.val < 13 := j.isLt
      refine Bytes.field_store (by decide) _ _ (by omega) (by omega) fun i hi => ?_
      have hdiv : (4 * j.val + i) / 4 = j.val := by omega
      have hmod : (4 * j.val + i) % 4 = i := by omega
      unfold addrByte
      simp only [hdiv, hmod]
      exact dif_pos hj

theorem get_write_of_disjoint (x : Dinode) {t : Nat} (h : t < DINODE * k ∨ DINODE * k + DINODE ≤ t) :
    (write d k x).get t = d.get t := by
  simp only [DINODE] at h
  unfold write
  simp only [DINODE, NDIRECT, Bytes.setField]
  rcases h with h | h
  · simp (disch := omega) only [Bytes.get_store_of_lt]
  · simp (disch := omega) only [Bytes.get_store_of_ge]

theorem read_write_of_ne (x : Dinode) (h : j ≠ k) : read (write d k x) j = read d j := by
  refine read_congr fun t h1 h2 => get_write_of_disjoint x ?_
  simp only [DINODE] at h1 h2 ⊢
  omega

theorem read_clear (type : BitVec 16) (hk : k < IPB) : read (clear d k type) k = { type } := by
  have hB : BSIZE = 1024 := rfl
  have hk : k < 16 := hk
  have hzero : ∀ off, 2 ≤ off → off < 64 → (clear d k type).get (64 * k + off) = 0 := by
    intro off h2 h64
    unfold clear
    simp only [DINODE, Bytes.setField]
    rw [Bytes.get_store_of_ge _ _ (by omega), Bytes.get_store, if_pos (by omega)]
  have hfield : ∀ w off, 2 ≤ off → off + w / 8 ≤ 64 → (clear d k type).field w (64 * k + off) = 0 :=
    fun w off h2 h64 => Bytes.field_eq_zero fun i hi => by
      rw [Nat.add_assoc]
      exact hzero _ (by omega) (by omega)
  unfold read
  simp only [DINODE]
  congr 1
  · unfold clear
    simp only [DINODE]
    exact Bytes.field_setField (by decide) _ _ (by omega)
  · exact hfield 16 2 (by decide) (by decide)
  · exact hfield 16 4 (by decide) (by decide)
  · exact hfield 16 6 (by decide) (by decide)
  · exact hfield 32 8 (by decide) (by decide)
  · funext j
    have hj : j.val < 13 := j.isLt
    rw [Nat.add_assoc]
    exact hfield 32 (12 + 4 * j) (by omega) (by omega)

theorem read_clear_of_ne (type : BitVec 16) (h : j ≠ k) : read (clear d k type) j = read d j := by
  refine read_congr fun t h1 h2 => ?_
  simp only [DINODE] at h1 h2
  unfold clear
  simp only [DINODE, Bytes.setField]
  rcases Nat.lt_or_gt_of_ne h with h | h
  · simp (disch := omega) only [Bytes.get_store_of_lt]
  · simp (disch := omega) only [Bytes.get_store_of_ge]

end Dinode

end Xv6

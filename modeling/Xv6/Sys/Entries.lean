import Xv6.Fs.Dir
import Xv6.Sys.Links

/-!
# The entries of a directory and its bytes

The system calls see a directory as entries (`Sys.Node`), `readi` and `writei` see the bytes of its inode.
`nodes` reads the inodes on disk as the system calls see them. Over it `dirlookup` of the bytes finds what
`dirlookup` of the entries finds, and `writei` of a `struct dirent` writes the entry.
-/

namespace Xv6.Fs

open Function (update update_of_ne update_self)
open Hoare (Triple)
open Xv6.Sys (Dirent DIRENT T_DIR Found putEnt)

variable {g : Geometry} {v : Blocks} {c : Icache} {dp : Fin NINODE} {k : Nat}

/-- Entry `k` in the bytes of a directory. -/
def entries (bs : List (BitVec 8)) (k : Nat) : Dirent := direntAt fun t => bs.getD (DIRENT * k + t) 0

/-- The inodes on disk, with the entries in their bytes. -/
def nodes (g : Geometry) (v : Blocks) : Sys.Disk := fun i =>
  let x := dinode g v i
  { type := x.type, major := x.major, minor := x.minor, nlink := x.nlink, size := x.size.toNat
    ents := entries (contents x v) }

/-! ## Reading -/

theorem nodes_ents {i : Nat} (h : (nodes g v i).has k) : (nodes g v i).ents k = entryAt (dinode g v i) v k := by
  refine direntAt_congr fun t ht => ?_
  have hlt : DIRENT * k + t < (dinode g v i).size.toNat := lt_of_lt_of_le (by omega) h
  rw [contents, List.getD_eq_getElem?_getD, List.getElem?_map, List.getElem?_range hlt]
  rfl

/-- A directory without holes that is locked. -/
structure Directory (g : Geometry) (dp : Fin NINODE) (v : Blocks) (c : Icache) : Prop
    extends Settled g dp v c where
  dir : (dinode g v (c dp).inum).type = T_DIR
  filled : Filled (dinode g v (c dp).inum) v 0 (dinode g v (c dp).inum).size.toNat

theorem Directory.readi (h : Directory g dp v c) (hk : (nodes g v (c dp).inum).has k) {E : Panic → State → Prop} :
    Triple (Is v v c) (readi g dp (.kernel fun _ => 0) 0 (BitVec.ofNat 32 (DIRENT * k)) (BitVec.ofNat 32 DIRENT))
      (fun r s => (r.1 = DIRENT ∧ direntAt (r.2.bytesAt 0) = (nodes g v (c dp).inum).ents k) ∧ Is v v c s) E := by
  rw [nodes_ents hk]
  have hsize : DIRENT * (k + 1) ≤ (dinode g v (c dp).inum).size.toNat := hk
  exact readi_entry h.toSettled hsize fun t h1 h2 => h.filled t h1 (by omega)

/-- What `dirlookup` returns for an entry that was found: the offset of the entry, and its inode from `iget`. -/
def Looked (x : Sys.Node) (v : Blocks) (c : Icache) (r : Option (Fin NINODE × BitVec 32)) (s : State) :
    Option Nat → Prop
  | none => r = none ∧ Is v v c s
  | some k => ∃ ip c', r = some (ip, BitVec.ofNat 32 (DIRENT * k)) ∧ Got c (x.ents k).inum.toNat ip c' ∧ Is v v c' s

theorem Directory.dirlookupLoop_none {name : Name} {E : Panic → State → Prop} (h : Directory g dp v c)
    (hnone : Found (nodes g v (c dp).inum) name none) (n : Nat) :
    ∀ j, DIRENT * j ≤ (dinode g v (c dp).inum).size.toNat →
    Triple (Is v v c) (dirlookupLoop g dp name n (BitVec.ofNat 32 (DIRENT * j)))
    (fun r s => r = none ∧ Is v v c s) E := by
  have hal : (dinode g v (c dp).inum).size.toNat % DIRENT = 0 := hnone.1 (Nat.zero_le _)
  induction n with
  | zero => exact fun j hj => .pure fun s hs => ⟨rfl, hs⟩
  | succ n ih =>
    intro j hj
    refine .read (getInode_spec dp) ?_
    refine .ite (fun hlt => ?_) fun _ => .pure fun s hs => ⟨rfl, hs⟩
    rw [h.off_lt hj] at hlt
    have hhas : DIRENT * j + DIRENT ≤ (dinode g v (c dp).inum).size.toNat := by
      rw [show DIRENT = 16 from rfl] at hal hlt ⊢
      omega
    refine .bind_fact (h.readi hhas) fun r hr => ?_
    rw [if_neg (not_not.mpr hr.1), hr.2, if_neg (by rw [hnone.2 j (Nat.zero_le _) hhas]; exact Bool.false_ne_true),
      next_off]
    exact ih (j + 1) hhas

/-- `dirlookup` over the bytes of a directory finds the entry that `Sys.dirlookup` finds. -/
theorem Directory.dirlookup {name : Name} {found : Option Nat} (h : Directory g dp v c)
    (hfound : Found (nodes g v (c dp).inum) name found) :
    Triple (Is v v c) (dirlookup g dp name) (fun r s => Looked (nodes g v (c dp).inum) v c r s found)
      fun e _ => e = .igetNoInodes := by
  cases found with
  | none =>
    refine .read (getInode_spec dp) ?_
    rw [h.core, if_neg (not_not.mpr h.dir)]
    exact h.dirlookupLoop_none hfound _ 0 (Nat.zero_le _)
  | some k =>
    obtain ⟨-, hk, hmatch, hfirst⟩ := hfound
    have hsize : DIRENT * (k + 1) ≤ (dinode g v (c dp).inum).size.toNat := hk
    have hents : ∀ j, j ≤ k → (nodes g v (c dp).inum).ents j = entryAt (dinode g v (c dp).inum) v j :=
      fun j hj => nodes_ents ((Nat.mul_le_mul_left DIRENT (Nat.succ_le_succ hj)).trans hsize)
    refine dirlookup_found h.toSettled hsize (fun t h1 h2 => h.filled t h1 (by omega))
      (by rwa [← hents k (Nat.le_refl k)]) (fun j hj => ?_) ?_ h.dir
    · rw [← hents j hj.le]
      exact hfirst j (Nat.zero_le _) hj
    · rw [← hents k (Nat.le_refl k)]
      refine iget_got.imp (fun _ hs => hs) ?_ fun e s he => he.1
      rintro ip s ⟨c', hgot, hs⟩
      exact ⟨ip, c', rfl, hgot, hs⟩

/-! ## Writing -/

theorem length_bytes (de : Dirent) :
    de.bytes.length = DIRENT := by rw [Dirent.bytes, List.length_map, List.length_range]

theorem getD_bytes (de : Dirent) {t : Nat} (ht : t < DIRENT) : de.bytes.getD t 0 = de.byte t := by
  rw [Dirent.bytes, List.getD_eq_getElem?_getD, List.getElem?_map, List.getElem?_range ht]
  rfl

theorem getD_overwrite {bs s : List (BitVec 8)} {off : Nat} (hoff : off ≤ bs.length) (t : Nat) :
    (overwrite bs off s).getD t 0 = if off ≤ t ∧ t < off + s.length then s.getD (t - off) 0 else bs.getD t 0 := by
  have hlen : (bs.take off).length = off := List.length_take_of_le hoff
  simp only [overwrite, List.getD_eq_getElem?_getD, List.append_assoc]
  rcases Nat.lt_or_ge t off with hlt | hge
  · rw [if_neg (by omega), List.getElem?_append_left (by omega), List.getElem?_take_of_lt hlt]
  · rw [List.getElem?_append_right (by omega), hlen]
    by_cases hin : t < off + s.length
    · rw [if_pos ⟨hge, hin⟩, List.getElem?_append_left (by omega)]
    · rw [if_neg (by omega), List.getElem?_append_right (by omega), List.getElem?_drop]
      congr 2
      omega

theorem entries_overwrite {bs : List (BitVec 8)} (hk : DIRENT * k ≤ bs.length) (de : Dirent) :
    entries (overwrite bs (DIRENT * k) de.bytes) = update (entries bs) k de := by
  have hD : DIRENT = 16 := rfl
  funext j
  by_cases hj : j = k
  · rw [hj, update_self]
    refine (direntAt_congr fun t ht => ?_).trans (direntAt_byte de)
    rw [getD_overwrite hk, length_bytes, if_pos (by omega), Nat.add_sub_cancel_left, getD_bytes de ht]
  · rw [update_of_ne hj]
    refine direntAt_congr fun t ht => ?_
    rw [getD_overwrite hk, length_bytes, if_neg (by rw [hD] at ht ⊢; omega)]

theorem kernel_bytes (de : Dirent) :
    (Memory.kernel de.byte).Mapped 0 DIRENT ∧ (Memory.kernel de.byte).bytes 0 DIRENT = de.bytes := by
  have hbyte : ∀ t, t < DIRENT → (Memory.kernel de.byte).byte (0 + t) = some (de.byte t) := fun t ht => by
    rw [Nat.zero_add, Memory.byte, if_pos (by rw [show DIRENT = 16 from rfl] at ht; omega)]
  refine ⟨fun t ht => by rw [hbyte t ht]; exact Option.some_ne_none _, List.map_congr_left fun t ht => ?_⟩
  rw [Memory.bytesAt, hbyte t (List.mem_range.mp ht)]
  rfl

/-- `writei` of entry `k` writes the entry, as `Sys.writeEnt` does, or finds no free block. -/
theorem Settled.writei_entry (h : Settled g dp v c) (de : Dirent)
    (hk : DIRENT * k ≤ (dinode g v (c dp).inum).size.toNat)
    (hmax : DIRENT * k + DIRENT ≤ MAXFILE * BSIZE) :
    Triple (Is v v c) (writei g dp (.kernel de.byte) 0 (BitVec.ofNat 32 (DIRENT * k)) (BitVec.ofNat 32 DIRENT))
      (fun r s => r = DIRENT ∧ ∃ v' c', (Settled g dp v' c' ∧
        ∀ j, j < g.ninodes → nodes g v' j = putEnt (nodes g v) (c dp).inum k de j) ∧ Is v' v' c' s) (NoSpace g) := by
  have hM : MAXFILE * BSIZE < 2 ^ 32 := by decide
  have hoff : (BitVec.ofNat 32 (DIRENT * k)).toNat = DIRENT * k := by
    rw [BitVec.toNat_ofNat, Nat.mod_eq_of_lt (by omega)]
  have hlen : (BitVec.ofNat 32 DIRENT).toNat = DIRENT := rfl
  have hstart : DIRENT * k ≤ (contents (dinode g v (c dp).inum) v).length := by rwa [length_contents]
  obtain ⟨hmapped, hbytes⟩ := kernel_bytes de
  have hin : Accepts (c dp).d.size (BitVec.ofNat 32 (DIRENT * k)) (BitVec.ofNat 32 DIRENT) := by
    rw [Accepts, hoff, hlen, h.core]
    exact ⟨hk, hmax⟩
  refine (writei_content h hin hmapped).imp (fun _ hs => hs) ?_ fun e s he => he.1
  rintro r s ⟨rfl, v', c', ⟨hw, size, addrs, hfields⟩, hs⟩
  refine ⟨rfl, v', c', ⟨hw.settled, fun j hj => ?_⟩, hs⟩
  by_cases hne : j = (c dp).inum
  · have hcont := hw.contents
    rw [hoff, hlen, hbytes] at hcont
    have hsize : (dinode g v' (c dp).inum).size.toNat = max (dinode g v (c dp).inum).size.toNat
      (DIRENT * k + DIRENT) := by
      rw [← length_contents _ v', hcont, length_overwrite hstart, length_bytes, length_contents]
    rw [hne, Sys.putEnt_self, nodes, hcont, entries_overwrite hstart, hsize, hfields]
    rfl
  · have hsame := hw.others j hj hne
    rw [Sys.putEnt_of_ne hne, nodes, hsame.contents, hsame.inode]
    rfl

end Xv6.Fs

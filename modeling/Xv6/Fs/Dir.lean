import Xv6.Fs.Consistent
import Xv6.Fs.Content
import Xv6.Sys.Calls

/-!
# Looking up a name on disk

`dirlookup` of `kernel/fs.c` over the bytes of a directory, which it reads one entry at a time, and what the kernel
does to read a file in the root directory.
-/

namespace Xv6

open Function (update update_of_ne update_self update_idem)

namespace Sys.Dirent

/-- Byte `t` of a directory entry. -/
def byte (de : Dirent) (t : Nat) : BitVec 8 := if t < 2 then Bytes.leByte de.inum.toNat t else de.name.get (t - 2)

def bytes (de : Dirent) : List (BitVec 8) := (List.range DIRENT).map de.byte

end Sys.Dirent

namespace Fs

open Hoare (Triple)
open Xv6.Sys (Dirent DIRENT T_DIR)

variable {g : Geometry} {v w : Blocks} {c : Icache} {dp ip : Fin NINODE} {name : Name}
  {E : Panic → State → Prop}
variable {i k : Nat}

/-- The `struct dirent` in memory. -/
def direntAt (byte : Nat → BitVec 8) : Dirent where
  inum := BitVec.ofNat 16 (Bytes.leNat byte 2)
  name := fun j => byte (2 + j)

/-- The loop of `dirlookup`, with a bound on its iterations; `de` has a memory of its own. -/
def dirlookupLoop (g : Geometry) (dp : Fin NINODE) (name : Name) :
    Nat → BitVec 32 → FsM (Option (Fin NINODE × BitVec 32))
  | 0, _ => return none
  | k + 1, off => do
    let x ← getInode dp
    if off < x.d.size then do
      let r ← readi g dp (.kernel fun _ => 0) 0 off (BitVec.ofNat 32 DIRENT)
      if r.1 ≠ DIRENT then panic .dirlookupRead
      else if (direntAt (r.2.bytesAt 0)).matches name then do
        let ip ← iget (direntAt (r.2.bytesAt 0)).inum.toNat
        return some (ip, off)
      else dirlookupLoop g dp name k (off + BitVec.ofNat 32 DIRENT)
    else return none

/-- Look for a directory entry in a directory; also the offset of the entry. -/
def dirlookup (g : Geometry) (dp : Fin NINODE) (name : Name) : FsM (Option (Fin NINODE × BitVec 32)) := do
  let x ← getInode dp
  if x.d.type ≠ T_DIR then panic .dirlookupNotDir
  else dirlookupLoop g dp name (x.d.size.toNat / DIRENT + 1) 0

/-- Read a file of the root directory into memory: its type, the number of bytes read and the memory. -/
def readFile (g : Geometry) (name : Name) (mem : Memory) (dst : Nat) : FsM (Option (BitVec 16 × Nat × Memory)) := do
  let dp ← iget ROOTINO
  ilock g dp
  match ← dirlookup g dp name with
  | none => return none
  | some (ip, _) => do
    ilock g ip
    let x ← getInode ip
    let r ← readi g ip mem dst 0 x.d.size
    return some (x.d.type, r.1, r.2)

/-! ## The entries of a directory -/

theorem direntAt_byte (de : Dirent) : direntAt de.byte = de := by
  have hnum : ∀ t, t < 2 → de.byte t = Bytes.leByte de.inum.toNat t := fun t ht => if_pos ht
  unfold direntAt
  congr 1
  · rw [Bytes.leNat_congr hnum, Bytes.leNat_leByte]
    refine BitVec.eq_of_toNat_eq ?_
    rw [BitVec.toNat_ofNat]
    omega
  · funext j
    rw [Dirent.byte, if_neg (by omega), Nat.add_sub_cancel_left]
    exact dif_pos j.isLt

/-- Entry `k` of a directory. -/
def entryAt (x : Dinode) (v : Blocks) (k : Nat) : Dirent := direntAt fun t => content x v (DIRENT * k + t)

theorem direntAt_congr {f f' : Nat → BitVec 8} (h : ∀ t, t < DIRENT → f t = f' t) : direntAt f = direntAt f' := by
  unfold direntAt
  congr 1
  · rw [Bytes.leNat_congr fun i hi => h i (hi.trans (by decide))]
  · funext j
    exact h _ (by have := j.isLt; unfold DIRSIZ at this; unfold DIRENT; omega)

theorem readBytes_of_le {x : Dinode} {off n : Nat} (h : off + n ≤ x.size.toNat) :
    readBytes (contents x v) off n = (List.range n).map fun k => content x v (off + k) := by
  rw [readBytes, length_contents, if_neg (by omega), contents, slice_map_range, Nat.min_eq_left h,
    Nat.add_sub_cancel_left]

theorem readBytes_all (x : Dinode) : readBytes (contents x v) 0 x.size.toNat = contents x v := by
  rw [readBytes_of_le (Nat.zero_add _).le, contents]
  exact List.map_congr_left fun t _ => by rw [Nat.zero_add]

theorem readi_entry (h : Settled g dp v c) (hsize : DIRENT * (k + 1) ≤ (dinode g v (c dp).inum).size.toNat)
    (hfill : Filled (dinode g v (c dp).inum) v 0 (DIRENT * (k + 1))) :
    Triple (Is v v c) (readi g dp (.kernel fun _ => 0) 0 (BitVec.ofNat 32 (DIRENT * k)) (BitVec.ofNat 32 DIRENT))
      (fun r s => (r.1 = DIRENT ∧ direntAt (r.2.bytesAt 0) = entryAt (dinode g v (c dp).inum) v k) ∧ Is v v c s) E := by
  have hD : DIRENT = 16 := rfl
  have hoff : (BitVec.ofNat 32 (DIRENT * k)).toNat = DIRENT * k := by
    rw [BitVec.toNat_ofNat]
    rw [hD] at hsize ⊢
    omega
  obtain ⟨bs, hbs⟩ : ∃ bs, bs = (List.range DIRENT).map fun t =>
    content (dinode g v (c dp).inum) v (DIRENT * k + t) := ⟨_, rfl⟩
  have hlen : bs.length = DIRENT := by rw [hbs, List.length_map, List.length_range]
  have hread : bs = readBytes (contents (dinode g v (c dp).inum) v) (BitVec.ofNat 32 (DIRENT * k)).toNat
      (BitVec.ofNat 32 DIRENT).toNat := by
    rw [hoff, show (BitVec.ofNat 32 DIRENT).toNat = DIRENT from rfl,
      readBytes_of_le (by rw [hD] at hsize ⊢; omega), hbs]
  have hfilled : Filled (dinode g v (c dp).inum) v (BitVec.ofNat 32 (DIRENT * k)).toNat bs.length := by
    intro t h1 h2
    rw [hoff, hlen, hD] at h2
    rw [hD] at hfill
    exact hfill t (Nat.zero_le _) (by omega)
  have hkernel : (Memory.kernel fun _ => 0).Mapped 0 bs.length := by
    intro t ht
    rw [Memory.byte, if_pos (by rw [hlen, hD] at ht; omega)]
    exact Option.some_ne_none _
  refine (readi_content h hread hkernel).imp (fun _ hs => hs) ?_ fun e s he => absurd hfilled he.2
  rintro r s ⟨hn, hcop, hs⟩
  refine ⟨⟨hn.trans hlen, direntAt_congr fun t ht => ?_⟩, hs hfilled⟩
  rw [Memory.bytesAt, hcop, if_pos ⟨Nat.zero_le _, by rw [hn, hlen]; omega⟩, Option.getD_some, Nat.zero_add,
    Nat.sub_zero]
  change bs.getD t 0 = _
  rw [hbs, List.getD_eq_getElem?_getD, List.getElem?_map, List.getElem?_range ht]
  rfl

theorem Settled.off_lt {j : Nat} (h : Settled g dp v c) (hj : DIRENT * j ≤ (dinode g v (c dp).inum).size.toNat) :
    BitVec.ofNat 32 (DIRENT * j) < (c dp).d.size ↔ DIRENT * j < (dinode g v (c dp).inum).size.toNat := by
  rw [h.core, BitVec.lt_def, BitVec.toNat_ofNat, Nat.mod_eq_of_lt (by omega)]

theorem next_off (j : Nat) :
    BitVec.ofNat 32 (DIRENT * j) + BitVec.ofNat 32 DIRENT = BitVec.ofNat 32 (DIRENT * (j + 1)) := by
  rw [← BitVec.ofNat_add]
  rfl

section Found

variable {Q : Option (Fin NINODE × BitVec 32) → State → Prop} (h : Settled g dp v c)
  (hsize : DIRENT * (k + 1) ≤ (dinode g v (c dp).inum).size.toNat)
  (hfill : Filled (dinode g v (c dp).inum) v 0 (DIRENT * (k + 1)))
  (hmatch : (entryAt (dinode g v (c dp).inum) v k).matches name = true)
  (hfirst : ∀ j, j < k → (entryAt (dinode g v (c dp).inum) v j).matches name = false)
  (hget : Triple (Is v v c) (iget (entryAt (dinode g v (c dp).inum) v k).inum.toNat)
    (fun ip => Q (some (ip, BitVec.ofNat 32 (DIRENT * k)))) E)
include h hsize hfill hmatch hfirst hget

theorem dirlookupLoop_found (n : Nat) : ∀ j, j ≤ k → k < j + n →
    Triple (Is v v c) (dirlookupLoop g dp name n (BitVec.ofNat 32 (DIRENT * j))) Q E := by
  have hD : DIRENT = 16 := rfl
  induction n with
  | zero => exact fun j hj hk => absurd hk (by omega)
  | succ n ih =>
    intro j hj hk
    have hlast : DIRENT * (j + 1) ≤ DIRENT * (k + 1) := Nat.mul_le_mul_left _ (by omega)
    refine .read (getInode_spec dp) ?_
    rw [if_pos ((h.off_lt (by rw [hD] at hsize hlast ⊢; omega)).mpr (by rw [hD] at hsize hlast ⊢; omega))]
    refine .bind_fact (readi_entry h (hlast.trans hsize) fun t h1 h2 => hfill t h1 (by omega)) fun r hr => ?_
    rw [if_neg (not_not.mpr hr.1), hr.2]
    rcases Nat.lt_or_ge j k with hlt | hge
    · rw [if_neg (by rw [hfirst j hlt]; exact Bool.false_ne_true), next_off]
      exact ih (j + 1) hlt (by omega)
    · obtain rfl : j = k := by omega
      rw [if_pos hmatch]
      exact .bind hget fun ip => .pure fun s hs => hs

theorem dirlookup_found (htype : (dinode g v (c dp).inum).type = T_DIR) :
    Triple (Is v v c) (dirlookup g dp name) Q E := by
  refine .read (getInode_spec dp) ?_
  rw [h.core, if_neg (not_not.mpr htype)]
  refine dirlookupLoop_found h hsize hfill hmatch hfirst hget _ 0 (Nat.zero_le k) ?_
  have hD : DIRENT = 16 := rfl
  rw [hD] at hsize ⊢
  omega

end Found

/-! ## The inode cache -/

/-- An entry that `iget` has taken for inode `i`. -/
def Inode.taken (x : Inode) (i : Nat) : Inode := { x with inum := i, ref := 1, valid := false }

/-- `iget` of inode `i` has returned entry `ip`: it had the inode, or it was unused. -/
inductive Got (c : Icache) (i : Nat) (ip : Fin NINODE) : Icache → Prop
  | shared (href : 0 < (c ip).ref) (hinum : (c ip).inum = i) :
    Got c i ip (update c ip { c ip with ref := (c ip).ref + 1 })
  | taken (href : (c ip).ref = 0) (hnone : ∀ iq, 0 < (c iq).ref → (c iq).inum ≠ i) :
    Got c i ip (update c ip ((c ip).taken i))

/-- All entries are in use, and none for inode `i`. -/
def CacheFull (c : Icache) (i : Nat) : Prop := ∀ iq, 0 < (c iq).ref ∧ (c iq).inum ≠ i

theorem iget_got : Triple (Is v w c) (iget i) (fun ip s => ∃ c', Got c i ip c' ∧ Is v w c' s)
    fun e _ => e = .igetNoInodes ∧ CacheFull c i := by
  rintro s ⟨rfl, rfl, rfl⟩
  unfold iget
  split
  next ip hfind =>
    have hp := List.find?_some hfind
    rw [decide_eq_true_iff] at hp
    exact ⟨_, .shared hp.1 hp.2, rfl, rfl, rfl⟩
  next hnone =>
    have hnone : ∀ iq, 0 < (s.icache iq).ref → (s.icache iq).inum ≠ i := fun iq hq hi =>
      List.find?_eq_none.mp hnone iq (List.mem_finRange iq) (by simp [hq, hi])
    split
    next ip hfind =>
      have hp := List.find?_some hfind
      rw [decide_eq_true_iff] at hp
      exact ⟨_, .taken hp hnone, rfl, rfl, rfl⟩
    next hfull =>
      have hpos : ∀ iq, 0 < (s.icache iq).ref := fun iq => by
        have := List.find?_eq_none.mp hfull iq (List.mem_finRange iq)
        rw [decide_eq_true_iff] at this
        omega
      exact ⟨rfl, fun iq => ⟨hpos iq, hnone iq (hpos iq)⟩⟩

theorem iget_new (hnone : ∀ iq, 0 < (c iq).ref → (c iq).inum ≠ i) (hfree : ∃ iq, (c iq).ref = 0) :
    Triple (Is v w c) (iget i) (fun ip s => (c ip).ref = 0 ∧ Is v w (update c ip ((c ip).taken i)) s) E := by
  refine iget_got.imp (fun _ hs => hs) ?_ fun e s he => ?_
  · rintro ip s ⟨c', hgot, hs⟩
    cases hgot with
    | shared href hinum => exact absurd hinum (hnone ip href)
    | taken href _ => exact ⟨href, hs⟩
  · obtain ⟨iq, hq⟩ := hfree
    have := (he.2 iq).1
    omega

/-- An entry whose inode has been read. -/
def Inode.loaded (x : Inode) (d : Dinode) : Inode := { x with valid := true, d }

theorem ilock_new (href : 0 < (c ip).ref) (hinvalid : (c ip).valid = false) (htype : (dinode g v (c ip).inum).type ≠ 0)
    (hclean : v (g.iblock (c ip).inum) = w (g.iblock (c ip).inum)) :
    Triple (Is v w c) (ilock g ip)
      (fun _ => Is v w (update c ip ((c ip).loaded (dinode g v (c ip).inum)))) E := by
  refine .read (getInode_spec ip) ?_
  rw [if_neg (by omega), if_neg (by rw [hinvalid]; exact Bool.false_ne_true)]
  refine .read (bread_spec hclean) ?_
  refine .bind (modifyInode_spec _ _) fun _ => ?_
  rw [show Dinode.read (v (g.iblock (c ip).inum)) ((c ip).inum % IPB) = dinode g v (c ip).inum from rfl, if_neg htype]
  exact .pure fun s hs => hs

/-- The entry of the cache for an inode that has been opened and locked. -/
def opened (g : Geometry) (v : Blocks) (i : Nat) : Inode := { inum := i, ref := 1, valid := true, d := dinode g v i }

theorem opened_settled (h : Owns g (dinode g v) v) (hi : i < g.ninodes) (hc : c ip = opened g v i)
    (hsize : (dinode g v i).size.toNat ≤ MAXFILE * BSIZE) : Settled g ip v c :=
  ⟨h, by rw [hc]; exact hi, by rw [hc]; rfl, by rw [hc]; exact hsize⟩

theorem ilock_opened {c' : Icache} (hc : c' = update c ip ((c ip).taken i)) (htype : (dinode g v i).type ≠ 0) :
    Triple (Is v v c') (ilock g ip) (fun _ => Is v v (update c ip (opened g v i))) E := by
  subst hc
  have hip : update c ip ((c ip).taken i) ip = (c ip).taken i := update_self ..
  have href : 0 < (update c ip ((c ip).taken i) ip).ref := by rw [hip]; exact Nat.one_pos
  have h := ilock_new (g := g) (v := v) (w := v) (E := E) href (by rw [hip]; rfl) (by rw [hip]; exact htype) rfl
  rwa [hip, update_idem] at h

theorem readFile_found {dst : Nat} {mem : Memory} (ho : Owns g (dinode g v) v) (hroot : ROOTINO < g.ninodes)
    (htype : (dinode g v ROOTINO).type = T_DIR) (hmax : (dinode g v ROOTINO).size.toNat ≤ MAXFILE * BSIZE)
    (hsize : DIRENT * (k + 1) ≤ (dinode g v ROOTINO).size.toNat)
    (hfill : Filled (dinode g v ROOTINO) v 0 (DIRENT * (k + 1)))
    (hmatch : (entryAt (dinode g v ROOTINO) v k).matches name = true)
    (hfirst : ∀ j, j < k → (entryAt (dinode g v ROOTINO) v j).matches name = false)
    (hinum : (entryAt (dinode g v ROOTINO) v k).inum.toNat = i) (hi : i < g.ninodes) (hne : i ≠ ROOTINO)
    (hfile : (dinode g v i).type ≠ 0) (hfmax : (dinode g v i).size.toNat ≤ MAXFILE * BSIZE)
    (hfilled : Filled (dinode g v i) v 0 (dinode g v i).size.toNat)
    (hmem : mem.Mapped dst (contents (dinode g v i) v).length) :
    Triple (Is v v fun _ => {}) (readFile g name mem dst)
      (fun r _ => ∃ mem', r = some ((dinode g v i).type, (contents (dinode g v i) v).length, mem') ∧
        Copied (fun t => (contents (dinode g v i) v).getD t 0) dst (contents (dinode g v i) v).length mem mem') E := by
  refine .bind_fact (iget_new (fun _ h => absurd h (Nat.lt_irrefl 0)) ⟨⟨0, by decide⟩, rfl⟩) fun dp _ => ?_
  refine .bind (ilock_opened rfl (by rw [htype]; decide)) fun _ => ?_
  obtain ⟨c, hc⟩ : ∃ c : Icache, c = update (fun _ => {}) dp (opened g v ROOTINO) := ⟨_, rfl⟩
  rw [← hc]
  have hdp : c dp = opened g v ROOTINO := by rw [hc, update_self]
  have hothers : ∀ iq, iq ≠ dp → c iq = {} := fun iq hq => by rw [hc, update_of_ne hq]
  have hdir : (c dp).inum = ROOTINO := by rw [hdp]; rfl
  have hnone : ∀ iq, 0 < (c iq).ref → (c iq).inum ≠ i := by
    intro iq hq
    by_cases hqd : iq = dp
    · rw [hqd, hdir]
      exact hne.symm
    · rw [hothers iq hqd] at hq
      exact absurd hq (Nat.lt_irrefl 0)
  have hfree : ∃ iq, (c iq).ref = 0 := by
    obtain ⟨iq, hq⟩ : ∃ iq : Fin NINODE, iq ≠ dp := by
      by_cases h0 : dp = ⟨0, by decide⟩
      · exact ⟨⟨1, by decide⟩, by rw [h0]; decide⟩
      · exact ⟨⟨0, by decide⟩, Ne.symm h0⟩
    exact ⟨iq, by rw [hothers iq hq]⟩
  have hfound : Triple (Is v v c) (dirlookup g dp name) (fun r s => ∃ ip, r = some (ip, BitVec.ofNat 32 (DIRENT * k)) ∧
      Is v v (update c ip ((c ip).taken i)) s) E := by
    refine dirlookup_found (k := k) (opened_settled ho hroot hdp hmax) ?_ ?_ ?_ ?_ ?_ ?_ <;> rw [hdir]
    · exact hsize
    · exact hfill
    · exact hmatch
    · exact hfirst
    · rw [hinum]
      exact (iget_new hnone hfree).post fun ip s hs => ⟨ip, rfl, hs.2⟩
    · exact htype
  refine .bind_exists hfound fun r ip hr => ?_
  subst hr
  refine .bind (ilock_opened rfl hfile) fun _ => ?_
  obtain ⟨c', hc'⟩ : ∃ c', c' = update c ip (opened g v i) := ⟨_, rfl⟩
  rw [← hc']
  have hip : c' ip = opened g v i := by rw [hc', update_self]
  have hinum' : (c' ip).inum = i := by rw [hip]; rfl
  refine .bind_fact (getInode_spec ip) fun x hx => ?_
  obtain rfl : x = opened g v i := hx.trans hip
  generalize hz : (0 : BitVec 32) = z
  have hzero : z.toNat = 0 := by rw [← hz]; rfl
  refine .bind ((readi_content (opened_settled ho hi hip hfmax) ?_ hmem).err fun e s he => absurd ?_ he.2) fun r =>
    Triple.pure fun s hs => ?_
  · rw [hinum', hzero]
    exact (readBytes_all _).symm
  · rw [hinum', hzero, length_contents]
    exact hfilled
  · obtain ⟨hn, hcop, -⟩ := hs
    rw [hn] at hcop
    exact ⟨r.2, by rw [hn]; rfl, hcop⟩

end Fs

end Xv6

import Xv6.Mkfs.Agree

/-!
# Files without holes

`mkfs` rounds the size of the root directory up past a whole number of blocks. If the entries fill their last block,
this adds a block that has not been allocated. Otherwise no file on the image has a hole, the kernel makes none, and
`readi` never gets to `balloc`.
-/

namespace Xv6.Mkfs

open Fs
open Machine (Run)
open Xv6.Sys (DIRENT)

variable {args : List Input} {g : Geometry} {v w V : Blocks} {c : Icache} {i : Nat}

/-- Every inode has a block for each block index below the end of the file. -/
def NoHoles (g : Geometry) (v : Blocks) : Prop :=
  ∀ i, i < g.ninodes → ∀ m, m < ((dinode g v i).size.toNat + (BSIZE - 1)) / BSIZE → leafAddr (dinode g v i) v m ≠ 0

theorem Sized.noHoles {x : Dinode} {n : Nat} (h : Sized x V n) (hn : n ≤ MAXFILE * BSIZE) {m : Nat}
    (hm : m < (n + (BSIZE - 1)) / BSIZE) : leafAddr x V m ≠ 0 := by
  have hB : BSIZE = 1024 := rfl
  rw [hB] at hm hn
  exact (h.leaf m (by omega)).mpr (by rw [hB]; omega)

theorem rootSize_blocks : (rootSize args + (BSIZE - 1)) / BSIZE = DIRENT * (args.length + 2) / BSIZE + 1 := by
  rw [rootSize, BSIZE]
  omega

theorem Written.cases (h : Written args V) (hi : i < area.ninodes) :
    i = ROOTINO ∨ (∃ k f, args[k]? = some f ∧ i = k + 2) ∨ dinode area V i = {} := by
  match i with
  | 0 => exact .inr (.inr (h.rest 0 hi (.inl rfl)))
  | 1 => exact .inl rfl
  | k + 2 =>
    rcases Nat.lt_or_ge k args.length with hlt | hge
    · exact .inr (.inl ⟨k, _, List.getElem?_eq_getElem hlt, rfl⟩)
    · exact .inr (.inr (h.rest _ hi (.inr (by omega))))

theorem Written.noHoles_iff (h : Written args V) (hn : args.length + 2 ≤ area.ninodes) :
    NoHoles area V ↔ (args.length + 2) % (BSIZE / DIRENT) ≠ 0 := by
  have hroot := h.rootSize hn
  have hN : area.ninodes = 208 := by decide
  have hM : MAXFILE = 268 := rfl
  have hD : DIRENT = 16 := rfl
  have hB : BSIZE = 1024 := rfl
  have hleaf := h.sized.leaf
  rw [hM, hD, hB] at hleaf
  have hblocks : ∀ m, m < ((dinode area V ROOTINO).size.toNat + (BSIZE - 1)) / BSIZE ↔
    m < 16 * (args.length + 2) / 1024 + 1 := by
    intro m
    rw [hroot, rootSize_blocks, hD, hB]
  rw [show BSIZE / DIRENT = 64 from rfl]
  constructor
  · intro hno
    have hlast := hno ROOTINO (by decide) _ ((hblocks _).mpr (Nat.lt_succ_self _))
    have := (hleaf _ (by omega)).mp hlast
    omega
  · intro hmod i hi m hm
    rcases h.cases hi with rfl | ⟨k, f, hf, rfl⟩ | h0
    · have := (hblocks m).mp hm
      exact (hleaf m (by omega)).mpr (by omega)
    · have hhas := h.files k f hf
      rw [hhas.size] at hm
      exact hhas.sized.noHoles hhas.small hm
    · rw [h0] at hm
      exact absurd hm (Nat.not_lt_zero m)

theorem noHoles_iff_filled :
    NoHoles g v ↔ ∀ i, i < g.ninodes → Filled (dinode g v i) v 0 (dinode g v i).size.toNat := by
  have hB : BSIZE = 1024 := rfl
  unfold NoHoles Filled
  refine forall₂_congr fun i _ => ⟨fun h t _ ht => h _ (by rw [hB]; omega), fun h m hm => ?_⟩
  have := h (m * BSIZE) (Nat.zero_le _) (by rw [hB] at hm ⊢; omega)
  rwa [Nat.mul_div_cancel _ (by decide)] at this

theorem Written.consistent (h : Written args V) (hn : args.length + 2 ≤ NINODES)
    (hmod : (args.length + 2) % (BSIZE / DIRENT) ≠ 0) : Consistent geometry V := by
  have harea : args.length + 2 ≤ area.ninodes := hn.trans (by decide)
  have hno := noHoles_iff_filled.mp ((h.noHoles_iff harea).mpr hmod)
  have hlt : geometry.ninodes ≤ area.ninodes := by decide
  refine ⟨h.owns_geometry hn, fun i hi => ?_⟩
  change InodeOk (dinode area V i) V
  have hfilled : ∀ t, t < (dinode area V i).size.toNat → leafAddr (dinode area V i) V (t / BSIZE) ≠ 0 := fun t ht =>
    hno i (hi.trans_le hlt) t (Nat.zero_le _) (by omega)
  rcases h.cases (hi.trans_le hlt) with rfl | ⟨k, f, hf, rfl⟩ | h0
  · have htype : (dinode area V ROOTINO).type = Sys.T_DIR := congrArg Dinode.type h.root
    exact ⟨fun h0 => absurd (htype.symm.trans h0) (by decide), (h.rootSize harea).le.trans (rootSize_le harea).2,
      hfilled⟩
  · have hhas := h.files k f hf
    have htype : (dinode area V (k + 2)).type = Sys.T_FILE := congrArg Dinode.type hhas.inode
    exact ⟨fun h0 => absurd (htype.symm.trans h0) (by decide), hhas.size.le.trans hhas.small, hfilled⟩
  · rw [h0]
    exact ⟨fun _ => rfl, Nat.zero_le _, fun t ht => absurd ht (Nat.not_lt_zero t)⟩

/-- For every list of files on which `mkfs` comes to its end: the inodes are where the kernel looks for them exactly if
there is room for them, and then no file has a hole exactly if the root directory does not end at the end of a block.
No operation of the kernel makes a hole, and `readi` does what it does without `balloc` and `log_write`. -/
theorem files_have_no_holes (args : List Input) (t : State) (h : main args {} = .ok () t) :
    (InodesInside t.trace ↔ args.length + 2 ≤ area.ninodes) ∧
    (args.length + 2 ≤ area.ninodes → (NoHoles area t.img ↔ (args.length + 2) % (BSIZE / DIRENT) ≠ 0)) ∧
    (args.length + 2 ≤ NINODES → (args.length + 2) % (BSIZE / DIRENT) ≠ 0 → Consistent geometry t.img) ∧
    ∀ (g : Geometry) (v : Blocks), Consistent g v → ∀ (r : List Bool) (ops : List Op) (s : Fs.Sys),
      Run (step g) Machine.any (start v r) ops s → s.panicked = none → NoHoles g s.fs.buf ∧
        ∀ ip, 0 < (s.fs.icache ip).ref → (s.fs.icache ip).valid = true →
        ∀ (mem : Memory) (dst : Nat) (off n : BitVec 32),
          ∃ a u, readiMapped ip mem dst off n s.fs = .ok a u ∧ readi g ip mem dst off n s.fs = .ok a u := by
  have hinside := ((main_within args).of_ok rfl h).inodesInside
  have hw : args.length + 2 ≤ area.ninodes → Written args t.img := fun hn => ((main_spec hn).of_ok rfl h).2
  refine ⟨hinside, fun hn => (hw hn).noHoles_iff hn, fun hn => (hw (hn.trans (by decide))).consistent hn,
    fun g v hv r ops s hrun hp => ?_⟩
  have hinv := (ok_of_run hv hrun).1 hp
  refine ⟨noHoles_iff_filled.mpr fun i hi t _ ht => (hinv.inodes i hi).filled t (by omega),
    fun ip href hvalid mem dst off n => ?_⟩
  have hl : Locked g ip s.fs.buf s.fs.disk s.fs.icache := ⟨hinv, href, hvalid⟩
  obtain ⟨a, u, hu, -⟩ := (readiMapped_spec hl).exists_ok ⟨rfl, rfl, rfl⟩ fun _ _ hf => hf
  exact ⟨a, u, hu, readiMapped_agrees _ _ _ hu⟩

theorem files_have_no_holes_twoFiles : ∃ t, main [smallFile, longFile] {} = .ok () t ∧ NoHoles area t.img ∧
    Consistent geometry t.img := by
  obtain ⟨_, t, ht, -⟩ := (main_spec (by decide)).exists_ok rfl fun _ _ hno => hno fits_twoFiles
  have h := files_have_no_holes _ t ht
  exact ⟨t, ht, (h.2.1 (by decide)).mpr (by decide), h.2.2.1 (by decide) (by decide)⟩

/-- With 62 files the size of the root directory is two blocks, and the second one is not there. -/
theorem mkfs_root_hole : ∃ t, main (List.replicate 62 emptyFile) {} = .ok () t ∧
    (dinode geometry t.img ROOTINO).size = 2048 ∧ leafAddr (dinode geometry t.img ROOTINO) t.img 1 = 0 ∧
    ¬ NoHoles geometry t.img := by
  obtain ⟨t, ht, hw⟩ := emptyFiles_run (k := 62) (by decide)
  have hsize : (dinode geometry t.img ROOTINO).size = 2048 :=
  (congrArg Dinode.size hw.root).trans (by rw [rootSize, List.length_replicate]; rfl)
  have hleaf : leafAddr (dinode geometry t.img ROOTINO) t.img 1 = 0 := by
    by_contra hne
    have := (hw.sized.leaf 1 (by decide)).mp hne
    rw [List.length_replicate] at this
    exact absurd this (by decide)
  exact ⟨t, ht, hsize, hleaf, fun hno => hno ROOTINO (by decide) 1 (by rw [hsize]; decide) hleaf⟩

end Xv6.Mkfs

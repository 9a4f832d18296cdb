import Xv6.Mkfs.Limits

/-!
# `mkfs` and the kernel agree on the format

On the image that `mkfs` writes, the kernel finds each file by its name and reads its bytes, and the free map marks
the metadata and the blocks in use.
-/

namespace Xv6.Mkfs

open Fs
open Hoare (Triple)
open Xv6.Sys (Dirent DIRENT T_DIR T_FILE)

variable {args : List Input} {V : Blocks} {i k : Nat} {f : Input}

/-! ## The entries of the root directory -/

theorem getD_flatMap_bytes {t : Nat} (ht : t < DIRENT) (des : List Dirent) :
    ∀ {k : Nat} {de : Dirent}, des[k]? = some de →
    (des.flatMap Dirent.bytes).getD (DIRENT * k + t) 0 = de.byte t := by
  induction des with
  | nil => exact fun h => nomatch h
  | cons e des ih =>
    intro k de h
    rw [List.flatMap_cons, List.getD_eq_getElem?_getD]
    cases k with
    | zero =>
      obtain rfl : e = de := by simpa using h
      rw [List.getElem?_append_left (by rw [length_bytes]; omega), Nat.mul_zero, Nat.zero_add, Dirent.bytes,
        List.getElem?_map,
        List.getElem?_range ht]
      rfl
    | succ k =>
      rw [List.getElem?_append_right (by rw [length_bytes, Nat.mul_succ]; omega), length_bytes, Nat.mul_succ,
        show DIRENT * k + DIRENT + t - DIRENT = DIRENT * k + t by omega, ← List.getD_eq_getElem?_getD]
      exact ih (by simpa using h)

theorem getElem?_fileEntries (args : List Input) : ∀ (n : Nat) {k : Nat} {f : Input}, args[k]? = some f →
    (fileEntries n args)[k]? = some (entryOf (n + k) f) := by
  induction args with
  | nil => exact fun _ _ _ h => nomatch h
  | cons g args ih =>
    intro n k f h
    cases k with
    | zero =>
      obtain rfl : g = f := by simpa using h
      rfl
    | succ k =>
      rw [fileEntries, List.getElem?_cons_succ, ih (n + 1) (by simpa using h), show n + 1 + k = n + (k + 1) by omega]

theorem Written.entryAt {de : Dirent} (h : Written args V) (hk : k < args.length + 2)
    (hde : (rootEntries args)[k]? = some de) :
    Fs.entryAt (dinode area V ROOTINO) V k = de := by
  have hD : DIRENT = 16 := rfl
  refine (direntAt_congr fun t ht => ?_).trans (direntAt_byte de)
  rw [h.entries _ (by rw [hD] at ht ⊢; omega), getD_flatMap_bytes ht _ hde]

theorem Written.entryAt_file (h : Written args V) (hf : args[k]? = some f) :
    Fs.entryAt (dinode area V ROOTINO) V (k + 2) = entryOf k f := by
  have hlt := (List.getElem?_eq_some_iff.mp hf).1
  refine h.entryAt (by omega) ?_
  have := getElem?_fileEntries args 0 hf
  rw [Nat.zero_add] at this
  simpa [rootEntries] using this

/-- No other file and no directory has this name. -/
def Distinct (args : List Input) : Prop :=
  (args.Pairwise fun f f' => namecmp f.name f'.name ≠ 0) ∧
    ∀ f ∈ args, namecmp f.name .dot ≠ 0 ∧ namecmp f.name .dotdot ≠ 0

theorem Written.first (h : Written args V) (hd : Distinct args) (hf : args[k]? = some f) {j : Nat} (hj : j < k + 2) :
    (Fs.entryAt (dinode area V ROOTINO) V j).matches f.name = false := by
  have hlt := (List.getElem?_eq_some_iff.mp hf).1
  have hno : ∀ de : Dirent, namecmp f.name de.name ≠ 0 → de.matches f.name = false := by
    intro de hne
    rw [Dirent.matches, decide_eq_false_iff_not]
    exact fun hc => hne hc.2
  have hdots := hd.2 f (List.mem_of_getElem? hf)
  match j with
  | 0 =>
    rw [h.entryAt (by omega) rfl]
    exact hno _ hdots.1
  | 1 =>
    rw [h.entryAt (by omega) rfl]
    exact hno _ hdots.2
  | j + 2 =>
    obtain ⟨f', hf'⟩ : ∃ f', args[j]? = some f' := ⟨_, List.getElem?_eq_getElem (by omega)⟩
    rw [h.entryAt_file hf']
    refine hno _ fun hc => ?_
    obtain ⟨hj', rfl⟩ := List.getElem?_eq_some_iff.mp hf'
    obtain ⟨hk', rfl⟩ := List.getElem?_eq_some_iff.mp hf
    refine List.pairwise_iff_getElem.mp hd.1 j k hj' hk' (by omega) ?_
    rw [namecmp_eq_zero] at hc ⊢
    exact hc.symm

/-! ## The inodes -/

theorem Sized.filled {x : Dinode} {n : Nat} (h : Sized x V n) (hn : n ≤ MAXFILE * BSIZE) : Filled x V 0 n := by
  have hB : BSIZE = 1024 := rfl
  intro t _ ht
  refine (h.leaf _ (Nat.div_lt_of_lt_mul (by rw [Nat.mul_comm]; omega))).mpr ?_
  rw [hB]
  omega

theorem Written.owns_geometry (h : Written args V) (hn : args.length + 2 ≤ NINODES) :
    Owns geometry (dinode geometry V) V := by
  have hlt : NINODES < area.ninodes := by decide
  refine Ownership.Owned.congr h.owns (fun s => ?_) fun b _ => Iff.rfl
  by_cases hs : s.inum < geometry.ninodes
  · rw [refs, refs]
    exact if_congr (and_congr_left fun _ => iff_of_true hs (hs.trans hlt)) rfl rfl
  · rw [refs, if_neg fun hc => hs hc.1]
    by_cases hs' : s.inum < area.ninodes
    · refine (refs_of_no_addrs ?_).symm
      rw [h.rest _ hs' (.inr (hn.trans (Nat.le_of_not_lt hs)))]
    · exact (if_neg fun hc => hs' hc.1).symm

theorem rootSize_le (hn : args.length + 2 ≤ area.ninodes) :
    DIRENT * (args.length + 2) ≤ rootSize args ∧ rootSize args ≤ MAXFILE * BSIZE := by
  have hN : area.ninodes = 208 := by decide
  have hM : MAXFILE * BSIZE = 274432 := by decide
  rw [rootSize, hM, DIRENT, BSIZE]
  omega

theorem Written.rootSize (h : Written args V) (hn : args.length + 2 ≤ area.ninodes) :
    (dinode area V ROOTINO).size.toNat = Mkfs.rootSize args := by
  rw [h.root]
  exact toNat_size (rootSize_le hn).2

/-- What the kernel finds on the image. -/
structure Agree (args : List Input) (V : Blocks) : Prop where
  super : Superblock.read (V 1) = geometry.toSuperblock
  blocks : BlocksOwned geometry V
  lookup : ∀ (k : Nat) (f : Input), args[k]? = some f → ∀ (r : List Bool) (mem : Memory) (dst : Nat),
    mem.Mapped dst f.data.length →
    ∃ mem' s, readFile geometry f.name mem dst (start V r).fs = .ok (some (T_FILE, f.data.length, mem')) s ∧
      Copied (fun t => f.data.getD t 0) dst f.data.length mem mem'

theorem Written.readFile (h : Written args V) (hn : args.length + 2 ≤ NINODES) (hd : Distinct args)
    (hf : args[k]? = some f)
    (r : List Bool) {mem : Memory} {dst : Nat} (hmem : mem.Mapped dst f.data.length) :
    ∃ mem' s, Fs.readFile geometry f.name mem dst (start V r).fs = .ok (some (T_FILE, f.data.length, mem')) s ∧
      Copied (fun t => f.data.getD t 0) dst f.data.length mem mem' := by
  have hlt := (List.getElem?_eq_some_iff.mp hf).1
  have hN : NINODES = 200 := rfl
  have harea : args.length + 2 ≤ area.ninodes := hn.trans (by decide)
  have hhas := h.files k f hf
  have htype : (dinode area V (k + 2)).type = T_FILE := congrArg Dinode.type hhas.inode
  have hentry := h.entryAt_file hf
  have hinum : (entryOf k f).inum.toNat = k + 2 := by
    change (BitVec.ofNat 16 (k + 2)).toNat = k + 2
    rw [BitVec.toNat_ofNat]
    omega
  have hmatch : (entryOf k f).matches f.name = true := by
    rw [Dirent.matches, decide_eq_true_iff]
    refine ⟨fun h0 => ?_, namecmp_eq_zero.mpr rfl⟩
    rw [h0] at hinum
    simp at hinum
  have hsub : DIRENT * (k + 2 + 1) ≤ DIRENT * (args.length + 2) := Nat.mul_le_mul_left _ (by omega)
  have hfill : Filled (dinode area V ROOTINO) V 0 (DIRENT * (k + 2 + 1)) := by
    have hroot := h.sized.filled ((rootSize_le harea).1.trans (rootSize_le harea).2)
    exact fun t h0 ht => hroot t h0 (by omega)
  have hrun := readFile_found (g := geometry) (v := V) (E := fun _ _ => False) (k := k + 2) (i := k + 2)
    (h.owns_geometry hn) (by decide) (congrArg Dinode.type h.root)
    ((h.rootSize harea).le.trans (rootSize_le harea).2)
    (hsub.trans ((rootSize_le harea).1.trans (h.rootSize harea).ge)) hfill
    (show (Fs.entryAt (dinode area V ROOTINO) V (k + 2)).matches f.name = true by rw [hentry, hmatch])
    (fun j hj => h.first hd hf hj)
    (show (Fs.entryAt (dinode area V ROOTINO) V (k + 2)).inum.toNat = k + 2 by rw [hentry, hinum])
    (show k + 2 < NINODES by omega) (file_ne_root k)
    (show (dinode area V (k + 2)).type ≠ 0 by rw [htype]; decide)
    (show (dinode area V (k + 2)).size.toNat ≤ MAXFILE * BSIZE by rw [hhas.size]; exact hhas.small)
    (show Filled (dinode area V (k + 2)) V 0
    (dinode area V (k + 2)).size.toNat by rw [hhas.size]; exact hhas.sized.filled hhas.small)
    (show mem.Mapped dst (contents (dinode area V (k + 2)) V).length by rw [hhas.contents]; exact hmem)
  obtain ⟨a, s, hok, mem', ha, hcop⟩ := hrun.exists_ok (s := (start V r).fs) ⟨rfl, rfl, rfl⟩ fun _ _ hf => hf
  change a = some ((dinode area V (k + 2)).type, (contents (dinode area V (k + 2)) V).length, mem') at ha
  change Copied (fun t => (contents (dinode area V (k + 2)) V).getD t 0) dst
    (contents (dinode area V (k + 2)) V).length mem mem' at hcop
  rw [hhas.contents] at ha hcop
  rw [htype] at ha
  exact ⟨mem', s, by rw [hok, ha], hcop⟩

/-- `mkfs` completes on every list of files that fits, and the kernel finds the files on its image. -/
theorem mkfs_kernel_agree (args : List Input) (hfits : Fits args) (hcount : args.length < NINODES - 1)
    (hnames : Distinct args) :
    ∃ t, main args {} = .ok () t ∧ Agree args t.img := by
  have hN : NINODES = 200 := rfl
  have hn : args.length + 2 ≤ NINODES := by omega
  obtain ⟨_, t, ht, -, hw⟩ := (main_spec (hn.trans (by decide))).exists_ok rfl fun _ _ hno => hno hfits
  refine ⟨t, ht, ?_, (hw.owns_geometry hn).blocksOwned, fun k f hf r mem dst hmem => hw.readFile hn hnames hf r hmem⟩
  rw [hw.super, Superblock.read_write] <;> decide

/-- The file `user/_a`, of three bytes. -/
def smallFile : Input where
  path := [117, 115, 101, 114, 47, 95, 97]
  nonzero := by decide
  chunks := some [[1, 2, 3]]
  sizes cs h c hc := by
    cases h
    rw [List.mem_singleton.mp hc]
    decide

/-- The file `b`, one byte longer than a block and read in two pieces. -/
def longFile : Input where
  path := [98]
  nonzero := by decide
  chunks := some [List.replicate BSIZE 7, [8]]
  sizes cs h c hc := by
    cases h
    rcases List.mem_pair.mp hc with rfl | rfl
    · rw [List.length_replicate]
      decide
    · decide

theorem length_longFile : longFile.data.length = BSIZE + 1 := by simp [longFile, Input.data]

theorem fits_twoFiles : Fits [smallFile, longFile] where
  good f hf := by
    rcases List.mem_pair.mp hf with rfl | rfl
    · exact ⟨by decide, by decide, by decide⟩
    · refine ⟨by decide, nofun, ?_⟩
      rw [length_longFile]
      decide
  room := by
    rw [List.map_cons, List.map_singleton, length_longFile]
    decide

theorem mkfs_kernel_agree_twoFiles :
    ∃ t, main [smallFile, longFile] {} = .ok () t ∧ Agree [smallFile, longFile] t.img :=
  mkfs_kernel_agree _ fits_twoFiles (by decide) ⟨List.pairwise_pair.mpr (by decide), fun f hf => by
    rcases List.mem_pair.mp hf with rfl | rfl <;> decide⟩

/-! ## A file named `.` -/

/-- `mkfs` drops the `_` of `_.`. -/
def dotFile : Input where
  path := [95, 46]
  nonzero := by decide
  chunks := some []
  sizes := sizes_nil

/-- An entry of the inode cache for the root directory. -/
def rootEntry : Fin NINODE := ⟨0, NINODE_pos⟩

/-- An inode cache with nothing but the root directory, open and locked. -/
def rootCache (V : Blocks) : Icache :=
  Function.update (fun _ => {}) rootEntry (opened geometry V ROOTINO)

theorem rootCache_self (V : Blocks) : rootCache V rootEntry = opened geometry V ROOTINO := Function.update_self ..

theorem eq_rootEntry {ip : Fin NINODE} (h : 0 < (rootCache V ip).ref) : ip = rootEntry := by
  by_contra hne
  rw [rootCache, Function.update_of_ne hne] at h
  exact absurd h (Nat.lt_irrefl 0)

theorem fits_dotFile : Fits [dotFile] where
  good f hf := by
    rw [List.mem_singleton.mp hf]
    exact ⟨by decide, by decide, by decide⟩
  room := by decide

theorem iget_root {E : Panic → Fs.State → Prop} : Triple (Is V V (rootCache V)) (iget ROOTINO)
    (fun ip s => ip = rootEntry ∧ (s.icache rootEntry).inum = ROOTINO ∧ (s.icache rootEntry).d =
    dinode geometry V ROOTINO) E := by
  rintro s ⟨-, -, hc⟩
  unfold iget
  rw [hc]
  split
  next ip hfind =>
    have hp := List.find?_some hfind
    rw [decide_eq_true_iff] at hp
    obtain rfl := eq_rootEntry hp.1
    refine ⟨rfl, ?_, ?_⟩ <;> dsimp only <;> rw [Function.update_self, rootCache_self] <;> rfl
  next hnone =>
    have := List.find?_eq_none.mp hnone rootEntry (List.mem_finRange _)
    rw [rootCache_self, decide_eq_true_iff] at this
    exact absurd ⟨Nat.one_pos, rfl⟩ this

/-- The name of the file is found, but it is the entry of the directory itself. -/
theorem mkfs_dot_is_root : ∃ t s, Fits [dotFile] ∧ main [dotFile] {} = .ok () t ∧
    dirlookup geometry rootEntry dotFile.name { buf := t.img, disk := t.img, icache := rootCache t.img } =
      .ok (some (rootEntry, 0)) s ∧
    (s.icache rootEntry).inum = ROOTINO ∧ (s.icache rootEntry).d.type = T_DIR := by
  have hn : [dotFile].length + 2 ≤ area.ninodes := by decide
  obtain ⟨_, t, ht, -, hw⟩ := (main_spec hn).exists_ok rfl fun _ _ hno => hno fits_dotFile
  have htype : (dinode area t.img ROOTINO).type = T_DIR := congrArg Dinode.type hw.root
  have hentry := hw.entryAt (k := 0) (by omega) rfl
  have hfill := hw.sized.filled ((rootSize_le hn).1.trans (rootSize_le hn).2)
  have hinum : (rootCache t.img rootEntry).inum = ROOTINO := by rw [rootCache_self]; rfl
  have hfound : Triple (Is t.img t.img (rootCache t.img)) (dirlookup geometry rootEntry dotFile.name)
      (fun r s => r = some (rootEntry, 0) ∧ (s.icache rootEntry).inum = ROOTINO ∧ (s.icache rootEntry).d.type = T_DIR)
      fun _ _ => False := by
    refine dirlookup_found (opened_settled (hw.owns_geometry (by decide)) (by decide) (rootCache_self _)
      ((hw.rootSize hn).le.trans (rootSize_le hn).2)) ?_ ?_ ?_ (fun j hj => absurd hj (Nat.not_lt_zero j))
      ?_ ?_ <;> rw [hinum]
    · exact ((rootSize_le hn).1.trans (hw.rootSize hn).ge).trans' (by decide)
    · exact fun t h0 ht => hfill t h0 (ht.trans (by decide))
    · exact (congrArg (Dirent.matches dotFile.name) hentry).trans (by decide)
    · rw [show (Fs.entryAt (dinode geometry t.img ROOTINO) t.img 0).inum.toNat =
        ROOTINO from congrArg (fun de => de.inum.toNat) hentry]
      exact iget_root.post fun ip s hs => ⟨by rw [hs.1]; rfl, hs.2.1, by rw [hs.2.2]; exact htype⟩
    · exact htype
  obtain ⟨_, s, hs, rfl, hok⟩ := hfound.exists_ok (s := { buf := t.img, disk := t.img, icache := rootCache t.img })
    ⟨rfl, rfl, rfl⟩
    fun _ _ hf => hf
  exact ⟨t, s, fits_dotFile, ht, hs, hok⟩

end Xv6.Mkfs

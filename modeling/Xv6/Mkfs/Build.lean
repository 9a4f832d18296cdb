import Xv6.Mkfs.Append

/-!
# The image that `mkfs` writes

While `mkfs` runs, the root directory holds the entries made so far and every file the bytes appended so far
(`Stage`). A run with no more files than there is room for in the inode area comes to its end exactly if the
files fit, and then the image holds them (`main_spec`).
-/

namespace Xv6.Mkfs

open Fs
open Hoare (Triple Outcome)
open Sys (Dirent DIRENT T_DIR T_FILE)
open Function (update update_of_ne update_self update_eq_self_iff)

variable {V V' : Blocks} {fb fi i : Nat} {E : Stop → State → Prop} {R p : List (BitVec 8)} {F : List (List (BitVec 8))}
variable {bs : List (BitVec 8)} {args : List Input}

/-! ## Inodes that keep their blocks -/

theorem putInode_keeps {x : Dinode} (ho : Owns area (dinode area V) V) (hi : i < area.ninodes)
    (hx : x.addrs = (dinode area V i).addrs) :
    Owns area (dinode area (putInode area V i x)) (putInode area V i x) ∧
      (∀ m, leafAddr x (putInode area V i x) m = leafAddr (dinode area V i) V m) ∧
      (∀ t, content x (putInode area V i x) t = content (dinode area V i) V t) ∧
      ∀ j, j < area.ninodes → j ≠ i → Unchanged area V (putInode area V i x) j := by
  have h : Busy area ⟨0, by decide⟩ i (dinode area V) V V (entryFor V i) :=
    ⟨ho, fun _ _ => rfl, fun _ _ _ => rfl, hi, rfl, rfl, fun _ _ _ => rfl⟩
  have hb := (h.setMeta hx).putInode x
  refine ⟨hb.owns.congr_inodes fun j hj => ?_, fun m => ?_, fun t => ?_, fun j hj hji => ?_⟩
  · by_cases hji : j = i
    · rw [hji, dinode_putInode_self, update_self]
    · exact hb.disk j hj hji
  · rw [leafAddr_of_addrs hx, h.leafAddr_putInode hi]
  · rw [content_of_addrs hx, h.content_putInode hi]
  · have hsame := dinode_putInode_of_ne (g := area) (v := V) hji x
    refine ⟨hsame, fun m => ?_, ?_⟩
    · rw [hsame, h.leafAddr_putInode hj]
    · rw [hsame, contents, contents]
      exact List.map_congr_left fun t _ => h.content_putInode hj x t

theorem freshInode_like : Triple (Like V fb fi) freshInode (fun i s => i = fi ∧ Like V fb (fi + 1) s) E :=
  fun s hs => ⟨hs.freeinode, { hs with freeinode := by rw [← hs.freeinode] }⟩

theorem ialloc_like {type : BitVec 16} (ho : Owns area (dinode area V) V) (hi : fi < area.ninodes)
    (h0 : dinode area V fi = {}) :
    Triple (Like V fb fi) (ialloc type)
      (fun i s => i = fi ∧ ∃ V', (Owns area (dinode area V') V' ∧ Has V' fi type [] ∧
        ∀ j, j < area.ninodes → j ≠ fi → Unchanged area V V' j) ∧ Like V' fb (fi + 1) s) E := by
  refine .bind_fact freshInode_like fun i hi' => ?_
  subst hi'
  obtain ⟨x, hx⟩ : ∃ x : Dinode, x = { type := type, nlink := 1, size := 0 } := ⟨_, rfl⟩
  rw [← hx]
  obtain ⟨hown, -, -, hothers⟩ := putInode_keeps (x := x) ho hi (by rw [h0, hx])
  refine .bind (winode_like x hi) fun _ => .pure fun s hs => ⟨rfl, _, ⟨hown, ?_, hothers⟩, hs⟩
  have hself := dinode_putInode_self (g := area) V i x
  have hno : x.addrs = fun _ => 0 := by rw [hx]
  constructor
  case inode => rw [hself, hx]; rfl
  case small => exact Nat.zero_le _
  case contents => rw [hself, hx]; rfl
  case sized =>
    rw [hself]
    exact ⟨fun m _ => iff_of_false (not_not.mpr (leafAddr_of_no_addrs hno m)) (Nat.not_lt_zero _),
      iff_of_false (not_not.mpr (addr_of_no_addrs hno NDIRECT)) (Nat.not_lt_zero _)⟩

/-! ## The files so far -/

theorem file_ne_root (k : Nat) : k + 2 ≠ ROOTINO := by
  unfold ROOTINO
  omega

/-- How many blocks the image needs. -/
def total (R : List (BitVec 8)) (F : List (List (BitVec 8))) : Nat :=
  nmeta + blocks R.length + (F.map fun bs => blocks bs.length).sum

/-- The root directory holds `R` and the files hold `F`. -/
structure Built (V : Blocks) (R : List (BitVec 8)) (F : List (List (BitVec 8))) : Prop where
  owns : Owns area (dinode area V) V
  root : Has V ROOTINO T_DIR R
  files : ∀ k bs, F[k]? = some bs → Has V (k + 2) T_FILE bs
  rest : ∀ i, i < area.ninodes → i = 0 ∨ F.length + 2 ≤ i → dinode area V i = {}
  count : F.length + 2 ≤ area.ninodes

def Stage (R : List (BitVec 8)) (F : List (List (BitVec 8))) (s : State) : Prop :=
  ∃ V, Built V R F ∧ Like V (total R F) (F.length + 2) s

theorem stage_append {type : BitVec 16} {R' : List (BitVec 8)} {F' : List (List (BitVec 8))}
    (hi : i < area.ninodes) (hlen : F'.length = F.length)
    (htotal : total R' F' = total R F + (blocks (bs ++ p).length - blocks bs.length))
    (hold : ∀ V, Built V R F → Has V i type bs)
    (hnew : ∀ V V', Built V R F → Owns area (dinode area V') V' → Has V' i type (bs ++ p) →
      (∀ j, j < area.ninodes → j ≠ i → Unchanged area V V' j) → Built V' R' F') :
    Triple (Stage R F) (iappend i p)
      (fun _ s => ((bs ++ p).length ≤ MAXFILE * BSIZE ∧ total R' F' ≤ FSSIZE) ∧ Stage R' F' s)
      (fun _ _ => ¬ ((bs ++ p).length ≤ MAXFILE * BSIZE ∧ total R' F' ≤ FSSIZE)) := by
  rw [htotal, List.length_append]
  refine .exists fun V => .of_fact fun hb => ?_
  refine (iappend_like hb.owns hi (hold V hb)).post ?_
  rintro _ s ⟨hroom, V', ⟨hown, hhas, hothers⟩, hs⟩
  refine ⟨hroom, V', hnew V V' hb hown hhas hothers, ?_⟩
  rwa [htotal, List.length_append, hlen]

theorem appendRoot_stage :
    Triple (Stage R F) (iappend ROOTINO p)
      (fun _ s => ((R ++ p).length ≤ MAXFILE * BSIZE ∧ total (R ++ p) F ≤ FSSIZE) ∧ Stage (R ++ p) F s)
      (fun _ _ => ¬ ((R ++ p).length ≤ MAXFILE * BSIZE ∧ total (R ++ p) F ≤ FSSIZE)) := by
  refine stage_append (by decide) rfl ?_ (fun V hb => hb.root) fun V V' hb hown hroot hothers => ?_
  · have := blocks_mono (show R.length ≤ (R ++ p).length by simp)
    unfold total
    omega
  · refine ⟨hown, hroot, fun k bs hk => ?_, fun j hj hfree => ?_, hb.count⟩
    · have hlt : k < F.length := (List.getElem?_eq_some_iff.mp hk).1
      have := hb.count
      exact (hb.files k bs hk).of_unchanged (hothers _ (by omega) (file_ne_root k))
    · rw [(hothers j hj (by rintro rfl; rcases hfree with h | h <;> simp [ROOTINO] at h)).inode]
      exact hb.rest j hj hfree

theorem appendLast_stage :
    Triple (Stage R (F ++ [bs])) (iappend (F.length + 2) p)
      (fun _ s => ((bs ++ p).length ≤ MAXFILE * BSIZE ∧ total R (F ++ [bs ++ p]) ≤ FSSIZE) ∧ Stage R (F ++ [bs ++ p]) s)
      (fun _ _ => ¬ ((bs ++ p).length ≤ MAXFILE * BSIZE ∧ total R (F ++ [bs ++ p]) ≤ FSSIZE)) := by
  intro s hs
  obtain ⟨V₀, hb₀, -⟩ := id hs
  have hcount := hb₀.count
  rw [List.length_append, List.length_singleton] at hcount
  revert s
  refine stage_append (by omega) (by simp) ?_ (fun V hb => hb.files _ _ (by simp)) fun V V' hb hown hlast hothers => ?_
  · have := blocks_mono (show bs.length ≤ (bs ++ p).length by simp)
    simp only [total, List.map_append, List.sum_append, List.map_singleton, List.sum_singleton]
    omega
  · have hne := (file_ne_root F.length).symm
    refine ⟨hown, hb.root.of_unchanged (hothers _ (by decide) hne), fun k c hk => ?_,
      fun j hj hfree => ?_, by simpa using hb.count⟩
    · rcases Nat.lt_trichotomy k F.length with hlt | rfl | hgt
      · rw [List.getElem?_append_left hlt] at hk
        refine (hb.files k c ?_).of_unchanged (hothers _ (by omega) (by omega))
        rw [List.getElem?_append_left hlt, hk]
      · rw [List.getElem?_concat_length, Option.some.injEq] at hk
        rwa [← hk]
      · rw [List.getElem?_eq_none (by simp; omega)] at hk
        cases hk
    · rw [List.length_append, List.length_singleton] at hfree
      rw [(hothers j hj (by omega)).inode]
      exact hb.rest j hj (by simpa using hfree)

theorem ialloc_stage (hlen : F.length + 3 ≤ area.ninodes) :
    Triple (Stage R F) (ialloc T_FILE) (fun i s => i = F.length + 2 ∧ Stage R (F ++ [[]]) s) E := by
  refine .exists fun V => .of_fact fun hb => ?_
  refine (ialloc_like hb.owns (by omega) (hb.rest _ (by omega) (.inr (Nat.le_refl _)))).post ?_
  rintro _ s ⟨rfl, V', ⟨hown, hnew, hothers⟩, hs⟩
  have hne := (file_ne_root F.length).symm
  refine ⟨rfl, V', ⟨hown, hb.root.of_unchanged (hothers _ (by decide) hne), fun k bs hk => ?_,
    fun j hj hfree => ?_, by simpa using hlen⟩, ?_⟩
  · rcases Nat.lt_trichotomy k F.length with hlt | rfl | hgt
    · rw [List.getElem?_append_left hlt] at hk
      exact (hb.files k bs hk).of_unchanged (hothers _ (by omega) (by omega))
    · rw [List.getElem?_concat_length, Option.some.injEq] at hk
      rwa [← hk]
    · rw [List.getElem?_eq_none (by simp; omega)] at hk
      cases hk
  · rw [List.length_append, List.length_singleton] at hfree
    rw [(hothers j hj (by omega)).inode]
    exact hb.rest j hj (by omega)
  · rwa [show total R (F ++ [[]]) =
      total R F by simp [total, show blocks 0 = 0 from rfl], List.length_append, List.length_singleton]

theorem Stage.small {s : State} (h : Stage R (F ++ [bs]) s) :
    bs.length ≤ MAXFILE * BSIZE ∧ total R (F ++ [bs]) ≤ FSSIZE := by
  obtain ⟨V, hb, hs⟩ := h
  exact ⟨(hb.files F.length bs (by simp)).small, hs.high⟩

theorem total_mono {cs : List (BitVec 8)} (h : bs.length ≤ cs.length) : total R (F ++ [bs]) ≤ total R (F ++ [cs]) := by
  have := blocks_mono h
  simp only [total, List.map_append, List.sum_append, List.map_singleton, List.sum_singleton]
  omega

theorem appendAll_stage (cs : List (List (BitVec 8))) : ∀ {bs : List (BitVec 8)},
    Triple (Stage R (F ++ [bs])) (appendAll (F.length + 2) cs)
      (fun _ s => ((bs ++ cs.flatten).length ≤ MAXFILE * BSIZE ∧ total R (F ++ [bs ++ cs.flatten]) ≤ FSSIZE) ∧
        Stage R (F ++ [bs ++ cs.flatten]) s)
      (fun _ _ => ¬ ((bs ++ cs.flatten).length ≤ MAXFILE * BSIZE ∧ total R (F ++ [bs ++ cs.flatten]) ≤ FSSIZE)) := by
  induction cs with
  | nil =>
    intro bs
    rw [List.flatten_nil, List.append_nil]
    exact .pure fun s hs => ⟨hs.small, hs⟩
  | cons c cs ih =>
    intro bs
    have hlen : (bs ++ c).length ≤ (bs ++ (c :: cs).flatten).length := by simp
    refine .bind_fact (appendLast_stage.err fun _ _ hno hc => hno ⟨hlen.trans hc.1, (total_mono hlen).trans hc.2⟩)
      fun _ _ => ?_
    rw [List.flatten_cons, ← List.append_assoc]
    exact ih

/-- What `read` returned of the file. -/
def Input.data (f : Input) : List (BitVec 8) := (f.chunks.getD []).flatten

/-- `mkfs` can open the file, likes its name, and can store that many bytes. -/
def Input.Good (f : Input) : Prop :=
  SLASH ∉ shortname f.path ∧ f.chunks ≠ none ∧ f.data.length ≤ MAXFILE * BSIZE

/-- The entry of file number `k`. -/
def entryOf (k : Nat) (f : Input) : Dirent := { inum := BitVec.ofNat 16 (k + 2), name := f.name }

theorem length_bytes (de : Dirent) : de.bytes.length = DIRENT := by
  rw [Dirent.bytes, List.length_map, List.length_range]

theorem addFile_stage {f : Input} (hR : R.length = DIRENT * (F.length + 2)) (hlen : F.length + 3 ≤ area.ninodes) :
    Triple (Stage R F) (addFile ROOTINO f)
      (fun _ s => (f.Good ∧ total (R ++ (entryOf F.length f).bytes) (F ++ [f.data]) ≤ FSSIZE) ∧
        Stage (R ++ (entryOf F.length f).bytes) (F ++ [f.data]) s)
      (fun _ _ => ¬ (f.Good ∧ total (R ++ (entryOf F.length f).bytes) (F ++ [f.data]) ≤ FSSIZE)) := by
  have hroot : (R ++ (entryOf F.length f).bytes).length ≤ MAXFILE * BSIZE := by
    have hN : area.ninodes = 208 := by decide
    have hM : MAXFILE * BSIZE = 274432 := by decide
    rw [List.length_append, length_bytes, hR, hM, DIRENT]
    omega
  by_cases hslash : SLASH ∉ shortname f.path
  · refine .bind (Q := fun _ => Stage R F) ?_ fun _ => ?_
    · rw [assert, if_pos hslash]
      exact .pure fun _ hs => hs
    cases hcs : f.chunks with
    | none => exact fun _ _ hc => hc.1.2.1 hcs
    | some cs =>
      have hdata : f.data = cs.flatten := by rw [Input.data, hcs]; rfl
      have hle : ([] : List (BitVec 8)).length ≤ f.data.length := Nat.zero_le _
      refine .bind_fact (ialloc_stage hlen) fun i hi => ?_
      subst hi
      refine .bind_fact (appendRoot_stage.err fun _ _ hno hc => hno ⟨hroot, (total_mono hle).trans hc.2⟩) fun _ _ => ?_
      have hall : Triple (Stage (R ++ (entryOf F.length f).bytes) (F ++ [[]])) (appendAll (F.length + 2) cs) _ _ :=
        appendAll_stage cs
      rw [List.nil_append, ← hdata] at hall
      exact (hall.post fun _ s hs => ⟨⟨⟨hslash, by rw [hcs]; simp, hs.1.1⟩, hs.1.2⟩, hs.2⟩).err fun _ _ hno hc =>
        hno ⟨hc.1.2.2, hc.2⟩
  · refine .bind ?_ fun _ => .unreachable
    rw [assert, if_neg hslash]
    exact fun _ _ hc => hslash hc.1.1

/-- The entries of the files, from number `k` on. -/
def fileEntries : Nat → List Input → List Dirent
  | _, [] => []
  | k, f :: fs => entryOf k f :: fileEntries (k + 1) fs

/-- The rest of the files fit. -/
def Fit (R : List (BitVec 8)) (F : List (List (BitVec 8))) (fs : List Input) : Prop :=
  (∀ f ∈ fs, f.Good) ∧
    nmeta + blocks (R.length + DIRENT * fs.length) + (F.map fun bs => blocks bs.length).sum +
      (fs.map fun f => blocks f.data.length).sum ≤ FSSIZE

theorem Fit.cons {f : Input} {fs : List Input} : Fit R F (f :: fs) ↔
    (f.Good ∧ total (R ++ (entryOf F.length f).bytes) (F ++ [f.data]) ≤ FSSIZE) ∧
      Fit (R ++ (entryOf F.length f).bytes) (F ++ [f.data]) fs := by
  have hlen : (R ++ (entryOf F.length f).bytes).length = R.length + DIRENT := by rw [List.length_append, length_bytes]
  have hmono := blocks_mono (show R.length + DIRENT ≤ R.length + DIRENT * (f :: fs).length by simp [DIRENT])
  have hsum : R.length + DIRENT + DIRENT * fs.length = R.length + DIRENT * (f :: fs).length := by
    rw [List.length_cons, Nat.mul_succ]
    omega
  unfold Fit total
  rw [hlen, hsum]
  simp only [List.forall_mem_cons, List.map_append, List.sum_append, List.map_cons, List.sum_cons, List.map_nil,
    List.sum_nil]
  constructor
  · rintro ⟨⟨hf, hfs⟩, hroom⟩
    exact ⟨⟨hf, by omega⟩, hfs, by omega⟩
  · rintro ⟨⟨hf, -⟩, hfs, hroom⟩
    exact ⟨⟨hf, hfs⟩, by omega⟩

theorem addFiles_stage (fs : List Input) : ∀ {R : List (BitVec 8)} {F : List (List (BitVec 8))},
    R.length = DIRENT * (F.length + 2) → F.length + fs.length + 2 ≤ area.ninodes →
    Triple (Stage R F) (addFiles ROOTINO fs)
      (fun _ s => Fit R F fs ∧ Stage (R ++ (fileEntries F.length fs).flatMap Dirent.bytes) (F ++ fs.map Input.data) s)
      (fun _ _ => ¬ Fit R F fs) := by
  induction fs with
  | nil =>
    intro R F hR hlen
    refine .pure fun s hs => ⟨⟨by simp, ?_⟩, by simpa [fileEntries] using hs⟩
    obtain ⟨V, -, hs⟩ := hs
    simpa [total] using hs.high
  | cons f fs ih =>
    intro R F hR hlen
    rw [List.length_cons] at hlen
    rw [Fit.cons]
    refine .bind_fact ((addFile_stage hR (by omega)).err fun _ _ hno hc => hno hc.1) fun _ hf => ?_
    have hrest := ih (R := R ++ (entryOf F.length f).bytes) (F := F ++ [f.data])
      (by rw [List.length_append, length_bytes, hR, List.length_append, List.length_singleton]
          simp only [DIRENT]; omega)
      (by rw [List.length_append, List.length_singleton]; omega)
    rw [List.length_append, List.length_singleton] at hrest
    refine (hrest.post fun _ s hs => ⟨⟨hf, hs.1⟩, ?_⟩).err fun _ _ hno hc => hno hc.2
    simpa [fileEntries, List.append_assoc] using hs.2

/-! ## The whole run -/

/-- The image after the superblock has been written. -/
def blank : Blocks :=
  update (update (fun _ _ => 0) sb.bmapstart (bitmap nmeta)) 1 (Superblock.write (fun _ => 0) sb)

theorem blank_of_ne {b : Nat} (h1 : b ≠ 1) (hmap : b ≠ sb.bmapstart) : blank b = fun _ => 0 := by
  rw [blank, update_of_ne h1, update_of_ne hmap]

theorem zeroSectors_like :
    Triple (fun s => s = { freeblock := nmeta }) zeroSectors (fun _ s => s = { freeblock := nmeta, len := FSSIZE })
    E := by
  unfold zeroSectors
  obtain ⟨k, hk⟩ : ∃ k, k = FSSIZE := ⟨_, rfl⟩
  rw [← hk]
  have hbody : ∀ j, 0 ≤ j → j < 0 + k → Triple (fun s => s = ({ freeblock := nmeta, len := j } : State))
    (wsect j fun _ => 0) (fun _ s => s = { freeblock := nmeta, len := j + 1 }) E := by
    rintro j - hj s rfl
    change State.mk _ _ _ _ _ = State.mk _ _ _ _ _
    rw [sector_eq (by omega), update_eq_self_iff.mpr rfl, Nat.max_eq_right (Nat.le_succ j)]
  have hloop := Triple.loop k 0 hbody
  rwa [Nat.zero_add] at hloop

theorem start_like :
    Triple (fun s => s = { freeblock := nmeta, len := FSSIZE }) (wsect 1 (Superblock.write (fun _ => 0) sb))
      (fun _ => Like blank nmeta 1) E := by
  rintro s rfl
  have hlt : nmeta < FSSIZE := by decide
  refine ⟨fun b hb => ?_, update_self .., ?_, fun b hb => ?_, rfl, rfl, rfl, Nat.le_refl _, hlt.le⟩
  · change update (fun _ _ => 0) (sector 1) (Superblock.write (fun _ => 0) sb) b = blank b
    rw [sector_eq (by decide), blank]
    by_cases h1 : b = 1
    · rw [h1, update_self, update_self]
    · rw [update_of_ne h1, update_of_ne h1, update_of_ne hb]
  · rw [blank, update_of_ne (by decide), update_self]
  · have hmeta : sb.bmapstart < nmeta := by decide
    have hone : 1 < sb.bmapstart := by decide
    exact blank_of_ne (by omega) (by omega)

theorem dinode_blank (hi : i < area.ninodes) : dinode area blank i = {} := by
  obtain ⟨h1, hmap, -⟩ := iblock_area hi
  exact dinode_of_zero (blank_of_ne (Nat.ne_of_gt h1) hmap)

theorem owns_blank : Owns area (dinode area blank) blank := by
  refine owns_of_no_addrs (fun i hi => by rw [dinode_blank hi]) fun b hb => ?_
  have hmap : blank sb.bmapstart = bitmap nmeta := by rw [blank, update_of_ne (by decide), update_self]
  rw [used_area hmap (by decide) hb]
  rfl

/-- The entries of the root directory. -/
def rootEntries (args : List Input) : List Dirent :=
  { inum := BitVec.ofNat 16 ROOTINO, name := .dot } :: { inum := BitVec.ofNat 16 ROOTINO, name := .dotdot } ::
  fileEntries 0 args

/-- The files can be stored in an image of `FSSIZE` blocks. -/
structure Fits (args : List Input) : Prop where
  good : ∀ f ∈ args, f.Good
  room : nmeta + blocks (DIRENT * (args.length + 2)) + (args.map fun f => blocks f.data.length).sum ≤ FSSIZE

/-- The size of the root directory, which is rounded up past a whole number of blocks. -/
def rootSize (args : List Input) : Nat := (DIRENT * (args.length + 2) / BSIZE + 1) * BSIZE

theorem rootSize_eq (hn : args.length + 2 ≤ area.ninodes) :
    (BitVec.ofNat 32 (DIRENT * (args.length + 2)) / BitVec.ofNat 32 BSIZE + 1) * BitVec.ofNat 32 BSIZE =
      BitVec.ofNat 32 (rootSize args) := by
  have hN : area.ninodes = 208 := by decide
  refine BitVec.eq_of_toNat_eq ?_
  simp only [BitVec.toNat_mul, BitVec.toNat_add, BitVec.toNat_udiv, BitVec.toNat_ofNat,
    show (1 : BitVec 32).toNat = 1 from rfl,
    rootSize, DIRENT, BSIZE, Nat.reducePow, Nat.reduceMod]
  omega

/-- The image holds the files. -/
structure Written (args : List Input) (V : Blocks) : Prop where
  super : V 1 = Superblock.write (fun _ => 0) sb
  owns : Owns area (dinode area V) V
  root : dinode area V ROOTINO =
    { type := T_DIR, nlink := 1, size := BitVec.ofNat 32 (rootSize args), addrs := (dinode area V ROOTINO).addrs }
  sized : Sized (dinode area V ROOTINO) V (DIRENT * (args.length + 2))
  entries : ∀ t, t < DIRENT * (args.length + 2) →
    content (dinode area V ROOTINO) V t = ((rootEntries args).flatMap Dirent.bytes).getD t 0
  files : ∀ k f, args[k]? = some f → Has V (k + 2) T_FILE f.data
  rest : ∀ i, i < area.ninodes → i = 0 ∨ args.length + 2 ≤ i → dinode area V i = {}

theorem length_fileEntries (args : List Input) : ∀ k, (fileEntries k args).length = args.length := by
  induction args with
  | nil => exact fun _ => rfl
  | cons f fs ih => exact fun k => congrArg (· + 1) (ih (k + 1))

theorem length_flatMap_bytes (des : List Dirent) : (des.flatMap Dirent.bytes).length = DIRENT * des.length := by
  rw [List.length_flatMap, List.map_congr_left fun de _ => length_bytes de, List.map_const',
    List.sum_replicate_nat, Nat.mul_comm]

theorem fixRoot_like (hn : args.length + 2 ≤ area.ninodes)
    (hb : Built V ((rootEntries args).flatMap Dirent.bytes) (args.map Input.data)) :
    Triple (Like V fb fi) (fixRoot ROOTINO)
      (fun _ s => ∃ V', (V' 1 = Superblock.write (fun _ => 0) sb → Written args V') ∧ Like V' fb fi s) E := by
  have hlen : ((rootEntries args).flatMap Dirent.bytes).length = DIRENT * (args.length + 2) := by
    rw [length_flatMap_bytes, rootEntries, List.length_cons, List.length_cons, length_fileEntries]
  have hroot : ROOTINO < area.ninodes := by decide
  refine .read (rinode_like hroot) ?_
  obtain ⟨x, hx⟩ : ∃ x : Dinode, x = { dinode area V ROOTINO with
      size := ((dinode area V ROOTINO).size / BitVec.ofNat 32 BSIZE + 1) * BitVec.ofNat 32 BSIZE } := ⟨_, rfl⟩
  rw [← hx]
  obtain ⟨hown, hmap, hbytes, hothers⟩ := putInode_keeps (x := x) hb.owns hroot (by rw [hx])
  have hself := dinode_putInode_self (g := area) V ROOTINO x
  refine (winode_like x hroot).post fun _ s hs => ⟨_, fun hsuper => ?_, hs⟩
  constructor
  case super => exact hsuper
  case owns => exact hown
  case root =>
    rw [hself, hx, hb.root.inode, hlen, rootSize_eq hn]
  case sized =>
    rw [hself, ← hlen]
    refine ⟨fun m hm => by rw [hmap]; exact hb.root.sized.leaf m hm, ?_⟩
    rw [addr_of_addrs (show x.addrs = (dinode area V ROOTINO).addrs by rw [hx])]
    exact hb.root.sized.ind
  case entries =>
    intro t ht
    rw [hself, hbytes, ← hb.root.contents, contents, hb.root.size, hlen, List.getD_eq_getElem?_getD, List.getElem?_map,
      List.getElem?_range ht]
    rfl
  case files =>
    intro k f hk
    have hlt : k < args.length := (List.getElem?_eq_some_iff.mp hk).1
    exact (hb.files k f.data (by rw [List.getElem?_map, hk]; rfl)).of_unchanged (hothers _ (by omega) (file_ne_root k))
  case rest =>
    intro j hj hfree
    rw [(hothers j hj (by rintro rfl; unfold ROOTINO at hfree; omega)).inode]
    exact hb.rest j hj (by rwa [List.length_map])

theorem balloc_like : Triple (Like V fb fi) (do let used ← getFreeblock; balloc used) (fun _ s => s.img = V) E := by
  refine .bind (Q := fun used s => used = fb ∧ Like V fb fi s) (fun s hs => ⟨hs.freeblock, hs⟩) fun used =>
    Triple.of_fact fun hused => like_facts fun hmap hfb => ?_
  subst hused
  have hF : FSSIZE < BSIZE * 8 := by decide
  refine .bind (Q := fun _ => Like V used fi) ?_ fun _ s hs => ?_
  · rw [assert, if_pos (by omega)]
    exact .pure fun _ hs => hs
  · change update s.img (sector sb.bmapstart) (bitmap used) = V
    rw [sector_eq (by decide)]
    funext b
    by_cases hb : b = sb.bmapstart
    · rw [hb, update_self, hmap]
    · rw [update_of_ne hb, hs.img b hb]

theorem main_spec (hn : args.length + 2 ≤ area.ninodes) :
    Triple (fun s => s = {}) (main args) (fun _ t => Fits args ∧ Written args t.img) fun _ _ => ¬ Fits args := by
  have hfit : ∀ R, R.length = DIRENT * 2 → (Fit R [] args ↔ Fits args) := by
    intro R hR
    have hlen : R.length + DIRENT * args.length = DIRENT * (args.length + 2) := by
      rw [hR, ← Nat.mul_add, Nat.add_comm]
    unfold Fit
    rw [hlen]
    exact ⟨fun h => ⟨h.1, by simpa using h.2⟩, fun h => ⟨h.good, by simpa using h.room⟩⟩
  refine .bind (Q := fun _ s => s = { freeblock := nmeta }) (fun s hs => by rw [hs]; exact rfl) fun _ => ?_
  refine .bind zeroSectors_like fun _ => .bind start_like fun _ => ?_
  refine .bind_fact (ialloc_like owns_blank (by decide) (dinode_blank (by decide))) fun i hi => ?_
  subst hi
  refine .bind (Q := fun _ => Stage [] []) ?_ fun _ => ?_
  · rw [assert, if_pos (by decide)]
    refine .pure ?_
    rintro s ⟨V, ⟨hown, hroot, hothers⟩, hs⟩
    refine ⟨V, ⟨hown, hroot, fun k bs hk => (by cases hk), fun j hj hfree => ?_, by decide⟩, hs⟩
    rw [(hothers j hj (by rintro rfl; simp at hfree)).inode]
    exact dinode_blank hj
  refine .bind_fact (appendRoot_stage.err fun _ _ hno => absurd ⟨by decide, by decide⟩ hno) fun _ _ => ?_
  refine .bind_fact (appendRoot_stage.err fun _ _ hno => absurd ⟨by decide, by decide⟩ hno) fun _ _ => ?_
  refine .bind_fact ((addFiles_stage args (by simp [length_bytes]; rfl) (by simpa using hn)).err fun _ _ hno hc =>
    hno ((hfit _ (by simp [length_bytes]; rfl)).mpr hc)) fun _ hfits => .exists fun V => .of_fact fun hb => ?_
  have hb' : Built V ((rootEntries args).flatMap Dirent.bytes) (args.map Input.data) := by
    simpa [rootEntries, ROOTINO] using hb
  refine .bind_exists (fixRoot_like hn hb') fun _ V' hw => ?_
  refine fun s hs => (balloc_like.post fun _ t ht => ⟨(hfit _ (by simp [length_bytes]; rfl)).mp hfits, ?_⟩) s hs
  rw [ht]
  exact hw hs.super

end Xv6.Mkfs

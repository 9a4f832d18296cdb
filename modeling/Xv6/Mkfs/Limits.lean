import Xv6.Mkfs.Build

/-!
# What `mkfs` hands out

`freeblock` and `freeinode` are counters that nothing checks. Reading a block past the end of the image stops
`mkfs`, and every block it takes is read before the next one is taken, so block numbers stay below `FSSIZE`.
Nothing stops the inode numbers: with more than `NINODES - 2` files they pass `sb.ninodes`, and with more than
there is room for in the inode area the inodes are written over the free map and the data.
-/

namespace Xv6.Mkfs

open Fs
open Hoare (Triple)
open Sys (DIRENT)

/-- The image keeps its size. The first `n` inode numbers have been handed out, and the inodes below `m` have been
written. Block `x` may be the first one past the image. -/
structure Within (x n m : Nat) (s : State) : Prop where
  len : s.len = FSSIZE
  freeblock : s.freeblock ≤ FSSIZE ∨ s.freeblock = FSSIZE + 1 ∧ x = FSSIZE
  freeinode : s.freeinode = n
  blocks : ∀ b, .block b ∈ s.trace → b < s.freeblock
  inodes : ∀ i, .inode i ∈ s.trace ↔ 1 ≤ i ∧ i < n
  winodes : ∀ bn, .winode bn ∈ s.trace → ∃ i, i < n ∧ bn = sb.iblock i
  wrote : ∀ i, 1 ≤ i → i < m → .winode (sb.iblock i) ∈ s.trace

variable {x y n m i : Nat} {s : State} {d : Block} {din : Dinode}

theorem Within.any (h : Within 0 n m s) (x : Nat) : Within x n m s :=
  { h with freeblock := .inl (h.freeblock.resolve_right fun hc => absurd hc.2 (by decide)) }

/-- Where mkfs may stop, nothing is said. -/
abbrev Anywhere (_ : Stop) (_ : State) : Prop := True

theorem assert_within {p : Prop} [Decidable p] : Triple (Within x n m) (assert p) (fun _ => Within x n m) Anywhere := by
  unfold assert
  exact .ite (fun _ => .pure fun _ hs => hs) fun _ _ _ => trivial

theorem rsect_within : Triple (Within x n m) (rsect x) (fun _ s => sector x < FSSIZE ∧ Within 0 n m s) Anywhere := by
  intro s hs
  unfold rsect
  split_ifs with hlt
  · rw [hs.len] at hlt
    refine ⟨hlt, { hs with freeblock := .inl (hs.freeblock.resolve_right fun hc => ?_) }⟩
    rw [hc.2, sector_eq (Nat.le_refl _)] at hlt
    exact Nat.lt_irrefl _ hlt
  · trivial

theorem wsect_within (hx : sector x < FSSIZE) : Triple (Within y n m) (wsect x d) (fun _ => Within y n m) Anywhere :=
  fun s hs => { hs with len := by dsimp only; rw [hs.len]; exact Nat.max_eq_left hx }

theorem freshBlock_within : Triple (Within 0 n m) freshBlock (fun b => Within b n m) Anywhere := by
  intro s hs
  have hfb := hs.freeblock.resolve_right fun hc => absurd hc.2 (by decide)
  refine { hs with freeblock := ?_, blocks := fun b hb => ?_, inodes := fun i => ?_, winodes := fun bn hbn => ?_,
                   wrote := fun i h1 hi => List.mem_append_left _ (hs.wrote i h1 hi) }
  · dsimp only
    omega
  · rcases List.mem_append.mp hb with hb | hb
    · exact Nat.lt_succ_of_lt (hs.blocks b hb)
    · obtain rfl : b = s.freeblock := by simpa using hb
      exact Nat.lt_succ_self _
  · rw [← hs.inodes i]
    simp
  · exact hs.winodes bn (by simpa using hbn)

theorem freshInode_within (hn : 1 ≤ n) :
    Triple (Within 0 n m) freshInode (fun i s => i = n ∧ Within 0 (n + 1) m s) Anywhere := by
  intro s hs
  refine ⟨hs.freeinode, { hs with
    freeinode := by dsimp only; rw [hs.freeinode]
    blocks := fun b hb => ?_
    inodes := fun i => ?_
    winodes := fun bn hbn => ?_
    wrote := fun i h1 hi => List.mem_append_left _ (hs.wrote i h1 hi) }⟩
  · exact hs.blocks b (by simpa using hb)
  · rw [List.mem_append, hs.inodes i, List.mem_singleton, Event.inode.injEq, hs.freeinode]
    omega
  · obtain ⟨i, hi, rfl⟩ := hs.winodes bn (by simpa using hbn)
    exact ⟨i, Nat.lt_succ_of_lt hi, rfl⟩

theorem record_winode (hi : i < n) :
    Triple (Within 0 n m) (record (.winode (sb.iblock i))) (fun _ => Within 0 n (if i = m then m + 1 else m))
    Anywhere := by
  intro s hs
  refine { hs with
    blocks := fun b hb => hs.blocks b (by simpa using hb)
    inodes := fun j => ?_
    winodes := fun bn hbn => ?_
    wrote := fun j h1 hj => ?_ }
  · rw [← hs.inodes j]
    simp
  · rcases List.mem_append.mp hbn with hbn | hbn
    · exact hs.winodes bn hbn
    · exact ⟨i, hi, by simpa using hbn⟩
  · rw [List.mem_append, List.mem_singleton]
    by_cases hjm : j < m
    · exact .inl (hs.wrote j h1 hjm)
    · split_ifs at hj with him
      · obtain rfl : j = i := by omega
        exact .inr rfl
      · exact absurd hj hjm

theorem winode_within (hi : i < n) :
    Triple (Within 0 n m) (winode i din) (fun _ => Within 0 n (if i = m then m + 1 else m)) Anywhere :=
  Triple.bind_fact ((rsect_within).pre fun _ hs => hs.any _) fun _ hx => .bind (wsect_within hx) fun _ =>
  record_winode hi

theorem winode_again (hi : i < m) (hn : m ≤ n) :
    Triple (Within 0 n m) (winode i din) (fun _ => Within 0 n m) Anywhere := by
  refine (winode_within (show i < n by omega)).post fun _ s hs => ?_
  rwa [if_neg (by omega)] at hs

theorem rinode_within : Triple (Within 0 n m) (rinode i) (fun _ => Within 0 n m) Anywhere :=
  Triple.bind ((rsect_within).imp (fun _ hs => hs.any _) (fun _ _ hs => hs.2) fun _ _ he => he) fun _ =>
    Triple.pure fun _ hs => hs

theorem ialloc_within {type : BitVec 16} (hn : 1 ≤ n) :
    Triple (Within 0 n n) (ialloc type) (fun i s => i = n ∧ Within 0 (n + 1) (n + 1) s) Anywhere := by
  refine .bind_fact (freshInode_within hn) fun i hi => ?_
  subst hi
  refine .bind (winode_within (Nat.lt_succ_self i)) fun _ => .pure fun _ hs => ⟨rfl, ?_⟩
  rwa [if_pos rfl] at hs

/-! ## Appending -/

theorem toNat_pending (h : s.freeblock ≤ FSSIZE ∨ s.freeblock = FSSIZE + 1 ∧ x = FSSIZE) :
    s.freeblock ≤ FSSIZE ∨ s.freeblock = FSSIZE + 1 ∧ (BitVec.ofNat 32 x).toNat = FSSIZE :=
  h.imp_right fun hc => ⟨hc.1, by rw [hc.2]; decide⟩

theorem withIndirect_within :
    Triple (Within 0 n m) (withIndirect din) (fun y => Within (y.addr NDIRECT) n m) Anywhere := by
  refine .ite (fun _ => ?_) fun _ => .pure fun _ hs => hs.any _
  refine .bind freshBlock_within fun b => .pure fun s hs => { hs with freeblock := ?_ }
  rw [show Dinode.addr _ NDIRECT = _ from Dinode.addr_setAddr_self]
  exact toNat_pending hs.freeblock

theorem blockFor_within (bn : Nat) : Triple (Within 0 n m) (blockFor din bn) (fun r => Within r.2 n m) Anywhere := by
  unfold blockFor
  split_ifs with hd h0
  · exact .bind freshBlock_within fun b => .pure fun _ hs => hs
  · exact .pure fun _ hs => hs.any _
  · refine .bind withIndirect_within fun y => .bind_fact rsect_within fun ind hy => ?_
    refine .ite (fun _ => ?_) fun _ => .pure fun _ hs => hs.any _
    exact .bind freshBlock_within fun b => .bind (wsect_within hy) fun _ => .pure fun _ hs => hs

theorem iappendLoop_within (k : Nat) : ∀ (din : Dinode) (off : Nat) (p : List (BitVec 8)),
    Triple (Within 0 n m) (iappendLoop k din off p) (fun _ => Within 0 n m) Anywhere := by
  induction k with
  | zero => exact fun _ _ _ => .pure fun _ hs => hs
  | succ k ih =>
    intro din off p
    refine .ite (fun _ => ?_) fun _ => .pure fun _ hs => hs
    refine .bind assert_within fun _ => .bind (blockFor_within _) fun r => ?_
    exact .bind_fact rsect_within fun _ hx => .bind (wsect_within hx) fun _ => ih _ _ _

theorem iappend_within {p : List (BitVec 8)} (hi : i < n) :
    Triple (Within 0 n n) (iappend i p) (fun _ => Within 0 n n) Anywhere :=
  Triple.bind rinode_within fun _ => .bind (iappendLoop_within _ _ _ _) fun _ => winode_again hi (Nat.le_refl n)

/-! ## The whole run -/

theorem appendAll_within (hi : i < n) (cs : List (List (BitVec 8))) :
    Triple (Within 0 n n) (appendAll i cs) (fun _ => Within 0 n n) Anywhere := by
  induction cs with
  | nil => exact .pure fun _ hs => hs
  | cons c cs ih => exact .bind (iappend_within hi) fun _ => ih

theorem addFile_within (hn : 2 ≤ n) (f : Input) :
    Triple (Within 0 n n) (addFile ROOTINO f) (fun _ => Within 0 (n + 1) (n + 1)) Anywhere := by
  have hroot : ROOTINO < n + 1 := by unfold ROOTINO; omega
  refine .bind assert_within fun _ => ?_
  cases f.chunks with
  | none => exact fun _ _ => trivial
  | some cs =>
    refine .bind_fact (ialloc_within (by omega)) fun i hi => ?_
    exact .bind (iappend_within hroot) fun _ => appendAll_within (by omega) cs

theorem addFiles_within (fs : List Input) : ∀ {n : Nat}, 2 ≤ n →
    Triple (Within 0 n n) (addFiles ROOTINO fs) (fun _ => Within 0 (n + fs.length) (n + fs.length)) Anywhere := by
  induction fs with
  | nil => exact fun _ => .pure fun _ hs => hs
  | cons f fs ih =>
    intro n hn
    rw [show n + (f :: fs).length = n + 1 + fs.length by rw [List.length_cons]; omega]
    exact .bind (addFile_within hn f) fun _ => ih (by omega)

theorem main_within (args : List Input) :
    Triple (fun s => s = {}) (main args) (fun _ => Within 0 (args.length + 2) (args.length + 2)) Anywhere := by
  refine .bind (Q := fun _ s => s = { freeblock := nmeta }) (fun s hs => by rw [hs]; exact rfl) fun _ => ?_
  refine .bind zeroSectors_like fun _ => ?_
  have hone : sector 1 < FSSIZE := by rw [sector_eq] <;> decide
  have hmap : sector sb.bmapstart < FSSIZE := by rw [sector_eq] <;> decide
  refine .bind (Q := fun _ => Within 0 1 1) ?_ fun _ => ?_
  · rintro s rfl
    refine wsect_within hone _ ⟨rfl, .inl (show nmeta ≤ FSSIZE by decide), rfl, ?_, ?_, ?_, fun i h1 hi => by omega⟩
    · exact fun b hb => nomatch hb
    · exact fun i => ⟨fun hi => absurd hi List.not_mem_nil, fun hi => by omega⟩
    · exact fun bn hbn => nomatch hbn
  refine .bind_fact (ialloc_within (Nat.le_refl 1)) fun i hi => ?_
  subst hi
  refine .bind assert_within fun _ => .bind (iappend_within (by decide)) fun _ =>
    Triple.bind (iappend_within (by decide)) fun _ => .bind (addFiles_within args (by decide)) fun _ => ?_
  rw [show 1 + 1 + args.length = args.length + 2 by omega]
  refine .bind (.bind rinode_within fun _ => winode_again (by omega) (Nat.le_refl _)) fun _ => ?_
  refine .bind (Q := fun _ => Within 0 (args.length + 2) (args.length + 2)) (fun _ hs => hs) fun _ => ?_
  exact .bind assert_within fun _ => wsect_within hmap

/-- The inodes have been written where the kernel looks for inodes. -/
def InodesInside (t : List Event) : Prop := ∀ bn, .winode bn ∈ t → sb.inodestart ≤ bn ∧ bn < sb.bmapstart

/-- All that has been handed out lies in the image that the superblock describes. -/
structure StaysInside (t : List Event) : Prop where
  blocks : ∀ b, .block b ∈ t → b < sb.size
  inodes : ∀ i, .inode i ∈ t → i < sb.ninodes
  winodes : InodesInside t

theorem Within.inodesInside {k : Nat} (h : Within 0 (k + 2) (k + 2) s) :
    InodesInside s.trace ↔ k + 2 ≤ area.ninodes := by
  constructor
  · intro hall
    by_contra hlt
    have := (hall _ (h.wrote 208 (by decide) (by change ¬ k + 2 ≤ 208 at hlt; omega))).2
    exact absurd this (by decide)
  · intro hk bn hbn
    obtain ⟨i, hi, rfl⟩ := h.winodes bn hbn
    exact ⟨Nat.le_add_left _ _, area.iblock_lt (show i < area.ninodes by omega)⟩

/-- A run of `mkfs` that comes to its end stays inside the image exactly if it is given at most `NINODES - 2` files. -/
theorem mkfs_stays_inside (args : List Input) (t : State) (h : main args {} = .ok () t) :
    StaysInside t.trace ↔ args.length ≤ NINODES - 2 := by
  have hw := (main_within args).of_ok rfl h
  have hN : sb.ninodes = NINODES := rfl
  have hlt : NINODES < area.ninodes := by decide
  have htwo : 2 ≤ NINODES := by decide
  constructor
  · intro hin
    have := hin.inodes (args.length + 1) ((hw.inodes _).mpr ⟨by omega, by omega⟩)
    omega
  · intro hlen
    refine ⟨fun b hb => ?_, fun i hi => ?_, hw.inodesInside.mpr (by omega)⟩
    · have hfb := hw.freeblock.resolve_right fun hc => absurd hc.2 (by decide)
      exact (hw.blocks b hb).trans_le hfb
    · have := ((hw.inodes i).mp hi).2
      omega

/-- A file with no bytes. -/
def emptyFile : Input where
  path := [97]
  nonzero := by decide
  chunks := some []
  sizes := sizes_nil

theorem fits_emptyFiles {k : Nat} (hk : k + 2 ≤ area.ninodes) : Fits (List.replicate k emptyFile) where
  good f hf := by
    rw [List.eq_of_mem_replicate hf]
    exact ⟨by decide, by decide, by decide⟩
  room := by
    have hmono := blocks_mono (show DIRENT * (k + 2) ≤ DIRENT * area.ninodes from Nat.mul_le_mul_left _ hk)
    have hall : nmeta + blocks (DIRENT * area.ninodes) = 50 := by rfl
    have hF : FSSIZE = 1000 := rfl
    rw [List.length_replicate, List.map_replicate, List.sum_replicate_nat,
      show blocks emptyFile.data.length = 0 from rfl]
    omega

theorem emptyFiles_run {k : Nat} (hk : k + 2 ≤ area.ninodes) :
    ∃ t, main (List.replicate k emptyFile) {} = .ok () t ∧ Written (List.replicate k emptyFile) t.img := by
  obtain ⟨_, t, ht, hw⟩ := (main_spec (by rwa [List.length_replicate])).exists_ok rfl fun _ _ hno =>
    hno (fits_emptyFiles hk)
  exact ⟨t, ht, hw.2⟩

theorem mkfs_stays_inside_two : ∃ t, main (List.replicate 2 emptyFile) {} = .ok () t ∧ StaysInside t.trace := by
  obtain ⟨t, ht, -⟩ := emptyFiles_run (k := 2) (by decide)
  exact ⟨t, ht, (mkfs_stays_inside _ t ht).mpr (by rw [List.length_replicate]; decide)⟩

/-- The last of 199 files gets inode number 200. -/
theorem mkfs_too_many_files : ∃ t, main (List.replicate 199 emptyFile) {} = .ok () t ∧
    .inode 200 ∈ t.trace ∧ ¬ StaysInside t.trace := by
  obtain ⟨t, ht, -⟩ := emptyFiles_run (k := 199) (by decide)
  have hw := (main_within _).of_ok rfl ht
  rw [List.length_replicate] at hw
  have hlast := (hw.inodes 200).mpr (by decide)
  exact ⟨t, ht, hlast, fun hin => absurd (hin.inodes 200 hlast) (by decide)⟩

end Xv6.Mkfs

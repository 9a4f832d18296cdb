import Mathlib.Data.Finset.Card
import Xv6.Ftable.Report

/-!
# The blocks a write logs

An operation may log `MAXOPBLOCKS` blocks. A call of `writei` logs the data blocks it writes, for each block
it allocates a block of the bitmap, the indirect block and the block of the inode.
-/

namespace Xv6.Fs

open Function (update update_self)
open Hoare

variable {g : Geometry} {ip : Fin NINODE} {i b : Nat} {ino ino' ino₁ : Nat → Dinode} {v w v' w' v₁ w₁ : Blocks}
  {c : Icache} {E : Panic → State → Prop} {L : List Nat} {S T : Finset Nat}
variable {s : State} {x y K : Nat} {I : Finset Nat}

/-- The blocks logged since the list was `L` are in `S`. -/
def Logs (L : List Nat) (S : Finset Nat) (s : State) : Prop := ∃ l, s.logged = l ++ L ∧ l.toFinset ⊆ S

/-- The inode cache is `c`, and the blocks logged since the list was `L` are in `S`. -/
def LogsAt (c : Icache) (L : List Nat) (S : Finset Nat) (s : State) : Prop := s.icache = c ∧ Logs L S s

theorem Logs.mono (h : Logs L S s) (hST : S ⊆ T) : Logs L T s := by
  obtain ⟨l, hl, hsub⟩ := h
  exact ⟨l, hl, hsub.trans hST⟩

theorem bread_logs (b : Nat) : Triple (LogsAt c L S) (bread b) (fun _ => LogsAt c L S) E := by
  intro s hs
  unfold bread
  split
  · split
    · exact hs
    · exact hs
  · exact hs
  · exact hs

theorem modifyData_logs (f : Block → Block) : Triple (LogsAt c L S) (modifyData b f) (fun _ => LogsAt c L S) E :=
  fun _ hs => hs

theorem modifyInode_logs (f : Inode → Inode) : Triple (LogsAt c L S) (modifyInode ip f)
    (fun _ => LogsAt (update c ip (f (c ip))) L S) E := by
  rintro s ⟨rfl, hs⟩
  exact ⟨rfl, hs⟩

theorem getInode_logs : Triple (LogsAt c L S) (getInode ip) (fun x s => x = c ip ∧ LogsAt c L S s) E := by
  rintro s ⟨rfl, hs⟩
  exact ⟨rfl, rfl, hs⟩

theorem logWrite_logs : Triple (LogsAt c L S) (logWrite b) (fun _ => LogsAt c L (insert b S)) E := by
  rintro s ⟨hc, l, hl, hsub⟩
  refine ⟨hc, b :: l, congrArg (b :: ·) hl, ?_⟩
  rw [List.toFinset_cons]
  exact Finset.insert_subset_insert b hsub

theorem bzero_logs (b : Nat) : Triple (LogsAt c L S) (bzero b) (fun _ => LogsAt c L (insert b S)) E :=
  Triple.bind (bread_logs b) fun _ => .bind (modifyData_logs _) fun _ => logWrite_logs

theorem ballocLoop_logs (k : Nat) : ∀ b, Triple (LogsAt c L S) (ballocLoop g k b)
    (fun a s => a < g.size ∧ ∃ bb, LogsAt c L (insert a (insert bb S)) s) (fun _ => LogsAt c L S) := by
  induction k with
  | zero => exact fun b s hs => hs
  | succ k ih =>
    intro b
    rw [ballocLoop]
    refine .ite (fun _ => .bind (bread_logs _) fun d => ?_) fun _ s hs => hs
    split
    · next bi hbi =>
      refine .bind (modifyData_logs _) fun _ => .bind logWrite_logs fun _ => ?_
      refine .bind (bzero_logs _) fun _ => .pure fun s hs => ⟨?_, _, hs⟩
      exact (firstFree_some BPB hbi).2.2.1
    · exact ih _

/-! ## `bmap` -/

theorem mapAddr_logs (k : Fin (NDIRECT + 1)) : Triple (LogsAt c L S) (mapAddr g ip k)
    (fun a s => ((c ip).d.addrs k ≠ 0 ∧ a = (c ip).d.addr k) ∧ LogsAt c L S s ∨
      ((c ip).d.addrs k = 0 ∧ a < g.size) ∧ ∃ bb, LogsAt (setD c ip ((c ip).d.setAddr k (BitVec.ofNat 32 a))) L
        (insert a (insert bb S)) s) fun _ => LogsAt c L S := by
  refine .read getInode_logs ?_
  refine .ite (fun h0 => ?_) fun h0 => .pure fun s hs => .inl ⟨⟨h0, ((c ip).d.addr_val k).symm⟩, hs⟩
  refine .bind_fact (ballocLoop_logs _ _) fun a ha => .exists fun bb => ?_
  exact .bind (modifyInode_logs _) fun _ => .pure fun s hs => .inr ⟨⟨h0, ha⟩, bb, hs⟩

/-- The indirect block of an inode is `x` before and `y` after a call that logs the blocks `I` for it. -/
structure Ind (x y : Nat) (I : Finset Nat) : Prop where
  same : x ≠ 0 → y = x ∧ I ⊆ {x}
  new : ∃ bb, I ⊆ {bb, y}

theorem ind_refl (x : Nat) : Ind x x ∅ := ⟨fun _ => ⟨rfl, Finset.empty_subset _⟩, 0, Finset.empty_subset _⟩

theorem Ind.card_le (h : Ind x y I) : I.card ≤ 2 := by
  obtain ⟨bb, hI⟩ := h.new
  exact (Finset.card_le_card hI).trans Finset.card_le_two

theorem Ind.insert (h : Ind x y I) : Ind x y (insert y I) := by
  refine ⟨fun hx => ?_, ?_⟩
  · obtain ⟨rfl, hI⟩ := h.same hx
    exact ⟨rfl, Finset.insert_subset (Finset.mem_singleton_self y) hI⟩
  · obtain ⟨bb, hI⟩ := h.new
    exact ⟨bb, Finset.insert_subset (by simp) hI⟩

theorem Ind.trans {z : Nat} {J : Finset Nat} (h : Ind x y I) (hnone : y = 0 → I = ∅) (h' : Ind y z J) :
    Ind x z (I ∪ J) := by
  by_cases hy : y = 0
  · have hx : x = 0 := by
      by_contra hx
      exact hx ((h.same hx).1.symm.trans hy)
    rw [hnone hy, Finset.empty_union]
    exact ⟨fun hx' => absurd hx hx', h'.new⟩
  · obtain ⟨rfl, hJ⟩ := h'.same hy
    refine ⟨fun hx => ?_, ?_⟩
    · obtain ⟨rfl, hI⟩ := h.same hx
      exact ⟨rfl, Finset.union_subset hI hJ⟩
    · obtain ⟨bb, hI⟩ := h.new
      exact ⟨bb, Finset.union_subset hI (hJ.trans (by simp))⟩

theorem mapInd_logs : Triple (LogsAt c L S) (mapAddr g ip (Fin.last NDIRECT))
    (fun a s => ∃ I c', (Ind ((c ip).d.addr NDIRECT) a I ∧ (c' ip).d.addr NDIRECT = a) ∧ LogsAt c' L (S ∪ I) s)
    fun _ => LogsAt c L S := by
  refine (mapAddr_logs _).post fun a s hs => ?_
  rcases hs with ⟨⟨-, rfl⟩, hs⟩ | ⟨⟨h0, ha⟩, bb, hs⟩
  · exact ⟨∅, c, ⟨ind_refl _, rfl⟩, by rwa [Finset.union_empty]⟩
  · refine ⟨{bb, a}, _, ⟨⟨fun hx => ?_, bb, Finset.Subset.refl _⟩, ?_⟩, hs.1, hs.2.mono ?_⟩
    · exact absurd (Dinode.addr_eq_zero.mpr h0) hx
    · rw [setD_self]
      exact Dinode.addr_setAddr_self.trans (toNat_of_lt_size ha)
    · intro t ht
      simp only [Finset.mem_insert, Finset.mem_union, Finset.mem_singleton] at ht ⊢
      tauto

theorem bmap_logs (bn : Nat) : Triple (LogsAt c L S) (bmap g ip bn)
    (fun a s => ∃ bb I, Logs L (insert a (insert bb (S ∪ I))) s ∧
      Ind ((c ip).d.addr NDIRECT) ((s.icache ip).d.addr NDIRECT) I ∧ (bn < NDIRECT → I = ∅))
    fun _ s => ∃ I y, Logs L (S ∪ I) s ∧ Ind ((c ip).d.addr NDIRECT) y I := by
  unfold bmap
  have hfail : ∀ s, LogsAt c L S s → ∃ I y, Logs L (S ∪ I) s ∧ Ind ((c ip).d.addr NDIRECT) y I :=
    fun s hs => ⟨∅, _, by simpa using hs.2, ind_refl _⟩
  split
  · next hd =>
    refine (mapAddr_logs _).imp (fun _ hs => hs) (fun a s hs => ?_) fun _ => hfail
    rcases hs with ⟨-, hs⟩ | ⟨-, bb, hs⟩
    · refine ⟨a, ∅, hs.2.mono (by simp), ?_, fun _ => rfl⟩
      rw [hs.1]
      exact ind_refl _
    · refine ⟨bb, ∅, by simpa using hs.2, ?_, fun _ => rfl⟩
      rw [hs.1, setD_self]
      have haddr : ((c ip).d.setAddr ⟨bn, Nat.lt_succ_of_lt hd⟩ (BitVec.ofNat 32 a)).addr NDIRECT =
        (c ip).d.addr NDIRECT :=
        Dinode.addr_setAddr_of_ne (Nat.ne_of_gt hd)
      rw [haddr]
      exact ind_refl _
  · next hd =>
    refine .ite (fun _ => ?_) fun _ => hfail
    refine .bind_exists₂ (mapInd_logs.err fun _ => hfail) fun ind I c' hind => ?_
    obtain ⟨hI, rfl⟩ := hind
    refine .bind (bread_logs _) fun a => .ite (fun _ => ?_) fun _ => .pure fun s hs => ?_
    · refine .bind ((ballocLoop_logs _ _).err fun _ s hs => ⟨I, _, hs.2, hI⟩) fun addr => ?_
      refine .of_fact fun _ => .exists fun bb => ?_
      refine .bind (modifyData_logs _) fun _ => .bind logWrite_logs fun _ => .pure fun s hs => ?_
      refine ⟨bb, insert ((c' ip).d.addr NDIRECT) I, hs.2.mono ?_, ?_, fun h => absurd h hd⟩
      · intro t ht
        simp only [Finset.mem_insert, Finset.mem_union] at ht ⊢
        tauto
      · rw [hs.1]
        exact hI.insert
    · refine ⟨0, I, hs.2.mono ?_, by rwa [hs.1], fun h => absurd h hd⟩
      exact (Finset.subset_insert _ _).trans (Finset.subset_insert _ _)

theorem lookupBlock_logs (bn : Nat) :
    Triple (LogsAt c L S) (lookupBlock ip bn) (fun _ => LogsAt c L S) fun _ _ => True := by
  have haddr : ∀ k, Triple (LogsAt c L S) (lookupAddr ip k) (fun _ => LogsAt c L S) fun _ _ => True := by
    intro k
    refine .bind_fact getInode_logs fun x _ => ?_
    exact .ite (fun _ _ _ => trivial) fun _ => .pure fun _ hs => hs
  unfold lookupBlock
  split
  · exact haddr _
  · refine .ite (fun _ => ?_) fun _ _ _ => trivial
    refine .bind (haddr _) fun ind => .bind (bread_logs _) fun a => ?_
    exact .ite (fun _ _ _ => trivial) fun _ => .pure fun _ hs => hs

theorem both {α : Type} {x : FsM α} {Q Q' : α → State → Prop} {E' : Panic → State → Prop} (h : Triple (Is v w c) x Q E)
    (h' : Triple (LogsAt c L S) x Q' E') :
    Triple (fun s => Is v w c s ∧ Logs L S s) x (fun a s => Q a s ∧ Q' a s) fun e s => E e s ∧ E' e s :=
  (h.and h').pre fun _ hs => ⟨hs.1, hs.1.icache, hs.2⟩

/-- The block at index `bn` is not there yet. -/
def new (x : Dinode) (v : Blocks) (bn : Nat) : Nat := if leafAddr x v bn = 0 then 1 else 0

theorem Busy.bmap_footprint {bn : Nat} (h : Busy g ip i ino v w c) (hbn : bn < MAXFILE) :
    Triple (fun s => Is v w c s ∧ Logs L S s) (bmap g ip bn)
      (fun a s => ∃ ino' v' w' B I, (Busy g ip i ino' v' w' (setD c ip (ino' i)) ∧ Mapped g i bn a ino v ino' v' ∧
        B.card ≤ new (ino i) v bn ∧ Ind ((ino i).addr NDIRECT) ((ino' i).addr NDIRECT) I ∧
        ((ino' i).addr NDIRECT = 0 → I = ∅)) ∧ Is v' w' (setD c ip (ino' i)) s ∧ Logs L (insert a (S ∪ B ∪ I)) s)
      fun _ s => ∃ I y, Logs L (S ∪ I) s ∧ Ind ((ino i).addr NDIRECT) y I := by
  by_cases h0 : leafAddr (ino i) v bn = 0
  · refine (both (bmap_spec h hbn) (bmap_logs bn)).imp (fun _ hs => hs) ?_ fun _ s he => by rw [← h.core]; exact he.2
    rintro a s ⟨⟨ino', v', w', ⟨hb, hm, -⟩, hs⟩, bb, I, hlogs, hind, hdirect⟩
    rw [h.core, hs.icache, setD_self] at hind
    refine ⟨ino', v', w', {bb}, I, ⟨hb, hm, by rw [new, if_pos h0]; exact Nat.le_refl _, hind, fun hz => ?_⟩, hs,
      hlogs.mono ?_⟩
    · refine hdirect ?_
      by_contra hge
      have hleaf := hm.addr
      rw [leafAddr, if_neg hge, if_neg (fun hc => hc.2 hz)] at hleaf
      exact hm.pos hleaf.symm
    · intro t ht
      simp only [Finset.mem_insert, Finset.mem_union, Finset.mem_singleton] at ht ⊢
      tauto
  · have hlook := both (h.lookupBlock_spec h0 (E := fun _ _ => False)) (lookupBlock_logs (L := L) (S := S) bn)
    refine ((hlook.err fun _ _ he => he.1).of_agrees (lookupBlock_agrees bn)).post ?_
    rintro a s ⟨⟨rfl, hs⟩, -, hlogs⟩
    have hself := setD_eq_self h.core
    refine ⟨ino, v, w, ∅, ∅, ⟨by rwa [hself], mapped_refl h0, Nat.zero_le _, ind_refl _, fun _ => rfl⟩, by rwa [hself],
      hlogs.mono ?_⟩
    exact (by simp : S ⊆ insert _ (S ∪ ∅ ∪ ∅))

/-! ## The loop -/

/-- The number of blocks that bytes `[off, off + n)` of a file are in. -/
def blocks (off n : Nat) : Nat := if n = 0 then 0 else (off % BSIZE + n + (BSIZE - 1)) / BSIZE

/-- How many of the `k` blocks from index `bn` on are not there yet. -/
def newBlocks (x : Dinode) (v : Blocks) : Nat → Nat → Nat
  | _, 0 => 0
  | bn, k + 1 => new x v bn + newBlocks x v (bn + 1) k

/-- At most `K` blocks were logged, apart from those for the indirect block, which was `x` before. -/
def Within (x K : Nat) (L : List Nat) (S : Finset Nat) (s : State) : Prop :=
  ∃ D I y, Logs L (S ∪ D ∪ I) s ∧ D.card ≤ K ∧ Ind x y I

theorem within_of_logs (h : Logs L S s) : Within x K L S s :=
  ⟨∅, ∅, x, by simpa using h, Nat.zero_le _, ind_refl x⟩

theorem Within.mono {K' : Nat} (h : Within x K L S s) (hK : K ≤ K') : Within x K' L S s := by
  obtain ⟨D, I, y, hlogs, hD, hI⟩ := h
  exact ⟨D, I, y, hlogs, hD.trans hK, hI⟩

theorem Within.step {a k : Nat} {B : Finset Nat} (hB : B.card ≤ k) (hI : Ind x y I)
    (hnone : y = 0 → I = ∅) (h : Within y K L (insert a (S ∪ B ∪ I)) s) : Within x (1 + k + K) L S s := by
  obtain ⟨D, J, z, hlogs, hD, hJ⟩ := h
  refine ⟨insert a (B ∪ D), I ∪ J, z, hlogs.mono ?_, ?_, hI.trans hnone hJ⟩
  · intro t ht
    simp only [Finset.mem_insert, Finset.mem_union] at ht ⊢
    tauto
  · calc (insert a (B ∪ D)).card ≤ (B ∪ D).card + 1 := Finset.card_insert_le _ _
      _ ≤ B.card + D.card + 1 := Nat.add_le_add_right (Finset.card_union_le _ _) 1
      _ ≤ 1 + k + K := by omega

theorem newBlocks_congr {x y : Dinode} (k : Nat) : ∀ bn, (∀ m, bn ≤ m → (leafAddr y v' m = 0 ↔ leafAddr x v m = 0)) →
    newBlocks y v' bn k = newBlocks x v bn k := by
  induction k with
  | zero => exact fun _ _ => rfl
  | succ k ih =>
    intro bn h
    rw [newBlocks, newBlocks, ih (bn + 1) fun m hm => h m (by omega), new, new]
    exact congrArg (· + _) (if_congr (h bn (Nat.le_refl _)) rfl rfl)

theorem blocks_step {off n m : Nat} (hn : 0 < n) (hm : m = min n (BSIZE - off % BSIZE)) :
    blocks off n = blocks (off + m) (n - m) + 1 ∧ (0 < n - m → (off + m) / BSIZE = off / BSIZE + 1) := by
  have hB : BSIZE = 1024 := rfl
  unfold blocks
  rw [hB] at hm ⊢
  rw [if_neg (by omega)]
  constructor
  · split
    · omega
    · omega
  · omega

theorem Busy.bread_footprint {m : Nat} (h : Busy g ip i ino v w c) (ha : leafAddr (ino i) v m ≠ 0) :
    Triple (fun s => Is v w c s ∧ Logs L S s) (bread (leafAddr (ino i) v m))
      (fun _ s => ∃ v', (Busy g ip i ino v' w c ∧ ∀ m', leafAddr (ino i) v' m' = leafAddr (ino i) v m') ∧
        Is v' w c s ∧ Logs L S s) E := by
  refine (both (h.bread_leaf (E := fun _ _ => False) ha) (bread_logs (E := fun _ _ => False) _)).imp (fun _ hs => hs) ?_
    fun _ _ he => he.1.elim
  rintro d s ⟨⟨v', ⟨hb, -, hsame, -⟩, hs⟩, -, hlogs⟩
  exact ⟨v', ⟨hb, fun m' => hsame i m' h.lt⟩, hs, hlogs⟩

theorem modifyData_footprint (f : Block → Block) : Triple (fun s => Is v w c s ∧ Logs L S s) (modifyData b f)
    (fun _ s => Is (update v b (f (v b))) w c s ∧ Logs L S s) E :=
  fun s hs => ⟨modifyData_spec (E := E) f s hs.1, hs.2⟩

theorem logWrite_footprint (hb : b ∈ S) : Triple (fun s => Is v w c s ∧ Logs L S s) (logWrite b)
    (fun _ s => Is v (update w b (v b)) c s ∧ Logs L S s) E := by
  intro s hs
  have hlogs := logWrite_logs (b := b) (E := E) s ⟨rfl, hs.2⟩
  rw [Finset.insert_eq_of_mem hb] at hlogs
  exact ⟨logWrite_spec (E := E) s hs.1, hlogs.2⟩

theorem writeLoop_footprint (mem : Memory) (src n k : Nat) : ∀ {ino : Nat → Dinode} {v w : Blocks}
    {c : Icache} {S : Finset Nat} (tot off : Nat), off + (n - tot) ≤ MAXFILE * BSIZE → Busy g ip i ino v w c →
    Triple (fun s => Is v w c s ∧ Logs L S s) (writeLoop g ip mem src n k tot off)
      (fun _ => Within ((ino i).addr NDIRECT)
        (blocks off (n - tot) + newBlocks (ino i) v (off / BSIZE) (blocks off (n - tot))) L S)
      fun _ => Within ((ino i).addr NDIRECT)
        (blocks off (n - tot) + newBlocks (ino i) v (off / BSIZE) (blocks off (n - tot))) L S := by
  induction k with
  | zero => exact fun tot off _ h => .pure fun s hs => within_of_logs hs.2
  | succ k ih =>
    intro ino v w c S tot off hmax h
    rw [writeLoop]
    refine .ite (fun hlt => ?_) fun _ => .pure fun s hs => within_of_logs hs.2
    obtain ⟨m, hm⟩ : ∃ m, m = min (n - tot) (BSIZE - off % BSIZE) := ⟨_, rfl⟩
    have hmod : off % BSIZE < BSIZE := Nat.mod_lt _ (by decide)
    have hbn := block_lt hlt hmax
    obtain ⟨hblocks, hnext⟩ := blocks_step (show 0 < n - tot by omega) hm
    rw [hblocks, newBlocks]
    refine .bind ((h.bmap_footprint hbn).err ?_) fun a => .exists fun ino₁ => .exists fun v₁ =>
      Triple.exists fun w₁ => .exists fun B => .exists fun I => .of_fact fun hmap => ?_
    · rintro e s ⟨I, y, hlogs, hI⟩
      exact ⟨∅, I, y, by simpa using hlogs, Nat.zero_le _, hI⟩
    obtain ⟨hb₁, hmapped, hB, hI, hnone⟩ := hmap
    obtain ⟨rfl, hpos⟩ : leafAddr (ino₁ i) v₁ (off / BSIZE) = a ∧ a ≠ 0 := ⟨hmapped.addr, hmapped.pos⟩
    refine .bind_exists (hb₁.bread_footprint hpos) fun d v₂ hread => ?_
    obtain ⟨hb₂, hsame⟩ := hread
    rw [← hsame] at hpos ⊢
    simp only [← hm]
    obtain ⟨d', hd'⟩ : ∃ d', d' = (mem.eitherCopyin d (off % BSIZE) ((src + tot) % 2 ^ 64) m).1 := ⟨_, rfl⟩
    rw [← hd']
    refine .bind (modifyData_footprint _) fun _ => .ite (fun _ => ?_) fun _ => .pure fun s hs => ?_
    · refine .bind (logWrite_footprint (Finset.mem_insert_self _ _)) fun _ => ?_
      rw [update_self]
      -- the blocks after this one are there if they were there before
      have hlater : newBlocks (ino₁ i) (update v₂ (leafAddr (ino₁ i) v₂ (off / BSIZE)) d') ((off + m) / BSIZE)
          (blocks (off + m) (n - tot - m)) = newBlocks (ino i) v (off / BSIZE + 1)
          (blocks (off + m) (n - tot - m)) := by
        by_cases hrest : 0 < n - tot - m
        · rw [hnext hrest]
          refine newBlocks_congr _ _ fun j hj => ?_
          rw [hb₂.leafAddr_write h.lt, hsame]
          by_cases h0 : leafAddr (ino i) v j = 0
          · exact iff_of_true (hmapped.holes i j h.lt (.inr (by omega)) h0) h0
          · rw [hmapped.leaves i j h.lt h0]
        · rw [blocks, if_pos (by omega)]
          rfl
      have hrec := ih (S := insert (leafAddr (ino₁ i) v₂ (off / BSIZE)) (S ∪ B ∪ I)) (tot + m) (off + m) (by omega)
        (hb₂.write hpos d')
      rw [show n - (tot + m) = n - tot - m by omega, hlater] at hrec
      refine hrec.imp (fun _ hs => hs) (fun _ s hs => ?_) fun _ s hs => ?_
      · exact (Within.step hB hI hnone hs).mono (by omega)
      · exact (Within.step hB hI hnone hs).mono (by omega)
    · exact (Within.step hB hI hnone (within_of_logs (K := 0) hs.2)).mono (by omega)

/-! ## `writei` -/

theorem writeBack_logs (off : Nat) :
    Triple (Logs L S) (writeBack g ip off) (fun _ s => ∃ b, Logs L (insert b S) s) E := by
  have h : ∀ c, Triple (LogsAt c L S) (writeBack g ip off) (fun _ s => ∃ b, Logs L (insert b S) s) E := by
    intro c
    refine .bind (modifyInode_logs _) fun _ => .bind_fact getInode_logs fun x _ => ?_
    refine .bind (bread_logs _) fun _ => .bind (modifyData_logs _) fun _ => ?_
    exact logWrite_logs.post fun _ s hs => ⟨_, hs.2⟩
  exact fun s hs => h s.icache s ⟨rfl, hs⟩

/-- At most `K` blocks were logged. -/
def AtMost (K : Nat) (L : List Nat) (s : State) : Prop := ∃ T, Logs L T s ∧ T.card ≤ K

theorem AtMost.mono {K' : Nat} (h : AtMost K L s) (hK : K ≤ K') : AtMost K' L s := by
  obtain ⟨T, hT, hcard⟩ := h
  exact ⟨T, hT, hcard.trans hK⟩

theorem Within.atMost (h : Within x K L ∅ s) : AtMost (K + 2) L s := by
  obtain ⟨D, I, y, hlogs, hD, hI⟩ := h
  refine ⟨∅ ∪ D ∪ I, hlogs, ?_⟩
  rw [Finset.empty_union]
  exact (Finset.card_union_le D I).trans (Nat.add_le_add hD hI.card_le)

theorem Busy.writei_footprint {off n : BitVec 32} (h : Busy g ip i ino v w c) (mem : Memory) (src : Nat)
    (hK : Accepts (c ip).d.size off n →
      blocks off.toNat n.toNat + newBlocks (ino i) v (off.toNat / BSIZE) (blocks off.toNat n.toNat) ≤ K) :
    Triple (fun s => Is v w c s ∧ Logs L ∅ s) (writei g ip mem src off n) (fun _ => AtMost (K + 3) L)
      fun _ => AtMost (K + 3) L := by
  refine writei_rule (fun s hs => congrFun hs.1.icache ip) (fun _ s hs => ⟨∅, hs.2, Nat.zero_le _⟩)
    (fun _ _ s hs => ⟨∅, hs.2, Nat.zero_le _⟩) fun hin _ => ?_
  have hloop := writeLoop_footprint (L := L) (S := ∅) mem src n.toNat n.toNat 0 off.toNat (by have := hin.2; omega) h
  rw [Nat.sub_zero] at hloop
  have hle := hK hin
  refine .bind (hloop.imp (fun _ hs => hs) (fun _ _ hs => hs.atMost.mono (Nat.add_le_add_right hle 2))
    fun _ _ hs => hs.atMost.mono (by omega)) fun off' => ?_
  rintro s ⟨T, hT, hcard⟩
  refine ((writeBack_logs off').post ?_) s hT
  rintro _ t ⟨b, hb⟩
  exact ⟨insert b T, hb, (Finset.card_insert_le b T).trans (by omega)⟩

theorem new_le (x : Dinode) (v : Blocks) (bn : Nat) : new x v bn ≤ 1 := by
  unfold new
  split <;> omega

theorem newBlocks_le (x : Dinode) (v : Blocks) (k : Nat) : ∀ bn, newBlocks x v bn k ≤ k := by
  induction k with
  | zero => exact fun _ => Nat.le_refl 0
  | succ k ih =>
    intro bn
    have := new_le x v bn
    have := ih (bn + 1)
    rw [newBlocks]
    omega

end Xv6.Fs

namespace Xv6.Filewrite

open Fs Hoare

theorem chunk_cost {x : Dinode} {v : Blocks} {off n : Nat} (hoff : off ≤ x.size.toNat)
    (hfull : ∀ t, t < x.size.toNat → leafAddr x v (t / BSIZE) ≠ 0) (hn : n ≤ chunkMax) :
    blocks off n + newBlocks x v (off / BSIZE) (blocks off n) ≤ 7 := by
  have hB : BSIZE = 1024 := rfl
  have hM : chunkMax = 3072 := rfl
  have hle := newBlocks_le x v (blocks off n) (off / BSIZE)
  by_cases h0 : off % BSIZE = 0
  · have : blocks off n ≤ 3 := by
      unfold blocks
      rw [hB] at h0 ⊢
      split <;> omega
    omega
  · have hfirst : leafAddr x v (off / BSIZE) ≠ 0 := by
      have := hfull (off - 1) (by rw [hB] at h0; omega)
      rwa [show (off - 1) / BSIZE = off / BSIZE by rw [hB] at h0 ⊢; omega] at this
    have hfour : blocks off n ≤ 4 := by
      have := Nat.mod_lt off (show 0 < BSIZE by decide)
      unfold blocks
      rw [hB] at this ⊢
      split <;> omega
    cases hk : blocks off n with
    | zero => rw [newBlocks]; omega
    | succ k =>
      have hrest := newBlocks_le x v k (off / BSIZE + 1)
      rw [newBlocks, new, if_neg hfirst]
      omega

/-- One call of `writei` by `filewrite` passes at most `MAXOPBLOCKS` different blocks to `log_write`. -/
theorem chunk_fits_reservation (g : Geometry) (ip : Fin NINODE) (s : Fs.State) (h : Ready g ip s)
    (hfull : ∀ t, t < (s.icache ip).d.size.toNat → leafAddr (s.icache ip).d s.buf (t / BSIZE) ≠ 0)
    (mem : Memory) (src : Nat) (off n : BitVec 32) (hn : n.toNat ≤ chunkMax) :
    Outcome (fun _ t => ∃ l, t.logged = l ++ s.logged ∧ l.toFinset.card ≤ MAXOPBLOCKS)
      (fun _ t => ∃ l, t.logged = l ++ s.logged ∧ l.toFinset.card ≤ MAXOPBLOCKS) (writei g ip mem src off n s) := by
  have hbound : ∀ t, AtMost (7 + 3) s.logged t → ∃ l, t.logged = l ++ s.logged ∧ l.toFinset.card ≤ MAXOPBLOCKS := by
    rintro t ⟨T, ⟨l, hl, hsub⟩, hT⟩
    exact ⟨l, hl, (Finset.card_le_card hsub).trans hT⟩
  have hcost : Accepts (s.icache ip).d.size off n → blocks off.toNat n.toNat +
      newBlocks (dinode g s.buf (s.icache ip).inum) s.buf (off.toNat / BSIZE) (blocks off.toNat n.toNat) ≤ 7 := by
    rw [← h.busy.core]
    exact fun hin => chunk_cost hin.1 hfull hn
  exact (h.busy.writei_footprint mem src hcost).imp (fun _ hs => hs) (fun _ => hbound) (fun _ => hbound) s
    ⟨⟨rfl, rfl, rfl⟩, [], rfl, Finset.Subset.refl _⟩

/-- The disk with one data block, which is free, and a file without bytes. -/
def freeImage : Blocks := putInode tiny (fun b j => if b = 5 ∧ j.val = 0 then 63 else 0) 1 noBytes

def freeState : Fs.State :=
  { buf := freeImage, disk := freeImage, icache := fun _ => { inum := 1, ref := 1, valid := true, d := noBytes } }

theorem addrs_freeImage {i : Nat} (hi : i < tiny.ninodes) : (dinode tiny freeImage i).addrs = fun _ => 0 := by
  by_cases h1 : i = 1
  · rw [h1, freeImage, dinode_putInode_self]
    rfl
  · have hblock : ∀ i, i < 3 → tiny.iblock i = 4 := by decide
    rw [freeImage, dinode_putInode_of_ne h1]
    refine funext fun k => Bytes.field_eq_zero fun j _ => ?_
    rw [hblock _ hi]
    exact Bytes.get_zero _

theorem ready_freeState : Ready tiny ⟨0, by decide⟩ freeState := by
  have hone : dinode tiny freeImage 1 = noBytes := dinode_putInode_self _ _ _
  have hused : ∀ b, b < tiny.size → used tiny freeImage b = decide (b < tiny.datastart) := by decide
  exact ⟨⟨owns_of_no_addrs (fun i hi => addrs_freeImage hi) hused, fun _ _ => rfl,
    fun _ _ _ => rfl, by decide, rfl, hone.symm,
    fun _ _ _ => rfl⟩, by decide, rfl⟩

/-- The first byte of a file gets the free block. -/
theorem chunk_fits_reservation_freeState :
    ∃ t, writei tiny ⟨0, by decide⟩ (.kernel fun _ => 7) 0 0 1 freeState = .ok 1 t ∧
    leafAddr (t.icache ⟨0, by decide⟩).d t.buf 0 = 6 ∧ ∃ l, t.logged = l ++ freeState.logged ∧ l.toFinset.card ≤
    MAXOPBLOCKS := by
  obtain ⟨t, hw, hleaf⟩ : ∃ t, writei tiny ⟨0, by decide⟩ (.kernel fun _ => 7) 0 0 1 freeState = .ok 1 t ∧
      leafAddr (t.icache ⟨0, by decide⟩).d t.buf 0 = 6 := by decide +kernel
  have h := chunk_fits_reservation tiny ⟨0, by decide⟩ freeState ready_freeState (fun t ht =>
    absurd ht (Nat.not_lt_zero t))
    (.kernel fun _ => 7) 0 0 1 (by decide)
  rw [hw] at h
  exact ⟨t, hw, hleaf, h⟩

end Xv6.Filewrite

import Xv6.Fs.Own

/-!
# Mapping and freeing the blocks of an inode

`bmap` and `itrunc`, run on entry `ip` of the inode cache. During an operation the inodes are those on disk,
except for the one of the entry, which is the in-memory copy (`Busy`).
-/

namespace Xv6.Fs

open Hoare (Triple Agrees)
open Ownership (Owned)
open Function (update update_of_ne update_self update_idem update_eq_self)

variable {g : Geometry} {v v' w w' : Blocks} {c : Icache} {ino ino' : Nat → Dinode}
  {ip : Fin NINODE} {i b : Nat} {E : Panic → State → Prop}
variable {k : Fin (NDIRECT + 1)} {a bn j : Nat}
variable {x : Dinode}

/-- The inode cache with the copy in entry `ip` replaced. -/
def setD (c : Icache) (ip : Fin NINODE) (x : Dinode) : Icache :=
  update c ip { c ip with d := x }

@[simp] theorem setD_self (c : Icache) (ip : Fin NINODE) (x : Dinode) :
    setD c ip x ip = { c ip with d := x } := update_self ..

@[simp] theorem setD_setD (c : Icache) (ip : Fin NINODE) (x y : Dinode) :
    setD (setD c ip x) ip y = setD c ip y := by
  rw [setD, setD_self, setD, update_idem, setD]

theorem setD_eq_self (h : (c ip).d = x) : setD c ip x = c := by
  rw [setD, ← h]
  exact update_eq_self ip c

/-- An operation on entry `ip`, which holds inode `i`, is in progress. -/
structure Busy (g : Geometry) (ip : Fin NINODE) (i : Nat) (ino : Nat → Dinode) (v w : Blocks)
    (c : Icache) : Prop where
  owns : Owns g ino v
  clean : Clean g v w
  inds : ∀ j, j < g.ninodes → (ino j).addr NDIRECT ≠ 0 → v ((ino j).addr NDIRECT) = w ((ino j).addr NDIRECT)
  lt : i < g.ninodes
  inum : (c ip).inum = i
  core : (c ip).d = ino i
  disk : ∀ j, j < g.ninodes → j ≠ i → dinode g v j = ino j

/-! ## Allocation -/

theorem grow_congr (ha : v a = w a) (hb : v (g.bblock b) = w (g.bblock b)) : grow g v b a = grow g w b a := by
  unfold grow mark
  rw [hb]
  by_cases hab : a = b
  · rw [hab, update_self, update_self]
  · rw [update_of_ne hab, update_of_ne hab]
    by_cases hbb : a = g.bblock b
    · rw [hbb, update_self, update_self]
    · rw [update_of_ne hbb, update_of_ne hbb, ha]

theorem Clean.grow (h : Clean g v w) (hb : b < g.size) : Clean g (grow g v b) (grow g w b) :=
  fun a ha => grow_congr (h a ha) (h _ (g.bblock_lt hb))

theorem Busy.grow_addr (h : Busy g ip i ino v w c) (hb : b < g.size)
    (hfree : used g v b = false) (h0 : (ino i).addrs k = 0) :
    Busy g ip i (update ino i ((ino i).setAddr k (BitVec.ofNat 32 b))) (grow g v b) (grow g w b)
      (setD c ip ((ino i).setAddr k (BitVec.ofNat 32 b))) where
  owns := h.owns.take (s := addrSlot i k) (by rw [addrSlot_inum]; exact h.lt)
    (by rw [slotAddr_addrSlot]; exact Dinode.addr_eq_zero.mpr h0) hb hfree
    (fun t ht => slotAddr_grow_addr h.owns hb hfree h0 ht) fun a ha => used_grow (h.owns.free_ge hfree) ha
  clean := h.clean.grow hb
  inds j hj ha := by
    have hslot := slotAddr_grow_addr h.owns hb hfree h0 (t := .ind j) hj
    split_ifs at hslot with hs
    · rw [slotAddr] at hslot
      rw [hslot, grow_self, grow_self]
    · rw [slotAddr] at hslot
      rw [hslot] at ha ⊢
      exact grow_congr (h.inds j hj ha) (h.clean _ (g.bblock_lt hb))
  lt := h.lt
  inum := by rw [setD_self]; exact h.inum
  core := by rw [setD_self, update_self]
  disk j hj hji := by
    rw [dinode_grow hj (h.owns.free_ge hfree), update_of_ne hji]
    exact h.disk j hj hji

theorem Busy.grow_entry (h : Busy g ip i ino v w c) (hb : b < g.size) (hfree : used g v b = false)
    (hind : (ino i).addr NDIRECT ≠ 0) (hj : j < NINDIRECT) (h0 : entry (v ((ino i).addr NDIRECT)) j = 0) :
    Busy g ip i ino
      (update (grow g v b) ((ino i).addr NDIRECT)
        ((v ((ino i).addr NDIRECT)).setField (4 * j) (BitVec.ofNat 32 b)))
      (update (grow g w b) ((ino i).addr NDIRECT)
        ((v ((ino i).addr NDIRECT)).setField (4 * j) (BitVec.ofNat 32 b))) c := by
  have hge := h.owns.ind_ge h.lt hind
  have hM : MAXFILE = NDIRECT + NINDIRECT := rfl
  refine ⟨h.owns.take (s := .leaf i (NDIRECT + j)) h.lt ?_ hb hfree
    (fun t ht => slotAddr_grow_entry h.owns h.lt hb hfree hind hj ht) fun a ha => ?_, fun a ha => ?_,
    fun j' hj' ha => ?_, h.lt, h.inum, h.core, fun j' hj' hji => ?_⟩
  · change leafAddr (ino i) v (NDIRECT + j) = 0
    rw [leafAddr, if_neg (by omega), if_pos ⟨by omega, hind⟩, Nat.add_sub_cancel_left, h0]
    rfl
  · rw [used_update_of_ne (Nat.ne_of_lt (Nat.lt_of_lt_of_le (g.bblock_lt ha) hge)),
      used_grow (h.owns.free_ge hfree) ha]
  · rw [update_of_ne (by omega), update_of_ne (by omega)]
    exact h.clean.grow hb a ha
  · by_cases hne : (ino j').addr NDIRECT = (ino i).addr NDIRECT
    · rw [hne, update_self, update_self]
    · rw [update_of_ne hne, update_of_ne hne]
      exact grow_congr (h.inds j' hj' ha) (h.clean _ (g.bblock_lt hb))
  · rw [dinode_update_of_ne (Nat.ne_of_lt (Nat.lt_of_lt_of_le (g.iblock_lt_datastart hj') hge)),
      dinode_grow hj' (h.owns.free_ge hfree)]
    exact h.disk j' hj' hji

/-! ## `bmap` -/

/-- What mapping blocks of inode `i` leaves alone. -/
structure Ext (g : Geometry) (i : Nat) (ino : Nat → Dinode) (v : Blocks) (ino' : Nat → Dinode)
    (v' : Blocks) : Prop where
  others : ∀ j, j ≠ i → ino' j = ino j
  fields : ino' i = { ino i with addrs := (ino' i).addrs }
  leaves : ∀ j m, j < g.ninodes → leafAddr (ino j) v m ≠ 0 → leafAddr (ino' j) v' m = leafAddr (ino j) v m
  data : ∀ j m, j < g.ninodes → leafAddr (ino j) v m ≠ 0 → v' (leafAddr (ino j) v m) = v (leafAddr (ino j) v m)

/-- The `bn`th block of inode `i` is mapped to block `a`, and no other block is added. -/
structure Mapped (g : Geometry) (i bn a : Nat) (ino : Nat → Dinode) (v : Blocks) (ino' : Nat → Dinode)
    (v' : Blocks) : Prop extends Ext g i ino v ino' v' where
  addr : leafAddr (ino' i) v' bn = a
  pos : a ≠ 0
  holes : ∀ j m, j < g.ninodes → (j ≠ i ∨ m ≠ bn) → leafAddr (ino j) v m = 0 → leafAddr (ino' j) v' m = 0
  zero : leafAddr (ino i) v bn = 0 → v' a = fun _ => 0

theorem mapped_refl (h : leafAddr (ino i) v bn ≠ 0) : Mapped g i bn (leafAddr (ino i) v bn) ino v ino v where
  others _ _ := rfl
  fields := rfl
  leaves _ _ _ _ := rfl
  data _ _ _ _ := rfl
  addr := rfl
  pos := h
  holes _ _ _ _ h := h
  zero h0 := absurd h0 h

theorem Ext.mapped {ino₁ : Nat → Dinode} {v₁ : Blocks} (he : Ext g i ino v ino₁ v₁)
    (hall : ∀ j m, j < g.ninodes → leafAddr (ino₁ j) v₁ m = leafAddr (ino j) v m) (hlt : i < g.ninodes)
    (hm : Mapped g i bn a ino₁ v₁ ino' v') : Mapped g i bn a ino v ino' v' where
  others j hj := (hm.others j hj).trans (he.others j hj)
  fields := by rw [hm.fields, he.fields]
  leaves j m hj ha := by
    rw [← hall j m hj] at ha ⊢
    exact hm.leaves j m hj ha
  data j m hj ha := by
    have ha' := ha
    rw [← hall j m hj] at ha'
    rw [← he.data j m hj ha, ← hall j m hj]
    exact hm.data j m hj ha'
  addr := hm.addr
  pos := hm.pos
  holes j m hj hne h0 := hm.holes j m hj hne ((hall j m hj).trans h0)
  zero h0 := hm.zero ((hall i bn hlt).trans h0)

theorem pos_of_free (h : Owns g ino v) (hfree : used g v b = false) : b ≠ 0 := by
  have := h.free_ge hfree
  have := g.bmapstart_lt
  omega

theorem ext_grow_addr (h : Owns g ino v) (hb : b < g.size) (hfree : used g v b = false) (h0 : (ino i).addrs k = 0) :
    Ext g i ino v (update ino i ((ino i).setAddr k (BitVec.ofNat 32 b))) (grow g v b) where
  others j hj := update_of_ne hj ..
  fields := by rw [update_self]; rfl
  leaves j m hj ha := by
    have hslot := slotAddr_grow_addr h hb hfree h0 (t := .leaf j m) hj
    rw [if_neg] at hslot
    · exact hslot
    · intro hs
      refine ha ?_
      have : slotAddr ino v (.leaf j m) = 0 := by
        rw [hs, slotAddr_addrSlot]
        exact Dinode.addr_eq_zero.mpr h0
      exact this
  data j m hj ha := h.grow_keeps (s := .leaf j m) hb hfree hj ha

theorem mapped_grow_direct (h : Owns g ino v) (hi : i < g.ninodes) (hk : k.val < NDIRECT)
    (hb : b < g.size) (hfree : used g v b = false) (h0 : (ino i).addrs k = 0) :
    Mapped g i k b ino v (update ino i ((ino i).setAddr k (BitVec.ofNat 32 b))) (grow g v b) where
  toExt := ext_grow_addr h hb hfree h0
  addr := by
    have hslot := slotAddr_grow_addr h hb hfree h0 (t := .leaf i k) hi
    rwa [if_pos (by rw [addrSlot, if_pos hk])] at hslot
  pos := pos_of_free h hfree
  holes j m hj hne hm := by
    have hslot := slotAddr_grow_addr h hb hfree h0 (t := .leaf j m) hj
    rw [if_neg] at hslot
    · exact hslot.trans hm
    · intro hs
      rw [addrSlot, if_pos hk] at hs
      obtain ⟨rfl, rfl⟩ := Slot.leaf.inj hs
      exact hne.elim (· rfl) (· rfl)
  zero _ := grow_self v b

theorem leafAddr_grow_ind (h : Owns g ino v) (hb : b < g.size) (hfree : used g v b = false)
    (h0 : (ino i).addrs (Fin.last NDIRECT) = 0) (j m : Nat) (hj : j < g.ninodes) :
    leafAddr (update ino i ((ino i).setAddr (Fin.last NDIRECT) (BitVec.ofNat 32 b)) j) (grow g v b) m =
      leafAddr (ino j) v m := by
  have hslot := slotAddr_grow_addr h hb hfree h0 (t := .leaf j m) hj
  rwa [if_neg] at hslot
  intro hc
  cases hc

theorem mapped_grow_entry (h : Owns g ino v) (hi : i < g.ninodes) (hb : b < g.size) (hfree : used g v b = false)
    (hind : (ino i).addr NDIRECT ≠ 0) (hj : j < NINDIRECT) (h0 : leafAddr (ino i) v (NDIRECT + j) = 0) :
    Mapped g i (NDIRECT + j) b ino v ino (update (grow g v b) ((ino i).addr NDIRECT)
      ((v ((ino i).addr NDIRECT)).setField (4 * j) (BitVec.ofNat 32 b))) where
  others _ _ := rfl
  fields := rfl
  leaves j' m hj' ha := by
    have hslot := slotAddr_grow_entry h hi hb hfree hind hj (t := .leaf j' m) hj'
    rw [if_neg] at hslot
    · exact hslot
    · intro hs
      obtain ⟨rfl, rfl⟩ := Slot.leaf.inj hs
      exact ha h0
  data j' m hj' ha := by
    rw [update_of_ne]
    · exact h.grow_keeps (s := .leaf j' m) hb hfree hj' ha
    · intro heq
      cases h.inj (s := .leaf j' m) (t := .ind i) hj' hi heq ha
  addr := by
    have hslot := slotAddr_grow_entry h hi hb hfree hind hj (t := .leaf i (NDIRECT + j)) hi
    rwa [if_pos rfl] at hslot
  pos := pos_of_free h hfree
  holes j' m hj' hne hm := by
    have hslot := slotAddr_grow_entry h hi hb hfree hind hj (t := .leaf j' m) hj'
    rw [if_neg] at hslot
    · exact hslot.trans hm
    · intro hs
      obtain ⟨rfl, rfl⟩ := Slot.leaf.inj hs
      exact hne.elim (· rfl) (· rfl)
  zero _ := by
    have hne : b ≠ (ino i).addr NDIRECT := (h.slot_ne (s := .ind i) hi hind hfree).symm
    rw [update_of_ne hne]
    exact grow_self v b

theorem mapAddr_spec (h : Busy g ip i ino v w c) : Triple (Is v w c) (mapAddr g ip k)
    (fun a s => ((ino i).addrs k ≠ 0 ∧ a = (ino i).addr k) ∧ Is v w c s ∨
      ((ino i).addrs k = 0 ∧ a < g.size ∧ used g v a = false) ∧
        Is (grow g v a) (grow g w a) (setD c ip ((ino i).setAddr k (BitVec.ofNat 32 a))) s) (NoSpace g) := by
  refine .read (getInode_spec ip) ?_
  rw [h.core]
  refine .ite (fun h0 => ?_) fun h0 => .pure fun s hs => .inl ⟨⟨h0, ?_⟩, hs⟩
  · refine .bind (balloc_spec h.clean) fun a => ?_
    refine .of_fact fun ha => .of_fact fun hfree => ?_
    refine .bind (modifyInode_spec ip _) fun _ => .pure fun s hs => .inr ⟨⟨h0, ha, hfree⟩, ?_⟩
    rwa [h.core] at hs
  · exact ((ino i).addr_val k).symm

theorem leafAddr_indirect (hind : x.addr NDIRECT ≠ 0) (hj : j < NINDIRECT) :
    leafAddr x v (NDIRECT + j) = (entry (v (x.addr NDIRECT)) j).toNat := by
  have hM : MAXFILE = NDIRECT + NINDIRECT := rfl
  rw [leafAddr, if_neg (by omega), if_pos ⟨by omega, hind⟩, Nat.add_sub_cancel_left]

/-- The indirect block is there, and no block is mapped yet. -/
structure HasInd (g : Geometry) (ip : Fin NINODE) (i a : Nat) (ino : Nat → Dinode) (v w : Blocks)
    (c : Icache) (ino₁ : Nat → Dinode) (v₁ w₁ : Blocks) : Prop where
  busy : Busy g ip i ino₁ v₁ w₁ (setD c ip (ino₁ i))
  ext : Ext g i ino v ino₁ v₁
  all : ∀ j m, j < g.ninodes → leafAddr (ino₁ j) v₁ m = leafAddr (ino j) v m
  addr : (ino₁ i).addr NDIRECT = a
  pos : a ≠ 0
  settled : v = w → v₁ = w₁

theorem mapInd_spec (h : Busy g ip i ino v w c) : Triple (Is v w c) (mapAddr g ip (Fin.last NDIRECT))
    (fun a s => ∃ ino₁ v₁ w₁, HasInd g ip i a ino v w c ino₁ v₁ w₁ ∧ Is v₁ w₁ (setD c ip (ino₁ i)) s)
    (NoSpace g) := by
  refine (mapAddr_spec h).post fun a s hs => ?_
  rcases hs with ⟨⟨h0, rfl⟩, hs⟩ | ⟨⟨h0, ha, hfree⟩, hs⟩
  · have hself := setD_eq_self h.core
    refine ⟨ino, v, w, ⟨by rw [hself]; exact h, ⟨fun _ _ => rfl, rfl, fun _ _ _ _ => rfl, fun _ _ _ _ => rfl⟩,
      fun _ _ _ => rfl, rfl, mt Dinode.addr_eq_zero.mp h0, id⟩, by rw [hself]; exact hs⟩
  · refine ⟨_, _, _, ⟨?_, ext_grow_addr h.owns ha hfree h0, leafAddr_grow_ind h.owns ha hfree h0, ?_,
      pos_of_free h.owns hfree, fun hvw => by rw [hvw]⟩, ?_⟩
    · rw [update_self]
      exact h.grow_addr ha hfree h0
    · rw [update_self]
      exact Dinode.addr_setAddr_self.trans (toNat_of_lt_size ha)
    · rw [update_self]
      exact hs

theorem bmap_spec (h : Busy g ip i ino v w c) (hbn : bn < MAXFILE) : Triple (Is v w c) (bmap g ip bn)
    (fun a s => ∃ ino' v' w', (Busy g ip i ino' v' w' (setD c ip (ino' i)) ∧ Mapped g i bn a ino v ino' v' ∧
      (v = w → v' = w') ∧ (leafAddr (ino i) v bn = 0 → v' a = w' a)) ∧ Is v' w' (setD c ip (ino' i)) s)
      (NoSpace g) := by
  have hM : MAXFILE = NDIRECT + NINDIRECT := rfl
  have hself := setD_eq_self h.core
  unfold bmap
  by_cases hd : bn < NDIRECT
  · rw [dif_pos hd]
    refine (mapAddr_spec h).post fun a s hs => ?_
    rcases hs with ⟨⟨h0, rfl⟩, hs⟩ | ⟨⟨h0, ha, hfree⟩, hs⟩
    · have hleaf : leafAddr (ino i) v bn = (ino i).addr bn := if_pos hd
      have hne : leafAddr (ino i) v bn ≠ 0 := by
        rw [hleaf]
        exact mt (Dinode.addr_eq_zero (k := ⟨bn, Nat.lt_succ_of_lt hd⟩)).mp h0
      have hm := mapped_refl (g := g) hne
      rw [hleaf] at hm
      exact ⟨ino, v, w, ⟨by rw [hself]; exact h, hm, id, fun h0 => absurd h0 hne⟩, by rw [hself]; exact hs⟩
    · refine ⟨_, _, _, ⟨?_, mapped_grow_direct h.owns h.lt hd ha hfree h0, fun hvw => by rw [hvw],
        fun _ => by rw [grow_self, grow_self]⟩, ?_⟩
      · rw [update_self]
        exact h.grow_addr ha hfree h0
      · rw [update_self]
        exact hs
  · obtain ⟨j, rfl⟩ : ∃ j, bn = NDIRECT + j := ⟨bn - NDIRECT, by omega⟩
    have hj : j < NINDIRECT := by omega
    rw [dif_neg hd, Nat.add_sub_cancel_left, if_pos hj]
    refine .bind (mapInd_spec h) fun a => .exists fun ino₁ => .exists fun v₁ =>
      Triple.exists fun w₁ => .of_fact fun hi => ?_
    obtain ⟨hbusy, hext, hall, rfl, hpos, hset⟩ := hi
    have hclean := hbusy.inds i h.lt hpos
    have hleaf := leafAddr_indirect (v := v₁) hpos hj
    refine .read (bread_spec hclean) ?_
    refine .ite (fun h0 => ?_) fun h0 => .pure fun s hs => ?_
    · have h0' : leafAddr (ino₁ i) v₁ (NDIRECT + j) = 0 := by rw [hleaf, h0]; rfl
      refine .bind (balloc_spec hbusy.clean) fun b => ?_
      refine .of_fact fun hb => .of_fact fun hfree => ?_
      refine .bind (modifyData_spec _) fun _ => .bind logWrite_spec fun _ => .pure fun s hs => ?_
      have hkeep := hbusy.owns.grow_keeps (s := .ind i) hb hfree h.lt hpos
      rw [show slotAddr ino₁ v₁ (.ind i) = (ino₁ i).addr NDIRECT from rfl] at hkeep
      rw [update_self, hkeep] at hs
      refine ⟨ino₁, _, _, ⟨hbusy.grow_entry hb hfree hpos hj h0,
        hext.mapped hall h.lt (mapped_grow_entry hbusy.owns h.lt hb hfree hpos hj h0'),
        fun hvw => by rw [hset hvw], fun _ => ?_⟩, hs⟩
      have hnew : b ≠ (ino₁ i).addr NDIRECT := (hbusy.owns.slot_ne (s := .ind i) h.lt hpos hfree).symm
      rw [update_of_ne hnew, update_of_ne hnew, grow_self, grow_self]
    · have hne : leafAddr (ino₁ i) v₁ (NDIRECT + j) ≠ 0 := by
        rw [hleaf]
        exact fun hz => h0 (BitVec.eq_of_toNat_eq hz)
      have hm := mapped_refl (g := g) hne
      rw [hleaf] at hm
      exact ⟨ino₁, v₁, w₁, ⟨hbusy, hext.mapped hall h.lt hm, hset, fun h0 => absurd ((hall i _ h.lt).trans h0) hne⟩, hs⟩

/-! ## Blocks that are there -/

/-- `mapAddr` that stops where there is no block. -/
def lookupAddr (ip : Fin NINODE) (k : Fin (NDIRECT + 1)) : FsM Nat := do
  let x ← getInode ip
  if x.d.addrs k = 0 then panic .ballocOutOfBlocks else return (x.d.addrs k).toNat

/-- `bmap` without `balloc` and `log_write`. -/
def lookupBlock (ip : Fin NINODE) (bn : Nat) : FsM Nat :=
  if h : bn < NDIRECT then lookupAddr ip ⟨bn, Nat.lt_succ_of_lt h⟩
  else if bn - NDIRECT < NINDIRECT then do
    let ind ← lookupAddr ip (Fin.last NDIRECT)
    let a ← bread ind
    if entry a (bn - NDIRECT) = 0 then panic .ballocOutOfBlocks else return (entry a (bn - NDIRECT)).toNat
  else panic .bmapOutOfRange

theorem agrees_panic {α : Type} {e : Panic} {x : FsM α} : Agrees (panic e) x := fun _ _ _ h => nomatch h

theorem lookupAddr_agrees (k : Fin (NDIRECT + 1)) : Agrees (lookupAddr ip k) (mapAddr g ip k) :=
  Agrees.bind (.refl _) fun _ => .ite (fun _ => agrees_panic) fun _ => .refl _

theorem lookupBlock_agrees (bn : Nat) : Agrees (lookupBlock ip bn) (bmap g ip bn) := by
  unfold lookupBlock bmap
  split
  · exact lookupAddr_agrees _
  · refine .ite (fun _ => ?_) fun _ => agrees_panic
    exact .bind (lookupAddr_agrees _) fun _ => .bind (.refl _) fun _ => .ite (fun _ => agrees_panic) fun _ => .refl _

theorem lookupAddr_spec (h0 : (c ip).d.addr k ≠ 0) : Triple (Is v w c) (lookupAddr ip k)
    (fun a s => a = (c ip).d.addr k ∧ Is v w c s) E := by
  refine .read (getInode_spec ip) ?_
  rw [if_neg (mt Dinode.addr_eq_zero.mpr h0)]
  exact .pure fun s hs => ⟨(Dinode.addr_val _ k).symm, hs⟩

theorem Busy.lookupBlock_spec (h : Busy g ip i ino v w c) (ha : leafAddr (ino i) v bn ≠ 0) :
    Triple (Is v w c) (lookupBlock ip bn) (fun a s => a = leafAddr (ino i) v bn ∧ Is v w c s) E := by
  have hcore := h.core
  unfold lookupBlock
  by_cases hd : bn < NDIRECT
  · have hleaf : leafAddr (ino i) v bn = (c ip).d.addr bn := by rw [hcore]; exact if_pos hd
    rw [hleaf] at ha ⊢
    rw [dif_pos hd]
    exact lookupAddr_spec ha
  · have hM : MAXFILE = NDIRECT + NINDIRECT := rfl
    obtain ⟨hbn, hpos⟩ : bn < MAXFILE ∧ (ino i).addr NDIRECT ≠ 0 := by
      by_contra hc
      rw [leafAddr, if_neg hd, if_neg hc] at ha
      exact ha rfl
    have hleaf : leafAddr (ino i) v bn = (entry (v ((ino i).addr NDIRECT)) (bn - NDIRECT)).toNat := by
      rw [leafAddr, if_neg hd, if_pos ⟨hbn, hpos⟩]
    rw [dif_neg hd, if_pos (by omega)]
    refine .bind_fact (lookupAddr_spec (by rw [hcore]; exact hpos)) fun a ha' => ?_
    obtain rfl : a = (ino i).addr NDIRECT := by rw [ha', hcore]; rfl
    refine .read (bread_spec (h.inds i h.lt hpos)) ?_
    rw [hleaf] at ha ⊢
    rw [if_neg fun h0 => ha (by rw [h0]; rfl)]
    exact .pure fun s hs => ⟨rfl, hs⟩

theorem Busy.bmap_of_mapped (h : Busy g ip i ino v w c) (ha : leafAddr (ino i) v bn ≠ 0) :
    Triple (Is v w c) (bmap g ip bn) (fun a s => a = leafAddr (ino i) v bn ∧ Is v w c s) E :=
  (h.lookupBlock_spec ha).of_agrees (lookupBlock_agrees bn)

/-! ## `itrunc` -/

/-- The free map is that of the slots `r`, and apart from it nothing differs from `v₀` and `w₀`. -/
structure Trunc (g : Geometry) (v₀ w₀ : Blocks) (r : Slot → Option Nat) (v w : Blocks) : Prop where
  marks : Marks g r v
  clean : Clean g v w
  buf : ∀ b, b < g.bmapstart ∨ g.datastart ≤ b → v b = v₀ b
  disk : ∀ b, b < g.bmapstart ∨ g.datastart ≤ b → w b = w₀ b

variable {r : Slot → Option Nat} {v₀ w₀ : Blocks} {s : Slot}

theorem unmark_congr (ha : v a = w a) (hb : v (g.bblock b) = w (g.bblock b)) :
    unmark g v b a = unmark g w b a := by
  unfold unmark
  rw [hb]
  by_cases hbb : a = g.bblock b
  · rw [hbb, update_self, update_self]
  · rw [update_of_ne hbb, update_of_ne hbb, ha]

theorem Trunc.free (h : Trunc g v₀ w₀ r v w) (hs : r s = some b) :
    Trunc g v₀ w₀ (update r s none) (unmark g v b) (unmark g w b) := by
  have hlt := g.bblock_lt (h.marks.mem s b hs).2
  have hout : ∀ a, a < g.bmapstart ∨ g.datastart ≤ a → a ≠ g.bblock b := by
    intro a ha
    have := g.bmapstart_le b
    omega
  refine ⟨Owned.give h.marks hs (update_self ..) (fun t ht => update_of_ne ht ..) fun a _ => ?_,
    fun a ha => unmark_congr (h.clean a ha) (h.clean _ hlt), fun a ha => ?_, fun a ha => ?_⟩
  · rw [used_unmark, Bool.and_eq_true, Bool.not_eq_true', decide_eq_false_iff_not]
  · rw [unmark_of_ne (hout a ha), h.buf a ha]
  · rw [unmark_of_ne (hout a ha), h.disk a ha]

theorem update_none_of_none (h : r s = none) : update r s none = r := by
  rw [← h, update_eq_self]

theorem bfree_slot (hs : r s = some b) :
    Triple (fun st => ∃ v w, Trunc g v₀ w₀ r v w ∧ Is v w c st) (bfree g b)
      (fun _ st => ∃ v w, Trunc g v₀ w₀ (update r s none) v w ∧ Is v w c st) E := by
  refine .exists fun v => .exists fun w => .of_fact fun h => ?_
  exact (bfree_spec h.clean (h.marks.mem s _ hs).2 (h.marks.used_of_ref hs)).imp (fun _ hst => hst)
    (fun _ st hst => ⟨_, _, h.free hs, hst⟩) fun _ _ he => he

theorem freeAddr_spec (hs : r s = if x.addrs k = 0 then none else some (x.addrs k).toNat) :
    Triple (fun st => ∃ v w, Trunc g v₀ w₀ r v w ∧ Is v w (setD c ip x) st) (freeAddr g ip k)
      (fun _ st => ∃ v w, Trunc g v₀ w₀ (update r s none) v w ∧ Is v w (setD c ip (x.setAddr k 0)) st) E := by
  refine .exists fun v => .exists fun w => .of_fact fun h => ?_
  refine .bind_fact (getInode_spec ip) fun y hy => ?_
  rw [setD_self] at hy
  subst hy
  by_cases h0 : x.addrs k = 0
  · rw [if_neg (by simpa using h0)]
    rw [if_pos h0] at hs
    have hself : x.setAddr k 0 = x := by
      rw [Dinode.setAddr, ← h0, update_eq_self]
    exact .pure fun st hst => ⟨v, w, by rwa [update_none_of_none hs], by rwa [hself]⟩
  · rw [if_pos h0]
    rw [if_neg h0] at hs
    refine .bind ((bfree_slot hs).imp (fun st hst => ⟨v, w, h, hst⟩) (fun _ _ hst => hst) fun _ _ he => he)
      fun _ => ?_
    refine .exists fun v' => .exists fun w' => .of_fact fun h' => ?_
    refine (modifyInode_spec ip _).imp (fun _ hst => hst) (fun _ st hst => ⟨v', w', h', ?_⟩) fun _ _ he => he
    rw [setD_self] at hst
    rw [← setD_setD c ip x, setD, setD_self]
    exact hst

/-- The slots after the first `m` blocks of inode `i` were freed. -/
def cut (i m : Nat) (r : Slot → Option Nat) : Slot → Option Nat
  | .leaf j bn => if j = i ∧ bn < m then none else r (.leaf j bn)
  | .ind j => r (.ind j)

theorem cut_zero (i : Nat) (r : Slot → Option Nat) : cut i 0 r = r := by
  funext s
  cases s with
  | leaf j bn => exact if_neg (by omega)
  | ind j => rfl

theorem cut_succ (i m : Nat) (r : Slot → Option Nat) :
    cut i (m + 1) r = update (cut i m r) (.leaf i m) none := by
  funext s
  cases s with
  | ind j => rw [update_of_ne (by intro hc; cases hc)]; rfl
  | leaf j bn =>
    by_cases hs : Slot.leaf j bn = .leaf i m
    · obtain ⟨rfl, rfl⟩ := Slot.leaf.inj hs
      rw [update_self]
      exact if_pos ⟨rfl, Nat.lt_succ_self bn⟩
    · rw [update_of_ne hs]
      refine if_congr ⟨fun h => ⟨h.1, ?_⟩, fun h => ⟨h.1, by omega⟩⟩ rfl rfl
      have : bn ≠ m := fun hbn => hs (by rw [h.1, hbn])
      omega

/-- The first `m` addresses are zero. -/
def clearTo (x : Dinode) (m : Nat) : Dinode := { x with addrs := fun k => if k.val < m then 0 else x.addrs k }

theorem clearTo_addrs (x : Dinode) {m : Nat} (hk : m ≤ k.val) :
    (clearTo x m).addrs k = x.addrs k := if_neg (by omega)

theorem clearTo_succ (x : Dinode) {m : Nat} (hk : k.val = m) :
    (clearTo x m).setAddr k 0 = clearTo x (m + 1) := by
  unfold clearTo Dinode.setAddr
  congr 1
  funext j
  by_cases hj : j = k
  · subst hj
    rw [update_self, if_pos (by omega)]
  · rw [update_of_ne hj]
    exact if_congr (by omega) rfl rfl

theorem refs_addr (hi : i < g.ninodes) :
    refs g ino v (addrSlot i k) = if (ino i).addrs k = 0 then none else some ((ino i).addrs k).toNat := by
  rw [refs, slotAddr_addrSlot, addrSlot_inum, ← Dinode.addr_val]
  by_cases h0 : (ino i).addrs k = 0
  · rw [if_pos h0, if_neg fun hc => hc.2 (Dinode.addr_eq_zero.mpr h0)]
  · rw [if_neg h0, if_pos ⟨hi, mt Dinode.addr_eq_zero.mp h0⟩]

theorem freeDirect_spec (hi : i < g.ninodes) :
    Triple (fun st => ∃ v' w', Trunc g v₀ w₀ (refs g ino v) v' w' ∧ Is v' w' (setD c ip (ino i)) st)
      (Hoare.loop (fun m => freeAddr g ip (Fin.ofNat (NDIRECT + 1) m)) 0 NDIRECT)
      (fun _ st => ∃ v' w', Trunc g v₀ w₀ (cut i NDIRECT (refs g ino v)) v' w' ∧
        Is v' w' (setD c ip (clearTo (ino i) NDIRECT)) st) E := by
  refine (Triple.loop (I := fun m st => ∃ v' w', Trunc g v₀ w₀ (cut i m (refs g ino v)) v' w' ∧
    Is v' w' (setD c ip (clearTo (ino i) m)) st) NDIRECT 0 fun m _ hm => ?_).imp (fun st hst => ?_)
    (fun _ _ hst => ?_) fun _ _ he => he
  · have hk : (Fin.ofNat (NDIRECT + 1) m).val = m := Nat.mod_eq_of_lt (by omega)
    have hslot : refs g ino v (addrSlot i (Fin.ofNat (NDIRECT + 1) m)) = _ := refs_addr hi
    rw [addrSlot, hk, if_pos (by omega)] at hslot
    have hs : cut i m (refs g ino v) (.leaf i m) =
        if (clearTo (ino i) m).addrs (Fin.ofNat (NDIRECT + 1) m) = 0 then none
        else some ((clearTo (ino i) m).addrs (Fin.ofNat (NDIRECT + 1) m)).toNat := by
      have haddr : (clearTo (ino i) m).addrs (Fin.ofNat (NDIRECT + 1) m) =
        (ino i).addrs (Fin.ofNat (NDIRECT + 1) m) := clearTo_addrs _ (by rw [hk])
      rw [haddr, ← hslot]
      exact if_neg (by omega)
    rw [cut_succ, ← clearTo_succ _ hk]
    exact freeAddr_spec hs
  · rwa [cut_zero]
  · rwa [Nat.zero_add] at hst

/-- The slots of the other inodes. -/
def gone (i : Nat) (r : Slot → Option Nat) (s : Slot) : Option Nat := if s.inum = i then none else r s

theorem gone_of_ind (i : Nat) : update (cut i MAXFILE (refs g ino v)) (.ind i) none = gone i (refs g ino v) := by
  funext s
  cases s with
  | ind j =>
    by_cases hj : j = i
    · subst hj
      rw [update_self]
      exact (if_pos rfl).symm
    · rw [update_of_ne fun h => hj (Slot.ind.inj h)]
      exact (if_neg hj).symm
  | leaf j bn =>
    have hM : MAXFILE = NDIRECT + NINDIRECT := rfl
    by_cases hj : j = i
    · refine Eq.trans ?_ (if_pos hj).symm
      by_cases hbn : bn < MAXFILE
      · exact if_pos ⟨hj, hbn⟩
      · refine (if_neg fun h => hbn h.2).trans (refs_eq_none ?_)
        change leafAddr (ino j) v bn = 0
        rw [leafAddr, if_neg (by omega), if_neg fun h => hbn h.1]
    · exact (if_neg fun h => hj h.1).trans (if_neg hj).symm

theorem gone_of_no_ind (h0 : (ino i).addr NDIRECT = 0) : cut i NDIRECT (refs g ino v) = gone i (refs g ino v) := by
  funext s
  cases s with
  | ind j =>
    by_cases hj : j = i
    · subst hj
      exact (refs_eq_none (s := .ind j) h0).trans (if_pos rfl).symm
    · exact (if_neg hj).symm
  | leaf j bn =>
    by_cases hj : j = i
    · refine Eq.trans ?_ (if_pos hj).symm
      by_cases hbn : bn < NDIRECT
      · exact if_pos ⟨hj, hbn⟩
      · refine (if_neg fun h => hbn h.2).trans (refs_eq_none ?_)
        change leafAddr (ino j) v bn = 0
        rw [leafAddr, if_neg hbn, if_neg fun h => h.2 (by rw [hj]; exact h0)]
    · exact (if_neg fun h => hj h.1).trans (if_neg hj).symm

theorem freeEntries_spec (hi : i < g.ninodes) (hind : (ino i).addr NDIRECT ≠ 0) :
    Triple (fun st => ∃ v' w', Trunc g v₀ w₀ (cut i NDIRECT (refs g ino v)) v' w' ∧ Is v' w' c st)
      (Hoare.loop (freeEntry g (v ((ino i).addr NDIRECT))) 0 NINDIRECT)
      (fun _ st => ∃ v' w', Trunc g v₀ w₀ (cut i MAXFILE (refs g ino v)) v' w' ∧ Is v' w' c st) E := by
  refine (Triple.loop (I := fun m st => ∃ v' w', Trunc g v₀ w₀ (cut i (NDIRECT + m) (refs g ino v)) v' w' ∧
    Is v' w' c st) NINDIRECT 0 fun m _ hm => ?_).imp (fun st hst => hst) (fun _ _ hst => ?_) fun _ _ he => he
  · have hs : cut i (NDIRECT + m) (refs g ino v) (.leaf i (NDIRECT + m)) =
        if entry (v ((ino i).addr NDIRECT)) m = 0 then none
        else some (entry (v ((ino i).addr NDIRECT)) m).toNat := by
      have hleaf := leafAddr_indirect (v := v) hind hm
      refine (if_neg (by omega)).trans ?_
      rw [refs, show slotAddr ino v (.leaf i (NDIRECT + m)) = _ from hleaf]
      by_cases h0 : entry (v ((ino i).addr NDIRECT)) m = 0
      · rw [if_pos h0, if_neg fun hc => hc.2 (by rw [h0]; rfl)]
      · rw [if_neg h0, if_pos ⟨hi, fun hz => h0 (BitVec.eq_of_toNat_eq hz)⟩]
    rw [← Nat.add_assoc, cut_succ, freeEntry]
    by_cases h0 : entry (v ((ino i).addr NDIRECT)) m = 0
    · rw [if_pos h0] at hs
      rw [update_none_of_none hs, if_neg (by simpa using h0)]
      exact .pure fun _ hst => hst
    · rw [if_neg h0] at hs
      rw [if_pos h0]
      exact bfree_slot hs
  · rwa [Nat.zero_add] at hst

theorem freeIndirect_spec (h : Busy g ip i ino v w c) :
    Triple (fun st => ∃ v' w', Trunc g v w (cut i NDIRECT (refs g ino v)) v' w' ∧
        Is v' w' (setD c ip (clearTo (ino i) NDIRECT)) st) (freeIndirect g ip)
      (fun _ st => ∃ v' w', Trunc g v w (gone i (refs g ino v)) v' w' ∧
        Is v' w' (setD c ip (clearTo (ino i) (NDIRECT + 1))) st) E := by
  have hlast : (clearTo (ino i) NDIRECT).addrs (Fin.last NDIRECT) = (ino i).addrs (Fin.last NDIRECT) :=
    clearTo_addrs _ (by rw [Fin.val_last])
  have hval : ((ino i).addrs (Fin.last NDIRECT)).toNat = (ino i).addr NDIRECT :=
  ((ino i).addr_val (Fin.last NDIRECT)).symm
  refine .exists fun v' => .exists fun w' => .of_fact fun ht => ?_
  refine .bind_fact (getInode_spec ip) fun x hx => ?_
  rw [setD_self] at hx
  subst hx
  rw [hlast]
  refine .ite (fun hne => ?_) fun h0 => .pure fun st hst => ⟨v', w', ?_, ?_⟩
  · have hind : (ino i).addr NDIRECT ≠ 0 := fun hz => hne (Dinode.addr_eq_zero.mp hz)
    have hge := h.owns.ind_ge h.lt hind
    rw [hval]
    refine .bind_fact (bread_spec ?_) fun a ha => ?_
    · rw [ht.buf _ (.inr hge), ht.disk _ (.inr hge)]
      exact h.inds i h.lt hind
    · rw [ha, ht.buf _ (.inr hge)]
      refine .bind ((freeEntries_spec h.lt hind).imp (fun st hst => ⟨v', w', ht, hst⟩)
        (fun _ _ hst => hst) fun _ _ he => he) fun _ => ?_
      have hs : cut i MAXFILE (refs g ino v) (.ind i) =
          if (clearTo (ino i) NDIRECT).addrs (Fin.last NDIRECT) = 0 then none
          else some ((clearTo (ino i) NDIRECT).addrs (Fin.last NDIRECT)).toNat := by
        rw [hlast, ← refs_addr h.lt, addrSlot, if_neg (by rw [Fin.val_last]; exact Nat.lt_irrefl _)]
        rfl
      rw [← gone_of_ind, ← clearTo_succ _ (Fin.val_last NDIRECT)]
      exact freeAddr_spec hs
  · rw [← gone_of_no_ind]
    · exact ht
    · exact Dinode.addr_eq_zero.mpr (by simpa using h0)
  · have hself : (clearTo (ino i) NDIRECT).setAddr (Fin.last NDIRECT) 0 = clearTo (ino i) NDIRECT := by
      rw [Dinode.setAddr, show (0 : BitVec 32) = (clearTo (ino i) NDIRECT).addrs (Fin.last NDIRECT) by
        rw [hlast]; exact (by simpa using h0 : (ino i).addrs (Fin.last NDIRECT) = 0).symm, update_eq_self]
    rwa [← clearTo_succ _ (Fin.val_last NDIRECT), hself]

/-- An inode without blocks. -/
def emptied (x : Dinode) : Dinode := { x with size := 0, addrs := fun _ => 0 }

theorem Busy.emptied (h : Busy g ip i ino v w c) (ht : Trunc g v w (gone i (refs g ino v)) v' w') :
    Busy g ip i (update ino i (emptied (ino i))) v' w' (setD c ip (Fs.emptied (ino i))) where
  owns := by
    refine Owned.congr ht.marks (fun s => ?_) fun b _ => Iff.rfl
    by_cases hs : s.inum = i
    · rw [gone, if_pos hs, refs_of_no_addrs (by rw [hs, update_self]; rfl)]
    · rw [gone, if_neg hs]
      refine refs_congr fun hlt => slotAddr_congr (by rw [update_of_ne hs]) fun ha => ?_
      exact ht.buf _ (.inr (h.owns.ind_ge hlt ha))
  clean := ht.clean
  inds j hj ha := by
    by_cases hji : j = i
    · subst hji
      rw [update_self, addr_of_no_addrs rfl] at ha
      exact absurd rfl ha
    · rw [update_of_ne hji] at ha ⊢
      have hge := h.owns.ind_ge hj ha
      rw [ht.buf _ (.inr hge), ht.disk _ (.inr hge)]
      exact h.inds j hj ha
  lt := h.lt
  inum := by rw [setD_self]; exact h.inum
  core := by rw [setD_self, update_self]
  disk j hj hji := by
    rw [update_of_ne hji, ← h.disk j hj hji, dinode, ht.buf _ (.inl (g.iblock_lt hj)), dinode]

theorem putInode_of_ne (h : a ≠ g.iblock i) : putInode g v i x a = v a :=
  update_of_ne h ..

theorem putInode_congr (ha : v a = w a) (hi : v (g.iblock i) = w (g.iblock i)) :
    putInode g v i x a = putInode g w i x a := by
  unfold putInode
  rw [hi]
  by_cases hai : a = g.iblock i
  · rw [hai, update_self, update_self]
  · rw [update_of_ne hai, update_of_ne hai, ha]

theorem Busy.putInode (h : Busy g ip i ino v w c) (x : Dinode) :
    Busy g ip i ino (putInode g v i x) (Fs.putInode g w i x) c where
  owns := by
    refine Owned.congr h.owns (fun s => ?_) fun b _ => by rw [used_putInode h.lt]
    refine refs_congr fun hlt => slotAddr_congr rfl fun ha => putInode_of_ne ?_
    have := h.owns.ind_ge hlt ha
    have := g.iblock_lt_datastart h.lt
    omega
  clean a ha := putInode_congr (h.clean a ha) (h.clean _ (g.iblock_lt_datastart h.lt))
  inds j hj ha := putInode_congr (h.inds j hj ha) (h.clean _ (g.iblock_lt_datastart h.lt))
  lt := h.lt
  inum := h.inum
  core := h.core
  disk j hj hji := by rw [dinode_putInode_of_ne hji]; exact h.disk j hj hji

/-- Inode `i` has been truncated: its blocks are free, and no other data has changed. -/
structure Truncated (g : Geometry) (ip : Fin NINODE) (i : Nat) (ino : Nat → Dinode) (v : Blocks)
    (c : Icache) (v' w' : Blocks) : Prop where
  busy : Busy g ip i (update ino i (emptied (ino i))) v' w' (setD c ip (emptied (ino i)))
  onDisk : dinode g v' i = emptied (ino i)
  marks : Marks g (gone i (refs g ino v)) v'
  data : ∀ b, g.datastart ≤ b → v' b = v b

theorem itrunc_spec (h : Busy g ip i ino v w c) : Triple (Is v w c) (itrunc g ip)
    (fun _ st => ∃ v' w', Truncated g ip i ino v c v' w' ∧ Is v' w' (setD c ip (emptied (ino i))) st) E := by
  have hstart : Trunc g v w (refs g ino v) v w := ⟨h.owns, h.clean, fun _ _ => rfl, fun _ _ => rfl⟩
  have hself := setD_eq_self h.core
  refine .bind ((freeDirect_spec h.lt).imp (fun st hst => ⟨v, w, hstart, by rwa [hself]⟩)
    (fun _ _ hst => hst) fun _ _ he => he) fun _ => .bind (freeIndirect_spec h) fun _ => ?_
  refine .exists fun v' => .exists fun w' => .of_fact fun ht => ?_
  have hbusy := h.emptied ht
  refine .bind (modifyInode_spec ip _) fun _ => ?_
  have hcore : update (setD c ip (clearTo (ino i) (NDIRECT + 1))) ip
      { setD c ip (clearTo (ino i) (NDIRECT + 1)) ip with
        d := { (setD c ip (clearTo (ino i) (NDIRECT + 1)) ip).d with size := 0 } } = setD c ip (emptied (ino i)) := by
    have hzero : (clearTo (ino i) (NDIRECT + 1)).addrs = fun _ => 0 := funext fun k => if_pos k.isLt
    have hclear : ({ clearTo (ino i) (NDIRECT + 1) with size := 0 } : Dinode) = emptied (ino i) := by
      change Dinode.mk _ _ _ _ 0 (clearTo (ino i) (NDIRECT + 1)).addrs = _
      rw [hzero]
      rfl
    rw [setD_self, hclear, setD, update_idem]
    rfl
  rw [hcore]
  refine (iupdate_spec hbusy.clean h.lt hbusy.inum (by rw [setD_self])).imp (fun _ hst => hst)
    (fun _ st hst => ⟨_, _, ⟨hbusy.putInode _, dinode_putInode_self _ _ _, ?_, fun b hb => ?_⟩, hst⟩) fun _ _ he => he
  · exact Owned.congr ht.marks (fun _ => rfl) fun b _ => by rw [used_putInode h.lt]
  · have := g.iblock_lt_datastart h.lt
    rw [putInode_of_ne (by omega)]
    exact ht.buf b (.inr hb)

end Xv6.Fs

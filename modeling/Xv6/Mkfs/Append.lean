import Xv6.Mkfs.Image

/-!
# `iappend` is an append

`mkfs` marks blocks by a counter and writes the free map at the end. Between, its image is taken with the
free map that the counter stands for (`Like`): then taking a block is what `balloc` of the kernel does to an
image, and the facts about mapped blocks and contents that hold for the kernel hold here. `iappend` appends
to the contents of an inode and leaves all other inodes alone.
-/

namespace Xv6.Mkfs

open Fs
open Hoare (Triple)
open Function (update update_of_ne update_self)

variable {x : Dinode}

/-- The layout with all inodes that there is room for. -/
def area : Geometry where
  toSuperblock := { sb with ninodes := ninodeblocks * IPB }
  log_fits := by decide
  inodes_fit := by decide
  bitmap_fits := by decide
  size_lt := by decide

variable {V V' : Blocks} {fb fi : Nat} {b bn i : Nat} {ino ino' : Nat → Dinode} {ip : Fin NINODE}
  {c : Icache} {E : Stop → State → Prop}
variable {type : BitVec 16} {bs p : List (BitVec 8)} {m n off : Nat}

/-! ## The free map -/

theorem bitmap_succ (n : Nat) : bitmap (n + 1) = (bitmap n).setBit n := by
  rw [bitmap, List.range_succ, List.foldl_append]
  rfl

theorem bit_bitmap (h : n ≤ BPB) (k : Nat) : (bitmap n).bit k = decide (k < n) := by
  have hB : BPB = BSIZE * 8 := rfl
  induction n with
  | zero =>
    rw [Bytes.bit_eq_getLsbD, show bitmap 0 = fun _ => 0 from rfl, Bytes.get_zero]
    simp
  | succ n ih =>
    rw [bitmap_succ, Bytes.bit_setBit _ (by omega), ih (by omega), ← Bool.decide_or]
    congr 1
    rw [eq_iff_iff]
    omega

/-- The image so far, with the free map for the blocks below `fb`. -/
structure Like (V : Blocks) (fb fi : Nat) (s : State) : Prop where
  img : ∀ b, b ≠ sb.bmapstart → s.img b = V b
  super : V 1 = Superblock.write (fun _ => 0) sb
  map : V sb.bmapstart = bitmap fb
  zero : ∀ b, fb ≤ b → V b = fun _ => 0
  len : s.len = FSSIZE
  freeblock : s.freeblock = fb
  freeinode : s.freeinode = fi
  low : nmeta ≤ fb
  high : fb ≤ FSSIZE

theorem bblock_area (h : b < FSSIZE) : area.bblock b = sb.bmapstart ∧ b % BPB = b := by
  have hF : FSSIZE = 1000 := rfl
  have hB : BPB = 8192 := rfl
  have hdiv : b / BPB = 0 := Nat.div_eq_of_lt (by omega)
  refine ⟨?_, Nat.mod_eq_of_lt (by omega)⟩
  unfold Superblock.bblock
  rw [hdiv, Nat.zero_add]
  rfl

theorem used_area (hmap : V sb.bmapstart = bitmap fb) (hfb : fb ≤ FSSIZE) (hb : b < FSSIZE) :
    used area V b = decide (b < fb) := by
  have hB : FSSIZE ≤ BPB := by decide
  rw [used, (bblock_area hb).1, (bblock_area hb).2, hmap, bit_bitmap (hfb.trans hB)]

theorem sector_eq (h : b ≤ FSSIZE) : sector b = b := by
  have hF : FSSIZE = 1000 := rfl
  have hB : BSIZE = 1024 := rfl
  unfold sector
  rw [hB]
  omega

theorem like_facts {α : Type} {x : MkM α} {Q : α → State → Prop}
    (h : V sb.bmapstart = bitmap fb → nmeta ≤ fb ∧ fb ≤ FSSIZE → Triple (Like V fb fi) x Q E) :
    Triple (Like V fb fi) x Q E := fun s hs => h hs.map ⟨hs.low, hs.high⟩ s hs

/-! ## Sectors -/

theorem rsect_like (hne : b ≠ sb.bmapstart) (hb : b < FSSIZE) :
    Triple (Like V fb fi) (rsect b) (fun d s => d = V b ∧ Like V fb fi s) E := by
  intro s hs
  rw [rsect, sector_eq hb.le, if_pos (by rw [hs.len]; exact hb)]
  exact ⟨hs.img b hne, hs⟩

theorem wsect_like (d : Block) (h1 : 1 < b) (hne : b ≠ sb.bmapstart) (hb : b < fb) :
    Triple (Like V fb fi) (wsect b d) (fun _ => Like (update V b d) fb fi) E := by
  intro s hs
  have hlt := hs.high
  have hlen := hs.len
  change Like _ fb fi { s with img := update s.img (sector b) d, len := max s.len (sector b + 1) }
  rw [sector_eq (by omega)]
  refine { hs with img := fun a ha => ?_, super := ?_, map := ?_, zero := fun a ha => ?_, len := by dsimp only; omega }
  · dsimp only
    by_cases hab : a = b
    · rw [hab, update_self, update_self]
    · rw [update_of_ne hab, update_of_ne hab]
      exact hs.img a ha
  · rw [update_of_ne (by omega)]
    exact hs.super
  · rw [update_of_ne (Ne.symm hne)]
    exact hs.map
  · rw [update_of_ne (by omega)]
    exact hs.zero a ha

theorem freshBlock_like (hfb : fb < FSSIZE) : Triple (Like V fb fi) freshBlock
    (fun b s => (b = fb ∧ used area V fb = false) ∧ Like (grow area V fb) (fb + 1) fi s) E := by
  intro s hs
  have hlow : sb.bmapstart < fb := Nat.lt_of_lt_of_le (by decide) hs.low
  have hbb := bblock_area hfb
  have hsame : ∀ a, a ≠ sb.bmapstart → grow area V fb a = V a := fun a ha => by
    by_cases haf : a = fb
    · rw [haf, grow_self, hs.zero fb (Nat.le_refl fb)]
    · exact grow_of_ne (by rw [hbb.1]; exact ha) haf
  refine ⟨⟨hs.freeblock, ?_⟩, ⟨fun a ha => ?_, ?_, ?_, fun a ha => ?_, hs.len, by rw [← hs.freeblock], hs.freeinode,
    by have := hs.low; omega, hfb⟩⟩
  · rw [used_area hs.map hs.high hfb]
    simp
  · rw [hsame a ha]
    exact hs.img a ha
  · rw [hsame 1 (by decide)]
    exact hs.super
  · rw [grow, update_of_ne (by omega), mark, hbb.1, hbb.2, update_self, hs.map, bitmap_succ]
  · rw [hsame a (by omega)]
    exact hs.zero a (by omega)

/-! ## Blocks of a file -/

/-- How many blocks `blockFor` takes. -/
def need (x : Dinode) (V : Blocks) (bn : Nat) : Nat :=
  (if x.addr NDIRECT = 0 ∧ NDIRECT ≤ bn then 1 else 0) + if leafAddr x V bn = 0 then 1 else 0

/-- Block `bn` of inode `i` is block `a` now. -/
structure Took (ip : Fin NINODE) (i bn a : Nat) (ino : Nat → Dinode) (V : Blocks) (c : Icache)
    (ino' : Nat → Dinode) (V' : Blocks) : Prop where
  busy : Busy area ip i ino' V' V' (setD c ip (ino' i))
  mapped : Mapped area i bn a ino V ino' V'
  ind : (ino' i).addr NDIRECT ≠ 0 ↔ (ino i).addr NDIRECT ≠ 0 ∨ NDIRECT ≤ bn

theorem slot_below {s : Slot} (h : Owns area ino V) (hs : s.inum < area.ninodes) (ha : slotAddr ino V s ≠ 0)
    (hmap : V sb.bmapstart = bitmap fb) (hfb : fb ≤ FSSIZE) :
    1 < slotAddr ino V s ∧ slotAddr ino V s ≠ sb.bmapstart ∧ slotAddr ino V s < fb := by
  have hr := h.range hs ha
  have hds : sb.bmapstart < area.datastart := area.bmapstart_lt
  have hone : 1 < sb.bmapstart := by decide
  have hused := h.slot_used hs ha
  rw [used_area hmap hfb hr.2, decide_eq_true_iff] at hused
  exact ⟨by omega, by omega, hused⟩

theorem withIndirect_like (h : Busy area ip i ino V V c)
    (hroom : fb + (if (ino i).addr NDIRECT = 0 then 1 else 0) ≤ FSSIZE) :
    Triple (Like V fb fi) (withIndirect (ino i))
      (fun x s => ∃ ino₁ V₁, (x = ino₁ i ∧ HasInd area ip i ((ino₁ i).addr NDIRECT) ino V V c ino₁ V₁ V₁) ∧
        Like V₁ (fb + if (ino i).addr NDIRECT = 0 then 1 else 0) fi s) E := by
  have hself := setD_eq_self h.core
  have hzero : (ino i).addr NDIRECT = 0 ↔ (ino i).addrs (Fin.last NDIRECT) = 0 :=
    Dinode.addr_eq_zero (k := Fin.last NDIRECT)
  refine .ite (fun h0 => ?_) fun h0 => .pure fun s hs => ?_
  · rw [if_pos (hzero.mpr h0)] at hroom ⊢
    refine .bind_fact (freshBlock_like hroom) fun b hb => .pure fun s hs => ?_
    obtain ⟨rfl, hfree⟩ := hb
    have haddr : ((ino i).setAddr (Fin.last NDIRECT) (BitVec.ofNat 32 b)).addr NDIRECT = b :=
      Dinode.addr_setAddr_self.trans (toNat_of_lt_size (g := area) hroom)
    refine ⟨_, _, ⟨?_, ?_, ext_grow_addr h.owns hroom hfree h0, leafAddr_grow_ind h.owns hroom hfree h0, rfl, ?_,
      fun _ => rfl⟩, hs⟩
    · rw [update_self]
    · rw [update_self]
      exact h.grow_addr hroom hfree h0
    · rw [update_self, haddr]
      exact pos_of_free h.owns hfree
  · have hne := mt hzero.mp h0
    rw [if_neg hne, Nat.add_zero]
    exact ⟨ino, V, ⟨rfl, by rwa [hself], ⟨fun _ _ => rfl, rfl, fun _ _ _ _ => rfl, fun _ _ _ _ => rfl⟩,
      fun _ _ _ => rfl, rfl, hne, id⟩, hs⟩

theorem blockFor_like (h : Busy area ip i ino V V c) (hbn : bn < MAXFILE) (hroom : fb + need (ino i) V bn ≤ FSSIZE) :
    Triple (Like V fb fi) (blockFor (ino i) bn)
      (fun r s => ∃ ino' V', (r.1 = ino' i ∧ Took ip i bn r.2 ino V c ino' V') ∧
        Like V' (fb + need (ino i) V bn) fi s) E := by
  have hM : MAXFILE = NDIRECT + NINDIRECT := rfl
  have hself := setD_eq_self h.core
  unfold blockFor
  by_cases hd : bn < NDIRECT
  · have hleaf : leafAddr (ino i) V bn = (ino i).addr bn := if_pos hd
    have hzero := Dinode.addr_eq_zero (x := ino i) (k := ⟨bn, Nat.lt_succ_of_lt hd⟩)
    rw [dif_pos hd]
    refine .ite (fun h0 => ?_) fun h0 => .pure fun s hs => ?_
    · have hneed : need (ino i) V bn = 1 := by
        rw [need, if_neg (by omega), if_pos (hleaf.trans (hzero.mpr h0))]
      rw [hneed] at hroom ⊢
      refine .bind_fact (freshBlock_like hroom) fun b hb => .pure fun s hs => ?_
      obtain ⟨rfl, hfree⟩ := hb
      refine ⟨_, _, ⟨?_, ?_, mapped_grow_direct h.owns h.lt hd hroom hfree h0, ?_⟩, hs⟩
      · rw [update_self]
      · rw [update_self]
        exact h.grow_addr hroom hfree h0
      · rw [update_self, Dinode.addr_setAddr_of_ne (by dsimp only; omega)]
        exact ⟨.inl, fun hc => hc.resolve_right (by omega)⟩
    · have hne : leafAddr (ino i) V bn ≠ 0 := by
        rw [hleaf]
        exact mt hzero.mp h0
      have hneed : need (ino i) V bn = 0 := by rw [need, if_neg (by omega), if_neg hne]
      have hm := mapped_refl (g := area) hne
      rw [hleaf] at hm
      rw [hneed]
      exact ⟨ino, V, ⟨rfl, by rwa [hself], hm, ⟨.inl, fun hc => hc.resolve_right (by omega)⟩⟩, hs⟩
  · obtain ⟨j, rfl⟩ : ∃ j, bn = NDIRECT + j := ⟨bn - NDIRECT, by omega⟩
    have hj : j < NINDIRECT := by omega
    rw [dif_neg hd, Nat.add_sub_cancel_left]
    have hle : need (ino i) V (NDIRECT + j) =
        (if (ino i).addr NDIRECT = 0 then 1 else 0) + if leafAddr (ino i) V (NDIRECT + j) = 0 then 1 else 0 := by
      simp [need]
    rw [hle] at hroom ⊢
    have hroom₁ : fb + (if (ino i).addr NDIRECT = 0 then 1 else 0) ≤ FSSIZE := by omega
    refine .bind_exists₂ (withIndirect_like h hroom₁) fun x ino₁ V₁ hi => ?_
    obtain ⟨rfl, hbusy, hext, hall, -, hpos, -⟩ := hi
    have hleaf := leafAddr_indirect (v := V₁) hpos hj
    have hsame := hall i (NDIRECT + j) h.lt
    have hind : (ino₁ i).addr NDIRECT ≠ 0 ↔ (ino i).addr NDIRECT ≠ 0 ∨ NDIRECT ≤ NDIRECT + j :=
      iff_of_true hpos (.inr (Nat.le_add_right ..))
    refine like_facts fun hbits _ => ?_
    obtain ⟨hone, hmap, hused⟩ := slot_below (s := .ind i) hbusy.owns h.lt hpos hbits hroom₁
    rw [show slotAddr ino₁ V₁ (.ind i) = (ino₁ i).addr NDIRECT from rfl] at hone hmap hused
    refine .read (rsect_like hmap (hused.trans_le hroom₁)) ?_
    refine .ite (fun h0 => ?_) fun h0 => .pure fun s hs => ?_
    · have h0' : leafAddr (ino₁ i) V₁ (NDIRECT + j) = 0 := by rw [hleaf, h0]; rfl
      rw [if_pos (hsame.symm.trans h0')] at hroom ⊢
      rw [← Nat.add_assoc] at hroom ⊢
      refine .bind_fact (freshBlock_like hroom) fun b hb => ?_
      obtain ⟨rfl, hfree⟩ := hb
      refine .bind (wsect_like _ hone hmap (hused.trans (Nat.lt_succ_self _))) fun _ => .pure fun s hs => ?_
      exact ⟨ino₁, _, ⟨rfl, hbusy.grow_entry hroom hfree hpos hj h0,
        hext.mapped hall h.lt (mapped_grow_entry hbusy.owns h.lt hroom hfree hpos hj h0'), hind⟩, hs⟩
    · have hne : leafAddr (ino₁ i) V₁ (NDIRECT + j) ≠ 0 := by
        rw [hleaf]
        exact fun hz => h0 (BitVec.eq_of_toNat_eq hz)
      have hm := mapped_refl (g := area) hne
      rw [hleaf] at hm
      rw [if_neg fun hc => hne (hsame.trans hc), Nat.add_zero]
      exact ⟨ino₁, V₁, ⟨rfl, hbusy, hext.mapped hall h.lt hm, hind⟩, hs⟩

/-! ## A full image

`mkfs` does not check its block counter. The first block past the end of the image is found out when it is
read, before it is used. -/

theorem freshBlock_full (hfb : fb = FSSIZE) :
    Triple (Like V fb fi) freshBlock (fun b s => b = FSSIZE ∧ s.len = FSSIZE) E :=
  fun _ hs => ⟨hs.freeblock.trans hfb, hs.len⟩

theorem rsect_end (hb : b = FSSIZE) :
    Triple (fun s => s.len = FSSIZE) (rsect b) (fun _ _ => False) fun _ _ => True := by
  intro s hs
  rw [rsect, hb, sector_eq (Nat.le_refl _), if_neg (by rw [hs]; exact Nat.lt_irrefl _)]
  trivial

theorem wsect_len (d : Block) (hb : b < FSSIZE) :
    Triple (fun s => s.len = FSSIZE) (wsect b d) (fun _ s => s.len = FSSIZE) E := by
  intro s hs
  change max s.len (sector b + 1) = FSSIZE
  rw [sector_eq hb.le, hs]
  exact Nat.max_eq_left hb

theorem withIndirect_full (h0 : x.addr NDIRECT = 0) (hfb : fb = FSSIZE) :
    Triple (Like V fb fi) (withIndirect x) (fun y s => y.addr NDIRECT = FSSIZE ∧ s.len = FSSIZE) E := by
  have hlast : x.addrs (Fin.last NDIRECT) = 0 := (Dinode.addr_eq_zero).mp h0
  rw [withIndirect, if_pos hlast]
  refine .bind_fact (freshBlock_full hfb) fun b hb => .pure fun s hs => ⟨?_, hs⟩
  rw [hb]
  exact Dinode.addr_setAddr_self.trans (by decide)

theorem blockFor_full (h : Busy area ip i ino V V c) (hbn : bn < MAXFILE) (hroom : FSSIZE < fb + need (ino i) V bn) :
    Triple (Like V fb fi) (blockFor (ino i) bn) (fun r s => r.2 = FSSIZE ∧ s.len = FSSIZE) fun _ _ => True := by
  have hM : MAXFILE = NDIRECT + NINDIRECT := rfl
  refine like_facts fun _ hfb => ?_
  unfold blockFor
  by_cases hd : bn < NDIRECT
  · have hleaf : leafAddr (ino i) V bn = (ino i).addr bn := if_pos hd
    have hzero := Dinode.addr_eq_zero (x := ino i) (k := ⟨bn, Nat.lt_succ_of_lt hd⟩)
    rw [need, if_neg (by omega), hleaf] at hroom
    rw [dif_pos hd]
    refine .ite (fun h0 => ?_) fun h0 => ?_
    · rw [if_pos (hzero.mpr h0)] at hroom
      exact .bind_fact (freshBlock_full (by omega)) fun b hb => .pure fun s hs => ⟨hb, hs⟩
    · rw [if_neg (mt hzero.mp h0)] at hroom
      omega
  · obtain ⟨j, rfl⟩ : ∃ j, bn = NDIRECT + j := ⟨bn - NDIRECT, by omega⟩
    have hj : j < NINDIRECT := by omega
    rw [dif_neg hd, Nat.add_sub_cancel_left]
    by_cases hlast : fb = FSSIZE ∧ (ino i).addr NDIRECT = 0
    · refine .bind_fact (withIndirect_full hlast.2 hlast.1) fun x hx => ?_
      exact .bind (rsect_end hx) fun _ => .unreachable
    have hroom₁ : fb + (if (ino i).addr NDIRECT = 0 then 1 else 0) ≤ FSSIZE := by split_ifs <;> omega
    refine .bind_exists₂ (withIndirect_like h hroom₁) fun x ino₁ V₁ hi => ?_
    obtain ⟨rfl, hbusy, -, hall, -, hpos, -⟩ := hi
    have hleaf := leafAddr_indirect (v := V₁) hpos hj
    rw [need, ← hall i (NDIRECT + j) h.lt, hleaf] at hroom
    refine like_facts fun hbits _ => ?_
    obtain ⟨-, hmap, hused⟩ := slot_below (s := .ind i) hbusy.owns h.lt hpos hbits hroom₁
    rw [show slotAddr ino₁ V₁ (.ind i) = (ino₁ i).addr NDIRECT from rfl] at hmap hused
    have hlt := hused.trans_le hroom₁
    refine .read (rsect_like hmap hlt) ?_
    simp only [Nat.le_add_right, and_true] at hroom
    refine .ite (fun h0 => ?_) fun h0 => ?_
    · refine .bind_fact (freshBlock_full (by split_ifs at hroom hroom₁ ⊢ <;> omega)) fun b hb => ?_
      exact .bind (wsect_len _ hlt) fun _ => .pure fun s hs => ⟨hb, hs⟩
    · have hne : (entry (V₁ ((ino₁ i).addr NDIRECT)) j).toNat ≠ 0 := fun hz => h0 (BitVec.eq_of_toNat_eq hz)
      rw [if_neg hne] at hroom
      omega

/-! ## Appending -/

/-- The file has the blocks for its first `n` bytes and no others. -/
structure Sized (x : Dinode) (V : Blocks) (n : Nat) : Prop where
  leaf : ∀ m, m < MAXFILE → (leafAddr x V m ≠ 0 ↔ m * BSIZE < n)
  ind : x.addr NDIRECT ≠ 0 ↔ NDIRECT * BSIZE < n

theorem Sized.congr (h : Sized x V n) (hl : ∀ m, leafAddr x V' m = leafAddr x V m) : Sized x V' n :=
  ⟨fun m hm => by rw [hl]; exact h.leaf m hm, h.ind⟩

/-- How many blocks a file of `n` bytes has. -/
def blocks (n : Nat) : Nat := (n + (BSIZE - 1)) / BSIZE + if NDIRECT * BSIZE < n then 1 else 0

theorem blocks_mono (h : m ≤ n) : blocks m ≤ blocks n := by
  unfold blocks
  have : (m + (BSIZE - 1)) / BSIZE ≤ (n + (BSIZE - 1)) / BSIZE := Nat.div_le_div_right (by omega)
  split_ifs <;> omega

theorem Sized.need (h : Sized x V off) (hoff : off / BSIZE < MAXFILE) (hm : 0 < m)
    (hchunk : m ≤ (off / BSIZE + 1) * BSIZE - off) : blocks off + Mkfs.need x V (off / BSIZE) = blocks (off + m) := by
  have hB : BSIZE = 1024 := rfl
  have hN : NDIRECT = 12 := rfl
  have hleaf := h.leaf _ hoff
  have hind := h.ind
  rw [hB] at hleaf hchunk hoff
  rw [hB, hN] at hind
  unfold Mkfs.need blocks
  simp only [hB, hN] at hind hleaf ⊢
  split_ifs <;> omega

theorem Took.sized {a : Nat} (h : Took ip i (off / BSIZE) a ino V c ino' V') (hs : Sized (ino i) V off)
    (hm : 0 < m) (hchunk : m ≤ (off / BSIZE + 1) * BSIZE - off) : Sized (ino' i) V' (off + m) := by
  have hB : BSIZE = 1024 := rfl
  have hN : NDIRECT = 12 := rfl
  have hlt := h.busy.lt
  refine ⟨fun k hk => ?_, ?_⟩
  · have hleaf : leafAddr (ino' i) V' k ≠ 0 ↔ leafAddr (ino i) V k ≠ 0 ∨ k = off / BSIZE := by
      constructor
      · intro h0
        by_contra hc
        rw [not_or, not_not] at hc
        exact h0 (h.mapped.holes i k hlt (.inr hc.2) hc.1)
      · rintro (h0 | rfl)
        · rwa [h.mapped.leaves i k hlt h0]
        · rw [h.mapped.addr]
          exact h.mapped.pos
    rw [hleaf, hs.leaf k hk]
    rw [hB] at hchunk ⊢
    omega
  · rw [h.ind, hs.ind]
    rw [hB] at hchunk
    rw [hB, hN]
    omega

theorem turn_like {β : Type} {f : Dinode → MkM β} {Q : β → State → Prop}
    (h : Busy area ip i ino V V c) (hsz : Sized (ino i) V off) (hbn : off / BSIZE < MAXFILE) (hm : 0 < m)
    (hchunk : m ≤ (off / BSIZE + 1) * BSIZE - off)
    (hE : ¬ fb + need (ino i) V (off / BSIZE) ≤ FSSIZE → ∀ e s, E e s)
    (hf : fb + need (ino i) V (off / BSIZE) ≤ FSSIZE → ∀ ino' V', Rewritten area ip i ino V c ino' V'
        (fun t => if off ≤ t ∧ t < off + m then p.getD (t - off) 0 else content (ino i) V t) →
      Sized (ino' i) V' (off + m) → Triple (Like V' (fb + need (ino i) V (off / BSIZE)) fi) (f (ino' i)) Q E) :
    Triple (Like V fb fi) (do
      let r ← blockFor (ino i) (off / BSIZE)
      let buf ← rsect r.2
      wsect r.2 (buf.store (off % BSIZE) (p.getD · 0) m)
      f r.1) Q E := by
  have hB : BSIZE = 1024 := rfl
  by_cases hroom : fb + need (ino i) V (off / BSIZE) ≤ FSSIZE
  case neg =>
    refine .bind_fact ((blockFor_full h hbn (Nat.not_le.mp hroom)).err fun e s _ => hE hroom e s) fun r hr => ?_
    exact .bind ((rsect_end hr).err fun e s _ => hE hroom e s) fun _ => .unreachable
  refine .bind_exists₂ (blockFor_like h hbn hroom) fun r ino₁ V₁ htook => ?_
  obtain ⟨din, x⟩ := r
  obtain ⟨hdin, htook⟩ := htook
  obtain rfl : din = ino₁ i := hdin
  obtain ⟨rfl, hx⟩ : leafAddr (ino₁ i) V₁ (off / BSIZE) = x ∧ x ≠ 0 := ⟨htook.mapped.addr, htook.mapped.pos⟩
  refine like_facts fun hbits hfb => ?_
  obtain ⟨hone, hmap, hbelow⟩ := slot_below (s := .leaf i (off / BSIZE)) htook.busy.owns h.lt hx hbits hfb.2
  refine .read (rsect_like hmap (hbelow.trans_le hfb.2)) ?_
  refine .bind (wsect_like _ hone hmap hbelow) fun _ => hf hroom _ _ ?_ ?_
  · refine ((htook.mapped.rewritten htook.busy).trans (htook.busy.rewritten_store hx
      (show m ≤ BSIZE - off % BSIZE by rw [hB] at hchunk ⊢; omega))).congr fun t => ?_
    rw [htook.mapped.content h.lt t]
  · exact (htook.sized hsz hm hchunk).congr fun t => htook.busy.leafAddr_write h.lt _ t

theorem turn_eq (off : Nat) : off - off / BSIZE * BSIZE = off % BSIZE := by
  have hB : BSIZE = 1024 := rfl
  rw [hB]
  omega

theorem turn_size (hp : 0 < p.length) (hm : m = min p.length ((off / BSIZE + 1) * BSIZE - off)) :
    0 < m ∧ m ≤ p.length ∧ m ≤ (off / BSIZE + 1) * BSIZE - off := by
  have hB : BSIZE = 1024 := rfl
  rw [hB] at hm ⊢
  omega

/-- There is room for a file of `n` bytes to grow to `n'` bytes. -/
def Room (fb n n' : Nat) : Prop := n' ≤ MAXFILE * BSIZE ∧ fb + (blocks n' - blocks n) ≤ FSSIZE

/-- The bytes `p` are in the file from `off` on, and there was room for them. -/
structure Appended (ip : Fin NINODE) (i fb off : Nat) (p : List (BitVec 8)) (ino : Nat → Dinode) (V : Blocks)
    (c : Icache) (ino' : Nat → Dinode) (V' : Blocks) : Prop where
  room : Room fb off (off + p.length)
  rewritten : Rewritten area ip i ino V c ino' V'
    fun t => if off ≤ t ∧ t < off + p.length then p.getD (t - off) 0 else content (ino i) V t
  sized : Sized (ino' i) V' (off + p.length)

theorem appended_nil (h0 : p.length = 0) (hfb : fb ≤ FSSIZE) (hmax : off ≤ MAXFILE * BSIZE)
    (h : Busy area ip i ino V V c)
    (hsz : Sized (ino i) V off) : Appended ip i fb off p ino V c ino V := by
  refine ⟨?_, (rewritten_refl h).congr fun t => (if_neg (by omega)).symm, ?_⟩ <;> rw [h0, Nat.add_zero]
  · exact ⟨hmax, by rwa [Nat.sub_self]⟩
  · exact hsz

theorem iappendLoop_like (k : Nat) : ∀ {ino : Nat → Dinode} {V : Blocks} {c : Icache}
    (fb : Nat) (p : List (BitVec 8)) (off : Nat), p.length ≤ k → off ≤ MAXFILE * BSIZE → Busy area ip i ino V V c →
    Sized (ino i) V off → Triple (Like V fb fi) (iappendLoop k (ino i) off p)
      (fun r s => ∃ ino' V', (r = (ino' i, off + p.length) ∧ Appended ip i fb off p ino V c ino' V') ∧
        Like V' (fb + (blocks (off + p.length) - blocks off)) fi s)
      fun _ _ => ¬ Room fb off (off + p.length) := by
  have hstop : ∀ {ino : Nat → Dinode} {V : Blocks} {c : Icache} (fb : Nat)
      (p : List (BitVec 8)) (off : Nat), p.length = 0 → off ≤ MAXFILE * BSIZE → Busy area ip i ino V V c →
      Sized (ino i) V off →
      ∀ s, Like V fb fi s → ∃ ino' V',
      ((ino i, off) = (ino' i, off + p.length) ∧ Appended ip i fb off p ino V c ino' V') ∧
        Like V' (fb + (blocks (off + p.length) - blocks off)) fi s := by
    intro ino V c fb p off h0 hmax h hsz s hs
    refine ⟨ino, V, ⟨by rw [h0]; rfl, appended_nil h0 hs.high hmax h hsz⟩, ?_⟩
    rwa [h0, Nat.add_zero, Nat.sub_self]
  induction k with
  | zero => exact fun fb p off hk hmax h hsz => .pure (hstop fb p off (by omega) hmax h hsz)
  | succ k ih =>
    intro ino V c fb p off hk hmax h hsz
    have hB : BSIZE = 1024 := rfl
    rw [iappendLoop]
    refine .ite (fun hlt => ?_) fun hge => .pure (hstop fb p off (by omega) hmax h hsz)
    obtain ⟨m, hm⟩ : ∃ m, m = min p.length ((off / BSIZE + 1) * BSIZE - off) := ⟨_, rfl⟩
    obtain ⟨hpos, hle, hchunk⟩ := turn_size hlt hm
    simp only [← hm, turn_eq]
    by_cases hbn : off / BSIZE < MAXFILE
    case neg =>
      refine .bind ?_ fun _ => .unreachable
      rw [assert, if_neg hbn]
      exact fun _ _ hr => hbn (Nat.div_lt_of_lt_mul (by have := hr.1; rw [Nat.mul_comm]; omega))
    have hneed := hsz.need hbn hpos hchunk
    have hmono := blocks_mono (show off + m ≤ off + p.length by omega)
    refine .bind (Q := fun _ => Like V fb fi) ?_ fun _ =>
      turn_like (f := fun din => iappendLoop k din (off + m) (p.drop m))
      h hsz hbn hpos hchunk (fun hno _ _ hr => hno (by have := hr.2; omega)) fun _ ino₁ V₁ hr hsz₁ => ?_
    · rw [assert, if_pos hbn]
      exact .pure fun _ hs => hs
    have hlen : (p.drop m).length = p.length - m := List.length_drop
    have hsum : off + m + (p.drop m).length = off + p.length := by omega
    have hfb : fb + need (ino i) V (off / BSIZE) + (blocks (off + p.length) - blocks (off + m)) =
        fb + (blocks (off + p.length) - blocks off) := by omega
    have hrest := ih (fb + need (ino i) V (off / BSIZE)) (p.drop m) (off + m) (by omega)
      (by rw [hB] at hbn hchunk ⊢; omega) hr.busy hsz₁
    rw [hsum] at hrest
    refine (hrest.err fun e s hno hroom => hno ⟨hroom.1, hfb ▸ hroom.2⟩).post ?_
    rintro r s ⟨ino', V', ⟨hres, hroom, hrew, hsz'⟩, hs⟩
    rw [hsum] at hroom hrew hsz'
    refine ⟨ino', V', ⟨hres, ⟨hroom.1, hfb ▸ hroom.2⟩, (hr.trans hrew).congr fun t => ?_, hsz'⟩, hfb ▸ hs⟩
    rw [hr.new t]
    by_cases hlater : off + m ≤ t ∧ t < off + p.length
    · rw [if_pos hlater, if_pos (by omega), List.getD_eq_getElem?_getD, List.getD_eq_getElem?_getD, List.getElem?_drop,
        show m + (t - (off + m)) = t - off by omega]
    · rw [if_neg hlater]
      by_cases hnow : off ≤ t ∧ t < off + m
      · rw [if_pos hnow, if_pos (by omega)]
      · rw [if_neg hnow, if_neg (by omega)]

/-! ## Inodes -/

theorem iblock_area (hi : i < area.ninodes) : 1 < sb.iblock i ∧ sb.iblock i ≠ sb.bmapstart ∧ sb.iblock i < nmeta := by
  have hlt : sb.iblock i < sb.bmapstart := area.iblock_lt hi
  have hmap : sb.bmapstart < nmeta := by decide
  have hstart : 1 < sb.inodestart := by decide
  have hge : sb.inodestart ≤ sb.iblock i := Nat.le_add_left _ _
  omega

theorem rinode_like (hi : i < area.ninodes) :
    Triple (Like V fb fi) (rinode i) (fun x s => x = dinode area V i ∧ Like V fb fi s) E := by
  obtain ⟨-, hne, hlt⟩ := iblock_area hi
  have hmeta : nmeta < FSSIZE := by decide
  refine .bind_fact (rsect_like hne (hlt.trans hmeta)) fun d hd => .pure fun s hs => ⟨?_, hs⟩
  rw [hd]
  rfl

theorem winode_like (x : Dinode) (hi : i < area.ninodes) :
    Triple (Like V fb fi) (winode i x) (fun _ => Like (putInode area V i x) fb fi) E := by
  obtain ⟨hone, hne, hlt⟩ := iblock_area hi
  have hmeta : nmeta < FSSIZE := by decide
  refine .bind_fact (rsect_like hne (hlt.trans hmeta)) fun d hd => like_facts fun _ hfb => ?_
  subst hd
  refine .bind (wsect_like _ hone hne (hlt.trans_le hfb.1)) fun _ s hs => ?_
  exact { hs with }

/-- Inode `i` is a file with contents `bs` and one link. -/
structure Has (V : Blocks) (i : Nat) (type : BitVec 16) (bs : List (BitVec 8)) : Prop where
  inode : dinode area V i = { type, nlink := 1, size := BitVec.ofNat 32 bs.length, addrs := (dinode area V i).addrs }
  small : bs.length ≤ MAXFILE * BSIZE
  contents : contents (dinode area V i) V = bs
  sized : Sized (dinode area V i) V bs.length

theorem toNat_size (h : n ≤ MAXFILE * BSIZE) : (BitVec.ofNat 32 n).toNat = n := by
  have : MAXFILE * BSIZE < 2 ^ 32 := by decide
  rw [BitVec.toNat_ofNat]
  omega

theorem Has.size (h : Has V i type bs) : (dinode area V i).size.toNat = bs.length := by
  rw [h.inode]
  exact toNat_size h.small

theorem Has.of_unchanged (h : Has V i type bs) (hu : Unchanged area V V' i) : Has V' i type bs := by
  refine ⟨?_, h.small, hu.contents.trans h.contents, ?_⟩
  · rw [hu.inode]
    exact h.inode
  · have hmap := hu.map
    rw [hu.inode] at hmap ⊢
    exact h.sized.congr hmap

/-- An entry of an inode cache that holds inode `i`. -/
def entryFor (V : Blocks) (i : Nat) : Icache := fun _ => { inum := i, d := dinode area V i }

theorem Has.settled (h : Has V i type bs) (ho : Owns area (dinode area V) V)
    (hi : i < area.ninodes) (ip : Fin NINODE) : Settled area ip V (entryFor V i) :=
  ⟨ho, hi, rfl, by rw [show (entryFor V i ip).inum = i from rfl, h.size]; exact h.small⟩

theorem sized_eq (h : x.size.toNat ≤ off) : { x with size := BitVec.ofNat 32 off } = Fs.sized x off := by
  unfold Fs.sized
  split_ifs with hgt
  · rfl
  · have heq : off = x.size.toNat := by omega
    rw [heq, BitVec.ofNat_toNat, BitVec.setWidth_eq]

theorem map_range_getD (p : List (BitVec 8)) : (List.range p.length).map (fun t => p.getD t 0) = p := by
  refine List.ext_getElem (by simp) fun t h1 h2 => ?_
  simp [List.getD_eq_getElem?_getD, h2]

theorem overwrite_end (bs p : List (BitVec 8)) : overwrite bs bs.length p = bs ++ p := by
  simp [overwrite]

theorem iappend_like (ho : Owns area (dinode area V) V) (hi : i < area.ninodes) (h : Has V i type bs) :
    Triple (Like V fb fi) (iappend i p)
      (fun _ s => Room fb bs.length (bs.length + p.length) ∧ ∃ V',
      (Owns area (dinode area V') V' ∧ Has V' i type (bs ++ p) ∧
        ∀ j, j < area.ninodes → j ≠ i → Unchanged area V V' j) ∧
        Like V' (fb + (blocks (bs.length + p.length) - blocks bs.length)) fi s)
      (fun _ _ => ¬ Room fb bs.length (bs.length + p.length)) := by
  have hset := h.settled ho hi ⟨0, by decide⟩
  refine .read (rinode_like hi) ?_
  rw [h.size]
  refine .bind_exists₂ (iappendLoop_like p.length fb p bs.length (Nat.le_refl _) h.small hset.busy h.sized)
    fun r ino' V₁ hr => ?_
  obtain ⟨rfl, hroom, hrew, hsz⟩ := hr
  have hfields := hrew.fields
  have hsize : (ino' i).size.toNat = bs.length := by
    rw [show ino' i = _ from hfields]
    exact h.size
  dsimp only
  rw [sized_eq (by omega)]
  have hw := Rewritten.wrote hset (n := p.length) (s := fun t => p.getD t 0)
    (Nat.le_of_eq h.size.symm) hroom.1 hrew fun t => rfl
  rw [show (entryFor V i ⟨0, by decide⟩).inum = i from rfl, h.contents, map_range_getD, overwrite_end] at hw
  refine (winode_like _ hi).post fun _ s hs => ⟨hroom, _, ⟨hw.settled.owns, ?_, hw.others⟩, hs⟩
  have hself := dinode_putInode_self (g := area) V₁ i (Fs.sized (ino' i) (bs.length + p.length))
  refine ⟨?_, by rw [List.length_append]; exact hroom.1, hw.contents, ?_⟩
  · rw [hself, List.length_append, ← sized_eq (by omega), show ino' i = _ from hfields, h.inode]
  · have haddrs := sized_addrs (ino' i) (bs.length + p.length)
    rw [hself, List.length_append]
    refine ⟨fun m hm => ?_, ?_⟩
    · rw [leafAddr_of_addrs haddrs, hrew.busy.leafAddr_putInode hi]
      exact hsz.leaf m hm
    · rw [addr_of_addrs haddrs]
      exact hsz.ind

end Xv6.Mkfs

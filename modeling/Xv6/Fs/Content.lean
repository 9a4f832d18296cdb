import Xv6.Fs.Ops

/-!
# Inodes as byte arrays

The contents of an inode are the bytes of its blocks in order, and zeros where it has no block. `writei` and
`readi` are the write and the read of an array of bytes, and leave the contents of all other inodes alone.
Here all changes have been logged, so the buffers and the logged contents are the same.
-/

namespace Xv6.Fs

open Hoare (Triple Outcome)
open Function (update update_of_ne update_self)

variable {off n : BitVec 32} {f : Nat → BitVec 8}

/-! ## Arrays -/

section Arrays

variable {α : Type} {f f' s : Nat → α} {size off n : Nat}
variable {x : Dinode} {mem : Memory} {a bn m : Nat}

/-- The array with `s` written at `off`. -/
def overwrite (c : List α) (off : Nat) (s : List α) : List α := c.take off ++ s ++ c.drop (off + s.length)

/-- `n` elements from `off` on, or as many as there are. -/
def slice (c : List α) (off n : Nat) : List α := (c.drop off).take n

theorem overwrite_map_range (hoff : off ≤ size)
    (hf : ∀ t, f' t = if off ≤ t ∧ t < off + n then s (t - off) else f t) :
    (List.range (max size (off + n))).map f' = overwrite ((List.range size).map f) off ((List.range n).map s) := by
  unfold overwrite
  refine List.ext_getElem ?_ fun t h1 h2 => ?_
  · simp only [List.length_map, List.length_range, List.length_append, List.length_take, List.length_drop]
    omega
  · simp only [List.getElem_append, List.getElem_map, List.getElem_range, List.length_append, List.length_take,
      List.length_map, List.length_range, List.getElem_take, List.getElem_drop, hf]
    by_cases ht : t < off
    · rw [dif_pos (by omega), dif_pos (by omega), if_neg (by omega)]
    · by_cases ht' : t < off + n
      · rw [dif_pos (by omega), dif_neg (by omega), if_pos (by omega), Nat.min_eq_left hoff]
      · rw [dif_neg (by omega), if_neg (by omega)]
        congr 1
        omega

theorem length_overwrite {c : List α} (hoff : off ≤ c.length) (s : List α) :
    (overwrite c off s).length = max c.length (off + s.length) := by
  simp only [overwrite, List.length_append, List.length_take, List.length_drop]
  omega

theorem slice_map_range (off n : Nat) :
    slice ((List.range size).map f) off n = (List.range (min (off + n) size - off)).map fun k => f (off + k) := by
  unfold slice
  refine List.ext_getElem ?_ fun t h1 h2 => ?_
  · simp only [List.length_map, List.length_range, List.length_take, List.length_drop]
    omega
  · simp only [List.getElem_take, List.getElem_drop, List.getElem_map, List.getElem_range]

end Arrays

variable {g : Geometry} {v v' w w' : Blocks} {c : Icache} {ino ino' : Nat → Dinode}
  {ip : Fin NINODE} {i j : Nat}

/-! ## Contents -/

/-- The byte at offset `t` of an inode. -/
def content (x : Dinode) (v : Blocks) (t : Nat) : BitVec 8 :=
  if leafAddr x v (t / BSIZE) = 0 then 0 else (v (leafAddr x v (t / BSIZE))).get (t % BSIZE)

def contents (x : Dinode) (v : Blocks) : List (BitVec 8) := (List.range x.size.toNat).map (content x v)

theorem content_congr {t : Nat} (ha : leafAddr x v' (t / BSIZE) = leafAddr x v (t / BSIZE))
    (hv : leafAddr x v (t / BSIZE) ≠ 0 → v' (leafAddr x v (t / BSIZE)) = v (leafAddr x v (t / BSIZE))) :
    content x v' t = content x v t := by
  rw [content, content, ha]
  split_ifs with h0
  · rfl
  · rw [hv h0]

theorem Mapped.content (h : Mapped g i bn a ino v ino' v') (hj : j < g.ninodes) (t : Nat) :
    content (ino' j) v' t = content (ino j) v t := by
  unfold Fs.content
  by_cases h0 : leafAddr (ino j) v (t / BSIZE) = 0
  · rw [if_pos h0]
    by_cases hnew : j = i ∧ t / BSIZE = bn
    · obtain ⟨rfl, hbn⟩ := hnew
      rw [hbn] at h0 ⊢
      rw [h.addr, h.zero h0, if_neg h.pos]
      exact Bytes.get_zero _
    · rw [h.holes j _ hj (by tauto) h0, if_pos rfl]
  · rw [h.leaves j _ hj h0, if_neg h0, if_neg h0, h.data j _ hj h0]

theorem Mapped.map_of_ne (h : Mapped g i bn a ino v ino' v') (hj : j < g.ninodes) (hji : j ≠ i) :
    leafAddr (ino j) v' m = leafAddr (ino j) v m := by
  rw [← h.others j hji]
  by_cases h0 : leafAddr (ino j) v m = 0
  · rw [h.holes j m hj (.inl hji) h0, h.others j hji, h0]
  · rw [h.leaves j m hj h0, h.others j hji]

theorem Busy.content_write (h : Busy g ip i ino v w c) (ha : leafAddr (ino i) v m ≠ 0) (d : Block)
    (hj : j < g.ninodes) (t : Nat) : content (ino j) (update v (leafAddr (ino i) v m) d) t =
      if j = i ∧ t / BSIZE = m then d.get (t % BSIZE) else content (ino j) v t := by
  unfold content
  rw [h.leafAddr_write hj]
  by_cases hsame : j = i ∧ t / BSIZE = m
  · obtain ⟨rfl, hm⟩ := hsame
    rw [hm, if_neg ha, if_pos ⟨rfl, rfl⟩, update_self]
  · rw [if_neg hsame]
    by_cases h0 : leafAddr (ino j) v (t / BSIZE) = 0
    · rw [if_pos h0, if_pos h0]
    · rw [if_neg h0, if_neg h0, update_of_ne]
      intro heq
      have hslot := h.owns.inj (s := .leaf j (t / BSIZE)) (t := .leaf i m) hj h.lt heq h0
      cases hslot
      exact hsame ⟨rfl, rfl⟩

theorem Busy.content_store {off : Nat} (h : Busy g ip i ino v w c)
    (ha : leafAddr (ino i) v (off / BSIZE) ≠ 0) (hm : m ≤ BSIZE - off % BSIZE) (t : Nat) :
    content (ino i) (update v (leafAddr (ino i) v (off / BSIZE))
      ((v (leafAddr (ino i) v (off / BSIZE))).store (off % BSIZE) f m)) t =
      if off ≤ t ∧ t < off + m then f (t - off) else content (ino i) v t := by
  have hoff := Nat.div_add_mod off BSIZE
  have ht := Nat.div_add_mod t BSIZE
  rw [h.content_write ha _ h.lt]
  by_cases hin : off ≤ t ∧ t < off + m
  · have hbn := chunk hm hin.1 hin.2
    rw [hbn] at ht
    rw [if_pos ⟨rfl, hbn⟩, if_pos hin, Bytes.get_store, if_pos (by omega)]
    congr 1
    omega
  · split_ifs with hbn
    · have hbn := hbn.2
      rw [content, hbn, if_neg ha, Bytes.get_store, if_neg]
      rw [hbn] at ht
      omega
    · rfl

theorem Busy.bmap_settled (h : Busy g ip i ino v v c) (hbn : bn < MAXFILE) :
    Triple (Is v v c) (bmap g ip bn)
      (fun a s => ∃ ino' v', (Busy g ip i ino' v' v' (setD c ip (ino' i)) ∧ Mapped g i bn a ino v ino' v' ∧
        (leafAddr (ino i) v bn ≠ 0 → ino' = ino ∧ v' = v)) ∧ Is v' v' (setD c ip (ino' i)) s)
      fun e s => NoSpace g e s ∧ leafAddr (ino i) v bn = 0 := by
  by_cases h0 : leafAddr (ino i) v bn = 0
  · refine (bmap_spec h hbn).imp (fun _ hs => hs) ?_ fun _ _ he => ⟨he, h0⟩
    rintro a s ⟨ino', v', w', ⟨hb, hm, hset, -⟩, hs⟩
    rw [← hset rfl] at hb hs
    exact ⟨ino', v', ⟨hb, hm, fun hc => absurd h0 hc⟩, hs⟩
  · refine (h.bmap_of_mapped h0).post ?_
    rintro a s ⟨rfl, hs⟩
    have hself := setD_eq_self h.core
    exact ⟨ino, v, ⟨by rwa [hself], mapped_refl h0, fun _ => ⟨rfl, rfl⟩⟩, by rwa [hself]⟩

/-! ## `writei` -/

/-- Inode `i` has contents `f` now; the other inodes have the blocks and the contents they had. -/
structure Rewritten (g : Geometry) (ip : Fin NINODE) (i : Nat) (ino : Nat → Dinode) (v : Blocks)
    (c : Icache) (ino' : Nat → Dinode) (v' : Blocks) (f : Nat → BitVec 8) : Prop where
  busy : Busy g ip i ino' v' v' (setD c ip (ino' i))
  others : ∀ j, j ≠ i → ino' j = ino j
  fields : ino' i = { ino i with addrs := (ino' i).addrs }
  maps : ∀ j m, j < g.ninodes → j ≠ i → leafAddr (ino j) v' m = leafAddr (ino j) v m
  bytes : ∀ j t, j < g.ninodes → j ≠ i → content (ino j) v' t = content (ino j) v t
  new : ∀ t, content (ino' i) v' t = f t

theorem rewritten_refl (h : Busy g ip i ino v v c) : Rewritten g ip i ino v c ino v (content (ino i) v) where
  busy := by rwa [setD_eq_self h.core]
  others _ _ := rfl
  fields := rfl
  maps _ _ _ _ := rfl
  bytes _ _ _ _ := rfl
  new _ := rfl

theorem Rewritten.trans {ino₁ : Nat → Dinode} {v₁ : Blocks} {f₁ : Nat → BitVec 8}
    (h : Rewritten g ip i ino v c ino₁ v₁ f₁) (h' : Rewritten g ip i ino₁ v₁ (setD c ip (ino₁ i)) ino' v' f) :
    Rewritten g ip i ino v c ino' v' f where
  busy := by
    have hb := h'.busy
    rwa [setD_setD] at hb
  others j hj := (h'.others j hj).trans (h.others j hj)
  fields := by rw [h'.fields, h.fields]
  maps j m hj hji := by rw [← h.others j hji, h'.maps j m hj hji, h.others j hji, h.maps j m hj hji]
  bytes j t hj hji := by rw [← h.others j hji, h'.bytes j t hj hji, h.others j hji, h.bytes j t hj hji]
  new := h'.new

theorem Rewritten.congr {f' : Nat → BitVec 8} (h : Rewritten g ip i ino v c ino' v' f) (hf : ∀ t, f t = f' t) :
    Rewritten g ip i ino v c ino' v' f' := { h with new := fun t => (h.new t).trans (hf t) }

theorem Mapped.rewritten (h : Mapped g i bn a ino v ino' v') (hb : Busy g ip i ino' v' v' (setD c ip (ino' i))) :
    Rewritten g ip i ino v c ino' v' (Fs.content (ino i) v) where
  busy := hb
  others := h.others
  fields := h.fields
  maps _ _ hj hji := h.map_of_ne hj hji
  bytes j t hj hji := by rw [← h.others j hji, h.content hj, h.others j hji]
  new := h.content hb.lt

theorem Busy.rewritten_store {off : Nat} (h : Busy g ip i ino v v c)
    (ha : leafAddr (ino i) v (off / BSIZE) ≠ 0) (hm : m ≤ BSIZE - off % BSIZE) :
    Rewritten g ip i ino v c ino (update v (leafAddr (ino i) v (off / BSIZE))
      ((v (leafAddr (ino i) v (off / BSIZE))).store (off % BSIZE) f m))
      (fun t => if off ≤ t ∧ t < off + m then f (t - off) else content (ino i) v t) where
  busy := by
    rw [setD_eq_self h.core]
    exact h.write ha _
  others _ _ := rfl
  fields := rfl
  maps j m' hj _ := h.leafAddr_write hj _ m'
  bytes j t hj hji := by rw [h.content_write ha _ hj, if_neg fun hc => hji hc.1]
  new := h.content_store ha hm

/-- Bytes `[off, off + n)` of inode `x` are in blocks. -/
def Filled (x : Dinode) (v : Blocks) (off n : Nat) : Prop :=
  ∀ t, off ≤ t → t < off + n → leafAddr x v (t / BSIZE) ≠ 0

/-- The contents after `n - tot` more bytes have been copied from `src + tot`. -/
def written (f : Nat → BitVec 8) (mem : Memory) (src n tot off t : Nat) : BitVec 8 :=
  if off ≤ t ∧ t < off + (n - tot) then mem.bytesAt src (tot + (t - off)) else f t

theorem writeLoop_content {src n : Nat} (hmem : mem.Mapped src n) (k : Nat) :
    ∀ {ino : Nat → Dinode} {v : Blocks} {c : Icache} (tot off : Nat), n - tot ≤ k →
    off + (n - tot) ≤ MAXFILE * BSIZE → Busy g ip i ino v v c →
    Triple (Is v v c) (writeLoop g ip mem src n k tot off)
      (fun off' s => ∃ ino' v', (off' = off + (n - tot) ∧
        Rewritten g ip i ino v c ino' v' (written (content (ino i) v) mem src n tot off)) ∧
        Is v' v' (setD c ip (ino' i)) s) fun e s => NoSpace g e s ∧ ¬ Filled (ino i) v off (n - tot) := by
  have hstop : ∀ {ino : Nat → Dinode} {v : Blocks} {c : Icache} (tot off : Nat), n - tot = 0 →
      Busy g ip i ino v v c → ∀ s, Is v v c s → ∃ ino' v', (off = off + (n - tot) ∧
        Rewritten g ip i ino v c ino' v' (written (content (ino i) v) mem src n tot off)) ∧
        Is v' v' (setD c ip (ino' i)) s := by
    intro ino v c tot off h0 h s hs
    refine ⟨ino, v, ⟨by omega, (rewritten_refl h).congr fun t => (if_neg (by omega)).symm⟩, ?_⟩
    rwa [setD_eq_self h.core]
  induction k with
  | zero => exact fun tot off hk _ h => .pure (hstop tot off (by omega) h)
  | succ k ih =>
    intro ino v c tot off hk hmax h
    rw [writeLoop]
    refine .ite (fun hlt => ?_) fun hge => .pure (hstop tot off (by omega) h)
    obtain ⟨m, hm⟩ : ∃ m, m = min (n - tot) (BSIZE - off % BSIZE) := ⟨_, rfl⟩
    have hmod : off % BSIZE < BSIZE := Nat.mod_lt _ (by decide)
    have hbn := block_lt hlt hmax
    refine .bind_exists₂ ((h.bmap_settled hbn).err fun _ _ he =>
      ⟨he.1, fun hc => hc off (Nat.le_refl _) (by omega) he.2⟩) fun a ino₁ v₁ hmap => ?_
    obtain ⟨hb₁, hmapped, hsame⟩ := hmap
    obtain ⟨rfl, hpos⟩ : leafAddr (ino₁ i) v₁ (off / BSIZE) = a ∧ a ≠ 0 := ⟨hmapped.addr, hmapped.pos⟩
    refine .bind_fact (bread_spec rfl) fun d hd => ?_
    -- the chunk is copied in whole
    have hsrc : (src + tot) % 2 ^ 64 = src + tot := Nat.mod_eq_of_lt (Memory.lt_of_mapped hmem hlt)
    have hchunk : mem.Mapped (src + tot) m := fun t ht => by rw [Nat.add_assoc]; exact hmem _ (by omega)
    simp only [← hm, hsrc, Memory.eitherCopyin_ok mem d _ hchunk]
    subst hd
    refine .bind (modifyData_spec _) fun _ => ?_
    refine .bind logWrite_spec fun _ => ?_
    rw [update_self]
    have hr := (hmapped.rewritten hb₁).trans (hb₁.rewritten_store (f := mem.bytesAt (src + tot)) hpos
      (show m ≤ BSIZE - off % BSIZE by omega))
    refine (ih (tot + m) (off + m) (by omega) (by omega) hr.busy).imp (fun _ hs => hs) ?_ fun e s he =>
      ⟨he.1, fun hfilled => he.2 fun t h1 h2 => ?_⟩
    case refine_2 =>
      obtain ⟨rfl, rfl⟩ := hsame (hfilled off (Nat.le_refl _) (by omega))
      rw [hb₁.leafAddr_write h.lt]
      exact hfilled t (by omega) (by omega)
    rintro off' s ⟨ino', v', ⟨hoff, hrest⟩, hs⟩
    rw [setD_setD] at hs
    refine ⟨ino', v', ⟨by omega, (hr.trans hrest).congr fun t => ?_⟩, hs⟩
    rw [written, written, hr.new t, hmapped.content h.lt]
    by_cases hlater : off + m ≤ t ∧ t < off + m + (n - (tot + m))
    · rw [if_pos hlater, if_pos (by omega)]
      congr 1
      omega
    · rw [if_neg hlater]
      by_cases hnow : off ≤ t ∧ t < off + m
      · rw [if_pos hnow, if_pos (by omega), mem.bytesAt_add]
      · rw [if_neg hnow, if_neg (by omega)]

/-- Blocks have owners, and entry `ip` of the inode cache holds its inode as it is on disk. -/
structure Settled (g : Geometry) (ip : Fin NINODE) (v : Blocks) (c : Icache) : Prop where
  owns : Owns g (dinode g v) v
  lt : (c ip).inum < g.ninodes
  core : (c ip).d = dinode g v (c ip).inum
  size : (dinode g v (c ip).inum).size.toNat ≤ MAXFILE * BSIZE

theorem Settled.busy (h : Settled g ip v c) : Busy g ip (c ip).inum (dinode g v) v v c where
  owns := h.owns
  clean _ _ := rfl
  inds _ _ _ := rfl
  lt := h.lt
  inum := rfl
  core := h.core
  disk _ _ _ := rfl

/-- An inode has the size, the blocks and the contents it had. -/
structure Unchanged (g : Geometry) (v v' : Blocks) (j : Nat) : Prop where
  inode : dinode g v' j = dinode g v j
  map : ∀ m, leafAddr (dinode g v' j) v' m = leafAddr (dinode g v j) v m
  contents : contents (dinode g v' j) v' = contents (dinode g v j) v

/-- The contents of the inode of entry `ip` have changed to `bs`, and no other inode has changed. -/
structure Wrote (g : Geometry) (ip : Fin NINODE) (v : Blocks) (c : Icache) (bs : List (BitVec 8))
    (v' : Blocks) (c' : Icache) : Prop where
  settled : Settled g ip v' c'
  entry : c' = setD c ip (dinode g v' (c ip).inum)
  contents : contents (dinode g v' (c ip).inum) v' = bs
  others : ∀ j, j < g.ninodes → j ≠ (c ip).inum → Unchanged g v v' j

theorem Settled.wrote_self (h : Settled g ip v c) : Wrote g ip v c (contents (dinode g v (c ip).inum) v) v c where
  settled := h
  entry := (setD_eq_self h.core).symm
  contents := rfl
  others _ _ _ := ⟨rfl, fun _ => rfl, rfl⟩

theorem content_of_addrs {y : Dinode} (h : y.addrs = x.addrs) (t : Nat) : content y v t = content x v t := by
  rw [content, content, leafAddr_of_addrs h]

theorem Busy.content_putInode (h : Busy g ip i ino v w c) (hj : j < g.ninodes) (x : Dinode) (t : Nat) :
    content (ino j) (Fs.putInode g v i x) t = content (ino j) v t := by
  refine content_congr (h.leafAddr_putInode hj x _) fun h0 => putInode_of_ne ?_
  have : g.datastart ≤ leafAddr (ino j) v (t / BSIZE) := (h.owns.range (s := .leaf j (t / BSIZE)) hj h0).1
  have := g.iblock_lt_datastart h.lt
  omega

theorem Rewritten.wrote {off n : Nat} {s : Nat → BitVec 8} (h : Settled g ip v c) (hoff : off ≤ (c ip).d.size.toNat)
    (hmax : off + n ≤ MAXFILE * BSIZE) (hr : Rewritten g ip (c ip).inum (dinode g v) v c ino' v' f)
    (hf : ∀ t, f t = if off ≤ t ∧ t < off + n then s (t - off) else content (dinode g v (c ip).inum) v t) :
    Wrote g ip v c (overwrite (contents (dinode g v (c ip).inum) v) off ((List.range n).map s))
      (putInode g v' (c ip).inum (sized (ino' (c ip).inum) (off + n)))
      (setD c ip (sized (ino' (c ip).inum) (off + n))) := by
  obtain ⟨y, hy⟩ : ∃ y, y = sized (ino' (c ip).inum) (off + n) := ⟨_, rfl⟩
  have haddrs : y.addrs = (ino' (c ip).inum).addrs := by rw [hy, sized_addrs]
  have hsize : y.size.toNat = max (dinode g v (c ip).inum).size.toNat (off + n) := by
    rw [hy, sized_size _ hmax, hr.fields]
  rw [← hy]
  have hself := dinode_putInode_self (g := g) v' (c ip).inum y
  have hb := (hr.busy.setMeta haddrs).putInode y
  have hother : ∀ j, j < g.ninodes → j ≠ (c ip).inum → dinode g (putInode g v' (c ip).inum y) j = dinode g v j := by
    intro j hj hji
    rw [hb.disk j hj hji, update_of_ne hji, hr.others j hji]
  constructor
  case settled =>
    refine ⟨hb.owns.congr_inodes fun j hj => ?_, by rw [setD_self]; exact h.lt, by rw [setD_self, hself], ?_⟩
    case refine_2 =>
      rw [setD_self, hself, hsize]
      exact Nat.max_le.mpr ⟨h.size, hmax⟩
    by_cases hji : j = (c ip).inum
    · rw [hji, hself, update_self]
    · exact hb.disk j hj hji
  case entry => rw [hself]
  case contents =>
    rw [hself, contents, hsize]
    refine overwrite_map_range (by rw [← h.core]; exact hoff) fun t => ?_
    rw [content_of_addrs haddrs, hr.busy.content_putInode hr.busy.lt, hr.new, hf]
  case others =>
    intro j hj hji
    have hmap := fun m => hr.busy.leafAddr_putInode hj y m
    have hbytes := fun t => hr.busy.content_putInode hj y t
    rw [hr.others j hji] at hmap hbytes
    refine ⟨hother j hj hji, fun m => ?_, ?_⟩
    · rw [hother j hj hji, hmap, hr.maps j m hj hji]
    · rw [hother j hj hji, contents, contents]
      refine List.map_congr_left fun t _ => ?_
      rw [hbytes, hr.bytes j t hj hji]

theorem writei_content {src : Nat} (h : Settled g ip v c) (hin : Accepts (c ip).d.size off n)
    (hmem : mem.Mapped src n.toNat) : Triple (Is v v c) (writei g ip mem src off n)
      (fun r s => r = n.toNat ∧ ∃ v' c', (Wrote g ip v c (overwrite (contents (dinode g v (c ip).inum) v) off.toNat
        (mem.bytes src n.toNat)) v' c' ∧ ∃ size addrs, dinode g v' (c ip).inum =
        { dinode g v (c ip).inum with size, addrs }) ∧
        Is v' v' c' s)
      fun e s => NoSpace g e s ∧ ¬ Filled (dinode g v (c ip).inum) v off.toNat n.toNat := by
  obtain ⟨hoff, hlast⟩ := hin
  refine writei_rule (fun s hs => congrFun hs.icache ip) (fun hout => absurd ⟨hoff, hlast⟩ hout)
    (fun _ hn s hs => ?_) fun _ hn => ?_
  · have hnil : overwrite (contents (dinode g v (c ip).inum) v) off.toNat (mem.bytes src n.toNat) =
        contents (dinode g v (c ip).inum) v := by
      simp [overwrite, Memory.bytes, hn]
    rw [hnil]
    exact ⟨by rw [hn]; rfl, v, c, ⟨h.wrote_self, _, _, rfl⟩, hs⟩
  · refine .bind_exists₂ (writeLoop_content hmem n.toNat 0 off.toNat (by omega) (by omega) h.busy)
      fun off' ino' v' hw => ?_
    obtain ⟨rfl, hr⟩ := hw
    refine (writeBack_spec hr.busy).post fun _ s hs => ⟨rfl, _, _, ⟨?_, ?_⟩, hs⟩
    · rw [setD_setD]
      refine Rewritten.wrote h hoff hlast hr fun t => ?_
      rw [written, Nat.sub_zero, Nat.zero_add]
    · rw [dinode_putInode_self, sized, hr.fields]
      split
      · exact ⟨_, _, rfl⟩
      · exact ⟨_, _, rfl⟩

/-! ## `readi` -/

/-- `mem'` has bytes `f` at `[a, a + n)` and is otherwise `mem`. -/
def Copied (f : Nat → BitVec 8) (a n : Nat) (mem mem' : Memory) : Prop :=
  ∀ k, mem'.byte k = if a ≤ k ∧ k < a + n then some (f (k - a)) else mem.byte k

theorem content_chunk {off k : Nat} (ha : leafAddr x v (off / BSIZE) ≠ 0) (hk : k < BSIZE - off % BSIZE) :
    content x v (off + k) = (v (leafAddr x v (off / BSIZE))).get (off % BSIZE + k) := by
  have hbn : (off + k) / BSIZE = off / BSIZE := chunk (m := k + 1) (by omega) (by omega) (by omega)
  have hoff := Nat.div_add_mod off BSIZE
  have hsum := Nat.div_add_mod (off + k) BSIZE
  rw [hbn] at hsum
  rw [content, hbn, if_neg ha]
  congr 1
  omega

theorem readLoop_content {dst n : Nat} (k : Nat) : ∀ {ino : Nat → Dinode} {v : Blocks}
    {c : Icache} (tot off : Nat) (mem : Memory), tot ≤ n → n - tot ≤ k → off + (n - tot) ≤ MAXFILE * BSIZE →
    Busy g ip i ino v v c → mem.Mapped (dst + tot) (n - tot) →
    Triple (Is v v c) (readLoop g ip dst n k tot off mem)
      (fun r s => r.1 = n ∧ Copied (fun t => content (ino i) v (off + t)) (dst + tot) (n - tot) mem r.2 ∧
        (Filled (ino i) v off (n - tot) → Is v v c s))
      fun e s => NoSpace g e s ∧ ¬ Filled (ino i) v off (n - tot) := by
  have hstop : ∀ {ino : Nat → Dinode} {v : Blocks} {c : Icache} (tot off : Nat) (mem : Memory),
      n = tot → ∀ s, Is v v c s → (tot, mem).1 = n ∧
        Copied (fun t => content (ino i) v (off + t)) (dst + tot) (n - tot) mem (tot, mem).2 ∧
        (Filled (ino i) v off (n - tot) → Is v v c s) := by
    intro ino v c tot off mem h s hs
    exact ⟨h.symm, fun a => by rw [if_neg (by omega)], fun _ => hs⟩
  induction k with
  | zero => exact fun tot off mem _ _ _ _ _ => .pure (hstop tot off mem (by omega))
  | succ k ih =>
    intro ino v c tot off mem htot hk hmax h hmem
    rw [readLoop]
    refine .ite (fun hlt => ?_) fun _ => .pure (hstop tot off mem (by omega))
    obtain ⟨m, hm⟩ : ∃ m, m = min (n - tot) (BSIZE - off % BSIZE) := ⟨_, rfl⟩
    have hmod : off % BSIZE < BSIZE := Nat.mod_lt _ (by decide)
    have hbn := block_lt hlt hmax
    refine .bind_exists₂ ((h.bmap_settled hbn).err fun _ _ he =>
      ⟨he.1, fun hc => hc off (Nat.le_refl _) (by omega) he.2⟩) fun a ino₁ v₁ hmap => ?_
    obtain ⟨hb₁, hmapped, hsame⟩ := hmap
    obtain ⟨rfl, hpos⟩ : leafAddr (ino₁ i) v₁ (off / BSIZE) = a ∧ a ≠ 0 := ⟨hmapped.addr, hmapped.pos⟩
    refine .read (bread_spec rfl) ?_
    have hdst : (dst + tot) % 2 ^ 64 = dst + tot :=
      Nat.mod_eq_of_lt (Memory.lt_of_mapped (k := 0) hmem (by omega))
    obtain ⟨mem₁, hcopy, hbyte⟩ := mem.eitherCopyout_ok
      (fun t => (v₁ (leafAddr (ino₁ i) v₁ (off / BSIZE))).get (off % BSIZE + t))
      (show mem.Mapped (dst + tot) m from fun t ht => hmem t (by omega))
    simp only [← hm, hdst, hcopy]
    have hmem₁ : mem₁.Mapped (dst + (tot + m)) (n - (tot + m)) := by
      intro t ht
      rw [hbyte, if_neg (by omega), show dst + (tot + m) + t = dst + tot + (m + t) by omega]
      exact hmem _ (by omega)
    refine (ih (tot + m) (off + m) mem₁ (by omega) (by omega) (by omega) hb₁ hmem₁).imp (fun _ hs => hs) ?_ ?_
    · rintro ⟨r, mem'⟩ s ⟨hr, hcop, hfill⟩
      refine ⟨hr, fun a => ?_, fun hfilled => ?_⟩
      · rw [hcop a, hbyte a]
        by_cases hlater : dst + (tot + m) ≤ a ∧ a < dst + (tot + m) + (n - (tot + m))
        · rw [if_pos hlater, if_pos (by omega)]
          refine congrArg some ((hmapped.content h.lt _).trans (congrArg _ ?_))
          omega
        · rw [if_neg hlater]
          by_cases hnow : dst + tot ≤ a ∧ a < dst + tot + m
          · rw [if_pos hnow, if_pos (by omega)]
            refine congrArg some ((content_chunk hpos ?_).symm.trans (hmapped.content h.lt _))
            omega
          · rw [if_neg hnow, if_neg (by omega)]
      · obtain ⟨rfl, rfl⟩ := hsame (hfilled off (Nat.le_refl _) (by omega))
        have hs := hfill fun t h1 h2 => hfilled t (by omega) (by omega)
        rwa [setD_eq_self h.core] at hs
    · rintro e s ⟨he, hnf⟩
      refine ⟨he, fun hfilled => ?_⟩
      obtain ⟨rfl, rfl⟩ := hsame (hfilled off (Nat.le_refl _) (by omega))
      exact hnf fun t h1 h2 => hfilled t (by omega) (by omega)

/-- The bytes `readi` reads: none if the offset is past the end or `off + n` wraps. -/
def readBytes (c : List (BitVec 8)) (off n : Nat) : List (BitVec 8) :=
  if off > c.length ∨ off + n ≥ 2 ^ 32 then [] else slice c off n

theorem length_contents (x : Dinode) (v : Blocks) : (contents x v).length = x.size.toNat := by
  rw [contents, List.length_map, List.length_range]

theorem not_wraps_iff : ¬ off + n < off ↔ off.toNat + n.toNat < 2 ^ 32 := by
  rw [BitVec.lt_def, BitVec.toNat_add]
  omega

theorem readBytes_eq (h : ¬ (off > x.size ∨ off + n < off)) :
    readBytes (contents x v) off.toNat n.toNat =
      (List.range (min (off.toNat + n.toNat) x.size.toNat - off.toNat)).map fun k => content x v (off.toNat + k) := by
  rw [not_or, not_wraps_iff, gt_iff_lt, BitVec.lt_def] at h
  rw [readBytes, length_contents, if_neg (by omega), contents, slice_map_range]

theorem readBytes_nil (h : off > x.size ∨ off + n < off) :
    readBytes (contents x v) off.toNat n.toNat = [] := by
  rw [readBytes, length_contents]
  refine if_pos (h.imp (fun hgt => BitVec.lt_def.mp hgt) fun hlt => ?_)
  by_contra hc
  exact not_wraps_iff.mpr (by omega) hlt

theorem readi_content {dst : Nat} {bs : List (BitVec 8)} (h : Settled g ip v c)
    (hbs : bs = readBytes (contents (dinode g v (c ip).inum) v) off.toNat n.toNat) (hmem : mem.Mapped dst bs.length) :
    Triple (Is v v c) (readi g ip mem dst off n)
      (fun r s => r.1 = bs.length ∧ Copied (fun k => bs.getD k 0) dst r.1 mem r.2 ∧
        (Filled (dinode g v (c ip).inum) v off.toNat bs.length → Is v v c s))
      fun e s => NoSpace g e s ∧ ¬ Filled (dinode g v (c ip).inum) v off.toNat bs.length := by
  refine .read (getInode_spec ip) ?_
  rw [h.core]
  by_cases hcheck : off > (dinode g v (c ip).inum).size ∨ off + n < off
  · rw [readBytes_nil hcheck] at hbs
    rw [if_pos hcheck, hbs]
    exact .pure fun s hs => ⟨rfl, fun k => (if_neg (by simp)).symm, fun _ => hs⟩
  · have hclip := readi_clip hcheck
    rw [readBytes_eq hcheck] at hbs
    subst hbs
    rw [if_neg hcheck]
    simp only [List.length_map, List.length_range] at hmem ⊢
    obtain ⟨n', hn'⟩ : ∃ n', n' = (if off + n > (dinode g v (c ip).inum).size then
      (dinode g v (c ip).inum).size - off else n).toNat := ⟨_, rfl⟩
    rw [← hn'] at hclip ⊢
    have hlen : min (off.toNat + n.toNat) (dinode g v (c ip).inum).size.toNat - off.toNat = n' := by omega
    rw [hlen] at hmem ⊢
    have hsize := h.size
    refine (readLoop_content n' 0 off.toNat mem (Nat.zero_le _) (by omega) (by omega) h.busy hmem).post ?_
    rintro r s ⟨hr, hcop, hs⟩
    refine ⟨hr, fun k => ?_, hs⟩
    rw [hcop k, Nat.add_zero, Nat.sub_zero, hr]
    split_ifs with hk
    · beta_reduce
      rw [List.getD_eq_getElem?_getD, List.getElem?_map, List.getElem?_range (by omega)]
      rfl
    · rfl

theorem length_readBytes (c : List (BitVec 8)) (off n : Nat) : off + (readBytes c off n).length ≤ max off c.length := by
  unfold readBytes slice
  split_ifs
  · simp
  · rw [List.length_take, List.length_drop]
    omega

theorem Filled.read (h : Filled x v 0 x.size.toNat) (off n : Nat) :
    Filled x v off (readBytes (contents x v) off n).length := by
  intro t h1 h2
  have := length_readBytes (contents x v) off n
  rw [length_contents] at this
  exact h t (Nat.zero_le _) (by omega)

/-- For every state in which blocks have owners and every inode, offset and length. `writei` out of bounds
returns -1 and changes nothing; otherwise it writes into the array of bytes, unless `balloc` finds no free
block. `readi` reads from the array; it can only fail on a file with holes. -/
theorem inode_byte_array (g : Geometry) (ip : Fin NINODE) (v : Blocks) (c : Icache)
    (h : Settled g ip v c) (mem : Memory) (a : Nat) (off n : BitVec 32) (s : State) (hs : Is v v c s) :
    let x := dinode g v (c ip).inum
    let bs := readBytes (contents x v) off.toNat n.toNat
    let bounds := off.toNat ≤ (contents x v).length ∧ off.toNat + n.toNat < 2 ^ 32 ∧
      off.toNat + n.toNat ≤ MAXFILE * BSIZE
    (¬ bounds → writei g ip mem a off n s = .ok (-1) s) ∧
    (bounds → mem.Mapped a n.toNat → Outcome
      (fun (r : Int) t => r = n.toNat ∧
        ∃ v' c', Wrote g ip v c (overwrite (contents x v) off.toNat (mem.bytes a n.toNat)) v' c' ∧ Is v' v' c' t)
      (NoSpace g) (writei g ip mem a off n s)) ∧
    (mem.Mapped a bs.length → Outcome
      (fun r t => r.1 = bs.length ∧ Copied (fun k => bs.getD k 0) a r.1 mem r.2 ∧
        (Filled x v 0 x.size.toNat → Is v v c t))
      (fun e t => NoSpace g e t ∧ ¬ Filled x v 0 x.size.toNat) (readi g ip mem a off n s)) := by
  intro x bs bounds
  have hM : MAXFILE * BSIZE < 2 ^ 32 := by decide
  have hbounds : bounds ↔ Accepts (c ip).d.size off n := by
    rw [Accepts, h.core, ← length_contents _ v]
    exact and_congr_right fun _ => ⟨fun hin => hin.2, fun hin => ⟨by omega, hin⟩⟩
  rw [hbounds]
  refine ⟨fun hout => ?_, fun hin hmem => ?_, fun hmem => ?_⟩
  · obtain ⟨r, t, hrun, rfl, rfl⟩ := (writei_rule (Q := fun r u => r = -1 ∧ u = s) (E := fun _ _ => False)
      (fun u (hu : u = s) => by rw [hu, hs.icache]) (fun _ u hu => ⟨rfl, hu⟩) (fun hin => absurd hin hout)
      fun hin => absurd hin hout).exists_ok rfl fun _ _ he => he
    exact hrun
  · refine (writei_content h hin hmem).imp (fun _ hs => hs) ?_ (fun e s he => he.1) s hs
    rintro r t ⟨hr, v', c', hw, ht⟩
    exact ⟨hr, v', c', hw.1, ht⟩
  · refine ((readi_content h rfl hmem).imp (fun _ hs => hs) ?_ fun e s he => ⟨he.1, fun hf => he.2 (hf.read _ _)⟩) s hs
    exact fun r s hr => ⟨hr.1, hr.2.1, fun hf => hr.2.2 (hf.read _ _)⟩

/-! ## A full disk -/

/-- A disk with one data block. -/
def tiny : Geometry where
  magic := FSMAGIC
  size := 7
  nblocks := 1
  ninodes := 3
  nlog := 2
  logstart := 2
  inodestart := 4
  bmapstart := 5
  log_fits := by decide
  inodes_fit := by decide
  bitmap_fits := by decide
  size_lt := by decide

/-- A file with the data block. -/
def oneByte : Dinode := { type := 2, nlink := 1, size := 1, addrs := fun k => if k.val = 0 then 6 else 0 }

def noBytes : Dinode := { type := 2, nlink := 1 }

def fullImage : Blocks :=
  putInode tiny (putInode tiny (fun b j => if b = 5 ∧ j.val = 0 then 127 else 0) 1 oneByte) 2 noBytes

def fullCache (ip : Fin NINODE) : Inode :=
  if ip.val = 0 then { inum := 1, ref := 1, valid := true, d := oneByte }
  else { inum := 2, ref := 1, valid := true, d := noBytes }

theorem dinode_fullImage_one : dinode tiny fullImage 1 = oneByte := by
  rw [fullImage, dinode_putInode_of_ne (by decide), dinode_putInode_self]

theorem dinode_fullImage_two : dinode tiny fullImage 2 = noBytes := dinode_putInode_self _ _ _

theorem dinode_fullImage_zero : (dinode tiny fullImage 0).addrs = fun _ => 0 := by
  rw [fullImage, dinode_putInode_of_ne (by decide), dinode_putInode_of_ne (by decide)]
  exact funext fun k => Bytes.field_eq_zero fun i _ => Bytes.get_zero _

section Tiny

variable {v : Blocks} (h0 : (dinode tiny v 0).addrs = fun _ => 0) (h1 : (dinode tiny v 1).addrs = oneByte.addrs)
  (h2 : (dinode tiny v 2).addrs = fun _ => 0)

include h0 h1 h2

theorem refs_tiny {s : Slot} {b : Nat} : refs tiny (dinode tiny v) v s = some b ↔ s = .leaf 1 0 ∧ b = 6 := by
  have haddr : ∀ k, (dinode tiny v 1).addr k = if k = 0 then 6 else 0 := by
    intro k
    unfold Dinode.addr
    rw [h1]
    by_cases hk : k = 0
    · rw [hk]
      rfl
    · simp [oneByte, hk]
  have hone : ∀ m, leafAddr (dinode tiny v 1) v m = if m = 0 then 6 else 0 := by
    intro m
    have hind : (dinode tiny v 1).addr NDIRECT = 0 := by rw [haddr]; rfl
    rw [leafAddr, haddr]
    by_cases hm : m = 0
    · rw [hm, if_pos (by decide)]
    · split_ifs with h1 h2
      · rfl
      · exact absurd hind h2.2
      · rfl
  by_cases hs : s.inum = 1
  · rw [refs_eq_some]
    cases s with
    | leaf j m =>
      obtain rfl : j = 1 := hs
      rw [slotAddr, hone, Slot.leaf.injEq]
      split_ifs with hm
      · exact ⟨fun h => ⟨⟨rfl, hm⟩, h.2.1.symm⟩, fun h => ⟨(by decide : 1 < 3), h.2.symm, by rw [h.2]; decide⟩⟩
      · exact ⟨fun h => absurd h.2.1.symm h.2.2, fun h => absurd h.1.2 hm⟩
    | ind j =>
      obtain rfl : j = 1 := hs
      rw [slotAddr, haddr]
      exact ⟨fun h => absurd h.2.1.symm h.2.2, fun h => by cases h.1⟩
  · have hnone : refs tiny (dinode tiny v) v s = none := by
      by_cases hlt : s.inum < tiny.ninodes
      · have hlt : s.inum < 3 := hlt
        refine refs_of_no_addrs ?_
        obtain hs | hs : s.inum = 0 ∨ s.inum = 2 := by omega
        · rw [hs, h0]
        · rw [hs, h2]
      · exact if_neg fun hc => hlt hc.1
    rw [hnone]
    refine ⟨fun h => (by cases h), fun h => ?_⟩
    rw [h.1] at hs
    exact absurd rfl hs

theorem owns_tiny (hused : ∀ b, b < tiny.size → used tiny v b = true) : Owns tiny (dinode tiny v) v := by
  have hsix : ∀ b, tiny.datastart ≤ b ∧ b < tiny.size → b = 6 := by
    rintro b ⟨h1, h2⟩
    have h1 : 6 ≤ b := h1
    have h2 : b < 7 := h2
    omega
  refine ⟨fun b hb => by omega, fun b hb => hused b ?_, fun b hb => ⟨fun _ => ?_, fun _ => hused b hb.2⟩,
    fun s t b hs ht => ?_, fun s b hs => ?_⟩
  · exact Nat.lt_of_lt_of_le hb (by decide)
  · exact ⟨.leaf 1 0, (refs_tiny h0 h1 h2).mpr ⟨rfl, hsix b hb⟩⟩
  · rw [((refs_tiny h0 h1 h2).mp hs).1, ((refs_tiny h0 h1 h2).mp ht).1]
  · rw [((refs_tiny h0 h1 h2).mp hs).2]
    decide

end Tiny

theorem owns_fullImage : Owns tiny (dinode tiny fullImage) fullImage := by
  refine owns_tiny dinode_fullImage_zero (by rw [dinode_fullImage_one])
    (by rw [dinode_fullImage_two]; rfl) fun b hb => ?_
  revert b
  decide

theorem settled_fullImage : Settled tiny ip fullImage fullCache := by
  refine ⟨owns_fullImage, ?_, ?_, ?_⟩
  · unfold fullCache
    split <;> decide
  · unfold fullCache
    split
    · exact dinode_fullImage_one.symm
    · exact dinode_fullImage_two.symm
  · unfold fullCache
    split
    · decide
    · decide

def fullState : State := { buf := fullImage, disk := fullImage, icache := fullCache }

/-- A page of sevens at address 0, and nothing else. -/
def onePage : UserMem where
  page k := if k = 0 then some fun _ => 7 else none
  above k hk := if_neg fun h0 => by
    subst h0
    exact absurd hk (by decide)

/-- The byte of the file with the data block is overwritten. -/
theorem inode_byte_array_fullImage :
    ∃ t v' c', writei tiny ⟨0, by decide⟩ (.kernel fun _ => 7) 0 0 1 fullState = .ok 1 t ∧ Is v' v' c' t ∧
      Wrote tiny ⟨0, by decide⟩ fullImage fullCache (overwrite
        (contents (dinode tiny fullImage (fullCache ⟨0, by decide⟩).inum) fullImage) 0
        ((Memory.kernel fun _ => 7).bytes 0 1)) v' c' := by
  obtain ⟨t, hw⟩ : ∃ t, writei tiny ⟨0, by decide⟩ (.kernel fun _ => 7) 0 0 1 fullState = .ok 1 t := by decide +kernel
  have h := (inode_byte_array tiny ⟨0, by decide⟩ fullImage fullCache settled_fullImage (.kernel fun _ => 7) 0 0 1
    fullState ⟨rfl, rfl, rfl⟩).2.1 ⟨Nat.zero_le _, by decide, by decide⟩ fun k hk => ?_
  · rw [hw] at h
    obtain ⟨-, v', c', hwrote, hs⟩ := h
    exact ⟨t, v', c', hw, hs, hwrote⟩
  · obtain rfl : k = 0 := Nat.lt_one_iff.mp hk
    decide

/-- Blocks have owners, the write is in bounds and the byte can be copied in; but there is no free block, and
`writei` does not return. -/
theorem writei_full_disk : Settled tiny ⟨1, by decide⟩ fullImage fullCache ∧
    (contents (dinode tiny fullImage (fullCache ⟨1, by decide⟩).inum) fullImage).length = 0 ∧
    (Memory.kernel fun _ => 7).Mapped 0 1 ∧
    ∃ t, writei tiny ⟨1, by decide⟩ (.kernel fun _ => 7) 0 0 1 fullState = .error .ballocOutOfBlocks t := by
  refine ⟨settled_fullImage, ?_, fun k hk => ?_, ?_⟩
  · rfl
  · obtain rfl : k = 0 := by omega
    decide
  · have herr : (match writei tiny ⟨1, by decide⟩ (.kernel fun _ => 7) 0 0 1 fullState with
        | .ok _ _ => false
        | .error e _ => decide (e = .ballocOutOfBlocks)) = true := by decide +kernel
    cases hx : writei tiny ⟨1, by decide⟩ (.kernel fun _ => 7) 0 0 1 fullState with
    | ok r t => rw [hx] at herr; cases herr
    | error e t =>
      rw [hx] at herr
      exact ⟨t, by rw [of_decide_eq_true herr]⟩

end Xv6.Fs

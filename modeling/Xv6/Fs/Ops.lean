import Xv6.Fs.Map

/-!
# The operations on inodes keep the image consistent

`Inv` is what holds between two operations. Each operation of `kernel/fs.c` on an inode keeps it, or ends in
one of the panics that say so; `freeing free block` is not among them.
-/

namespace Xv6.Fs

open Hoare (Triple Agrees)
open Ownership (Owned)
open Function (update_of_ne update_self)

variable {g : Geometry} {v v' w w' : Blocks} {c : Icache} {ino ino' : Nat → Dinode}
  {ip : Fin NINODE} {i b : Nat} {E : Panic → State → Prop}
variable {mem : Memory} {dst j m : Nat}
variable {y : Dinode} {off n : BitVec 32} {src : Nat}

/-- An inode on its own: free inodes have no blocks, and there is a block for every byte of a file. -/
structure InodeOk (x : Dinode) (v : Blocks) : Prop where
  free : x.type = 0 → x.addrs = fun _ => 0
  size : x.size.toNat ≤ MAXFILE * BSIZE
  filled : ∀ t, t < x.size.toNat → leafAddr x v (t / BSIZE) ≠ 0

/-- The inode cache: entries in use are for different inodes, and valid ones have the inode on disk. -/
structure Cached (g : Geometry) (v : Blocks) (c : Icache) : Prop where
  lt : ∀ ip, 0 < (c ip).ref → (c ip).inum < g.ninodes
  valid : ∀ ip, 0 < (c ip).ref → (c ip).valid = true → (c ip).d = dinode g v (c ip).inum ∧ (c ip).d.type ≠ 0
  uniq : ∀ ip iq, 0 < (c ip).ref → 0 < (c iq).ref → (c ip).inum = (c iq).inum → ip = iq

structure Inv (g : Geometry) (v w : Blocks) (c : Icache) : Prop where
  owns : Owns g (dinode g v) v
  clean : Clean g v w
  inds : ∀ j, j < g.ninodes → (dinode g v j).addr NDIRECT ≠ 0 →
    v ((dinode g v j).addr NDIRECT) = w ((dinode g v j).addr NDIRECT)
  inodes : ∀ j, j < g.ninodes → InodeOk (dinode g v j) v
  cache : Cached g v c

/-- Entry `ip` is locked and holds a valid copy. -/
structure Locked (g : Geometry) (ip : Fin NINODE) (v w : Blocks) (c : Icache) : Prop
    extends Inv g v w c where
  ref : 0 < (c ip).ref
  isValid : (c ip).valid = true

theorem Locked.busy (h : Locked g ip v w c) : Busy g ip (c ip).inum (dinode g v) v w c where
  owns := h.owns
  clean := h.clean
  inds := h.inds
  lt := h.cache.lt ip h.ref
  inum := rfl
  core := (h.cache.valid ip h.ref h.isValid).1
  disk _ _ _ := rfl

theorem Owns.congr_inodes (h : Owns g ino v) (hino : ∀ j, j < g.ninodes → ino' j = ino j) : Owns g ino' v :=
  Owned.congr h (fun _ => refs_congr fun hs => slotAddr_congr (hino _ hs) fun _ => rfl) fun _ _ => Iff.rfl

theorem Busy.inv {c' : Icache} (h : Busy g ip i ino v w c) (hdisk : dinode g v i = ino i)
    (hok : ∀ j, j < g.ninodes → InodeOk (ino j) v) (hcache : Cached g v c') : Inv g v w c' := by
  have hino : ∀ j, j < g.ninodes → dinode g v j = ino j := by
    intro j hj
    by_cases hji : j = i
    · rw [hji]; exact hdisk
    · exact h.disk j hj hji
  exact {
    owns := h.owns.congr_inodes hino
    clean := h.clean
    inds := fun j hj ha => by
      rw [hino j hj] at ha ⊢
      exact h.inds j hj ha
    inodes := fun j hj => by rw [hino j hj]; exact hok j hj
    cache := hcache }

theorem Cached.update {y : Inode} (h : Cached g v c) (hip : 0 < (c ip).ref) (hinum : y.inum = (c ip).inum)
    (hdisk : ∀ j, j < g.ninodes → j ≠ (c ip).inum → dinode g v' j = dinode g v j)
    (hy : 0 < y.ref → y.valid = true → y.d = dinode g v' y.inum ∧ y.d.type ≠ 0) :
    Cached g v' (Function.update c ip y) := by
  have hsame : ∀ iq, 0 < (Function.update c ip y iq).ref →
      0 < (c iq).ref ∧ (Function.update c ip y iq).inum = (c iq).inum := by
    intro iq hq
    by_cases hqp : iq = ip
    · subst hqp
      rw [update_self]
      exact ⟨hip, hinum⟩
    · rw [update_of_ne hqp] at hq ⊢
      exact ⟨hq, rfl⟩
  refine ⟨fun iq hq => ?_, fun iq hq hv => ?_, fun iq ir hq hr he => ?_⟩
  · rw [(hsame iq hq).2]
    exact h.lt iq (hsame iq hq).1
  · by_cases hqp : iq = ip
    · subst hqp
      rw [update_self] at hq hv ⊢
      exact hy hq hv
    · rw [update_of_ne hqp] at hq hv ⊢
      have hne : (c iq).inum ≠ (c ip).inum := fun he => hqp (h.uniq iq ip hq hip he)
      rw [hdisk _ (h.lt iq hq) hne]
      exact h.valid iq hq hv
  · rw [(hsame iq hq).2, (hsame ir hr).2] at he
    exact h.uniq iq ir (hsame iq hq).1 (hsame ir hr).1 he

/-! ## `ilock` -/

theorem ilock_spec (h : Inv g v w c) (href : 0 < (c ip).ref) : Triple (Is v w c) (ilock g ip)
    (fun _ s => ∃ c', (Locked g ip v w c' ∧ (c' ip).inum = (c ip).inum ∧ (c' ip).ref = (c ip).ref ∧
      ∀ iq, iq ≠ ip → c' iq = c iq) ∧ Is v w c' s) fun e _ => e = .ilockNoType := by
  refine .read (getInode_spec ip) ?_
  rw [if_neg (by omega)]
  refine .ite (fun hv => .pure fun s hs => ⟨c, ⟨⟨h, href, hv⟩, rfl, rfl, fun _ _ => rfl⟩, hs⟩) fun hv => ?_
  have hclean := h.clean _ (g.iblock_lt_datastart (h.cache.lt ip href))
  refine .read (bread_spec hclean) ?_
  refine .bind (modifyInode_spec ip _) fun _ => .ite (fun _ s _ => rfl) fun htype => ?_
  refine .pure fun s hs => ⟨_, ⟨⟨⟨h.owns, h.clean, h.inds, h.inodes, ?_⟩, ?_, ?_⟩, ?_, ?_, fun iq hq => ?_⟩, hs⟩
  · exact h.cache.update href rfl (fun _ _ _ => rfl) fun _ _ => ⟨rfl, htype⟩
  · rw [update_self]; exact href
  · rw [update_self]
  · rw [update_self]
  · rw [update_self]
  · exact update_of_ne hq ..

/-! ## Data of a file -/

section

variable (h : Busy g ip i ino v w c)

include h

theorem Busy.leaf_ne_ind (hj : j < g.ninodes) (hind : (ino j).addr NDIRECT ≠ 0) :
    (ino j).addr NDIRECT ≠ leafAddr (ino i) v m := by
  intro heq
  cases h.owns.inj (s := .ind j) (t := .leaf i m) hj h.lt heq hind

theorem Busy.leafAddr_write (hj : j < g.ninodes) (d : Block) (m' : Nat) :
    leafAddr (ino j) (Function.update v (leafAddr (ino i) v m) d) m' = leafAddr (ino j) v m' :=
  leafAddr_congr (fun hind => update_of_ne (h.leaf_ne_ind hj hind) ..) m'

theorem Busy.write_buf (ha : leafAddr (ino i) v m ≠ 0) (d : Block) :
    Busy g ip i ino (Function.update v (leafAddr (ino i) v m) d) w c := by
  have hge := (h.owns.range (s := .leaf i m) h.lt ha).1
  rw [show slotAddr ino v (.leaf i m) = leafAddr (ino i) v m from rfl] at hge
  refine ⟨Owned.congr h.owns (fun s => ?_) fun a hr => ?_, fun a hlt => ?_, fun j hj hind => ?_, h.lt, h.inum,
    h.core, fun j hj hji => ?_⟩
  · exact refs_congr fun hs => slotAddr_congr rfl fun hind => update_of_ne (h.leaf_ne_ind hs hind) ..
  · have := g.bblock_lt (slot_cases hr)
    rw [used_update_of_ne (by omega)]
  · rw [update_of_ne (by omega)]
    exact h.clean a hlt
  · rw [update_of_ne (h.leaf_ne_ind hj hind)]
    exact h.inds j hj hind
  · have := g.iblock_lt_datastart hj
    rw [dinode_update_of_ne (by omega)]
    exact h.disk j hj hji

theorem Busy.write_disk (ha : leafAddr (ino i) v m ≠ 0) (d : Block) :
    Busy g ip i ino v (Function.update w (leafAddr (ino i) v m) d) c := by
  have hge := (h.owns.range (s := .leaf i m) h.lt ha).1
  rw [show slotAddr ino v (.leaf i m) = leafAddr (ino i) v m from rfl] at hge
  refine ⟨h.owns, fun a hlt => ?_, fun j hj hind => ?_, h.lt, h.inum, h.core, h.disk⟩
  · rw [update_of_ne (by omega)]
    exact h.clean a hlt
  · rw [update_of_ne (h.leaf_ne_ind hj hind)]
    exact h.inds j hj hind

theorem Busy.write (ha : leafAddr (ino i) v m ≠ 0) (d : Block) :
    Busy g ip i ino (Function.update v (leafAddr (ino i) v m) d) (Function.update w (leafAddr (ino i) v m) d) c := by
  have haddr := h.leafAddr_write (m := m) h.lt d m
  have hb := (h.write_buf ha d).write_disk (m := m) (by rw [haddr]; exact ha) d
  rwa [haddr] at hb

end

/-- Blocks were added to inode `i`, and none was taken away. -/
structure Grown (g : Geometry) (i : Nat) (ino : Nat → Dinode) (v : Blocks) (ino' : Nat → Dinode)
    (v' : Blocks) : Prop where
  others : ∀ j, j ≠ i → ino' j = ino j
  fields : ino' i = { ino i with addrs := (ino' i).addrs }
  leaves : ∀ j m, j < g.ninodes → leafAddr (ino j) v m ≠ 0 → leafAddr (ino' j) v' m ≠ 0

theorem Grown.refl : Grown g i ino v ino v := ⟨fun _ _ => rfl, rfl, fun _ _ _ h => h⟩

theorem Grown.trans {ino₁ : Nat → Dinode} {v₁ : Blocks} (h : Grown g i ino v ino₁ v₁)
    (h' : Grown g i ino₁ v₁ ino' v') : Grown g i ino v ino' v' where
  others j hj := (h'.others j hj).trans (h.others j hj)
  fields := by rw [h'.fields, h.fields]
  leaves j m hj ha := h'.leaves j m hj (h.leaves j m hj ha)

theorem Mapped.grown {bn a : Nat} (h : Mapped g i bn a ino v ino' v') : Grown g i ino v ino' v' where
  others := h.others
  fields := h.fields
  leaves j m hj ha := by rw [h.leaves j m hj ha]; exact ha

theorem Busy.grown_write (h : Busy g ip i ino v w c) (d : Block) :
    Grown g i ino v ino (Function.update v (leafAddr (ino i) v m) d) where
  others _ _ := rfl
  fields := rfl
  leaves j m' hj ha := by rw [h.leafAddr_write hj]; exact ha

theorem Busy.bread_leaf (h : Busy g ip i ino v w c) (ha : leafAddr (ino i) v m ≠ 0) :
    Triple (Is v w c) (bread (leafAddr (ino i) v m))
      (fun d s => ∃ v', (Busy g ip i ino v' w c ∧ Grown g i ino v ino v' ∧
        (∀ j m', j < g.ninodes → leafAddr (ino j) v' m' = leafAddr (ino j) v m') ∧ d = v' (leafAddr (ino i) v m)) ∧
        Is v' w c s) E := by
  refine bread_any.post ?_
  rintro d s ⟨v', rfl | rfl, hd, hs⟩
  · exact ⟨v', ⟨h, .refl, fun _ _ _ => rfl, hd⟩, hs⟩
  · exact ⟨_, ⟨h.write_buf ha _, h.grown_write _, fun j m' hj => h.leafAddr_write hj _ m', hd⟩, hs⟩

theorem block_lt {off n tot : Nat} (hlt : tot < n) (hmax : off + (n - tot) ≤ MAXFILE * BSIZE) : off / BSIZE < MAXFILE :=
  Nat.div_lt_of_lt_mul (by rw [Nat.mul_comm]; omega)

theorem chunk {off t : Nat} (hm : m ≤ BSIZE - off % BSIZE) (h1 : off ≤ t) (h2 : t < off + m) :
    t / BSIZE = off / BSIZE := by
  have hB : BSIZE = 1024 := rfl
  rw [hB] at hm ⊢
  omega

/-- What is left of `writei` after its loop has written up to `off'`. -/
structure Written (g : Geometry) (ip : Fin NINODE) (i off last off' : Nat) (ino : Nat → Dinode) (v : Blocks)
    (c : Icache) (ino' : Nat → Dinode) (v' w' : Blocks) : Prop where
  busy : Busy g ip i ino' v' w' (setD c ip (ino' i))
  grown : Grown g i ino v ino' v'
  ge : off ≤ off'
  le : off' ≤ last
  covers : ∀ t, off ≤ t → t < off' → leafAddr (ino' i) v' (t / BSIZE) ≠ 0

theorem writeLoop_spec {n : Nat} (k : Nat) : ∀ {ino : Nat → Dinode} {v w : Blocks}
    {c : Icache} (tot off : Nat), off + (n - tot) ≤ MAXFILE * BSIZE → Busy g ip i ino v w c →
    Triple (Is v w c) (writeLoop g ip mem src n k tot off)
      (fun off' s => ∃ ino' v' w', Written g ip i off (off + (n - tot)) off' ino v c ino' v' w' ∧
        Is v' w' (setD c ip (ino' i)) s) (NoSpace g) := by
  have hstop : ∀ {ino : Nat → Dinode} {v w : Blocks} {c : Icache} (off last : Nat), off ≤ last →
      Busy g ip i ino v w c → ∀ s, Is v w c s →
      ∃ ino' v' w', Written g ip i off last off ino v c ino' v' w' ∧ Is v' w' (setD c ip (ino' i)) s := by
    intro ino v w c off last hle h s hs
    have hself := setD_eq_self h.core
    exact ⟨ino, v, w, ⟨by rwa [hself], .refl, Nat.le_refl _, hle, fun t h1 h2 => by omega⟩, by rwa [hself]⟩
  induction k with
  | zero => exact fun tot off _ h => .pure (hstop off _ (by omega) h)
  | succ k ih =>
    intro ino v w c tot off hmax h
    rw [writeLoop]
    refine .ite (fun hlt => ?_) fun _ => .pure (hstop off _ (by omega) h)
    obtain ⟨m, hm⟩ : ∃ m, m = min (n - tot) (BSIZE - off % BSIZE) := ⟨_, rfl⟩
    have hbn := block_lt hlt hmax
    refine .bind (bmap_spec h hbn) fun a => .exists fun ino₁ => .exists fun v₁ =>
      Triple.exists fun w₁ => .of_fact fun hmap => ?_
    obtain ⟨hb₁, hmapped, -⟩ := hmap
    obtain ⟨rfl, hpos⟩ : leafAddr (ino₁ i) v₁ (off / BSIZE) = a ∧ a ≠ 0 := ⟨hmapped.addr, hmapped.pos⟩
    refine .bind_exists (hb₁.bread_leaf hpos) fun d v₂ hread => ?_
    obtain ⟨hb₂, hg₂, hsame, -⟩ := hread
    have ha₂ : leafAddr (ino₁ i) v₁ (off / BSIZE) = leafAddr (ino₁ i) v₂ (off / BSIZE) :=
      (hsame i _ h.lt).symm
    rw [ha₂] at hpos ⊢
    simp only [← hm]
    refine .bind (modifyData_spec _) fun _ => ?_
    -- the block has new contents, whether the copy succeeded or not
    have hb₃ := hb₂.write_buf hpos (mem.eitherCopyin d (off % BSIZE) ((src + tot) % 2 ^ 64) m).1
    have hg₃ := (hmapped.grown.trans hg₂).trans (hb₂.grown_write
      (m := off / BSIZE) (mem.eitherCopyin d (off % BSIZE) ((src + tot) % 2 ^ 64) m).1)
    have haddr : leafAddr (ino₁ i) (Function.update v₂ (leafAddr (ino₁ i) v₂ (off / BSIZE))
        (mem.eitherCopyin d (off % BSIZE) ((src + tot) % 2 ^ 64) m).1) (off / BSIZE) =
        leafAddr (ino₁ i) v₂ (off / BSIZE) := hb₂.leafAddr_write h.lt _ _
    refine .ite (fun hok => ?_) fun hfail => .pure fun s hs => ?_
    · refine .bind logWrite_spec fun _ => ?_
      have hb₄ := hb₂.write hpos (mem.eitherCopyin d (off % BSIZE) ((src + tot) % 2 ^ 64) m).1
      rw [update_self]
      refine (ih (tot + m) (off + m) (by omega) hb₄).post ?_
      rintro off' s ⟨ino', v', w', ⟨hbusy, hgrown, hge, hle, hcov⟩, hs⟩
      rw [setD_setD] at hbusy hs
      refine ⟨ino', v', w', ⟨hbusy, hg₃.trans hgrown, by omega, by omega, fun t h1 h2 => ?_⟩, hs⟩
      by_cases hdone : t < off + m
      · rw [chunk (by omega) h1 hdone]
        exact hgrown.leaves i _ h.lt (by rw [haddr]; exact hpos)
      · exact hcov t (by omega) h2
    · exact ⟨ino₁, _, w₁, ⟨hb₃, hg₃, Nat.le_refl _, by omega, fun t h1 h2 => by omega⟩, hs⟩

/-! ## `writei` -/

theorem Busy.setMeta (h : Busy g ip i ino v w c) (hy : y.addrs = (ino i).addrs) :
    Busy g ip i (Function.update ino i y) v w (setD c ip y) := by
  have haddr : ∀ j, (Function.update ino i y j).addrs = (ino j).addrs := by
    intro j
    by_cases hj : j = i
    · rw [hj, update_self, hy]
    · rw [update_of_ne hj]
  refine ⟨Owned.congr h.owns (fun s => refs_congr fun _ => slotAddr_of_addrs haddr s) fun _ _ => Iff.rfl, h.clean,
    fun j hj => ?_, h.lt, ?_, ?_, fun j hj hji => ?_⟩
  · rw [addr_of_addrs (haddr j)]
    exact h.inds j hj
  · rw [setD_self]; exact h.inum
  · rw [setD_self, update_self]
  · rw [update_of_ne hji]; exact h.disk j hj hji

theorem Busy.leafAddr_putInode (h : Busy g ip i ino v w c) (hj : j < g.ninodes) (x : Dinode) (m : Nat) :
    leafAddr (ino j) (Fs.putInode g v i x) m = leafAddr (ino j) v m := by
  refine leafAddr_congr (fun hind => putInode_of_ne ?_) m
  have := h.owns.ind_ge hj hind
  have := g.iblock_lt_datastart h.lt
  omega

theorem Locked.writeBack (h : Locked g ip v w c)
    (hb : Busy g ip (c ip).inum ino' v' w' (setD c ip (ino' (c ip).inum)))
    (hg : Grown g (c ip).inum (dinode g v) v ino' v') (haddrs : y.addrs = (ino' (c ip).inum).addrs)
    (htype : y.type = (dinode g v (c ip).inum).type) (hsize : y.size.toNat ≤ MAXFILE * BSIZE)
    (hfill : ∀ t, t < y.size.toNat → leafAddr (ino' (c ip).inum) v' (t / BSIZE) ≠ 0) :
    Inv g (putInode g v' (c ip).inum y) (putInode g w' (c ip).inum y) (setD c ip y) := by
  have hi := hb.lt
  have hvalid := h.cache.valid ip h.ref h.isValid
  have hb' := (hb.setMeta haddrs).putInode y
  have hleaf : ∀ j m, j < g.ninodes → leafAddr (Function.update ino' (c ip).inum y j)
      (putInode g v' (c ip).inum y) m = leafAddr (ino' j) v' m := by
    intro j m hj
    rw [← hb.leafAddr_putInode hj y m]
    by_cases hji : j = (c ip).inum
    · rw [hji, update_self]
      exact leafAddr_of_addrs haddrs m
    · rw [update_of_ne hji]
  have hy : y.type ≠ 0 := by rw [htype, ← hvalid.1]; exact hvalid.2
  refine hb'.inv (by rw [dinode_putInode_self, update_self]) (fun j hj => ?_) ?_
  · by_cases hji : j = (c ip).inum
    · have hl := hleaf j
      rw [hji, update_self] at hl ⊢
      exact ⟨fun h0 => absurd h0 hy, hsize, fun t ht => by rw [hl _ hi]; exact hfill t ht⟩
    · have hl := hleaf j
      rw [update_of_ne hji] at hl ⊢
      have hok := h.inodes j hj
      rw [← hg.others j hji] at hok
      refine ⟨hok.free, hok.size, fun t ht => ?_⟩
      rw [hl _ hj]
      refine hg.leaves j _ hj ?_
      have := (h.inodes j hj).filled t
      rw [← hg.others j hji] at this ⊢
      exact this ht
  · refine h.cache.update h.ref rfl (fun j hj hji => ?_) fun _ _ => ⟨?_, hy⟩
    · rw [hb'.disk j hj hji, update_of_ne hji, hg.others j hji]
    · exact (dinode_putInode_self v' _ y).symm

/-- The inode with the size `writei` leaves after writing up to `off`. -/
def sized (x : Dinode) (off : Nat) : Dinode :=
  if off > x.size.toNat then { x with size := BitVec.ofNat 32 off } else x

theorem sized_addrs (x : Dinode) (off : Nat) : (sized x off).addrs = x.addrs := by
  unfold sized
  split <;> rfl

theorem sized_type (x : Dinode) (off : Nat) : (sized x off).type = x.type := by
  unfold sized
  split <;> rfl

theorem sized_size (x : Dinode) {off : Nat} (hoff : off ≤ MAXFILE * BSIZE) :
    (sized x off).size.toNat = max x.size.toNat off := by
  have hmax : MAXFILE * BSIZE < 2 ^ 32 := by decide
  unfold sized
  split
  · rw [BitVec.toNat_ofNat, Nat.mod_eq_of_lt (Nat.lt_of_le_of_lt hoff hmax)]
    omega
  · omega

theorem writeBack_spec {off : Nat} (h : Busy g ip i ino v w c) : Triple (Is v w c) (writeBack g ip off)
    (fun _ => Is (putInode g v i (sized (ino i) off)) (putInode g w i (sized (ino i) off))
      (setD c ip (sized (ino i) off))) E := by
  refine .bind (modifyInode_spec ip _) fun _ => ?_
  have hcore : Function.update c ip (if off > (c ip).d.size.toNat then
      { c ip with d := { (c ip).d with size := BitVec.ofNat 32 off } } else c ip) = setD c ip (sized (ino i) off) := by
    rw [setD, sized, ← h.core]
    split <;> rfl
  rw [hcore]
  exact iupdate_spec h.clean h.lt (by rw [setD_self]; exact h.inum) (by rw [setD_self])

theorem toNat_add_of_le (h : ¬ off + n < off) : (off + n).toNat = off.toNat + n.toNat := by
  rw [BitVec.lt_def, BitVec.toNat_add] at h
  rw [BitVec.toNat_add]
  omega

/-- The arguments that `writei` accepts. -/
def Accepts (size off n : BitVec 32) : Prop := off.toNat ≤ size.toNat ∧ off.toNat + n.toNat ≤ MAXFILE * BSIZE

theorem accepts_iff {size : BitVec 32} : Accepts size off n ↔
    ¬ (off > size ∨ off + n < off) ∧ ¬ off + n > BitVec.ofNat 32 (MAXFILE * BSIZE) := by
  have hM : MAXFILE * BSIZE = 274432 := by decide
  rw [Accepts, hM]
  bv_omega

theorem writei_rule {P : State → Prop} {Q : Int → State → Prop} {x : Inode}
    (hx : ∀ s, P s → s.icache ip = x) (hreject : ¬ Accepts x.d.size off n → ∀ s, P s → Q (-1) s)
    (hzero : Accepts x.d.size off n → n.toNat = 0 → ∀ s, P s → Q 0 s)
    (hwrite : Accepts x.d.size off n → 0 < n.toNat → Triple P
      (do let off' ← writeLoop g ip mem src n.toNat n.toNat 0 off.toNat; writeBack g ip off') (fun _ => Q n.toNat) E) :
    Triple P (writei g ip mem src off n) Q E := by
  refine .read (fun s hs => ⟨hx s hs, hs⟩) ?_
  refine .ite (fun hcheck => .pure (hreject fun h => (accepts_iff.mp h).1 hcheck)) fun hcheck => ?_
  refine .ite (fun hmax => .pure (hreject fun h => (accepts_iff.mp h).2 hmax)) fun hmax => ?_
  have hin := accepts_iff.mpr ⟨hcheck, hmax⟩
  rcases Nat.eq_zero_or_pos n.toNat with hn | hn
  · obtain rfl : n = 0 := BitVec.eq_of_toNat_eq hn
    exact .pure (hzero hin hn)
  · have hint : n.toInt = n.toNat := by
      have hM : MAXFILE * BSIZE < 2 ^ 31 := by decide
      have := hin.2
      exact BitVec.toInt_eq_toNat_of_lt (by omega)
    simp only [if_pos (show n > 0 from hn), hint]
    rw [← bind_assoc]
    exact (hwrite hin hn).bind fun _ => .pure fun s hs => hs

theorem writei_spec (h : Locked g ip v w c) :
    Triple (Is v w c) (writei g ip mem src off n) (fun _ s => ∃ v' w' c', Inv g v' w' c' ∧ Is v' w' c' s)
      (NoSpace g) := by
  have hsame : ∀ s, Is v w c s → ∃ v' w' c', Inv g v' w' c' ∧ Is v' w' c' s := fun s hs => ⟨v, w, c, h.toInv, hs⟩
  refine writei_rule (fun s hs => congrFun hs.icache ip) (fun _ => hsame) (fun _ _ => hsame) fun ⟨hoff, hlast⟩ hn => ?_
  refine .bind (writeLoop_spec n.toNat 0 off.toNat (by omega) h.busy) fun off' => .exists fun ino' =>
    Triple.exists fun v' => .exists fun w' => .of_fact fun hw => ?_
  obtain ⟨hb, hg, hge, hle, hcov⟩ := hw
  refine (writeBack_spec hb).post fun _ s hs => ?_
  rw [setD_setD] at hs
  have hsize := sized_size (ino' (c ip).inum) (show off' ≤ MAXFILE * BSIZE by omega)
  have hold : (ino' (c ip).inum).size = (c ip).d.size := by rw [hg.fields, h.busy.core]
  have hok := h.inodes _ h.busy.lt
  rw [← h.busy.core] at hok
  rw [hold] at hsize
  refine ⟨_, _, _, h.writeBack hb hg (sized_addrs _ _) ?_ ?_ (fun t ht => ?_), hs⟩
  · rw [sized_type, hg.fields]
  · have := hok.size
    omega
  · by_cases hlt : t < (c ip).d.size.toNat
    · have := hok.filled t hlt
      rw [h.busy.core] at this
      exact hg.leaves _ _ h.busy.lt this
    · exact hcov t (by omega) (by omega)

/-! ## `readi` -/

/-- The loop of `readi` with `lookupBlock` in the place of `bmap`. -/
def lookupLoop (ip : Fin NINODE) (dst n : Nat) : Nat → (tot off : Nat) → Memory → FsM (Nat × Memory)
  | 0, tot, _, mem => return (tot, mem)
  | k + 1, tot, off, mem =>
    if tot < n then do
      let b ← lookupBlock ip (off / BSIZE)
      let d ← bread b
      let m := min (n - tot) (BSIZE - off % BSIZE)
      let (mem, ok) := mem.eitherCopyout ((dst + tot) % 2 ^ 64) (fun i => d.get (off % BSIZE + i)) m
      if ok then lookupLoop ip dst n k (tot + m) (off + m) mem else return (tot, mem)
    else return (tot, mem)

/-- `readi` without `balloc` and `log_write`: it stops at a hole. -/
def readiMapped (ip : Fin NINODE) (mem : Memory) (dst : Nat) (off n : BitVec 32) : FsM (Nat × Memory) := do
  let x ← getInode ip
  if off > x.d.size ∨ off + n < off then return (0, mem)
  else
    let n := if off + n > x.d.size then x.d.size - off else n
    lookupLoop ip dst n.toNat n.toNat 0 off.toNat mem

theorem lookupLoop_agrees {n : Nat} (k : Nat) : ∀ (tot off : Nat) (mem : Memory),
    Agrees (lookupLoop ip dst n k tot off mem) (readLoop g ip dst n k tot off mem) := by
  induction k with
  | zero => exact fun _ _ _ => .refl _
  | succ k ih =>
    intro tot off mem
    refine .ite (fun _ => ?_) fun _ => .refl _
    refine .bind (lookupBlock_agrees _) fun _ => .bind (.refl _) fun _ => ?_
    exact .ite (fun _ => ih _ _ _) fun _ => .refl _

theorem readiMapped_agrees : Agrees (readiMapped ip mem dst off n) (readi g ip mem dst off n) :=
  Agrees.bind (.refl _) fun _ => .ite (fun _ => .refl _) fun _ => lookupLoop_agrees _ _ _ _

theorem lookupLoop_spec {n : Nat} (k : Nat) : ∀ {v : Blocks} (tot off : Nat) (mem : Memory),
    Busy g ip i ino v w c → (∀ t, off ≤ t → t < off + (n - tot) → leafAddr (ino i) v (t / BSIZE) ≠ 0) →
    Triple (Is v w c) (lookupLoop ip dst n k tot off mem)
      (fun _ s => ∃ v', (Busy g ip i ino v' w c ∧
        ∀ j m, j < g.ninodes → leafAddr (ino j) v' m = leafAddr (ino j) v m) ∧ Is v' w c s) E := by
  induction k with
  | zero => exact fun _ _ _ h _ => .pure fun s hs => ⟨_, ⟨h, fun _ _ _ => rfl⟩, hs⟩
  | succ k ih =>
    intro v tot off mem h hfill
    rw [lookupLoop]
    refine .ite (fun hlt => ?_) fun _ => .pure fun s hs => ⟨_, ⟨h, fun _ _ _ => rfl⟩, hs⟩
    have hpos := hfill off (Nat.le_refl _) (by omega)
    refine .read (h.lookupBlock_spec hpos) ?_
    refine .bind_exists (h.bread_leaf hpos) fun d v₁ hread => ?_
    obtain ⟨hb, -, hsame, -⟩ := hread
    refine .ite (fun _ => ?_) fun _ => .pure fun s hs => ⟨_, ⟨hb, hsame⟩, hs⟩
    refine (ih _ _ _ hb fun t h1 h2 => ?_).post ?_
    · rw [hsame i _ h.lt]
      exact hfill t (by omega) (by omega)
    · rintro _ s ⟨v', ⟨hb', hsame'⟩, hs⟩
      exact ⟨v', ⟨hb', fun j m hj => (hsame' j m hj).trans (hsame j m hj)⟩, hs⟩

theorem Clean.dinode_eq (h : Clean g v w) (h' : Clean g v' w) (hi : i < g.ninodes) : dinode g v' i = dinode g v i := by
  have hlt := g.iblock_lt_datastart hi
  rw [dinode, dinode, h' _ hlt, h _ hlt]

theorem readi_clip {size : BitVec 32} (h : ¬ (off > size ∨ off + n < off)) :
    off.toNat + (if off + n > size then size - off else n).toNat = min (off.toNat + n.toNat) size.toNat := by
  rw [not_or, gt_iff_lt, BitVec.lt_def] at h
  have hadd := toNat_add_of_le h.2
  split_ifs with hgt
  · rw [gt_iff_lt, BitVec.lt_def, hadd] at hgt
    rw [BitVec.toNat_sub_of_le (by rw [BitVec.le_def]; omega)]
    omega
  · rw [gt_iff_lt, BitVec.lt_def, hadd] at hgt
    omega

theorem readiMapped_spec (h : Locked g ip v w c) :
    Triple (Is v w c) (readiMapped ip mem dst off n) (fun _ s => ∃ v', Inv g v' w c ∧ Is v' w c s) E := by
  have hb := h.busy
  refine .read (getInode_spec ip) ?_
  refine .ite (fun _ => .pure fun s hs => ⟨v, h.toInv, hs⟩) fun hcheck => ?_
  have hclip := readi_clip hcheck
  refine (lookupLoop_spec _ 0 off.toNat mem hb fun t h1 h2 => ?_).post ?_
  · refine (h.inodes _ hb.lt).filled t ?_
    rw [← hb.core]
    omega
  · rintro _ s ⟨v', ⟨hb', hsame⟩, hs⟩
    have hdin : ∀ j, j < g.ninodes → dinode g v' j = dinode g v j := fun j => h.clean.dinode_eq hb'.clean
    refine ⟨v', hb'.inv (hdin _ hb.lt) (fun j hj => ?_) ⟨h.cache.lt, fun iq hq hv => ?_, h.cache.uniq⟩, hs⟩
    · have hok := h.inodes j hj
      exact ⟨hok.free, hok.size, fun t ht => by rw [hsame j _ hj]; exact hok.filled t ht⟩
    · rw [hdin _ (h.cache.lt iq hq)]
      exact h.cache.valid iq hq hv

theorem readi_spec (h : Locked g ip v w c) :
    Triple (Is v w c) (readi g ip mem dst off n) (fun _ s => ∃ v', Inv g v' w c ∧ Is v' w c s) E :=
  (readiMapped_spec h).of_agrees readiMapped_agrees

/-! ## `itrunc` and `iput` -/

/-- Inode `i` has no blocks, and the ones it had are free. -/
structure Freed (g : Geometry) (i : Nat) (v v' : Blocks) : Prop where
  free : ∀ s b, s.inum = i → refs g (dinode g v) v s = some b → used g v' b = false
  none : ∀ s, s.inum = i → refs g (dinode g v') v' s = none

theorem Locked.freed {v'' : Blocks} (h : Locked g ip v w c) (ht : Truncated g ip (c ip).inum (dinode g v) v c v' w')
    (hu : ∀ b, used g v'' b = used g v' b) (hdisk : dinode g v'' (c ip).inum = y) (haddrs : y.addrs = fun _ => 0) :
    Freed g (c ip).inum v v'' where
  free s b hs hb := by
    have hrange := h.owns.mem s b hb
    rw [hu, Bool.eq_false_iff]
    intro hused
    obtain ⟨t, hgone⟩ := (ht.marks.held b hrange).mp hused
    unfold gone at hgone
    split_ifs at hgone with hti
    exact hti (by rw [Owned.inj h.owns t s b hgone hb, hs])
  none s hs := refs_of_no_addrs (by rw [hs, hdisk, haddrs])

theorem Locked.inv_emptied {z : Inode} {c' : Icache} (h : Locked g ip v w c)
    (hb : Busy g ip (c ip).inum (Function.update (dinode g v) (c ip).inum y) v' w' c')
    (hdisk : dinode g v' (c ip).inum = y) (hdata : ∀ b, g.datastart ≤ b → v' b = v b)
    (haddrs : y.addrs = fun _ => 0) (hsize : y.size = 0) (hz : z.inum = (c ip).inum)
    (hz' : 0 < z.ref → z.valid = true → z.d = y ∧ y.type ≠ 0) : Inv g v' w' (Function.update c ip z) := by
  refine hb.inv (by rw [hdisk, update_self]) (fun j hj => ?_) ?_
  · by_cases hji : j = (c ip).inum
    · rw [hji, update_self]
      exact ⟨fun _ => haddrs, by rw [hsize]; exact Nat.zero_le _, fun t ht => by simp [hsize] at ht⟩
    · rw [update_of_ne hji]
      have hok := h.inodes j hj
      refine ⟨hok.free, hok.size, fun t ht => ?_⟩
      have hleaf : leafAddr (dinode g v j) v' (t / BSIZE) = leafAddr (dinode g v j) v (t / BSIZE) :=
        leafAddr_congr (fun hind => hdata _ (h.owns.ind_ge hj hind)) _
      rw [hleaf]
      exact hok.filled t ht
  · refine h.cache.update h.ref hz (fun j hj hji => ?_) fun hr hv => ?_
    · rw [hb.disk j hj hji, update_of_ne hji]
    · rw [hz, hdisk, (hz' hr hv).1]
      exact ⟨rfl, (hz' hr hv).2⟩

theorem itrunc_inv (h : Locked g ip v w c) : Triple (Is v w c) (itrunc g ip)
    (fun _ s => ∃ v' w' c', (Inv g v' w' c' ∧ Freed g (c ip).inum v v') ∧ Is v' w' c' s) E := by
  refine (itrunc_spec h.busy).post ?_
  rintro _ s ⟨v', w', ht, hs⟩
  have hvalid := h.cache.valid ip h.ref h.isValid
  rw [hvalid.1] at hvalid
  exact ⟨v', w', _, ⟨h.inv_emptied (z := { c ip with d := emptied (dinode g v (c ip).inum) }) ht.busy ht.onDisk
    ht.data rfl rfl rfl fun _ _ => ⟨rfl, hvalid.2⟩, h.freed ht (fun _ => rfl) ht.onDisk rfl⟩, hs⟩

end Xv6.Fs

import Xv6.Fs.Spec
import Xv6.Lib.Ownership

/-!
# Block ownership

The places a block number can stand in are the direct and indirect addresses of the inodes and the entries
of the indirect blocks. Together with the free map they are an instance of `Ownership.Owned`. The inodes
are taken as a function of their own (`ino`), because the in-memory copy is ahead of the disk during an
operation.
-/

namespace Xv6

open Function (update update_of_ne update_self)

namespace Dinode

/-- `addrs[k]` as a block number. -/
def addr (x : Dinode) (k : Nat) : Nat := if h : k < NDIRECT + 1 then (x.addrs ⟨k, h⟩).toNat else 0

/-- Assign to `addrs[k]`. -/
def setAddr (x : Dinode) (k : Fin (NDIRECT + 1)) (a : BitVec 32) : Dinode :=
  { x with addrs := update x.addrs k a }

variable {x : Dinode} {k : Fin (NDIRECT + 1)} {a : BitVec 32} {m : Nat}
variable {s t : Slot}

theorem addr_val (x : Dinode) (k : Fin (NDIRECT + 1)) : x.addr k = (x.addrs k).toNat := dif_pos k.isLt

@[simp] theorem setAddr_addrs (x : Dinode) (k : Fin (NDIRECT + 1)) (a : BitVec 32) :
    (x.setAddr k a).addrs = update x.addrs k a := rfl

theorem addr_eq_zero : x.addr k = 0 ↔ x.addrs k = 0 := by
  rw [addr_val, BitVec.toNat_eq]
  rfl

theorem addr_setAddr_self : (x.setAddr k a).addr k = a.toNat := by
  rw [addr_val, setAddr_addrs, update_self]

theorem addr_setAddr_of_ne (h : m ≠ k) : (x.setAddr k a).addr m = x.addr m := by
  unfold addr
  split_ifs with hm
  · rw [setAddr_addrs, update_of_ne]
    exact fun hk => h (congrArg Fin.val hk)
  · rfl

end Dinode

namespace Fs

open Ownership (Owned)

variable {g : Geometry} {v v' w : Blocks} {ino ino' : Nat → Dinode} {x : Dinode} {b i j m : Nat}

/-! ## Entries of indirect blocks -/

theorem entry_setField_self {d : Block} (hj : j < NINDIRECT) (a : BitVec 32) :
    entry (d.setField (4 * j) a) j = a := by
  have hB : BSIZE = 1024 := rfl
  have hj : j < 256 := hj
  exact Bytes.field_setField (by decide) d a (by omega)

theorem entry_setField_of_ne {d : Block} {j' : Nat} (h : j' ≠ j) (a : BitVec 32) :
    entry (d.setField (4 * j) a) j' = entry d j' :=
  Bytes.field_setField_of_disjoint d a (by omega)

theorem entry_zero (j : Nat) : entry (fun _ => 0) j = 0 :=
  Bytes.field_eq_zero fun i _ => by
    unfold Bytes.get
    split_ifs <;> rfl

/-! ## Slots -/

/-- A place for a block number: the `bn`th block of inode `i`, which is a direct address below `NDIRECT` and
an entry of the indirect block above, or the indirect block of inode `i`. -/
inductive Slot
  | leaf (i bn : Nat)
  | ind (i : Nat)
  deriving DecidableEq

def Slot.inum : Slot → Nat
  | .leaf i _ => i
  | .ind i => i

/-- The block number in the slot for the `bn`th block; 0 if there is none. -/
def leafAddr (x : Dinode) (v : Blocks) (bn : Nat) : Nat :=
  if bn < NDIRECT then x.addr bn
  else if bn < MAXFILE ∧ x.addr NDIRECT ≠ 0 then (entry (v (x.addr NDIRECT)) (bn - NDIRECT)).toNat
  else 0

def slotAddr (ino : Nat → Dinode) (v : Blocks) : Slot → Nat
  | .leaf i bn => leafAddr (ino i) v bn
  | .ind i => (ino i).addr NDIRECT

/-- What the slots of all inodes hold. -/
def refs (g : Geometry) (ino : Nat → Dinode) (v : Blocks) (s : Slot) : Option Nat :=
  if s.inum < g.ninodes ∧ slotAddr ino v s ≠ 0 then some (slotAddr ino v s) else none

theorem refs_eq_some : refs g ino v s = some b ↔ s.inum < g.ninodes ∧ slotAddr ino v s = b ∧ b ≠ 0 := by
  unfold refs
  split_ifs with h
  · rw [Option.some.injEq]
    constructor
    · rintro rfl
      exact ⟨h.1, rfl, h.2⟩
    · exact fun hb => hb.2.1
  · constructor
    · intro hb
      cases hb
    · rintro ⟨h1, rfl, h2⟩
      exact absurd ⟨h1, h2⟩ h

theorem refs_eq_none (h : slotAddr ino v s = 0) : refs g ino v s = none := if_neg fun hs => hs.2 h

theorem leafAddr_congr (hv : x.addr NDIRECT ≠ 0 → v' (x.addr NDIRECT) = v (x.addr NDIRECT)) (m : Nat) :
    leafAddr x v' m = leafAddr x v m := by
  unfold leafAddr
  split_ifs with h1 h2
  · rfl
  · rw [hv h2.2]
  · rfl

theorem slotAddr_congr (hino : ino' s.inum = ino s.inum)
    (hv : (ino s.inum).addr NDIRECT ≠ 0 → v' ((ino s.inum).addr NDIRECT) = v ((ino s.inum).addr NDIRECT)) :
    slotAddr ino' v' s = slotAddr ino v s := by
  cases s with
  | ind i => exact congrArg (Dinode.addr · NDIRECT) hino
  | leaf i bn =>
    change leafAddr (ino' i) v' bn = leafAddr (ino i) v bn
    rw [show ino' i = ino i from hino]
    exact leafAddr_congr hv bn

theorem addr_of_addrs {y : Dinode} (h : y.addrs = x.addrs) (k : Nat) : y.addr k = x.addr k := by
  rw [Dinode.addr, Dinode.addr, h]

theorem leafAddr_of_addrs {y : Dinode} (h : y.addrs = x.addrs) (m : Nat) : leafAddr y v m = leafAddr x v m := by
  rw [leafAddr, leafAddr, addr_of_addrs h, addr_of_addrs h]

theorem slotAddr_of_addrs (h : ∀ j, (ino' j).addrs = (ino j).addrs) (s : Slot) :
    slotAddr ino' v s = slotAddr ino v s := by
  cases s with
  | leaf j m => exact leafAddr_of_addrs (h j) m
  | ind j => exact addr_of_addrs (h j) NDIRECT

theorem refs_congr (h : s.inum < g.ninodes → slotAddr ino' v' s = slotAddr ino v s) :
    refs g ino' v' s = refs g ino v s := by
  by_cases hs : s.inum < g.ninodes
  · rw [refs, refs, h hs]
  · rw [refs, refs, if_neg fun hc => hs hc.1, if_neg fun hc => hs hc.1]

theorem addr_of_no_addrs (h : x.addrs = fun _ => 0) (k : Nat) : x.addr k = 0 := by
  rw [Dinode.addr, h]
  split <;> rfl

theorem leafAddr_of_no_addrs (h : x.addrs = fun _ => 0) (m : Nat) : leafAddr x v m = 0 := by
  unfold leafAddr
  split_ifs with h1 h2
  · exact addr_of_no_addrs h m
  · exact absurd (addr_of_no_addrs h NDIRECT) h2.2
  · rfl

theorem refs_of_no_addrs (h : (ino s.inum).addrs = fun _ => 0) : refs g ino v s = none := by
  refine refs_eq_none ?_
  cases s with
  | ind i => exact addr_of_no_addrs h NDIRECT
  | leaf i m => exact leafAddr_of_no_addrs h m

/-- Marks of the free map and the slots that hold data blocks. -/
def Marks (g : Geometry) (r : Slot → Option Nat) (v : Blocks) : Prop :=
  Owned (· < g.datastart) (fun b => g.datastart ≤ b ∧ b < g.size) r fun b => used g v b = true

/-- A block is marked in the free map exactly when it is a metadata block or in one slot. -/
def Owns (g : Geometry) (ino : Nat → Dinode) (v : Blocks) : Prop := Marks g (refs g ino v) v

section Owns

variable (h : Owns g ino v)
include h

theorem Owns.range (hs : s.inum < g.ninodes) (ha : slotAddr ino v s ≠ 0) :
    g.datastart ≤ slotAddr ino v s ∧ slotAddr ino v s < g.size :=
  h.mem s _ (refs_eq_some.mpr ⟨hs, rfl, ha⟩)

theorem Owns.ind_ge (hj : j < g.ninodes) (ha : (ino j).addr NDIRECT ≠ 0) : g.datastart ≤ (ino j).addr NDIRECT :=
  (h.range (s := .ind j) hj ha).1

theorem Owns.free_ge (hb : used g v b = false) : g.datastart ≤ b := by
  by_contra hlt
  have := h.marked b (by omega)
  simp [hb] at this

theorem Owns.slot_used (hs : s.inum < g.ninodes) (ha : slotAddr ino v s ≠ 0) :
    used g v (slotAddr ino v s) = true :=
  h.used_of_ref (refs_eq_some.mpr ⟨hs, rfl, ha⟩)

theorem Owns.slot_ne (hs : s.inum < g.ninodes) (ha : slotAddr ino v s ≠ 0) (hb : used g v b = false) :
    slotAddr ino v s ≠ b := by
  rintro rfl
  simp [h.slot_used hs ha] at hb

theorem Owns.inj (hs : s.inum < g.ninodes) (ht : t.inum < g.ninodes)
    (heq : slotAddr ino v s = slotAddr ino v t) (ha : slotAddr ino v s ≠ 0) : s = t :=
  Owned.inj h s t _ (refs_eq_some.mpr ⟨hs, rfl, ha⟩) (refs_eq_some.mpr ⟨ht, heq.symm, ha⟩)

end Owns

theorem slot_cases (hb : b < g.datastart ∨ g.datastart ≤ b ∧ b < g.size) : b < g.size := by
  unfold Superblock.datastart at hb
  omega

theorem owns_of_no_addrs (hino : ∀ i, i < g.ninodes → (ino i).addrs = fun _ => 0)
    (hused : ∀ b, b < g.size → used g v b = decide (b < g.datastart)) : Owns g ino v := by
  have hrefs : ∀ s, refs g ino v s = none := by
    intro s
    by_cases hs : s.inum < g.ninodes
    · exact refs_of_no_addrs (hino _ hs)
    · exact if_neg fun hc => hs hc.1
  refine ⟨fun b hb => by omega, fun b hb => ?_, fun b hb => ?_, fun s t b hs => ?_, fun s b hs => ?_⟩
  · rw [hused b (slot_cases (.inl hb)), decide_eq_true_iff]
    exact hb
  · rw [hused b hb.2, decide_eq_true_iff]
    exact ⟨fun hlt => by omega, fun ⟨s, hs⟩ => by simp [hrefs s] at hs⟩
  · simp [hrefs s] at hs
  · simp [hrefs s] at hs

theorem Owns.take (h : Owns g ino v) (hs : s.inum < g.ninodes) (h0 : slotAddr ino v s = 0) (hb : b < g.size)
    (hfree : used g v b = false)
    (hslots : ∀ t, t.inum < g.ninodes → slotAddr ino' v' t = if t = s then b else slotAddr ino v t)
    (hused : ∀ a, a < g.size → used g v' a = (decide (a = b) || used g v a)) : Owns g ino' v' := by
  have hge := h.free_ge hfree
  have hpos : b ≠ 0 := by
    have := g.bmapstart_lt
    omega
  refine Owned.take h ⟨hge, hb⟩ (by rw [hfree]; exact Bool.false_ne_true) (refs_eq_none h0)
    (refs_eq_some.mpr ⟨hs, by rw [hslots s hs, if_pos rfl], hpos⟩) (fun t hts => ?_) fun a ha => ?_
  · exact refs_congr fun ht => by rw [hslots t ht, if_neg hts]
  · rw [hused a (slot_cases ha), Bool.or_eq_true, decide_eq_true_iff]

theorem Owns.grow_keeps (h : Owns g ino v) (hb : b < g.size) (hfree : used g v b = false)
    (hs : s.inum < g.ninodes) (ha : slotAddr ino v s ≠ 0) :
    grow g v b (slotAddr ino v s) = v (slotAddr ino v s) := by
  refine grow_of_ne ?_ (h.slot_ne hs ha hfree)
  have := (h.range hs ha).1
  have := g.bblock_lt hb
  omega

/-! ## A new block in `addrs[k]` -/

/-- The slot of `addrs[k]`. -/
def addrSlot (i : Nat) (k : Fin (NDIRECT + 1)) : Slot := if k.val < NDIRECT then .leaf i k else .ind i

theorem addrSlot_inum (i : Nat) (k : Fin (NDIRECT + 1)) : (addrSlot i k).inum = i := by
  unfold addrSlot
  split_ifs <;> rfl

theorem slotAddr_addrSlot (ino : Nat → Dinode) (v : Blocks) (i : Nat) (k : Fin (NDIRECT + 1)) :
    slotAddr ino v (addrSlot i k) = (ino i).addr k := by
  unfold addrSlot
  split_ifs with hk
  · exact if_pos hk
  · have : k.val = NDIRECT := by
      omega
    rw [this]
    rfl

theorem leafAddr_setAddr_direct {k : Fin (NDIRECT + 1)} (hk : k.val < NDIRECT) (a : BitVec 32) (m : Nat) :
    leafAddr (x.setAddr k a) v m = if m = k then a.toNat else leafAddr x v m := by
  have hind : (x.setAddr k a).addr NDIRECT = x.addr NDIRECT := Dinode.addr_setAddr_of_ne (by omega)
  unfold leafAddr
  rw [hind]
  by_cases hm : m = k
  · rw [if_pos hm, hm, if_pos hk, Dinode.addr_setAddr_self]
  · rw [if_neg hm, Dinode.addr_setAddr_of_ne hm]

theorem leafAddr_setAddr_ind {a : BitVec 32} (h0 : x.addr NDIRECT = 0) (hz : v' a.toNat = fun _ => 0) (m : Nat) :
    leafAddr (x.setAddr (Fin.last NDIRECT) a) v' m = leafAddr x v m := by
  have hind : (x.setAddr (Fin.last NDIRECT) a).addr NDIRECT = a.toNat := Dinode.addr_setAddr_self
  unfold leafAddr
  split_ifs with h1 h2 h3 h3
  · exact Dinode.addr_setAddr_of_ne (Nat.ne_of_lt h1)
  · exact absurd h0 h3.2
  · rw [hind, hz, entry_zero]
    rfl
  · exact absurd h0 h3.2
  · rfl

theorem toNat_of_lt_size (hb : b < g.size) : (BitVec.ofNat 32 b).toNat = b := by
  have := g.size_lt
  rw [BitVec.toNat_ofNat]
  omega

theorem slotAddr_grow_addr {k : Fin (NDIRECT + 1)} (h : Owns g ino v) (hb : b < g.size) (hfree : used g v b = false)
    (h0 : (ino i).addrs k = 0) (ht : t.inum < g.ninodes) :
    slotAddr (update ino i ((ino i).setAddr k (BitVec.ofNat 32 b))) (grow g v b) t =
      if t = addrSlot i k then b else slotAddr ino v t := by
  have hb32 := toNat_of_lt_size hb
  by_cases hts : t = addrSlot i k
  · rw [if_pos hts, hts, slotAddr_addrSlot, update_self, Dinode.addr_setAddr_self, hb32]
  rw [if_neg hts]
  by_cases hti : t.inum = i
  · cases t with
    | ind j =>
      obtain rfl : j = i := hti
      have hk : k.val < NDIRECT := by
        by_contra hk
        exact hts (by rw [addrSlot, if_neg hk])
      change (update ino j _ j).addr NDIRECT = _
      rw [update_self, Dinode.addr_setAddr_of_ne (by omega)]
      rfl
    | leaf j bn =>
      obtain rfl : j = i := hti
      change leafAddr (update ino j _ j) _ bn = leafAddr (ino j) v bn
      rw [update_self]
      by_cases hk : k.val < NDIRECT
      · have hne : bn ≠ k := fun hbn => hts (by rw [addrSlot, if_pos hk, hbn])
        rw [leafAddr_setAddr_direct hk, if_neg hne]
        exact leafAddr_congr (fun ha => h.grow_keeps (s := .ind j) hb hfree ht ha) bn
      · have hlast : k = Fin.last NDIRECT := Fin.ext (by
          rw [Fin.val_last]
          omega)
        subst hlast
        exact leafAddr_setAddr_ind (Dinode.addr_eq_zero.mpr h0) (by rw [hb32]; exact grow_self v b) bn
  · exact slotAddr_congr (by rw [update_of_ne hti]) fun ha =>
      h.grow_keeps (s := .ind t.inum) hb hfree ht ha

/-! ## A new block in an entry of the indirect block -/

theorem leafAddr_setEntry {a : BitVec 32} (hind : x.addr NDIRECT ≠ 0) (hj : j < NINDIRECT) (m : Nat) :
    leafAddr x (update v (x.addr NDIRECT) ((v (x.addr NDIRECT)).setField (4 * j) a)) m =
      if m = NDIRECT + j then a.toNat else leafAddr x v m := by
  have hM : MAXFILE = NDIRECT + NINDIRECT := rfl
  unfold leafAddr
  rw [update_self]
  by_cases hm : m = NDIRECT + j
  · rw [if_pos hm, hm, if_neg (by omega), if_pos ⟨by omega, hind⟩, Nat.add_sub_cancel_left, entry_setField_self hj]
  · split_ifs with h1 h2
    · rfl
    · rw [entry_setField_of_ne (by omega)]
    · rfl

theorem slotAddr_grow_entry (h : Owns g ino v) (hi : i < g.ninodes) (hb : b < g.size) (hfree : used g v b = false)
    (hind : (ino i).addr NDIRECT ≠ 0) (hj : j < NINDIRECT) (ht : t.inum < g.ninodes) :
    slotAddr ino (update (grow g v b) ((ino i).addr NDIRECT)
        ((v ((ino i).addr NDIRECT)).setField (4 * j) (BitVec.ofNat 32 b))) t =
      if t = .leaf i (NDIRECT + j) then b else slotAddr ino v t := by
  have hkeep := h.grow_keeps (s := .ind i) hb hfree hi hind
  rw [show slotAddr ino v (.ind i) = (ino i).addr NDIRECT from rfl] at hkeep
  rw [← hkeep]
  by_cases hti : t.inum = i
  · cases t with
    | ind j =>
      rfl
    | leaf j' bn =>
      obtain rfl : j' = i := hti
      change leafAddr (ino j') _ bn = _
      rw [leafAddr_setEntry hind hj, toNat_of_lt_size hb]
      refine if_congr (by simp) rfl ?_
      exact leafAddr_congr (fun ha => h.grow_keeps (s := .ind j') hb hfree ht ha) bn
  · rw [if_neg fun hc => hti (by rw [hc]; rfl)]
    refine slotAddr_congr rfl fun ha => ?_
    rw [update_of_ne]
    · exact h.grow_keeps (s := .ind t.inum) hb hfree ht ha
    · intro heq
      have := h.inj (s := .ind t.inum) (t := .ind i) ht hi heq ha
      exact hti (Slot.ind.inj this)

end Fs

end Xv6

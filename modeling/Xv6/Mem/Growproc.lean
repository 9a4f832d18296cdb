import Mathlib.Data.List.Perm.Subperm
import Xv6.Mem.Proc

/-!
# `growproc`

A process grows or shrinks by `n` bytes. The new size is computed as an `unsigned int`; the memory of a
process is so small that a growth never wraps, but a shrink below zero does. `uvmdealloc` takes the wrapped
size for a larger one and does nothing, and `growproc` reports success.
-/

namespace Xv6.Mem

open Hoare (bind_of_ok)
open Vm (Pa npages Leaves leaf)
open Sched (Slot)

/-- Where the memory of the machine begins. -/
def KERNBASE : Nat := 0x80000000

variable {kend : Nat} {pt : Pa} {p : Slot} {s t : State} {n : BitVec 32} {m : Nat} {vs : Vm.State}

theorem space_small (hbase : KERNBASE ≤ kend) (h : Vm.Space kend pt m vs) : m ≤ 0x8000 := by
  have hK : KERNBASE = 0x80000000 := rfl
  have hP : Vm.PHYSTOP = 0x88000000 := rfl
  have hframe : ∀ a ∈ Vm.frames vs.ram pt 0 m, a.toNat % 4096 = 0 ∧ 0x80000000 ≤ a.toNat ∧ a.toNat < 0x88000000 := by
    intro a ha
    obtain ⟨v, hv, rfl⟩ := List.mem_map.mp ha
    obtain ⟨j, hj, rfl⟩ := List.mem_range'.mp hv
    obtain ⟨e, he, -, hfr, -⟩ := h.mapped (0 + 1 * j) (by omega)
    have h1 := hfr.above
    have h2 := hfr.below
    have h3 := Vm.pte2pa_aligned e
    rw [he]
    change (Vm.pte2pa e).toNat % 4096 = 0 ∧ _ ≤ (Vm.pte2pa e).toNat ∧ (Vm.pte2pa e).toNat < _
    rw [Vm.PGSIZE_eq] at h3
    omega
  have hnd : ((Vm.frames vs.ram pt 0 m).map fun a => a.toNat / 4096 - 0x80000).Nodup := by
    refine (List.nodup_map_iff_inj_on h.distinct).mpr fun a ha b hb hab => BitVec.eq_of_toNat_eq ?_
    have h1 := hframe a ha
    have h2 := hframe b hb
    omega
  have hsub : ((Vm.frames vs.ram pt 0 m).map fun a => a.toNat / 4096 - 0x80000) ⊆ List.range 0x8000 := by
    intro k hk
    obtain ⟨a, ha, rfl⟩ := List.mem_map.mp hk
    have h1 := hframe a ha
    rw [List.mem_range]
    omega
  have hlen := (List.Nodup.subperm hnd hsub).length_le
  rw [List.length_map, List.length_range, Vm.frames, List.length_map, List.length_range'] at hlen
  exact hlen

/-- A process whose page table maps exactly the pages of its size. -/
structure Sized (kend : Nat) (p : Slot) (pt : Pa) (s : State) : Prop where
  base : KERNBASE ≤ kend
  table : (s.proc p).pagetable = some pt
  space : Vm.Space kend pt (npages (s.proc p).sz) s.vm

/-- The pages of `[0, PGROUNDUP(sz))` and no others are mapped below the trapframe. -/
def MapsExactly (pt : Pa) (sz : BitVec 64) (vs : Vm.State) : Prop :=
  ∀ v, v < Vm.TRAPFRAME / PGSIZE → ((leaf vs.ram pt v).isSome = true ↔ v < npages sz)

/-- What `growproc(n)` is to do: change the size by exactly `n`, or fail and change nothing. -/
def GrowsBy (p : Slot) (pt : Pa) (n : BitVec 32) (s : State) (res : Int) (t : State) : Prop :=
  res = 0 ∧ ((t.proc p).sz.toNat : Int) = (s.proc p).sz.toNat + n.toInt ∧ MapsExactly pt (t.proc p).sz t.vm ∨
    res = -1 ∧ (t.proc p).sz = (s.proc p).sz ∧ Leaves t.vm.ram pt (leaf s.vm.ram pt)

theorem Sized.sz_lt (h : Sized kend p pt s) : (s.proc p).sz.toNat ≤ 2 ^ 27 := by
  have hle := space_small h.base h.space
  rw [npages, Vm.PGSIZE_eq] at hle
  omega

theorem mapsExactly_of_space {sz : BitVec 64} (h : Vm.Space kend pt (npages sz) vs) : MapsExactly pt sz vs := by
  intro v hv
  by_cases hn : v < npages sz
  · obtain ⟨e, he, -⟩ := h.mapped v hn
    simp [he, hn]
  · simp [h.unmapped v (Nat.le_of_not_lt hn) hv, hn]

theorem MapsExactly.unmap {sz sz' : BitVec 64} {vs' : Vm.State} (h : MapsExactly pt sz vs)
    (hle : npages sz' ≤ npages sz)
    (hleaves : Leaves vs'.ram pt (Vm.unmapRange (leaf vs.ram pt) (npages sz') (npages sz - npages sz'))) :
    MapsExactly pt sz' vs' := by
  intro v hv
  rw [hleaves v (Vm.Space.lt_of_le_trapframe hv), Vm.unmapRange]
  by_cases hin : npages sz' ≤ v ∧ v < npages sz' + (npages sz - npages sz')
  · rw [if_pos hin]
    simp
    omega
  · rw [if_neg hin, h v hv]
    omega

theorem setWidth_back {x : BitVec 64} (h : x.toNat < 2 ^ 32) : (x.setWidth 32).setWidth 64 = x := by
  refine BitVec.eq_of_toNat_eq ?_
  rw [BitVec.toNat_setWidth, BitVec.toNat_setWidth]
  omega

theorem Sized.width (h : Sized kend p pt s) : ((s.proc p).sz.setWidth 32).setWidth 64 = (s.proc p).sz :=
  setWidth_back (Nat.lt_of_le_of_lt h.sz_lt (by decide))

theorem Sized.sum (h : Sized kend p pt s) (hn : 0 ≤ ((s.proc p).sz.toNat : Int) + n.toInt) :
    ((((s.proc p).sz.setWidth 32 + n).setWidth 64).toNat : Int) = (s.proc p).sz.toNat + n.toInt := by
  have hlt := h.sz_lt
  have hb := n.isLt
  rw [BitVec.toInt_eq_toNat_cond] at hn ⊢
  rw [BitVec.toNat_setWidth, BitVec.toNat_add, BitVec.toNat_setWidth]
  split_ifs at hn ⊢ with hneg
  · omega
  · omega

theorem Sized.sum_wraps (h : Sized kend p pt s) (hn : ((s.proc p).sz.toNat : Int) + n.toInt < 0) :
    (s.proc p).sz.toNat < (((s.proc p).sz.setWidth 32 + n).setWidth 64).toNat := by
  have hlt := h.sz_lt
  have hb := n.isLt
  rw [BitVec.toInt_eq_toNat_cond] at hn
  rw [BitVec.toNat_setWidth, BitVec.toNat_add, BitVec.toNat_setWidth]
  split_ifs at hn with hneg
  · omega
  · omega

theorem vm_of_ok {α : Type} {x : Vm.VmM α} {a : α} {vs' : Vm.State} (h : x s.vm = .ok a vs') :
    vm x s = .ok a { s with vm := vs' } := by
  rw [vm, h]

theorem getProc_ok : getProc p s = .ok (s.proc p) s := rfl

theorem deref_some (a : Pa) : deref (some a) s = .ok a s := rfl

theorem growproc_grow (h : Sized kend p pt s) (hn : 0 < n.toInt) :
    ∃ res t, growproc kend p n s = .ok res t ∧ GrowsBy p pt n s res t := by
  have hlt := h.sz_lt
  have hsum := h.sum (n := n) (by omega)
  have hb := BitVec.toInt_lt (x := n)
  obtain ⟨newsz, hnew⟩ : ∃ newsz, newsz = ((s.proc p).sz.setWidth 32 + n).setWidth 64 := ⟨_, rfl⟩
  rw [← hnew] at hsum
  have hsmall : newsz.toNat < 2 ^ 32 := by omega
  have hT : Vm.TRAPFRAME = 274877898752 := Vm.trapframe_eq
  have hpages : npages newsz ≤ Vm.TRAPFRAME / PGSIZE := Vm.npages_le_trapframe (by omega)
  have hmono : npages (s.proc p).sz ≤ npages newsz := Vm.npages_mono (by omega)
  obtain ⟨res, taken, vs, halloc, hcases⟩ := Vm.uvmalloc_spec (h.space.growing hpages) (by omega)
    (show newsz.toNat < MAXVA by rw [show MAXVA = 2 ^ 38 from rfl]; omega)
  have hvm : vm (Vm.uvmalloc kend pt (((s.proc p).sz.setWidth 32).setWidth 64) newsz) s =
    .ok res { s with vm := vs } := by
    rw [h.width]
    exact vm_of_ok halloc
  rw [growproc, bind_of_ok getProc_ok]
  simp only [if_pos hn, ← hnew, h.table]
  rw [bind_of_ok (deref_some pt), bind_of_ok hvm]
  rcases hcases with ⟨rfl, hadd⟩ | ⟨rfl, -, -, hadd⟩
  · have hne : res.setWidth 32 ≠ 0 := by
      intro h0
      have hnat := congrArg BitVec.toNat h0
      rw [BitVec.toNat_setWidth, Nat.mod_eq_of_lt hsmall] at hnat
      change res.toNat = 0 at hnat
      omega
    have hback := setWidth_back hsmall
    have hspace := h.space.grow hadd (by omega)
    rw [Nat.add_sub_cancel' hmono] at hspace
    rw [if_neg hne]
    refine ⟨0, _, rfl, .inl ⟨rfl, ?_, ?_⟩⟩
    · simp only [Function.update_self, hback]
      exact hsum
    · simp only [Function.update_self, hback]
      exact mapsExactly_of_space hspace
  · rw [if_pos (show (0 : BitVec 64).setWidth 32 = 0 from rfl)]
    exact ⟨-1, _, rfl, .inr ⟨rfl, rfl, fun v hv => hadd.leaves v hv (by omega)⟩⟩

theorem growproc_shrink (h : Sized kend p pt s) (hn : n.toInt < 0) (hle : 0 ≤ ((s.proc p).sz.toNat : Int) + n.toInt) :
    ∃ res t, growproc kend p n s = .ok res t ∧ GrowsBy p pt n s res t := by
  have hlt := h.sz_lt
  have hsum := h.sum hle
  obtain ⟨newsz, hnew⟩ : ∃ newsz, newsz = ((s.proc p).sz.setWidth 32 + n).setWidth 64 := ⟨_, rfl⟩
  rw [← hnew] at hsum
  obtain ⟨vs, hde, -, hleaves⟩ := Vm.uvmdealloc_spec kend (s.proc p).sz newsz h.space.toWellFormed (by omega)
    (by rw [show MAXVA = 2 ^ 38 from rfl]; omega) fun v _ hv => h.space.removable hv
  have hvm : vm (Vm.uvmdealloc kend pt (((s.proc p).sz.setWidth 32).setWidth 64) newsz) s =
    .ok newsz { s with vm := vs } := by
    rw [h.width]
    exact vm_of_ok hde
  have hback := setWidth_back (show newsz.toNat < 2 ^ 32 by omega)
  rw [growproc, bind_of_ok getProc_ok]
  simp only [if_neg (show ¬ 0 < n.toInt by omega), if_pos hn, ← hnew, h.table]
  rw [bind_of_ok (deref_some pt), bind_of_ok hvm]
  refine ⟨0, _, rfl, .inl ⟨rfl, ?_, ?_⟩⟩
  · simp only [Function.update_self, hback]
    exact hsum
  · simp only [Function.update_self, hback]
    exact (mapsExactly_of_space h.space).unmap (Vm.npages_mono (by omega)) hleaves

theorem growproc_overshrink (h : Sized kend p pt s) (hlt : ((s.proc p).sz.toNat : Int) + n.toInt < 0) :
    ∃ t, growproc kend p n s = .ok 0 t ∧ (t.proc p).sz = (s.proc p).sz := by
  have hwrap := h.sum_wraps hlt
  have hvm : vm (Vm.uvmdealloc kend pt (((s.proc p).sz.setWidth 32).setWidth 64)
    (((s.proc p).sz.setWidth 32 + n).setWidth 64)) s = .ok (s.proc p).sz s := by
    have hge : ((s.proc p).sz.setWidth 32 + n).setWidth 64 ≥ (s.proc p).sz := BitVec.le_def.mpr (Nat.le_of_lt hwrap)
    rw [h.width, vm, Vm.uvmdealloc, if_pos hge]
    rfl
  rw [growproc, bind_of_ok getProc_ok]
  simp only [if_neg (show ¬ 0 < n.toInt by omega), if_pos (show n.toInt < 0 by omega), h.table]
  rw [bind_of_ok (deref_some pt), bind_of_ok hvm]
  refine ⟨_, rfl, ?_⟩
  simp only [Function.update_self]
  exact h.width

theorem growproc_zero (h : Sized kend p pt s) (hn : n.toInt = 0) :
    ∃ res t, growproc kend p n s = .ok res t ∧ GrowsBy p pt n s res t := by
  rw [growproc, bind_of_ok getProc_ok]
  simp only [hn, lt_irrefl, if_false]
  refine ⟨0, _, rfl, .inl ⟨rfl, ?_, ?_⟩⟩
  · simp only [Function.update_self, h.width, hn, Int.add_zero]
  · simp only [Function.update_self, h.width]
    exact mapsExactly_of_space h.space

/-- `growproc(n)` changes the size by exactly `n` or fails without a change, if and only if the new size is
not negative. -/
theorem growproc_exact_iff (h : Sized kend p pt s) (n : BitVec 32) :
    ∃ res t, growproc kend p n s = .ok res t ∧
    (GrowsBy p pt n s res t ↔ 0 ≤ ((s.proc p).sz.toNat : Int) + n.toInt) := by
  by_cases hneg : ((s.proc p).sz.toNat : Int) + n.toInt < 0
  · obtain ⟨t, ht, hsz⟩ := growproc_overshrink h hneg
    refine ⟨0, t, ht, fun hgrow => ?_, fun h0 => by omega⟩
    rcases hgrow with ⟨-, heq, -⟩ | ⟨hres, -⟩
    · rw [hsz] at heq
      omega
    · cases hres
  · have hle : 0 ≤ ((s.proc p).sz.toNat : Int) + n.toInt := by omega
    obtain ⟨res, t, ht, hgrow⟩ : ∃ res t, growproc kend p n s = .ok res t ∧ GrowsBy p pt n s res t := by
      rcases lt_trichotomy n.toInt 0 with hn | hn | hn
      · exact growproc_shrink h hn hle
      · exact growproc_zero h hn
      · exact growproc_grow h hn
    exact ⟨res, t, ht, fun _ => hle, fun _ => hgrow⟩

theorem sized_onePage : ∃ s, Sized 0x80000000 Sched.initproc 0x80000000 s ∧ (s.proc Sched.initproc).sz = 100 := by
  obtain ⟨vs, -, hvs⟩ := Vm.space_onePage
  have hn : npages 100 = 1 := by decide
  rw [← hn] at hvs
  exact ⟨⟨vs, fun _ => { sz := 100, pagetable := some 0x80000000 }, 2⟩, ⟨by decide, rfl, hvs⟩, rfl⟩

theorem growproc_exact_iff_onePage : ∃ s, Sized 0x80000000 Sched.initproc 0x80000000 s ∧
    ∃ res t, growproc 0x80000000 Sched.initproc 5000 s = .ok res t ∧
      (GrowsBy Sched.initproc 0x80000000 5000 s res t ↔ 0 ≤ ((s.proc Sched.initproc).sz.toNat : Int) +
      (5000 : BitVec 32).toInt) := by
  obtain ⟨s, hs, -⟩ := sized_onePage
  exact ⟨s, hs, growproc_exact_iff hs 5000⟩

/-- `sbrk(-200)` of a process of 100 bytes succeeds and does nothing. -/
theorem growproc_below_zero : ∃ s t, Sized 0x80000000 Sched.initproc 0x80000000 s ∧
    growproc 0x80000000 Sched.initproc (-200) s = .ok 0 t ∧ (s.proc Sched.initproc).sz = 100 ∧
    (t.proc Sched.initproc).sz = 100 ∧
    ¬ GrowsBy Sched.initproc 0x80000000 (-200) s 0 t := by
  obtain ⟨s, hs, hsz⟩ := sized_onePage
  obtain ⟨t, ht, heq⟩ := growproc_overshrink (n := -200) hs (by rw [hsz]; decide)
  refine ⟨s, t, hs, ht, hsz, heq.trans hsz, ?_⟩
  rintro (⟨-, hsum, -⟩ | ⟨hres, -⟩)
  · rw [heq, hsz] at hsum
    exact absurd hsum (by decide)
  · cases hres

end Xv6.Mem

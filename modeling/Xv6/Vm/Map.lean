import Xv6.Vm.Table

/-!
# `walk`, `mappages` and `uvmunmap` on partial maps

What each function does to the leaves of a table, for every free list.
-/

namespace Xv6.Vm

open Hoare (bind_of_ok)
open Function (update update_of_ne update_self update_idem)

variable {r : Pa} {s s' : State} {va a : BitVec 64} {vpn : Nat}
variable {ram : Ram} {kend : Nat} {e : Pte}

/-! ## `walk` -/

/-- The last `level` steps of the way to a page number's leaf. -/
def pathFrom (vpn : Nat) : Nat → List (Fin 512)
  | 0 => []
  | level + 1 => ix (level + 1) vpn :: pathFrom vpn level

theorem walkLoop_false (va : BitVec 64) (s : State) (level : Nat) :
    ∀ pt, walkLoop va false level pt s = .ok (lookup s.ram pt (pathFrom (va.toNat / PGSIZE) level)) s := by
  induction level with
  | zero => intro pt; rfl
  | succ level ih =>
    intro pt
    have hload : load pt (px (level + 1) va) s = .ok (entries s.ram pt (px (level + 1) va)) s := rfl
    rw [walkLoop, bind_of_ok hload, pathFrom, lookup, Trie.find, px_eq_ix]
    by_cases hv : entries s.ram pt (ix (level + 1) (va.toNat / PGSIZE)) &&& PTE_V ≠ 0
    · rw [if_pos hv, ih, link_of_valid hv]
      rfl
    · rw [if_neg hv, link_of_invalid (not_not.mp hv)]
      rfl

theorem walk_false (r : Pa) (s : State) (h : va.toNat < MAXVA) :
    walk r va false s =
      .ok ((lookup s.ram r (path (va.toNat / PGSIZE))).map fun a => ⟨a, ix 0 (va.toNat / PGSIZE)⟩) s := by
  rw [walk, if_neg (by omega), bind_of_ok (walkLoop_false va s 2 r), px_eq_ix]
  rfl

/-- What `walk` with allocation leaves: the same leaves in a table that may have grown. -/
structure Walked (r : Pa) (vpn : Nat) (s : State) (res : Option Pa) (taken : List Pa) (s' : State) : Prop where
  grows : Grows r taken s s'
  slots : ∀ p i, p.length = 2 → slot s'.ram r p i = slot s.ram r p i
  found : ∀ a, res = some a → lookup s'.ram r (path vpn) = some a
  empty : res = none → s'.freelist = []

theorem walkLoop_true (va : BitVec 64) (level : Nat) : ∀ pt q s, Table r s → q ++ pathFrom (va.toNat / PGSIZE) level =
    path (va.toNat / PGSIZE) → lookup s.ram r q = some pt →
    ∃ res taken s', walkLoop va true level pt s = .ok res s' ∧ Walked r (va.toNat / PGSIZE) s res taken s' := by
  induction level with
  | zero =>
    intro pt q s ht hq hpt
    refine ⟨some pt, [], s, rfl, .refl ht.toWellFormed, fun _ _ _ => rfl, fun a ha => ?_, fun h => by cases h⟩
    rw [← hq, pathFrom, List.append_nil, hpt, ha]
  | succ level ih =>
    intro pt q s ht hq hpt
    have hload : load pt (px (level + 1) va) s = .ok (entries s.ram pt (px (level + 1) va)) s := rfl
    have hlen : q.length < 2 := by
      have := congrArg List.length hq
      rw [List.length_append, pathFrom, List.length_cons] at this
      change _ = 2 at this
      omega
    rw [pathFrom, ← List.singleton_append, ← List.append_assoc] at hq
    rw [walkLoop, bind_of_ok hload, px_eq_ix]
    by_cases hv : entries s.ram pt (ix (level + 1) (va.toNat / PGSIZE)) &&& PTE_V ≠ 0
    · rw [if_pos hv]
      refine ih _ _ s ht hq ?_
      rw [lookup, Trie.find_concat]
      change (lookup s.ram r q).bind _ = _
      rw [hpt]
      exact link_of_valid hv
    rw [if_neg hv, if_pos rfl]
    cases hfree : s.freelist with
    | nil =>
      refine ⟨none, [], s, ?_, .refl ht.toWellFormed, fun _ _ _ => rfl, fun a ha => (by cases ha), fun _ => hfree⟩
      have hk : kalloc s = .ok none s := by rw [kalloc, hfree]
      rw [bind_of_ok hk]
      rfl
    | cons b rest =>
      have hk : kalloc s = .ok (some b) ⟨update s.ram b fun _ => 5, rest⟩ := by rw [kalloc, hfree]
      have hset : memset b 0 ⟨update s.ram b fun _ => 5, rest⟩ = .ok () ⟨update s.ram b fun _ => 0, rest⟩ := by
        rw [memset, update_idem]
      obtain ⟨s1, hs1⟩ : ∃ s1 : State, s1 = ⟨update (update s.ram b fun _ => 0) pt
        ((update s.ram b (fun _ => 0) pt).setField (8 * (ix (level + 1) (va.toNat / PGSIZE)).val)
          (pa2pte b ||| PTE_V)), rest⟩ := ⟨_, rfl⟩
      have hstore : store pt (ix (level + 1) (va.toNat / PGSIZE)) (pa2pte b ||| PTE_V)
          ⟨update s.ram b fun _ => 0, rest⟩ = .ok () s1 := by rw [hs1]; rfl
      obtain ⟨hg, hb, hslot⟩ := ht.grow hfree hlen hpt (not_not.mp hv) hs1
      obtain ⟨res, taken, s', hloop, hw⟩ := ih b _ s1 (ht.of_grows hg) hq hb
      refine ⟨res, [b] ++ taken, s', ?_, hg.trans hw.grows, fun p i hp => ?_, hw.found, hw.empty⟩
      · rw [bind_of_ok hk]
        change (memset b 0 >>= _) _ = _
        rw [bind_of_ok hset, bind_of_ok hstore, hloop]
      · rw [hw.slots p i hp, hslot p i hp]

theorem walk_true (ht : Table r s) (h : va.toNat < MAXVA) : ∃ res taken s',
    walk r va true s = .ok (res.map fun a => ⟨a, ix 0 (va.toNat / PGSIZE)⟩) s' ∧
      Walked r (va.toNat / PGSIZE) s res taken s' := by
  obtain ⟨res, taken, s', hloop, hw⟩ := walkLoop_true va 2 r [] s ht rfl rfl
  refine ⟨res, taken, s', ?_, hw⟩
  rw [walk, if_neg (by omega), bind_of_ok hloop, px_eq_ix]
  rfl

/-! ## Partial maps -/

/-- `n` pages from `vpn` on are mapped to the entries `f 0`, `f 1`, … -/
def mapRange (M : Nat → Option Pte) (vpn n : Nat) (f : Nat → Pte) : Nat → Option Pte :=
  fun v => if vpn ≤ v ∧ v < vpn + n then some (f (v - vpn)) else M v

/-- `n` pages from `vpn` on are not mapped. -/
def unmapRange (M : Nat → Option Pte) (vpn n : Nat) : Nat → Option Pte :=
  fun v => if vpn ≤ v ∧ v < vpn + n then none else M v

/-- The table has the leaves `M`, over all page numbers of three indices. -/
def Leaves (ram : Ram) (r : Pa) (M : Nat → Option Pte) : Prop := ∀ v, v < 512 ^ 3 → leaf ram r v = M v

theorem mapRange_zero (M : Nat → Option Pte) (vpn : Nat) (f : Nat → Pte) : mapRange M vpn 0 f = M :=
  funext fun v => if_neg (by omega)

theorem mapRange_succ (M : Nat → Option Pte) (vpn n : Nat) (f : Nat → Pte) :
    mapRange (update M vpn (some (f 0))) (vpn + 1) n (fun k => f (k + 1)) = mapRange M vpn (n + 1) f := by
  funext v
  rw [mapRange, mapRange]
  by_cases h : v = vpn
  · subst h
    rw [if_neg (by omega), if_pos (by omega), update_self, Nat.sub_self]
  · rw [update_of_ne h]
    by_cases hin : vpn + 1 ≤ v ∧ v < vpn + 1 + n
    · rw [if_pos hin, if_pos (by omega), show v - (vpn + 1) + 1 = v - vpn by omega]
    · rw [if_neg hin, if_neg (by omega)]

theorem Leaves.mapRange {ram' : Ram} {M : Nat → Option Pte} {n : Nat} {f : Nat → Pte} (h : Leaves ram r M)
    (h' : Leaves ram' r (mapRange (leaf ram r) vpn n f)) : Leaves ram' r (mapRange M vpn n f) := by
  intro v hv
  rw [h' v hv, Vm.mapRange, Vm.mapRange, h v hv]

theorem vpn_lt (h : va.toNat < MAXVA) : va.toNat / PGSIZE < 512 ^ 3 := by
  have hM : MAXVA = 2 ^ 38 := rfl
  rw [PGSIZE_eq]
  omega

theorem leaf_of_slots (h : ∀ p i, p.length = 2 → slot s'.ram r p i = slot s.ram r p i) (v : Nat) :
    leaf s'.ram r v = leaf s.ram r v := h _ _ rfl

theorem lookup_of_leaf (h : leaf ram r vpn = some e) :
    ∃ a, lookup ram r (path vpn) = some a ∧ entries ram a (ix 0 vpn) = e ∧ e &&& PTE_V ≠ 0 := by
  cases ha : lookup ram r (path vpn) with
  | none =>
    simp [leaf, slot, ha] at h
  | some a =>
    rw [leaf, slot_of_lookup ha, present] at h
    split_ifs at h with hv
    have he := Option.some.inj h
    exact ⟨a, rfl, he, he ▸ hv⟩

theorem leaf_store {i : Fin 512} (hvpn : vpn < 512 ^ 3) (hi : i = ix 0 vpn)
    (h : ∀ p j, p.length = 2 → slot s'.ram r p j = if p = path vpn ∧ j = i then present e else slot s.ram r p j) :
    Leaves s'.ram r (update (leaf s.ram r) vpn (present e)) := by
  intro v hv
  rw [leaf, h _ _ rfl, hi]
  by_cases hvv : v = vpn
  · rw [if_pos (by rw [hvv]; exact ⟨rfl, rfl⟩), hvv, update_self]
  · rw [if_neg fun hc => hvv ((path_inj hv hvpn).mp hc), update_of_ne hvv]
    rfl

/-! ## `mappages` -/

/-- The entry that `mappages` makes for the `k`-th page. -/
def pageEntry (pa : Pa) (perm : BitVec 32) (k : Nat) : Pte :=
  pa2pte (pa + BitVec.ofNat 64 (k * PGSIZE)) ||| perm.signExtend 64 ||| PTE_V

theorem walk_place (ht : Table r s) (ha : a.toNat < MAXVA) (hnone : leaf s.ram r (a.toNat / PGSIZE) = none) :
    (∃ taken s', walk r a true s = .ok none s' ∧ Grows r taken s s' ∧ Leaves s'.ram r (leaf s.ram r) ∧
    s'.freelist = []) ∨
    ∃ ptr taken s1, walk r a true s = .ok (some ptr) s1 ∧ entries s1.ram ptr.page ptr.i &&& PTE_V = 0 ∧
      ∀ e, e &&& PTE_V ≠ 0 → ∃ s', store ptr.page ptr.i e s1 = .ok () s' ∧ Grows r taken s s' ∧
        Leaves s'.ram r (update (leaf s.ram r) (a.toNat / PGSIZE) (some e)) := by
  obtain ⟨res, taken, s1, hwalk, hw⟩ := walk_true ht ha
  cases res with
  | none => exact .inl ⟨taken, s1, hwalk, hw.grows, fun v _ => leaf_of_slots hw.slots v, hw.empty rfl⟩
  | some p =>
    have hp := hw.found p rfl
    refine .inr ⟨⟨p, ix 0 (a.toNat / PGSIZE)⟩, taken, s1, hwalk, ?_, fun e he => ?_⟩
    · rw [← leaf_of_slots hw.slots, leaf, slot_of_lookup hp, present] at hnone
      by_contra hv
      rw [if_pos hv] at hnone
      cases hnone
    · refine ⟨_, rfl, ?_⟩
      obtain ⟨hlook, hframe, hslot⟩ := hw.grows.wellFormed.store rfl hp rfl
      have hpage : Node s1.ram r p := ⟨path (a.toNat / PGSIZE), path_le _, hp⟩
      have hg := hw.grows.wellFormed.grows hlook (fun c hc => hframe c fun hcp => hc (hcp ▸ hpage)) rfl
      refine ⟨by simpa using hw.grows.trans hg, ?_⟩
      have hleaf := leaf_store (vpn_lt ha) rfl hslot
      rw [present_of_valid he] at hleaf
      intro v hv
      rw [hleaf v hv]
      by_cases hvv : v = a.toNat / PGSIZE
      · rw [hvv, update_self, update_self]
      · rw [update_of_ne hvv, update_of_ne hvv, leaf_of_slots hw.slots]

/-- What a call of `mappages` for `n` pages left: all of them are mapped, or only the first `m` and the free
list is empty. -/
structure Mapped (r : Pa) (vpn n : Nat) (f : Nat → Pte) (s : State) (res : Int) (m : Nat) (taken : List Pa)
    (s' : State) : Prop where
  grows : Grows r taken s s'
  leaves : Leaves s'.ram r (mapRange (leaf s.ram r) vpn m f)
  result : res = 0 ∧ m = n ∨ res = -1 ∧ m < n ∧ s'.freelist = []

theorem pageEntry_zero (pa : Pa) (perm : BitVec 32) :
    pageEntry pa perm 0 = pa2pte pa ||| perm.signExtend 64 ||| PTE_V := by
  rw [pageEntry, Nat.zero_mul, BitVec.add_zero]

theorem toNat_4096 : (4096 : BitVec 64).toNat = PGSIZE := rfl

theorem pageEntry_succ (pa : Pa) (perm : BitVec 32) (k : Nat) :
    pageEntry (pa + 4096) perm k = pageEntry pa perm (k + 1) := by
  have h : pa + 4096 + BitVec.ofNat 64 (k * PGSIZE) = pa + BitVec.ofNat 64 ((k + 1) * PGSIZE) := by
    refine BitVec.eq_of_toNat_eq ?_
    rw [BitVec.toNat_add, BitVec.toNat_add, BitVec.toNat_add, toNat_4096, BitVec.toNat_ofNat,
      BitVec.toNat_ofNat, PGSIZE_eq]
    omega
  rw [pageEntry, pageEntry, h]

theorem toNat_next_page (h : a.toNat < MAXVA) : (a + 4096).toNat = a.toNat + PGSIZE := by
  have hM : MAXVA = 2 ^ 38 := rfl
  rw [BitVec.toNat_add, toNat_4096, PGSIZE_eq]
  omega

theorem mappagesLoop_spec (last : BitVec 64) (perm : BitVec 32) (n : Nat) :
    ∀ (a pa : BitVec 64) (s : State), Table r s →
    a.toNat % PGSIZE = 0 → last.toNat + PGSIZE = a.toNat + n * PGSIZE → last.toNat < MAXVA →
    (∀ j, j < n → leaf s.ram r (a.toNat / PGSIZE + j) = none) →
    ∃ res m taken s', mappagesLoop r last perm n a pa s = .ok res s' ∧
      Mapped r (a.toNat / PGSIZE) n (pageEntry pa perm) s res m taken s' := by
  induction n with
  | zero =>
    intro a pa s ht _ _ _ _
    exact ⟨0, 0, [], s, rfl, .refl ht.toWellFormed, fun v _ => by rw [mapRange_zero], .inl ⟨rfl, rfl⟩⟩
  | succ n ih =>
    intro a pa s ht hal hlast hmax hnone
    rw [PGSIZE_eq] at hal hlast
    have ha : a.toNat < MAXVA := by omega
    obtain ⟨taken, s1, hwalk, hg, hleaves, hempty⟩ | ⟨ptr, taken, s1, hwalk, hfree, hplace⟩ :=
      walk_place ht ha (hnone 0 (by omega))
    · refine ⟨-1, 0, taken, s1, ?_, hg, fun v hv => ?_, .inr ⟨rfl, by omega, hempty⟩⟩
      · rw [mappagesLoop, bind_of_ok hwalk]
        rfl
      · rw [mapRange_zero, hleaves v hv]
    obtain ⟨s2, hstore, hg, hleaves⟩ := hplace (pageEntry pa perm 0) (or_V_and_V _)
    have hpass : mappagesLoop r last perm (n + 1) a pa s =
        (if a = last then pure 0 else mappagesLoop r last perm n (a + 4096) (pa + 4096)) s2 := by
      rw [mappagesLoop, bind_of_ok hwalk]
      have hload : load ptr.page ptr.i s1 = .ok (entries s1.ram ptr.page ptr.i) s1 := rfl
      change (load ptr.page ptr.i >>= _) s1 = _
      rw [bind_of_ok hload, if_neg (not_not.mpr hfree), ← pageEntry_zero, bind_of_ok hstore]
    rw [hpass]
    by_cases hend : a = last
    · obtain rfl : n = 0 := by rw [hend] at hlast; omega
      rw [if_pos hend]
      refine ⟨0, 1, taken, s2, rfl, hg, fun v hv => ?_, .inl ⟨rfl, rfl⟩⟩
      rw [hleaves v hv, ← mapRange_succ, mapRange_zero]
    · rw [if_neg hend]
      have hnext := toNat_next_page ha
      have hpos : 0 < n := by
        by_contra h0
        refine hend (BitVec.eq_of_toNat_eq ?_)
        omega
      have hvpn : (a + 4096).toNat / PGSIZE = a.toNat / PGSIZE + 1 := by
        rw [hnext, PGSIZE_eq]
        omega
      obtain ⟨res, m, taken', s', hloop, hm⟩ :=
        ih (a + 4096) (pa + 4096) s2 (ht.of_grows hg) (by rw [hnext, PGSIZE_eq]; omega)
        (by rw [hnext, PGSIZE_eq]; omega) hmax fun j hj => by
          rw [hvpn, hleaves _ ?_, update_of_ne (by omega), Nat.add_assoc, hnone _ (by omega)]
          have hM : MAXVA = 2 ^ 38 := rfl
          rw [PGSIZE_eq]
          omega
      refine ⟨res, m + 1, taken ++ taken', s', hloop, hg.trans hm.grows, ?_, ?_⟩
      · have h := hleaves.mapRange hm.leaves
        rwa [hvpn, funext (pageEntry_succ pa perm), mapRange_succ] at h
      · rcases hm.result with ⟨h0, hmn⟩ | ⟨h1, hmn, hf⟩
        · exact .inl ⟨h0, by omega⟩
        · exact .inr ⟨h1, by omega, hf⟩

theorem pages_of_range {size : BitVec 64} (hsize : 0 < size.toNat) (hmax : va.toNat + size.toNat - 1 < MAXVA) :
    (pgrounddown va).toNat % PGSIZE = 0 ∧ (pgrounddown va).toNat / PGSIZE = va.toNat / PGSIZE ∧
      (pgrounddown (va + size - 1)).toNat < MAXVA ∧
      (pgrounddown (va + size - 1)).toNat + PGSIZE =
        (pgrounddown va).toNat + ((va.toNat + size.toNat - 1) / PGSIZE - va.toNat / PGSIZE + 1) * PGSIZE ∧
      (pgrounddown (va + size - 1) - pgrounddown va).toNat / PGSIZE + 1 =
        (va.toNat + size.toNat - 1) / PGSIZE - va.toNat / PGSIZE + 1 := by
  have hM : MAXVA = 2 ^ 38 := rfl
  have hend : (va + size - 1).toNat = va.toNat + size.toNat - 1 := by
    rw [BitVec.toNat_sub, BitVec.toNat_add]
    change (2 ^ 64 - 1 + _) % 2 ^ 64 = _
    omega
  rw [BitVec.toNat_sub, toNat_pgrounddown, toNat_pgrounddown, hend, PGSIZE_eq]
  omega

/-- The pages that overlap `[va, va + size)`. -/
def pagesOf (va size : BitVec 64) : Nat := (va.toNat + size.toNat - 1) / PGSIZE - va.toNat / PGSIZE + 1

theorem mappages_spec (va size pa : BitVec 64) (perm : BitVec 32) (ht : Table r s) (hsize : 0 < size.toNat)
    (hmax : va.toNat + size.toNat - 1 < MAXVA)
    (hnone : ∀ j, j < pagesOf va size → leaf s.ram r (va.toNat / PGSIZE + j) = none) :
    ∃ res m taken s', mappages r va size pa perm s = .ok res s' ∧
      Mapped r (va.toNat / PGSIZE) (pagesOf va size) (pageEntry pa perm) s res m taken s' := by
  obtain ⟨hal, hvpn, hlt, hlast, hfuel⟩ := pages_of_range hsize hmax
  have h := mappagesLoop_spec (pgrounddown (va + size - 1)) perm (pagesOf va size)
    (pgrounddown va) pa s ht hal hlast hlt
    (by rwa [hvpn])
  rw [hvpn] at h
  rw [mappages, hfuel]
  exact h

/-! ## `uvmunmap` -/

/-- Leaves were removed and the pages `freed` went to the free list; the pages of the table are those before. -/
structure Unmaps (r : Pa) (freed : List Pa) (s s' : State) : Prop where
  freelist : s'.freelist = freed.reverse ++ s.freelist
  lookup_eq : ∀ p, p.length ≤ 2 → lookup s'.ram r p = lookup s.ram r p
  frame : ∀ a, ¬ Node s.ram r a → a ∉ freed → s'.ram a = s.ram a

theorem Unmaps.trans {freed freed' : List Pa} {s'' : State} (h : Unmaps r freed s s') (h' : Unmaps r freed' s' s'') :
    Unmaps r (freed ++ freed') s s'' where
  freelist := by rw [h'.freelist, h.freelist, List.reverse_append, List.append_assoc]
  lookup_eq p hp := by rw [h'.lookup_eq p hp, h.lookup_eq p hp]
  frame a ha hf := by
    rw [List.mem_append, not_or] at hf
    rw [h'.frame a (by rwa [node_of_same h.lookup_eq]) hf.2, h.frame a ha hf.1]

theorem Table.of_unmaps {freed : List Pa} (ht : Table r s) (hu : Unmaps r freed s s')
    (hnd : (freed ++ s.freelist).Nodup)
    (hal : ∀ a ∈ freed, a.toNat % PGSIZE = 0) (hfresh : ∀ a ∈ freed, ¬ Node s.ram r a) : Table r s' where
  toWellFormed := ht.toWellFormed.congr hu.lookup_eq
  nodup := by
    rw [hu.freelist]
    exact (((List.reverse_perm freed).append_right s.freelist).nodup_iff).mpr hnd
  free_aligned a ha := by
    rw [hu.freelist, List.mem_append, List.mem_reverse] at ha
    exact ha.elim (hal a) (ht.free_aligned a)
  free_fresh a ha := by
    rw [hu.freelist, List.mem_append, List.mem_reverse] at ha
    rw [node_of_same hu.lookup_eq]
    exact ha.elim (hfresh a) (ht.free_fresh a)

/-- A page that `kfree` accepts and that is not in the table. -/
structure Frame (kend : Nat) (ram : Ram) (r pa : Pa) : Prop where
  above : kend ≤ pa.toNat
  below : pa.toNat < PHYSTOP
  other : ¬ Node ram r pa

theorem pte2pa_aligned (e : Pte) : (pte2pa e).toNat % PGSIZE = 0 := by
  rw [pte2pa, BitVec.toNat_shiftLeft, Nat.shiftLeft_eq, PGSIZE_eq]
  omega

theorem kfree_spec {pa : Pa} (hal : pa.toNat % PGSIZE = 0) (hf : Frame kend s.ram r pa) :
    ∃ s', kfree kend pa s = .ok () s' ∧ Unmaps r [pa] s s' ∧ ∀ a, Node s.ram r a → s'.ram a = s.ram a := by
  have hsame : ∀ a, a ≠ pa → update s.ram pa (fun _ => (1 : BitVec 8)) a = s.ram a := fun a ha =>
    update_of_ne ha _ _
  have hnode : ∀ a, Node s.ram r a → update s.ram pa (fun _ => (1 : BitVec 8)) a = s.ram a := fun a ha =>
    hsame a fun h => hf.other (h ▸ ha)
  refine ⟨⟨update s.ram pa fun _ => 1, pa :: s.freelist⟩, ?_, ⟨rfl, fun p hp => lookup_of_same hnode hp, ?_⟩, hnode⟩
  · have h1 := hf.above
    have h2 := hf.below
    rw [kfree, if_neg (by omega)]
  · intro a _ ha
    exact hsame a fun h => ha (by rw [h]; exact List.mem_singleton_self _)

theorem unmapPage_of_leaf (kend : Nat) (doFree : Bool) (ha : a.toNat < MAXVA)
    (hleaf : leaf s.ram r (a.toNat / PGSIZE) = some e) :
    ∃ p, lookup s.ram r (path (a.toNat / PGSIZE)) = some p ∧ entries s.ram p (ix 0 (a.toNat / PGSIZE)) = e ∧
    e &&& PTE_V ≠ 0 ∧
      unmapPage kend r doFree a s = (if pteFlags e = PTE_V then panic .uvmunmapNotLeaf
        else (if doFree then kfree kend (pte2pa e) else pure ()) >>= fun _ => store p (ix 0 (a.toNat / PGSIZE)) 0)
        s := by
  obtain ⟨p, hp, he, hv⟩ := lookup_of_leaf hleaf
  have hwalk := walk_false r s ha
  rw [hp] at hwalk
  have hload : load p (ix 0 (a.toNat / PGSIZE)) s = .ok e s := by rw [load, he]
  refine ⟨p, hp, he, hv, ?_⟩
  rw [unmapPage, bind_of_ok hwalk]
  change (load p (ix 0 (a.toNat / PGSIZE)) >>= _) s = _
  rw [bind_of_ok hload, if_neg hv]

theorem unmapPage_spec {doFree : Bool} (hw : WellFormed s.ram r) (ha : a.toNat < MAXVA)
    (hleaf : leaf s.ram r (a.toNat / PGSIZE) = some e) (hflags : pteFlags e ≠ PTE_V)
    (hframe : doFree = true → Frame kend s.ram r (pte2pa e)) :
    ∃ s', unmapPage kend r doFree a s = .ok () s' ∧ Unmaps r (if doFree then [pte2pa e] else []) s s' ∧
      Leaves s'.ram r (update (leaf s.ram r) (a.toNat / PGSIZE) none) := by
  obtain ⟨p, hp, he, hv, hpage⟩ := unmapPage_of_leaf kend doFree ha hleaf
  have hnode : Node s.ram r p := ⟨path (a.toNat / PGSIZE), path_le _, hp⟩
  -- the page is freed first, if it is
  obtain ⟨s1, hs1, hu, hsame⟩ : ∃ s1, (if doFree then kfree kend (pte2pa e) else pure ()) s = .ok () s1 ∧
      Unmaps r (if doFree then [pte2pa e] else []) s s1 ∧ ∀ c, Node s.ram r c → s1.ram c = s.ram c := by
    cases doFree with
    | false => exact ⟨s, rfl, ⟨rfl, fun _ _ => rfl, fun _ _ _ => rfl⟩, fun _ _ => rfl⟩
    | true => exact kfree_spec (pte2pa_aligned e) (hframe rfl)
  have hp1 : lookup s1.ram r (path (a.toNat / PGSIZE)) = some p := by rw [hu.lookup_eq _ (path_le _), hp]
  obtain ⟨s2, hs2⟩ : ∃ s2 : State, s2 =
      ⟨update s1.ram p ((s1.ram p).setField (8 * (ix 0 (a.toNat / PGSIZE)).val) (0 : Pte)), s1.freelist⟩ := ⟨_, rfl⟩
  have hstore : store p (ix 0 (a.toNat / PGSIZE)) 0 s1 = .ok () s2 := by rw [hs2]; rfl
  obtain ⟨hlook, hother, hslot⟩ := (hw.congr hu.lookup_eq).store rfl hp1 hs2
  have hu2 : Unmaps r [] s1 s2 := by
    refine ⟨by rw [hs2]; rfl, hlook, fun c hc _ => hother c fun hcp => hc ?_⟩
    rw [hcp]
    exact (node_of_same hu.lookup_eq).mpr hnode
  refine ⟨s2, ?_, by simpa using hu.trans hu2, fun v hv => ?_⟩
  · rw [hpage, if_neg hflags, bind_of_ok hs1, hstore]
  · rw [leaf_store (vpn_lt ha) rfl hslot v hv]
    by_cases hvv : v = a.toNat / PGSIZE
    · rw [hvv, update_self, update_self]
      rfl
    · rw [update_of_ne hvv, update_of_ne hvv, leaf_of_same hsame]

/-- The frames of `n` pages from `vpn` on. -/
def frames (ram : Ram) (r : Pa) (vpn n : Nat) : List Pa :=
  (List.range' vpn n).map fun v => pte2pa ((leaf ram r v).getD 0)

theorem frames_congr {ram' : Ram} {n : Nat} (h : ∀ j, j < n → leaf ram' r (vpn + j) = leaf ram r (vpn + j)) :
    frames ram' r vpn n = frames ram r vpn n := by
  refine List.map_congr_left fun v hv => ?_
  obtain ⟨j, hj, rfl⟩ := List.mem_range'.mp hv
  rw [Nat.one_mul, h j hj]

/-- A page that `uvmunmap` can remove: its leaf has a flag besides `PTE_V`, and its frame can be freed if it
is to be. -/
def Removable (kend : Nat) (doFree : Bool) (ram : Ram) (r : Pa) (v : Nat) : Prop :=
  ∃ e, leaf ram r v = some e ∧ pteFlags e ≠ PTE_V ∧ (doFree = true → Frame kend ram r (pte2pa e))

theorem unmapRange_zero (M : Nat → Option Pte) (vpn : Nat) : unmapRange M vpn 0 = M := funext fun v => if_neg (by omega)

theorem unmapRange_succ (M : Nat → Option Pte) (vpn n : Nat) :
    unmapRange (update M vpn none) (vpn + 1) n = unmapRange M vpn (n + 1) := by
  funext v
  rw [unmapRange, unmapRange]
  by_cases h : v = vpn
  · subst h
    rw [if_neg (by omega), if_pos (by omega), update_self]
  · rw [update_of_ne h]
    exact if_congr (by omega) rfl rfl

theorem uvmunmapLoop_spec {doFree : Bool} (last : BitVec 64) (n : Nat) : ∀ (fuel : Nat) (a : BitVec 64) (s : State),
    WellFormed s.ram r → n ≤ fuel → a.toNat % PGSIZE = 0 → a.toNat + n * PGSIZE ≤ last.toNat → last.toNat ≤ MAXVA →
    (∀ j, j < n → Removable kend doFree s.ram r (a.toNat / PGSIZE + j)) →
    ∃ a' s', a'.toNat = a.toNat + n * PGSIZE ∧
      uvmunmapLoop kend r doFree last fuel a s = uvmunmapLoop kend r doFree last (fuel - n) a' s' ∧
      Unmaps r (if doFree then frames s.ram r (a.toNat / PGSIZE) n else []) s s' ∧
      Leaves s'.ram r (unmapRange (leaf s.ram r) (a.toNat / PGSIZE) n) := by
  induction n with
  | zero =>
    intro fuel a s _ _ _ _ _ _
    exact ⟨a, s, by omega, rfl, ⟨by cases doFree <;> rfl, fun _ _ => rfl, fun _ _ _ => rfl⟩,
      fun v _ => by rw [unmapRange_zero]⟩
  | succ n ih =>
    intro fuel a s hw hfuel hal hlast hmax hrem
    obtain ⟨fuel, rfl⟩ : ∃ k, fuel = k + 1 := ⟨fuel - 1, by omega⟩
    have hM : MAXVA = 2 ^ 38 := rfl
    rw [PGSIZE_eq] at hal hlast
    have ha : a.toNat < MAXVA := by omega
    have hnext := toNat_next_page ha
    have hvpn : (a + 4096).toNat / PGSIZE = a.toNat / PGSIZE + 1 := by
      rw [hnext, PGSIZE_eq]
      omega
    obtain ⟨e, hleaf, hflags, hframe⟩ := hrem 0 (by omega)
    obtain ⟨s1, hpage, hu, hleaves⟩ := unmapPage_spec hw ha hleaf hflags hframe
    have hlater : ∀ j, j < n → leaf s1.ram r (a.toNat / PGSIZE + 1 + j) =
      leaf s.ram r (a.toNat / PGSIZE + (j + 1)) := by
      intro j hj
      rw [hleaves _ (by rw [PGSIZE_eq]; omega), update_of_ne (by omega), Nat.add_assoc, Nat.add_comm 1 j]
    obtain ⟨a', s', ha', hloop, hu', hleaves'⟩ := ih fuel (a + 4096) s1 (hw.congr hu.lookup_eq) (by omega)
      (by rw [hnext, PGSIZE_eq]; omega) (by rw [hnext, PGSIZE_eq]; omega) hmax fun j hj => by
        obtain ⟨e', hleaf', hflags', hframe'⟩ := hrem (j + 1) (by omega)
        rw [hvpn]
        refine ⟨e', by rw [hlater j hj, hleaf'], hflags', fun hd => ?_⟩
        obtain ⟨h1, h2, h3⟩ := hframe' hd
        exact ⟨h1, h2, by rwa [node_of_same hu.lookup_eq]⟩
    refine ⟨a', s', by rw [ha', hnext, Nat.add_mul]; omega, ?_, ?_, fun v hv => ?_⟩
    · rw [uvmunmapLoop, if_pos (by rw [BitVec.lt_def]; omega), bind_of_ok hpage, hloop, Nat.add_sub_add_right]
    · have hall := hu.trans hu'
      have hframes : frames s1.ram r (a.toNat / PGSIZE + 1) n = frames s.ram r (a.toNat / PGSIZE + 1) n :=
        frames_congr fun j hj => by rw [hlater j hj, Nat.add_assoc, Nat.add_comm 1 j]
      rw [hvpn, hframes] at hall
      cases doFree with
      | false => exact hall
      | true =>
        have hfst : pte2pa e :: frames s.ram r (a.toNat / PGSIZE + 1) n = frames s.ram r (a.toNat / PGSIZE)
          (n + 1) := by
          rw [frames, frames, List.range'_succ, List.map_cons]
          change _ = pte2pa ((leaf s.ram r (a.toNat / PGSIZE + 0)).getD 0) :: _
          rw [hleaf]
          rfl
        rw [if_pos rfl, ← hfst]
        exact hall
    · rw [hleaves' v hv, hvpn, ← unmapRange_succ, unmapRange, unmapRange, hleaves v hv]

theorem toNat_end_of_pages {npages : BitVec 64} (hmax : va.toNat + npages.toNat * PGSIZE ≤ MAXVA) :
    (va + npages * 4096).toNat = va.toNat + npages.toNat * PGSIZE ∧ npages.toNat ≤ 2 ^ 64 / PGSIZE := by
  have hM : MAXVA = 2 ^ 38 := rfl
  rw [BitVec.toNat_add, BitVec.toNat_mul, toNat_4096]
  rw [PGSIZE_eq] at hmax ⊢
  omega

theorem uvmunmap_spec (kend : Nat) (doFree : Bool) (va npages : BitVec 64) (hw : WellFormed s.ram r)
    (hal : va.toNat % PGSIZE = 0)
    (hmax : va.toNat + npages.toNat * PGSIZE ≤ MAXVA)
    (hrem : ∀ j, j < npages.toNat → Removable kend doFree s.ram r (va.toNat / PGSIZE + j)) :
    ∃ s', uvmunmap kend r va npages doFree s = .ok () s' ∧
      Unmaps r (if doFree then frames s.ram r (va.toNat / PGSIZE) npages.toNat else []) s s' ∧
      Leaves s'.ram r (unmapRange (leaf s.ram r) (va.toNat / PGSIZE) npages.toNat) := by
  obtain ⟨hlast, hfuel⟩ := toNat_end_of_pages hmax
  obtain ⟨a', s', ha', hloop, hu, hleaves⟩ :=
  uvmunmapLoop_spec (va + npages * 4096) npages.toNat _ va s hw hfuel hal hlast.ge
    (by omega) hrem
  refine ⟨s', ?_, hu, hleaves⟩
  rw [uvmunmap, if_neg (not_not.mpr hal), hloop]
  cases 2 ^ 64 / PGSIZE - npages.toNat with
  | zero => rfl
  | succ fuel =>
    rw [uvmunmapLoop, if_neg (by rw [BitVec.lt_def]; omega)]
    rfl

theorem uvmunmap_notLeaf (kend : Nat) (doFree : Bool) {j : Nat} {npages : BitVec 64} (hw : WellFormed s.ram r)
    (hal : va.toNat % PGSIZE = 0) (hmax : va.toNat + npages.toNat * PGSIZE ≤ MAXVA) (hj : j < npages.toNat)
    (hrem : ∀ i, i < j → Removable kend doFree s.ram r (va.toNat / PGSIZE + i))
    (hleaf : leaf s.ram r (va.toNat / PGSIZE + j) = some e) (hflags : pteFlags e = PTE_V) :
    ∃ s', uvmunmap kend r va npages doFree s = .error .uvmunmapNotLeaf s' := by
  have hM : MAXVA = 2 ^ 38 := rfl
  obtain ⟨hlast, hfuel⟩ := toNat_end_of_pages hmax
  have hmul : (j + 1) * PGSIZE ≤ npages.toNat * PGSIZE := Nat.mul_le_mul_right _ hj
  rw [Nat.add_mul] at hmul
  obtain ⟨a', s', ha', hloop, -, hleaves⟩ := uvmunmapLoop_spec (va + npages * 4096) j (2 ^ 64 / PGSIZE) va s hw
    (by omega) hal (by omega)
    (by omega) hrem
  rw [PGSIZE_eq] at hal hmul ha' hmax
  have hvpn : a'.toNat / PGSIZE = va.toNat / PGSIZE + j := by
    rw [PGSIZE_eq]
    omega
  have hleaf' : leaf s'.ram r (a'.toNat / PGSIZE) = some e := by
    rw [hvpn, hleaves _ (by rw [PGSIZE_eq]; omega), unmapRange, if_neg (by omega), hleaf]
  obtain ⟨fuel, hk⟩ := Nat.exists_eq_succ_of_ne_zero (show 2 ^ 64 / PGSIZE - j ≠ 0 by omega)
  obtain ⟨p, -, -, -, hpage⟩ := unmapPage_of_leaf kend doFree (by omega) hleaf'
  refine ⟨s', ?_⟩
  rw [uvmunmap, if_neg (not_not.mpr (by rw [PGSIZE_eq]; exact hal)), hloop, hk, uvmunmapLoop,
    if_pos (by rw [BitVec.lt_def]; rw [PGSIZE_eq] at hlast; omega)]
  refine Hoare.bind_of_error ?_
  rw [hpage, if_pos hflags]
  rfl

/-! ## An empty table -/

theorem lookup_empty (h : ram r = fun _ => 0) (p : List (Fin 512)) :
    lookup ram r p = if p = [] then some r else none := by
  cases p with
  | nil => rfl
  | cons i p =>
    rw [lookup, Trie.find, entries_zero h, if_neg (by simp)]
    rfl

theorem node_empty (h : ram r = fun _ => 0) (a : Pa) : Node ram r a ↔ a = r := by
  constructor
  · rintro ⟨p, -, hp⟩
    rw [lookup_empty h] at hp
    split_ifs at hp
    exact (Option.some.inj hp).symm
  · rintro rfl
    exact ⟨[], Nat.zero_le 2, rfl⟩

theorem leaf_empty (h : ram r = fun _ => 0) (v : Nat) : leaf ram r v = none := by
  rw [leaf, slot, lookup_empty h, if_neg (by simp [path]), Option.bind_none]

theorem wellFormed_empty (hr : r.toNat % PGSIZE = 0) (h : ram r = fun _ => 0) : WellFormed ram r := by
  refine ⟨hr, fun p q a _ _ hp hq => ?_⟩
  have hp' : lookup ram r p = some a := hp
  have hq' : lookup ram r q = some a := hq
  rw [lookup_empty h] at hp' hq'
  split_ifs at hp' hq' with h1 h2
  rw [h1, h2]

/-! ## The map that a table stands for -/

/-- The three functions on a table are a lookup in its partial map, an update of a range and a removal of a
range. If `mappages` fails it added the first `m` pages of the range, and no page is free. `uvmunmap` panics
when it gets to a page with no flag besides `PTE_V`. -/
theorem table_refines_map (kend : Nat) (ht : Table r s) :
    (∀ va : BitVec 64, va.toNat < MAXVA → ∃ res, walk r va false s = .ok res s ∧
      leaf s.ram r (va.toNat / PGSIZE) = res.bind fun pte => present (entries s.ram pte.page pte.i)) ∧
    (∀ (va size pa : BitVec 64) (perm : BitVec 32), 0 < size.toNat → va.toNat + size.toNat - 1 < MAXVA →
      (∀ v, va.toNat / PGSIZE ≤ v → v ≤ (va.toNat + size.toNat - 1) / PGSIZE → leaf s.ram r v = none) →
      ∃ res s', mappages r va size pa perm s = .ok res s' ∧ Table r s' ∧
        ∃ m, Leaves s'.ram r (mapRange (leaf s.ram r) (va.toNat / PGSIZE) m (pageEntry pa perm)) ∧
          (res = 0 ∧ m = pagesOf va size ∨ res = -1 ∧ m < pagesOf va size ∧ s'.freelist = [])) ∧
    (∀ (va npages : BitVec 64) (doFree : Bool), va.toNat % PGSIZE = 0 → va.toNat + npages.toNat * PGSIZE ≤ MAXVA →
      (∀ j, j < npages.toNat → Removable kend doFree s.ram r (va.toNat / PGSIZE + j)) →
      ∃ s', uvmunmap kend r va npages doFree s = .ok () s' ∧ WellFormed s'.ram r ∧
        Leaves s'.ram r (unmapRange (leaf s.ram r) (va.toNat / PGSIZE) npages.toNat)) ∧
    ∀ (va npages : BitVec 64) (doFree : Bool) (j : Nat) (e : Pte), va.toNat % PGSIZE = 0 →
      va.toNat + npages.toNat * PGSIZE ≤ MAXVA → j < npages.toNat →
      (∀ i, i < j → Removable kend doFree s.ram r (va.toNat / PGSIZE + i)) →
      leaf s.ram r (va.toNat / PGSIZE + j) = some e → pteFlags e = PTE_V →
      ∃ s', uvmunmap kend r va npages doFree s = .error .uvmunmapNotLeaf s' := by
  refine ⟨fun va hva => ⟨_, walk_false r s hva, ?_⟩, fun va size pa perm hsize hmax hnone => ?_,
    fun va npages doFree hal hmax hrem => ?_,
    fun va npages doFree j e => uvmunmap_notLeaf kend doFree ht.toWellFormed⟩
  · rw [leaf, slot]
    cases lookup s.ram r (path (va.toNat / PGSIZE)) with
    | none => rfl
    | some a => rfl
  · obtain ⟨res, m, taken, s', hmap, hm⟩ := mappages_spec va size pa perm ht hsize hmax fun j hj => by
      have hlt : j < (va.toNat + size.toNat - 1) / PGSIZE - va.toNat / PGSIZE + 1 := hj
      have hle : va.toNat / PGSIZE ≤ (va.toNat + size.toNat - 1) / PGSIZE := Nat.div_le_div_right (by omega)
      exact hnone _ (by omega) (by omega)
    refine ⟨res, s', hmap, ht.of_grows hm.grows, m, hm.leaves, ?_⟩
    exact hm.result
  · obtain ⟨s', hun, hu, hleaves⟩ := uvmunmap_spec kend doFree va npages ht.toWellFormed hal hmax hrem
    exact ⟨s', hun, ht.toWellFormed.congr hu.lookup_eq, hleaves⟩

/-- Zeroed memory with some free pages. -/
def blank : State := ⟨fun _ _ => 0, [0x80002000, 0x80003000, 0x80004000, 0x80005000, 0x80006000, 0x80007000]⟩

theorem table_blank (r : Pa) (hr : r.toNat % PGSIZE = 0) (hfree : r ∉ blank.freelist) : Table r blank where
  toWellFormed := wellFormed_empty hr rfl
  nodup := by decide
  free_aligned a ha := by
    simp only [blank, List.mem_cons, List.not_mem_nil, or_false] at ha
    rcases ha with rfl | rfl | rfl | rfl | rfl | rfl <;> rfl
  free_fresh a ha hn := by
    rw [node_empty rfl] at hn
    exact hfree (hn ▸ ha)

theorem table_refines_map_blank : Table 0x80000000 blank ∧
    ∃ s', mappages 0x80000000 0x1234 4096 0x80003000 0x17 blank = .ok 0 s' ∧ Table 0x80000000 s' ∧
      Leaves s'.ram 0x80000000 (mapRange (leaf blank.ram 0x80000000) 1 2 (pageEntry 0x80003000 0x17)) := by
  obtain ⟨t, heval⟩ : ∃ t, mappages 0x80000000 0x1234 4096 0x80003000 0x17 blank = .ok 0 t := by decide +kernel
  have ht := table_blank 0x80000000 rfl (by decide)
  obtain ⟨res, s', hmap, ht', m, hleaves, hres⟩ := (table_refines_map 0 ht).2.1 0x1234 4096 0x80003000 0x17
    (by decide) (by decide)
    fun v _ _ => leaf_empty rfl v
  obtain ⟨rfl, rfl⟩ := EStateM.Result.ok.inj (hmap.symm.trans heval)
  obtain ⟨-, rfl⟩ := hres.resolve_right fun h => by cases h.1
  exact ⟨ht, s', hmap, ht', hleaves⟩

theorem mapped_blank (pa : BitVec 64) (perm : BitVec 32)
    (heval : ∃ t, mappages 0x80000000 0 4096 pa perm blank = .ok 0 t) :
    ∃ taken s, mappages 0x80000000 0 4096 pa perm blank = .ok 0 s ∧ Table 0x80000000 s ∧
      Mapped 0x80000000 0 1 (pageEntry pa perm) blank 0 1 taken s := by
  obtain ⟨t, heval⟩ := heval
  have ht := table_blank 0x80000000 rfl (by decide)
  obtain ⟨res, m, taken, s, hmap, hm⟩ := mappages_spec 0 4096 pa perm ht (by decide) (by decide) fun j _ =>
    leaf_empty rfl _
  obtain ⟨rfl, rfl⟩ := EStateM.Result.ok.inj (hmap.symm.trans heval)
  obtain ⟨-, rfl⟩ := hm.result.resolve_right fun h => by cases h.1
  exact ⟨taken, s, hmap, ht.of_grows hm.grows, hm⟩

/-- A page mapped with no permission is in the map, and `uvmunmap` panics on it. -/
theorem uvmunmap_bare_leaf : ∃ s t, Table 0x80000000 s ∧ leaf s.ram 0x80000000 0 = some (pageEntry 0x80003000 0 0) ∧
    uvmunmap 0x80000000 0x80000000 0 1 false s = .error .uvmunmapNotLeaf t := by
  obtain ⟨taken, s, -, ht, hm⟩ := mapped_blank 0x80003000 0 (by decide +kernel)
  have hleaf : leaf s.ram 0x80000000 0 = some (pageEntry 0x80003000 0 0) := hm.leaves 0 (by decide)
  obtain ⟨t, hun⟩ : ∃ t, uvmunmap 0x80000000 0x80000000 0 1 false s = .error .uvmunmapNotLeaf t :=
    uvmunmap_notLeaf (j := 0) _ _ ht.toWellFormed rfl (by decide) (by decide)
    (fun i hi => absurd hi (Nat.not_lt_zero i)) hleaf
      (by decide)
  exact ⟨s, t, ht, hleaf, hun⟩

theorem onePage_blank : ∃ s, mappages 0x80000000 0 4096 0x80008000 0x1E blank = .ok 0 s ∧ Table 0x80000000 s ∧
    Leaves s.ram 0x80000000 (mapRange (fun _ => none) 0 1 (pageEntry 0x80008000 0x1E)) ∧
    (∀ a, Node s.ram 0x80000000 a → a = 0x80000000 ∨ a ∈ blank.freelist) ∧ (∀ a ∈ s.freelist, a ∈ blank.freelist) ∧
    ∀ a, a ≠ 0x80000000 → a ∉ blank.freelist → s.ram a = fun _ => 0 := by
  obtain ⟨taken, s, hmap, ht, hm⟩ := mapped_blank 0x80008000 0x1E (by decide +kernel)
  have hsub : ∀ a, a ∈ taken ∨ a ∈ s.freelist → a ∈ blank.freelist := fun a ha => by
    rw [hm.grows.freelist]
    exact List.mem_append.mpr ha
  have hnode : ∀ a, Node s.ram 0x80000000 a → a = 0x80000000 ∨ a ∈ blank.freelist := fun a ha => by
    rcases (hm.grows.node a).mp ha with h | h
    · exact .inl ((node_empty rfl a).mp h)
    · exact .inr (hsub a (.inl h))
  refine ⟨s, hmap, ht, fun v hv => ?_, hnode, fun a ha => hsub a (.inr ha), fun a h1 h2 => ?_⟩
  · rw [hm.leaves v hv, mapRange, mapRange, leaf_empty rfl]
  · rw [hm.grows.frame _ fun hn => (hnode _ hn).elim h1 h2]
    rfl

end Xv6.Vm

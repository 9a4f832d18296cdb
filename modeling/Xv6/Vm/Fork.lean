import Xv6.Vm.Pages

/-!
# `uvmcopy`

`fork` copies the parent's pages one by one into fresh frames mapped in the child's table. If a page or a
page-table page cannot be had, the pages copied so far are unmapped and freed.
-/

namespace Xv6.Vm

open Hoare (bind_of_ok)
open Function (update update_of_ne update_self update_idem)

variable {v : Nat}

/-- A parent with `n` pages of memory in the table `old`, and a table `new` in which they are not mapped. -/
structure Forking (kend : Nat) (old new : Pa) (n : Nat) (s : State) : Prop where
  parent : Table old s
  child : Table new s
  free_ram : ∀ a ∈ s.freelist, kend ≤ a.toNat ∧ a.toNat < PHYSTOP
  disjoint : ∀ a, Node s.ram old a → ¬ Node s.ram new a
  /-- the parent's pages are leaves of the hardware's format, in frames of their own -/
  mapped : ∀ v, v < n → ∃ e, leaf s.ram old v = some e ∧ e &&& (PTE_R ||| PTE_W ||| PTE_X) ≠ 0 ∧ pte2pa e ∉ s.freelist ∧
    ¬ Node s.ram old (pte2pa e) ∧ ¬ Node s.ram new (pte2pa e)
  unmapped : ∀ v, v < n → leaf s.ram new v = none

/-- The child's page `v` is a copy of the parent's page in a frame from the free list. -/
structure Copied (old new : Pa) (s₀ s : State) (v : Nat) (e e' : Pte) : Prop where
  parent : leaf s₀.ram old v = some e
  child : leaf s.ram new v = some e'
  flags : pteFlags e' = pteFlags e
  fresh : pte2pa e' ∈ s₀.freelist
  bytes : s.ram (pte2pa e') = s₀.ram (pte2pa e)

/-- The first `k` pages are copied. -/
structure Copying (old new : Pa) (k : Nat) (s₀ : State) (taken : List Pa) (s : State) : Prop where
  table : Table new s
  perm : s₀.freelist.Perm (frames s.ram new 0 k ++ (taken ++ s.freelist))
  node : ∀ a, Node s.ram new a ↔ Node s₀.ram new a ∨ a ∈ taken
  copied : ∀ v, v < k → ∃ e e', Copied old new s₀ s v e e'
  leaves : ∀ v, v < 512 ^ 3 → k ≤ v → leaf s.ram new v = leaf s₀.ram new v
  frame : ∀ a, ¬ Node s₀.ram new a → a ∉ s₀.freelist → s.ram a = s₀.ram a

variable {kend n k : Nat} {old new b : Pa} {s₀ s s' : State} {taken rest : List Pa}

theorem Copying.parent_same (hf : Forking kend old new n s₀) (hc : Copying old new k s₀ taken s) :
    ∀ a, Node s₀.ram old a → s.ram a = s₀.ram a := fun a ha =>
  hc.frame a (hf.disjoint a ha) fun hmem => hf.parent.free_fresh a hmem ha

theorem flags_roundtrip (e : Pte) : ((pteFlags e).setWidth 32).signExtend 64 = pteFlags e := by
  have h := pteFlags_lt e
  have hlow : ((pteFlags e).setWidth 32).toNat = (pteFlags e).toNat := by
    rw [BitVec.toNat_setWidth]
    omega
  rw [BitVec.signExtend_eq_setWidth_of_msb_false]
  · refine BitVec.eq_of_toNat_eq ?_
    rw [BitVec.toNat_setWidth, hlow]
    omega
  · rw [BitVec.msb_eq_false_iff_two_mul_lt, hlow]
    omega

theorem pageEntry_copy {e : Pte} (hv : e &&& PTE_V ≠ 0) (hb : b.toNat % PGSIZE = 0) :
    pte2pa (pageEntry b ((pteFlags e).setWidth 32) 0) = b ∧ pteFlags (pageEntry b ((pteFlags e).setWidth 32) 0) =
    pteFlags e := by
  rw [pageEntry_zero, flags_roundtrip, BitVec.or_assoc, pteFlags_or_V hv]
  exact ⟨pte2pa_pa2pte hb (pteFlags_lt e), by rw [pteFlags_pa2pte, pteFlags_pteFlags]⟩

/-- What the pages added to the child's table are. -/
def CopyOf (old : Pa) (s₀ : State) (v : Nat) (e' : Pte) (pg : Bytes PGSIZE) : Prop :=
  ∃ e, leaf s₀.ram old v = some e ∧ pteFlags e' = pteFlags e ∧ pg = s₀.ram (pte2pa e)

theorem copying_iff : Copying old new k s₀ taken s ↔ Adding new (CopyOf old s₀) 0 k s₀ taken s := by
  refine ⟨fun h => ⟨h.table, h.perm, h.node, fun v _ hv => ?_, fun v hv hk => h.leaves v hv (by omega), h.frame⟩,
    fun h => ⟨h.table, h.perm, h.node, fun v hv => ?_, fun v hv hk => h.leaves v hv (by omega), h.frame⟩⟩
  · obtain ⟨e, e', hc⟩ := h.copied v (by omega)
    exact ⟨e', hc.child, e, hc.parent, hc.flags, hc.bytes⟩
  · obtain ⟨e', hchild, e, hparent, hflags, hbytes⟩ := h.added v (Nat.zero_le v) (by omega)
    have hleaf : leaf s.ram new (0 + v) = some e' := by
      rw [Nat.zero_add]
      exact hchild
    have hmem : pte2pa e' ∈ frames s.ram new 0 k := mem_frames hv hleaf
    exact ⟨e, e', hparent, hchild, hflags, h.frame_mem hmem, hbytes⟩

section

variable (hf : Forking kend old new n s₀) (hc : Copying old new k s₀ taken s)

include hf hc

theorem Copying.frame_other {e e' : Pte} (hv : v < k) (h : Copied old new s₀ s v e e') :
    ¬ Node s.ram new (pte2pa e') := by
  have hchild := h.child
  rw [← Nat.zero_add v] at hchild
  exact ((copying_iff.mp hc).frame_other hf.child (mem_frames hv hchild)).1

theorem Copying.frames_nodup :
    (frames s.ram new 0 k).Nodup := (List.nodup_append.mp ((copying_iff.mp hc).nodup hf.child.nodup)).1

theorem copyPage_spec {i : BitVec 64} (hk : k < n) (hn : n * PGSIZE ≤ MAXVA) (hi : i.toNat = k * PGSIZE) :
    ∃ ok taken' s', copyPage kend old new i s = .ok ok s' ∧
      (ok = true ∧ Copying old new (k + 1) s₀ taken' s' ∨ ok = false ∧ s'.freelist.length ≤ 1 ∧
      Copying old new k s₀ taken' s') := by
  have hM : MAXVA = 2 ^ 38 := rfl
  have hiM : i.toNat < MAXVA := by rw [PGSIZE_eq] at hn hi; omega
  have hkv : k < 512 ^ 3 := by rw [PGSIZE_eq] at hn; omega
  have hvpn : i.toNat / PGSIZE = k := by
    rw [hi]
    exact Nat.mul_div_cancel k (by decide)
  obtain ⟨e, hleaf, -, hpa, -, hpan⟩ := hf.mapped k hk
  have hleaf' : leaf s.ram old k = some e := by rw [leaf_of_same (hc.parent_same hf), hleaf]
  obtain ⟨p, hp, he, hv⟩ := lookup_of_leaf hleaf'
  have hwalk := walk_false old s hiM
  rw [hvpn, hp] at hwalk
  have hload : load p (ix 0 k) s = .ok e s := by rw [load, he]
  cases hfree : s.freelist with
  | nil =>
    have hk0 : kalloc s = .ok none s := by rw [kalloc, hfree]
    refine ⟨false, taken, s, ?_, .inr ⟨rfl, by simp [hfree], hc⟩⟩
    rw [copyPage, bind_of_ok hwalk]
    change (load p (ix 0 k) >>= _) s = _
    rw [bind_of_ok hload, if_neg hv, bind_of_ok hk0]
    rfl
  | cons mem rest =>
    have hadd := copying_iff.mp hc
    have hmem : mem ∈ s.freelist := by rw [hfree]; exact List.mem_cons_self
    have hmem₀ : mem ∈ s₀.freelist := hadd.mem_free (List.mem_append_right _ hmem)
    have hk0 : kalloc s = .ok (some mem) ⟨update s.ram mem fun _ => 5, rest⟩ := by rw [kalloc, hfree]
    have hne : pte2pa e ≠ mem := fun h => hpa (h ▸ hmem₀)
    have hmove : memmovePage mem (pte2pa e) ⟨update s.ram mem fun _ => 5, rest⟩ =
        .ok () ⟨update s.ram mem (s.ram (pte2pa e)), rest⟩ := by
      simp only [memmovePage, update_idem, update_of_ne hne]
    have hnone : leaf s.ram new k = none := by rw [hc.leaves k hkv (Nat.le_refl k), hf.unmapped k hk]
    obtain ⟨res, taken', s1, hmap, hplaced⟩ := Adding.place hc.table (Nat.le_trans (Nat.mul_le_mul_right _ hk) hn)
      hi hnone hfree
      ((pteFlags e).setWidth 32) (s.ram (pte2pa e))
    have hstart : copyPage kend old new i s = (if res ≠ 0 then kfree kend mem >>= fun _ =>
      pure false else pure true) s1 := by
      rw [copyPage, bind_of_ok hwalk]
      change (load p (ix 0 k) >>= _) s = _
      rw [bind_of_ok hload, if_neg hv, bind_of_ok hk0]
      change (memmovePage mem (pte2pa e) >>= _) _ = _
      rw [bind_of_ok hmove, bind_of_ok hmap]
    rw [← Nat.zero_add k] at hplaced
    rcases hplaced.result with ⟨rfl, -⟩ | ⟨rfl, -, hempty⟩
    · have hflags := (pageEntry_copy hv (hf.child.free_aligned mem hmem₀)).2
      have hlt : (((pteFlags e).setWidth 32).signExtend 64 ||| PTE_V).toNat < 1024 := by
        rw [flags_roundtrip, pteFlags_or_V hv]
        exact pteFlags_lt e
      refine ⟨true, taken ++ taken', s1, by rw [hstart]; rfl, .inl ⟨rfl, copying_iff.mpr ?_⟩⟩
      have hcopy : CopyOf old s₀ (0 + k) (pageEntry mem ((pteFlags e).setWidth 32) 0) (s.ram (pte2pa e)) := by
        rw [Nat.zero_add]
        exact ⟨e, hleaf, hflags, hc.frame _ hpan hpa⟩
      exact hadd.add hf.child (by omega) hmem hlt hplaced hcopy
    · obtain ⟨s2, hkf, hc2⟩ := hadd.drop hf.child hmem (by omega) (hf.free_ram mem hmem₀) hplaced
      have hlen := hadd.length_free
      rw [hplaced.freelist.length_eq, hc2.length_free, hempty] at hlen
      simp only [List.length_append, List.length_cons, List.length_nil] at hlen
      refine ⟨false, taken ++ taken', s2, ?_, .inr ⟨rfl, by omega, copying_iff.mpr hc2⟩⟩
      rw [hstart, if_pos (by decide), bind_of_ok hkf]
      rfl

theorem Copying.undo {i : BitVec 64} (hk : k ≤ n) (hn : n * PGSIZE ≤ MAXVA) (hi : i.toNat = k * PGSIZE) :
    ∃ s', uvmunmap kend new 0 (i / 4096) true s = .ok () s' ∧ Copying old new 0 s₀ taken s' := by
  have hnpages : (i / 4096).toNat = k := by
    rw [BitVec.toNat_udiv, toNat_4096, hi]
    exact Nat.mul_div_cancel k (by decide)
  have hadd : Adding new (fun v e' pg => v < n ∧ CopyOf old s₀ v e' pg) 0 k s₀ taken s :=
    (copying_iff.mp hc).and_lt fun v hv => by omega
  have hflags : ∀ v e' pg, (v < n ∧ CopyOf old s₀ v e' pg) → pteFlags e' ≠ PTE_V := by
    rintro v e' pg ⟨hv, e, hleaf, hflags, -⟩
    obtain ⟨e0, hleaf0, hrwx, -⟩ := hf.mapped v hv
    rw [hleaf] at hleaf0
    exact pteFlags_ne_V (Option.some.inj hleaf0 ▸ hrwx) hflags
  obtain ⟨s', hun, hu, hleaves⟩ := uvmunmap_spec kend true 0 (i / 4096) hc.table.toWellFormed rfl
    (by rw [hnpages]; simpa using Nat.le_trans (Nat.mul_le_mul_right _ hk) hn)
    fun j hj => hadd.removable hf.child hf.free_ram hflags (hnpages ▸ hj)
  rw [hnpages] at hleaves hu
  have hc' := (copying_iff.mp hc).undone hf.child (fun v _ hv => hf.unmapped v (by omega)) hu hleaves
  exact ⟨s', hun, copying_iff.mpr hc'⟩

end

theorem uvmcopyLoop_spec {sz : BitVec 64} (hf : Forking kend old new n s₀) (hn : n * PGSIZE ≤ MAXVA)
    (hsz : n = (sz.toNat + 4095) / PGSIZE) (fuel : Nat) : ∀ k i s taken, n - k ≤ fuel → k ≤ n → i.toNat = k * PGSIZE →
    Copying old new k s₀ taken s → ∃ res taken' s', uvmcopyLoop kend old new sz fuel i s = .ok res s' ∧
      (res = 0 ∧ Copying old new n s₀ taken' s' ∨ res = -1 ∧ s'.freelist.length ≤ n ∧
      Copying old new 0 s₀ taken' s') := by
  induction fuel with
  | zero =>
    intro k i s taken hfuel hk _ hc
    obtain rfl : k = n := by omega
    exact ⟨0, taken, s, rfl, .inl ⟨rfl, hc⟩⟩
  | succ fuel ih =>
    intro k i s taken hfuel hk hi hc
    rw [uvmcopyLoop]
    by_cases hlt : i < sz
    · have hkn : k < n := by
        rw [BitVec.lt_def, hi] at hlt
        rw [hsz]
        rw [PGSIZE_eq] at hlt ⊢
        omega
      obtain ⟨ok, taken1, s1, hpage, hcases⟩ := copyPage_spec hf hc hkn hn hi
      rw [if_pos hlt, bind_of_ok hpage]
      rcases hcases with ⟨rfl, hc1⟩ | ⟨rfl, hlen1, hc1⟩
      · rw [if_pos rfl]
        refine ih (k + 1) (i + 4096) s1 taken1 (by omega) hkn ?_ hc1
        rw [toNat_next_page, hi, Nat.add_mul, Nat.one_mul]
        rw [hi]
        have hle : (k + 1) * PGSIZE ≤ MAXVA := Nat.le_trans (Nat.mul_le_mul_right _ hkn) hn
        rw [PGSIZE_eq] at hle ⊢
        omega
      · rw [if_neg (by decide)]
        obtain ⟨s2, hun, hc2⟩ := hc1.undo hf hk hn hi
        have hlen := (copying_iff.mp hc1).length_free
        rw [(copying_iff.mp hc2).length_free] at hlen
        exact ⟨-1, taken1, s2, by rw [bind_of_ok hun]; rfl, .inr ⟨rfl, by omega, hc2⟩⟩
    · obtain rfl : k = n := by
        rw [BitVec.lt_def, hi] at hlt
        rw [hsz] at hk ⊢
        rw [PGSIZE_eq] at hlt hk ⊢
        omega
      exact ⟨0, taken, s, by rw [if_neg hlt]; rfl, .inl ⟨rfl, hc⟩⟩

theorem uvmcopy_spec {sz : BitVec 64} (hf : Forking kend old new n s) (hn : n * PGSIZE ≤ MAXVA)
    (hsz : n = (sz.toNat + 4095) / PGSIZE) : ∃ res taken s', uvmcopy kend old new sz s = .ok res s' ∧
      (res = 0 ∧ Copying old new n s taken s' ∨ res = -1 ∧ s'.freelist.length ≤ n ∧ Copying old new 0 s taken s') := by
  refine uvmcopyLoop_spec hf hn hsz _ 0 0 s [] ?_ (Nat.zero_le n) rfl ?_
  · have hM : MAXVA = 2 ^ 38 := rfl
    rw [PGSIZE_eq] at hn ⊢
    omega
  · exact ⟨hf.child, List.Perm.refl _,
      fun a => by simp, fun v hv => absurd hv (Nat.not_lt_zero v), fun _ _ _ => rfl, fun _ _ _ => rfl⟩

/-! ## Stores of the two processes -/

/-- The memory that the process with table `r` has at page `v`. -/
def userPage (ram : Ram) (r : Pa) (v : Nat) : Option (Bytes PGSIZE) := (leaf ram r v).map fun e => ram (pte2pa e)

/-- A store by the process with table `r`, which leaves page `v` with the bytes `pg`. -/
def userStore (ram : Ram) (r : Pa) (v : Nat) (pg : Bytes PGSIZE) : Ram :=
  match leaf ram r v with
  | none => ram
  | some e => update ram (pte2pa e) pg

def userStores (ram : Ram) (l : List (Pa × Nat × Bytes PGSIZE)) : Ram :=
  l.foldl (fun ram x => userStore ram x.1 x.2.1 x.2.2) ram

/-- A frame of one of the first `n` pages. -/
def FrameOf (ram : Ram) (r : Pa) (n : Nat) (a : Pa) : Prop := ∃ v, v < n ∧ ∃ e, leaf ram r v = some e ∧ pte2pa e = a

/-- Two processes without a frame in common; no frame is a page of a table. -/
structure Apart (ram : Ram) (r r' : Pa) (n : Nat) : Prop where
  left : ∀ a, FrameOf ram r n a → ¬ Node ram r a ∧ ¬ Node ram r' a
  right : ∀ a, FrameOf ram r' n a → ¬ Node ram r a ∧ ¬ Node ram r' a
  frames : ∀ a, FrameOf ram r n a → ¬ FrameOf ram r' n a

theorem Apart.symm {ram : Ram} {r r' : Pa} (h : Apart ram r r' n) : Apart ram r' r n where
  left a ha := (h.right a ha).symm
  right a ha := (h.left a ha).symm
  frames a ha hb := h.frames a hb ha

/-- After some stores, and after those of them that the first process made. -/
structure SameFor (ram : Ram) (r r' : Pa) (n : Nat) (ram₁ ram₂ : Ram) : Prop where
  nodes : ∀ a, Node ram r a ∨ Node ram r' a → ram₁ a = ram a ∧ ram₂ a = ram a
  frames : ∀ a, FrameOf ram r n a → ram₁ a = ram₂ a

variable {ram ram₁ ram₂ : Ram} {r r' : Pa}

theorem SameFor.leaf_left (h : SameFor ram r r' n ram₁ ram₂) (v : Nat) :
    leaf ram₁ r v = leaf ram r v ∧ leaf ram₂ r v = leaf ram r v :=
  ⟨leaf_of_same (fun a ha => (h.nodes a (.inl ha)).1) v, leaf_of_same (fun a ha => (h.nodes a (.inl ha)).2) v⟩

theorem SameFor.store_left (hap : Apart ram r r' n) (h : SameFor ram r r' n ram₁ ram₂) (hv : v < n)
    (pg : Bytes PGSIZE) :
    SameFor ram r r' n (userStore ram₁ r v pg) (userStore ram₂ r v pg) := by
  obtain ⟨h1, h2⟩ := h.leaf_left v
  rw [userStore, userStore, h1, h2]
  cases hleaf : leaf ram r v with
  | none => exact h
  | some e =>
    have hframe : FrameOf ram r n (pte2pa e) := ⟨v, hv, e, hleaf, rfl⟩
    constructor
    · intro a ha
      have hne : a ≠ pte2pa e := by
        rintro rfl
        exact ha.elim (hap.left _ hframe).1 (hap.left _ hframe).2
      change update ram₁ (pte2pa e) pg a = ram a ∧ update ram₂ (pte2pa e) pg a = ram a
      rw [update_of_ne hne, update_of_ne hne]
      exact h.nodes a ha
    · intro a ha
      change update ram₁ (pte2pa e) pg a = update ram₂ (pte2pa e) pg a
      by_cases hae : a = pte2pa e
      · rw [hae, update_self, update_self]
      · rw [update_of_ne hae, update_of_ne hae, h.frames a ha]

theorem SameFor.store_right (hap : Apart ram r r' n) (h : SameFor ram r r' n ram₁ ram₂) (hv : v < n)
    (pg : Bytes PGSIZE) :
    SameFor ram r r' n (userStore ram₁ r' v pg) ram₂ := by
  rw [userStore, leaf_of_same (fun a ha => (h.nodes a (.inr ha)).1) v]
  cases hleaf : leaf ram r' v with
  | none => exact h
  | some e =>
    have hframe : FrameOf ram r' n (pte2pa e) := ⟨v, hv, e, hleaf, rfl⟩
    constructor
    · intro a ha
      have hne : a ≠ pte2pa e := by
        rintro rfl
        exact ha.elim (hap.right _ hframe).1 (hap.right _ hframe).2
      change update ram₁ (pte2pa e) pg a = ram a ∧ _
      rw [update_of_ne hne]
      exact h.nodes a ha
    · intro a ha
      have hne : a ≠ pte2pa e := by
        rintro rfl
        exact hap.frames _ ha hframe
      change update ram₁ (pte2pa e) pg a = _
      rw [update_of_ne hne, h.frames a ha]

theorem Apart.invisible (hap : Apart ram r r' n) (l : List (Pa × Nat × Bytes PGSIZE))
    (hl : ∀ x ∈ l, (x.1 = r ∨ x.1 = r') ∧ x.2.1 < n) (hv : v < n) :
    userPage (userStores ram l) r v = userPage (userStores ram (l.filter (·.1 = r))) r v := by
  have hrun : ∀ (l : List (Pa × Nat × Bytes PGSIZE)), (∀ x ∈ l, (x.1 = r ∨ x.1 = r') ∧ x.2.1 < n) → ∀ ram₁ ram₂,
      SameFor ram r r' n ram₁ ram₂ → SameFor ram r r' n (userStores ram₁ l) (userStores ram₂ (l.filter (·.1 = r))) := by
    intro l
    induction l with
    | nil => exact fun _ _ _ h => h
    | cons x l ih =>
      intro hl ram₁ ram₂ h
      obtain ⟨hx, hxv⟩ := hl x List.mem_cons_self
      have hl' := fun y hy => hl y (List.mem_cons_of_mem x hy)
      by_cases hr : x.1 = r
      · rw [List.filter_cons_of_pos (by simpa using hr)]
        refine ih hl' _ _ ?_
        change SameFor ram r r' n (userStore ram₁ x.1 x.2.1 x.2.2) (userStore ram₂ x.1 x.2.1 x.2.2)
        rw [hr]
        exact h.store_left hap hxv _
      · rw [List.filter_cons_of_neg (by simpa using hr)]
        refine ih hl' _ _ ?_
        change SameFor ram r r' n (userStore ram₁ x.1 x.2.1 x.2.2) ram₂
        rw [hx.resolve_left hr]
        exact h.store_right hap hxv _
  have h := hrun l hl ram ram ⟨fun _ _ => ⟨rfl, rfl⟩, fun _ _ => rfl⟩
  obtain ⟨h1, h2⟩ := h.leaf_left v
  rw [userPage, userPage, h1, h2]
  cases hleaf : leaf ram r v with
  | none => rfl
  | some e =>
    rw [Option.map_some, Option.map_some, h.frames _ ⟨v, hv, e, hleaf, rfl⟩]

/-! ## What `uvmcopy` leaves -/

/-- Every page of the parent has a copy of its own in the child, which no store of the other process reaches. -/
structure Forked (old new : Pa) (n : Nat) (s s' : State) : Prop where
  copied : ∀ v, v < n → ∃ e e', Copied old new s s' v e e'
  distinct : ∀ v w e e', v < n → w < n → leaf s'.ram new v = some e → leaf s'.ram new w = some e' →
    pte2pa e = pte2pa e' → v = w
  other : ∀ a, FrameOf s'.ram old n a → ¬ FrameOf s'.ram new n a
  isolated : ∀ l : List (Pa × Nat × Bytes PGSIZE), (∀ x ∈ l, (x.1 = old ∨ x.1 = new) ∧ x.2.1 < n) → ∀ v, v < n →
    userPage (userStores s'.ram l) old v = userPage (userStores s'.ram (l.filter (·.1 = old))) old v ∧
      userPage (userStores s'.ram l) new v = userPage (userStores s'.ram (l.filter (·.1 = new))) new v

/-- The child's leaves are those before, and only pages of its table are missing from the free list. -/
structure Undone (new : Pa) (n : Nat) (s s' : State) : Prop where
  none_left : ∀ v, v < n → leaf s'.ram new v = none
  leaves : Leaves s'.ram new (leaf s.ram new)
  freelist : ∃ taken, s.freelist.Perm (taken ++ s'.freelist) ∧ ∀ a, Node s'.ram new a ↔ Node s.ram new a ∨ a ∈ taken

theorem Copying.apart (hf : Forking kend old new n s₀) (hc : Copying old new n s₀ taken s) : Apart s.ram old new n := by
  have hold : ∀ v, leaf s.ram old v = leaf s₀.ram old v := leaf_of_same (hc.parent_same hf)
  have hnode : ∀ a, Node s.ram old a ↔ Node s₀.ram old a := fun a => node_of_same fun p hp =>
    lookup_of_same (hc.parent_same hf) hp
  have hin : ∀ a, a ∈ taken ++ s.freelist → a ∈ s₀.freelist := fun a ha =>
    hc.perm.mem_iff.mpr (List.mem_append_right _ ha)
  -- frames of the parent were never free, those of the child were
  have hparent : ∀ a, FrameOf s.ram old n a → a ∉ s₀.freelist ∧ ¬ Node s₀.ram old a ∧ ¬ Node s₀.ram new a := by
    rintro a ⟨v, hv, e, he, rfl⟩
    obtain ⟨e0, hleaf, -, h1, h2, h3⟩ := hf.mapped v hv
    rw [hold, hleaf] at he
    rw [← Option.some.inj he]
    exact ⟨h1, h2, h3⟩
  have hchild : ∀ a, FrameOf s.ram new n a → a ∈ s₀.freelist ∧ ¬ Node s.ram new a := by
    rintro a ⟨v, hv, e, he, rfl⟩
    obtain ⟨e1, e2, h⟩ := hc.copied v hv
    obtain rfl : e2 = e := Option.some.inj (h.child.symm.trans he)
    exact ⟨h.fresh, hc.frame_other hf hv h⟩
  refine ⟨fun a ha => ?_, fun a ha => ?_, fun a ha hb => (hparent a ha).1 (hchild a hb).1⟩
  · obtain ⟨h1, h2, h3⟩ := hparent a ha
    rw [hnode, hc.node]
    exact ⟨h2, fun hor => hor.elim h3 fun ht => h1 (hin a (List.mem_append_left _ ht))⟩
  · obtain ⟨h1, h2⟩ := hchild a ha
    rw [hnode]
    exact ⟨hf.parent.free_fresh a h1, h2⟩

/-- `uvmcopy` gives the child a copy of its own of every page, or leaves the child's table without user
pages; the parent's map and memory are as before. It fails only if there are no more pages, so that at most
as many are left as the parent has. -/
theorem uvmcopy_isolates {sz : BitVec 64} (hn : (sz.toNat + 4095) / PGSIZE * PGSIZE ≤ MAXVA)
    (hf : Forking kend old new ((sz.toNat + 4095) / PGSIZE) s) :
    ∃ res s', uvmcopy kend old new sz s = .ok res s' ∧
      (res = 0 ∧ Forked old new ((sz.toNat + 4095) / PGSIZE) s s' ∨
        res = -1 ∧ s'.freelist.length ≤ (sz.toNat + 4095) / PGSIZE ∧ Undone new ((sz.toNat + 4095) / PGSIZE) s s') ∧
      (∀ v, leaf s'.ram old v = leaf s.ram old v) ∧
      ∀ v, v < (sz.toNat + 4095) / PGSIZE → userPage s'.ram old v = userPage s.ram old v := by
  obtain ⟨res, taken, s', hcopy, hcases⟩ := uvmcopy_spec hf hn rfl
  have hsame : ∀ k, Copying old new k s taken s' → (∀ v, leaf s'.ram old v = leaf s.ram old v) ∧
      ∀ v, v < (sz.toNat + 4095) / PGSIZE → userPage s'.ram old v = userPage s.ram old v := by
    intro k hc
    refine ⟨leaf_of_same (hc.parent_same hf), fun v hv => ?_⟩
    obtain ⟨e, hleaf, -, h1, -, h3⟩ := hf.mapped v hv
    rw [userPage, userPage, leaf_of_same (hc.parent_same hf), hleaf, Option.map_some, Option.map_some, hc.frame _ h3 h1]
  refine ⟨res, s', hcopy, ?_⟩
  rcases hcases with ⟨hres, hc⟩ | ⟨hres, hlen, hc⟩
  · have hap := hc.apart hf
    refine ⟨.inl ⟨hres, hc.copied, fun v w e e' hv hw => frames_inj (hc.frames_nodup hf) hv hw, hap.frames,
      fun l hl v hv => ⟨hap.invisible l hl hv, hap.symm.invisible l (fun x hx => ⟨(hl x hx).1.symm, (hl x hx).2⟩)
      hv⟩⟩, hsame _ hc⟩
  · refine ⟨.inr ⟨hres, hlen, fun v hv => ?_, fun v hv => hc.leaves v hv (Nat.zero_le v), taken, hc.perm, hc.node⟩,
      hsame _ hc⟩
    have hM : MAXVA = 2 ^ 38 := rfl
    rw [hc.leaves v (by rw [PGSIZE_eq] at hn hv; omega) (Nat.zero_le v), hf.unmapped v hv]

theorem forking_blank : ∃ s, mappages 0x80000000 0 4096 0x80008000 0x1E blank = .ok 0 s ∧
    Forking 0x80000000 0x80000000 0x80001000 1 s := by
  obtain ⟨s, hmap, ht, hleaves, hnode, hsub, hram⟩ := onePage_blank
  have hchild := hram 0x80001000 (by decide) (by decide)
  have hnew : ∀ a, Node s.ram 0x80001000 a ↔ a = 0x80001000 := node_empty hchild
  refine ⟨s, hmap, ht, ⟨wellFormed_empty rfl hchild, ht.nodup, ht.free_aligned, ?_⟩, ?_, ?_, ?_, fun v _ =>
    leaf_empty hchild v⟩
  · intro a ha hn
    rw [hnew] at hn
    rw [hn] at ha
    exact absurd (hsub _ ha) (by decide)
  · intro a ha
    have hmem := hsub a ha
    simp only [blank, List.mem_cons, List.not_mem_nil, or_false] at hmem
    rcases hmem with rfl | rfl | rfl | rfl | rfl | rfl <;> exact ⟨by decide, by decide⟩
  · intro a ha hn
    rw [hnew] at hn
    rw [hn] at ha
    exact (hnode _ ha).elim (by decide) (by decide)
  · intro v hv
    obtain rfl : v = 0 := by omega
    have hpage : pte2pa (pageEntry 0x80008000 0x1E 0) = 0x80008000 := by decide
    refine ⟨pageEntry 0x80008000 0x1E 0, hleaves 0 (by decide), by decide, ?_, ?_, ?_⟩
    · rw [hpage]
      exact fun h => absurd (hsub _ h) (by decide)
    · rw [hpage]
      exact fun hn => (hnode _ hn).elim (by decide) (by decide)
    · rw [hpage, hnew]
      decide

theorem uvmcopy_isolates_blank : ∃ s, Forking 0x80000000 0x80000000 0x80001000 1 s ∧
    ∃ s', uvmcopy 0x80000000 0x80000000 0x80001000 4096 s = .ok 0 s' ∧ Forked 0x80000000 0x80001000 1 s s' ∧
      (∀ v, leaf s'.ram 0x80000000 v = leaf s.ram 0x80000000 v) ∧
      ∀ v, v < 1 → userPage s'.ram 0x80000000 v = userPage s.ram 0x80000000 v := by
  obtain ⟨s, hmap, t, heval⟩ : ∃ s, mappages 0x80000000 0 4096 0x80008000 0x1E blank = .ok 0 s ∧
      ∃ t, uvmcopy 0x80000000 0x80000000 0x80001000 4096 s = .ok 0 t := by decide +kernel
  obtain ⟨_, hmap', hs⟩ := forking_blank
  obtain ⟨-, rfl⟩ := EStateM.Result.ok.inj (hmap.symm.trans hmap')
  obtain ⟨res, s', hcopy, hcases, hparent⟩ := uvmcopy_isolates (by decide) (show Forking _ _ _
    (((4096 : BitVec 64).toNat + 4095) / PGSIZE) s from hs)
  obtain ⟨rfl, rfl⟩ := EStateM.Result.ok.inj (hcopy.symm.trans heval)
  obtain ⟨-, hforked⟩ := hcases.resolve_right fun h => by cases h.1
  exact ⟨s, hs, s', hcopy, hforked, hparent⟩

end Xv6.Vm

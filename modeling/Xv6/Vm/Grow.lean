import Xv6.Vm.Pages

/-!
# `uvmalloc` and `uvmdealloc`

A process grows and shrinks by whole pages at the end of its memory. A growth that fails is undone, except
that the table keeps the page-table pages it got on the way; a shrink back to the old size undoes a growth.
-/

namespace Xv6.Vm

open Function (update update_idem)
open Hoare (bind_of_ok)

def TRAMPOLINE : Nat := MAXVA - PGSIZE

def TRAPFRAME : Nat := TRAMPOLINE - PGSIZE

/-- The number of pages of a process of a given size. -/
def npages (sz : BitVec 64) : Nat := (sz.toNat + 4095) / PGSIZE

/-- A table that maps exactly the first `n` pages below the trapframe, each to a frame of its own. -/
structure Space (kend : Nat) (r : Pa) (n : Nat) (s : State) : Prop extends Table r s where
  free_ram : ∀ a ∈ s.freelist, kend ≤ a.toNat ∧ a.toNat < PHYSTOP
  mapped : ∀ v, v < n → ∃ e, leaf s.ram r v = some e ∧ e &&& (PTE_R ||| PTE_W ||| PTE_X) ≠ 0 ∧
    Frame kend s.ram r (pte2pa e) ∧
    pte2pa e ∉ s.freelist
  distinct : (frames s.ram r 0 n).Nodup
  unmapped : ∀ v, n ≤ v → v < TRAPFRAME / PGSIZE → leaf s.ram r v = none

variable {kend base k n v : Nat} {r mem : Pa} {a oldsz newsz : BitVec 64} {s₀ s s' : State}
    {taken rest : List Pa} {e : Pte}

/-! ## Sizes -/

theorem trapframe_eq : TRAPFRAME = 274877898752 := by decide

theorem toNat_pgroundup_npages (h : a.toNat < MAXVA) : (pgroundup a).toNat = npages a * PGSIZE := by
  have hM : MAXVA = 2 ^ 38 := rfl
  exact toNat_pgroundup (by omega)

theorem npages_of_mul (h : a.toNat = n * PGSIZE) : npages a = n := by
  rw [npages, h, PGSIZE_eq]
  omega

theorem lt_npages_iff (h : a.toNat = v * PGSIZE) : a < newsz ↔ v < npages newsz := by
  rw [BitVec.lt_def, npages, h, PGSIZE_eq]
  omega

theorem npages_mono (h : oldsz.toNat ≤ newsz.toNat) : npages oldsz ≤ npages newsz := by
  rw [npages, npages, PGSIZE_eq]
  omega

theorem npages_le_trapframe (h : newsz.toNat ≤ TRAPFRAME) : npages newsz ≤ TRAPFRAME / PGSIZE := by
  rw [trapframe_eq] at h ⊢
  rw [npages, PGSIZE_eq]
  omega

theorem toNat_int_npages {x : BitVec 64} (h : x.toNat < 2 ^ 31) : ((x.setWidth 32).signExtend 64).toNat = x.toNat := by
  have hlow : (x.setWidth 32).toNat = x.toNat := by
    rw [BitVec.toNat_setWidth]
    omega
  rw [BitVec.signExtend_eq_setWidth_of_msb_false, BitVec.toNat_setWidth, hlow]
  · omega
  · rw [BitVec.msb_eq_false_iff_two_mul_lt, hlow]
    omega

/-! ## `uvmdealloc` -/

theorem unmaps_refl : Unmaps r [] s s := ⟨rfl, fun _ _ => rfl, fun _ _ _ => rfl⟩

theorem uvmdealloc_spec (kend : Nat) (oldsz newsz : BitVec 64) (hw : WellFormed s.ram r)
    (hle : newsz.toNat ≤ oldsz.toNat) (hmax : oldsz.toNat < MAXVA)
    (hrem : ∀ v, npages newsz ≤ v → v < npages oldsz → Removable kend true s.ram r v) :
    ∃ s', uvmdealloc kend r oldsz newsz s = .ok newsz s' ∧
      Unmaps r (frames s.ram r (npages newsz) (npages oldsz - npages newsz)) s s' ∧
      Leaves s'.ram r (unmapRange (leaf s.ram r) (npages newsz) (npages oldsz - npages newsz)) := by
  have hM : MAXVA = 2 ^ 38 := rfl
  have hold := toNat_pgroundup_npages hmax
  have hnew := toNat_pgroundup_npages (Nat.lt_of_le_of_lt hle hmax)
  have hbound : npages oldsz ≤ 2 ^ 26 := by
    rw [npages, PGSIZE_eq]
    omega
  -- nothing to do if the sizes are equal, or end in the same page
  have hsame : npages oldsz ≤ npages newsz →
    Unmaps r (frames s.ram r (npages newsz) (npages oldsz - npages newsz)) s s ∧
      Leaves s.ram r (unmapRange (leaf s.ram r) (npages newsz) (npages oldsz - npages newsz)) := by
    intro h
    rw [Nat.sub_eq_zero_of_le h]
    exact ⟨unmaps_refl, fun v _ => by rw [unmapRange_zero]⟩
  by_cases heq : newsz ≥ oldsz
  · have hsz : newsz = oldsz := BitVec.eq_of_toNat_eq (Nat.le_antisymm hle heq)
    refine ⟨s, ?_, hsame (by rw [hsz])⟩
    rw [uvmdealloc, if_pos heq, hsz]
    rfl
  · rw [uvmdealloc, if_neg heq]
    by_cases hpages : pgroundup newsz < pgroundup oldsz
    · rw [if_pos hpages]
      rw [BitVec.lt_def, hold, hnew, PGSIZE_eq] at hpages
      have hnp : (((pgroundup oldsz - pgroundup newsz) / 4096).setWidth 32 |>.signExtend 64).toNat =
          npages oldsz - npages newsz := by
        have hdiv : ((pgroundup oldsz - pgroundup newsz) / 4096).toNat = npages oldsz - npages newsz := by
          rw [BitVec.toNat_udiv, toNat_4096, BitVec.toNat_sub, hold, hnew, PGSIZE_eq]
          omega
        rw [toNat_int_npages (by omega), hdiv]
      have hvpn : (pgroundup newsz).toNat / PGSIZE = npages newsz := by
        rw [hnew]
        exact Nat.mul_div_cancel _ (by decide)
      obtain ⟨s', hun, hu, hleaves⟩ := uvmunmap_spec kend true (pgroundup newsz)
        (((pgroundup oldsz - pgroundup newsz) / 4096).setWidth 32 |>.signExtend 64) hw
        (by rw [hnew]; exact Nat.mul_mod_left _ _) (by rw [hnp, hnew, PGSIZE_eq]; omega) fun j hj => by
          rw [hnp] at hj
          rw [hvpn]
          exact hrem _ (by omega) (by omega)
      rw [hvpn, hnp] at hleaves
      rw [if_pos rfl, hvpn, hnp] at hu
      exact ⟨s', by rw [bind_of_ok hun]; rfl, hu, hleaves⟩
    · rw [if_neg hpages]
      rw [BitVec.lt_def, hold, hnew, PGSIZE_eq] at hpages
      exact ⟨s, rfl, hsame (by omega)⟩

/-! ## `uvmalloc` -/

/-- A new page of user memory. -/
def ZeroPage (_ : Nat) (e : Pte) (pg : Bytes PGSIZE) : Prop :=
  pteFlags e = PTE_V ||| PTE_R ||| PTE_W ||| PTE_X ||| PTE_U ∧ pg = fun _ => 0

theorem ZeroPage.flags_ne {pg : Bytes PGSIZE} (h : ZeroPage v e pg) : pteFlags e ≠ PTE_V := by
  rw [h.1]
  decide

theorem ZeroPage.rwx {pg : Bytes PGSIZE} (h : ZeroPage v e pg) : e &&& (PTE_R ||| PTE_W ||| PTE_X) ≠ 0 := by
  have hmask : (0x3FF : Pte) &&& (PTE_R ||| PTE_W ||| PTE_X) = PTE_R ||| PTE_W ||| PTE_X := by decide
  rw [← hmask, ← BitVec.and_assoc]
  change pteFlags e &&& _ ≠ 0
  rw [h.1]
  decide

theorem zeroPage_pageEntry (v : Nat) (mem : Pa) :
    ZeroPage v (pageEntry mem ((PTE_W ||| PTE_X ||| PTE_R ||| PTE_U).setWidth 32) 0) fun _ => 0 := by
  refine ⟨?_, rfl⟩
  rw [pageEntry_zero, BitVec.or_assoc, pteFlags_pa2pte]
  decide

/-- What `uvmalloc` needs: the table without the pages that it adds, and a free list of pages of RAM. -/
structure Growing (kend : Nat) (r : Pa) (base m : Nat) (s₀ : State) : Prop extends Table r s₀ where
  free_ram : ∀ a ∈ s₀.freelist, kend ≤ a.toNat ∧ a.toNat < PHYSTOP
  unmapped : ∀ v, base ≤ v → v < m → leaf s₀.ram r v = none
  bound : m * PGSIZE ≤ MAXVA

theorem Growing.undo (hg : Growing kend r base n s₀) (h : Adding r ZeroPage base k s₀ taken s) (hk : base + k < n)
    (ha : a.toNat = (base + k) * PGSIZE) (hold : oldsz.toNat = base * PGSIZE) :
    ∃ s', uvmdealloc kend r a oldsz s = .ok oldsz s' ∧ Adding r ZeroPage base 0 s₀ taken s' := by
  have hb := hg.bound
  have hmul : (base + k) * PGSIZE < n * PGSIZE := Nat.mul_lt_mul_of_pos_right hk (by decide)
  obtain ⟨s', hde, hu, hleaves⟩ := uvmdealloc_spec kend a oldsz h.table.toWellFormed
    (by rw [ha, hold]; exact Nat.mul_le_mul_right _ (by omega)) (by omega) fun v h1 h2 => by
      rw [npages_of_mul hold] at h1
      rw [npages_of_mul ha] at h2
      obtain ⟨j, rfl⟩ : ∃ j, v = base + j := ⟨v - base, by omega⟩
      exact h.removable hg.toTable hg.free_ram (fun _ _ _ => ZeroPage.flags_ne) (by omega)
  rw [npages_of_mul hold, npages_of_mul ha, Nat.add_sub_cancel_left] at hu hleaves
  exact ⟨s', hde, h.undone hg.toTable (fun v h1 h2 => hg.unmapped v h1 (by omega)) hu hleaves⟩

theorem uvmallocLoop_spec (hg : Growing kend r base (npages newsz) s₀) (hold : oldsz.toNat = base * PGSIZE)
    (fuel : Nat) :
    ∀ k a s taken, npages newsz ≤ base + k + fuel → base + k ≤ max base (npages newsz) → a.toNat = (base + k) * PGSIZE →
      Adding r ZeroPage base k s₀ taken s →
    ∃ res taken' s', uvmallocLoop kend r oldsz newsz fuel a s = .ok res s' ∧
      (res = newsz ∧ Adding r ZeroPage base (npages newsz - base) s₀ taken' s' ∨
        res = 0 ∧ base < npages newsz ∧ s'.freelist.length ≤ npages newsz - base ∧
        Adding r ZeroPage base 0 s₀ taken' s') := by
  have hb := hg.bound
  have hM : MAXVA = 2 ^ 38 := rfl
  induction fuel with
  | zero =>
    intro k a s taken hfuel hk _ h
    obtain rfl : k = npages newsz - base := by omega
    exact ⟨newsz, taken, s, rfl, .inl ⟨rfl, h⟩⟩
  | succ fuel ih =>
    intro k a s taken hfuel hk ha h
    rw [uvmallocLoop]
    by_cases hlt : a < newsz
    · have hkn := (lt_npages_iff ha).mp hlt
      have hle : (base + k + 1) * PGSIZE ≤ MAXVA := Nat.le_trans (Nat.mul_le_mul_right _ hkn) hb
      have hkv : base + k < 512 ^ 3 := by rw [PGSIZE_eq] at hle; omega
      rw [if_pos hlt]
      cases hfree : s.freelist with
      | nil =>
        have hk0 : kalloc s = .ok none s := by rw [kalloc, hfree]
        obtain ⟨s1, hde, h1⟩ := hg.undo h hkn ha hold
        have hlen := h.length_free
        rw [hfree, h1.length_free, List.length_nil] at hlen
        refine ⟨0, taken, s1, ?_, .inr ⟨rfl, by omega, by omega, h1⟩⟩
        rw [bind_of_ok hk0]
        change (uvmdealloc kend r a oldsz >>= _) s = _
        rw [bind_of_ok hde]
        rfl
      | cons mem rest =>
        have hmem : mem ∈ s.freelist := by rw [hfree]; exact List.mem_cons_self
        have hk0 : kalloc s = .ok (some mem) ⟨update s.ram mem fun _ => 5, rest⟩ := by rw [kalloc, hfree]
        have hset : memset mem 0 ⟨update s.ram mem fun _ => 5, rest⟩ = .ok () ⟨update s.ram mem fun _ => 0, rest⟩ := by
          rw [memset, update_idem]
        have hnone : leaf s.ram r (base + k) = none := by
          rw [h.leaves _ hkv (.inr (Nat.le_refl _)), hg.unmapped _ (by omega) hkn]
        obtain ⟨res, taken', s1, hmap, hplaced⟩ := Adding.place h.table hle ha hnone hfree
          ((PTE_W ||| PTE_X ||| PTE_R ||| PTE_U).setWidth 32) fun _ => 0
        rw [bind_of_ok hk0]
        change ∃ res' taken'' s', (memset mem 0 >>= _) _ = .ok res' s' ∧ _
        rw [bind_of_ok hset, bind_of_ok hmap]
        rcases hplaced.result with ⟨rfl, -⟩ | ⟨rfl, -, hempty⟩
        · rw [if_neg (by decide)]
          have hnext := h.add hg.toTable hkv hmem (by decide) hplaced (zeroPage_pageEntry _ _)
          refine ih (k + 1) (a + 4096) s1 (taken ++ taken') (by omega) (by omega) ?_ hnext
          rw [toNat_next_page (by rw [ha]; rw [PGSIZE_eq] at hle ⊢; omega), ha, ← Nat.add_assoc,
            Nat.add_mul (base + k), Nat.one_mul]
        · rw [if_pos (by decide)]
          obtain ⟨s2, hkf, h2⟩ := h.drop hg.toTable hmem hkv
            (hg.free_ram mem (h.mem_free (List.mem_append_right _ hmem))) hplaced
          obtain ⟨s3, hde, h3⟩ := hg.undo h2 hkn ha hold
          have hlen := h.length_free
          rw [hplaced.freelist.length_eq, h3.length_free, hempty] at hlen
          simp only [List.length_append, List.length_cons, List.length_nil] at hlen
          refine ⟨0, taken ++ taken', s3, ?_, .inr ⟨rfl, by omega, by omega, h3⟩⟩
          rw [bind_of_ok hkf, bind_of_ok hde]
          rfl
    · obtain rfl : k = npages newsz - base := by
        rw [lt_npages_iff ha] at hlt
        omega
      exact ⟨newsz, taken, s, by rw [if_neg hlt]; rfl, .inl ⟨rfl, h⟩⟩

theorem uvmalloc_spec (hg : Growing kend r (npages oldsz) (npages newsz) s) (hle : oldsz.toNat ≤ newsz.toNat)
    (hmax : newsz.toNat < MAXVA) :
    ∃ res taken s', uvmalloc kend r oldsz newsz s = .ok res s' ∧
      (res = newsz ∧ Adding r ZeroPage (npages oldsz) (npages newsz - npages oldsz) s taken s' ∨
        res = 0 ∧ npages oldsz < npages newsz ∧ s'.freelist.length ≤ npages newsz - npages oldsz ∧
          Adding r ZeroPage (npages oldsz) 0 s taken s') := by
  have hM : MAXVA = 2 ^ 38 := rfl
  have hround := toNat_pgroundup_npages (Nat.lt_of_le_of_lt hle hmax)
  rw [uvmalloc, if_neg (by rw [BitVec.lt_def]; omega)]
  refine uvmallocLoop_spec hg hround _ 0 _ s [] ?_ (by omega) (by rw [hround, Nat.add_zero]) (.start hg.toTable)
  have hbound : npages newsz ≤ 2 ^ 26 := by
    rw [npages, PGSIZE_eq]
    omega
  rw [PGSIZE_eq]
  omega

/-! ## Growing and shrinking a process -/

namespace Space

theorem lt_of_le_trapframe (h : v < TRAPFRAME / PGSIZE) : v < 512 ^ 3 := by
  rw [trapframe_eq, PGSIZE_eq] at h
  omega

theorem growing {m : Nat} (h : Space kend r n s) (hm : m ≤ TRAPFRAME / PGSIZE) : Growing kend r n m s where
  toTable := h.toTable
  free_ram := h.free_ram
  unmapped v h1 h2 := h.unmapped v h1 (by omega)
  bound := by
    rw [trapframe_eq, PGSIZE_eq] at hm
    rw [PGSIZE_eq, show MAXVA = 2 ^ 38 from rfl]
    omega

theorem removable (h : Space kend r n s) (hv : v < n) : Removable kend true s.ram r v := by
  obtain ⟨e, he, hrwx, hframe, -⟩ := h.mapped v hv
  exact ⟨e, he, pteFlags_ne_V hrwx rfl, fun _ => hframe⟩

theorem old_frame (h : Space kend r n s₀) (hadd : Adding r ZeroPage n k s₀ taken s) (hn : n ≤ TRAPFRAME / PGSIZE)
    (hv : v < n)
    (he : leaf s₀.ram r v = some e) : leaf s.ram r v = some e ∧ s.ram (pte2pa e) = s₀.ram (pte2pa e) ∧
    ¬ Node s.ram r (pte2pa e) ∧ pte2pa e ∉ s₀.freelist := by
  obtain ⟨e', he', -, hframe, hfree⟩ := h.mapped v hv
  obtain rfl := Option.some.inj (he.symm.trans he')
  refine ⟨by rw [hadd.leaves v (lt_of_le_trapframe (by omega)) (.inl hv), he],
    hadd.frame _ hframe.other hfree, fun hn => ?_, hfree⟩
  rcases (hadd.node _).mp hn with hold | htaken
  · exact hframe.other hold
  · exact hfree (hadd.mem_free (List.mem_append_left _ htaken))

theorem grow (h : Space kend r n s₀) (hadd : Adding r ZeroPage n k s₀ taken s) (hk : n + k ≤ TRAPFRAME / PGSIZE) :
    Space kend r (n + k) s where
  toTable := hadd.table
  free_ram a ha := h.free_ram a (hadd.mem_free (List.mem_append_right _ ha))
  mapped v hv := by
    by_cases hvn : v < n
    · obtain ⟨e, he, hrwx, hframe, hfree⟩ := h.mapped v hvn
      obtain ⟨he', -, hn, hf⟩ := h.old_frame hadd (by omega) hvn he
      exact ⟨e, he', hrwx, ⟨hframe.above, hframe.below, hn⟩, fun hin =>
        hf (hadd.mem_free (List.mem_append_right _ hin))⟩
    · obtain ⟨e, he, hP⟩ := hadd.added v (by omega) hv
      obtain ⟨j, rfl⟩ : ∃ j, v = n + j := ⟨v - n, by omega⟩
      have hmem := mem_frames (k := k) (by omega) he
      obtain ⟨h1, h2⟩ := h.free_ram _ (hadd.frame_mem hmem)
      obtain ⟨h3, h4⟩ := hadd.frame_other h.toTable hmem
      exact ⟨e, he, hP.rwx, ⟨h1, h2, h3⟩, h4⟩
  distinct := by
    have hold : frames s.ram r 0 n = frames s₀.ram r 0 n := frames_congr fun j hj => by
      rw [Nat.zero_add, hadd.leaves j (lt_of_le_trapframe (by omega)) (.inl hj)]
    have hsplit : frames s.ram r 0 (n + k) = frames s₀.ram r 0 n ++ frames s.ram r n k := by
      rw [← hold, frames, frames, frames, ← List.map_append]
      have happ := List.range'_append_1 (s := 0) (m := n) (n := k)
      rw [Nat.zero_add] at happ
      rw [happ]
    rw [hsplit, List.nodup_append]
    refine ⟨h.distinct, (List.nodup_append.mp (hadd.nodup h.nodup)).1, fun a ha b hb hab => ?_⟩
    subst hab
    obtain ⟨w, hw, rfl⟩ := List.mem_map.mp ha
    obtain ⟨j, hj, rfl⟩ := List.mem_range'.mp hw
    obtain ⟨e, he, -, -, hfree⟩ := h.mapped (0 + 1 * j) (by omega)
    refine hfree ?_
    have hmem := hadd.frame_mem hb
    rwa [he] at hmem
  unmapped v h1 h2 := by
    rw [hadd.leaves v (lt_of_le_trapframe h2) (.inr h1)]
    exact h.unmapped v (by omega) h2

end Space

/-- The leaves and the old pages are as before, and only page-table pages are missing from the free list. -/
structure GrowthUndone (r : Pa) (n : Nat) (s s' : State) : Prop where
  leaves : Leaves s'.ram r (leaf s.ram r)
  pages : ∀ v, v < n → ∃ e, leaf s.ram r v = some e ∧ s'.ram (pte2pa e) = s.ram (pte2pa e)
  freelist : ∃ taken, s.freelist.Perm (taken ++ s'.freelist) ∧ ∀ a, Node s'.ram r a ↔ Node s.ram r a ∨ a ∈ taken

/-- The pages from `n` to `m` are new and zero, the others as before. -/
structure Grown (r : Pa) (n m : Nat) (s s' : State) : Prop where
  leaves : ∀ v, v < 512 ^ 3 → v < n ∨ m ≤ v → leaf s'.ram r v = leaf s.ram r v
  pages : ∀ v, v < n → ∃ e, leaf s.ram r v = some e ∧ s'.ram (pte2pa e) = s.ram (pte2pa e)
  added : ∀ v, n ≤ v → v < m → ∃ e, leaf s'.ram r v = some e ∧ pte2pa e ∈ s.freelist ∧ ZeroPage v e (s'.ram (pte2pa e))

theorem Space.pages (h : Space kend r n s) (hadd : Adding r ZeroPage n k s taken s') (hn : n ≤ TRAPFRAME / PGSIZE) :
    ∀ v, v < n → ∃ e, leaf s.ram r v = some e ∧ s'.ram (pte2pa e) = s.ram (pte2pa e) := by
  intro v hv
  obtain ⟨e, he, -⟩ := h.mapped v hv
  exact ⟨e, he, (h.old_frame hadd hn hv he).2.1⟩

theorem Space.grown (h : Space kend r n s) (hadd : Adding r ZeroPage n k s taken s') (hn : n ≤ TRAPFRAME / PGSIZE) :
    Grown r n (n + k) s s' where
  leaves := hadd.leaves
  pages := h.pages hadd hn
  added v h1 h2 := by
    obtain ⟨e, he, hP⟩ := hadd.added v h1 h2
    obtain ⟨j, rfl⟩ : ∃ j, v = n + j := ⟨v - n, by omega⟩
    exact ⟨e, he, hadd.frame_mem (mem_frames (by omega) he), hP⟩

/-- A growth fails only if there are no more pages, so that at most as many are left as it needs; then it is
undone. One that succeeds adds zeroed pages, and `uvmdealloc` back to the old size gives exactly their
frames back and leaves the original map. -/
theorem uvmalloc_undone (hs : Space kend r (npages oldsz) s) (hle : oldsz.toNat ≤ newsz.toNat)
    (hmax : newsz.toNat < TRAPFRAME) :
    ∃ res s', uvmalloc kend r oldsz newsz s = .ok res s' ∧
      (res = 0 ∧ 0 < newsz.toNat ∧ s'.freelist.length ≤ npages newsz - npages oldsz ∧
      GrowthUndone r (npages oldsz) s s' ∨
        res = newsz ∧ Grown r (npages oldsz) (npages newsz) s s' ∧
          ∃ s'', uvmdealloc kend r newsz oldsz s' = .ok oldsz s'' ∧ Leaves s''.ram r (leaf s.ram r) ∧
            s''.freelist = (frames s'.ram r (npages oldsz) (npages newsz - npages oldsz)).reverse ++ s'.freelist) := by
  have hM : TRAPFRAME < MAXVA := by decide
  have hnew := npages_le_trapframe (Nat.le_of_lt hmax)
  have hmono := npages_mono hle
  obtain ⟨res, taken, s', halloc, hcases⟩ := uvmalloc_spec (hs.growing hnew) hle (by omega)
  refine ⟨res, s', halloc, ?_⟩
  rcases hcases with ⟨hres, hadd⟩ | ⟨hres, hlt, hlen, hadd⟩
  · have hspace := hs.grow hadd (by omega)
    have hgrown := hs.grown hadd (by omega)
    rw [Nat.add_sub_cancel' hmono] at hspace hgrown
    obtain ⟨s'', hde, hu, hleaves⟩ := uvmdealloc_spec kend newsz oldsz hspace.toWellFormed hle (by omega)
      fun v _ hv => hspace.removable hv
    have hback := hadd.undone hs.toTable (fun v h1 h2 => hs.unmapped v h1 (by omega)) hu hleaves
    exact .inr ⟨hres, hgrown, s'', hde, fun v hv => hback.leaves v hv (by omega), hu.freelist⟩
  · refine .inl ⟨hres, ?_, hlen, fun v hv => hadd.leaves v hv (by omega), hs.pages hadd (by omega), taken,
      hadd.perm, hadd.node⟩
    by_contra h0
    have hzero : npages newsz = 0 := by
      rw [npages, show newsz.toNat = 0 by omega]
      rfl
    omega

theorem space_onePage : ∃ s, mappages 0x80000000 0 4096 0x80008000 0x1E blank = .ok 0 s ∧
    Space 0x80000000 0x80000000 1 s := by
  obtain ⟨s, hmap, ht, hleaves, hnode, hsub, -⟩ := onePage_blank
  have hpage : pte2pa (pageEntry 0x80008000 0x1E 0) = 0x80008000 := by decide
  have hleaf : leaf s.ram 0x80000000 0 = some (pageEntry 0x80008000 0x1E 0) := hleaves 0 (by decide)
  refine ⟨s, hmap, ht, fun a ha => ?_, fun v hv => ?_, List.nodup_singleton _, fun v h1 h2 => ?_⟩
  · have hmem := hsub a ha
    simp only [blank, List.mem_cons, List.not_mem_nil, or_false] at hmem
    rcases hmem with rfl | rfl | rfl | rfl | rfl | rfl <;> exact ⟨by decide, by decide⟩
  · obtain rfl : v = 0 := by omega
    refine ⟨_, hleaf, by decide, ⟨by decide, by decide, fun hn => ?_⟩, fun hin => ?_⟩
    · rw [hpage] at hn
      exact (hnode _ hn).elim (by decide) (by decide)
    · rw [hpage] at hin
      exact absurd (hsub _ hin) (by decide)
  · rw [hleaves v (Space.lt_of_le_trapframe h2), mapRange, if_neg (by omega)]

theorem uvmalloc_undone_onePage : ∃ s, Space 0x80000000 0x80000000 1 s ∧
    ∃ s', uvmalloc 0x80000000 0x80000000 100 9000 s = .ok 9000 s' ∧ Grown 0x80000000 1 3 s s' ∧
      ∃ s'', uvmdealloc 0x80000000 0x80000000 9000 100 s' = .ok 100 s'' ∧
      Leaves s''.ram 0x80000000 (leaf s.ram 0x80000000) ∧
        s''.freelist = (frames s'.ram 0x80000000 1 2).reverse ++ s'.freelist := by
  obtain ⟨s, hmap, t, heval⟩ : ∃ s, mappages 0x80000000 0 4096 0x80008000 0x1E blank = .ok 0 s ∧
      ∃ t, uvmalloc 0x80000000 0x80000000 100 9000 s = .ok 9000 t := by decide +kernel
  obtain ⟨_, hmap', hs⟩ := space_onePage
  obtain ⟨-, rfl⟩ := EStateM.Result.ok.inj (hmap.symm.trans hmap')
  obtain ⟨res, s', halloc, hcases⟩ :=
  uvmalloc_undone hs (show (100 : BitVec 64).toNat ≤ (9000 : BitVec 64).toNat by decide) (by decide)
  obtain ⟨rfl, rfl⟩ := EStateM.Result.ok.inj (halloc.symm.trans heval)
  obtain ⟨-, hgrown⟩ := hcases.resolve_left fun h => by cases h.1
  exact ⟨s, hs, s', halloc, hgrown⟩

end Xv6.Vm

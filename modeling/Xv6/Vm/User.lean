import Xv6.Vm.Map

/-!
# Copies through a page table

`walkaddr` turns a page table into the user memory of `Vm.Copy`; `copyin` and `copyinstr` read that memory,
and `copyout` stores byte by byte into the frames it is made of.
-/

namespace Xv6.Vm

open Hoare (bind_of_ok)
open Function (update update_of_ne update_self update_idem update_eq_self)

variable {r : Pa} {s : State} {va len : BitVec 64} {ram : Ram}

/-! ## The user memory of a table -/

/-- The frame of a page that is mapped with `PTE_V` and `PTE_U`. -/
def userFrame (ram : Ram) (r : Pa) (v : Nat) : Option Pa :=
  if v * PGSIZE < MAXVA then (leaf ram r v).bind fun e => if e &&& PTE_U = 0 then none else some (pte2pa e) else none

/-- A table whose user pages are RAM, and not pages of the table. -/
structure UserTable (ram : Ram) (r : Pa) : Prop extends WellFormed ram r where
  frame_ne : ∀ v a, userFrame ram r v = some a → a ≠ 0
  frame_other : ∀ v a, userFrame ram r v = some a → ¬ Node ram r a

def userMem (ram : Ram) (r : Pa) : UserMem where
  page v := (userFrame ram r v).map ram
  above v hv := by rw [userFrame, if_neg (Nat.not_lt.mpr hv)]; rfl

theorem page_userMem (ram : Ram) (r : Pa) (v : Nat) :
    (userMem ram r).page v = (userFrame ram r v).map ram := rfl

theorem page_of_none {v : Nat} (h : userFrame ram r v = none) : (userMem ram r).page v = none := by
  rw [page_userMem, h, Option.map_none]

theorem page_of_some {v : Nat} {pa : Pa} (h : userFrame ram r v = some pa) :
    (userMem ram r).page v = some (ram pa) := by
  rw [page_userMem, h, Option.map_some]

theorem walkaddr_spec (r : Pa) (s : State) (va : BitVec 64) :
    walkaddr r va s = .ok ((userFrame s.ram r (va.toNat / PGSIZE)).getD 0) s := by
  rw [walkaddr, userFrame]
  by_cases hva : va.toNat ≥ MAXVA
  · rw [if_pos hva, if_neg]
    · rfl
    · have hM : MAXVA = 67108864 * 4096 := rfl
      rw [PGSIZE_eq]
      omega
  have hlt : va.toNat / PGSIZE * PGSIZE < MAXVA := Nat.lt_of_le_of_lt (Nat.div_mul_le_self _ _) (Nat.not_le.mp hva)
  rw [if_neg hva, if_pos hlt, bind_of_ok (walk_false r s (Nat.not_le.mp hva)), leaf, slot]
  cases lookup s.ram r (path (va.toNat / PGSIZE)) with
  | none => rfl
  | some p =>
    have hload : load p (ix 0 (va.toNat / PGSIZE)) s = .ok (entries s.ram p (ix 0 (va.toNat / PGSIZE))) s := rfl
    change (load p (ix 0 (va.toNat / PGSIZE)) >>= _) s = _
    rw [bind_of_ok hload, Option.bind_some]
    generalize entries s.ram p (ix 0 (va.toNat / PGSIZE)) = e
    by_cases hv : e &&& PTE_V = 0
    · rw [if_pos hv, present_of_invalid hv]
      rfl
    · rw [if_neg hv, present_of_valid hv, Option.bind_some]
      by_cases hu : e &&& PTE_U = 0
      · rw [if_pos hu, if_pos hu]
        rfl
      · rw [if_neg hu, if_neg hu]
        rfl

theorem walkaddr_cases (ht : UserTable s.ram r) (va : BitVec 64) :
    walkaddr r (pgrounddown va) s = .ok 0 s ∧ userFrame s.ram r (va.toNat / PGSIZE) = none ∨
    ∃ pa, walkaddr r (pgrounddown va) s = .ok pa s ∧ pa ≠ 0 ∧ userFrame s.ram r (va.toNat / PGSIZE) = some pa := by
  have hw := walkaddr_spec r s (pgrounddown va)
  rw [toNat_pgrounddown, Nat.mul_div_cancel _ (show 0 < PGSIZE by decide)] at hw
  cases hf : userFrame s.ram r (va.toNat / PGSIZE) with
  | none => exact .inl ⟨by rw [hw, hf]; rfl, rfl⟩
  | some pa => exact .inr ⟨pa, by rw [hw, hf]; rfl, ht.frame_ne _ _ hf, rfl⟩

/-! ## The loops' arithmetic -/

theorem toNat_offset (va : BitVec 64) : (va - pgrounddown va).toNat = va.toNat % PGSIZE := by
  have h := va.isLt
  rw [BitVec.toNat_sub, toNat_pgrounddown, PGSIZE_eq]
  omega

theorem toNat_chunk (va len : BitVec 64) : (chunk va len).toNat = min (PGSIZE - va.toNat % PGSIZE) len.toNat := by
  have hn : (4096 - (va - pgrounddown va)).toNat = PGSIZE - va.toNat % PGSIZE := by
    rw [BitVec.toNat_sub, toNat_offset, toNat_4096, PGSIZE_eq]
    omega
  rw [chunk]
  by_cases h : 4096 - (va - pgrounddown va) > len
  · rw [if_pos h]
    rw [gt_iff_lt, BitVec.lt_def, hn] at h
    omega
  · rw [if_neg h, hn]
    rw [gt_iff_lt, BitVec.lt_def, hn] at h
    omega

theorem toNat_nextPage (va : BitVec 64) :
    (pgrounddown va + 4096).toNat = (va.toNat / PGSIZE * PGSIZE + PGSIZE) % 2 ^ 64 := by
  rw [BitVec.toNat_add, toNat_pgrounddown, toNat_4096]

theorem toNat_left (va len : BitVec 64) :
    (len - chunk va len).toNat = len.toNat - min (PGSIZE - va.toNat % PGSIZE) len.toNat := by
  have h := len.isLt
  rw [BitVec.toNat_sub, toNat_chunk]
  omega

/-! ## `copyin` and `copyinstr` -/

/-- 0 or -1, as the functions report success. -/
def status (ok : Bool) : Int := if ok then 0 else -1

section Reads

variable {m : Nat}

theorem toNat_eq_zero_iff (x : BitVec 64) : x.toNat = 0 ↔ x = 0 :=
  ⟨fun h => BitVec.eq_of_toNat_eq h, fun h => by rw [h]; rfl⟩

theorem copyinLoop_refines (ht : UserTable s.ram r) (fuel : Nat) : ∀ (dst : Bytes m) (i : Nat) (srcva len : BitVec 64),
    copyinLoop r fuel dst i srcva len s =
      .ok (((userMem s.ram r).copyinLoop fuel dst i srcva.toNat len.toNat).map id status) s := by
  induction fuel with
  | zero => exact fun dst i srcva len => rfl
  | succ fuel ih =>
    intro dst i srcva len
    rw [copyinLoop, UserMem.copyinLoop]
    by_cases h0 : len = 0
    · rw [if_pos h0, if_pos ((toNat_eq_zero_iff len).mpr h0)]
      rfl
    rw [if_neg h0, if_neg fun h => h0 ((toNat_eq_zero_iff len).mp h)]
    obtain ⟨hw, hf⟩ | ⟨pa, hw, hpa, hf⟩ := walkaddr_cases ht srcva
    · rw [bind_of_ok hw, if_pos rfl]
      simp only [page_of_none hf]
      rfl
    · have hload : loadPage pa s = .ok (s.ram pa) s := rfl
      rw [bind_of_ok hw, if_neg hpa]
      change (loadPage pa >>= _) s = _
      rw [bind_of_ok hload, ih, toNat_offset, toNat_chunk, toNat_nextPage, toNat_left]
      simp only [page_of_some hf]

theorem copyinstrLoop_refines (ht : UserTable s.ram r) (fuel : Nat) :
    ∀ (dst : Bytes m) (i : Nat) (srcva max : BitVec 64),
    copyinstrLoop r fuel dst i srcva max s =
      .ok (((userMem s.ram r).copyinstrLoop fuel dst i srcva.toNat max.toNat).map id status) s := by
  induction fuel with
  | zero =>
    intro dst i srcva max
    rw [copyinstrLoop, UserMem.copyinstrLoop]
    rfl
  | succ fuel ih =>
    intro dst i srcva max
    rw [copyinstrLoop, UserMem.copyinstrLoop]
    by_cases h0 : max = 0
    · rw [if_pos h0, if_pos ((toNat_eq_zero_iff max).mpr h0)]
      rfl
    rw [if_neg h0, if_neg fun h => h0 ((toNat_eq_zero_iff max).mp h)]
    obtain ⟨hw, hf⟩ | ⟨pa, hw, hpa, hf⟩ := walkaddr_cases ht srcva
    · rw [bind_of_ok hw, if_pos rfl]
      simp only [page_of_none hf]
      rfl
    · have hload : loadPage pa s = .ok (s.ram pa) s := rfl
      rw [bind_of_ok hw, if_neg hpa, bind_of_ok hload, toNat_chunk, toNat_offset]
      simp only [page_of_some hf]
      obtain ⟨j, hj, -, ⟨-, -, heq⟩ | ⟨-, heq⟩⟩ := UserMem.copystr_spec (s.ram pa)
        (min (PGSIZE - srcva.toNat % PGSIZE) max.toNat) dst i (srcva.toNat % PGSIZE) max.toNat
      · simp only [heq]
        rfl
      · have hmax : (max.toNat - j) % 2 ^ 64 = max.toNat - j := Nat.mod_eq_of_lt (by have := max.isLt; omega)
        simp only [heq]
        rw [if_neg (by decide), ih, toNat_nextPage, BitVec.toNat_ofNat, hmax]

end Reads

/-! ## `copyout` -/

/-- The memory after the first `j` bytes of `src` were stored one by one at virtual address `a` on. -/
def writeBytes (ram : Ram) (r : Pa) (a : Nat) (src : Nat → BitVec 8) : Nat → Pa → Bytes PGSIZE
  | 0 => ram
  | j + 1 =>
    let ram' := writeBytes ram r a src j
    match userFrame ram r ((a + j) / PGSIZE) with
    | none => ram'
    | some p => update ram' p ((ram' p).set ((a + j) % PGSIZE) (src j))

variable {a j k : Nat} {p : Pa} {src : Nat → BitVec 8}

theorem writeBytes_succ (hf : userFrame ram r ((a + j) / PGSIZE) = some p) : writeBytes ram r a src (j + 1) =
    update (writeBytes ram r a src j) p ((writeBytes ram r a src j p).set ((a + j) % PGSIZE) (src j)) := by
  rw [writeBytes]
  simp only [hf]

theorem writeBytes_add (hf : userFrame ram r ((a + j) / PGSIZE) = some p)
    (hpage : ∀ i, i < k → (a + j + i) / PGSIZE = (a + j) / PGSIZE ∧ (a + j + i) % PGSIZE = (a + j) % PGSIZE + i) :
    writeBytes ram r a src (j + k) = update (writeBytes ram r a src j) p
      ((writeBytes ram r a src j p).store ((a + j) % PGSIZE) (fun i => src (j + i)) k) := by
  induction k with
  | zero => rw [Nat.add_zero, Bytes.store_zero, update_eq_self]
  | succ k ih =>
    obtain ⟨hdiv, hmod⟩ := hpage k (Nat.lt_succ_self k)
    rw [Nat.add_assoc] at hdiv hmod
    rw [← Nat.add_assoc, writeBytes_succ (by rw [hdiv, hf]), ih fun i hi => hpage i (by omega), update_self,
      update_idem, hmod, ← Bytes.store_store]
    refine congrArg _ (Bytes.store_congr _ fun i hi => ?_)
    rw [show i = 0 by omega, Nat.add_zero]

theorem writeBytes_of_ne {o : Nat} (h : (writeBytes ram r a src j p).get o ≠ (ram p).get o) :
    ∃ i, i < j ∧ userFrame ram r ((a + i) / PGSIZE) = some p ∧ (a + i) % PGSIZE = o := by
  induction j with
  | zero => exact absurd rfl h
  | succ j ih =>
    by_cases hold : (writeBytes ram r a src j p).get o = (ram p).get o
    · cases hf : userFrame ram r ((a + j) / PGSIZE) with
      | none =>
        rw [writeBytes] at h
        simp only [hf] at h
        exact absurd hold h
      | some q =>
        rw [writeBytes_succ hf] at h
        by_cases hp : p = q
        · subst hp
          refine ⟨j, Nat.lt_succ_self j, hf, ?_⟩
          by_contra ho
          rw [update_self, Bytes.get_set, if_neg fun hc => ho hc.1.symm] at h
          exact h hold
        · rw [update_of_ne hp] at h
          exact absurd hold h
    · obtain ⟨i, hi, h'⟩ := ih hold
      exact ⟨i, by omega, h'⟩

theorem writeBytes_get {i : Nat} (hi : i < j) (hf : userFrame ram r ((a + i) / PGSIZE) = some p)
    (hlast : ∀ i', i < i' → i' < j → ¬ (userFrame ram r ((a + i') / PGSIZE) = some p ∧ (a + i') % PGSIZE =
    (a + i) % PGSIZE)) :
    (writeBytes ram r a src j p).get ((a + i) % PGSIZE) = src i := by
  induction j with
  | zero => omega
  | succ j ih =>
    by_cases hij : i = j
    · subst hij
      rw [writeBytes_succ hf, update_self, Bytes.get_set, if_pos ⟨rfl, Nat.mod_lt _ (by decide)⟩]
    · have hprev := ih (by omega) fun i' h1 h2 => hlast i' h1 (by omega)
      have hnot := hlast j (by omega) (Nat.lt_succ_self j)
      cases hf' : userFrame ram r ((a + j) / PGSIZE) with
      | none =>
        rw [writeBytes]
        simp only [hf']
        exact hprev
      | some q =>
        rw [writeBytes_succ hf']
        by_cases hp : p = q
        · subst hp
          rw [update_self, Bytes.get_set, if_neg fun hc => hnot ⟨hf', hc.1.symm⟩, hprev]
        · rw [update_of_ne hp, hprev]

theorem writeBytes_node (ht : UserTable ram r) (hp : Node ram r p) (j : Nat) : writeBytes ram r a src j p = ram p := by
  refine Bytes.ext_get fun o _ => ?_
  by_contra h
  obtain ⟨i, -, hf, -⟩ := writeBytes_of_ne h
  exact ht.frame_other _ _ hf hp

theorem userFrame_writeBytes (ht : UserTable ram r) (j v : Nat) :
    userFrame (writeBytes ram r a src j) r v = userFrame ram r v := by
  rw [userFrame, userFrame, leaf_of_same fun p hp => writeBytes_node ht hp j]

theorem UserTable.writeBytes (ht : UserTable ram r) (j : Nat) : UserTable (writeBytes ram r a src j) r where
  toWellFormed := ht.toWellFormed.congr fun p hp => lookup_of_same (fun q hq => writeBytes_node ht hq j) hp
  frame_ne v b hb := ht.frame_ne v b (by rwa [userFrame_writeBytes ht] at hb)
  frame_other v b hb hn := by
    rw [userFrame_writeBytes ht] at hb
    exact ht.frame_other v b hb
      ((node_of_same fun p hp => lookup_of_same (fun q hq => writeBytes_node ht hq j) hp).mp hn)

theorem copyoutLoop_spec (ht : UserTable ram r) (a : Nat) (src : Nat → BitVec 8) (fuel : Nat) :
    ∀ (i : Nat) (dstva len : BitVec 64) (s : State), s.ram = Vm.writeBytes ram r a src i → len.toNat ≤ fuel →
    (0 < len.toNat → dstva.toNat = a + i) → ∃ j, (userMem ram r).Reaches (a + i) len.toNat j ∧
      copyoutLoop r src fuel i dstva len s =
        .ok (status (decide (j = len.toNat))) ⟨Vm.writeBytes ram r a src (i + j), s.freelist⟩ := by
  induction fuel with
  | zero =>
    intro i dstva len s hs hlen _
    rw [Nat.le_zero.mp hlen]
    exact ⟨0, .zero, by rw [copyoutLoop, Nat.add_zero, ← hs]; rfl⟩
  | succ fuel ih =>
    intro i dstva len s hs hlen hva
    rw [copyoutLoop]
    by_cases h0 : len = 0
    · subst h0
      exact ⟨0, .zero, by rw [if_pos rfl, Nat.add_zero, ← hs]; rfl⟩
    have hne : len.toNat ≠ 0 := fun h => h0 ((toNat_eq_zero_iff len).mp h)
    obtain hva := hva (Nat.pos_of_ne_zero hne)
    rw [if_neg h0]
    change ∃ j, _ ∧ (walkaddr r (pgrounddown dstva) >>= _) s = _
    have hts : UserTable s.ram r := hs ▸ ht.writeBytes i
    obtain ⟨hw, hf⟩ | ⟨pa, hw, hpa, hf⟩ := walkaddr_cases hts dstva
    · rw [hs, userFrame_writeBytes ht, hva] at hf
      refine ⟨0, .unmapped (page_of_none hf), ?_⟩
      rw [bind_of_ok hw, if_pos rfl, decide_eq_false (Ne.symm hne), Nat.add_zero, ← hs]
      rfl
    · rw [hs, userFrame_writeBytes ht, hva] at hf
      obtain ⟨k, hk⟩ : ∃ k, k = min (PGSIZE - (a + i) % PGSIZE) len.toNat := ⟨_, rfl⟩
      have hpage := page_of_some hf
      have hpos := UserMem.chunk_pos hk hne
      have hchunk : (chunk dstva len).toNat = k := by rw [toNat_chunk, hva, hk]
      have hstore : storeBytes pa (dstva - pgrounddown dstva).toNat (fun j => src (i + j)) (chunk dstva len).toNat s =
          .ok () ⟨Vm.writeBytes ram r a src (i + k), s.freelist⟩ := by
        rw [writeBytes_add hf fun i' hi' => UserMem.page_offset hk hi', ← hs, hchunk, toNat_offset, hva]
        rfl
      have hleft : (len - chunk dstva len).toNat = len.toNat - k := by rw [toNat_left, hva, hk]
      obtain ⟨j, hr, hj⟩ := ih (i + k) (pgrounddown dstva + 4096) (len - chunk dstva len)
        ⟨Vm.writeBytes ram r a src (i + k), s.freelist⟩ rfl (by omega) fun hl => by
          rw [toNat_nextPage, hva, UserMem.next_page hk (UserMem.lt_of_page hpage) (by omega), Nat.add_assoc]
      rw [hleft, ← Nat.add_assoc] at hr
      refine ⟨k + j, hr.add hpage hk, ?_⟩
      rw [bind_of_ok hw, if_neg hpa]
      rw [bind_of_ok hstore, hchunk, hj, hleft, Nat.add_assoc,
        decide_eq_decide.mpr (show j = len.toNat - k ↔ k + j = len.toNat by omega)]

/-! ## Exactness and confinement -/

/-- The page of an address is mapped with `PTE_V` and `PTE_U`. -/
def UserMapped (ram : Ram) (r : Pa) (a : Nat) : Prop :=
  a < MAXVA ∧ ∃ e, leaf ram r (a / PGSIZE) = some e ∧ e &&& PTE_U ≠ 0

/-- Two virtual addresses are of the same byte of RAM. -/
def SamePlace (ram : Ram) (r : Pa) (a b : Nat) : Prop :=
  userFrame ram r (a / PGSIZE) = userFrame ram r (b / PGSIZE) ∧ a % PGSIZE = b % PGSIZE

/-- The byte at a virtual address. -/
def userByte (ram : Ram) (r : Pa) (a : Nat) : BitVec 8 := ((userMem ram r).byte a).getD 0

theorem byte_ne_none_iff (ram : Ram) (r : Pa) (a : Nat) : (userMem ram r).byte a ≠ none ↔ UserMapped ram r a := by
  have hP : PGSIZE = 4096 := rfl
  have hM : MAXVA = 67108864 * 4096 := rfl
  have hlt : a / PGSIZE * PGSIZE < MAXVA ↔ a < MAXVA := by rw [hP]; omega
  rw [UserMem.byte, page_userMem, userFrame, UserMapped, ← hlt]
  by_cases h : a / PGSIZE * PGSIZE < MAXVA
  · rw [if_pos h]
    cases hl : leaf ram r (a / PGSIZE) with
    | none => simp
    | some e =>
      by_cases hu : e &&& PTE_U = 0
      · simp [hu]
      · simp [h]
  · simp [h]

theorem Reaches.all_iff {m : UserMem} {len : Nat} (h : m.Reaches a len j) :
    j = len ↔ ∀ k, k < len → m.byte (a + k) ≠ none :=
  ⟨fun he k hk => h.mapped k (by omega), h.eq⟩

theorem status_eq_zero_iff (ok : Bool) : status ok = 0 ↔ ok = true := by cases ok <;> decide

theorem status_cases (ok : Bool) : status ok = 0 ∨ status ok = -1 := by cases ok <;> decide

theorem StringAt.no_nul {m : UserMem} {max : Nat} (h : m.StringAt a max j) (hstop : j < max → m.byte (a + j) = none) :
    ¬ ∃ i, i < max ∧ (∀ k, k ≤ i → m.byte (a + k) ≠ none) ∧ (m.byte (a + i)).getD 0 = 0 := by
  rintro ⟨i, hi, hmapped, hz⟩
  by_cases hij : i < j
  · obtain ⟨b, hb, hne⟩ := h.bytes i hij
    rw [hb] at hz
    exact hne hz
  · exact hmapped j (by omega) (hstop (by omega))

/-- `copyin`, `copyout` and `copyinstr` succeed exactly if the pages they need are mapped for the user; they
transfer just the bytes asked for, and `copyout` stores nowhere else. -/
theorem user_copies_exact (ht : UserTable s.ram r) :
    (∀ (m : Nat) (dst : Bytes m) (i : Nat) (srcva len : BitVec 64), ∃ dst' res, copyin r dst i srcva len s =
    .ok (dst', res) s ∧
      (res = 0 ∨ res = -1) ∧ (res = 0 ↔ ∀ k, k < len.toNat → UserMapped s.ram r (srcva.toNat + k)) ∧
      (res = 0 → dst' = dst.store i (fun k => userByte s.ram r (srcva.toNat + k)) len.toNat)) ∧
    (∀ (src : Nat → BitVec 8) (dstva len : BitVec 64), ∃ ram' res, copyout r dstva src len s =
    .ok res ⟨ram', s.freelist⟩ ∧
      (res = 0 ∨ res = -1) ∧ (res = 0 ↔ ∀ k, k < len.toNat → UserMapped s.ram r (dstva.toNat + k)) ∧
      (res = 0 → ram' = writeBytes s.ram r dstva.toNat src len.toNat ∧ ∀ k, k < len.toNat →
        (∀ k', k < k' → k' < len.toNat → ¬ SamePlace s.ram r (dstva.toNat + k') (dstva.toNat + k)) →
          userByte ram' r (dstva.toNat + k) = src k) ∧
      ∀ p o, (ram' p).get o ≠ (s.ram p).get o → ∃ k, k < len.toNat ∧
      userFrame s.ram r ((dstva.toNat + k) / PGSIZE) = some p ∧
        (dstva.toNat + k) % PGSIZE = o) ∧
    ∀ (m : Nat) (dst : Bytes m) (i : Nat) (srcva max : BitVec 64), ∃ dst' res l, copyinstr r dst i srcva max s =
    .ok (dst', res) s ∧
      (res = 0 ∨ res = -1) ∧
      (res = 0 ↔ ∃ k, k < max.toNat ∧ (∀ k', k' ≤ k → UserMapped s.ram r (srcva.toNat + k')) ∧
        userByte s.ram r (srcva.toNat + k) = 0) ∧
      dst' = dst.store i (fun k => userByte s.ram r (srcva.toNat + k)) l ∧ l ≤ max.toNat ∧
      (res = 0 → 0 < l ∧ userByte s.ram r (srcva.toNat + (l - 1)) = 0 ∧
        ∀ k, k < l - 1 → userByte s.ram r (srcva.toNat + k) ≠ 0) := by
  refine ⟨fun m dst i srcva len => ?_, fun src dstva len => ?_, fun m dst i srcva max => ?_⟩
  · obtain ⟨j, hr, hj⟩ := (userMem s.ram r).copyin_spec dst i srcva.toNat len.toNat
    have hcopy := copyinLoop_refines ht len.toNat dst i srcva len
    rw [show (userMem s.ram r).copyinLoop len.toNat dst i srcva.toNat len.toNat = _ from hj] at hcopy
    refine ⟨_, _, hcopy, status_cases _, ?_, fun h0 => ?_⟩
    · rw [status_eq_zero_iff, decide_eq_true_iff, Reaches.all_iff hr]
      exact forall₂_congr fun k _ => byte_ne_none_iff ..
    · rw [status_eq_zero_iff, decide_eq_true_iff] at h0
      rw [h0]
      rfl
  · obtain ⟨j, hr, hj⟩ := copyoutLoop_spec ht dstva.toNat src len.toNat 0 dstva len s rfl (Nat.le_refl _) fun _ => rfl
    rw [Nat.zero_add] at hj
    rw [Nat.add_zero] at hr
    refine ⟨_, _, hj, status_cases _, ?_, fun h0 => ?_, fun p o hne => ?_⟩
    · rw [status_eq_zero_iff, decide_eq_true_iff, Reaches.all_iff hr]
      exact forall₂_congr fun k _ => byte_ne_none_iff ..
    · rw [status_eq_zero_iff, decide_eq_true_iff] at h0
      rw [h0]
      refine ⟨rfl, fun k hk hlast => ?_⟩
      obtain ⟨p, hp⟩ : ∃ p, userFrame s.ram r ((dstva.toNat + k) / PGSIZE) = some p :=
        Option.ne_none_iff_exists'.mp fun hn => hr.mapped k (by omega) (by rw [UserMem.byte, page_userMem, hn]; rfl)
      rw [userByte, UserMem.byte, page_userMem, userFrame_writeBytes ht, hp]
      exact writeBytes_get hk hp fun k' h1 h2 hc => hlast k' h1 h2 ⟨hc.1.trans hp.symm, hc.2⟩
    · obtain ⟨k, hk, h⟩ := writeBytes_of_ne hne
      exact ⟨k, Nat.lt_of_lt_of_le hk hr.le, h⟩
  · obtain ⟨j, hstr, hcases⟩ := (userMem s.ram r).copyinstrLoop_spec max.toNat dst i srcva.toNat srcva.toNat max.toNat
      (Nat.le_refl _) fun _ => rfl
    have hcopy := copyinstrLoop_refines ht max.toNat dst i srcva max
    have hiff : (∃ k, k < max.toNat ∧ (∀ k', k' ≤ k → UserMapped s.ram r (srcva.toNat + k')) ∧
        userByte s.ram r (srcva.toNat + k) = 0) ↔ ∃ k, k < max.toNat ∧
        (∀ k', k' ≤ k → (userMem s.ram r).byte (srcva.toNat + k') ≠ none) ∧
        ((userMem s.ram r).byte (srcva.toNat + k)).getD 0 = 0 :=
      exists_congr fun k => and_congr_right fun _ => and_congr_left fun _ => forall₂_congr fun k' _ =>
      (byte_ne_none_iff ..).symm
    have hbytes : ∀ k, k < j → userByte s.ram r (srcva.toNat + k) ≠ 0 := by
      intro k hk
      obtain ⟨b, hb, hne⟩ := hstr.bytes k hk
      rw [userByte, hb]
      exact hne
    rcases hcases with ⟨hlt, hz, heq⟩ | ⟨hstop, heq⟩
    · rw [heq] at hcopy
      have hz' : userByte s.ram r (srcva.toNat + j) = 0 := by rw [userByte, hz]; rfl
      refine ⟨_, 0, j + 1, hcopy, .inl rfl, ⟨fun _ => ?_, fun _ => rfl⟩, rfl, hlt, fun _ => ⟨by omega, hz', hbytes⟩⟩
      refine ⟨j, hlt, fun k' hk' => (byte_ne_none_iff ..).mp ?_, hz'⟩
      by_cases hkj : k' = j
      · rw [hkj, hz]
        exact Option.some_ne_none _
      · obtain ⟨b, hb, -⟩ := hstr.bytes k' (by omega)
        rw [hb]
        exact Option.some_ne_none _
    · rw [heq] at hcopy
      refine ⟨_, -1, j, hcopy, .inr rfl, ⟨fun h => absurd h (by decide), fun h => ?_⟩, rfl, hstr.le, fun h =>
        absurd h (by decide)⟩
      exact absurd (hiff.mp h) (StringAt.no_nul hstr hstop)

theorem userTable_blank : ∃ s : State, UserTable s.ram 0x80000000 ∧ UserMapped s.ram 0x80000000 17 ∧
    userByte s.ram 0x80000000 17 = 0 := by
  obtain ⟨s, -, ht, hleaves, hnode, -, hram⟩ := onePage_blank
  have hframe : ∀ v a, userFrame s.ram 0x80000000 v = some a → a = 0x80008000 := by
    intro v a ha
    rw [userFrame] at ha
    split_ifs at ha with hlt
    have hM : MAXVA = 67108864 * 4096 := rfl
    rw [hleaves v (by rw [PGSIZE_eq] at hlt; omega), mapRange] at ha
    split_ifs at ha with hv
    · obtain rfl : v = 0 := by omega
      exact Option.some.inj (ha.symm.trans (by decide))
    · cases ha
  have hmapped : UserMapped s.ram 0x80000000 17 :=
  ⟨by decide, pageEntry 0x80008000 0x1E 0, hleaves 0 (by decide), by decide⟩
  refine ⟨s, ⟨ht.toWellFormed, fun v a ha => ?_, fun v a ha hn => ?_⟩, hmapped, ?_⟩
  · rw [hframe v a ha]
    decide
  · rw [hframe v a ha] at hn
    exact (hnode _ hn).elim (by decide) (by decide)
  · cases hpage : userFrame s.ram 0x80000000 (17 / PGSIZE) with
    | none => rw [userByte, UserMem.byte, page_userMem, hpage]; rfl
    | some a =>
      rw [userByte, UserMem.byte, page_userMem, hpage, hframe _ a hpage, Option.map_some,
        hram _ (by decide) (by decide)]
      decide

/-- A byte is read, written and read as a string. -/
theorem user_copies_exact_blank : ∃ s : State, UserTable s.ram 0x80000000 ∧
    (∃ dst', copyin 0x80000000 (fun _ => 3 : Bytes 1) 0 17 1 s = .ok (dst', 0) s ∧
      dst' = Bytes.store (fun _ => 3) 0 (fun k => userByte s.ram 0x80000000 (17 + k)) 1) ∧
    (∃ ram', copyout 0x80000000 17 (fun _ => 5) 1 s = .ok 0 ⟨ram', s.freelist⟩ ∧ userByte ram' 0x80000000 17 = 5) ∧
    ∃ dst' l, copyinstr 0x80000000 (fun _ => 3 : Bytes 1) 0 17 1 s = .ok (dst', 0) s ∧ 0 < l ∧
      dst' = Bytes.store (fun _ => 3) 0 (fun k => userByte s.ram 0x80000000 (17 + k)) l := by
  obtain ⟨s, ht, hm, hzero⟩ := userTable_blank
  have hall : ∀ k, k < (1 : BitVec 64).toNat → UserMapped s.ram 0x80000000 ((17 : BitVec 64).toNat + k) :=
  fun k hk => by
    obtain rfl : k = 0 := Nat.lt_one_iff.mp hk
    exact hm
  obtain ⟨hin, hout, hstr⟩ := user_copies_exact ht
  obtain ⟨dst, _, hcopyin, -, hiff, hdst⟩ := hin 1 (fun _ => 3) 0 17 1
  obtain rfl := hiff.mpr hall
  obtain ⟨ram', _, hcopyout, -, hiff, hram, -⟩ := hout (fun _ => 5) 17 1
  obtain rfl := hiff.mpr hall
  obtain ⟨dst', _, l, hcopyinstr, -, hiff, hdst', -, hl⟩ := hstr 1 (fun _ => 3) 0 17 1
  obtain rfl := hiff.mpr ⟨0, by decide, fun k hk => hall k (Nat.lt_succ_of_le hk), hzero⟩
  exact ⟨s, ht, ⟨dst, hcopyin, hdst rfl⟩,
    ⟨ram', hcopyout, (hram rfl).2 0 (by decide) fun k' h1 h2 =>
    absurd (Nat.lt_of_lt_of_le h1 (Nat.le_of_lt_succ h2)) (Nat.lt_irrefl 0)⟩,
    dst', l, hcopyinstr, (hl rfl).1, hdst'⟩

end Xv6.Vm

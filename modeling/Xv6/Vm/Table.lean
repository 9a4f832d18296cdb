import Xv6.Lib.Trie
import Xv6.Vm.PageTable

/-!
# A page table as a partial map

A three-level page table is a trie of depth two over the 9-bit indices, whose links are the valid entries of
its upper two levels. Its leaves are the valid entries of the last level, read as a partial map from page
numbers to entries. `walk` finds the leaf of an address; `mappages` adds leaves and page-table pages;
`uvmunmap` removes leaves.
-/

namespace Xv6.Vm

open Function (update update_of_ne update_self)

theorem PGSIZE_eq : PGSIZE = 4096 := rfl

/-! ## Addresses -/

theorem pgrounddown_eq_shift (a : BitVec 64) : pgrounddown a = (a >>> 12) <<< 12 := by
  refine BitVec.eq_of_getLsbD_eq fun i hi => ?_
  have hmask : (4095#64).getLsbD i = decide (i < 12) := by
    rw [show (4095#64) = BitVec.ofNat 64 (2 ^ 12 - 1) from rfl, BitVec.getLsbD_ofNat, Nat.testBit_two_pow_sub_one]
    simp [hi]
  rw [pgrounddown, BitVec.getLsbD_and, BitVec.getLsbD_not, BitVec.getLsbD_shiftLeft, BitVec.getLsbD_ushiftRight]
  change (a.getLsbD i && (decide (i < 64) && !(4095#64).getLsbD i)) = _
  rw [hmask]
  by_cases h : i < 12
  · simp [h]
  · simp [h, hi, show 12 + (i - 12) = i by omega]

theorem toNat_pgrounddown (a : BitVec 64) : (pgrounddown a).toNat = a.toNat / PGSIZE * PGSIZE := by
  have ha := a.isLt
  rw [pgrounddown_eq_shift, BitVec.toNat_shiftLeft, BitVec.toNat_ushiftRight, Nat.shiftRight_eq_div_pow,
    Nat.shiftLeft_eq,
    PGSIZE_eq]
  omega

theorem toNat_pgroundup {sz : BitVec 64} (h : sz.toNat + 4095 < 2 ^ 64) :
    (pgroundup sz).toNat = (sz.toNat + 4095) / PGSIZE * PGSIZE := by
  rw [pgroundup, ← pgrounddown, toNat_pgrounddown, BitVec.toNat_add]
  change (sz.toNat + 4095) % 2 ^ 64 / PGSIZE * PGSIZE = _
  rw [Nat.mod_eq_of_lt h]

/-- One of the three indices of a page number. -/
def ix (level vpn : Nat) : Fin 512 := Fin.ofNat 512 (vpn / 512 ^ level)

theorem px_eq_ix (level : Nat) (va : BitVec 64) : px level va = ix level (va.toNat / PGSIZE) := by
  refine Fin.ext ?_
  change ((va >>> (12 + 9 * level)) &&& 0x1FF).toNat = va.toNat / PGSIZE / 512 ^ level % 512
  rw [BitVec.toNat_and, BitVec.toNat_ushiftRight, Nat.shiftRight_eq_div_pow]
  change va.toNat / 2 ^ (12 + 9 * level) &&& (2 ^ 9 - 1) = _
  rw [Nat.and_two_pow_sub_one_eq_mod, PGSIZE_eq, Nat.div_div_eq_div_mul, pow_add, pow_mul]
  norm_num

/-- The way to the last page-table page for a page number. -/
def path (vpn : Nat) : List (Fin 512) := [ix 2 vpn, ix 1 vpn]

theorem path_le (vpn : Nat) : (path vpn).length ≤ 2 := Nat.le_refl 2

theorem path_inj {vpn vpn' : Nat} (h : vpn < 512 ^ 3) (h' : vpn' < 512 ^ 3) :
    path vpn = path vpn' ∧ ix 0 vpn = ix 0 vpn' ↔ vpn = vpn' := by
  refine ⟨fun ⟨hp, h0⟩ => ?_, fun he => by rw [he]; exact ⟨rfl, rfl⟩⟩
  obtain ⟨h2, h1⟩ : ix 2 vpn = ix 2 vpn' ∧ ix 1 vpn = ix 1 vpn' := by simpa [path] using hp
  have e2 : vpn / 512 ^ 2 % 512 = vpn' / 512 ^ 2 % 512 := congrArg Fin.val h2
  have e1 : vpn / 512 ^ 1 % 512 = vpn' / 512 ^ 1 % 512 := congrArg Fin.val h1
  have e0 : vpn / 512 ^ 0 % 512 = vpn' / 512 ^ 0 % 512 := congrArg Fin.val h0
  omega

/-! ## Entries -/

theorem getLsbD_of_aligned {a : Pa} (h : a.toNat % PGSIZE = 0) {i : Nat} (hi : i < 12) : a.getLsbD i = false := by
  have hbit : (a.toNat % 2 ^ 12).testBit i = a.toNat.testBit i := by
    rw [Nat.testBit_mod_two_pow, decide_eq_true hi, Bool.true_and]
  rw [BitVec.getLsbD, ← hbit, show a.toNat % 2 ^ 12 = 0 from h, Nat.zero_testBit]

theorem pte2pa_pa2pte {a : Pa} (ha : a.toNat % PGSIZE = 0) {flags : Pte} (hf : flags.toNat < 1024) :
    pte2pa (pa2pte a ||| flags) = a := by
  refine BitVec.eq_of_getLsbD_eq fun i hi => ?_
  rw [pte2pa, pa2pte, BitVec.getLsbD_shiftLeft, BitVec.getLsbD_ushiftRight, BitVec.getLsbD_or, BitVec.getLsbD_shiftLeft,
    BitVec.getLsbD_ushiftRight]
  by_cases h : i < 12
  · rw [getLsbD_of_aligned ha h]
    simp [h]
  · have hflag : flags.getLsbD (10 + (i - 12)) = false := by
      refine Nat.testBit_lt_two_pow (Nat.lt_of_lt_of_le hf ?_)
      exact Nat.pow_le_pow_right (show 0 < 2 by decide) (show 10 ≤ 10 + (i - 12) by omega)
    rw [hflag]
    simp [h, hi, show 12 + (i - 12) = i by omega, show 10 + (i - 12) < 64 by omega]

theorem pteFlags_pa2pte (a : Pa) (flags : Pte) : pteFlags (pa2pte a ||| flags) = pteFlags flags := by
  refine BitVec.eq_of_getLsbD_eq fun i hi => ?_
  have hmask : (0x3FF : Pte).getLsbD i = decide (i < 10) := by
    rw [show (0x3FF : Pte) = BitVec.ofNat 64 (2 ^ 10 - 1) from rfl, BitVec.getLsbD_ofNat, Nat.testBit_two_pow_sub_one]
    simp [hi]
  rw [pteFlags, pteFlags, pa2pte, BitVec.getLsbD_and, BitVec.getLsbD_and, BitVec.getLsbD_or,
    BitVec.getLsbD_shiftLeft, hmask]
  by_cases h : i < 10
  · simp [h]
  · simp [h]

theorem pteFlags_lt (e : Pte) : (pteFlags e).toNat < 1024 := by
  rw [pteFlags, BitVec.toNat_and]
  exact Nat.lt_of_le_of_lt Nat.and_le_right (by decide)

theorem pteFlags_pteFlags (e : Pte) : pteFlags (pteFlags e) = pteFlags e := by
  rw [pteFlags, pteFlags, BitVec.and_assoc, BitVec.and_self]

theorem getLsbD_V (i : Nat) : PTE_V.getLsbD i = decide (i = 0) := by
  rw [show PTE_V = 1#64 from rfl, BitVec.getLsbD_one]
  simp

theorem pteFlags_or_V {e : Pte} (hv : e &&& PTE_V ≠ 0) : pteFlags e ||| PTE_V = pteFlags e := by
  have hbit : e.getLsbD 0 = true := by
    by_contra h0
    refine hv (BitVec.eq_of_getLsbD_eq fun i _ => ?_)
    rw [BitVec.getLsbD_and, getLsbD_V]
    by_cases hi : i = 0
    · rw [hi, Bool.not_eq_true _ |>.mp h0]
      rfl
    · simp [hi]
  refine BitVec.eq_of_getLsbD_eq fun i _ => ?_
  rw [BitVec.getLsbD_or, getLsbD_V, pteFlags, BitVec.getLsbD_and]
  by_cases hi : i = 0
  · rw [hi, hbit]
    rfl
  · simp [hi]

theorem pteFlags_ne_V {e e' : Pte} (h : e &&& (PTE_R ||| PTE_W ||| PTE_X) ≠ 0) (hflags : pteFlags e' = pteFlags e) :
    pteFlags e' ≠ PTE_V := by
  intro hV
  rw [hflags] at hV
  refine h ?_
  have hmask : (0x3FF : Pte) &&& (PTE_R ||| PTE_W ||| PTE_X) = PTE_R ||| PTE_W ||| PTE_X := by decide
  rw [← hmask, ← BitVec.and_assoc, show e &&& 0x3FF = PTE_V from hV]
  decide

theorem or_V_and_V (e : Pte) : (e ||| PTE_V) &&& PTE_V ≠ 0 := by
  intro h
  have hbit : ((e ||| PTE_V) &&& PTE_V).getLsbD 0 = true := by
    rw [BitVec.getLsbD_and, BitVec.getLsbD_or, show PTE_V.getLsbD 0 = true from rfl, Bool.or_true, Bool.and_true]
  rw [h] at hbit
  exact absurd hbit (by decide)

theorem entries_update_self (ram : Ram) (pt : Pa) (i : Fin 512) (e : Pte) :
    entries (update ram pt ((ram pt).setField (8 * i.val) e)) = Trie.set (entries ram) pt i e := by
  funext a j
  by_cases ha : a = pt
  · subst ha
    rw [entries, update_self]
    by_cases hj : j = i
    · subst hj
      rw [Trie.set_self, Bytes.field_setField (by decide) _ _ (by have := j.isLt; rw [PGSIZE_eq]; omega)]
    · rw [Trie.set_of_ne fun h => hj h.2, Bytes.field_setField_of_disjoint, entries]
      have : j.val ≠ i.val := fun h => hj (Fin.ext h)
      omega
  · rw [entries, update_of_ne ha, Trie.set_of_ne fun h => ha h.1, entries]

theorem entries_zero {ram : Ram} {a : Pa} (h : ram a = fun _ => 0) (i : Fin 512) : entries ram a i = 0 := by
  refine Bytes.field_eq_zero fun k _ => ?_
  rw [h, Bytes.get_zero]

/-! ## Tables -/

/-- The page-table page a valid entry of the upper levels points to. -/
def link (e : Pte) : Option Pa := if e &&& PTE_V ≠ 0 then some (pte2pa e) else none

/-- The page-table page at the end of a path. -/
def lookup (ram : Ram) (r : Pa) (p : List (Fin 512)) : Option Pa := Trie.find link (entries ram) r p

/-- The pages of the table. -/
def Node (ram : Ram) (r a : Pa) : Prop := ∃ p, p.length ≤ 2 ∧ lookup ram r p = some a

/-- An entry of the last level, if it is valid. -/
def present (e : Pte) : Option Pte := if e &&& PTE_V ≠ 0 then some e else none

/-- A valid entry of a page of the last level. -/
def slot (ram : Ram) (r : Pa) (p : List (Fin 512)) (i : Fin 512) : Option Pte :=
  (lookup ram r p).bind fun a => present (entries ram a i)

/-- The leaf of a page number. -/
def leaf (ram : Ram) (r : Pa) (vpn : Nat) : Option Pte := slot ram r (path vpn) (ix 0 vpn)

/-- The pages of the table are distinct, and none is shared. -/
structure WellFormed (ram : Ram) (r : Pa) : Prop where
  aligned : r.toNat % PGSIZE = 0
  unshared : Trie.Unshared link (entries ram) r 2

/-- A table beside a free list of other pages. -/
structure Table (r : Pa) (s : State) : Prop extends WellFormed s.ram r where
  nodup : s.freelist.Nodup
  free_aligned : ∀ a ∈ s.freelist, a.toNat % PGSIZE = 0
  free_fresh : ∀ a ∈ s.freelist, ¬ Node s.ram r a

variable {ram ram' : Ram} {r a b : Pa} {p q : List (Fin 512)} {i j : Fin 512} {e : Pte} {s s' s'' : State}

theorem link_of_valid (h : e &&& PTE_V ≠ 0) : link e = some (pte2pa e) := if_pos h

theorem link_of_invalid (h : e &&& PTE_V = 0) : link e = none := if_neg (not_not.mpr h)

theorem fresh_of_not_node (h : ¬ Node ram r a) : Trie.Fresh link (entries ram) r 2 a := fun p hp ha => h ⟨p, hp, ha⟩

theorem lookup_of_same (h : ∀ a, Node ram r a → ram' a = ram a) (hp : p.length ≤ 2) :
    lookup ram' r p = lookup ram r p := by
  refine Trie.find_congr fun q a hq ha i => ?_
  rw [entries, entries, h a ⟨q, by omega, ha⟩]

theorem node_of_same (h : ∀ p, p.length ≤ 2 → lookup ram' r p = lookup ram r p) : Node ram' r a ↔ Node ram r a := by
  constructor
  · rintro ⟨p, hp, ha⟩
    exact ⟨p, hp, h p hp ▸ ha⟩
  · rintro ⟨p, hp, ha⟩
    exact ⟨p, hp, (h p hp).symm ▸ ha⟩

theorem present_of_valid (h : e &&& PTE_V ≠ 0) : present e = some e := if_pos h

theorem present_of_invalid (h : e &&& PTE_V = 0) : present e = none := if_neg (not_not.mpr h)

theorem slot_of_lookup (ha : lookup ram r p = some a) : slot ram r p i = present (entries ram a i) := by
  rw [slot, ha, Option.bind_some]

theorem slot_of_same (h : ∀ a, Node ram r a → ram' a = ram a) (hp : p.length ≤ 2) :
    slot ram' r p i = slot ram r p i := by
  rw [slot, slot, lookup_of_same h hp]
  cases ha : lookup ram r p with
  | none => rw [Option.bind_none, Option.bind_none]
  | some a =>
    have : entries ram' a = entries ram a := by
      funext i
      rw [entries, entries, h a ⟨p, hp, ha⟩]
    rw [Option.bind_some, Option.bind_some, this]

theorem leaf_of_same (h : ∀ a, Node ram r a → ram' a = ram a) (vpn : Nat) : leaf ram' r vpn = leaf ram r vpn :=
  slot_of_same h (path_le vpn)

theorem WellFormed.congr (hw : WellFormed ram r) (h : ∀ p, p.length ≤ 2 → lookup ram' r p = lookup ram r p) :
    WellFormed ram' r := ⟨hw.aligned, hw.unshared.congr h⟩

/-! ## How a table grows -/

/-- The table took pages from the free list for itself and lost none; other pages are as before. -/
structure Grows (r : Pa) (taken : List Pa) (s s' : State) : Prop where
  freelist : s.freelist = taken ++ s'.freelist
  wellFormed : WellFormed s'.ram r
  lookup_some : ∀ p a, p.length ≤ 2 → lookup s.ram r p = some a → lookup s'.ram r p = some a
  node : ∀ a, Node s'.ram r a ↔ Node s.ram r a ∨ a ∈ taken
  frame : ∀ a, ¬ Node s'.ram r a → s'.ram a = s.ram a

theorem WellFormed.grows (hw : WellFormed s.ram r) (hlook : ∀ p, p.length ≤ 2 → lookup s'.ram r p = lookup s.ram r p)
    (hframe : ∀ a, ¬ Node s.ram r a → s'.ram a = s.ram a) (hfree : s'.freelist = s.freelist) : Grows r [] s s' where
  freelist := hfree.symm
  wellFormed := hw.congr hlook
  lookup_some p a hp ha := (hlook p hp).trans ha
  node a := by rw [node_of_same hlook]; simp
  frame a ha := hframe a fun hn => ha ((node_of_same hlook).mpr hn)

theorem Grows.refl (h : WellFormed s.ram r) : Grows r [] s s := h.grows (fun _ _ => rfl) (fun _ _ => rfl) rfl

theorem Grows.trans {taken taken' : List Pa} (h : Grows r taken s s') (h' : Grows r taken' s' s'') :
    Grows r (taken ++ taken') s s'' where
  freelist := by rw [h.freelist, h'.freelist, List.append_assoc]
  wellFormed := h'.wellFormed
  lookup_some p a hp ha := h'.lookup_some p a hp (h.lookup_some p a hp ha)
  node a := by rw [h'.node, h.node, List.mem_append, or_assoc]
  frame a ha := by
    rw [h'.frame a ha, h.frame a fun hn => ha ((h'.node a).mpr (.inl hn))]

theorem Table.of_grows {taken : List Pa} (ht : Table r s) (h : Grows r taken s s') : Table r s' where
  toWellFormed := h.wellFormed
  nodup := by
    have := ht.nodup
    rw [h.freelist] at this
    exact (List.nodup_append.mp this).2.1
  free_aligned a ha := ht.free_aligned a (by rw [h.freelist]; exact List.mem_append_right _ ha)
  free_fresh a ha hn := by
    have hmem : a ∈ s.freelist := by rw [h.freelist]; exact List.mem_append_right _ ha
    have hnd := ht.nodup
    rw [h.freelist] at hnd
    rcases (h.node a).mp hn with hold | htaken
    · exact ht.free_fresh a hmem hold
    · exact (List.nodup_append.mp hnd).2.2 a htaken a ha rfl

theorem Table.grow {rest : List Pa} (ht : Table r s) (hfree : s.freelist = b :: rest) (hq : q.length < 2)
    (ha : lookup s.ram r q = some a) (hnone : entries s.ram a i &&& PTE_V = 0)
    (hs' : s' = ⟨update (update s.ram b fun _ => 0) a
      ((update s.ram b (fun _ => 0) a).setField (8 * i.val) (pa2pte b ||| PTE_V)), rest⟩) :
    Grows r [b] s s' ∧ lookup s'.ram r (q ++ [i]) = some b ∧ ∀ p j, p.length = 2 → slot s'.ram r p j =
    slot s.ram r p j := by
  have hmem : b ∈ s.freelist := by rw [hfree]; exact List.mem_cons_self
  have hb : ¬ Node s.ram r b := ht.free_fresh b hmem
  have hzero : ∀ a, Node s.ram r a → update s.ram b (fun _ => 0) a = s.ram a := by
    intro a ha
    have hne : a ≠ b := fun h => hb (h ▸ ha)
    rw [update_of_ne hne]
  obtain ⟨ram1, hram1⟩ : ∃ ram1, ram1 = update s.ram b fun _ => (0 : BitVec 8) := ⟨_, rfl⟩
  rw [← hram1] at hs' hzero
  have hlook : ∀ p, p.length ≤ 2 → lookup ram1 r p = lookup s.ram r p := fun p => lookup_of_same hzero
  have hw1 : WellFormed ram1 r := ht.toWellFormed.congr hlook
  have hset : entries s'.ram = Trie.set (entries ram1) a i (pa2pte b ||| PTE_V) := by
    rw [hs']
    exact entries_update_self ram1 a i _
  have ha1 : lookup ram1 r q = some a := by rw [hlook q (by omega), ha]
  have hnode1 : ∀ c, Node ram1 r c ↔ Node s.ram r c := fun c => node_of_same hlook
  have hent : ∀ c, Node s.ram r c → entries ram1 c = entries s.ram c := fun c hc => by
    funext k
    rw [entries, entries, hzero c hc]
  have hlink : link (pa2pte b ||| PTE_V) = some b := by
    rw [link_of_valid (or_V_and_V _), pte2pa_pa2pte (ht.free_aligned b hmem) (by decide)]
  have hb1 : Trie.Fresh link (entries ram1) r 2 b := fresh_of_not_node (by rwa [hnode1])
  have hnone1 : link (entries ram1 a i) = none := by
    rw [hent a ⟨q, by omega, ha⟩]
    exact link_of_invalid hnone
  have hempty : ∀ k, link (entries ram1 b k) = none := fun k => by
    rw [entries_zero (by rw [hram1, update_self])]
    rfl
  -- where paths lead afterwards
  have hfind : ∀ p, p.length ≤ 2 → lookup s'.ram r p = if p = q ++ [i] then some b else lookup s.ram r p := by
    intro p hp
    rw [lookup, hset, Trie.find_set_link hw1.unshared hq ha1 hnone1 hlink hb1 hempty hp]
    change (if p = q ++ [i] then some b else lookup ram1 r p) = _
    rw [hlook p hp]
  have hlen : (q ++ [i]).length ≤ 2 := by rw [List.length_append, List.length_singleton]; omega
  have hold : lookup s.ram r (q ++ [i]) = none := by
    rw [lookup, Trie.find_concat]
    change (lookup s.ram r q).bind _ = none
    rw [ha]
    exact link_of_invalid hnone
  have hne : ∀ p c, lookup s.ram r p = some c → p ≠ q ++ [i] := by
    rintro p c hc rfl
    simp [hold] at hc
  refine ⟨⟨by rw [hfree, hs']; rfl, ⟨ht.aligned, ?_⟩, fun p c hp hc => ?_, fun c => ?_, fun c hc => ?_⟩, ?_,
    fun p j hp => ?_⟩
  · rw [hset]
    exact hw1.unshared.set_link hq ha1 hnone1 hlink hb1 hempty
  · rw [hfind p hp, if_neg (hne p c hc), hc]
  · rw [List.mem_singleton]
    constructor
    · rintro ⟨p, hp, hc⟩
      rw [hfind p hp] at hc
      split_ifs at hc with h
      · exact .inr (Option.some.inj hc).symm
      · exact .inl ⟨p, hp, hc⟩
    · rintro (⟨p, hp, hc⟩ | rfl)
      · exact ⟨p, hp, by rw [hfind p hp, if_neg (hne p c hc), hc]⟩
      · exact ⟨q ++ [i], hlen, by rw [hfind _ hlen, if_pos rfl]⟩
  · have hca : c ≠ a := by
      rintro rfl
      exact hc ⟨q, by omega, by rw [hfind q (by omega), if_neg (hne q c ha), ha]⟩
    have hcb : c ≠ b := by
      rintro rfl
      exact hc ⟨q ++ [i], hlen, by rw [hfind _ hlen, if_pos rfl]⟩
    rw [hs']
    change update ram1 a _ c = s.ram c
    rw [update_of_ne hca, hram1, update_of_ne hcb]
  · rw [hfind _ hlen, if_pos rfl]
  · by_cases hpq : p = q ++ [i]
    · -- a new page of the last level has no valid entry
      have hba : b ≠ a := fun h => hb ⟨q, by omega, h ▸ ha⟩
      rw [slot_of_lookup (by rw [hfind p (by omega), if_pos hpq]), hset, Trie.set_node_of_ne hba,
        entries_zero (by rw [hram1, update_self]), slot, hpq, hold]
      rfl
    · rw [slot, slot, hfind p (by omega), if_neg hpq]
      cases hc : lookup s.ram r p with
      | none => rw [Option.bind_none, Option.bind_none]
      | some c =>
        have hca : c ≠ a := by
          rintro rfl
          have := ht.unshared p q c (by omega) (by omega) hc ha
          rw [this] at hp
          omega
        have hsame : entries s'.ram c = entries s.ram c := by
          rw [hset, Trie.set_node_of_ne hca, hent c ⟨p, by omega, hc⟩]
        rw [Option.bind_some, Option.bind_some, hsame]

theorem WellFormed.store (hw : WellFormed s.ram r) (hq : q.length = 2) (ha : lookup s.ram r q = some a)
    (hs' : s' = { s with ram := update s.ram a ((s.ram a).setField (8 * i.val) e) }) :
    (∀ p, p.length ≤ 2 → lookup s'.ram r p = lookup s.ram r p) ∧ (∀ c, c ≠ a → s'.ram c = s.ram c) ∧
      ∀ p j, p.length = 2 → slot s'.ram r p j =
        if p = q ∧ j = i then present e else slot s.ram r p j := by
  have hset : entries s'.ram = Trie.set (entries s.ram) a i e := by
    rw [hs']
    exact entries_update_self s.ram a i e
  have hfind : ∀ p, p.length ≤ 2 → lookup s'.ram r p = lookup s.ram r p := by
    intro p hp
    rw [lookup, hset]
    exact Trie.find_set_last hw.unshared hq ha hp
  refine ⟨hfind, fun c hc => ?_, fun p j hp => ?_⟩
  · rw [hs']
    exact update_of_ne hc ..
  · rw [slot, slot, hfind p (by omega)]
    by_cases hpq : p = q ∧ j = i
    · obtain ⟨rfl, rfl⟩ := hpq
      rw [if_pos ⟨rfl, rfl⟩, ha]
      rw [Option.bind_some, hset, Trie.set_self]
    · rw [if_neg hpq]
      cases hc : lookup s.ram r p with
      | none => rw [Option.bind_none, Option.bind_none]
      | some c =>
        have hsame : entries s'.ram c j = entries s.ram c j := by
          rw [hset, Trie.set_of_ne]
          rintro ⟨rfl, rfl⟩
          exact hpq ⟨hw.unshared p q c (by omega) (by omega) hc ha, rfl⟩
        rw [Option.bind_some, Option.bind_some, hsame]

end Xv6.Vm

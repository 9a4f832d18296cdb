import Xv6.Vm.Map
import Mathlib.Data.List.Nodup

/-!
# Adding pages to a table

`uvmalloc` and `uvmcopy` map fresh frames one after another and, when there is no page left for a frame or
for the table itself, unmap and free what they have added. `Adding` says what is true in between, whatever
the frames are filled with.
-/

namespace Xv6.Vm

open Hoare (bind_of_ok)
open Function (update update_of_ne update_self)

/-- `k` pages from page `base` on were mapped to frames from the free list; `P` says how their entries and
bytes are. The table has grown by the pages `taken`. -/
structure Adding (r : Pa) (P : Nat → Pte → Bytes PGSIZE → Prop) (base k : Nat) (s₀ : State) (taken : List Pa)
    (s : State) :
    Prop where
  table : Table r s
  perm : s₀.freelist.Perm (frames s.ram r base k ++ (taken ++ s.freelist))
  node : ∀ a, Node s.ram r a ↔ Node s₀.ram r a ∨ a ∈ taken
  added : ∀ v, base ≤ v → v < base + k → ∃ e, leaf s.ram r v = some e ∧ P v e (s.ram (pte2pa e))
  leaves : ∀ v, v < 512 ^ 3 → v < base ∨ base + k ≤ v → leaf s.ram r v = leaf s₀.ram r v
  frame : ∀ a, ¬ Node s₀.ram r a → a ∉ s₀.freelist → s.ram a = s₀.ram a

variable {kend base k v : Nat} {r mem : Pa} {a : BitVec 64} {P : Nat → Pte → Bytes PGSIZE → Prop} {s₀ s s' : State}
  {taken taken' extra rest : List Pa} {e : Pte} {perm : BitVec 32} {pg : Bytes PGSIZE} {ram : Ram}

theorem Table.take (ht : Table r s) (hfree : s.freelist = mem :: rest) (pg : Bytes PGSIZE) :
    Table r ⟨update s.ram mem pg, rest⟩ ∧ ∀ a, Node s.ram r a → update s.ram mem pg a = s.ram a := by
  have hmem : mem ∈ s.freelist := by rw [hfree]; exact List.mem_cons_self
  have hsame : ∀ a, Node s.ram r a → update s.ram mem pg a = s.ram a := by
    intro a ha
    have hne : a ≠ mem := fun h => ht.free_fresh mem hmem (h ▸ ha)
    rw [update_of_ne hne]
  have hlook : ∀ p, p.length ≤ 2 → lookup (update s.ram mem pg) r p = lookup s.ram r p := fun p => lookup_of_same hsame
  have hrest : ∀ a ∈ rest, a ∈ s.freelist := fun a ha => by rw [hfree]; exact List.mem_cons_of_mem _ ha
  refine ⟨⟨ht.toWellFormed.congr hlook, ?_, fun a ha => ht.free_aligned a (hrest a ha), fun a ha hn => ?_⟩, hsame⟩
  · have := ht.nodup
    rw [hfree] at this
    exact this.of_cons
  · exact ht.free_fresh a (hrest a ha) ((node_of_same hlook).mp hn)

theorem frames_concat (h : leaf ram r (base + k) = some e) :
    frames ram r base (k + 1) = frames ram r base k ++ [pte2pa e] := by
  rw [frames, frames, List.range'_1_concat, List.map_append, List.map_singleton, h]
  rfl

theorem mem_frames (hv : v < k) (h : leaf ram r (base + v) = some e) : pte2pa e ∈ frames ram r base k := by
  refine List.mem_map.mpr ⟨base + v, List.mem_range'.mpr ⟨v, hv, by omega⟩, ?_⟩
  rw [h]
  rfl

theorem frames_inj {w : Nat} {e' : Pte} (hnd : (frames ram r 0 k).Nodup) (hv : v < k) (hw : w < k)
    (he : leaf ram r v = some e)
    (he' : leaf ram r w = some e') (heq : pte2pa e = pte2pa e') : v = w := by
  have hinj := List.inj_on_of_nodup_map hnd
  refine hinj (List.mem_range'.mpr ⟨v, hv, by omega⟩) (List.mem_range'.mpr ⟨w, hw, by omega⟩) ?_
  rw [he, he']
  exact heq

namespace Adding

theorem start (ht : Table r s) : Adding r P base 0 s [] s where
  table := ht
  perm := List.Perm.refl _
  node a := by simp
  added v h1 h2 := by omega
  leaves _ _ _ := rfl
  frame _ _ _ := rfl

theorem and_lt {φ : Nat → Prop} (h : Adding r P base k s₀ taken s) (hφ : ∀ v, v < base + k → φ v) :
    Adding r (fun v e pg => φ v ∧ P v e pg) base k s₀ taken s :=
  { h with added := fun v h1 h2 => (h.added v h1 h2).imp fun _ he => ⟨he.1, hφ v h2, he.2⟩ }

theorem nodup (hnd : s₀.freelist.Nodup) (h : Adding r P base k s₀ taken s) :
    (frames s.ram r base k ++ (taken ++ s.freelist)).Nodup := h.perm.nodup_iff.mp hnd

theorem length_free (h : Adding r P base k s₀ taken s) :
    s₀.freelist.length = k + (taken.length + s.freelist.length) := by
  simpa [frames] using h.perm.length_eq

theorem mem_free (h : Adding r P base k s₀ taken s) (ha : a ∈ taken ++ s.freelist) : a ∈ s₀.freelist :=
  h.perm.mem_iff.mpr (List.mem_append_right _ ha)

theorem frame_mem (h : Adding r P base k s₀ taken s) (ha : a ∈ frames s.ram r base k) : a ∈ s₀.freelist :=
  h.perm.mem_iff.mpr (List.mem_append_left _ ha)

theorem frame_other (h₀ : Table r s₀) (h : Adding r P base k s₀ taken s) (ha : a ∈ frames s.ram r base k) :
    ¬ Node s.ram r a ∧ a ∉ s.freelist := by
  have hnd := List.nodup_append.mp (h.nodup h₀.nodup)
  refine ⟨fun hn => ?_, fun hfree => hnd.2.2 _ ha _ (List.mem_append_right _ hfree) rfl⟩
  rcases (h.node _).mp hn with h0 | htaken
  · exact h₀.free_fresh _ (h.frame_mem ha) h0
  · exact hnd.2.2 _ ha _ (List.mem_append_left _ htaken) rfl

theorem keep (h₀ : Table r s₀) (h : Adding r P base k s₀ taken s)
    (hperm : s.freelist.Perm (extra ++ (taken' ++ s'.freelist)))
    (hnode : ∀ a, Node s'.ram r a ↔ Node s.ram r a ∨ a ∈ taken')
    (hleaf : ∀ v, base ≤ v → v < base + k → leaf s'.ram r v = leaf s.ram r v)
    (hframe : ∀ a, ¬ Node s.ram r a → a ∉ s.freelist → s'.ram a = s.ram a) :
    s₀.freelist.Perm (frames s'.ram r base k ++ (extra ++ ((taken ++ taken') ++ s'.freelist))) ∧
      (∀ a, Node s'.ram r a ↔ Node s₀.ram r a ∨ a ∈ taken ++ taken') ∧
      (∀ v, base ≤ v → v < base + k → ∃ e, leaf s'.ram r v = some e ∧ P v e (s'.ram (pte2pa e))) ∧
      ∀ a, ¬ Node s₀.ram r a → a ∉ s₀.freelist → s'.ram a = s₀.ram a := by
  refine ⟨?_, fun a => by rw [hnode, h.node, List.mem_append, or_assoc], fun v h1 h2 => ?_, fun a ha hfree => ?_⟩
  · have hsame : frames s'.ram r base k = frames s.ram r base k := frames_congr fun j hj =>
      hleaf _ (by omega) (by omega)
    rw [hsame]
    refine h.perm.trans (List.Perm.append_left _ ?_)
    refine (List.Perm.append_left taken hperm).trans (List.perm_iff_count.mpr fun a => ?_)
    simp only [List.count_append]
    omega
  · obtain ⟨e, he, hP⟩ := h.added v h1 h2
    obtain ⟨j, rfl⟩ : ∃ j, v = base + j := ⟨v - base, by omega⟩
    obtain ⟨hn, hf⟩ := h.frame_other h₀ (mem_frames (by omega) he)
    exact ⟨e, by rw [hleaf _ h1 h2, he], by rwa [hframe _ hn hf]⟩
  · rw [hframe a, h.frame a ha hfree]
    · rw [h.node]
      exact fun hn => hn.elim ha fun htaken => hfree (h.mem_free (List.mem_append_left _ htaken))
    · exact fun hs => hfree (h.mem_free (List.mem_append_right _ hs))

/-- What `mappages` of one frame leaves, before the frame is counted as added. -/
structure Placed (r : Pa) (v : Nat) (mem : Pa) (perm : BitVec 32) (pg : Bytes PGSIZE) (s : State) (res : Int)
    (taken : List Pa)
    (s' : State) : Prop where
  table : Table r s'
  freelist : s.freelist.Perm (mem :: (taken ++ s'.freelist))
  node : ∀ a, Node s'.ram r a ↔ Node s.ram r a ∨ a ∈ taken
  other : ¬ Node s'.ram r mem
  bytes : s'.ram mem = pg
  frame : ∀ a, ¬ Node s.ram r a → a ∉ s.freelist → s'.ram a = s.ram a
  result : res = 0 ∧ Leaves s'.ram r (update (leaf s.ram r) v (some (pageEntry mem perm 0))) ∨
    res = -1 ∧ Leaves s'.ram r (leaf s.ram r) ∧ s'.freelist = []

theorem place (ht : Table r s) (hv : (v + 1) * PGSIZE ≤ MAXVA) (ha : a.toNat = v * PGSIZE)
    (hnone : leaf s.ram r v = none)
    (hfree : s.freelist = mem :: rest) (perm : BitVec 32) (pg : Bytes PGSIZE) :
    ∃ res taken s', mappages r a 4096 mem perm ⟨update s.ram mem pg, rest⟩ = .ok res s' ∧
      Placed r v mem perm pg s res taken s' := by
  have hM : MAXVA = 2 ^ 38 := rfl
  rw [PGSIZE_eq] at hv ha
  have hvpn : a.toNat / PGSIZE = v := by rw [PGSIZE_eq]; omega
  have hpages : pagesOf a 4096 = 1 := by
    rw [pagesOf, toNat_4096, PGSIZE_eq]
    omega
  obtain ⟨htable, hsame⟩ := ht.take hfree pg
  have hleaf1 : ∀ v, leaf (update s.ram mem pg) r v = leaf s.ram r v := leaf_of_same hsame
  obtain ⟨res, m, taken, s', hmap, hm⟩ := mappages_spec a 4096 mem perm htable (by decide)
    (by rw [toNat_4096, PGSIZE_eq]; omega) fun j hj => by
      obtain rfl : j = 0 := by omega
      change leaf (update s.ram mem pg) r _ = none
      rw [hleaf1, hvpn, Nat.add_zero, hnone]
  rw [hpages] at hm
  have hrest : rest = taken ++ s'.freelist := hm.grows.freelist
  have hnode : ∀ a, Node s'.ram r a ↔ Node s.ram r a ∨ a ∈ taken := by
    intro a
    rw [hm.grows.node]
    exact or_congr (node_of_same fun p hp => lookup_of_same hsame hp) Iff.rfl
  have hmem : mem ∈ s.freelist := by rw [hfree]; exact List.mem_cons_self
  have hother : ¬ Node s'.ram r mem := by
    rw [hnode]
    have hnd := ht.nodup
    rw [hfree, hrest] at hnd
    exact fun hor => hor.elim (ht.free_fresh mem hmem) fun h => (List.nodup_cons.mp hnd).1 (List.mem_append_left _ h)
  refine ⟨res, taken, s', hmap, htable.of_grows hm.grows, by rw [hfree, hrest], hnode, hother, ?_, ?_, ?_⟩
  · rw [hm.grows.frame mem hother]
    exact update_self ..
  · intro a ha hafree
    have hane : a ≠ mem := fun h => hafree (h ▸ hmem)
    rw [hm.grows.frame a]
    · exact update_of_ne hane ..
    · rw [hnode]
      exact fun hor => hor.elim ha fun h =>
        hafree (by rw [hfree, hrest]; exact List.mem_cons_of_mem _ (List.mem_append_left _ h))
  · have hleaves : Leaves s'.ram r (mapRange (leaf s.ram r) v m (pageEntry mem perm)) := by
      have h := hm.leaves
      rw [hvpn] at h
      exact Leaves.mapRange (fun v _ => hleaf1 v) h
    rcases hm.result with ⟨h0, hm1⟩ | ⟨h1, hm0, hempty⟩
    · rw [hm1, ← mapRange_succ, mapRange_zero] at hleaves
      exact .inl ⟨h0, hleaves⟩
    · rw [show m = 0 by omega, mapRange_zero] at hleaves
      exact .inr ⟨h1, hleaves, hempty⟩

theorem pte2pa_pageEntry (hal : mem.toNat % PGSIZE = 0) (hperm : (perm.signExtend 64 ||| PTE_V).toNat < 1024) :
    pte2pa (pageEntry mem perm 0) = mem := by
  rw [pageEntry_zero, BitVec.or_assoc]
  exact pte2pa_pa2pte hal hperm

section

variable (h₀ : Table r s₀) (h : Adding r P base k s₀ taken s)

include h₀ h

theorem add (hv : base + k < 512 ^ 3) (hmem : mem ∈ s.freelist)
    (hperm : (perm.signExtend 64 ||| PTE_V).toNat < 1024) (hp : Placed r (base + k) mem perm pg s 0 taken' s')
    (hP : P (base + k) (pageEntry mem perm 0) pg) : Adding r P base (k + 1) s₀ (taken ++ taken') s' := by
  have hleaves := hp.result.resolve_right (fun h => by cases h.1) |>.2
  have hpte := pte2pa_pageEntry (h.table.free_aligned mem hmem) hperm
  have hother : ∀ v, v < 512 ^ 3 → v ≠ base + k → leaf s'.ram r v = leaf s.ram r v := fun v hv hvk => by
    rw [hleaves v hv, update_of_ne hvk]
  have hnew : leaf s'.ram r (base + k) = some (pageEntry mem perm 0) := by rw [hleaves _ hv, update_self]
  obtain ⟨hperm', hnode', hadded, hframe'⟩ :=
  h.keep h₀ (show s.freelist.Perm ([mem] ++ (taken' ++ s'.freelist)) from hp.freelist)
    hp.node (fun v h1 h2 => hother v (by omega) (by omega)) hp.frame
  refine ⟨hp.table, ?_, hnode', fun v h1 h2 => ?_, fun v hv hvk => ?_, hframe'⟩
  · rw [frames_concat hnew, hpte, List.append_assoc]
    exact hperm'
  · by_cases hlt : v < base + k
    · exact hadded v h1 hlt
    · obtain rfl : v = base + k := by omega
      exact ⟨_, hnew, by rw [hpte, hp.bytes]; exact hP⟩
  · rw [hother v hv (by omega), h.leaves v hv (by omega)]

theorem drop (hmem : mem ∈ s.freelist) (hk : base + k < 512 ^ 3)
    (hram : kend ≤ mem.toNat ∧ mem.toNat < PHYSTOP) (hp : Placed r (base + k) mem perm pg s (-1) taken' s') :
    ∃ s'', kfree kend mem s' = .ok () s'' ∧ Adding r P base k s₀ (taken ++ taken') s'' := by
  have hleaves := hp.result.resolve_left (fun h => by cases h.1) |>.2.1
  have hal := h.table.free_aligned mem hmem
  obtain ⟨s'', hkf, hu, hsame⟩ := kfree_spec hal ⟨hram.1, hram.2, hp.other⟩
  have hleaf : ∀ v, v < 512 ^ 3 → leaf s''.ram r v = leaf s.ram r v := fun v hv => by
    rw [leaf_of_same hsame, hleaves v hv]
  have hfl : s''.freelist = mem :: s'.freelist := hu.freelist
  have hnotin : mem ∉ s'.freelist := by
    have hnd := hp.freelist.nodup_iff.mp h.table.nodup
    exact fun h => (List.nodup_cons.mp hnd).1 (List.mem_append_right _ h)
  have ht : Table r s'' := by
    refine hp.table.of_unmaps hu (List.nodup_cons.mpr ⟨hnotin, hp.table.nodup⟩) ?_ ?_
    · intro a ha
      rwa [List.mem_singleton.mp ha]
    · intro a ha
      rw [List.mem_singleton.mp ha]
      exact hp.other
  have hperm : s.freelist.Perm ([] ++ (taken' ++ s''.freelist)) := by
    rw [hfl]
    exact hp.freelist.trans List.perm_middle.symm
  obtain ⟨hperm', hnode', hadded, hframe'⟩ := h.keep h₀ hperm (fun a => by rw [node_of_same hu.lookup_eq, hp.node])
    (fun v _ h2 => hleaf v (by omega)) fun a ha hafree => by
      rw [hu.frame a, hp.frame a ha hafree]
      · rw [hp.node]
        exact fun hor => hor.elim ha fun htk =>
          hafree (hp.freelist.mem_iff.mpr (List.mem_cons_of_mem _ (List.mem_append_left _ htk)))
      · exact fun h => hafree (List.mem_singleton.mp h ▸ hmem)
  refine ⟨s'', hkf, ht, hperm', hnode', hadded, fun v hv hvk => ?_, hframe'⟩
  rw [hleaf v hv, h.leaves v hv hvk]

theorem removable (hram : ∀ a ∈ s₀.freelist, kend ≤ a.toNat ∧ a.toNat < PHYSTOP)
    (hflags : ∀ v e pg, P v e pg → pteFlags e ≠ PTE_V) {j : Nat} (hj : j < k) :
    Removable kend true s.ram r (base + j) := by
  obtain ⟨e, he, hP⟩ := h.added (base + j) (by omega) (by omega)
  have hmem := mem_frames hj he
  obtain ⟨h1, h2⟩ := hram _ (h.frame_mem hmem)
  exact ⟨e, he, hflags _ _ _ hP, fun _ => ⟨h1, h2, (h.frame_other h₀ hmem).1⟩⟩

theorem undone (hnone : ∀ v, base ≤ v → v < base + k → leaf s₀.ram r v = none)
    (hu : Unmaps r (frames s.ram r base k) s s') (hleaves : Leaves s'.ram r (unmapRange (leaf s.ram r) base k)) :
    Adding r P base 0 s₀ taken s' := by
  have hnd : (frames s.ram r base k ++ s.freelist).Nodup := by
    refine List.Nodup.sublist ?_ (h.nodup h₀.nodup)
    exact (List.sublist_append_right taken s.freelist).append_left _
  refine ⟨h.table.of_unmaps hu hnd (fun a ha => h₀.free_aligned a (h.frame_mem ha)) fun a ha =>
    (h.frame_other h₀ ha).1, ?_,
    fun a => by rw [node_of_same hu.lookup_eq, h.node], fun v h1 h2 => by omega, fun v hv _ => ?_, fun a ha hfree => ?_⟩
  · rw [hu.freelist]
    refine h.perm.trans (List.perm_iff_count.mpr fun a => ?_)
    simp only [frames, List.range'_zero, List.map_nil, List.nil_append, List.count_append, List.count_reverse]
    omega
  · rw [hleaves v hv, unmapRange]
    by_cases hvk : base ≤ v ∧ v < base + k
    · rw [if_pos hvk, hnone v hvk.1 hvk.2]
    · rw [if_neg hvk, h.leaves v hv (by omega)]
  · rw [hu.frame a, h.frame a ha hfree]
    · rw [h.node]
      exact fun hor => hor.elim ha fun ht => hfree (h.mem_free (List.mem_append_left _ ht))
    · exact fun hin => hfree (h.frame_mem hin)

end

end Adding

end Xv6.Vm

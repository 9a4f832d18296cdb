import Mathlib.Data.Set.Finite.Lattice
import Xv6.Sys.Run

/-!
# Names and link counts

The link count of an inode is the number of entries that name it and, for a directory, the number of its
subdirectories, whose `..` names it. `Linked U D c` says so of the inodes in `U`, up to a credit `c`: links
that a call has counted already and not made yet, or removed already and not uncounted yet. Each update a
call makes changes entries and credits by one.
-/

namespace Xv6.Sys

open Function (update update_of_ne update_self)

variable {D D' : Disk} {U U' : Nat → Prop} {c c' : Nat → Nat} {i d k a : Nat} {e : Nat × Nat}
variable {de : Dirent} {dp ip j : Nat} {major minor n type : BitVec 16} {name : Name}
variable {x : Node}

/-! ## Entries -/

/-- Entry `k` is in use and has a name; entries 0 and 1 are `.` and `..`. -/
def Node.named (x : Node) (k : Nat) : Prop := 2 ≤ k ∧ x.has k ∧ (x.ents k).inum ≠ 0

/-- The inode that an entry names. -/
def Node.target (x : Node) (k : Nat) : Nat := (x.ents k).inum.toNat

/-- Entry `e.2` of the directory `e.1` names `i`. -/
def Ent (D : Disk) (e : Nat × Nat) (i : Nat) : Prop :=
  (D e.1).type = T_DIR ∧ (D e.1).named e.2 ∧ (D e.1).target e.2 = i

/-- An entry of one of the directories in `U`. -/
def Entry (U : Nat → Prop) (D : Disk) (e : Nat × Nat) (i : Nat) : Prop := U e.1 ∧ Ent D e i

/-- An entry of the directory `d` that names a directory. -/
def Sub (U : Nat → Prop) (D : Disk) (e : Nat × Nat) (d : Nat) : Prop :=
  e.1 = d ∧ ∃ i, Entry U D e i ∧ (D i).type = T_DIR

/-- Entries 0 and 1 of a directory. -/
structure Dots (d : Nat) (x : Node) : Prop where
  aligned : x.size % DIRENT = 0
  two : x.has 1
  dot : x.target 0 = d ∧ namecmp (x.ents 0).name .dot = 0
  dotdot : (x.ents 1).inum ≠ 0 ∧ namecmp (x.ents 1).name .dotdot = 0

/-- Two inodes have the same entries. -/
def Node.Same (x y : Node) : Prop := x.type = y.type ∧ (x.type = T_DIR → x.size = y.size ∧ x.ents = y.ents)

theorem Node.Same.refl (x : Node) : x.Same x := ⟨rfl, fun _ => ⟨rfl, rfl⟩⟩

theorem Ent.unique (h : Ent D e i) (h' : Ent D e j) : i = j := h.2.2.symm.trans h'.2.2

theorem Ent.of_same (hs : (D e.1).Same (D' e.1)) (h : Ent D e i) : Ent D' e i := by
  obtain ⟨ht, hn, hi⟩ := h
  obtain ⟨htype, hrest⟩ := hs
  obtain ⟨hsize, hents⟩ := hrest ht
  refine ⟨htype ▸ ht, ?_, ?_⟩
  · unfold Node.named Node.has at hn ⊢
    rwa [← hsize, ← hents]
  · unfold Node.target at hi ⊢
    rwa [← hents]

theorem Node.Same.symm {y : Node} (h : x.Same y) : y.Same x :=
  ⟨h.1.symm, fun ht => ⟨(h.2 (h.1.trans ht)).1.symm, (h.2 (h.1.trans ht)).2.symm⟩⟩

theorem Dots.of_same {y : Node} (h : Dots d x) (ht : x.type = T_DIR) (hs : x.Same y) : Dots d y := by
  obtain ⟨hsize, hents⟩ := hs.2 ht
  refine ⟨hsize ▸ h.aligned, ?_, ?_, ?_⟩
  · have := h.two
    unfold Node.has at this ⊢
    rwa [← hsize]
  · have := h.dot
    unfold Node.target at this ⊢
    rwa [← hents]
  · rw [← hents]
    exact h.dotdot

theorem addLink_same (j : Nat) : (D j).Same (addLink D i n j) := by simp [Node.Same]

theorem trunc_same (h : (D ip).type = T_FILE) (j : Nat) :
    (D j).Same (update D ip (D ip).trunc j) ∧ (D j).nlink = (update D ip (D ip).trunc j).nlink := by
  by_cases hj : j = ip
  · subst hj
    rw [update_self]
    refine ⟨⟨rfl, fun ht => ?_⟩, rfl⟩
    rw [h] at ht
    exact absurd ht (by decide)
  · rw [update_of_ne hj]
    exact ⟨.refl _, rfl⟩

theorem ent_addLink : Ent (addLink D i n) e j ↔ Ent D e j :=
  ⟨Ent.of_same (addLink_same e.1).symm, Ent.of_same (addLink_same e.1)⟩

theorem FreeSlot.two_le (h : FreeSlot x k) (hd : Dots d x) (hpos : 0 < d) : 2 ≤ k := by
  have hD : DIRENT = 16 := rfl
  have h1 : x.has 1 := hd.two
  have h0 : x.has 0 := by
    unfold Node.has at h1 ⊢
    rw [hD] at h1 ⊢
    omega
  by_contra hk
  obtain rfl | rfl : k = 0 ∨ k = 1 := by omega
  · have h0 := h.free h0
    have hdot := hd.dot.1
    unfold Node.target at hdot
    rw [h0] at hdot
    simp at hdot
    omega
  · exact hd.dotdot.1 (h.free h1)

theorem Found.two_le (h : Found x name (some k)) (hd : Dots d x)
    (hdot : namecmp name .dot ≠ 0) (hdotdot : namecmp name .dotdot ≠ 0) : 2 ≤ k := by
  obtain ⟨-, -, hname⟩ := h.entry
  by_contra hk
  obtain rfl | rfl : k = 0 ∨ k = 1 := by omega
  · refine hdot (namecmp_eq_zero.mpr ?_)
    exact (namecmp_eq_zero.mp hname).trans (namecmp_eq_zero.mp hd.dot.2)
  · refine hdotdot (namecmp_eq_zero.mpr ?_)
    exact (namecmp_eq_zero.mp hname).trans (namecmp_eq_zero.mp hd.dotdot.2)

theorem putEnt_self (de : Dirent) : putEnt D d k de d =
    { D d with size := max (D d).size (DIRENT * k + DIRENT), ents := update (D d).ents k de } :=
  update_self ..

theorem putEnt_of_ne (hj : j ≠ d) : putEnt D d k de j = D j := update_of_ne hj ..

@[simp] theorem putEnt_type : (putEnt D d k de j).type = (D j).type := by
  by_cases hj : j = d
  · rw [hj, putEnt_self]
  · rw [putEnt_of_ne hj]

@[simp] theorem putEnt_nlink : (putEnt D d k de j).nlink = (D j).nlink := by
  by_cases hj : j = d
  · rw [hj, putEnt_self]
  · rw [putEnt_of_ne hj]

theorem has_putEnt (h : FreeSlot (D d) k) : (putEnt D d k de d).has j ↔ (D d).has j ∨ j = k := by
  have hD : DIRENT = 16 := rfl
  have hnext := h.next
  have hal := h.aligned
  rw [putEnt_self]
  unfold Node.has at hal ⊢
  simp only [hD] at hnext hal ⊢
  omega

theorem ent_putEnt_of_ne (hd : e.1 ≠ d) : Ent (putEnt D d k de) e i ↔ Ent D e i := by
  unfold Ent
  rw [putEnt_of_ne hd]

theorem ent_add (hdir : (D d).type = T_DIR) (hfree : FreeSlot (D d) k) (hk : 2 ≤ k)
    (hinum : de.inum.toNat = a) (ha : 0 < a) (e : Nat × Nat) (i : Nat) :
    Ent (putEnt D d k de) e i ↔ Ent D e i ∨ e = (d, k) ∧ i = a := by
  obtain ⟨d', j⟩ := e
  by_cases hd : d' = d
  · subst hd
    have hne : de.inum ≠ 0 := by
      rintro h
      rw [h] at hinum
      simp at hinum
      omega
    unfold Ent Node.named Node.target
    simp only [putEnt_type, has_putEnt hfree, hdir, true_and]
    by_cases hj : j = k
    · subst hj
      have hnone : ¬ ((D d').has j ∧ ((D d').ents j).inum ≠ 0) := fun h => h.2 (hfree.free h.1)
      rw [putEnt_self]
      simp only [update_self, hinum, or_true, true_and, hk, hne, ne_eq, not_false_eq_true]
      constructor
      · exact fun h => .inr h.symm
      · rintro (h | h)
        · exact absurd h.1 hnone
        · exact h.symm
    · rw [putEnt_self]
      simp [hj]
  · rw [ent_putEnt_of_ne hd]
    simp [hd]

theorem ent_remove (h : Ent D (d, k) a) (e : Nat × Nat) (i : Nat) :
    Ent D e i ↔ Ent (putEnt D d k {}) e i ∨ e = (d, k) ∧ i = a := by
  obtain ⟨d', j⟩ := e
  have hsize : max (D d).size (DIRENT * k + DIRENT) = (D d).size := max_eq_left h.2.1.2.1
  by_cases hd : d' = d
  · subst hd
    by_cases hj : j = k
    · subst hj
      constructor
      · exact fun hi => .inr ⟨rfl, hi.unique h⟩
      · rintro (hi | hi)
        · refine absurd rfl (?_ : (0 : BitVec 16) ≠ 0)
          have := hi.2.1.2.2
          rw [putEnt_self] at this
          simp at this
        · rw [hi.2]
          exact h
    · unfold Ent Node.named Node.target Node.has
      simp [putEnt_self, hsize, hj]
  · rw [ent_putEnt_of_ne hd]
    simp [hd]

theorem entry_add (hd : U d) (h : ∀ e i, Ent D' e i ↔ Ent D e i ∨ e = (d, k) ∧ i = a) (e : Nat × Nat) (i : Nat) :
    Entry U D' e i ↔ Entry U D e i ∨ e = (d, k) ∧ i = a := by
  unfold Entry
  rw [h]
  constructor
  · rintro ⟨hU, he | he⟩
    · exact .inl ⟨hU, he⟩
    · exact .inr he
  · rintro (he | ⟨rfl, he⟩)
    · exact ⟨he.1, .inl he.2⟩
    · exact ⟨hd, .inr ⟨rfl, he⟩⟩

/-! ## Link counts -/

/-- The law of link counts for the inodes in `U`, with a credit of `c`. -/
structure Linked (U : Nat → Prop) (D : Disk) (c : Nat → Nat) : Prop where
  range : ∀ i, U i → 0 < i ∧ i < 2 ^ 16 ∧ (D i).type ≠ 0
  root : U ROOTINO ∧ (D ROOTINO).type = T_DIR
  dots : ∀ d, U d → (D d).type = T_DIR → Dots d (D d)
  closed : ∀ e i, Entry U D e i → U i
  links : ∀ i, U i → (D i).nlink.toNat =
    Graph.count (Entry U D) i + Graph.count (Sub U D) i + (if i = ROOTINO then 1 else 0) + c i

theorem sources_finite (h : ∀ i, U i → i < 2 ^ 16) : {e | ∃ i, Entry U D e i}.Finite := by
  have hfin : (⋃ d ∈ {d | d < 2 ^ 16}, ({d} : Set ℕ) ×ˢ {k | k < (D d).size}).Finite :=
    Set.Finite.biUnion (Set.finite_lt_nat _) fun d _ => (Set.finite_singleton d).prod (Set.finite_lt_nat _)
  refine hfin.subset ?_
  rintro ⟨d, k⟩ ⟨i, hU, -, ⟨-, hk, -⟩, -⟩
  simp only [Set.mem_iUnion]
  refine ⟨d, h d hU, rfl, ?_⟩
  have hk : (D d).has k := hk
  unfold Node.has at hk
  rw [show DIRENT = 16 from rfl] at hk
  exact (by omega : k < (D d).size)

theorem Linked.finite (h : Linked U D c) : Graph.Finite (Entry U D) := fun i =>
  (sources_finite fun i hi => (h.range i hi).2.1).subset fun _ he => ⟨i, he⟩

theorem Linked.sub_finite (h : Linked U D c) : Graph.Finite (Sub U D) := fun _ =>
  (sources_finite fun i hi => (h.range i hi).2.1).subset fun _ ⟨_, i, he, _⟩ => ⟨i, he⟩

theorem Linked.cast (h : Linked U D c) (hc : ∀ i, U i → c i = c' i) : Linked U D c' :=
  { h with links := fun i hi => by rw [← hc i hi]; exact h.links i hi }

theorem Linked.congr (h : Linked U D c) (hs : ∀ i, U i → (D i).Same (D' i) ∧ (D i).nlink = (D' i).nlink) :
    Linked U D' c := by
  have hent : ∀ e i, Entry U D e i ↔ Entry U D' e i := fun e i =>
    ⟨fun hi => ⟨hi.1, hi.2.of_same (hs e.1 hi.1).1⟩, fun hi => ⟨hi.1, hi.2.of_same (hs e.1 hi.1).1.symm⟩⟩
  have hsub : ∀ e i, Sub U D e i ↔ Sub U D' e i := fun e i => by
    unfold Sub
    refine and_congr_right fun _ => exists_congr fun j => ?_
    rw [← hent]
    exact and_congr_right fun hj => by rw [(hs j (h.closed e j hj)).1.1]
  refine ⟨fun i hi => ?_, ⟨h.root.1, ?_⟩, fun d hd ht => ?_, fun e i hi => h.closed e i ((hent e i).mpr hi),
    fun i hi => ?_⟩
  · rw [← (hs i hi).1.1]
    exact h.range i hi
  · rw [← (hs _ h.root.1).1.1]
    exact h.root.2
  · rw [← (hs d hd).1.1] at ht
    exact (h.dots d hd ht).of_same ht (hs d hd).1
  · rw [← (hs i hi).2, h.links i hi, Graph.count_congr fun e => hent e i, Graph.count_congr fun e => hsub e i]

theorem toNat_inc {x : BitVec 16} (h : x.toNat + 1 < 2 ^ 16) : (x + 1).toNat = x.toNat + 1 := by
  rw [BitVec.toNat_add]
  exact Nat.mod_eq_of_lt h

theorem toNat_dec {x : BitVec 16} (h : 0 < x.toNat) : (x + -1).toNat + 1 = x.toNat := by
  have hlt := x.isLt
  rw [BitVec.toNat_add, show (-1 : BitVec 16).toNat = 2 ^ 16 - 1 from rfl]
  omega

theorem Linked.addLink (h : Linked U D c) (hc : ∀ j, j ≠ i → c j = c' j)
    (hi : U i → (D i).nlink.toNat + c' i = ((D i).nlink + n).toNat + c i) : Linked U (Sys.addLink D i n) c' := by
  have hent : ∀ e j, Entry U (Sys.addLink D i n) e j ↔ Entry U D e j := fun e j => and_congr_right fun _ => ent_addLink
  have hsub : ∀ e j, Sub U (Sys.addLink D i n) e j ↔ Sub U D e j := fun e j => by simp [Sub, hent]
  refine ⟨fun j hj => by simpa using h.range j hj, by simpa using h.root, fun d hd ht => ?_,
    fun e j hj => h.closed e j ((hent e j).mp hj), fun j hj => ?_⟩
  · rw [addLink_type] at ht
    exact (h.dots d hd ht).of_same ht (addLink_same d)
  · have hlinks := h.links j hj
    rw [Graph.count_congr fun e => hent e j, Graph.count_congr fun e => hsub e j]
    by_cases hji : j = i
    · subst hji
      have := hi hj
      rw [addLink_nlink]
      omega
    · rw [addLink_of_ne hji, ← hc j hji, hlinks]

theorem Linked.inc (h : Linked U D c) (hmax : U i → (D i).nlink.toNat + 1 < 2 ^ 16) :
    Linked U (Sys.addLink D i 1) fun j => c j + if j = i then 1 else 0 := by
  refine h.addLink (fun j hj => by simp [hj]) fun hi => ?_
  rw [toNat_inc (hmax hi), if_pos rfl]
  omega

theorem Linked.dec (h : Linked U D fun j => c j + if j = i then 1 else 0) : Linked U (Sys.addLink D i (-1)) c := by
  refine h.addLink (fun j hj => by simp [hj]) fun hi => ?_
  have hlinks := h.links i hi
  rw [if_pos rfl] at hlinks ⊢
  have := toNat_dec (x := (D i).nlink) (by omega)
  omega

theorem counts_add (hfin : Graph.Finite (Entry U D)) (hsub : Graph.Finite (Sub U D))
    (hent : ∀ e' j, Entry U D' e' j ↔ Entry U D e' j ∨ e' = e ∧ j = a) (hnone : ∀ j, ¬ Entry U D e j)
    (htype : ∀ j, (D' j).type = (D j).type) (j : Nat) : Graph.count (Entry U D') j + Graph.count (Sub U D') j =
      Graph.count (Entry U D) j + Graph.count (Sub U D) j + (if j = a then 1 else 0) +
        if j = e.1 ∧ (D a).type = T_DIR then 1 else 0 := by
  have hcount : Graph.count (Entry U D') j = Graph.count (Entry U D) j + if j = a then 1 else 0 :=
    Graph.count_add hfin (hnone a) hent
  have hsub' : ∀ e' d, Sub U D' e' d ↔ Sub U D e' d ∨ (D a).type = T_DIR ∧ e' = e ∧ d = e.1 := fun e' d => by
    simp only [Sub, hent, htype]
    constructor
    · rintro ⟨rfl, i, hi | ⟨rfl, rfl⟩, ht⟩
      · exact .inl ⟨rfl, i, hi, ht⟩
      · exact .inr ⟨ht, rfl, rfl⟩
    · rintro (⟨rfl, i, hi, ht⟩ | ⟨ht, rfl, rfl⟩)
      · exact ⟨rfl, i, .inl hi, ht⟩
      · exact ⟨rfl, a, .inr ⟨rfl, rfl⟩, ht⟩
  by_cases ht : (D a).type = T_DIR
  · have hs : Graph.count (Sub U D') j = Graph.count (Sub U D) j + if j = e.1 then 1 else 0 :=
      Graph.count_add hsub (fun ⟨_, i, hi, _⟩ => hnone i hi) fun e' d => by simp [hsub', ht]
    simp only [hcount, hs, ht, and_true]
    omega
  · have hs : Graph.count (Sub U D') j = Graph.count (Sub U D) j := Graph.count_congr fun e' => by simp [hsub', ht]
    simp only [hcount, hs, ht, and_false, if_false]
    omega

theorem Dots.putEnt (h : Dots j (D j)) (hk : 2 ≤ k) : Dots j (Sys.putEnt D d k de j) := by
  have hD : DIRENT = 16 := rfl
  by_cases hj : j = d
  · subst hj
    obtain ⟨hal, htwo, hdot, hdotdot⟩ := h
    unfold Node.has at htwo
    unfold Node.target at hdot
    rw [putEnt_self]
    refine ⟨?_, ?_, ?_, ?_⟩
    · simp only [hD] at hal ⊢
      omega
    · simp only [Node.has, hD] at htwo ⊢
      omega
    · simpa only [Node.target, update_of_ne (show 0 ≠ k by omega)] using hdot
    · simpa only [update_of_ne (show 1 ≠ k by omega)] using hdotdot
  · rwa [putEnt_of_ne hj]

theorem Linked.add (h : Linked U D fun j => c j + (if j = a then 1 else 0) +
      if j = d ∧ (D a).type = T_DIR then 1 else 0) (hd : U d) (hdir : (D d).type = T_DIR) (ha : U a)
    (hfree : FreeSlot (D d) k) (hinum : de.inum.toNat = a) : Linked U (putEnt D d k de) c := by
  have hk : 2 ≤ k := hfree.two_le (h.dots d hd hdir) (h.range d hd).1
  have hent : ∀ e j, Entry U (putEnt D d k de) e j ↔ Entry U D e j ∨ e = (d, k) ∧ j = a :=
    entry_add hd (ent_add hdir hfree hk hinum (h.range a ha).1)
  have hnone : ∀ j, ¬ Entry U D (d, k) j := fun j hj => hj.2.2.1.2.2 (hfree.free hj.2.2.1.2.1)
  refine ⟨fun j hj => by simpa using h.range j hj, by simpa using h.root, fun j hj ht => ?_,
    fun e j hj => ?_, fun j hj => ?_⟩
  · rw [putEnt_type] at ht
    exact (h.dots j hj ht).putEnt hk
  · rcases (hent e j).mp hj with he | ⟨-, rfl⟩
    · exact h.closed e j he
    · exact ha
  · have hlinks := h.links j hj
    have hcounts := counts_add h.finite h.sub_finite hent hnone (fun j => putEnt_type) j
    rw [putEnt_nlink]
    dsimp only at hlinks hcounts
    omega

theorem Linked.remove (h : Linked U D c) (he : Entry U D (d, k) a) : Linked U (putEnt D d k {})
    fun j => c j + (if j = a then 1 else 0) + if j = d ∧ (D a).type = T_DIR then 1 else 0 := by
  have hk : 2 ≤ k := he.2.2.1.1
  have hent : ∀ e j, Entry U D e j ↔ Entry U (putEnt D d k {}) e j ∨ e = (d, k) ∧ j = a :=
    entry_add he.1 (ent_remove he.2)
  have hsub : ∀ e j, Sub U (putEnt D d k {}) e j → Sub U D e j := fun e j ⟨hj, i, hi, ht⟩ =>
    ⟨hj, i, (hent e i).mpr (.inl hi), by simpa using ht⟩
  have hnone : ∀ j, ¬ Entry U (putEnt D d k {}) (d, k) j := fun j hj => hj.2.2.1.2.2 (by rw [putEnt_self]; simp)
  refine ⟨fun j hj => by simpa using h.range j hj, by simpa using h.root, fun j hj ht => ?_,
    fun e j hj => h.closed e j ((hent e j).mpr (.inl hj)), fun j hj => ?_⟩
  · rw [putEnt_type] at ht
    exact (h.dots j hj ht).putEnt hk
  · have hlinks := h.links j hj
    have hcounts := counts_add (h.finite.mono fun e j hj => (hent e j).mpr (.inl hj))
      (h.sub_finite.mono hsub) hent hnone
      (fun j => putEnt_type.symm) j
    rw [putEnt_type] at hcounts
    rw [putEnt_nlink]
    dsimp only at hcounts
    omega

theorem Linked.drop (h : Linked U D c) (hnone : ∀ e, ¬ Entry U D e i) (hroot : i ≠ ROOTINO) :
    ∃ c', (∀ j, U j → c j ≤ c' j) ∧ Linked (fun j => U j ∧ j ≠ i) D c' := by
  have hent : ∀ e j, Entry (fun j => U j ∧ j ≠ i) D e j → Entry U D e j := fun e j he => ⟨he.1.1, he.2⟩
  have hsub : ∀ e j, Sub (fun j => U j ∧ j ≠ i) D e j → Sub U D e j := fun e j ⟨hj, a, ha, ht⟩ =>
    ⟨hj, a, hent e a ha, ht⟩
  have hcount : ∀ j, Graph.count (Entry (fun j => U j ∧ j ≠ i) D) j + Graph.count (Sub (fun j => U j ∧ j ≠ i) D) j ≤
      Graph.count (Entry U D) j + Graph.count (Sub U D) j := fun j =>
    Nat.add_le_add (Graph.count_mono h.finite fun e he => hent e j he)
    (Graph.count_mono h.sub_finite fun e he => hsub e j he)
  refine ⟨fun j => c j + (Graph.count (Entry U D) j + Graph.count (Sub U D) j -
    (Graph.count (Entry (fun j => U j ∧ j ≠ i) D) j + Graph.count (Sub (fun j => U j ∧ j ≠ i) D) j)),
    fun j _ => Nat.le_add_right .., fun j hj => h.range j hj.1, ⟨⟨h.root.1, Ne.symm hroot⟩, h.root.2⟩,
    fun d hd => h.dots d hd.1, fun e j he => ⟨h.closed e j (hent e j he), ?_⟩, fun j hj => ?_⟩
  · rintro rfl
    exact hnone e (hent e j he)
  · have := h.links j hj.1
    have := hcount j
    omega

/-- No entry names the inode, and it has none itself. -/
def Loose (U : Nat → Prop) (D : Disk) (i : Nat) : Prop := (∀ e, ¬ Entry U D e i) ∧ ∀ k j, ¬ Ent D (i, k) j

theorem Linked.restrict (h : Linked U D c) (hU : ∀ i, U' i → U i) (hroot : U' ROOTINO)
    (hloose : ∀ i, U i → ¬ U' i → Loose U D i) : Linked U' D c := by
  have hent : ∀ e j, Entry U' D e j ↔ Entry U D e j := fun e j => by
    refine ⟨fun he => ⟨hU _ he.1, he.2⟩, fun he => ⟨?_, he.2⟩⟩
    by_contra hn
    exact (hloose e.1 he.1 hn).2 e.2 j he.2
  have hsub : ∀ e j, Sub U' D e j ↔ Sub U D e j := fun e j => by simp only [Sub, hent]
  refine ⟨fun j hj => h.range j (hU j hj), ⟨hroot, h.root.2⟩, fun d hd => h.dots d (hU d hd), fun e j he => ?_,
    fun j hj => ?_⟩
  · by_contra hn
    have he := (hent e j).mp he
    exact (hloose j (h.closed e j he) hn).1 e he
  · rw [h.links j (hU j hj), Graph.count_congr fun e => hent e j, Graph.count_congr fun e => hsub e j]

theorem Linked.unnamed (h : Linked U D c) (hi : U i) (h0 : (D i).nlink = 0) :
    i ≠ ROOTINO ∧ c i = 0 ∧ (∀ e, ¬ Entry U D e i) ∧ ∀ e, ¬ Sub U D e i := by
  have hlinks := h.links i hi
  rw [h0, show (0 : BitVec 16).toNat = 0 from rfl] at hlinks
  refine ⟨?_, by omega, fun e => Graph.not_of_count_eq_zero h.finite (by omega),
    fun e => Graph.not_of_count_eq_zero h.sub_finite (by omega)⟩
  rintro rfl
  rw [if_pos rfl] at hlinks
  omega

theorem Linked.new (h : Linked U D c) (hi : ¬ U i) (hpos : 0 < i) (hlt : i < 2 ^ 16) (htype : x.type ≠ 0)
    (hlink : x.nlink = 1) (hdots : x.type = T_DIR → Dots i x) (hleaf : ∀ k, ¬ x.named k) :
    Linked (fun j => U j ∨ j = i) (update D i x) fun j => if j = i then 1 else c j := by
  have hne : ∀ j, U j → j ≠ i := fun j hj hji => hi (hji ▸ hj)
  have hent : ∀ e j, Entry (fun j => U j ∨ j = i) (update D i x) e j ↔ Entry U D e j := fun e j => by
    unfold Entry Ent
    by_cases he : e.1 = i
    · rw [he, update_self]
      simp [hleaf, hi]
    · simp [he]
  have hsub : ∀ e j, Sub (fun j => U j ∨ j = i) (update D i x) e j ↔ Sub U D e j := fun e j => by
    simp only [Sub, hent]
    refine and_congr_right fun _ => exists_congr fun a => and_congr_right fun ha => ?_
    rw [update_of_ne (hne a (h.closed e a ha))]
  refine ⟨fun j hj => ?_, ⟨.inl h.root.1, ?_⟩, fun d hd ht => ?_, fun e j he => .inl (h.closed e j ((hent e j).mp he)),
    fun j hj => ?_⟩
  · by_cases hji : j = i
    · rw [hji, update_self]
      exact ⟨hpos, hlt, htype⟩
    · rw [update_of_ne hji]
      exact h.range j (hj.resolve_right hji)
  · rw [update_of_ne (hne _ h.root.1)]
    exact h.root.2
  · by_cases hdi : d = i
    · rw [hdi, update_self] at ht ⊢
      exact hdots ht
    · rw [update_of_ne hdi] at ht ⊢
      exact h.dots d (hd.resolve_right hdi) ht
  · rw [Graph.count_congr fun e => hent e j, Graph.count_congr fun e => hsub e j]
    by_cases hji : j = i
    · subst hji
      have hzero : Graph.count (Entry U D) j = 0 := Graph.count_eq_zero fun e he => hi (h.closed e j he)
      have hzero' : Graph.count (Sub U D) j = 0 := Graph.count_eq_zero fun e ⟨hj, a, ha, _⟩ => hi (hj ▸ ha.1)
      rw [update_self, hlink, hzero, hzero', if_neg (Ne.symm (hne _ h.root.1)), if_pos rfl]
      rfl
    · rw [update_of_ne hji, if_neg hji]
      exact h.links j (hj.resolve_right hji)

/-! ## What calls do -/

theorem toNat_ofNat (h : i < 2 ^ 16) : (BitVec.ofNat 16 i).toNat = i := by
  rw [BitVec.toNat_ofNat]
  exact Nat.mod_eq_of_lt h

theorem Linked.link (h : Linked U D c) (hip : U ip) (hdp : U dp) (hfile : (D ip).type ≠ T_DIR)
    (hdir : (D dp).type = T_DIR) (hfree : FreeSlot (D dp) k) (hmax : (D ip).nlink.toNat + 1 < 2 ^ 16) :
    Linked U (putEnt (Sys.addLink D ip 1) dp k ⟨BitVec.ofNat 16 ip, name⟩) c := by
  have hne : dp ≠ ip := by
    rintro rfl
    exact hfile hdir
  refine ((h.inc fun _ => hmax).cast fun j _ => ?_).add hdp (by simpa using hdir) hip (by rwa [addLink_of_ne hne])
    (toNat_ofNat (h.range ip hip).2.1)
  simp [hfile]

theorem dots_newDir (hip : ip < 2 ^ 16) (hpos : 0 < dp) (hdp : dp < 2 ^ 16) :
    Dots ip (newDir ip dp major minor) where
  aligned := (by decide : 2 * DIRENT % DIRENT = 0)
  two := Nat.le_refl _
  dot := ⟨by simpa [newDir, Node.target] using Nat.mod_eq_of_lt hip, by
    rw [namecmp_eq_zero]
    simp [newDir]⟩
  dotdot := by
    refine ⟨fun h => ?_, ?_⟩
    · have := congrArg BitVec.toNat h
      simp only [newDir, update_self, toNat_ofNat hdp] at this
      simp at this
      omega
    · rw [namecmp_eq_zero]
      simp [newDir]

theorem newDir_target (hdp : dp < 2 ^ 16) : (newDir ip dp major minor).target 1 = dp := by
  simp only [newDir, Node.target, update_self]
  exact toNat_ofNat hdp

theorem newDir_leaf (k : Nat) : ¬ (newDir ip dp major minor).named k := by
  rintro ⟨hk, hx, -⟩
  unfold Node.has newDir at hx
  simp only [show DIRENT = 16 from rfl] at hx
  omega

theorem newNode_type : (newNode D dp ip type major minor ip).type = type := by
  unfold newNode
  split_ifs with ht
  · simp [newDir, ht]
  · simp

theorem Linked.newNode (h : Linked U D c) (hip : ¬ U ip)
    (hpos : 0 < ip) (hlt : ip < 2 ^ 16) (hdp : U dp) (htype : type ≠ 0) (hmax : (D dp).nlink.toNat + 1 < 2 ^ 16) :
    Linked (fun j => U j ∨ j = ip) (Sys.newNode D dp ip type major minor) fun j =>
      (if j = ip then 0 else c j) + (if j = ip then 1 else 0) +
        if j = dp ∧ (Sys.newNode D dp ip type major minor ip).type = T_DIR then 1 else 0 := by
  have hne : ip ≠ dp := by
    rintro rfl
    exact hip hdp
  rw [newNode_type]
  unfold Sys.newNode
  split_ifs with ht
  · refine ((h.inc fun _ => hmax).new hip hpos hlt (by decide : T_DIR ≠ 0) rfl
      (fun _ => dots_newDir hlt (h.range dp hdp).1 (h.range dp hdp).2.1) newDir_leaf).cast fun j _ => ?_
    by_cases hj : j = ip
    · simp [hj, hne]
    · simp [hj, ht]
  · refine (h.new hip hpos hlt htype rfl (fun h => absurd h ht) fun k hk => ?_).cast fun j _ => ?_
    · have := hk.2.1
      simp [Node.has, DIRENT] at this
    · by_cases hj : j = ip
      · simp [hj, ht]
      · simp [hj, ht]

theorem Linked.create (h : Linked U D c) (hip : ¬ U ip)
    (hpos : 0 < ip) (hlt : ip < 2 ^ 16) (hdp : U dp) (hdir : (D dp).type = T_DIR) (htype : type ≠ 0)
    (hfree : FreeSlot (D dp) k) (hmax : (D dp).nlink.toNat + 1 < 2 ^ 16) :
    Linked (fun j => U j ∨ j = ip)
      (putEnt (Sys.newNode D dp ip type major minor) dp k ⟨BitVec.ofNat 16 ip, name⟩)
      fun j => if j = ip then 0 else c j := by
  have hne : ip ≠ dp := by
    rintro rfl
    exact hip hdp
  obtain ⟨htype', hsize, hents⟩ := newNode_parent type major minor hne
  exact (h.newNode hip hpos hlt hdp htype hmax).add (.inl hdp) (htype'.trans hdir) (.inr rfl)
    (hfree.congr hsize.symm hents.symm) (toNat_ofNat hlt)

theorem Linked.removeEnt (h : Linked U D c) (he : Entry U D (dp, k) ip) :
    Linked U (Sys.removeEnt D dp k ip) fun j => c j + if j = ip then 1 else 0 := by
  unfold Sys.removeEnt
  have hrem := h.remove he
  split_ifs with ht
  · simp only [ht, and_true] at hrem
    exact hrem.dec
  · exact hrem.cast fun j _ => by simp [ht]

/-! ## The directory tree -/

/-- Some entry of `d` names `i`. -/
def Child (D : Disk) (d i : Nat) : Prop := ∃ k, Ent D (d, k) i

/-- The inodes that can be reached from the root. -/
def Reach (D : Disk) : Nat → Prop := Relation.ReflTransGen (Child D) ROOTINO

/-- Entries in use have different names. -/
def Node.Distinct (x : Node) : Prop :=
  ∀ j k, x.has j → x.has k → (x.ents j).inum ≠ 0 → (x.ents k).inum ≠ 0 → namecmp (x.ents j).name (x.ents k).name = 0 →
    j = k

/-- A well-formed file system, as far as it can be reached from the root. -/
structure WellFormed (D : Disk) : Prop where
  root : (D ROOTINO).type = T_DIR ∧ (D ROOTINO).target 1 = ROOTINO
  dots : ∀ d, Reach D d → (D d).type = T_DIR → Dots d (D d)
  distinct : ∀ d, Reach D d → (D d).type = T_DIR → (D d).Distinct
  allocated : ∀ d k, Reach D d → (D d).type = T_DIR → (D d).has k → ((D d).ents k).inum ≠ 0 →
    (D ((D d).target k)).type ≠ 0
  parent : ∀ i, Reach D i → (D i).type = T_DIR → i ≠ ROOTINO →
    ∃ k, ∀ e, Entry (Reach D) D e i ↔ e = ((D i).target 1, k)
  links : ∀ i, Reach D i → (D i).nlink.toNat =
    Graph.count (Entry (Reach D) D) i + Graph.count (Sub (Reach D) D) i + if i = ROOTINO then 1 else 0

/-- A file system in which nothing else is allocated. -/
structure Consistent (D : Disk) : Prop extends WellFormed D where
  reach : ∀ i, Alloc D i → Reach D i

theorem Reach.range (h : Reach D i) : 0 < i ∧ i < 2 ^ 16 := by
  induction h with
  | refl => decide
  | tail _ hc =>
    obtain ⟨k, -, ⟨-, -, h0⟩, rfl⟩ := hc
    refine ⟨Nat.pos_of_ne_zero fun h => h0 ?_, BitVec.isLt _⟩
    exact BitVec.eq_of_toNat_eq h

theorem Reach.named (h : Reach D i) (hi : i ≠ ROOTINO) : ∃ e, Entry (Reach D) D e i := by
  cases h with
  | refl => exact absurd rfl hi
  | tail hd hc =>
    obtain ⟨k, he⟩ := hc
    exact ⟨(_, k), hd, he⟩

theorem WellFormed.alloc (h : WellFormed D) (hi : Reach D i) : Alloc D i := by
  cases hi with
  | refl =>
    unfold Alloc
    rw [h.root.1]
    decide
  | tail hd hc =>
    obtain ⟨k, ht, hn, rfl⟩ := hc
    exact h.allocated _ k hd ht hn.2.1 hn.2.2

theorem WellFormed.linked (h : WellFormed D) : Linked (Reach D) D fun _ => 0 where
  range _ hi := ⟨hi.range.1, hi.range.2, h.alloc hi⟩
  root := ⟨.refl, h.root.1⟩
  dots := h.dots
  closed e _ he := he.1.tail ⟨e.2, he.2⟩
  links := h.links

theorem wellFormed_of_leaf (hdir : (D ROOTINO).type = T_DIR) (hdots : Dots ROOTINO (D ROOTINO))
    (htop : (D ROOTINO).target 1 = ROOTINO) (hleaf : ∀ k, ¬ (D ROOTINO).named k) (hlink : (D ROOTINO).nlink = 1) :
    WellFormed D ∧ ∀ i, Reach D i → i = ROOTINO := by
  have hreach : ∀ i, Reach D i → i = ROOTINO := fun i hi => by
    rcases Relation.ReflTransGen.cases_head hi with h | ⟨d, ⟨k, he⟩, -⟩
    · exact h.symm
    · exact absurd he.2.1 (hleaf k)
  have hnone : ∀ e i, ¬ Entry (Reach D) D e i := fun e i he => by
    have hn := he.2.2.1
    rw [hreach e.1 he.1] at hn
    exact hleaf e.2 hn
  have htwo : ∀ k, (D ROOTINO).has k → ((D ROOTINO).ents k).inum ≠ 0 → k = 0 ∨ k = 1 := fun k hk h0 => by
    by_contra hn
    exact hleaf k ⟨by omega, hk, h0⟩
  have hne : ¬ namecmp ((D ROOTINO).ents 0).name ((D ROOTINO).ents 1).name = 0 := fun h => by
    rw [namecmp_eq_zero, namecmp_eq_zero.mp hdots.dot.2, namecmp_eq_zero.mp hdots.dotdot.2] at h
    exact absurd h (by decide)
  refine ⟨⟨⟨hdir, htop⟩, fun d hd _ => ?_, fun d hd _ j k hj hk hj0 hk0 hname => ?_, fun d k hd _ hk h0 => ?_,
    fun i hi _ hi' => absurd (hreach i hi) hi', fun i hi => ?_⟩, hreach⟩
  · rwa [hreach d hd]
  · obtain rfl := hreach d hd
    rcases htwo j hj hj0 with rfl | rfl <;> rcases htwo k hk hk0 with rfl | rfl
    · rfl
    · exact absurd hname hne
    · rw [namecmp_eq_zero] at hname hne
      exact absurd hname.symm hne
    · rfl
  · obtain rfl := hreach d hd
    have htarget : (D ROOTINO).target k = ROOTINO := by
      rcases htwo k hk h0 with rfl | rfl
      · exact hdots.dot.1
      · exact htop
    rw [htarget, hdir]
    decide
  · obtain rfl := hreach i hi
    rw [Graph.count_eq_zero fun e => hnone e _, Graph.count_eq_zero fun e ⟨_, j, he, _⟩ => hnone e j he, hlink]
    rfl

theorem Consistent.alloc_eq (h : Consistent D) : Alloc D = Reach D :=
  funext fun i => propext ⟨h.reach i, h.toWellFormed.alloc⟩

end Xv6.Sys

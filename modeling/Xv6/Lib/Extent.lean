import Mathlib.Algebra.BigOperators.Group.List.Basic
import Mathlib.Algebra.GroupWithZero.Nat
import Mathlib.Algebra.Order.Group.Nat

/-!
# Extents of memory

An extent is an interval of addresses. Two lists of extents are the same up to order and cuts if every
measure that adds up when an extent is cut in two gives the same sum; the length and the number of extents
that hold an address are such measures, so the lists then cover each address as often.

The second half is the free list of an allocator: extents in address order of which no two touch, linked in
memory. `join` puts an extent in front of such a list and merges it with the first one if the two touch.
-/

structure Extent where
  addr : Nat
  len : Nat
  deriving DecidableEq

namespace Extent

variable {b c : Extent} {l l' r r' : List Extent} {x y : Nat}

/-- The first address behind it. -/
def stop (b : Extent) : Nat := b.addr + b.len

def Apart (b c : Extent) : Prop := b.stop ≤ c.addr ∨ c.stop ≤ b.addr

/-! ## The same memory, cut otherwise -/

def Measure (f : Extent → Nat) : Prop := ∀ a m n, f ⟨a, m + n⟩ = f ⟨a, m⟩ + f ⟨a + m, n⟩

def Same (l l' : List Extent) : Prop := ∀ f, Measure f → (l.map f).sum = (l'.map f).sum

def total (l : List Extent) : Nat := (l.map len).sum

def holds (x : Nat) (b : Extent) : Nat := if b.addr ≤ x ∧ x < b.stop then 1 else 0

/-- How many of the extents hold `x`. -/
def count (x : Nat) (l : List Extent) : Nat := (l.map (holds x)).sum

theorem measure_len : Measure len := fun _ _ _ => rfl

theorem measure_holds (x : Nat) : Measure (holds x) := by
  intro a m n
  change (if a ≤ x ∧ x < a + (m + n) then 1 else 0) =
    (if a ≤ x ∧ x < a + m then 1 else 0) + if a + m ≤ x ∧ x < a + m + n then 1 else 0
  by_cases h1 : a ≤ x ∧ x < a + m
  · rw [if_pos h1, if_pos (by omega), if_neg (by omega)]
  · by_cases h2 : a + m ≤ x ∧ x < a + m + n
    · rw [if_neg h1, if_pos h2, if_pos (by omega)]
    · rw [if_neg h1, if_neg h2, if_neg (by omega)]

theorem Same.symm (h : Same l l') : Same l' l := fun f hf => (h f hf).symm

theorem Same.trans {l'' : List Extent} (h : Same l l') (h' : Same l' l'') :
    Same l l'' := fun f hf => (h f hf).trans (h' f hf)

theorem Same.append (h : Same l l') (h' : Same r r') : Same (l ++ r) (l' ++ r') := by
  intro f hf
  rw [List.map_append, List.map_append, List.sum_append, List.sum_append, h f hf, h' f hf]

theorem Same.refl (l : List Extent) : Same l l := fun _ _ => rfl

theorem Same.cons (b : Extent) (h : Same l l') : Same (b :: l) (b :: l') := (Same.refl [b]).append h

theorem same_of_perm (h : l.Perm l') : Same l l' := fun _ _ => (h.map _).sum_eq

theorem same_cut (a m n : Nat) (l : List Extent) : Same (⟨a, m + n⟩ :: l) (⟨a, m⟩ :: ⟨a + m, n⟩ :: l) := by
  intro f hf
  simp only [List.map_cons, List.sum_cons, hf a m n, Nat.add_assoc]

theorem same_empty (a : Nat) (l : List Extent) : Same (⟨a, 0⟩ :: l) l := by
  intro f hf
  have h0 := hf a 0 0
  rw [List.map_cons, List.sum_cons]
  simp only [Nat.add_zero] at h0
  omega

theorem Same.total_eq (h : Same l l') : total l = total l' := h len measure_len

theorem Same.count_eq (h : Same l l') (x : Nat) : count x l = count x l' := h (holds x) (measure_holds x)

theorem total_cons (b : Extent) (l : List Extent) : total (b :: l) = b.len + total l := by
  rw [total, List.map_cons, List.sum_cons, total]

theorem total_append (l r : List Extent) : total (l ++ r) = total l + total r := by
  rw [total, List.map_append, List.sum_append, total, total]

theorem length_le_total (h : ∀ b ∈ l, 0 < b.len) : l.length ≤ total l := by
  induction l with
  | nil => exact Nat.zero_le _
  | cons b l ih =>
    have hb := h b List.mem_cons_self
    have := ih fun c hc => h c (List.mem_cons_of_mem b hc)
    rw [total_cons, List.length_cons]
    omega

theorem count_cons (x : Nat) (b : Extent) (l : List Extent) : count x (b :: l) = holds x b + count x l := by
  rw [count, List.map_cons, List.sum_cons, count]

theorem count_pos : 0 < count x l ↔ ∃ b ∈ l, b.addr ≤ x ∧ x < b.stop := by
  induction l with
  | nil => simp [count]
  | cons b l ih =>
    rw [count_cons, List.exists_mem_cons_iff, ← ih, holds]
    split_ifs with hb
    · exact iff_of_true (by omega) (.inl hb)
    · rw [Nat.zero_add, or_iff_right hb]

theorem holds_mem (hb : b ∈ l) (h1 : b.addr ≤ x) (h2 : x < b.stop) : 0 < count x l := count_pos.mpr ⟨b, hb, h1, h2⟩

theorem pairwise_apart (h : ∀ x, count x l ≤ 1) (hpos : ∀ b ∈ l, 0 < b.len) : l.Pairwise Apart := by
  induction l with
  | nil => exact .nil
  | cons b l ih =>
    refine List.pairwise_cons.mpr ⟨fun c hc => ?_, ih (fun x => ?_) fun c hc => hpos c (List.mem_cons_of_mem b hc)⟩
    · have hb := hpos b List.mem_cons_self
      have hc0 := hpos c (List.mem_cons_of_mem b hc)
      by_contra hn
      rw [Apart, not_or, not_le, not_le] at hn
      -- the first address of the later one is in both
      have hx : ∃ x, (b.addr ≤ x ∧ x < b.stop) ∧ c.addr ≤ x ∧ x < c.stop := by
        refine ⟨max b.addr c.addr, ⟨le_max_left _ _, max_lt ?_ hn.1⟩, le_max_right _ _, max_lt hn.2 ?_⟩
        · exact Nat.lt_add_of_pos_right hb
        · exact Nat.lt_add_of_pos_right hc0
      obtain ⟨x, hxb, hxc⟩ := hx
      have hcount := h x
      rw [count_cons, holds, if_pos hxb] at hcount
      have := holds_mem hc hxc.1 hxc.2
      omega
    · have := h x
      rw [count_cons] at this
      omega

/-! ## Free lists -/

/-- In address order, and no two touch. -/
def Spaced (l : List Extent) : Prop := l.Pairwise fun b c => b.stop < c.addr

def join (b : Extent) : List Extent → List Extent
  | [] => [b]
  | c :: l => if b.stop = c.addr then ⟨b.addr, b.len + c.len⟩ :: l else b :: c :: l

theorem same_join (b : Extent) (l : List Extent) : Same (join b l) (b :: l) := by
  cases l with
  | nil => exact Same.refl _
  | cons c l =>
    rw [join]
    split_ifs with h
    · have hcut := same_cut b.addr b.len c.len l
      rw [show b.addr + b.len = c.addr from h] at hcut
      exact hcut
    · exact Same.refl _

theorem mem_join (h : c ∈ join b l) : c.addr = b.addr ∨ c ∈ l := by
  cases l with
  | nil => exact .inl (congrArg addr (List.mem_singleton.mp h))
  | cons d l =>
    rw [join] at h
    split_ifs at h with htouch
    · rcases List.mem_cons.mp h with rfl | h
      · exact .inl rfl
      · exact .inr (List.mem_cons_of_mem d h)
    · rcases List.mem_cons.mp h with rfl | h
      · exact .inl rfl
      · exact .inr h

theorem join_head (b : Extent) (l : List Extent) : ∃ d r, join b l = d :: r ∧ d.addr = b.addr ∧ b.len ≤ d.len := by
  cases l with
  | nil => exact ⟨b, [], rfl, rfl, le_rfl⟩
  | cons c l =>
    rw [join]
    split_ifs with h
    · exact ⟨_, l, rfl, rfl, Nat.le_add_right _ _⟩
    · exact ⟨b, c :: l, rfl, rfl, le_rfl⟩

theorem join_covers (b : Extent) (hc : c ∈ l) : ∃ d ∈ join b l, c.len ≤ d.len := by
  cases l with
  | nil => exact absurd hc List.not_mem_nil
  | cons d l =>
    rw [join]
    split_ifs with h
    · rcases List.mem_cons.mp hc with rfl | hc
      · exact ⟨_, List.mem_cons_self, Nat.le_add_left _ _⟩
      · exact ⟨c, List.mem_cons_of_mem _ hc, le_rfl⟩
    · exact ⟨c, List.mem_cons_of_mem b hc, le_rfl⟩

theorem join_pos (hb : 0 < b.len) (hl : ∀ c ∈ l, 0 < c.len) : ∀ c ∈ join b l, 0 < c.len := by
  intro c hc
  cases l with
  | nil => rwa [List.mem_singleton.mp hc]
  | cons e l =>
    rw [join] at hc
    split_ifs at hc with htouch
    · rcases List.mem_cons.mp hc with rfl | hc
      · exact Nat.add_pos_left hb _
      · exact hl c (List.mem_cons_of_mem e hc)
    · rcases List.mem_cons.mp hc with rfl | hc
      · exact hb
      · exact hl c hc

theorem length_join_le (b : Extent) (l : List Extent) : (join b l).length ≤ l.length + 1 := by
  cases l with
  | nil => exact le_rfl
  | cons c l =>
    rw [join]
    split_ifs
    · exact Nat.le_succ _
    · exact le_rfl

theorem spaced_join (h : Spaced l) (hb : ∀ c ∈ l, b.stop ≤ c.addr) : Spaced (join b l) := by
  cases l with
  | nil => exact List.pairwise_singleton _ _
  | cons c l =>
    obtain ⟨hc, hl⟩ := List.pairwise_cons.mp h
    have hbc := hb c List.mem_cons_self
    rw [join]
    split_ifs with htouch
    · refine List.pairwise_cons.mpr ⟨fun d hd => ?_, hl⟩
      have := hc d hd
      simp only [stop] at htouch this ⊢
      omega
    · refine List.pairwise_cons.mpr ⟨fun d hd => ?_, h⟩
      rcases List.mem_cons.mp hd with rfl | hd
      · exact lt_of_le_of_ne hbc htouch
      · have := hc d hd
        simp only [stop] at hbc this ⊢
        omega

theorem spaced_insert {A R : List Extent} {p : Extent} (hs : Spaced (A ++ p :: R)) (hp : p.stop ≤ b.addr)
    (hR : ∀ r ∈ R, b.stop ≤ r.addr) :
    Spaced (A ++ join p (join b R)) := by
  obtain ⟨hA, hpR, hAp⟩ := List.pairwise_append.mp hs
  obtain ⟨hpR, hsR⟩ := List.pairwise_cons.mp hpR
  refine List.pairwise_append.mpr ⟨hA, spaced_join (spaced_join hsR hR) fun c hc => ?_, fun a ha c hc => ?_⟩
  · rcases mem_join hc with hc | hc
    · exact hc ▸ hp
    · exact (hpR c hc).le
  · have hap := hAp a ha p List.mem_cons_self
    rcases mem_join hc with hc | hc
    · exact hc ▸ hap
    · rcases mem_join hc with hc | hc
      · simp only [stop] at hap hp ⊢
        omega
      · exact hAp a ha c (List.mem_cons_of_mem p hc)

theorem same_insert (A : List Extent) (p b : Extent) (R : List Extent) :
    Same (A ++ join p (join b R)) (b :: (A ++ p :: R)) := by
  have hjoins := (same_join p (join b R)).trans ((same_join b R).cons p)
  have hperm : (A ++ p :: b :: R).Perm (b :: (A ++ p :: R)) :=
  ((List.Perm.swap b p R).append_left A).trans List.perm_middle
  exact ((Same.refl A).append hjoins).trans (same_of_perm hperm)

theorem Spaced.shrink {A R : List Extent} {d : Extent} (hs : Spaced (A ++ c :: R)) (haddr : d.addr = c.addr)
    (hstop : d.stop ≤ c.stop) :
    Spaced (A ++ d :: R) := by
  obtain ⟨hA, hcR, hAc⟩ := List.pairwise_append.mp hs
  obtain ⟨hc, hR⟩ := List.pairwise_cons.mp hcR
  refine List.pairwise_append.mpr ⟨hA, List.pairwise_cons.mpr ⟨fun r hr => hstop.trans_lt (hc r hr), hR⟩,
    fun a ha e he => ?_⟩
  rcases List.mem_cons.mp he with rfl | he
  · exact haddr ▸ hAc a ha c List.mem_cons_self
  · exact hAc a ha e (List.mem_cons_of_mem c he)

theorem Spaced.split (h : Spaced (b :: l)) (hb : b.addr < x) (hx : ∀ c ∈ l, c.addr ≠ x) :
    ∃ A p R, b :: l = A ++ p :: R ∧ (∀ a ∈ A, a.addr < x) ∧ p.addr < x ∧ ∀ r ∈ R, x < r.addr := by
  induction l generalizing b with
  | nil => exact ⟨[], b, [], rfl, fun a ha => absurd ha List.not_mem_nil, hb, fun r hr => absurd hr List.not_mem_nil⟩
  | cons c l ih =>
    obtain ⟨-, hl⟩ := List.pairwise_cons.mp h
    rcases Nat.lt_or_gt_of_ne (hx c List.mem_cons_self) with hlt | hgt
    · obtain ⟨A, p, R, heq, hA, hp, hR⟩ := ih hl hlt fun d hd => hx d (List.mem_cons_of_mem c hd)
      refine ⟨b :: A, p, R, congrArg (b :: ·) heq, fun a ha => ?_, hp, hR⟩
      rcases List.mem_cons.mp ha with rfl | ha
      · exact hb
      · exact hA a ha
    · refine ⟨[], b, c :: l, rfl, fun a ha => absurd ha List.not_mem_nil, hb, fun r hr => ?_⟩
      rcases List.mem_cons.mp hr with rfl | hr
      · exact hgt
      · have := (List.pairwise_cons.mp hl).1 r hr
        simp only [stop] at this
        omega

/-- From `x` the links lead through the extents of `l` to `y`. -/
def Linked (next size : Nat → Nat) : Nat → List Extent → Nat → Prop
  | x, [], y => x = y
  | x, b :: l, y => x = b.addr ∧ size b.addr = b.len ∧ Linked next size (next b.addr) l y

section Linked

variable {next size next' size' : Nat → Nat}

theorem linked_append : Linked next size x (l ++ r) y ↔ ∃ z, Linked next size x l z ∧ Linked next size z r y := by
  induction l generalizing x with
  | nil => exact ⟨fun h => ⟨x, rfl, h⟩, fun ⟨z, hz, h⟩ => hz ▸ h⟩
  | cons b l ih =>
    rw [List.cons_append, Linked, ih]
    exact ⟨fun ⟨hx, hs, z, h1, h2⟩ => ⟨z, ⟨hx, hs, h1⟩, h2⟩, fun ⟨z, ⟨hx, hs, h1⟩, h2⟩ => ⟨hx, hs, z, h1, h2⟩⟩

theorem Linked.congr (h : Linked next size x l y) (hnext : ∀ b ∈ l, next' b.addr = next b.addr)
    (hsize : ∀ b ∈ l, size' b.addr = size b.addr) : Linked next' size' x l y := by
  induction l generalizing x with
  | nil => exact h
  | cons b l ih =>
    refine ⟨h.1, (hsize b List.mem_cons_self).trans h.2.1, ?_⟩
    rw [hnext b List.mem_cons_self]
    exact ih h.2.2 (fun c hc => hnext c (List.mem_cons_of_mem b hc)) fun c hc => hsize c (List.mem_cons_of_mem b hc)

theorem Linked.size_eq (h : Linked next size x l y) (hb : b ∈ l) : size b.addr = b.len := by
  induction l generalizing x with
  | nil => exact absurd hb List.not_mem_nil
  | cons c l ih =>
    rcases List.mem_cons.mp hb with rfl | hb
    · exact h.2.1
    · exact ih h.2.2 hb

theorem Linked.next_split (h : Linked next size x l y) (hb : b ∈ l) (hne : next b.addr ≠ y) :
    ∃ A c R, l = A ++ b :: c :: R ∧ c.addr = next b.addr := by
  obtain ⟨A, R, rfl⟩ := List.append_of_mem hb
  obtain ⟨z, -, hz⟩ := linked_append.mp h
  cases R with
  | nil => exact absurd hz.2.2 hne
  | cons c R => exact ⟨A, c, R, rfl, hz.2.2.1.symm⟩

end Linked

end Extent

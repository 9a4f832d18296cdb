import Mathlib.Data.List.Nodup
import Mathlib.Logic.Function.Basic

/-!
# Circular doubly linked lists

Links `next` and `prev` between nodes, of which `none` is the head of the list. `IsRing l xs` says that the
links run through the head and the nodes `xs`, each once, and back.
-/

namespace Dlist

open Function (update update_of_ne update_self)

structure Links (α : Type) where
  next : Option α → Option α
  prev : Option α → Option α

section

variable {α : Type} [DecidableEq α]

/-- Put a node behind the head. -/
def Links.insert (l : Links α) (b : α) : Links α :=
  let l := { l with next := update l.next (some b) (l.next none) }
  let l := { l with prev := update l.prev (some b) none }
  let l := { l with prev := update l.prev (l.next none) (some b) }
  { l with next := update l.next none (some b) }

/-- Take a node out. Its own links stay. -/
def Links.remove (l : Links α) (b : α) : Links α :=
  let l := { l with prev := update l.prev (l.next (some b)) (l.prev (some b)) }
  { l with next := update l.next (l.prev (some b)) (l.next (some b)) }

end

/-- Follow links from a node to the first one that satisfies `q`, or to the head. -/
def walk {α : Type} (step : Option α → Option α) (q : α → Bool) : Nat → Option α → Option (Option α)
  | 0, _ => none
  | _ + 1, none => some none
  | fuel + 1, some a => if q a then some (some a) else walk step q fuel (step (some a))

/-- The links run from `a` through `xs` to `z`. -/
def Seg {α : Type} (l : Links α) : Option α → List α → Option α → Prop
  | a, [], z => l.next a = z ∧ l.prev z = a
  | a, x :: xs, z => (l.next a = some x ∧ l.prev (some x) = a) ∧ Seg l (some x) xs z

variable {α : Type} {l l' : Links α} {a z : Option α} {b x : α} {xs ys : List α}

theorem seg_append : Seg l a (xs ++ x :: ys) z ↔ Seg l a xs (some x) ∧ Seg l (some x) ys z := by
  induction xs generalizing a with
  | nil => exact Iff.rfl
  | cons y xs ih => exact (and_congr_right fun _ => ih).trans and_assoc.symm

theorem Seg.congr (h : Seg l a xs z) (hnext : ∀ n ∈ a :: xs.map some, l'.next n = l.next n)
    (hprev : ∀ n ∈ z :: xs.map some, l'.prev n = l.prev n) : Seg l' a xs z := by
  induction xs generalizing a with
  | nil => exact ⟨(hnext a List.mem_cons_self).trans h.1, (hprev z List.mem_cons_self).trans h.2⟩
  | cons x xs ih =>
    obtain ⟨⟨hn, hp⟩, hrest⟩ := h
    refine ⟨⟨(hnext a List.mem_cons_self).trans hn, (hprev (some x) (by simp)).trans hp⟩, ?_⟩
    apply ih hrest
    · exact fun n hmem => hnext n (List.mem_cons_of_mem a hmem)
    · intro n hmem
      apply hprev n
      rcases List.mem_cons.mp hmem with rfl | hmem
      · exact List.mem_cons_self
      · exact List.mem_cons_of_mem z (List.mem_cons_of_mem (some x) hmem)

theorem Seg.next_mem (h : Seg l a xs z) : l.next a ∈ z :: xs.map some := by
  cases xs with
  | nil => exact h.1 ▸ List.mem_cons_self
  | cons x xs =>
    rw [h.1.1]
    exact List.mem_cons_of_mem z List.mem_cons_self

theorem Seg.prev_mem (h : Seg l a xs z) : l.prev z ∈ a :: xs.map some := by
  induction xs generalizing a with
  | nil => exact h.2 ▸ List.mem_cons_self
  | cons x xs ih => exact List.mem_cons_of_mem a (ih h.2)

theorem Seg.inverse (h : Seg l a xs z) : (∀ n ∈ a :: xs.map some, l.prev (l.next n) = n) ∧
    ∀ n ∈ z :: xs.map some, l.next (l.prev n) = n := by
  induction xs generalizing a with
  | nil =>
    obtain ⟨hn, hp⟩ := h
    constructor
    · intro n hmem
      rw [List.mem_singleton.mp hmem, hn, hp]
    · intro n hmem
      rw [List.mem_singleton.mp hmem, hp, hn]
  | cons x xs ih =>
    obtain ⟨⟨hn, hp⟩, hrest⟩ := h
    obtain ⟨h1, h2⟩ := ih hrest
    constructor
    · intro n hmem
      rcases List.mem_cons.mp hmem with rfl | hmem
      · rw [hn, hp]
      · exact h1 n hmem
    · intro n hmem
      by_cases hx : n = some x
      · rw [hx, hp, hn]
      · apply h2 n
        rcases List.mem_cons.mp hmem with rfl | hmem
        · exact List.mem_cons_self
        · exact List.mem_cons_of_mem z ((List.mem_cons.mp hmem).resolve_left hx)

/-- The links in the other direction. -/
def Links.flip (l : Links α) : Links α := ⟨l.prev, l.next⟩

theorem Seg.flip (h : Seg l a xs z) : Seg l.flip z xs.reverse a := by
  induction xs generalizing a with
  | nil => exact ⟨h.2, h.1⟩
  | cons x xs ih =>
    rw [List.reverse_cons]
    exact seg_append.mpr ⟨ih h.2, h.1.2, h.1.1⟩

theorem walk_eq {q : α → Bool} {fuel : Nat} (h : Seg l a xs none) (hfuel : xs.length < fuel) :
    walk l.next q fuel (l.next a) = some (xs.find? q) := by
  induction xs generalizing a fuel with
  | nil =>
    obtain ⟨fuel, rfl⟩ := Nat.exists_eq_add_one_of_ne_zero (Nat.ne_of_gt hfuel)
    rw [h.1]
    rfl
  | cons x xs ih =>
    obtain ⟨fuel, rfl⟩ := Nat.exists_eq_add_one_of_ne_zero (Nat.ne_of_gt (Nat.zero_lt_of_lt hfuel))
    rw [h.1.1, walk, List.find?_cons]
    cases q x with
    | true => rfl
    | false => exact ih h.2 (Nat.lt_of_succ_lt_succ hfuel)

/-! ## Rings -/

structure IsRing (l : Links α) (xs : List α) : Prop where
  nodup : xs.Nodup
  seg : Seg l none xs none

variable {q : α → Bool} {fuel : Nat}

theorem IsRing.walk_next (h : IsRing l xs) (hfuel : xs.length < fuel) :
    walk l.next q fuel (l.next none) = some (xs.find? q) :=
  walk_eq h.seg hfuel

theorem IsRing.walk_prev (h : IsRing l xs) (hfuel : xs.length < fuel) :
    walk l.prev q fuel (l.prev none) = some (xs.reverse.find? q) :=
  walk_eq h.seg.flip (by rwa [List.length_reverse])

theorem IsRing.inverse (h : IsRing l xs) (hall : ∀ x, x ∈ xs) (n : Option α) :
    l.prev (l.next n) = n ∧ l.next (l.prev n) = n := by
  have hmem : n ∈ none :: xs.map some := by
    cases n with
    | none => exact List.mem_cons_self
    | some x => exact List.mem_cons_of_mem none (List.mem_map.mpr ⟨x, hall x, rfl⟩)
  exact ⟨h.seg.inverse.1 n hmem, h.seg.inverse.2 n hmem⟩

variable [DecidableEq α]

theorem insert_next : (l.insert b).next = update (update l.next (some b) (l.next none)) none (some b) := rfl

theorem insert_prev : (l.insert b).prev = update (update l.prev (some b) none) (l.next none) (some b) := by
  have hnone : update l.next (some b) (l.next none) none = l.next none := update_of_ne (Option.some_ne_none b).symm ..
  exact congrArg (fun n => update (update l.prev (some b) none) n (some b)) hnone

theorem IsRing.insert (h : IsRing l xs) (hb : b ∉ xs) : IsRing (l.insert b) (b :: xs) := by
  refine ⟨List.nodup_cons.mpr ⟨hb, h.nodup⟩, ?_⟩
  have hne : ∀ y ∈ xs, some y ≠ some b := fun y hy heq => hb (Option.some.inj heq ▸ hy)
  have hfirst : (l.insert b).next none = some b := by rw [insert_next, update_self]
  have hbnext : (l.insert b).next (some b) = l.next none := by
    rw [insert_next, update_of_ne (Option.some_ne_none b), update_self]
  have hback : (l.insert b).prev (l.next none) = some b := by rw [insert_prev, update_self]
  have hbprev : some b ≠ l.next none → (l.insert b).prev (some b) = none := fun hn => by
    rw [insert_prev, update_of_ne hn, update_self]
  cases xs with
  | nil =>
    obtain ⟨hn, -⟩ := h.seg
    rw [hn] at hback hbprev hbnext
    exact ⟨⟨hfirst, hbprev (Option.some_ne_none b)⟩, hbnext, hback⟩
  | cons x xs =>
    obtain ⟨⟨hn, -⟩, hrest⟩ := h.seg
    obtain ⟨hx, -⟩ := List.nodup_cons.mp h.nodup
    rw [hn] at hback hbprev hbnext
    refine ⟨⟨hfirst, hbprev (hne x List.mem_cons_self).symm⟩, ⟨hbnext, hback⟩, ?_⟩
    apply hrest.congr
    · intro n hmem
      obtain ⟨y, hy, rfl⟩ := List.mem_map.mp (show n ∈ (x :: xs).map some from hmem)
      rw [insert_next, update_of_ne (Option.some_ne_none y), update_of_ne (hne y hy)]
    · intro n hmem
      rw [insert_prev, hn]
      rcases List.mem_cons.mp hmem with rfl | hmem
      · rw [update_of_ne (Option.some_ne_none x).symm, update_of_ne (Option.some_ne_none b).symm]
      · obtain ⟨y, hy, rfl⟩ := List.mem_map.mp hmem
        have hyx : some y ≠ some x := fun heq => hx (Option.some.inj heq ▸ hy)
        rw [update_of_ne hyx, update_of_ne (hne y (List.mem_cons_of_mem x hy))]

theorem remove_prev : (l.remove b).prev = update l.prev (l.next (some b)) (l.prev (some b)) := rfl

theorem remove_next (h : l.next (some b) ≠ some b) :
    (l.remove b).next = update l.next (l.prev (some b)) (l.next (some b)) := by
  have hb : update l.prev (l.next (some b)) (l.prev (some b)) (some b) = l.prev (some b) := update_of_ne h.symm ..
  exact congrArg (fun n => update l.next n (l.next (some b))) hb

theorem Seg.remove (hl : Seg l a xs (some b)) (hr : Seg l (some b) ys z) (hnd : (a :: (xs ++ b :: ys).map some).Nodup)
    (hz : z ∉ (xs ++ b :: ys).map some) : Seg (l.remove b) a (xs ++ ys) z := by
  rw [List.map_append, List.map_cons] at hnd hz
  have hzr : z ∉ some b :: ys.map some := fun hmem => hz (List.mem_append_right _ hmem)
  have hsucc := hr.next_mem
  have hself : l.next (some b) ≠ some b := by
    intro heq
    rw [heq] at hsucc
    rcases List.mem_cons.mp hsucc with hbz | hmem
    · exact hzr (hbz ▸ List.mem_cons_self)
    · exact (List.nodup_cons.mp (List.nodup_append.mp (List.nodup_cons.mp hnd).2).2.1).1 hmem
  induction xs generalizing a with
  | nil =>
    obtain ⟨hn, hp⟩ := hl
    obtain ⟨ha, hnd⟩ := List.nodup_cons.mp hnd
    cases ys with
    | nil =>
      obtain ⟨hn', hp'⟩ := hr
      refine ⟨?_, ?_⟩
      · rw [remove_next hself, hp, hn', update_self]
      · rw [remove_prev, hp, hn', update_self]
    | cons y ys =>
      obtain ⟨⟨hn', hp'⟩, hrest⟩ := hr
      obtain ⟨hy, -⟩ := List.nodup_cons.mp (List.nodup_cons.mp hnd).2
      refine ⟨⟨?_, ?_⟩, ?_⟩
      · rw [remove_next hself, hp, hn', update_self]
      · rw [remove_prev, hp, hn', update_self]
      · apply hrest.congr
        · intro n hmem
          rw [remove_next hself, hp]
          refine update_of_ne (fun heq => ha ?_) ..
          rw [← heq]
          exact List.mem_cons_of_mem _ hmem
        · intro n hmem
          rw [remove_prev, hn']
          refine update_of_ne (fun heq => ?_) ..
          rcases List.mem_cons.mp hmem with rfl | hmem
          · exact hzr (heq ▸ List.mem_cons_of_mem _ List.mem_cons_self)
          · exact hy (heq ▸ hmem)
  | cons x xs ih =>
    obtain ⟨⟨hn, hp⟩, hrest⟩ := hl
    obtain ⟨ha, hnd⟩ := List.nodup_cons.mp hnd
    have hpred := hrest.prev_mem
    refine ⟨⟨?_, ?_⟩, ih hrest hnd fun hmem => hz (List.mem_cons_of_mem _ hmem)⟩
    · rw [remove_next hself]
      refine (update_of_ne (fun heq => ha ?_) ..).trans hn
      rw [heq]
      exact List.mem_append_left _ hpred
    · rw [remove_prev]
      refine (update_of_ne (fun heq => ?_) ..).trans hp
      rw [← heq] at hsucc
      rcases List.mem_cons.mp hsucc with hxz | hmem
      · exact hz (hxz ▸ List.mem_cons_self)
      · exact (List.nodup_cons.mp hnd).1 (List.mem_append_right _ (List.mem_cons_of_mem _ hmem))

theorem IsRing.remove (h : IsRing l xs) (hb : b ∈ xs) : IsRing (l.remove b) (xs.erase b) := by
  refine ⟨h.nodup.erase b, ?_⟩
  obtain ⟨ys, zs, rfl⟩ := List.append_of_mem hb
  have hys : b ∉ ys := fun hmem => (List.nodup_append.mp h.nodup).2.2 b hmem b List.mem_cons_self rfl
  obtain ⟨hl, hr⟩ := seg_append.mp h.seg
  rw [List.erase_append_right _ hys, List.erase_cons_head]
  refine hl.remove hr (List.nodup_cons.mpr ⟨by simp, h.nodup.map fun _ _ => Option.some.inj⟩) (by simp)

theorem IsRing.toFront (h : IsRing l xs) (hb : b ∈ xs) : IsRing ((l.remove b).insert b) (b :: xs.erase b) :=
  (h.remove hb).insert h.nodup.not_mem_erase

theorem IsRing.insert_all (h : IsRing l xs) (hys : ys.Nodup) (hnew : ∀ y ∈ ys, y ∉ xs) :
    IsRing (ys.foldl Links.insert l) (ys.reverse ++ xs) := by
  induction ys generalizing l xs with
  | nil => exact h
  | cons y ys ih =>
    obtain ⟨hy, hys⟩ := List.nodup_cons.mp hys
    rw [List.foldl_cons, List.reverse_cons, List.append_assoc]
    apply ih (h.insert (hnew y List.mem_cons_self)) hys
    intro x hx hmem
    rcases List.mem_cons.mp hmem with rfl | hmem
    · exact hy hx
    · exact hnew x (List.mem_cons_of_mem y hx) hmem

end Dlist

import Mathlib.Data.List.Induction
import Mathlib.Logic.Function.Basic

/-!
# Tries in a heap

A heap has nodes `A` with an entry for each index `I`; an entry may be a link to a node. `find h r p` is the
node that the path `p` leads to from `r`. The nodes at depth at most `d` are `Unshared` if no two paths lead
to the same one. Such a trie is changed entry by entry: an entry of a node at depth `d`, which is no link as
far as the trie goes, or an empty entry that becomes a link to a fresh node.
-/

namespace Trie

open Function (update update_of_ne update_self)

variable {A I E : Type} [DecidableEq A] [DecidableEq I] (link : E → Option A)

/-- The node at the end of path `p` from `r`. -/
def find (h : A → I → E) : A → List I → Option A
  | r, [] => some r
  | r, i :: p => (link (h r i)).bind fun a => find h a p

/-- Assign to entry `i` of node `a`. -/
def set (h : A → I → E) (a : A) (i : I) (e : E) : A → I → E :=
  update h a (update (h a) i e)

/-- No two paths of length at most `d` lead to one node. -/
def Unshared (h : A → I → E) (r : A) (d : Nat) : Prop :=
  ∀ p q a, p.length ≤ d → q.length ≤ d → find link h r p = some a → find link h r q = some a → p = q

/-- No path of length at most `d` leads to `b`. -/
def Fresh (h : A → I → E) (r : A) (d : Nat) (b : A) : Prop := ∀ p, p.length ≤ d → find link h r p ≠ some b

variable {link} {h h' : A → I → E} {r a b : A} {i j : I} {e : E} {p q : List I} {d : Nat}

omit [DecidableEq A] [DecidableEq I] in
@[simp] theorem find_nil : find link h r [] = some r := rfl

omit [DecidableEq A] [DecidableEq I] in
theorem find_append : find link h r (p ++ q) = (find link h r p).bind fun a => find link h a q := by
  induction p generalizing r with
  | nil => rfl
  | cons i p ih =>
    rw [List.cons_append, find, find]
    cases link (h r i) with
    | none => rfl
    | some a => exact ih

omit [DecidableEq A] [DecidableEq I] in
theorem find_concat : find link h r (p ++ [i]) = (find link h r p).bind fun a => link (h a i) := by
  rw [find_append]
  congr 1
  funext a
  rw [find]
  cases link (h a i) with
  | none => rfl
  | some b => rfl

omit [DecidableEq A] [DecidableEq I] in
theorem find_congr (hsame : ∀ q a, q.length < p.length → find link h r q = some a → ∀ i, link (h' a i) = link (h a i)) :
    find link h' r p = find link h r p := by
  induction p using List.reverseRecOn with
  | nil => rfl
  | append_singleton p i ih =>
    have hlen : (p ++ [i]).length = p.length + 1 := by simp
    rw [find_concat, find_concat, ih fun q a hq => hsame q a (by omega)]
    cases hp : find link h r p with
    | none => rfl
    | some a => exact hsame p a (by omega) hp i

omit [DecidableEq A] [DecidableEq I] in
theorem Unshared.congr (hu : Unshared link h r d) (hsame : ∀ p, p.length ≤ d → find link h' r p = find link h r p) :
    Unshared link h' r d := by
  intro p q a hp hq h1 h2
  rw [hsame p hp] at h1
  rw [hsame q hq] at h2
  exact hu p q a hp hq h1 h2

theorem set_self : set h a i e a i = e := by rw [set, update_self, update_self]

theorem set_of_ne (hne : ¬ (b = a ∧ j = i)) : set h a i e b j = h b j := by
  by_cases hb : b = a
  · rw [hb, set, update_self, update_of_ne fun hj => hne ⟨hb, hj⟩]
  · rw [set, update_of_ne hb]

theorem set_node_of_ne (hb : b ≠ a) : set h a i e b = h b := update_of_ne hb ..

/-! ## Entries of the last level -/

theorem find_set_last (hu : Unshared link h r d) (hq : q.length = d) (ha : find link h r q = some a)
    (hp : p.length ≤ d) :
    find link (set h a i e) r p = find link h r p := by
  refine find_congr fun q' b hlt hb j => ?_
  rw [set_of_ne]
  rintro ⟨rfl, -⟩
  have := hu q' q b (by omega) (by omega) hb ha
  rw [this] at hlt
  omega

/-! ## New nodes -/

theorem find_set_link (hu : Unshared link h r d) (hq : q.length < d) (ha : find link h r q = some a)
    (hnone : link (h a i) = none)
    (hlink : link e = some b) (hb : Fresh link h r d b) (hempty : ∀ j, link (h b j) = none) (hp : p.length ≤ d) :
    find link (set h a i e) r p = if p = q ++ [i] then some b else find link h r p := by
  induction p using List.reverseRecOn with
  | nil =>
    rw [if_neg (by simp)]
    rfl
  | append_singleton p j ih =>
    have hlen : (p ++ [j]).length = p.length + 1 := by simp
    have hab : b ≠ a := fun hba => hb q (by omega) (hba ▸ ha)
    rw [find_concat, find_concat, ih (by omega)]
    by_cases hpq : p = q ++ [i]
    · -- below the new node there is nothing
      rw [if_pos hpq, if_neg (by rintro he; rw [hpq] at he; simpa using congrArg List.length he), hpq, find_concat, ha]
      change link (set h a i e b j) = (link (h a i)).bind fun a => link (h a j)
      rw [set_node_of_ne hab, hempty, hnone]
      rfl
    · rw [if_neg hpq]
      cases hf : find link h r p with
      | none =>
        rw [if_neg]
        · rfl
        · intro he
          obtain ⟨rfl, -⟩ := List.append_inj' he rfl
          simp [ha] at hf
      | some c =>
        change link (set h a i e c j) = if p ++ [j] = q ++ [i] then some b else link (h c j)
        by_cases hc : c = a ∧ j = i
        · obtain ⟨rfl, rfl⟩ := hc
          obtain rfl : p = q := hu p q c (by omega) (by omega) hf ha
          rw [set_self, hlink, if_pos rfl]
        · rw [set_of_ne hc, if_neg]
          intro he
          obtain ⟨rfl, hj⟩ := List.append_inj' he rfl
          refine hc ⟨?_, by simpa using hj⟩
          rw [ha] at hf
          exact (Option.some.inj hf).symm

theorem Unshared.set_link (hu : Unshared link h r d) (hq : q.length < d) (ha : find link h r q = some a)
    (hnone : link (h a i) = none) (hlink : link e = some b) (hb : Fresh link h r d b)
    (hempty : ∀ j, link (h b j) = none) :
    Unshared link (set h a i e) r d := by
  intro p p' c hp hp' h1 h2
  rw [find_set_link hu hq ha hnone hlink hb hempty hp] at h1
  rw [find_set_link hu hq ha hnone hlink hb hempty hp'] at h2
  split at h1 <;> split at h2
  · next he he' => rw [he, he']
  · exact absurd (h2.trans h1.symm) (hb p' hp')
  · exact absurd (h1.trans h2.symm) (hb p hp)
  · exact hu p p' c hp hp' h1 h2

end Trie

import Xv6.Lib.Bytes
import Xv6.Param
import Mathlib.Data.List.GetD

/-!
# Names and paths

The names in directory entries, compared as `strncmp` of `kernel/string.c` does, and `skipelem` of
`kernel/fs.c`, which takes a path apart. A path is the list of its bytes before the terminating zero.
-/

namespace Xv6

/-- Size of the name in a directory entry. -/
def DIRSIZ : Nat := 14

/-- `char name[DIRSIZ]`: a name ends at its first zero byte, or fills the buffer. -/
abbrev Name := Bytes DIRSIZ

abbrev Path := List (BitVec 8)

def strncmp (p q : Nat → BitVec 8) : Nat → Int
  | 0 => 0
  | n + 1 =>
    if p 0 ≠ 0 ∧ p 0 = q 0 then strncmp (fun i => p (i + 1)) (fun i => q (i + 1)) n
    else (p 0).toNat - (q 0).toNat

/-- The string in a buffer of `n` bytes. -/
def strOf (p : Nat → BitVec 8) : Nat → List (BitVec 8)
  | 0 => []
  | n + 1 => if p 0 ≠ 0 then p 0 :: strOf (fun i => p (i + 1)) n else []

theorem strncmp_eq_zero (n : Nat) : ∀ p q : Nat → BitVec 8, strncmp p q n = 0 ↔ strOf p n = strOf q n := by
  induction n with
  | zero => simp [strncmp, strOf]
  | succ n ih =>
    intro p q
    rw [strncmp, strOf, strOf]
    by_cases hp : p 0 = 0
    · rw [if_neg (by simp [hp]), if_neg (by simp [hp]), hp]
      by_cases hq : q 0 = 0
      · simp [hq]
      · have hq' : (q 0).toNat ≠ 0 := fun h => hq (BitVec.eq_of_toNat_eq h)
        rw [if_pos hq]
        constructor
        · intro h
          have h0 : ((0 : BitVec 8).toNat : Int) = 0 := rfl
          omega
        · intro h
          cases h
    · by_cases hpq : p 0 = q 0
      · have hq : q 0 ≠ 0 := by rwa [← hpq]
        rw [if_pos ⟨hp, hpq⟩, if_pos hp, if_pos hq, ih, hpq, List.cons.injEq]
        simp
      · have hne : (p 0).toNat ≠ (q 0).toNat := fun h => hpq (BitVec.eq_of_toNat_eq h)
        rw [if_neg fun h => hpq h.2, if_pos hp]
        constructor
        · intro h
          omega
        · intro h
          split_ifs at h with hq
          exact absurd (List.cons.inj h).1 hpq

theorem strOf_getD (n : Nat) : ∀ l : List (BitVec 8), (∀ b ∈ l, b ≠ 0) → l.length ≤ n →
    strOf (fun i => l.getD i 0) n = l := by
  induction n with
  | zero =>
    intro l _ hlen
    rw [strOf]
    exact (List.length_eq_zero_iff.mp (by omega)).symm
  | succ n ih =>
    intro l hl hlen
    cases l with
    | nil => simp [strOf]
    | cons b l =>
      rw [strOf]
      have hb : b ≠ 0 := hl b List.mem_cons_self
      have hrest := ih l (fun c hc => hl c (List.mem_cons_of_mem b hc)) (by simpa using hlen)
      rw [if_pos (by simpa using hb)]
      simpa using hrest

theorem ne_zero_of_mem_strOf (n : Nat) : ∀ {p : Nat → BitVec 8} {b : BitVec 8}, b ∈ strOf p n → b ≠ 0 := by
  induction n with
  | zero => intro p b h; simp [strOf] at h
  | succ n ih =>
    intro p b h
    rw [strOf] at h
    split_ifs at h with h0
    · rcases List.mem_cons.mp h with rfl | h
      · exact h0
      · exact ih h
    · simp at h

theorem length_strOf (n : Nat) : ∀ p : Nat → BitVec 8, (strOf p n).length ≤ n := by
  induction n with
  | zero => intro p; simp [strOf]
  | succ n ih =>
    intro p
    rw [strOf]
    split_ifs
    · simpa using ih _
    · simp

namespace Name

/-- The string in a name buffer. -/
def str (s : Name) : List (BitVec 8) := strOf s.get DIRSIZ

def ofStr (l : List (BitVec 8)) : Name := fun j => l.getD j 0

/-- `strncpy(s, t, DIRSIZ)`: what is past the string is zeroed. -/
def strncpy (t : Name) : Name := ofStr t.str

def dot : Name := ofStr [46]

def dotdot : Name := ofStr [46, 46]

end Name

def namecmp (s t : Name) : Int := strncmp s.get t.get DIRSIZ

theorem namecmp_eq_zero {s t : Name} : namecmp s t = 0 ↔ s.str = t.str := strncmp_eq_zero DIRSIZ _ _

theorem Name.str_ofStr {l : List (BitVec 8)} (hl : ∀ b ∈ l, b ≠ 0) (hlen : l.length ≤ DIRSIZ) :
    (Name.ofStr l).str = l := by
  refine Eq.trans ?_ (strOf_getD DIRSIZ l hl hlen)
  unfold Name.str
  congr 1
  funext i
  unfold Bytes.get Name.ofStr
  split_ifs with hi
  · rfl
  · exact (List.getD_eq_default l 0 (by omega)).symm

@[simp] theorem Name.str_strncpy (t : Name) : t.strncpy.str = t.str :=
  Name.str_ofStr (fun _ hb => ne_zero_of_mem_strOf DIRSIZ hb) (length_strOf DIRSIZ _)

/-! ## Paths -/

def SLASH : BitVec 8 := 47

/-- The name buffer after `skipelem` has copied an element into it. -/
def copyElem (name : Name) (elem : List (BitVec 8)) : Name :=
  if DIRSIZ ≤ elem.length then fun j => elem.getD j 0
  else (name.store 0 (fun j => elem.getD j 0) elem.length).set elem.length 0

/-- Copy the next path element from `path` into `name`, and return the rest, which has no leading slashes. -/
def skipelem (path : Path) (name : Name) : Option (Path × Name) :=
  let path := path.dropWhile (· = SLASH)
  if path = [] then none
  else
    let elem := path.takeWhile (· ≠ SLASH)
    let rest := path.dropWhile (· ≠ SLASH)
    some (rest.dropWhile (· = SLASH), copyElem name elem)

theorem length_skipelem {path rest : Path} {name name' : Name} (h : skipelem path name = some (rest, name')) :
    rest.length < path.length := by
  unfold skipelem at h
  simp only at h
  split_ifs at h with hnil
  obtain ⟨hrest, -⟩ := Prod.mk.inj (Option.some.inj h)
  have h1 := (List.dropWhile_suffix (l := path) (· = SLASH)).length_le
  cases hp : path.dropWhile (· = SLASH) with
  | nil => exact absurd hp hnil
  | cons b l =>
    have hb : b ≠ SLASH := by
      have := List.head_dropWhile_not (l := path) (· = SLASH) hnil
      simp only [hp, List.head_cons] at this
      simpa using this
    rw [hp] at hrest h1
    have h2 := (List.dropWhile_suffix (l := (b :: l).dropWhile (· ≠ SLASH)) (· = SLASH)).length_le
    have h3 : ((b :: l).dropWhile (· ≠ SLASH)).length ≤ l.length := by
      rw [List.dropWhile_cons_of_pos (by simpa using hb)]
      exact (List.dropWhile_suffix _).length_le
    rw [hrest] at h2
    rw [List.length_cons] at h1
    omega

end Xv6

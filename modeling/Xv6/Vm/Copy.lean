import Xv6.Lib.Bytes
import Mathlib.Logic.Function.Basic

/-!
# Copies between the kernel and user memory

`copyin` and `copyout` of `kernel/vm.c` walk the user addresses page by page and stop at the first page
that `walkaddr` does not find; what was copied before stays copied. `either_copyin` and `either_copyout` of
`kernel/proc.c` choose between them and a plain `memmove`.
-/

namespace Xv6

def PGSIZE : Nat := 4096

/-- One past the highest virtual address. -/
def MAXVA : Nat := 2 ^ 38

/-- User memory as `walkaddr` finds it: the pages mapped with `PTE_V` and `PTE_U`, by page number. -/
structure UserMem where
  page : Nat → Option (Bytes PGSIZE)
  above : ∀ k, MAXVA ≤ k * PGSIZE → page k = none

namespace UserMem

def unmapped : UserMem := ⟨fun _ => none, fun _ _ => rfl⟩

def byte (m : UserMem) (va : Nat) : Option (BitVec 8) :=
  (m.page (va / PGSIZE)).map fun pg => pg.get (va % PGSIZE)

variable {n : Nat}
variable {k len va : Nat}

/-- Copy `len` bytes from `srcva` to offset `off` of a buffer; the first argument bounds the iterations. -/
def copyinLoop (m : UserMem) : Nat → Bytes n → (off srcva len : Nat) → Bytes n × Bool
  | 0, d, _, _, _ => (d, true)
  | fuel + 1, d, off, srcva, len =>
    if len = 0 then (d, true)
    else
      match m.page (srcva / PGSIZE) with
      | none => (d, false)
      | some pg =>
        let k := min (PGSIZE - srcva % PGSIZE) len
        copyinLoop m fuel (d.store off (fun i => pg.get (srcva % PGSIZE + i)) k) (off + k)
          ((srcva / PGSIZE * PGSIZE + PGSIZE) % 2 ^ 64) (len - k)

/-- Every iteration copies a byte, so `len` iterations are enough. -/
def copyin (m : UserMem) (d : Bytes n) (off srcva len : Nat) : Bytes n × Bool :=
  m.copyinLoop len d off srcva len

/-- Store into a mapped page. -/
def storePage (m : UserMem) (k : Nat) (pg : Bytes PGSIZE) (h : m.page k ≠ none) : UserMem where
  page := Function.update m.page k (some pg)
  above j hj := by
    by_cases hjk : j = k
    · subst hjk
      exact absurd (m.above j hj) h
    · rw [Function.update_of_ne hjk]
      exact m.above j hj

def copyoutLoop (m : UserMem) (src : Nat → BitVec 8) : Nat → (srcoff dstva len : Nat) → UserMem × Bool
  | 0, _, _, _ => (m, true)
  | fuel + 1, srcoff, dstva, len =>
    if len = 0 then (m, true)
    else
      match h : m.page (dstva / PGSIZE) with
      | none => (m, false)
      | some pg =>
        let k := min (PGSIZE - dstva % PGSIZE) len
        let pg' := pg.store (dstva % PGSIZE) (fun i => src (srcoff + i)) k
        copyoutLoop (m.storePage (dstva / PGSIZE) pg' (by rw [h]; exact Option.some_ne_none pg)) src fuel
          (srcoff + k) ((dstva / PGSIZE * PGSIZE + PGSIZE) % 2 ^ 64) (len - k)

def copyout (m : UserMem) (dstva : Nat) (src : Nat → BitVec 8) (len : Nat) : UserMem × Bool :=
  m.copyoutLoop src len 0 dstva len

/-- The inner loop of `copyinstr`: bytes of a page from offset `p` on, up to a NUL; returns where `dst` and
`max` are then, and whether there was a NUL. -/
def copystr (pg : Bytes PGSIZE) : Nat → Bytes n → (off p max : Nat) → Bytes n × Nat × Nat × Bool
  | 0, d, off, _, max => (d, off, max, false)
  | k + 1, d, off, p, max =>
    if pg.get p = 0 then (d.set off 0, off, max, true)
    else copystr pg k (d.set off (pg.get p)) (off + 1) (p + 1) (max - 1)

def copyinstrLoop (m : UserMem) : Nat → Bytes n → (off srcva max : Nat) → Bytes n × Bool
  | 0, d, _, _, _ => (d, false)
  | fuel + 1, d, off, srcva, max =>
    if max = 0 then (d, false)
    else
      match m.page (srcva / PGSIZE) with
      | none => (d, false)
      | some pg =>
        match copystr pg (min (PGSIZE - srcva % PGSIZE) max) d off (srcva % PGSIZE) max with
        | (d', _, _, true) => (d', true)
        | (d', off', max', false) => copyinstrLoop m fuel d' off' ((srcva / PGSIZE * PGSIZE + PGSIZE) % 2 ^ 64) max'

/-! ## What is copied -/

theorem lt_of_byte {m : UserMem} (h : m.byte va ≠ none) : va < MAXVA := by
  by_contra hge
  refine h ?_
  have hP : PGSIZE = 4096 := rfl
  have hM : MAXVA = 67108864 * 4096 := rfl
  rw [byte, m.above (va / PGSIZE) (by rw [hP]; omega)]
  rfl

theorem next_page (hk : k = min (PGSIZE - va % PGSIZE) len) (hlt : va < MAXVA) (h : k < len) :
    (va / PGSIZE * PGSIZE + PGSIZE) % 2 ^ 64 = va + k := by
  have hP : PGSIZE = 4096 := rfl
  have hM : MAXVA = 2 ^ 38 := rfl
  rw [hP] at hk ⊢
  rw [Nat.mod_eq_of_lt (by omega)]
  omega

theorem page_offset {i : Nat} (hk : k = min (PGSIZE - va % PGSIZE) len) (hi : i < k) :
    (va + i) / PGSIZE = va / PGSIZE ∧ (va + i) % PGSIZE = va % PGSIZE + i := by
  have hP : PGSIZE = 4096 := rfl
  rw [hP] at hk ⊢
  omega

theorem chunk_pos (hk : k = min (PGSIZE - va % PGSIZE) len) (h0 : len ≠ 0) : 0 < k := by
  have : va % PGSIZE < PGSIZE := Nat.mod_lt _ (by decide)
  omega

variable {m : UserMem} {a j : Nat} {pg : Bytes PGSIZE}

theorem byte_of_page (hpg : m.page (va / PGSIZE) = some pg) (hk : k = min (PGSIZE - va % PGSIZE) len) :
    ∀ i, i < k → m.byte (va + i) = some (pg.get (va % PGSIZE + i)) := by
  intro i hi
  obtain ⟨hdiv, hmod⟩ := page_offset hk hi
  rw [byte, hdiv, hmod, hpg]
  rfl

theorem lt_of_page (hpg : m.page (va / PGSIZE) = some pg) : va < MAXVA :=
  lt_of_byte (m := m) (by rw [byte, hpg]; exact Option.some_ne_none _)

/-- `j` of `len` bytes from address `a` on are mapped, and no more. -/
structure Reaches (m : UserMem) (a len j : Nat) : Prop where
  le : j ≤ len
  mapped : ∀ i, i < j → m.byte (a + i) ≠ none
  stops : j < len → m.byte (a + j) = none

namespace Reaches

theorem zero : m.Reaches a 0 0 := ⟨Nat.le_refl 0, nofun, nofun⟩

theorem unmapped (h : m.page (a / PGSIZE) = none) : m.Reaches a len 0 :=
  ⟨Nat.zero_le _, nofun, fun _ => by rw [Nat.add_zero, byte, h]; rfl⟩

theorem add (hpg : m.page (a / PGSIZE) = some pg) (hk : k = min (PGSIZE - a % PGSIZE) len)
    (h : m.Reaches (a + k) (len - k) j) : m.Reaches a len (k + j) := by
  obtain ⟨hle, hmapped, hstops⟩ := h
  refine ⟨by omega, fun i hi => ?_, fun h => ?_⟩
  · by_cases hik : i < k
    · rw [byte_of_page hpg hk i hik]
      exact Option.some_ne_none _
    · have hi' := hmapped (i - k) (by omega)
      rwa [show a + k + (i - k) = a + i by omega] at hi'
  · rw [← Nat.add_assoc]
    exact hstops (by omega)

theorem eq (h : m.Reaches a len j) (hmap : ∀ i, i < len → m.byte (a + i) ≠ none) : j = len := by
  by_contra hne
  have hlt : j < len := Nat.lt_of_le_of_ne h.le hne
  exact hmap j hlt (h.stops hlt)

end Reaches

theorem store_add (m : UserMem) (d : Bytes n) (off a k j : Nat) :
    (d.store off (fun i => (m.byte (a + i)).getD 0) k).store (off + k) (fun i => (m.byte (a + k + i)).getD 0) j =
      d.store off (fun i => (m.byte (a + i)).getD 0) (k + j) := by
  rw [← Bytes.store_store]
  simp only [Nat.add_assoc]

theorem store_page (d : Bytes n) (off : Nat) (hpg : m.page (a / PGSIZE) = some pg)
    (hk : k = min (PGSIZE - a % PGSIZE) len) (hj : j ≤ k) :
    d.store off (fun i => pg.get (a % PGSIZE + i)) j = d.store off (fun i => (m.byte (a + i)).getD 0) j :=
  Bytes.store_congr d fun i hi => by rw [byte_of_page hpg hk i (by omega)]; rfl

theorem copyinLoop_spec (m : UserMem) (fuel : Nat) : ∀ (d : Bytes n) (off srcva a len : Nat), len ≤ fuel →
    (0 < len → srcva = a) → ∃ j, m.Reaches a len j ∧
      m.copyinLoop fuel d off srcva len = (d.store off (fun k => (m.byte (a + k)).getD 0) j, decide (j = len)) := by
  induction fuel with
  | zero =>
    intro d off srcva a len hlen _
    obtain rfl := Nat.le_zero.mp hlen
    exact ⟨0, .zero, by rw [Bytes.store_zero]; rfl⟩
  | succ fuel ih =>
    intro d off srcva a len hlen hva
    rw [copyinLoop]
    by_cases h0 : len = 0
    · subst h0
      exact ⟨0, .zero, by rw [if_pos rfl, Bytes.store_zero]; rfl⟩
    obtain rfl := hva (Nat.pos_of_ne_zero h0)
    rw [if_neg h0]
    cases hpg : m.page (srcva / PGSIZE) with
    | none => exact ⟨0, .unmapped hpg, by rw [Bytes.store_zero, decide_eq_false (Ne.symm h0)]⟩
    | some pg =>
      obtain ⟨k, hk⟩ : ∃ k, k = min (PGSIZE - srcva % PGSIZE) len := ⟨_, rfl⟩
      have hpos := chunk_pos hk h0
      obtain ⟨j, hr, hj⟩ := ih (d.store off (fun i => pg.get (srcva % PGSIZE + i)) k) (off + k)
        ((srcva / PGSIZE * PGSIZE + PGSIZE) % 2 ^ 64) (srcva + k) (len - k) (by omega) fun h =>
          next_page hk (lt_of_page hpg) (by omega)
      refine ⟨k + j, hr.add hpg hk, ?_⟩
      simp only [← hk]
      rw [hj, store_page d off hpg hk (Nat.le_refl k), store_add]
      exact congrArg _ (decide_eq_decide.mpr (by omega))

theorem copyin_spec (m : UserMem) (d : Bytes n) (off srcva len : Nat) :
    ∃ j, m.Reaches srcva len j ∧
      m.copyin d off srcva len = (d.store off (fun k => (m.byte (srcva + k)).getD 0) j, decide (j = len)) :=
  m.copyinLoop_spec len d off srcva srcva len (Nat.le_refl _) fun _ => rfl

theorem copyin_ok (m : UserMem) (d : Bytes n) (off srcva len : Nat) (h : ∀ k, k < len → m.byte (srcva + k) ≠ none) :
    m.copyin d off srcva len = (d.store off (fun k => (m.byte (srcva + k)).getD 0) len, true) := by
  obtain ⟨j, hr, hj⟩ := m.copyin_spec d off srcva len
  rw [hj, hr.eq h, decide_eq_true rfl]

theorem copystr_spec (pg : Bytes PGSIZE) (k : Nat) : ∀ (d : Bytes n) (off p max : Nat),
    ∃ j, j ≤ k ∧ (∀ i, i < j → pg.get (p + i) ≠ 0) ∧
      (j < k ∧ pg.get (p + j) = 0 ∧
          copystr pg k d off p max = (d.store off (fun i => pg.get (p + i)) (j + 1), off + j, max - j, true) ∨
        j = k ∧ copystr pg k d off p max = (d.store off (fun i => pg.get (p + i)) j, off + j, max - j, false)) := by
  induction k with
  | zero => exact fun d off p max => ⟨0, Nat.le_refl 0, fun i hi => by omega, .inr ⟨rfl, by rw [Bytes.store_zero]; rfl⟩⟩
  | succ k ih =>
    intro d off p max
    rw [copystr]
    by_cases h0 : pg.get p = 0
    · refine ⟨0, Nat.zero_le _, fun i hi => by omega, .inl ⟨by omega, h0, ?_⟩⟩
      rw [if_pos h0, Bytes.set]
      refine congrArg (·, _) (Bytes.store_congr d fun i hi => ?_)
      rw [show p + i = p by omega, h0]
    · obtain ⟨j, hj, hne, hcases⟩ := ih (d.set off (pg.get p)) (off + 1) (p + 1) (max - 1)
      have hstore : ∀ l, (d.set off (pg.get p)).store (off + 1) (fun i => pg.get (p + 1 + i)) l =
          d.store off (fun i => pg.get (p + i)) (l + 1) := by
        intro l
        have hset : d.set off (pg.get p) = d.store off (fun i => pg.get (p + i)) 1 :=
          Bytes.store_congr d fun i hi => by rw [show p + i = p by omega]
        rw [hset, Nat.add_comm l 1, ← Bytes.store_store]
        simp only [Nat.add_assoc]
      rw [if_neg h0]
      refine ⟨j + 1, by omega, fun i hi => ?_, ?_⟩
      · cases i with
        | zero => exact h0
        | succ i =>
          have := hne i (by omega)
          rwa [Nat.add_assoc, Nat.add_comm 1 i] at this
      · rw [show p + (j + 1) = p + 1 +
          j by omega, show off + (j + 1) = off + 1 + j by omega, show max - (j + 1) = max - 1 - j by omega]
        rcases hcases with ⟨hlt, hz, heq⟩ | ⟨hk, heq⟩
        · exact .inl ⟨by omega, hz, by rw [heq, hstore]⟩
        · exact .inr ⟨by omega, by rw [heq, hstore]⟩

/-- `j` bytes of a string of at most `max` bytes can be read from address `a` on; none of them is a NUL. -/
structure StringAt (m : UserMem) (a max j : Nat) : Prop where
  le : j ≤ max
  bytes : ∀ i, i < j → ∃ b, m.byte (a + i) = some b ∧ b ≠ 0

theorem copyinstrLoop_spec (m : UserMem) (fuel : Nat) : ∀ (d : Bytes n) (off srcva a max : Nat), max ≤ fuel →
    (0 < max → srcva = a) → ∃ j, m.StringAt a max j ∧
      (j < max ∧ m.byte (a + j) = some 0 ∧
          m.copyinstrLoop fuel d off srcva max = (d.store off (fun k => (m.byte (a + k)).getD 0) (j + 1), true) ∨
        (j < max → m.byte (a + j) = none) ∧
          m.copyinstrLoop fuel d off srcva max = (d.store off (fun k => (m.byte (a + k)).getD 0) j, false)) := by
  induction fuel with
  | zero =>
    intro d off srcva a max hmax _
    exact ⟨0, ⟨Nat.zero_le _, nofun⟩, .inr ⟨fun h => by omega, by rw [Bytes.store_zero]; rfl⟩⟩
  | succ fuel ih =>
    intro d off srcva a max hmax hva
    rw [copyinstrLoop]
    by_cases h0 : max = 0
    · exact ⟨0, ⟨Nat.zero_le _, nofun⟩, .inr ⟨fun h => by omega, by rw [if_pos h0, Bytes.store_zero]⟩⟩
    obtain rfl := hva (Nat.pos_of_ne_zero h0)
    rw [if_neg h0]
    cases hpg : m.page (srcva / PGSIZE) with
    | none =>
      refine ⟨0, ⟨Nat.zero_le _, nofun⟩, .inr ⟨fun _ => by rw [Nat.add_zero, byte, hpg]; rfl, ?_⟩⟩
      rw [Bytes.store_zero]
    | some pg =>
      obtain ⟨k, hk⟩ : ∃ k, k = min (PGSIZE - srcva % PGSIZE) max := ⟨_, rfl⟩
      have hpos := chunk_pos hk h0
      have hbyte := byte_of_page hpg hk
      simp only [← hk]
      obtain ⟨j, hj, hne, hcases⟩ := copystr_spec pg k d off (srcva % PGSIZE) max
      have hstr : ∀ i, i < j → ∃ b, m.byte (srcva + i) = some b ∧ b ≠ 0 := fun i hi => ⟨_, hbyte i (by omega), hne i hi⟩
      rcases hcases with ⟨hlt, hz, heq⟩ | ⟨rfl, heq⟩
      · refine ⟨j, ⟨by omega, hstr⟩, .inl ⟨by omega, by rw [hbyte j hlt, hz], ?_⟩⟩
        simp only [heq]
        rw [store_page d off hpg hk hlt]
      · obtain ⟨j', ⟨hle, hstr'⟩, hcases'⟩ := ih (d.store off (fun i => pg.get (srcva % PGSIZE + i)) j) (off + j)
          ((srcva / PGSIZE * PGSIZE + PGSIZE) % 2 ^ 64) (srcva + j) (max - j) (by omega) fun h =>
            next_page hk (lt_of_page hpg) (by omega)
        simp only [heq]
        refine ⟨j + j', ⟨by omega, fun i hi => ?_⟩, ?_⟩
        · by_cases hij : i < j
          · exact hstr i hij
          · have := hstr' (i - j) (by omega)
            rwa [show srcva + j + (i - j) = srcva + i by omega] at this
        · rw [← Nat.add_assoc]
          rw [store_page d off hpg hk (Nat.le_refl j)] at hcases' ⊢
          rcases hcases' with ⟨h1, h2, h3⟩ | ⟨h1, h2⟩
          · exact .inl ⟨by omega, h2, by rw [h3, store_add, Nat.add_assoc]⟩
          · exact .inr ⟨fun h => h1 (by omega), by rw [h2, store_add]⟩

theorem byte_storePage (m : UserMem) (k : Nat) (pg : Bytes PGSIZE) (h : m.page k ≠ none) (va : Nat) :
    (m.storePage k pg h).byte va = if va / PGSIZE = k then some (pg.get (va % PGSIZE)) else m.byte va := by
  change (Function.update m.page k (some pg) (va / PGSIZE)).map (fun pg => pg.get (va % PGSIZE)) = _
  split_ifs with hk
  · rw [hk, Function.update_self]
    rfl
  · rw [Function.update_of_ne hk]
    rfl

theorem copyoutLoop_ok (src : Nat → BitVec 8) (fuel : Nat) : ∀ (m : UserMem) (srcoff dstva a len : Nat), len ≤ fuel →
    (0 < len → dstva = a) → (∀ k, k < len → m.byte (a + k) ≠ none) →
    ∃ m', m.copyoutLoop src fuel srcoff dstva len = (m', true) ∧
      ∀ va, m'.byte va = if a ≤ va ∧ va < a + len then some (src (srcoff + (va - a))) else m.byte va := by
  induction fuel with
  | zero =>
    intro m srcoff dstva a len hlen _ _
    exact ⟨m, rfl, fun va => (if_neg (by omega)).symm⟩
  | succ fuel ih =>
    intro m srcoff dstva a len hlen hdst hmap
    rw [copyoutLoop]
    by_cases h0 : len = 0
    · exact ⟨m, if_pos h0, fun va => (if_neg (by omega)).symm⟩
    obtain rfl := hdst (Nat.pos_of_ne_zero h0)
    rw [if_neg h0]
    split
    · next hpg => exact absurd (by rw [Nat.add_zero, byte, hpg]; rfl) (hmap 0 (by omega))
    · next pg hpg =>
      obtain ⟨k, hk⟩ : ∃ k, k = min (PGSIZE - dstva % PGSIZE) len := ⟨_, rfl⟩
      have hP : PGSIZE = 4096 := rfl
      have hpos := chunk_pos hk h0
      simp only [← hk]
      obtain ⟨m1, hm1⟩ : ∃ m1, m1 = m.storePage (dstva / PGSIZE)
        (pg.store (dstva % PGSIZE) (fun i => src (srcoff + i)) k) (by rw [hpg]; exact Option.some_ne_none pg) :=
        ⟨_, rfl⟩
      -- the bytes of the first page
      have hbyte : ∀ va, m1.byte va =
          if dstva ≤ va ∧ va < dstva + k then some (src (srcoff + (va - dstva))) else m.byte va := by
        intro va
        rw [hm1, byte_storePage, Bytes.get_store]
        by_cases hpage : va / PGSIZE = dstva / PGSIZE
        · rw [if_pos hpage]
          by_cases hin : dstva ≤ va ∧ va < dstva + k
          · rw [if_pos (by rw [hP] at hk hpage ⊢; omega), if_pos hin,
              show va % PGSIZE - dstva % PGSIZE = va - dstva by rw [hP] at hpage ⊢; omega]
          · rw [if_neg (by rw [hP] at hk hpage ⊢; omega), if_neg hin, byte, hpage, hpg]
            rfl
        · rw [if_neg hpage, if_neg (by rw [hP] at hk hpage; omega)]
      rw [← hm1]
      obtain ⟨m', hm', hva⟩ := ih m1 (srcoff + k) ((dstva / PGSIZE * PGSIZE + PGSIZE) % 2 ^ 64) (dstva + k) (len - k)
        (by omega) (fun h => next_page hk (lt_of_page hpg) (by omega)) fun j hj => by
          rw [hbyte, if_neg (by omega), Nat.add_assoc]
          exact hmap _ (by omega)
      refine ⟨m', hm', fun va => ?_⟩
      rw [hva, hbyte]
      by_cases hlow : va < dstva + k
      · rw [if_neg (by omega)]
        exact if_congr (by omega) rfl rfl
      · by_cases hin : va < dstva + len
        · rw [if_pos (by omega), if_pos (by omega), show srcoff + k + (va - (dstva + k)) = srcoff +
            (va - dstva) by omega]
        · rw [if_neg (by omega), if_neg (by omega), if_neg (by omega)]

end UserMem

/-! ## `either_copyin` and `either_copyout` -/

/-- The memory a system call's buffer is in. -/
inductive Memory
  | user (m : UserMem)
  | kernel (byte : Nat → BitVec 8)

namespace Memory

def byte : Memory → Nat → Option (BitVec 8)
  | .user m, a => m.byte a
  | .kernel f, a => if a < 2 ^ 64 then some (f a) else none

variable {n : Nat}

def eitherCopyin (m : Memory) (d : Bytes n) (off src len : Nat) : Bytes n × Bool :=
  match m with
  | .user m => m.copyin d off src len
  | .kernel f => (d.store off (fun k => f (src + k)) len, true)

def eitherCopyout (m : Memory) (dst : Nat) (src : Nat → BitVec 8) (len : Nat) : Memory × Bool :=
  match m with
  | .user m => ((.user (m.copyout dst src len).1), (m.copyout dst src len).2)
  | .kernel f => (.kernel fun a => if dst ≤ a ∧ a < dst + len then src (a - dst) else f a, true)

/-- `len` bytes from address `a` on can be accessed. -/
def Mapped (m : Memory) (a len : Nat) : Prop := ∀ k, k < len → m.byte (a + k) ≠ none

/-- The bytes from address `a` on. -/
def bytesAt (m : Memory) (a k : Nat) : BitVec 8 := (m.byte (a + k)).getD 0

/-- `len` bytes from address `a` on. -/
def bytes (m : Memory) (a len : Nat) : List (BitVec 8) := (List.range len).map (m.bytesAt a)

theorem bytesAt_add (m : Memory) (a b k : Nat) : m.bytesAt (a + b) k = m.bytesAt a (b + k) := by
  rw [bytesAt, bytesAt, Nat.add_assoc]

variable {m : Memory}

theorem lt_of_mapped {a : Nat} (h : m.Mapped a len) (hk : k < len) : a + k < 2 ^ 64 := by
  cases m with
  | user m => exact (UserMem.lt_of_byte (h k hk)).trans (by decide)
  | kernel f =>
    have hbyte : (if a + k < 2 ^ 64 then some (f (a + k)) else none) ≠ none := h k hk
    split_ifs at hbyte with hlt
    · exact hlt
    · exact absurd rfl hbyte

theorem eitherCopyin_ok (m : Memory) (d : Bytes n) (off : Nat) {src : Nat} (h : m.Mapped src len) :
    m.eitherCopyin d off src len = (d.store off (m.bytesAt src) len, true) := by
  cases m with
  | user m => exact m.copyin_ok d off src len h
  | kernel f =>
    refine congrArg (·, true) (Bytes.store_congr d fun k hk => ?_)
    rw [bytesAt, byte, if_pos (lt_of_mapped h hk)]
    rfl

/-- `either_copyin` of the kernel does not run over the end of the address space. -/
def Fits : Memory → Nat → Nat → Prop
  | .user _, _, _ => True
  | .kernel _, a, len => a + len ≤ 2 ^ 64

theorem eitherCopyin_spec (m : Memory) (d : Bytes n) (off : Nat) {src : Nat} (h : m.Fits src len) :
    ∃ j, j ≤ len ∧ m.Mapped src j ∧ (j < len → m.byte (src + j) = none) ∧
      m.eitherCopyin d off src len = (d.store off (fun k => (m.byte (src + k)).getD 0) j, decide (j = len)) := by
  cases m with
  | user m =>
    obtain ⟨j, hj, hcopy⟩ := m.copyin_spec d off src len
    exact ⟨j, hj.le, hj.mapped, hj.stops, hcopy⟩
  | kernel f =>
    have hmap : (Memory.kernel f).Mapped src len := fun k hk => by
      have hle : src + len ≤ 2 ^ 64 := h
      rw [byte, if_pos (by omega)]
      exact Option.some_ne_none _
    exact ⟨len, Nat.le_refl _, hmap, fun hlt =>
      absurd hlt (Nat.lt_irrefl _), by rw [eitherCopyin_ok _ d off hmap, decide_eq_true rfl]; rfl⟩

theorem Fits.next_lt {a : Nat} (h : m.Fits a len) (hk : k + 1 < len) (hbyte : m.byte (a + k) ≠ none) :
    a + (k + 1) < 2 ^ 64 := by
  cases m with
  | user m =>
    have hlt := UserMem.lt_of_byte hbyte
    have hM : MAXVA = 2 ^ 38 := rfl
    omega
  | kernel f =>
    have hle : a + len ≤ 2 ^ 64 := h
    omega

theorem Fits.mono {a j : Nat} (h : m.Fits a len) (hle : j + k ≤ len) : m.Fits (a + j) k := by
  cases m with
  | user m => trivial
  | kernel f =>
    have hlen : a + len ≤ 2 ^ 64 := h
    change a + j + k ≤ 2 ^ 64
    omega

theorem eitherCopyout_ok (m : Memory) {dst : Nat} (src : Nat → BitVec 8) (h : m.Mapped dst len) :
    ∃ m', m.eitherCopyout dst src len = (m', true) ∧
      ∀ a, m'.byte a = if dst ≤ a ∧ a < dst + len then some (src (a - dst)) else m.byte a := by
  cases m with
  | user m =>
    obtain ⟨m', hm', hbyte⟩ := UserMem.copyoutLoop_ok src len m 0 dst dst len (Nat.le_refl _) (fun _ => rfl) h
    refine ⟨.user m', ?_, fun a => ?_⟩
    · change (Memory.user (m.copyoutLoop src len 0 dst len).1, (m.copyoutLoop src len 0 dst len).2) = _
      rw [hm']
    · have := hbyte a
      rwa [Nat.zero_add] at this
  | kernel f =>
    refine ⟨_, rfl, fun a => ?_⟩
    change (if a < 2 ^ 64 then some (if dst ≤ a ∧ a < dst + len then src (a - dst) else f a) else none) = _
    by_cases hin : dst ≤ a ∧ a < dst + len
    · have hlt := lt_of_mapped h (show a - dst < len by omega)
      rw [if_pos hin, if_pos hin, if_pos (by omega)]
    · rw [if_neg hin, if_neg hin]
      rfl

end Memory

end Xv6

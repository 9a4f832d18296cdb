import Xv6.Sched.Pipe
import Xv6.Vm.Copy

/-!
# What a read takes out of a pipe

One call of `piperead` with the memory that it copies to. The code is that of `Xv6.Sched.Pipe`; here the outcome of each
`copyout` is that of the caller's page table. The loop advances `nread` before it copies, so the byte whose copy fails
is neither returned nor left in the pipe. A call takes what it returns exactly when no copy fails.
-/

namespace Xv6.Sched.Pipe

open Machine (Run any)

/-- A call of `piperead` that holds `pi->lock`. `found` is history: the pipe when the call last got the lock. -/
structure Reading where
  loc : PipeLoc
  pi : Pipe
  found : Pipe
  mem : UserMem

def Reading.start (n : BitVec 32) (pi : Pipe) (m : UserMem) : Reading := ⟨.readEmpty n.toInt, pi, pi, m⟩

/-- `copyout(pr->pagetable, addr + i, &ch, 1)` -/
def Reading.copyout (s : Reading) (addr : BitVec 64) (i : Int) : UserMem × Bool :=
  s.mem.copyout (addr + BitVec.ofInt 64 i).toNat (fun _ => s.pi.data (s.pi.nread.toNat % PIPESIZE)) 1

/-- The memory after the next step, and whether its `copyout` worked. -/
def Reading.copy (s : Reading) (addr : BitVec 64) : UserMem × Bool :=
  match s.loc with
  | .readLoop n i => if i < n ∧ s.pi.empty = false then s.copyout addr i else (s.mem, true)
  | _ => (s.mem, true)

/-- The next step of the call. `e` says whether the process has been killed and, where the call sleeps, which pipe the
others leave when it has the lock again. -/
def Reading.step (p : Slot) (addr : BitVec 64) (s : Reading) (e : Bool × Pipe) : Option Reading :=
  match s.pi.code p e.1 (.copyout (s.copy addr).2) s.loc with
  | some (.update pi l) => some { s with loc := l, pi := pi, mem := (s.copy addr).1 }
  | some (.wakeup _ l) => some { s with loc := l }
  | some (.sleep _ l) => some { s with loc := l, pi := e.2, found := e.2 }
  | some .leave => none
  | none => none

/-! ## The law -/

/-- The byte that is read after `j` others. -/
def cell (pi : Pipe) (j : Nat) : BitVec 8 := pi.data ((pi.nread + BitVec.ofNat 32 j).toNat % PIPESIZE)

/-- How many bytes are in the pipe. -/
def avail (pi : Pipe) : Nat := (pi.nwrite - pi.nread).toNat

/-- The address of byte `j` of a buffer. -/
def dest (addr : BitVec 64) (j : Nat) : Nat := (addr + BitVec.ofNat 64 j).toNat

/-- From the pipe `found`, `taken` bytes have been taken, and the first `i` of them are in the buffer at `addr`. -/
structure Takes (addr : BitVec 64) (m₀ : UserMem) (found pi : Pipe) (mem : UserMem) (i taken : Nat) : Prop where
  data : pi.data = found.data
  nwrite : pi.nwrite = found.nwrite
  nread : pi.nread = found.nread + BitVec.ofNat 32 taken
  copied : ∀ j, j < i → mem.byte (dest addr j) = some (found.cell j)
  rest : ∀ a, (∀ j, j < i → a ≠ dest addr j) → mem.byte a = m₀.byte a

/-- A call that returns `v` has taken `v` bytes and copied them, and one that returns -1 has taken none. -/
def Consumes (addr : BitVec 64) (m₀ : UserMem) (s : Reading) (v : Int) : Prop :=
  (∃ i : Nat, v = i ∧ Takes addr m₀ s.found s.pi s.mem i i) ∨ v = -1 ∧ Takes addr m₀ s.found s.pi s.mem 0 0

/-- The bytes that a read of `n` bytes takes can be copied. -/
def Fits (addr : BitVec 64) (m₀ : UserMem) (pi : Pipe) (n : BitVec 32) : Prop :=
  ∀ j : Nat, (j : Int) < n.toInt → j < pi.avail → m₀.byte (dest addr j) ≠ none

/-! ## The loop -/

theorem dest_ne {addr : BitVec 64} {i j : Nat} (hij : i < j) (hj : j < 2 ^ 31) : dest addr i ≠ dest addr j := by
  intro h
  have heq := (BitVec.add_right_inj addr).mp (BitVec.eq_of_toNat_eq h)
  have hnat := congrArg BitVec.toNat heq
  rw [BitVec.toNat_ofNat, BitVec.toNat_ofNat, Nat.mod_eq_of_lt (by omega), Nat.mod_eq_of_lt (by omega)] at hnat
  omega

theorem lt_avail_iff {pi : Pipe} {i : Nat} (hi : i ≤ pi.avail) :
    i < pi.avail ↔ pi.nread + BitVec.ofNat 32 i ≠ pi.nwrite := by
  have hlt : pi.avail < 2 ^ 32 := (pi.nwrite - pi.nread).isLt
  have hend : pi.nread + BitVec.ofNat 32 pi.avail = pi.nwrite := by
    rw [avail, BitVec.ofNat_toNat, BitVec.setWidth_eq, BitVec.add_comm, BitVec.sub_add_cancel]
  constructor
  · intro h heq
    have hnat := congrArg BitVec.toNat ((BitVec.add_right_inj pi.nread).mp (heq.trans hend.symm))
    rw [BitVec.toNat_ofNat, BitVec.toNat_ofNat, Nat.mod_eq_of_lt (by omega), Nat.mod_eq_of_lt hlt] at hnat
    omega
  · intro h
    refine Nat.lt_of_le_of_ne hi fun heq => h ?_
    rw [heq, hend]

theorem copyout_byte (m : UserMem) (va : Nat) (b : BitVec 8) :
    (m.byte va = none ∧ m.copyout va (fun _ => b) 1 = (m, false)) ∨
      m.byte va ≠ none ∧ ∃ m', m.copyout va (fun _ => b) 1 = (m', true) ∧
        ∀ a, m'.byte a = if a = va then some b else m.byte a := by
  by_cases hva : m.byte va = none
  · refine .inl ⟨hva, ?_⟩
    have hpg : m.page (va / PGSIZE) = none := by
      rw [UserMem.byte, Option.map_eq_none_iff] at hva
      exact hva
    rw [UserMem.copyout, UserMem.copyoutLoop, if_neg Nat.one_ne_zero]
    split
    · rfl
    · next pg h =>
      simp [hpg] at h
  · obtain ⟨m', hm', hbyte⟩ := UserMem.copyoutLoop_ok (fun _ => b) 1 m 0 va va 1 (Nat.le_refl 1) (fun _ => rfl)
      fun k hk => by
      rwa [show va + k = va by omega]
    refine .inr ⟨hva, m', hm', fun a => ?_⟩
    rw [hbyte]
    exact if_congr (by omega) rfl rfl

variable {p : Slot} {addr : BitVec 64} {m₀ mem mem' : UserMem} {n : BitVec 32} {found pi : Pipe} {s t : Reading}
  {e : Bool × Pipe} {i taken : Nat}

theorem Takes.cell_eq (h : Takes addr m₀ found pi mem i i) : pi.data (pi.nread.toNat % PIPESIZE) = found.cell i := by
  rw [h.data, h.nread]
  rfl

theorem Takes.empty_iff (h : Takes addr m₀ found pi mem i i) (hi : i ≤ found.avail) :
    pi.empty = false ↔ i < found.avail := by
  rw [lt_avail_iff hi, Pipe.empty, h.nread, h.nwrite, decide_eq_false_iff_not]

theorem Takes.fresh (h : Takes addr m₀ found pi mem i i) (hi : i < 2 ^ 31) :
    mem.byte (dest addr i) = m₀.byte (dest addr i) := h.rest _ fun _ hj => (dest_ne hj hi).symm

theorem Takes.nread_pop (h : Takes addr m₀ found pi mem i taken) :
    pi.pop.nread = found.nread + BitVec.ofNat 32 (taken + 1) := by
  change pi.nread + 1 = _
  rw [h.nread, BitVec.add_assoc, RingBuffer.ofNat_add_one]

theorem Takes.pop (h : Takes addr m₀ found pi mem i i) (hi : i < 2 ^ 31)
    (hm : ∀ a, mem'.byte a = if a = dest addr i then some (found.cell i) else mem.byte a) :
    Takes addr m₀ found pi.pop mem' (i + 1) (i + 1) where
  data := h.data
  nwrite := h.nwrite
  nread := h.nread_pop
  copied j hj := by
    rw [hm]
    by_cases hji : j = i
    · rw [if_pos (by rw [hji]), hji]
    · have hlt : j < i := by omega
      rw [if_neg (dest_ne hlt hi)]
      exact h.copied j hlt
  rest a ha := by
    rw [hm, if_neg (ha i (Nat.lt_succ_self i))]
    exact h.rest a fun j hj => ha j (Nat.lt_succ_of_lt hj)

theorem Takes.lose (h : Takes addr m₀ found pi mem i i) : Takes addr m₀ found pi.pop mem i (i + 1) :=
  ⟨h.data, h.nwrite, h.nread_pop, h.copied, h.rest⟩

theorem takes_none : Takes addr m₀ pi pi m₀ 0 0 where
  data := rfl
  nwrite := rfl
  nread := (BitVec.add_zero _).symm
  copied j hj := absurd hj (Nat.not_lt_zero j)
  rest _ _ := rfl

/-- The call ends after `i` bytes: there are no more to read, or the copy of the next one has failed. -/
inductive Ends (addr : BitVec 64) (m₀ : UserMem) (n : BitVec 32) (found pi : Pipe) (mem : UserMem) (i : Nat) : Prop
  | all (h : Takes addr m₀ found pi mem i i) (hn : ∀ j : Nat, (j : Int) < n.toInt → j < found.avail → j < i)
      (hfits : ∀ j, j < i → m₀.byte (dest addr j) ≠ none)
  | failed (h : Takes addr m₀ found pi mem i (i + 1)) (hn : (i : Int) < n.toInt) (havail : i < found.avail)
      (hbyte : m₀.byte (dest addr i) = none)

/-- Where the call is. -/
def Inv (addr : BitVec 64) (m₀ : UserMem) (n : BitVec 32) (s : Reading) : Prop :=
  match s.loc with
  | .readEmpty n' => n' = n.toInt ∧ s.pi = s.found ∧ s.mem = m₀
  | .readLoop n' i => n' = n.toInt ∧ ∃ k : Nat, i = k ∧ k < 2 ^ 31 ∧ k ≤ s.found.avail ∧
      Takes addr m₀ s.found s.pi s.mem k k ∧ ∀ j, j < k → m₀.byte (dest addr j) ≠ none
  | .readWake i => ∃ k : Nat, i = k ∧ Ends addr m₀ n s.found s.pi s.mem k
  | .ret v => (∃ k : Nat, v = k ∧ Ends addr m₀ n s.found s.pi s.mem k) ∨
      v = -1 ∧ s.found.avail = 0 ∧ Takes addr m₀ s.found s.pi s.mem 0 0
  | .out => True
  | _ => False

theorem avail_eq_zero (h : pi.empty = true) : pi.avail = 0 := by
  rw [avail, of_decide_eq_true h, BitVec.sub_self]
  rfl

theorem dest_ofInt (addr : BitVec 64) (k : Nat) : (addr + BitVec.ofInt 64 (k : Int)).toNat = dest addr k := by
  rw [dest, BitVec.ofInt_natCast]

theorem toInt_lt (n : BitVec 32) : n.toInt < 2 ^ 31 := by
  have h := BitVec.toInt_lt (x := n)
  omega

theorem inv_start (pi : Pipe) : Inv addr m₀ n (.start n pi m₀) := ⟨rfl, rfl, rfl⟩

theorem inv_loop {n' i : Int} (hl : s.loc = .readLoop n' i) (h : Inv addr m₀ n s) (hs : s.step p addr e = some t) :
    Inv addr m₀ n t := by
  rw [Inv, hl] at h
  obtain ⟨rfl, k, rfl, hk, havail, htakes, hfits⟩ := h
  have hbound := toInt_lt n
  rw [Reading.step, Reading.copy, hl] at hs
  by_cases hkn : (k : Int) < n.toInt
  · cases hempty : s.pi.empty with
    | false =>
      have hlt := (htakes.empty_iff havail).mp hempty
      simp only [code, hkn, hempty, and_self, if_true, Bool.false_eq_true, if_false, Reading.copyout, dest_ofInt,
        htakes.cell_eq] at hs
      -- the byte is taken in either case
      rcases copyout_byte s.mem (dest addr k) (s.found.cell k) with ⟨hnone, hc⟩ | ⟨hsome, m', hc, hm'⟩
      · rw [hc] at hs
        obtain rfl := Option.some.inj hs
        exact ⟨k, rfl, .failed htakes.lose hkn hlt (htakes.fresh hk ▸ hnone)⟩
      · rw [hc] at hs
        obtain rfl := Option.some.inj hs
        refine ⟨rfl, k + 1, rfl, by omega, hlt, htakes.pop hk hm', fun j hj => ?_⟩
        by_cases hjk : j = k
        · rw [hjk, ← htakes.fresh hk]
          exact hsome
        · exact hfits j (by omega)
    | true =>
      simp only [code, hkn, hempty, Bool.true_eq_false, and_false, if_true, if_false] at hs
      obtain rfl := Option.some.inj hs
      have hle : s.found.avail ≤ k := by
        refine Nat.le_of_not_lt fun hlt => ?_
        simp [(htakes.empty_iff havail).mpr hlt] at hempty
      exact ⟨k, rfl, .all htakes (fun j _ hj => Nat.lt_of_lt_of_le hj hle) hfits⟩
  · simp only [code, hkn, false_and, if_false] at hs
    obtain rfl := Option.some.inj hs
    exact ⟨k, rfl, .all htakes (fun j hj _ => by omega) hfits⟩

theorem inv_step (h : Inv addr m₀ n s) (hs : s.step p addr e = some t) : Inv addr m₀ n t := by
  cases hl : s.loc with
  | readLoop n' i => exact inv_loop hl h hs
  | readEmpty n' =>
    rw [Inv, hl] at h
    obtain ⟨rfl, hpi, hmem⟩ := h
    have hnone : Takes addr m₀ s.found s.pi s.mem 0 0 := by
      rw [hpi, hmem]
      exact takes_none
    rw [Reading.step, Reading.copy, hl] at hs
    simp only [code] at hs
    by_cases hwait : (s.pi.empty && s.pi.writeopen) = true
    · rw [if_pos hwait] at hs
      rw [Bool.and_eq_true, hpi] at hwait
      by_cases hkilled : e.1 = true
      · rw [if_pos hkilled] at hs
        obtain rfl := Option.some.inj hs
        exact .inr ⟨rfl, avail_eq_zero hwait.1, hnone⟩
      · rw [if_neg hkilled] at hs
        obtain rfl := Option.some.inj hs
        exact ⟨rfl, rfl, hmem⟩
    · rw [if_neg hwait] at hs
      obtain rfl := Option.some.inj hs
      exact ⟨rfl, 0, rfl, by omega, Nat.zero_le _, hnone, fun j hj => absurd hj (Nat.not_lt_zero j)⟩
  | readWake i =>
    rw [Inv, hl] at h
    rw [Reading.step, Reading.copy, hl] at hs
    obtain rfl := Option.some.inj hs
    exact .inl h
  | ret v =>
    rw [Reading.step, Reading.copy, hl] at hs
    obtain rfl := Option.some.inj hs
    exact trivial
  | out =>
    rw [Reading.step, Reading.copy, hl] at hs
    cases hs
  | _ =>
    rw [Inv, hl] at h
    exact h.elim

theorem inv_run {es : List (Bool × Pipe)}
    (h : Run (Reading.step p addr) any (.start n pi m₀) es s) : Inv addr m₀ n s :=
  h.inv (inv_start pi) fun _ _ _ _ _ hi _ hs => inv_step hi hs

theorem Takes.inj {taken' i' : Nat} (h : Takes addr m₀ found pi mem i taken) (h' : Takes addr m₀ found pi mem i' taken')
    (hlt : taken < 2 ^ 32) (hlt' : taken' < 2 ^ 32) : taken = taken' := by
  have hnat := congrArg BitVec.toNat ((BitVec.add_right_inj _).mp (h.nread.symm.trans h'.nread))
  rwa [BitVec.toNat_ofNat, BitVec.toNat_ofNat, Nat.mod_eq_of_lt hlt, Nat.mod_eq_of_lt hlt'] at hnat

/-- When `piperead` returns, it has consumed what it returns exactly if every byte that it took could be copied. -/
theorem piperead_consumes_iff {pi : Pipe} {es : List (Bool × Pipe)} {v : Int}
    (h : Run (Reading.step p addr) any (.start n pi m₀) es s) (hret : s.loc = .ret v) :
    Consumes addr m₀ s v ↔ Fits addr m₀ s.found n := by
  have hinv := inv_run h
  rw [Inv, hret] at hinv
  rcases hinv with ⟨k, rfl, hends⟩ | ⟨rfl, hzero, htakes⟩
  · cases hends with
    | all htakes hn hfits => exact ⟨fun _ j hj havail => hfits j (hn j hj havail), fun _ => .inl ⟨k, rfl, htakes⟩⟩
    | failed htakes hn havail hbyte =>
      refine ⟨fun hc => ?_, fun hfits => absurd hbyte (hfits k hn havail)⟩
      have hbound := toInt_lt n
      rcases hc with ⟨i, hi, hc⟩ | ⟨hv, -⟩
      · have := htakes.inj hc (by omega) (by omega)
        omega
      · omega
  · exact ⟨fun _ j _ havail => absurd havail (by omega), fun _ => .inr ⟨rfl, htakes⟩⟩

/-- Memory with one page, at address 0. -/
def firstPage : UserMem where
  page k := if k = 0 then some fun _ => 0 else none
  above k hk := by
    refine if_neg ?_
    rintro rfl
    exact absurd hk (by decide)

/-- A pipe with the bytes 7 and 8 in it. -/
def sevenEight : Pipe := (({} : Pipe).push 7).push 8

/-- Both bytes are read into the mapped page. -/
theorem piperead_consumes_iff_sevenEight : ∃ s : Reading,
    Run (Reading.step initproc 100) any (.start 3 sevenEight firstPage) (List.replicate 5 (false, {})) s ∧
      s.loc = .ret 2 ∧ (Consumes 100 firstPage s 2 ↔ Fits 100 firstPage s.found 3) ∧ Fits 100 firstPage s.found 3 := by
  obtain ⟨s, hs, hret, havail, hbytes⟩ : ∃ s, Run (Reading.step initproc 100) any
      (.start 3 sevenEight firstPage) (List.replicate 5 (false, {})) s ∧ s.loc = .ret 2 ∧ s.found.avail = 2 ∧
      ∀ j < 2, firstPage.byte (dest 100 j) ≠ none := by decide +kernel
  have hs' := hs
  exact ⟨s, hs', hret, piperead_consumes_iff hs' hret, fun j _ hj => hbytes j (havail ▸ hj)⟩

/-- With the second byte's page missing, `piperead` takes both bytes and returns 1: the second is lost. -/
theorem piperead_loses_byte : ∃ s : Reading,
    Run (Reading.step initproc 4095) any (.start 2 sevenEight firstPage) (List.replicate 4 (false, {})) s ∧
      s.loc = .ret 1 ∧ s.pi.nread = s.found.nread + 2 ∧ s.pi.empty = true ∧ ¬ Consumes 4095 firstPage s 1 := by
  obtain ⟨s, hs, hret, hnread, hempty⟩ : ∃ s, Run (Reading.step initproc 4095) any
      (.start 2 sevenEight firstPage) (List.replicate 4 (false, {})) s ∧ s.loc = .ret 1 ∧
      s.pi.nread = s.found.nread + 2 ∧ s.pi.empty = true := by decide +kernel
  refine ⟨s, hs, hret, hnread, hempty, ?_⟩
  rintro (⟨i, hi, hc⟩ | ⟨hv, -⟩)
  · obtain rfl : i = 1 := by omega
    exact absurd ((BitVec.add_right_inj _).mp (hnread.symm.trans hc.nread)) (by decide)
  · omega

end Xv6.Sched.Pipe

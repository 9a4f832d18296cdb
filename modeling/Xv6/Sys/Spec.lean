import Xv6.Sys.Calls
import Mathlib.Logic.Function.Basic

/-!
# What directories and paths do to inodes

The state of a call is given by the inodes on disk, the references to in-memory inodes and what is known to
be valid (`At`). References are those of processes and open files, which a call finds, and those the call
holds itself. Looking up a path changes nothing but what `iput` frees: inodes without links that nobody else
has a reference to.
-/

namespace Xv6.Sys

open Hoare (Triple)
open Function (update update_of_ne update_self)

variable {N : Nat} {D D' : Disk} {F : Ftable} {P : Procs} {B : Nat → Nat} {H : List Nat}
  {V V' : Nat → Prop} {E : Panic → State → Prop} {i d : Nat}
variable {name : Name} {parent : Bool} {e : Panic} {G : Prop} {k : Nat} {s : State}
variable {x : Node}

/-- The state within a call: `B` counts the references of processes and files, `H` are those of the call, and
the inodes in `V` are referenced and valid. What processes and files refer to has been locked once, but for
the root, which `init` has not. -/
structure At (N : Nat) (F : Ftable) (P : Procs) (D : Disk) (B : Nat → Nat)
    (H : List Nat) (V : Nat → Prop) (s : State) : Prop where
  ninodes : s.ninodes = N
  ftable : s.ftable = F
  proc : s.proc = P
  inode : s.inode = D
  ref : ∀ i, s.ref i = B i + H.count i
  known : ∀ i, V i → 0 < B i + H.count i ∧ s.valid i = true
  live : ∀ i, s.valid i = true → (D i).type ≠ 0
  read : ∀ i, 0 < B i → s.valid i = true ∨ i = ROOTINO

theorem At.mono (h : At N F P D B H V s) (hV : ∀ i, V' i → V i) : At N F P D B H V' s :=
  { h with known := fun i hi => h.known i (hV i hi) }

theorem At.recount {B' : Nat → Nat} {H' : List Nat} (h : At N F P D B H V s)
    (hc : ∀ i, B' i + H'.count i = B i + H.count i) (hB : ∀ i, 0 < B' i → 0 < B i ∨ V i) : At N F P D B' H' V s :=
  { h with
    ref := fun i => by rw [hc, h.ref]
    known := fun i hi => by rw [hc]; exact h.known i hi
    read := fun i hi => (hB i hi).elim (h.read i) fun hv => .inl (h.known i hv).2 }

theorem At.swap {a b : Nat} (h : At N F P D B (a :: b :: H) V s) : At N F P D B (b :: a :: H) V s :=
  h.recount (fun j => by simp only [List.count_cons]; omega) fun _ hj => .inl hj

theorem Triple.known {α : Type} {x : SysM α} {Q : α → State → Prop}
    (h : (∀ i, V i → 0 < B i + H.count i ∧ (D i).type ≠ 0) → Triple (At N F P D B H V) x Q E) :
    Triple (At N F P D B H V) x Q E :=
  fun s hs => h (fun i hi => ⟨(hs.known i hi).1, hs.live i (hs.known i hi).2⟩) s hs

theorem Triple.held {α : Type} {x : SysM α} {Q : α → State → Prop}
    (h : (∀ i, V i → 0 < B i) → Triple (At N F P D B [] V) x Q E) : Triple (At N F P D B [] V) x Q E :=
  Triple.known fun hV => h (by simpa using fun i hi => (hV i hi).1)

theorem getNode_spec : Triple (At N F P D B H V) (getNode i) (fun x s => x = D i ∧ At N F P D B H V s) E :=
  fun _ hs => ⟨congrFun hs.inode i, hs⟩

theorem setNode_spec (hx : (D i).type ≠ 0 → x.type ≠ 0) : Triple (At N F P D B H V) (setNode i x)
    (fun _ => At N F P (update D i x) B H V) E := by
  intro s hs
  refine { hs with inode := by simp only [hs.inode], live := fun j hj => ?_ }
  by_cases hji : j = i
  · subst hji
    rw [update_self]
    exact hx (hs.live j hj)
  · rw [update_of_ne hji]
    exact hs.live j hj

theorem getProc_spec {p : Fin NPROC} {pr : Proc} (hp : P p = some pr) : Triple (At N F P D B H V) (getProc p)
    (fun x s => x = pr ∧ At N F P D B H V s) E := by
  intro s hs
  refine ⟨?_, hs⟩
  rw [hs.proc, hp]
  rfl

/-! ## References -/

theorem iget_spec : Triple (At N F P D B H V) (iget i) (fun _ => At N F P D B (i :: H) V)
    fun e _ => e = .igetNoInodes := by
  intro s hs
  have hcount : ∀ j, (i :: H).count j = H.count j + if i = j then 1 else 0 := by
    intro j
    rw [List.count_cons]
    simp
  unfold iget
  split_ifs with hpos hfull
  · refine { hs with ref := fun j => ?_, known := fun j hj => ?_ }
    · rw [hcount]
      by_cases hij : i = j
      · subst hij
        simp [hs.ref, Nat.add_assoc]
      · simp [hij, update_of_ne (Ne.symm hij), hs.ref]
    · have := hs.known j hj
      rw [hcount]
      exact ⟨by omega, this.2⟩
  · rfl
  · have h0 : B i + H.count i = 0 := by
      rw [← hs.ref]
      omega
    refine { hs with ref := fun j => ?_, known := fun j hj => ?_, live := fun j hj => ?_, read := fun j hj => ?_ }
    · rw [hcount]
      by_cases hij : i = j
      · subst hij
        simp
        omega
      · simp [hij, update_of_ne (Ne.symm hij), hs.ref]
    · have hk := hs.known j hj
      have hij : j ≠ i := by
        rintro rfl
        omega
      rw [hcount]
      exact ⟨by omega, by simp only [update_of_ne hij]; exact hk.2⟩
    · by_cases hji : j = i
      · simp [hji] at hj
      · exact hs.live j (by simpa [hji] using hj)
    · have hji : j ≠ i := by
        rintro rfl
        omega
      simpa [hji] using hs.read j hj

theorem idup_spec : Triple (At N F P D B H V) (idup i) (fun _ => At N F P D B (i :: H) V) E := by
  intro s hs
  refine { hs with ref := fun j => ?_, known := fun j hj => ?_ }
  · rw [List.count_cons]
    by_cases hij : i = j
    · subst hij
      simp [hs.ref, Nat.add_assoc]
    · simp [hij, update_of_ne (Ne.symm hij), hs.ref]
  · have := hs.known j hj
    rw [List.count_cons]
    exact ⟨by omega, this.2⟩

theorem ilock_spec (hi : 0 < B i + H.count i) : Triple (At N F P D B H V) (ilock i)
    (fun _ s => (D i).type ≠ 0 ∧ At N F P D B H (fun j => V j ∨ j = i) s)
    fun e _ => e = .ilockNoType ∧ (D i).type = 0 := by
  intro s hs
  have href := hs.ref i
  unfold ilock
  rw [if_neg (by omega)]
  split_ifs with hv h0
  · refine ⟨hs.live i hv, { hs with known := fun j hj => ?_ }⟩
    rcases hj with hj | rfl
    · exact hs.known j hj
    · exact ⟨hi, hv⟩
  · rw [hs.inode] at h0
    exact ⟨rfl, h0⟩
  · rw [hs.inode] at h0
    refine ⟨h0, { hs with known := fun j hj => ?_, live := fun j hj => ?_, read := fun j hj => ?_ }⟩
    · by_cases hji : j = i
      · rw [hji]
        exact ⟨hi, update_self ..⟩
      · have hk := hs.known j (hj.resolve_right hji)
        exact ⟨hk.1, by simp only [update_of_ne hji]; exact hk.2⟩
    · by_cases hji : j = i
      · rwa [hji]
      · exact hs.live j (by simpa [hji] using hj)
    · by_cases hji : j = i
      · simp [hji]
      · simpa [hji] using hs.read j hj

theorem ilock_known (hi : V i) : Triple (At N F P D B H V) (ilock i)
    (fun _ => At N F P D B H V) fun e _ => e ≠ .ilockNoType := by
  refine Triple.known fun hV => (ilock_spec (hV i hi).1).imp (fun _ hs => hs)
    (fun _ s hs => hs.2.mono fun j hj => .inl hj) fun e s he _ => (hV i hi).2 he.2

/-- An inode that `iput` has freed. -/
def Node.freed (x : Node) : Node := { x with size := 0, type := 0 }

/-- What `iput` of the reference `i` does, when the references `H` are left to the call. -/
inductive Put (B : Nat → Nat) (H : List Nat) (V : Nat → Prop) (i : Nat) (D : Disk) : Disk → Prop
  | keep (h : V i → (D i).nlink = 0 → 0 < B i + H.count i) : Put B H V i D D
  | free (htype : (D i).type ≠ 0) (hlink : (D i).nlink = 0) (hlast : B i + H.count i = 0) :
      Put B H V i D (update D i (D i).freed)

theorem iputRef_spec (hV : ∀ j, V' j → V j ∧ 0 < B j + H.count j) :
    Triple (At N F P D B (i :: H) V) (iputRef i) (fun _ => At N F P D B H V') E := by
  intro s hs
  refine { hs with ref := fun j => ?_, known := fun j hj => ⟨(hV j hj).2, (hs.known j (hV j hj).1).2⟩ }
  have href := hs.ref j
  rw [List.count_cons] at href
  by_cases hij : i = j
  · subst hij
    simp at href ⊢
    omega
  · simp [hij] at href
    simp [update_of_ne (Ne.symm hij), href]

theorem iput_spec : Triple (At N F P D B (i :: H) V) (iput i)
    (fun _ s => ∃ D', Put B H V i D D' ∧ At N F P D' B H (fun j => V j ∧ 0 < B j + H.count j) s) E := by
  intro s hs
  have href := hs.ref i
  rw [List.count_cons_self] at href
  unfold iput
  split_ifs with hu
  · have hlast : B i + H.count i = 0 := by
      have := hu.1
      omega
    have hlink : (D i).nlink = 0 := by rw [← hs.inode]; exact hu.2.2
    -- the inode is no longer valid, and it is in `V` no longer
    have hfree : At N F P (update D i (D i).freed) B (i :: H) (fun j => V j ∧ 0 < B j + H.count j)
        { s with
          inode := update s.inode i { (s.inode i).trunc with type := 0 }
          valid := update s.valid i false } := by
      refine { hs with
        inode := by simp only [hs.inode]; rfl
        known := fun j hj => ?_
        live := fun j hj => ?_
        read := fun j hj => ?_ }
      · have hij : j ≠ i := by
          rintro rfl
          omega
        refine ⟨(hs.known j hj.1).1, ?_⟩
        simp only [update_of_ne hij]
        exact (hs.known j hj.1).2
      · have hij : j ≠ i := by
          rintro rfl
          simp at hj
        rw [update_of_ne hij]
        exact hs.live j (by simpa [hij] using hj)
      · have hij : j ≠ i := by
          rintro rfl
          omega
        simpa [hij] using hs.read j hj
    exact ⟨_, .free (hs.live i hu.2.1) hlink hlast, iputRef_spec (E := E) (fun j hj => ⟨hj, hj.2⟩) _ hfree⟩
  · refine ⟨D, .keep fun hv h0 => ?_, iputRef_spec (E := E) (fun j hj => hj) s hs⟩
    by_contra hlast
    refine hu ⟨by omega, (hs.known i hv).2, ?_⟩
    rw [hs.inode]
    exact h0

/-- Inodes outside of `K` that had no links may have been freed, and nothing else has changed. -/
def Frees (K : Nat → Prop) (D D' : Disk) : Prop :=
  ∀ i, D' i = D i ∨ ¬ K i ∧ (D i).type ≠ 0 ∧ (D i).nlink = 0 ∧ D' i = (D i).freed

variable {K K' : Nat → Prop}

theorem Frees.refl : Frees K D D := fun _ => .inl rfl

theorem Frees.trans {D₁ : Disk} (h : Frees K D D₁) (h' : Frees K D₁ D') : Frees K D D' := by
  intro i
  rcases h i with h1 | ⟨hk, ht, hl, h1⟩
  · rw [← h1]
    exact h' i
  · rcases h' i with h2 | ⟨-, ht', -⟩
    · exact .inr ⟨hk, ht, hl, by rw [h2, h1]⟩
    · rw [h1] at ht'
      exact absurd rfl ht'

theorem Frees.mono (h : Frees K D D') (hK : ∀ i, K' i → K i) : Frees K' D D' :=
  fun i => (h i).imp_right fun hf => ⟨fun hk => hf.1 (hK i hk), hf.2⟩

theorem Frees.eq_of_mem (h : Frees K D D') (hi : K i) : D' i = D i := (h i).resolve_right fun hf => hf.1 hi

theorem Frees.eq_of_link (h : Frees K D D') (hi : (D i).nlink ≠ 0) : D' i = D i :=
  (h i).resolve_right fun hf => hi hf.2.2.1

theorem Frees.eq_of_type (h : Frees K D D') (hi : (D' i).type ≠ 0) : D' i = D i :=
  (h i).resolve_right fun hf => hi (by rw [hf.2.2.2]; rfl)

theorem Put.frees (h : Put B H V i D D') : Frees (fun j => 0 < B j + H.count j) D D' := by
  cases h with
  | keep => exact .refl
  | free htype hlink hlast =>
    intro j
    by_cases hji : j = i
    · subst hji
      rw [update_self]
      exact .inr ⟨by omega, htype, hlink, rfl⟩
    · exact .inl (update_of_ne hji ..)

/-! ## Directories -/

/-- Entry `k` of an inode. -/
def Node.has (x : Node) (k : Nat) : Prop := DIRENT * k + DIRENT ≤ x.size

instance (x : Node) (k : Nat) : Decidable (x.has k) := inferInstanceAs (Decidable (_ ≤ _))

/-- What a scan from entry `k` on returns. -/
def Scanned (x : Node) (p : Dirent → Bool) (k : Nat) : Option Nat → Prop
  | none => (DIRENT * k ≤ x.size → x.size % DIRENT = 0) ∧ ∀ j, k ≤ j → x.has j → p (x.ents j) = false
  | some j => k ≤ j ∧ x.has j ∧ p (x.ents j) = true ∧ ∀ m, k ≤ m → m < j → p (x.ents m) = false

theorem scan_spec {p : Dirent → Bool} {I : State → Prop} (n : Nat) : ∀ k, x.slots ≤ k + n →
    Triple I (scan x p e n k) (fun r s => Scanned x p k r ∧ I s) fun e' _ => e' = e ∧ x.size % DIRENT ≠ 0 := by
  have hD : DIRENT = 16 := rfl
  have hnone : ∀ k, x.size ≤ DIRENT * k → Scanned x p k none := by
    intro k hk
    refine ⟨fun h => by rw [hD] at hk h ⊢; omega, fun j hj hx => ?_⟩
    unfold Node.has at hx
    rw [hD] at hx hk
    omega
  induction n with
  | zero =>
    intro k hk
    refine .pure fun s hs => ⟨hnone k ?_, hs⟩
    unfold Node.slots at hk
    rw [hD] at hk ⊢
    omega
  | succ n ih =>
    intro k hk
    rw [scan]
    refine .ite (fun hlt => ?_) fun hge => .pure fun s hs => ⟨hnone k (by omega), hs⟩
    refine .ite (fun hcut _ _ => ⟨rfl, by rw [hD] at hlt hcut ⊢; omega⟩) fun hcut => ?_
    refine .ite (fun hp => .pure fun s hs => ⟨?_, hs⟩) fun hp => (ih (k + 1) (by omega)).post ?_
    · exact ⟨Nat.le_refl _, by unfold Node.has; omega, hp, fun m h1 h2 => by omega⟩
    · have hstep : ∀ m, k ≤ m → m = k ∨ k + 1 ≤ m := fun m hm => by omega
      rintro (_ | j) s ⟨hr, hs⟩
      · refine ⟨⟨fun _ => hr.1 (by rw [hD] at hcut ⊢; omega), fun j hj hx => ?_⟩, hs⟩
        rcases hstep j hj with rfl | hj
        · simpa using hp
        · exact hr.2 j hj hx
      · refine ⟨⟨by have := hr.1; omega, hr.2.1, hr.2.2.1, fun m h1 h2 => ?_⟩, hs⟩
        rcases hstep m h1 with rfl | h1
        · simpa using hp
        · exact hr.2.2.2 m h1 h2

/-- Entry `k` is the first one with the name; `none` if there is no entry with the name. -/
def Found (x : Node) (name : Name) : Option Nat → Prop := Scanned x (Dirent.matches name) 0

theorem dirlookup_of_iget {I : State → Prop} {J : Nat → State → Prop}
    (hx : ∀ s, I s → s.inode d = x) (hd : x.type = T_DIR) (higet : ∀ i, Triple I (iget i) (fun _ => J i) E)
    (hcut : x.size % DIRENT ≠ 0 → ∀ s, E .dirlookupRead s) : Triple I (dirlookup d name)
    (fun r s => (Found x name (r.map Prod.snd) ∧ ∀ a k, r = some (a, k) → a = (x.ents k).inum.toNat) ∧
      r.elim (I s) fun q => J q.1 s) E := by
  refine .bind (Q := fun y s => y = x ∧ I s) (fun s hs => ⟨hx s hs, hs⟩) fun y => .of_fact fun hy => ?_
  subst hy
  rw [if_neg (by simpa using hd)]
  refine .bind_fact ((scan_spec _ 0 (by omega)).err fun e s he => he.1 ▸ hcut he.2 s) fun r hr => ?_
  cases r with
  | none => exact .pure fun s hs => ⟨⟨hr, fun a k h => by cases h⟩, hs⟩
  | some k =>
    refine .bind (higet _) fun _ => .pure fun s hs => ⟨⟨hr, fun a k' h => ?_⟩, hs⟩
    cases h
    rfl

theorem dirlookup_spec (hd : (D d).type = T_DIR) : Triple (At N F P D B H V) (dirlookup d name)
    (fun r s => (Found (D d) name (r.map Prod.snd) ∧ ∀ a k, r = some (a, k) → a = ((D d).ents k).inum.toNat) ∧
      At N F P D B ((r.map Prod.fst).toList ++ H) V s)
    fun e _ => e = .igetNoInodes ∨ e = .dirlookupRead ∧ (D d).size % DIRENT ≠ 0 := by
  refine (dirlookup_of_iget (fun s hs => congrFun hs.inode d) hd (fun i => iget_spec.err fun e s he => .inl he)
    fun hcut s => .inr ⟨rfl, hcut⟩).post fun r s hs => ⟨hs.1, ?_⟩
  cases r with
  | none => exact hs.2
  | some q => exact hs.2

theorem dirlookup_panic (h : e = .igetNoInodes ∨ e = .dirlookupRead ∧ (D d).size % DIRENT ≠ 0) :
    e ≠ .ilockNoType := by
  rcases h with rfl | ⟨rfl, -⟩ <;> decide

/-- The disk with entry `k` of directory `d` written. -/
def putEnt (D : Disk) (d k : Nat) (de : Dirent) : Disk :=
  update D d
    { D d with size := max (D d).size (DIRENT * k + DIRENT), ents := update (D d).ents k de }

theorem takeBlock_spec : Triple (At N F P D B H V) takeBlock (fun _ => At N F P D B H V)
    fun e _ => e = .ballocOutOfBlocks := by
  intro s hs
  unfold takeBlock
  split
  · rfl
  · exact { hs with }
  · exact hs

theorem writeEnt_spec {de : Dirent} :
    Triple (At N F P D B H V) (writeEnt d k de e)
      (fun _ s => (DIRENT * k ≤ (D d).size ∧ DIRENT * k + DIRENT ≤ MAXFILE * BSIZE) ∧
        At N F P (putEnt D d k de) B H V s) fun e' _ => e' = e ∨ e' = .ballocOutOfBlocks := by
  refine .read getNode_spec ?_
  refine .ite (fun _ _ _ => .inl rfl) fun hin => ?_
  refine .bind ?_ fun _ => (setNode_spec fun h => by exact h).post
    fun _ s hs => ⟨by omega, hs⟩
  refine .ite (fun _ => ?_) fun _ => .pure fun s hs => hs
  exact takeBlock_spec.err fun e s he => .inr he

/-- Entry `k` is free, or the next one after the last. -/
structure FreeSlot (x : Node) (k : Nat) : Prop where
  free : x.has k → (x.ents k).inum = 0
  next : DIRENT * k ≤ x.size
  aligned : x.size % DIRENT = 0 ∨ x.has k
  fits : DIRENT * k + DIRENT ≤ MAXFILE * BSIZE

theorem dirlink_spec {a : Nat} (hd : (D d).type = T_DIR) : Triple (At N F P D B H V) (dirlink d name a)
    (fun r s => (r = true ∧ ∃ k, (Found (D d) name none ∧ FreeSlot (D d) k) ∧
        At N F P (putEnt D d k ⟨BitVec.ofNat 16 a, name.strncpy⟩) B H V s) ∨
      (r = false ∧ (∃ k, Found (D d) name (some k)) ∧ ∃ D', Frees (fun j => 0 < B j + H.count j) D D' ∧
        At N F P D' B H V s)) fun e _ => e ≠ .ilockNoType := by
  have hD : DIRENT = 16 := rfl
  refine Triple.known fun hV => .bind_fact ((dirlookup_spec hd).err fun e s => dirlookup_panic) fun r hr => ?_
  cases r with
  | some ak =>
    obtain ⟨b, k⟩ := ak
    refine .bind_exists iput_spec fun _ D' hput => ?_
    exact .pure fun s hs => .inr ⟨rfl, ⟨k, hr.1⟩, D', hput.frees, hs.mono fun j hj => ⟨hj, (hV j hj).1⟩⟩
  | none =>
    refine .read getNode_spec ?_
    refine .bind_fact ((scan_spec _ 0 (by omega)).err
      fun e s he => by rw [he.1]; decide) fun q hq => ?_
    refine .bind_fact (writeEnt_spec.err fun e s he => by rcases he with rfl | rfl <;> decide) fun _ hw => ?_
    refine .pure fun s hs => .inl ⟨rfl, _, ⟨hr.1, ?_, hw.1, ?_, hw.2⟩, hs⟩
    · intro hx
      cases q with
      | none =>
        have hx : DIRENT * (D d).slots + DIRENT ≤ (D d).size := hx
        unfold Node.slots at hx
        rw [hD] at hx
        omega
      | some k => exact of_decide_eq_true hq.2.2.1
    · cases q with
      | none => exact .inl (hq.1 (by omega))
      | some k => exact .inr hq.2.1

/-! ## Paths -/

/-- The entry of a directory that has the name. -/
def Node.find (x : Node) (name : Name) : Option Nat :=
  (List.range x.slots).find? fun k => (x.ents k).matches name

theorem Found.find (h : Found x name (some k)) : x.find name = some k := by
  obtain ⟨-, hk, hm, hfirst⟩ := h
  have hslots : k < x.slots := by
    unfold Node.has at hk
    unfold Node.slots
    rw [show DIRENT = 16 from rfl] at hk ⊢
    omega
  rw [Node.find, List.find?_range_eq_some]
  refine ⟨hm, by simpa using hslots, fun j hj => ?_⟩
  simpa using hfirst j (Nat.zero_le _) hj

theorem Found.find_none (h : Found x name none) : x.find name = none := by
  have hal : x.size % DIRENT = 0 := h.1 (Nat.zero_le _)
  rw [Node.find, List.find?_eq_none]
  intro k hk
  have hk : k < x.slots := List.mem_range.mp hk
  unfold Node.slots at hk
  have hx : x.has k := by
    unfold Node.has
    rw [show DIRENT = 16 from rfl] at hk hal ⊢
    omega
  simpa using h.2 k (Nat.zero_le _) hx

/-- What a path names on a disk that does not change, from the directory `ip` on. -/
def walk (D : Disk) (parent : Bool) : Nat → Nat → Path → Name → Option (Nat × Name)
  | 0, ip, _, name => some (ip, name)
  | n + 1, ip, path, name =>
    match skipelem path name with
    | none => if parent then none else some (ip, name)
    | some (path, name) =>
      if (D ip).type ≠ T_DIR then none
      else if parent ∧ path = [] then some (ip, name)
      else ((D ip).find name).bind fun k => walk D parent n ((D ip).ents k).inum.toNat path name

theorem walk_of_dirs {r : Nat × Name} (n : Nat)
    (h : ∀ i, (D' i).type = T_DIR → (D i).type = T_DIR ∧ (D i).size = (D' i).size ∧ (D i).ents = (D' i).ents) :
    ∀ ip path name, walk D' parent n ip path name = some r → walk D parent n ip path name = some r := by
  induction n with
  | zero => exact fun _ _ _ hw => hw
  | succ n ih =>
    intro ip path name hw
    rw [walk] at hw ⊢
    cases hskip : skipelem path name with
    | none => rwa [hskip] at hw
    | some pn =>
      rw [hskip] at hw
      simp only [ne_eq, ite_not] at hw ⊢
      split_ifs at hw with hdir hlast
      · obtain ⟨hd, -, -⟩ := h ip hdir
        rwa [if_pos hd, if_pos hlast]
      · obtain ⟨hd, hsize, hents⟩ := h ip hdir
        rw [if_pos hd, if_neg hlast, Node.find, Node.slots, hsize, hents]
        obtain ⟨k, hk, hw⟩ := Option.bind_eq_some_iff.mp hw
        exact Option.bind_eq_some_iff.mpr ⟨k, hk, ih _ _ _ hw⟩

theorem Frees.walk {r : Nat × Name} {n ip : Nat} {path : Path} (h : Frees K D D')
    (hw : walk D' parent n ip path name = some r) : walk D parent n ip path name = some r := by
  refine walk_of_dirs n (fun i hi => ?_) ip path name hw
  have heq := h.eq_of_type (by rw [hi]; decide)
  rw [heq] at hi ⊢
  exact ⟨hi, rfl, rfl⟩

/-- Nothing dangles: entries name allocated inodes, and an inode without links is in `K`. -/
structure Good (P : Procs) (D : Disk) (K : Nat → Prop) : Prop where
  root : (D ROOTINO).type ≠ 0
  cwd : ∀ p pr, P p = some pr → (D pr.cwd).type ≠ 0
  entries : ∀ d k, (D d).type = T_DIR → (D d).has k → ((D d).ents k).inum ≠ 0 →
    (D ((D d).ents k).inum.toNat).type ≠ 0
  held : ∀ i, (D i).type ≠ 0 → (D i).nlink = 0 → K i

theorem Found.entry (h : Found x name (some k)) :
    x.has k ∧ (x.ents k).inum ≠ 0 ∧ namecmp name (x.ents k).name = 0 := by
  obtain ⟨-, hk, hm, -⟩ := h
  simp only [Dirent.matches, decide_eq_true_iff] at hm
  exact ⟨hk, hm⟩

theorem Good.found (h : Good P D K) (hd : (D d).type = T_DIR) (hf : Found (D d) name (some k)) :
    (D ((D d).ents k).inum.toNat).type ≠ 0 :=
  h.entries d k hd hf.entry.1 hf.entry.2.1

def Alloc (D : Disk) (i : Nat) : Prop := (D i).type ≠ 0

theorem alloc_of_dir (h : (D d).type = T_DIR) : Alloc D d := by
  rw [Alloc, h]
  decide

/-- Inodes without links are held. -/
def Held (D : Disk) (K : Nat → Prop) : Prop := ∀ i, Alloc D i → (D i).nlink = 0 → K i

theorem Held.mono (h : Held D K) (hK : ∀ j, K j → K' j) : Held D K' := fun i hi h0 => hK i (h i hi h0)

theorem Held.eq_of_frees (h : Held D K) (hf : Frees K D D') : D' = D :=
  funext fun i => (hf i).resolve_right fun hf => hf.1 (h i hf.2.1 hf.2.2.1)

theorem Good.eq_of_frees (h : Good P D K) (hf : Frees K D D') : D' = D := Held.eq_of_frees h.held hf

/-- What `namex` returns: the inode is held by the call, and, if it is a parent, a directory that is valid. -/
structure Resolved (parent : Bool) (D : Disk) (V : Nat → Prop) (G : Prop) (w : Option (Nat × Name)) (ip : Nat)
    (name : Name) : Prop where
  walk : w = some (ip, name)
  dir : parent = true → (D ip).type = T_DIR ∧ V ip
  type : G → (D ip).type ≠ 0

/-- The outcome of a lookup: nothing but what `iput` frees has changed, and the inode found is held. Where nothing
can be freed, it is what the path names. -/
def Looked (N : Nat) (F : Ftable) (P : Procs) (D : Disk) (B : Nat → Nat) (H : List Nat)
    (V : Nat → Prop) (parent : Bool) (G : Prop) (w : Option (Nat × Name)) (r : Option (Nat × Name)) (s : State) :
    Prop :=
  ∃ D' V', (Frees (fun j => 0 < B j + H.count j) D D' ∧ (∀ j, V j → V' j) ∧
    (∀ ip name, r = some (ip, name) → Resolved parent D' V' G w ip name) ∧
    (Held D (fun j => 0 < B j + H.count j) → r = w)) ∧
    At N F P D' B ((r.map Prod.fst).toList ++ H) V' s

theorem lookup_fail {w : Option (Nat × Name)} {W : Nat → Prop}
    (hV : ∀ j, V j → W j ∧ 0 < B j + H.count j) (hw : w = none) :
    Triple (At N F P D B (i :: H) W) (do iput i; return none) (Looked N F P D B H V parent G w) E := by
  refine .bind_exists iput_spec fun _ D' hput => ?_
  exact .pure fun s hs =>
    ⟨D', V, ⟨hput.frees, fun _ hj => hj, fun _ _ h => (by cases h), fun _ => hw.symm⟩, hs.mono hV⟩

/-- What a lookup can panic with; `G` says that entries name allocated inodes. -/
def LookupPanic (D : Disk) (G : Prop) (e : Panic) : Prop :=
  e = .igetNoInodes ∨ (e = .dirlookupRead ∧ ∃ d, (D d).type = T_DIR ∧ (D d).size % DIRENT ≠ 0) ∨ e = .ilockNoType ∧ ¬ G

theorem LookupPanic.ne (h : LookupPanic D G e) (hg : G) : e ≠ .ilockNoType := by
  rcases h with rfl | ⟨rfl, -⟩ | ⟨-, h⟩
  · decide
  · decide
  · exact absurd hg h

theorem LookupPanic.of_frees (h : LookupPanic D' G e) (hf : Frees K D D') : LookupPanic D G e := by
  refine h.imp_right fun h => h.imp_left fun ⟨he, d, hd, hal⟩ => ⟨he, d, ?_⟩
  have heq : D' d = D d := hf.eq_of_type (by rw [hd]; decide)
  rw [heq] at hd hal
  exact ⟨hd, hal⟩

theorem namexLoop_spec (n : Nat) : ∀ {D : Disk} (ip : Nat) (path : Path) (name : Name),
    path.length < n → (∀ j, V j → 0 < B j + H.count j) → (G → Good P D fun j => 0 < B j + H.count j) →
    (G → (D ip).type ≠ 0) →
    Triple (At N F P D B (ip :: H) V) (namexLoop parent n ip path name)
      (Looked N F P D B H V parent G (walk D parent n ip path name)) fun e _ => LookupPanic D G e := by
  induction n with
  | zero => intro D ip path name h; omega
  | succ n ih =>
    intro D ip path name hlen hV hG htype
    rw [namexLoop, walk]
    cases hskip : skipelem path name with
    | none =>
      refine .ite (fun hp => lookup_fail (fun j hj => ⟨hj, hV j hj⟩) (if_pos hp)) fun hp =>
        Triple.pure fun s hs => ?_
      refine ⟨D, V, ⟨.refl, fun _ hj => hj, fun a b h => ?_, fun _ => (if_neg hp).symm⟩, hs⟩
      cases h
      exact ⟨if_neg hp, fun h => absurd h hp, htype⟩
    | some pn =>
      obtain ⟨rest, name'⟩ := pn
      dsimp only
      have hrest := length_skipelem hskip
      have hVi : ∀ j, V j → (V j ∨ j = ip) ∧ 0 < B j + H.count j := fun j hj => ⟨.inl hj, hV j hj⟩
      refine .bind_fact ((ilock_spec (by rw [List.count_cons_self]; omega)).err
        fun e s he => .inr (.inr ⟨he.1, fun hg => htype hg he.2⟩)) fun _ _ => ?_
      refine .read getNode_spec ?_
      refine .ite (fun hdir => lookup_fail hVi (if_pos hdir)) fun hdir => ?_
      rw [if_neg hdir]
      have hdir : (D ip).type = T_DIR := by simpa using hdir
      refine .ite (fun hlast => .pure fun s hs => ?_) fun hlast => ?_
      · refine ⟨D, _, ⟨.refl, fun _ hj => .inl hj, fun a b h => ?_, fun _ => (if_pos hlast).symm⟩, hs⟩
        cases h
        exact ⟨if_pos hlast, fun _ => ⟨hdir, .inr rfl⟩, htype⟩
      · rw [if_neg hlast]
        refine .bind_fact ((dirlookup_spec hdir).err fun _ _ he =>
          he.imp_right fun he => .inl ⟨he.1, ip, hdir, he.2⟩) fun r hr => ?_
        cases r with
        | none =>
          have hnone : Found (D ip) name' none := hr.1
          exact lookup_fail hVi (by rw [hnone.find_none, Option.bind_none])
        | some nk =>
          obtain ⟨next, k⟩ := nk
          obtain rfl := hr.2 next k rfl
          have hfound : Found (D ip) name' (some k) := hr.1
          simp only [hfound.find, Option.bind_some]
          -- the directory is given up before the next step
          refine .bind_exists (iput_spec.pre fun s hs => At.swap hs)
            fun _ D' hput => ?_
          have hf : Frees (fun j => 0 < B j + H.count j) D D' := hput.frees.mono fun j hj => by
            rw [List.count_cons]
            omega
          have heq : G → D' = D := fun hg => (hG hg).eq_of_frees hf
          refine (ih _ rest name' (by omega) hV (fun hg => by rw [heq hg]; exact hG hg) fun hg => ?_).imp
            (fun s hs => hs.mono fun j hj => ⟨.inl hj, ?_⟩) (fun r s hr => ?_) fun _ _ he => he.of_frees hf
          · rw [heq hg]
            exact (hG hg).found hdir hfound
          · have := hV j hj
            rw [List.count_cons]
            omega
          · obtain ⟨D₁, V₁, ⟨hf₁, hV₁, hr, hexact⟩, hs⟩ := hr
            refine ⟨D₁, V₁, ⟨hf.trans hf₁, hV₁, fun a b h => ?_, fun hh => ?_⟩, hs⟩
            · obtain ⟨hw, hd, ht⟩ := hr a b h
              exact ⟨hf.walk hw, hd, ht⟩
            · obtain rfl := hh.eq_of_frees hf
              exact hexact hh

/-- What a path names for a process with the current directory `cwd`. -/
def resolve (D : Disk) (cwd : Nat) (path : Path) (parent : Bool) : Option (Nat × Name) :=
  walk D parent (path.length + 1) (if path.head? = some SLASH then ROOTINO else cwd) path fun _ => 0

theorem namex_spec {p : Fin NPROC} {pr : Proc} {path : Path} (hp : P p = some pr)
    (hG : G → Good P D fun j => 0 < B j + H.count j) :
    Triple (At N F P D B H V) (namex p path parent) (Looked N F P D B H V parent G (resolve D pr.cwd path parent))
      fun e _ => LookupPanic D G e := by
  refine Triple.known fun hV => .bind_fact (getProc_spec hp) fun x hx => ?_
  subst hx
  unfold resolve
  by_cases hroot : path.head? = some SLASH
  · simp only [if_pos hroot]
    refine .bind (iget_spec.err fun e s he => .inl he) fun _ => ?_
    exact namexLoop_spec _ _ _ _ (by omega) (fun j hj => (hV j hj).1) hG fun hg => (hG hg).root
  · simp only [if_neg hroot]
    refine .bind idup_spec fun _ => ?_
    exact namexLoop_spec _ _ _ _ (by omega) (fun j hj => (hV j hj).1) hG fun hg => (hG hg).cwd p x hp

end Xv6.Sys

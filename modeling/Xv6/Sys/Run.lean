import Xv6.Lib.Graph
import Xv6.Lib.Run
import Xv6.Sys.Effect

/-!
# Runs of system calls

Between calls every reference to an in-memory inode is the current directory of a process or an open file,
and every reference to a file is a descriptor (`Idle`). A call of any process takes such a state to such a
state, with a `Change` of the disk followed by a `Tail`: references that are given up, or a file that is
truncated.
-/

namespace Xv6.Sys

open Hoare (Triple)
open Function (update update_of_ne update_self update_idem)

variable {N : Nat} {D D' : Disk} {F F' : Ftable} {P P' : Procs} {B : Nat → Nat} {H : List Nat}
  {V V' K : Nat → Prop} {E : Panic → State → Prop} {G : Prop} {i : Nat} {f : Fin NFILE} {p : Fin NPROC} {pr : Proc}
variable {fd : Fin NOFILE} {omode : BitVec 32} {s : State}
variable {c : Scope} {path : Path} {cwd dp : Nat}

/-! ## Who holds references -/

/-- Processes hold their current directory, open files their inode. -/
def Holds (P : Procs) (F : Ftable) : Fin NPROC ⊕ Fin NFILE → Nat → Prop
  | .inl p, i => ∃ pr, P p = some pr ∧ pr.cwd = i
  | .inr f, i => (F f).type ≠ .none ∧ (F f).ip = i

/-- Descriptors hold files. -/
def Opens (P : Procs) (c : Fin NPROC × Fin NOFILE) (f : Fin NFILE) : Prop :=
  ∃ pr, P c.1 = some pr ∧ pr.ofile c.2 = some f

/-- What refers to an inode or a file: the current directory of a process, or a descriptor. -/
abbrev Ref := Fin NPROC ⊕ Fin NPROC × Fin NOFILE

def Ref.proc : Ref → Fin NPROC := Sum.elim id Prod.fst

/-- The reference is one to the inode `i`. -/
def Ref.To (P : Procs) (F : Ftable) : Ref → Nat → Prop
  | .inl p, i => ∃ pr ∈ P p, pr.cwd = i
  | .inr c, i => ∃ pr ∈ P c.1, ∃ f ∈ pr.ofile c.2, (F f).type ≠ .none ∧ (F f).ip = i

instance (P : Procs) (F : Ftable) : (e : Ref) → (i : Nat) → Decidable (e.To P F i)
  | .inl _, _ => inferInstanceAs (Decidable (∃ pr ∈ _, _))
  | .inr _, _ => inferInstanceAs (Decidable (∃ pr ∈ _, ∃ f ∈ _, _))

theorem holds_finite : Graph.Finite (Holds P F) := fun _ => Set.toFinite _

theorem opens_finite : Graph.Finite (Opens P) := fun _ => Set.toFinite _

/-- References to an inode from processes and files. -/
noncomputable def holders (P : Procs) (F : Ftable) (i : Nat) : Nat := Graph.count (Holds P F) i

theorem Ref.To.held {e : Ref} (h : e.To P F i) : 0 < holders P F i := by
  cases e with
  | inl p => exact Graph.count_pos (e := Sum.inl p) holds_finite h
  | inr c =>
    obtain ⟨_, _, f, -, hf⟩ := h
    exact Graph.count_pos (e := Sum.inr f) holds_finite hf

/-- The file table agrees with the descriptors. -/
structure Files (P : Procs) (F : Ftable) : Prop where
  ref : ∀ f, (F f).ref = Graph.count (Opens P) f
  closed : ∀ f, (F f).ref = 0 → (F f).type = .none

/-- The state between calls. -/
def Idle (N : Nat) (D : Disk) (V : Nat → Prop) (s : State) : Prop :=
  ∃ F P, Files P F ∧ At N F P D (holders P F) [] V s

theorem getFile_spec : Triple (At N F P D B H V) (getFile f) (fun x s => x = F f ∧ At N F P D B H V s) E :=
  fun _ hs => ⟨congrFun hs.ftable f, hs⟩

theorem setFile_spec (x : File) : Triple (At N F P D B H V) (setFile f x)
    (fun _ => At N (update F f x) P D B H V) E := fun s hs =>
  { hs with ftable := by simp only [hs.ftable] }

theorem setProc_spec (x : Option Proc) : Triple (At N F P D B H V) (setProc p x)
    (fun _ => At N F (update P p x) D B H V) E := fun s hs =>
  { hs with proc := by simp only [hs.proc] }

/-! ## References that are given up -/

/-- References are given up one by one; those in `K` have others. -/
inductive Drops (K : Nat → Prop) (D : Disk) (V : Nat → Prop) : Disk → (Nat → Prop) → Prop
  | nil : Drops K D V D V
  | snoc {D₁ D' : Disk} {V₁ V' : Nat → Prop} {i : Nat} (h : Drops K D V D₁ V₁) (hd : Drop K i D₁ V₁ D' V') :
      Drops K D V D' V'

theorem Drops.frees (h : Drops K D V D' V') : Frees K D D' := by
  induction h with
  | nil => exact .refl
  | snoc _ hd ih => exact ih.trans hd.frees

/-- What a call does last with the inode it has got; those in `K` have other references. -/
inductive Tail (K : Nat → Prop) (D : Disk) (V : Nat → Prop) : Disk → (Nat → Prop) → Prop
  | none : Tail K D V D V
  | put {D' : Disk} {V' : Nat → Prop} {i : Nat} (h : Drop K i D V D' V') : Tail K D V D' V'
  | trunc {ip : Nat} (htype : (D ip).type = T_FILE) : Tail K D V (update D ip (D ip).trunc) V

/-- What a call does to the disk: it changes names, or gives up references of its process. -/
inductive Effect (N : Nat) (c : Scope) (D : Disk) (V : Nat → Prop) : Disk → (Nat → Prop) → Prop
  | change {D₁ D' : Disk} {V₁ V' : Nat → Prop} (h : Change N c D V D₁ V₁) (ht : Tail V D₁ V₁ D' V') :
      Effect N c D V D' V'
  | release {D₁ D' : Disk} {V₁ V' : Nat → Prop} (h : Look D V D₁ V₁) (hd : Drops c.left D₁ V₁ D' V') :
      Effect N c D V D' V'

/-- A call with the effects `c` is over. -/
def Performed (N : Nat) (c : Scope) (D : Disk) (V : Nat → Prop) (s : State) : Prop :=
  ∃ D' V', Effect N c D V D' V' ∧ Idle N D' V' s

/-- The file table without one reference to `f`. -/
def closeFile (F : Ftable) (f : Fin NFILE) : Ftable :=
  update F f
    (if 1 < (F f).ref then { F f with ref := (F f).ref - 1 } else { F f with ref := 0, type := .none })

theorem Files.close {c : Fin NPROC × Fin NOFILE} (h : Files P F) (hc : Opens P c f)
    (hP : ∀ c' f', Opens P c' f' ↔ Opens P' c' f' ∨ c' = c ∧ f' = f) (hnot : ¬ Opens P' c f) :
    Files P' (closeFile F f) := by
  have hcount : ∀ f', Graph.count (Opens P) f' = Graph.count (Opens P') f' + if f' = f then 1 else 0 :=
    fun f' => Graph.count_add opens_finite hnot hP
  have hpos : 0 < (F f).ref := by
    rw [h.ref]
    exact Graph.count_pos opens_finite hc
  refine ⟨fun f' => ?_, fun f' h0 => ?_⟩
  · have href := h.ref f'
    rw [hcount] at href
    by_cases hf : f' = f
    · subst hf
      rw [if_pos rfl] at href
      rw [closeFile, update_self]
      split_ifs
      · simp only
        omega
      · simp only
        omega
    · rw [if_neg hf] at href
      rw [closeFile, update_of_ne hf, href]
      rfl
  · by_cases hf : f' = f
    · subst hf
      rw [closeFile, update_self] at h0 ⊢
      split_ifs at h0 ⊢ with h1
      · simp only at h0
        omega
      · rfl
    · rw [closeFile, update_of_ne hf] at h0 ⊢
      exact h.closed f' h0

theorem holders_congr (h : ∀ e i, Holds P F e i ↔ Holds P' F' e i) : holders P F = holders P' F' :=
  funext fun i => Graph.count_congr fun e => h e i

theorem holders_closed (htype : (F f).type ≠ .none) (hF : (F' f).type = .none) (hne : ∀ g, g ≠ f → F' g = F g) :
    holders P F i = holders P F' i + if i = (F f).ip then 1 else 0 := by
  refine Graph.count_add (e := Sum.inr f) holds_finite (fun h => h.1 hF) fun e j => ?_
  cases e with
  | inl q => simp [Holds]
  | inr g =>
    by_cases hg : g = f
    · subst hg
      simp [Holds, hF, htype, eq_comm]
    · simp [Holds, hne g hg, hg]

theorem fileclose_spec (href : 0 < (F f).ref) (hK : ∀ j, K j → 0 < holders P (closeFile F f) j) :
    Triple (At N F P D (holders P F) H V) (fileclose f)
      (fun _ s => ∃ D' V', (Drops K D V D' V' ∧ ((F f).type = .none → D' = D ∧ V' = V)) ∧
        At N (closeFile F f) P D' (holders P (closeFile F f)) H V' s) E := by
  refine .read getFile_spec ?_
  rw [if_neg (by omega)]
  refine .ite (fun hgt => (setFile_spec _).post fun _ s hs => ?_) fun hle => ?_
  · rw [show update F f { F f with ref := (F f).ref - 1 } = closeFile F f by rw [closeFile, if_pos hgt]] at hs
    rw [show holders P F = holders P (closeFile F f) from holders_congr fun e i => ?_] at hs
    · exact ⟨D, V, ⟨.nil, fun _ => ⟨rfl, rfl⟩⟩, hs⟩
    · cases e with
      | inl q => rfl
      | inr g =>
        by_cases hg : g = f
        · subst hg
          simp [Holds, closeFile, if_pos hgt]
        · simp [Holds, closeFile, hg]
  · have hclose : update F f { F f with ref := 0, type := .none } = closeFile F f := by rw [closeFile, if_neg hle]
    refine .bind (setFile_spec _) fun _ => ?_
    rw [hclose]
    refine .ite (fun hnone => .pure fun s hs => ?_) fun htype => ?_
    · rw [show holders P F = holders P (closeFile F f) from holders_congr fun e i => ?_] at hs
      · exact ⟨D, V, ⟨.nil, fun _ => ⟨rfl, rfl⟩⟩, hs⟩
      · cases e with
        | inl q => rfl
        | inr g =>
          by_cases hg : g = f
          · subst hg
            simp [Holds, closeFile, if_neg hle, hnone]
          · simp [Holds, closeFile, hg]
    · have hcount : ∀ i, holders P F i = holders P (closeFile F f) i + if i = (F f).ip then 1 else 0 := fun i =>
        holders_closed htype (by rw [← hclose, update_self]) fun g hg => by rw [← hclose, update_of_ne hg]
      refine (iput_held hK).imp (fun s hs => At.recount hs (fun j => ?_) fun j hj => .inl (by rw [hcount]; omega))
        (fun _ s ⟨D', V', hd, hs⟩ => ⟨D', V', ⟨.snoc .nil hd, fun h => absurd h htype⟩, hs⟩) fun _ _ he => he
      rw [hcount, List.count_cons]
      by_cases hj : j = (F f).ip
      · simp [hj]
        omega
      · simp [hj, Ne.symm hj]

/-! ## Opening -/

theorem filealloc_spec : Triple (At N F P D B H V) filealloc
    (fun r s => ((r = none ∧ ∀ f, (F f).ref ≠ 0) ∧ At N F P D B H V s) ∨
      ∃ f, (r = some f ∧ (F f).ref = 0) ∧ At N (update F f { F f with ref := 1 }) P D B H V s) E := by
  intro s hs
  unfold filealloc
  cases hfind : (List.finRange NFILE).find? fun f => (s.ftable f).ref = 0 with
  | none =>
    refine .inl ⟨⟨rfl, fun f => ?_⟩, hs⟩
    rw [← hs.ftable]
    simpa using List.find?_eq_none.mp hfind f (List.mem_finRange f)
  | some f =>
    have href := List.find?_some hfind
    rw [hs.ftable] at href
    exact .inr ⟨f, ⟨rfl, of_decide_eq_true href⟩, { hs with ftable := by simp only [hs.ftable] }⟩

theorem fdalloc_spec (hp : P p = some pr) : Triple (At N F P D B H V) (fdalloc p f)
    (fun r s => ((r = none ∧ ∀ fd, pr.ofile fd ≠ none) ∧ At N F P D B H V s) ∨ ∃ fd,
    (r = some fd ∧ pr.ofile fd = none) ∧
      At N F (update P p (some { pr with ofile := update pr.ofile fd (some f) })) D B H V s) E := by
  refine .bind_fact (getProc_spec hp) fun x hx => ?_
  subst hx
  cases hfind : (List.finRange NOFILE).find? fun fd => (x.ofile fd).isNone with
  | none =>
    refine .pure fun s hs => .inl ⟨⟨rfl, fun fd => ?_⟩, hs⟩
    simpa using List.find?_eq_none.mp hfind fd (List.mem_finRange fd)
  | some fd =>
    refine .bind (setProc_spec _) fun _ => .pure fun s hs => .inr ⟨fd, ⟨rfl, ?_⟩, hs⟩
    have hnone := List.find?_some hfind
    simpa using hnone

theorem opens_update (hp : P p = some pr) (hfree : pr.ofile fd = none)
    (c : Fin NPROC × Fin NOFILE) (g : Fin NFILE) :
    Opens (update P p (some { pr with ofile := update pr.ofile fd (some f) })) c g ↔
      Opens P c g ∨ c = (p, fd) ∧ g = f := by
  obtain ⟨q, e⟩ := c
  by_cases hq : q = p
  · subst hq
    by_cases he : e = fd
    · subst he
      simp [Opens, hp, hfree, eq_comm]
    · simp [Opens, hp, he]
  · simp [Opens, hq]

theorem holds_file {x : File} (hf : (F f).type = .none) (hx : x.type = .none) (e : Fin NPROC ⊕ Fin NFILE) (i : Nat) :
    Holds P F e i ↔ Holds P (update F f x) e i := by
  cases e with
  | inl q => rfl
  | inr g =>
    by_cases hg : g = f
    · subst hg
      simp [Holds, hf, hx]
    · simp [Holds, hg]

theorem holds_ofile {o : Fin NOFILE → Option (Fin NFILE)} (hp : P p = some pr) (e : Fin NPROC ⊕ Fin NFILE) (i : Nat) :
    Holds (update P p (some { pr with ofile := o })) F e i ↔ Holds P F e i := by
  cases e with
  | inr g => rfl
  | inl q =>
    by_cases hq : q = p
    · subst hq
      simp [Holds, hp]
    · simp [Holds, hq]

theorem openFile_spec (hf : Files P F) (hp : P p = some pr) (hi : V i) (hK : ∀ j, K j → 0 < holders P F j) :
    Triple (At N F P D (holders P F) [i] V) (openFile p i omode)
      (fun _ s => ∃ D' V', Tail K D V D' V' ∧ Idle N D' V' s) E := by
  have hput : ∀ {F'}, holders P F = holders P F' → Files P F' →
      Triple (At N F' P D (holders P F') [i] V) (do iput i; return (-1 : Int))
        (fun _ s => ∃ D' V', Tail K D V D' V' ∧ Idle N D' V' s) E := fun heq hf' => by
    refine .bind (iput_drop (K := K) fun j hj => by rw [← heq]; exact hK j hj) fun _ =>
      Triple.pure fun s ⟨D', V', hd, hs⟩ => ?_
    exact ⟨D', V', .put hd, _, _, hf', hs⟩
  refine .read getNode_spec ?_
  refine .ite (fun _ => hput rfl hf) fun _ => ?_
  refine .bind filealloc_spec fun r => .or (.of_fact fun ⟨hr, _⟩ => ?_) (.exists fun f =>
    Triple.of_fact fun ⟨hr, href⟩ => ?_)
  · subst hr
    exact hput rfl hf
  subst hr
  have hnone : (F f).type = .none := hf.closed f href
  refine .bind (fdalloc_spec hp) fun r => .or (.of_fact fun ⟨hr, _⟩ => ?_) (.exists fun fd =>
    Triple.of_fact fun ⟨hr, hfree⟩ => ?_)
  · subst hr
    have hopen := holders_congr (holds_file (P := P) (x := { F f with ref := 1 }) hnone hnone)
    rw [hopen]
    refine .bind_exists₂ (fileclose_spec (K := fun _ => False) (by simp) fun j hj => hj.elim)
      fun _ D₁ V₁ ⟨_, hsame⟩ => ?_
    obtain ⟨rfl, rfl⟩ := hsame (by simpa using hnone)
    refine hput ?_ ⟨fun g => ?_, fun g hg => ?_⟩
    · rw [closeFile, update_self, if_neg (by simp), update_idem]
      exact holders_congr (holds_file hnone rfl)
    · by_cases hgf : g = f
      · subst hgf
        simp [closeFile, ← hf.ref, href]
      · simp [closeFile, hgf, hf.ref]
    · by_cases hgf : g = f
      · subst hgf
        simp [closeFile]
      · simp only [closeFile, update_of_ne hgf] at hg ⊢
        exact hf.closed g hg
  · subst hr
    refine .read getFile_spec ?_
    refine .bind (setFile_spec _) fun _ => ?_
    rw [update_idem, update_self]
    generalize htype : (if (D i).type = T_DEVICE then FileType.device else FileType.inode) = t
    have ht : t ≠ .none := by
      rw [← htype]
      split_ifs <;> decide
    set P₁ := update P p (some { pr with ofile := update pr.ofile fd (some f) }) with hP₁
    set F₁ := update F f { ref := 1, type := t, ip := i } with hF₁
    have hf₁ : F₁ f = { ref := 1, type := t, ip := i } := update_self ..
    have hne : ∀ g, g ≠ f → F₁ g = F g := fun g hg => update_of_ne hg ..
    -- the reference of the call has become that of the file
    have hcount : ∀ j, holders P₁ F₁ j + ([] : List Nat).count j = holders P F j + [i].count j := fun j => by
      have hadd : holders P F₁ j = holders P F j + if j = (F₁ f).ip then 1 else 0 :=
        holders_closed (by rwa [hf₁]) hnone fun g hg => (hne g hg).symm
      rw [holders_congr (holds_ofile hp), hadd, hf₁, List.count_nil, List.count_singleton]
      by_cases hj : j = i
      · simp [hj]
      · simp [hj, Ne.symm hj]
    have hfiles : Files P₁ F₁ := by
      refine ⟨fun g => ?_, fun g hg => ?_⟩
      · have hadd : Graph.count (Opens P₁) g = Graph.count (Opens P) g + if g = f then 1 else 0 :=
          Graph.count_add (e := (p, fd)) opens_finite (fun ⟨x, hx, ho⟩ => ?_) (opens_update hp hfree)
        · rw [hadd, ← hf.ref]
          by_cases hg : g = f
          · subst hg
            simp [hf₁, href]
          · simp [hne g hg, hg]
        · cases hp.symm.trans hx
          simp [hfree] at ho
      · have hgf : g ≠ f := by
          rintro rfl
          simp [hf₁] at hg
        rw [hne g hgf] at hg ⊢
        exact hf.closed g hg
    have hV : ∀ j, 0 < holders P₁ F₁ j → 0 < holders P F j ∨ V j := fun j hj => by
      by_cases hji : j = i
      · exact .inr (hji ▸ hi)
      · have := hcount j
        rw [List.count_nil, List.count_singleton, if_neg (by simpa using Ne.symm hji)] at this
        exact .inl (by omega)
    refine .bind (Q := fun _ s => ∃ D', Tail K D V D' V ∧ At N F₁ P₁ D' (holders P F) [i] V s) ?_ fun _ =>
      Triple.pure fun s ⟨D', htail, hs⟩ => ⟨D', V, htail, F₁, P₁, hfiles, hs.recount hcount hV⟩
    refine .ite (fun htr => (setNode_spec fun h => by exact h).post fun _ s hs => ?_) fun _ =>
      Triple.pure fun s hs => ⟨D, .none, hs⟩
    exact ⟨_, .trunc htr.2, hs⟩

/-! ## Calls -/

theorem Change.effect (h : Change N c D V D' V') : Effect N c D V D' V' :=
  .change h .none

theorem openInode_spec (hN : N ≤ 2 ^ 16) (hp : P p = some pr) (hG : G → Good P D fun j => 0 < B j)
    (hc : omode &&& O_CREATE ≠ 0 → ∀ i, Names D pr.cwd path true i → c.made i) :
    Triple (At N F P D B [] V) (openInode p path omode)
      (fun r s => ∃ D' V', (Change N c D V D' V' ∧ ∀ ip, r = some ip → V' ip) ∧ At N F P D' B r.toList V' s)
      (LockSafe G) := by
  refine Triple.held fun hK => .ite (fun h => create_spec hN (by decide) hp hG (hc h)) fun _ => ?_
  refine .bind_exists₂ (namei_look hp (by simpa using hG)) fun r D₁ V₁ ⟨hl, _, hr⟩ => ?_
  cases r with
  | none => exact .pure fun s hs => ⟨D₁, V₁, ⟨.look hl, fun ip h => by cases h⟩, hs⟩
  | some ip =>
    refine .bind_fact ((ilock_spec (by simp)).err fun e s he hg _ => (hr ip rfl).2 hg he.2) fun _ _ =>
      .bind_fact getNode_spec fun x _ => ?_
    have hl₁ : Look D V D₁ fun j => V₁ j ∨ j = ip := hl.grow fun j hj => .inl hj
    refine .ite (fun _ => ?_) fun _ => .pure fun s hs => ?_
    · refine .bind (iput_held hK) fun _ => .pure fun s ⟨D', V', hd, hs⟩ => ?_
      exact ⟨D', V', ⟨.look (hl₁.drop hd), fun a h => by cases h⟩, hs⟩
    · exact ⟨D₁, _, ⟨.look hl₁, fun a h => by cases h; exact .inr rfl⟩, hs⟩

section

variable {path : Path} {c : Scope} (hN : N ≤ 2 ^ 16) (hf : Files P F) (hp : P p = some pr)
  (hG : G → Good P D fun j => 0 < holders P F j)

include hN hf hp hG

theorem sysOpen_spec (hc : omode &&& O_CREATE ≠ 0 → ∀ i, Names D pr.cwd path true i → c.made i) :
    Triple (At N F P D (holders P F) [] V) (sysOpen p omode (some path))
      (fun _ => Performed N c D V) (LockSafe G) := by
  refine Triple.held fun hK => .bind_exists₂ (openInode_spec hN hp hG hc) fun r D₁ V₁ ⟨hch, hr⟩ => ?_
  cases r with
  | none => exact .pure fun s hs => ⟨D₁, V₁, hch.effect, F, P, hf, hs⟩
  | some ip =>
    refine (openFile_spec hf hp (hr ip rfl) hK).post fun _ s ⟨D', V', htail, hs⟩ => ?_
    exact ⟨D', V', .change hch htail, hs⟩

theorem makeNode_spec {type major minor : BitVec 16} (htype : type ≠ 0)
    (hc : ∀ i, Names D pr.cwd path true i → c.made i) :
    Triple (At N F P D (holders P F) [] V) (makeNode p type major minor (some path))
      (fun _ => Performed N c D V) (LockSafe G) := by
  refine Triple.held fun hK => .bind_exists₂ (create_spec hN htype hp hG hc) fun r D₁ V₁ ⟨hch, _⟩ => ?_
  cases r with
  | none => exact .pure fun s hs => ⟨D₁, V₁, hch.effect, F, P, hf, hs⟩
  | some ip =>
    refine .bind (iput_held hK) fun _ => .pure fun s ⟨D', V', hd, hs⟩ => ?_
    exact ⟨D', V', .change hch (.put hd), F, P, hf, hs⟩

end

theorem holders_leave (hp : P p = some pr) (hne : ∀ q, q ≠ p → P q = P' q) (hnone : P' p = none) :
    holders P F i = holders P' F i + if i = pr.cwd then 1 else 0 := by
  refine Graph.count_add (e := Sum.inl p) holds_finite (fun ⟨z, hz, _⟩ => by simp [hnone] at hz) fun e j => ?_
  cases e with
  | inr g => simp [Holds]
  | inl q =>
    by_cases hq : q = p
    · subst hq
      simp [Holds, hp, hnone, eq_comm]
    · simp [Holds, hne q hq, hq]

theorem opens_congr (h : ∀ c g, Opens P c g ↔ Opens P' c g) (hf : Files P F) : Files P' F :=
  ⟨fun g => (hf.ref g).trans (Graph.count_congr fun c => h c g), hf.closed⟩

theorem Ref.To.leave {e : Ref} (h : e.To P F i) (he : e ≠ .inl p) : 0 < holders (update P p none) F i := by
  cases e with
  | inl q =>
    have hq : q ≠ p := fun hq => he (by rw [hq])
    exact Graph.count_pos (e := Sum.inl q) holds_finite (by simpa [Holds, Ref.To, hq] using h)
  | inr c =>
    obtain ⟨_, _, f, -, hf⟩ := h
    exact Graph.count_pos (e := Sum.inr f) holds_finite hf

theorem sysChdir_spec (hf : Files P F) (hp : P p = some pr) (hG : G → Good P D fun j => 0 < holders P F j)
    (hc : ∀ j, c.left j → ∃ e : Ref, e ≠ .inl p ∧ e.To P F j) :
    Triple (At N F P D (holders P F) [] V) (sysChdir p (some path))
      (fun _ => Performed N c D V) (LockSafe G) := by
  refine Triple.held fun hK => ?_
  refine .bind_exists₂ (namei_look hp (by simpa using hG)) fun r D₁ V₁ ⟨hl, _, hr⟩ => ?_
  cases r with
  | none => exact .pure fun s hs => ⟨D₁, V₁, (Change.look hl).effect, F, P, hf, hs⟩
  | some ip =>
    refine .bind_fact ((ilock_spec (by simp)).err fun e s he hg _ => (hr ip rfl).2 hg he.2) fun _ _ =>
      .bind_fact getNode_spec fun x _ => ?_
    have hl₁ : Look D V D₁ fun j => V₁ j ∨ j = ip := hl.grow fun j hj => .inl hj
    refine .ite (fun _ => ?_) fun _ => ?_
    · refine .bind (iput_held hK) fun _ => .pure fun s ⟨D', V', hd, hs⟩ => ?_
      exact ⟨D', V', (Change.look (hl₁.drop hd)).effect, F, P, hf, hs⟩
    · refine .bind_fact (getProc_spec hp) fun y hy => ?_
      subst hy
      have hleave : ∀ j, holders P F j = holders (update P p none) F j + if j = y.cwd then 1 else 0 := fun j =>
        holders_leave hp (fun q hq => (update_of_ne hq ..).symm) (update_self ..)
      have henter : ∀ j, holders (update P p (some { y with cwd := ip })) F j =
          holders (update P p none) F j + if j = ip then 1 else 0 := fun j => by
        have hx : update P p (some { y with cwd := ip }) p = some { y with cwd := ip } := update_self ..
        exact holders_leave hx (fun q hq => by simp [hq]) (update_self ..)
      refine .bind_exists₂ ((iput_drop (B := holders (update P p none) F) (H := [ip]) fun j hj => hj).pre
        fun s hs => At.recount hs (fun j => ?_) fun j hj => .inl (by rw [hleave]; omega)) fun _ D₂ V₂ hd => ?_
      · rw [hleave j]
        simp only [Option.toList_some, List.cons_append, List.nil_append, List.count_cons, List.count_nil, beq_iff_eq,
          eq_comm (a := j)]
        omega
      have hleft : ∀ j, c.left j → 0 < holders (update P p none) F j + [ip].count j := fun j hj => by
        obtain ⟨e, he, href⟩ := hc j hj
        exact Nat.lt_add_right _ (href.leave he)
      refine .bind (setProc_spec _) fun _ => .pure fun s hs => ?_
      have hV₂ : V₂ ip := hd.known ip (.inr (by simp)) (.inr rfl)
      refine ⟨D₂, V₂, .release hl₁ (.snoc .nil (hd.mono hleft)), F, _, ?_,
        hs.recount (fun j => ?_) fun j hj => ?_⟩
      · refine opens_congr (fun c g => ?_) hf
        by_cases hc : c.1 = p
        · simp [Opens, hc, hp]
        · simp [Opens, hc]
      · rw [henter j]
        simp only [List.count_cons, List.count_nil, beq_iff_eq, eq_comm (a := j)]
        omega
      · by_cases hji : j = ip
        · exact .inr (hji ▸ hV₂)
        · rw [henter j, if_neg hji] at hj
          exact .inl hj

theorem Drops.trans {D₁ : Disk} {V₁ : Nat → Prop} (h : Drops K D V D₁ V₁) (h' : Drops K D₁ V₁ D' V') :
    Drops K D V D' V' := by
  induction h' with
  | nil => exact h
  | snoc _ hd ih => exact .snoc ih hd

theorem Files.close_fd (hf : Files P F) (hp : P p = some pr) (hfd : pr.ofile fd = some f) :
    Files (update P p (some { pr with ofile := update pr.ofile fd none })) (closeFile F f) := by
  refine hf.close (c := (p, fd)) ⟨pr, hp, hfd⟩ (fun c g => ?_) ?_
  · obtain ⟨q, e⟩ := c
    by_cases hq : q = p
    · subst hq
      by_cases he : e = fd
      · subst he
        simp [Opens, hp, hfd, eq_comm]
      · simp [Opens, hp, he]
    · simp [Opens, hq]
  · simp [Opens]

theorem ref_pos (hf : Files P F) (hp : P p = some pr) (hfd : pr.ofile fd = some f) : 0 < (F f).ref := by
  rw [hf.ref]
  exact Graph.count_pos (e := (p, fd)) opens_finite ⟨pr, hp, hfd⟩

theorem Ref.To.close {e : Ref} (h : e.To P F i) (hf : Files P F) (hp : P p = some pr) (hfd : pr.ofile fd = some f)
    (he : e ≠ .inr (p, fd)) :
    e.To (update P p (some { pr with ofile := update pr.ofile fd none })) (closeFile F f) i := by
  cases e with
  | inl q =>
    by_cases hq : q = p
    · subst hq
      simpa [Ref.To, hp] using h
    · simpa [Ref.To, hq] using h
  | inr c =>
    obtain ⟨x, hx, g, hg, htype, hip⟩ := h
    have hc : Opens P c g := ⟨x, hx, hg⟩
    have hne : c ≠ (p, fd) := fun h => he (by rw [h])
    have hopen : Opens (update P p (some { pr with ofile := update pr.ofile fd none })) c g := by
      obtain ⟨q, fd'⟩ := c
      by_cases hq : q = p
      · subst hq
        have hfd' : fd' ≠ fd := fun h => hne (by rw [h])
        simpa [Opens, hp, hfd'] using hc
      · simpa [Opens, hq] using hc
    obtain ⟨y, hy, hyg⟩ := hopen
    refine ⟨y, hy, g, hyg, ?_⟩
    by_cases hg : g = f
    · subst hg
      -- two descriptors refer to the file
      have hlt : 1 < (F g).ref := by
        rw [hf.ref]
        exact Graph.one_lt_count opens_finite hc ⟨pr, hp, hfd⟩ hne
      rw [closeFile, update_self, if_pos hlt]
      exact ⟨htype, hip⟩
    · rw [closeFile, update_of_ne hg]
      exact ⟨htype, hip⟩

theorem sysClose_spec (hf : Files P F) (hp : P p = some pr)
    (hc : ∀ j, c.left j → ∃ e : Ref, e ≠ .inr (p, fd) ∧ e.To P F j) :
    Triple (At N F P D (holders P F) [] V) (sysClose p fd) (fun _ => Performed N c D V) E := by
  refine .bind_fact (getProc_spec hp) fun x hx => ?_
  subst hx
  cases hfd : x.ofile fd with
  | none => exact .pure fun s hs => ⟨D, V, (Change.look .refl).effect, F, P, hf, hs⟩
  | some f =>
    refine .bind (setProc_spec _) fun _ => ?_
    rw [← holders_congr (holds_ofile hp)]
    refine .bind (fileclose_spec (K := c.left) (ref_pos hf hp hfd) fun j hj => ?_) fun _ =>
      .pure fun s ⟨D', V', ⟨hd, _⟩, hs⟩ => ?_
    · obtain ⟨e, he, href⟩ := hc j hj
      exact (href.close hf hp hfd he).held
    exact ⟨D', V', .release .refl hd, _, _, hf.close_fd hp hfd, hs⟩

/-- Where `exit` is when it has closed the descriptors below `j`. -/
def Exiting (N : Nat) (K : Nat → Prop) (D : Disk) (V : Nat → Prop) (p : Fin NPROC) (j : Nat) (s : State) : Prop :=
  ∃ F P pr D' V', (Files P F ∧ P p = some pr ∧ (∀ fd : Fin NOFILE, fd.val < j → pr.ofile fd = none) ∧
    (∀ i, K i → ∃ e : Ref, e.proc ≠ p ∧ e.To P F i) ∧ Drops K D V D' V') ∧ At N F P D' (holders P F) [] V' s

theorem closeFd_spec {j : Nat} (hj : j < NOFILE) : Triple (Exiting N K D V p j) (closeFd p j)
    (fun _ => Exiting N K D V p (j + 1)) E := by
  refine .exists fun F => .exists fun P => .exists fun pr => .exists fun D₁ =>
    Triple.exists fun V₁ => .of_fact fun ⟨hf, hp, hlow, hK, hd⟩ => ?_
  refine .bind_fact (getProc_spec hp) fun x hx => ?_
  subst hx
  have hval : (Fin.ofNat NOFILE j).val = j := Nat.mod_eq_of_lt hj
  have hcases : ∀ fd : Fin NOFILE, fd.val < j + 1 → fd.val < j ∨ fd = Fin.ofNat NOFILE j := fun fd h => by
    rw [Fin.ext_iff, hval]
    omega
  cases hfd : x.ofile (Fin.ofNat NOFILE j) with
  | none =>
    refine .pure fun s hs => ⟨F, P, x, D₁, V₁, ⟨hf, hp, fun fd h => ?_, hK, hd⟩, hs⟩
    rcases hcases fd h with h | rfl
    · exact hlow fd h
    · exact hfd
  | some f =>
    have hK' : ∀ i, K i → ∃ e : Ref, e.proc ≠ p ∧ e.To (update P p (some { x with
        ofile := update x.ofile (Fin.ofNat NOFILE j) none })) (closeFile F f) i := fun i hi => by
      obtain ⟨e, he, href⟩ := hK i hi
      refine ⟨e, he, href.close hf hp hfd ?_⟩
      rintro rfl
      exact he rfl
    refine .bind_exists₂ (fileclose_spec (K := K) (ref_pos hf hp hfd) fun i hi => ?_) fun _ D' V' ⟨hd', _⟩ =>
      (setProc_spec _).post fun _ s hs => ?_
    · obtain ⟨e, -, href⟩ := hK' i hi
      rw [← holders_congr (holds_ofile hp)]
      exact href.held
    rw [← holders_congr (holds_ofile hp)] at hs
    refine ⟨_, _, _, D', V', ⟨hf.close_fd hp hfd, update_self .., fun fd h => ?_, hK', hd.trans hd'⟩, hs⟩
    rcases hcases fd h with h | rfl
    · have hne : fd ≠ Fin.ofNat NOFILE j := by
        rintro rfl
        omega
      simp only [update_of_ne hne]
      exact hlow fd h
    · exact update_self ..

theorem exit_spec (hf : Files P F) (hp : P p = some pr) (hE : ∀ s, E .initExiting s)
    (hc : ∀ j, c.left j → ∃ e : Ref, e.proc ≠ p ∧ e.To P F j) :
    Triple (At N F P D (holders P F) [] V) (exit p) (fun _ => Performed N c D V) E := by
  refine .ite (fun _ => panic_spec hE) fun _ => ?_
  refine .bind ((Triple.loop (I := Exiting N c.left D V p) NOFILE 0 fun j _ hj => closeFd_spec (by omega)).pre
    fun s hs => ⟨F, P, pr, D, V, ⟨hf, hp, fun fd h => absurd h (by omega), hc, .nil⟩, hs⟩) fun _ => ?_
  refine .exists fun F => .exists fun P => .exists fun pr => .exists fun D₁ =>
    Triple.exists fun V₁ => .of_fact fun ⟨hf, hp, hlow, hK, hd⟩ => ?_
  refine .bind_fact (getProc_spec hp) fun x hx => ?_
  subst hx
  have hleave : ∀ j, holders P F j = holders (update P p none) F j + if j = x.cwd then 1 else 0 := fun j =>
    holders_leave hp (fun q hq => (update_of_ne hq ..).symm) (update_self ..)
  refine .bind_exists₂ ((iput_drop (B := holders (update P p none) F) (H := []) (K := c.left)
    fun j hj => ?_).pre fun s hs => At.recount hs (fun j => ?_) fun j hj => .inl (by rw [hleave]; omega))
    fun _ D' V' hd' => ?_
  · obtain ⟨e, he, href⟩ := hK j hj
    refine Nat.lt_add_right _ (href.leave ?_)
    rintro rfl
    exact he rfl
  · rw [hleave j]
    simp only [List.count_cons, List.count_nil, beq_iff_eq, eq_comm (a := j)]
    omega
  refine (setProc_spec _).post fun _ s hs => ⟨D', V', .release .refl (.snoc hd hd'), F, _, ?_, hs⟩
  refine opens_congr (fun c g => ?_) hf
  by_cases hc : c.1 = p
  · simp [Opens, hc, hp, hlow]
  · simp [Opens, hc]

/-- A child that has got the descriptors below `j` of its parent. -/
def child (pr : Proc) (j : Nat) : Proc := { pr with ofile := fun fd => if fd.val < j then pr.ofile fd else none }

theorem opens_child (P : Procs) (q : Fin NPROC) (pr : Proc) (k : Fin NOFILE)
    (c : Fin NPROC × Fin NOFILE) (g : Fin NFILE) :
    Opens (update P q (some (child pr (k.val + 1)))) c g ↔
      Opens (update P q (some (child pr k.val))) c g ∨ c = (q, k) ∧ pr.ofile k = some g := by
  obtain ⟨a, fd⟩ := c
  by_cases ha : a = q
  · subst ha
    by_cases hfd : fd = k
    · subst hfd
      simp [Opens, child]
    · have hlt : fd ≤ k ↔ fd < k := ⟨fun h => lt_of_le_of_ne h hfd, le_of_lt⟩
      simp [Opens, child, hlt, hfd]
  · simp [Opens, ha]

/-- Where `fork` is when it has duplicated the descriptors below `j`. -/
def Forking (N : Nat) (D : Disk) (V : Nat → Prop) (F : Ftable) (P : Procs) (q : Fin NPROC)
    (pr : Proc) (j : Nat) (s : State) : Prop :=
  ∃ F', (Files (update P q (some (child pr j))) F' ∧ ∀ f, (F' f).type = (F f).type ∧ (F' f).ip = (F f).ip) ∧
    At N F' P D (holders P F) [] V s

theorem dupFd_spec {q : Fin NPROC} {j : Nat} (hj : j < NOFILE) (hp : P p = some pr) (hE : ∀ s, E .filedup s) :
    Triple (Forking N D V F P q pr j) (dupFd p j) (fun _ => Forking N D V F P q pr (j + 1)) E := by
  refine .exists fun F' => .of_fact fun ⟨hf, hsame⟩ => ?_
  refine .bind_fact (getProc_spec hp) fun x hx => ?_
  subst hx
  obtain ⟨k, hk, rfl⟩ : ∃ k : Fin NOFILE, Fin.ofNat NOFILE j = k ∧ k.val = j :=
    ⟨⟨j, hj⟩, Fin.ext (Nat.mod_eq_of_lt hj), rfl⟩
  rw [hk]
  have hopens := opens_child P q x k
  cases hfd : x.ofile k with
  | none =>
    refine .pure fun s hs => ⟨F', ⟨opens_congr (fun c g => ?_) hf, hsame⟩, hs⟩
    rw [hopens, hfd]
    simp
  | some f =>
    refine .read getFile_spec ?_
    refine .ite (fun _ => panic_spec hE) fun hpos => (setFile_spec _).post fun _ s hs => ?_
    have hcount : ∀ g, Graph.count (Opens (update P q (some (child x (k.val + 1))))) g =
        Graph.count (Opens (update P q (some (child x k.val)))) g + if g = f then 1 else 0 := fun g =>
      Graph.count_add (e := (q, k)) opens_finite (by simp [Opens, child]) fun c g => by
        rw [hopens, hfd]
        simp [eq_comm]
    refine ⟨_, ⟨⟨fun g => ?_, fun g hg => ?_⟩, fun g => ?_⟩, hs⟩
    · rw [hcount, ← hf.ref]
      by_cases hg : g = f
      · subst hg
        simp
      · simp [hg]
    · have hgf : g ≠ f := by
        rintro rfl
        simp at hg
      rw [update_of_ne hgf] at hg ⊢
      exact hf.closed g hg
    · by_cases hg : g = f
      · subst hg
        simpa using hsame g
      · simpa [hg] using hsame g

theorem fork_spec {q : Fin NPROC} (hf : Files P F) (hp : P p = some pr) (hq : P q = none) (hE : ∀ s, E .filedup s) :
    Triple (At N F P D (holders P F) [] V) (fork p q) (fun _ => Performed N c D V) E := by
  refine .bind_fact (getProc_spec hp) fun x hx => ?_
  subst hx
  have hstart : Files (update P q (some (child x 0))) F := opens_congr (fun c g => by
    by_cases hc : c.1 = q
    · simp [Opens, child, hc, hq]
    · simp [Opens, hc]) hf
  refine .bind_exists ((Triple.loop (I := Forking N D V F P q x) NOFILE 0 fun j _ hj =>
    dupFd_spec (by omega) hp hE).pre fun s hs => ⟨F, ⟨hstart, fun _ => ⟨rfl, rfl⟩⟩, hs⟩) fun _ F' ⟨hf', hsame⟩ => ?_
  have hchild : child x (0 + NOFILE) = x := by simp [child]
  rw [hchild] at hf'
  refine .bind idup_spec fun _ => (setProc_spec _).post fun _ s hs => ?_
  have hhold : holders P F' = holders P F := holders_congr fun e i => by
    cases e with
    | inl a => rfl
    | inr g => simp [Holds, hsame g]
  have henter : ∀ j, holders (update P q (some x)) F' j = holders P F j + if j = x.cwd then 1 else 0 := fun j => by
    have hx : update P q (some x) q = some x := update_self ..
    rw [← hhold]
    exact holders_leave hx (fun r hr => update_of_ne hr ..) hq
  refine ⟨D, V, (Change.look .refl).effect, F', _, hf', hs.recount (fun j => ?_) fun j hj => .inl ?_⟩
  · rw [henter]
    simp only [List.count_cons, List.count_nil, beq_iff_eq, eq_comm (a := j)]
    omega
  · by_cases hjx : j = x.cwd
    · exact Graph.count_pos (e := Sum.inl p) holds_finite ⟨x, hp, hjx.symm⟩
    · rwa [henter, if_neg hjx] at hj

/-! ## Runs -/

/-- A system call; a path is `none` when `argstr` fails. -/
inductive Call
  | link (old new : Option Path)
  | unlink (path : Option Path)
  | openPath (path : Option Path) (omode : BitVec 32)
  | mkdir (path : Option Path)
  | mknod (path : Option Path) (major minor : BitVec 16)
  | chdir (path : Option Path)
  | close (fd : Fin NOFILE)
  | exit
  | fork (q : Fin NPROC)

def Call.run (p : Fin NPROC) : Call → SysM Int
  | .link old new => sysLink p old new
  | .unlink path => sysUnlink p path
  | .openPath path omode => sysOpen p omode path
  | .mkdir path => sysMkdir p path
  | .mknod path major minor => sysMknod p major minor path
  | .chdir path => sysChdir p path
  | .close fd => sysClose p fd
  | .exit => do
    Sys.exit p
    return 0
  | .fork q => do
    Sys.fork p q
    return 0

/-- The inode that a link that succeeds is made to. -/
def Call.Target (D : Disk) (cwd : Nat) (r : Int) : Call → Nat → Prop
  | .link (some old) _, i => r = 0 ∧ Names D cwd old false i
  | _, _ => False

/-- The directory in which the call makes or removes a name. -/
def Call.Parent (D : Disk) (cwd : Nat) : Call → Nat → Prop
  | .link _ (some path), i => Names D cwd path true i
  | .unlink (some path), i => Names D cwd path true i
  | .openPath (some path) omode, i => omode &&& O_CREATE ≠ 0 ∧ Names D cwd path true i
  | .mkdir (some path), i => Names D cwd path true i
  | .mknod (some path) _ _, i => Names D cwd path true i
  | _, _ => False

/-- The path of the name that the call makes. -/
def Call.newPath : Call → Option Path
  | .link _ new => new
  | .openPath path omode => if omode &&& O_CREATE ≠ 0 then path else none
  | .mkdir path => path
  | .mknod path _ _ => path
  | _ => none

/-- The directory in which the call makes a name. -/
def Call.madeIn (D : Disk) (cwd : Nat) (c : Call) : Option Nat :=
  c.newPath.bind fun path => (resolve D cwd path true).map Prod.fst

/-- The directory from which the call removes a name, and the inode that it names. -/
def Call.cutFrom (D : Disk) (cwd : Nat) : Call → Option (Nat × Nat)
  | .unlink (some path) => namedIn D cwd path
  | _ => none

/-- The references that the call gives up. -/
def Call.Gives (p : Fin NPROC) : Call → Ref → Prop
  | .chdir _, e => e = .inl p
  | .close fd, e => e = .inr (p, fd)
  | .exit, e => e.proc = p
  | _, _ => False

instance (p : Fin NPROC) (c : Call) (e : Ref) : Decidable (c.Gives p e) := by
  unfold Call.Gives
  split <;> infer_instance

/-- A reference to the inode is left after the call. -/
def Call.Leaves (P : Procs) (F : Ftable) (p : Fin NPROC) (c : Call) (i : Nat) : Prop :=
  ∃ e : Ref, ¬ c.Gives p e ∧ e.To P F i

def Call.scope (P : Procs) (F : Ftable) (D : Disk) (p : Fin NPROC) (cwd : Nat) (c : Call)
    (r : Int) : Scope where
  old := c.Target D cwd r
  made dp := c.madeIn D cwd = some dp
  cut dp ip := c.cutFrom D cwd = some (dp, ip)
  left := c.Leaves P F p

theorem Call.madeIn_of_newPath {c : Call} (hpath : c.newPath = some path) (h : Names D cwd path true dp) :
    c.madeIn D cwd = some dp := by
  obtain ⟨name, hname⟩ := h
  rw [Call.madeIn, hpath, Option.bind_some, hname]
  rfl

theorem Call.parent_of_madeIn {c : Call} (h : c.madeIn D cwd = some dp) : c.Parent D cwd dp := by
  obtain ⟨path, hpath, hdp⟩ := Option.bind_eq_some_iff.mp h
  obtain ⟨⟨dp', name⟩, hname, rfl⟩ := Option.map_eq_some_iff.mp hdp
  cases c with
  | openPath path' omode =>
    rw [Call.newPath] at hpath
    split_ifs at hpath with hc
    subst hpath
    exact ⟨hc, name, hname⟩
  | link old new | mkdir path' | mknod path' major minor =>
    obtain rfl : _ = some path := hpath
    exact ⟨name, hname⟩
  | unlink path' | chdir path' | close fd | exit | fork q => cases hpath

theorem Call.parent_of_cutFrom {c : Call} {ip : Nat} (h : c.cutFrom D cwd = some (dp, ip)) :
    c.Parent D cwd dp := by
  unfold Call.cutFrom at h
  split at h
  · obtain ⟨⟨dp', name⟩, hname, hk⟩ := Option.bind_eq_some_iff.mp h
    obtain ⟨k, -, hk⟩ := Option.map_eq_some_iff.mp hk
    cases hk
    exact ⟨name, hname⟩
  · cases h

/-- Calls of processes that exist; a child gets a free slot. -/
def Call.Enabled (P : Procs) (p : Fin NPROC) : Call → Prop
  | .fork q => (P p).isSome ∧ (P q).isNone
  | _ => (P p).isSome

instance (P : Procs) (p : Fin NPROC) (c : Call) : Decidable (c.Enabled P p) := by
  unfold Call.Enabled
  split <;> infer_instance

theorem Call.Enabled.proc {c : Call} (h : c.Enabled P p) : ∃ pr, P p = some pr := by
  unfold Call.Enabled at h
  split at h
  · exact Option.isSome_iff_exists.mp h.1
  · exact Option.isSome_iff_exists.mp h

theorem Call.run_spec {c : Call} (hN : N ≤ 2 ^ 16) (hf : Files P F) (hp : P p = some pr)
    (hG : G → Good P D fun j => 0 < holders P F j) (hc : c.Enabled P p) :
    Triple (At N F P D (holders P F) [] V) (c.run p)
      (fun r s => ∃ D' V', Effect N (c.scope P F D p pr.cwd r) D V D' V' ∧ Idle N D' V' s) (LockSafe G) := by
  have hfail : ∀ c : Call, Triple (At N F P D (holders P F) [] V) (pure (-1)) (fun r s => ∃ D' V',
      Effect N (c.scope P F D p pr.cwd r) D V D' V' ∧ Idle N D' V' s) fun e _ => G → e ≠ Panic.ilockNoType :=
    fun c => .pure fun s hs => ⟨D, V, (Change.look .refl).effect, F, P, hf, hs⟩
  cases c with
  | link old new =>
    cases old with
    | none => cases new <;> exact hfail _
    | some old =>
      cases new with
      | none => exact hfail _
      | some new =>
        refine (sysLink_spec (c := (Call.link (some old) (some new)).scope P F D p pr.cwd) hp hG (fun i hi => ⟨rfl, hi⟩)
          fun i hi => madeIn_of_newPath rfl hi).post fun r s ⟨D', V', hch, hs⟩ => ?_
        exact ⟨D', V', hch.effect, F, P, hf, hs⟩
  | unlink path =>
    cases path with
    | none => exact hfail _
    | some path =>
      refine (sysUnlink_spec (c := (Call.unlink (some path)).scope P F D p pr.cwd 0) hp hG fun _ _ h => h).post
        fun r s ⟨D', V', hch, hs⟩ => ?_
      exact ⟨D', V', hch.effect, F, P, hf, hs⟩
  | openPath path omode =>
    cases path with
    | none => exact hfail _
    | some path =>
      exact (sysOpen_spec (c := (Call.openPath (some path) omode).scope P F D p pr.cwd 0) hN hf hp hG
        fun hc i hi => madeIn_of_newPath (if_pos hc) hi).post fun r s hs => hs
  | mkdir path =>
    cases path with
    | none => exact hfail _
    | some path =>
      exact (makeNode_spec (c := (Call.mkdir (some path)).scope P F D p pr.cwd 0) hN hf hp hG (by decide : T_DIR ≠ 0)
        fun i hi => madeIn_of_newPath rfl hi).post fun r s hs => hs
  | mknod path major minor =>
    cases path with
    | none => exact hfail _
    | some path =>
      exact (makeNode_spec (c := (Call.mknod (some path) major minor).scope P F D p pr.cwd 0) hN hf hp hG
        (by decide : T_DEVICE ≠ 0) fun i hi => madeIn_of_newPath rfl hi).post fun r s hs => hs
  | chdir path =>
    cases path with
    | none => exact hfail _
    | some path =>
      exact (sysChdir_spec (c := (Call.chdir (some path)).scope P F D p pr.cwd 0) hf hp hG fun _ hj => hj).post
        fun r s hs => hs
  | close fd =>
    exact (sysClose_spec (c := (Call.close fd).scope P F D p pr.cwd 0) hf hp fun _ hj => hj).post fun r s hs => hs
  | exit =>
    exact .bind (exit_spec hf hp (fun _ _ => by decide) fun _ hj => hj) fun _ => .pure fun s hs => hs
  | fork q =>
    exact .bind (fork_spec hf hp (Option.isNone_iff_eq_none.mp hc.2) fun _ _ => by decide) fun _ =>
      Triple.pure fun s hs => hs

theorem Idle.inode (h : Idle N D V s) : s.inode = D := by
  obtain ⟨F, P, -, hs⟩ := h
  exact hs.inode

theorem Idle.call {c : Call} (hN : N ≤ 2 ^ 16) (h : Idle N D V s) (hc : c.Enabled s.proc p) :
    ∃ pr, s.proc p = some pr ∧ Hoare.Outcome
      (fun r t => ∃ D' V', Effect N (c.scope s.proc s.ftable D p pr.cwd r) D V D' V' ∧ Idle N D' V' t)
      (fun e _ => (Good s.proc D fun j => 0 < holders s.proc s.ftable j) → e ≠ .ilockNoType) (c.run p s) := by
  obtain ⟨F, P, hf, hs⟩ := h
  rw [hs.proc] at hc ⊢
  rw [hs.ftable]
  obtain ⟨pr, hp⟩ := hc.proc
  exact ⟨pr, hp, Call.run_spec hN hf hp (fun hg => hg) hc s hs⟩

def step (s : State) (e : Fin NPROC × Call) : Option State :=
  match e.2.run e.1 s with
  | .ok _ t => some t
  | .error _ _ => none

theorem run_of_step {t : State} {e : Fin NPROC × Call} (h : step s e = some t) : ∃ r, e.2.run e.1 s = .ok r t := by
  unfold step at h
  split at h
  · next r t' heq =>
    cases h
    exact ⟨r, heq⟩
  · cases h

theorem Idle.step {t : State} {e : Fin NPROC × Call} (hN : N ≤ 2 ^ 16) (h : Idle N D V s) (hen : e.2.Enabled s.proc e.1)
    (ht : Sys.step s e = some t) : ∃ pr r V', s.proc e.1 = some pr ∧
      Effect N (e.2.scope s.proc s.ftable D e.1 pr.cwd r) D V t.inode V' ∧ Idle N t.inode V' t ∧ t.ninodes = N := by
  obtain ⟨pr, hp, hout⟩ := h.call hN hen
  obtain ⟨r, hrun⟩ := run_of_step ht
  rw [hrun] at hout
  obtain ⟨D', V', heff, hidle⟩ := hout
  have hD' := hidle.inode
  subst hD'
  obtain ⟨F, P, -, hs⟩ := id hidle
  exact ⟨pr, r, V', hp, heff, hidle, hs.ninodes⟩

instance : NeZero NPROC := ⟨by decide⟩

/-- The state in which `init` starts; `full` says when the disk has no free block for a directory. -/
def start (N : Nat) (D : Disk) (full : List Bool) : State where
  ninodes := N
  inode := D
  ref := update (fun _ => 0) ROOTINO 1
  active := 1
  full := full
  proc := update (fun _ => none) 0 (some { cwd := ROOTINO })

theorem idle_start {full : List Bool} : Idle N D (fun _ => False) (start N D full) := by
  have hp : (start N D full).proc 0 = some { cwd := ROOTINO } := by simp [start]
  have hroot : ∀ i, holders (start N D full).proc (start N D full).ftable i = if i = ROOTINO then 1 else 0 :=
  fun i => by
    have hleave : holders (start N D full).proc (start N D full).ftable i =
        holders (fun _ => none) (start N D full).ftable i + if i = ROOTINO then 1 else 0 :=
      holders_leave hp (fun q hq => by simp [start, hq]) rfl
    have hzero : holders (fun _ => none) (start N D full).ftable i = 0 := Graph.count_eq_zero fun e he => by
      cases e with
      | inl q =>
        obtain ⟨pr, hq, -⟩ := he
        cases hq
      | inr g => exact he.1 rfl
    rw [hleave, hzero, Nat.zero_add]
  refine ⟨_, _, ⟨fun f => ?_, fun f _ => rfl⟩, rfl, rfl, rfl, rfl, fun i => ?_, fun i hi => hi.elim, fun i hi => ?_,
    fun i hi => ?_⟩
  · refine (Graph.count_eq_zero fun c hc => ?_).symm
    obtain ⟨pr, hp, ho⟩ := hc
    by_cases hc : c.1 = 0
    · simp only [start, hc, update_self, Option.some.injEq] at hp
      simp [← hp] at ho
    · simp [start, hc] at hp
  · rw [hroot]
    by_cases hi : i = ROOTINO
    · simp [start, hi]
    · simp [start, hi]
  · cases hi
  · rw [hroot] at hi
    by_cases h : i = ROOTINO
    · exact .inr h
    · rw [if_neg h] at hi
      omega

end Xv6.Sys

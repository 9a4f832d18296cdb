import Xv6.Sys.Dangling

/-!
# Calls that fail

When every inode without links is held by a process or a file, a lookup changes nothing and finds just what the
path names, and a call that drops a reference it has taken frees nothing. A call that fails has then left the
disk, the references and the open files as they were (`Fails`). The exception is `sys_open` with `O_CREATE`,
which makes the file before it knows whether there is a descriptor for it.
-/

namespace Xv6.Sys

open Hoare (Triple)
open Function (update update_of_ne update_self update_idem update_eq_self)

variable {N : Nat} {D D' : Disk} {F : Ftable} {P : Procs} {B : Nat → Nat} {H : List Nat}
  {V : Nat → Prop} {E : Panic → State → Prop} {i : Nat} {p : Fin NPROC} {pr : Proc}
variable {path : Path}

/-- The state of a call that has the references `H`, whatever is valid. -/
abbrev Own (N : Nat) (F : Ftable) (P : Procs) (D : Disk) (B : Nat → Nat) (H : List Nat) :
    State → Prop := At N F P D B H fun _ => False

theorem At.own {s : State} (h : At N F P D B H V s) : Own N F P D B H s := h.mono fun _ hj => hj.elim

theorem iput_own (hh : Held D fun j => 0 < B j + H.count j) : Triple (Own N F P D B (i :: H)) (iput i)
    (fun _ => Own N F P D B H) E := by
  refine iput_spec.post fun _ s ⟨D', hput, hs⟩ => ?_
  rw [hh.eq_of_frees hput.frees] at hs
  exact hs.own

theorem ilock_own (hi : 0 < B i + H.count i) (hE : ∀ s, E .ilockNoType s) : Triple (Own N F P D B H) (ilock i)
    (fun _ => Own N F P D B H) E :=
  (ilock_spec hi).imp (fun _ hs => hs) (fun _ _ hs => hs.2.own) fun _ s he => he.1 ▸ hE s

theorem namex_held {parent : Bool} (hp : P p = some pr) (hh : Held D fun j => 0 < B j + H.count j)
    (hE : ∀ e s, LookupPanic D False e → E e s) : Triple (Own N F P D B H) (namex p path parent)
      (fun r s => (r = resolve D pr.cwd path parent ∧
        ∀ ip name, r = some (ip, name) → parent = true → (D ip).type = T_DIR) ∧
        Own N F P D B ((r.map Prod.fst).toList ++ H) s) E := by
  refine (namex_spec (G := False) hp fun h => h.elim).imp (fun _ hs => hs) (fun r s hs => ?_) hE
  obtain ⟨D', V', ⟨hf, -, hr, hexact⟩, hs⟩ := hs
  obtain rfl := hh.eq_of_frees hf
  exact ⟨⟨hexact hh, fun ip name h hparent => ((hr ip name h).dir hparent).1⟩, hs.own⟩

/-! ## `create` -/

/-- The path names nothing, and a file can be made with its last element in its parent. -/
def Creates (D : Disk) (cwd : Nat) (path : Path) : Prop :=
  ∃ dp name, resolve D cwd path true = some (dp, name) ∧ (D dp).find name = none

theorem not_creates_of_none {cwd : Nat} (h : none = resolve D cwd path true) : ¬ Creates D cwd path := by
  rintro ⟨dp, name, hr, -⟩
  rw [← h] at hr
  cases hr

theorem not_creates_of_found {cwd k dp : Nat} {name : Name} (h : some (dp, name) = resolve D cwd path true)
    (hfound : Found (D dp) name (some k)) : ¬ Creates D cwd path := by
  rintro ⟨dp', name', hr, hnone⟩
  rw [← h] at hr
  cases hr
  rw [hfound.find] at hnone
  cases hnone

/-- What `create` leaves: nothing has changed, or there is a new inode. -/
def Created (N : Nat) (F : Ftable) (P : Procs) (D : Disk) (B : Nat → Nat) (C : Prop)
    (type : BitVec 16) (r : Option Nat) (s : State) : Prop :=
  (r = none ∧ ¬ C) ∧ Own N F P D B [] s ∨
    ∃ ip, r = some ip ∧ (¬ C ∧ Own N F P D B [ip] s ∨
      C ∧ (type ≠ T_DIR → ∃ D', ((D ip).type = 0 ∧ (D' ip).type = type ∧ (D' ip).nlink = 1) ∧ Own N F P D' B [ip] s))

theorem create_held {type major minor : BitVec 16} (htype : type ≠ 0) (hp : P p = some pr)
    (hh : Held D fun j => 0 < B j) : Triple (Own N F P D B []) (create p path type major minor)
      (Created N F P D B (Creates D pr.cwd path) type) fun _ _ => True := by
  refine .bind_fact (namex_held hp (by simpa using hh) fun _ _ _ => trivial) fun r ⟨hr, hdir⟩ => ?_
  cases r with
  | none => exact .pure fun s hs => .inl ⟨⟨rfl, not_creates_of_none hr⟩, hs⟩
  | some dn =>
    obtain ⟨dp, name⟩ := dn
    have hdir : (D dp).type = T_DIR := hdir dp name rfl rfl
    refine .bind (ilock_own (by simp) fun _ => trivial) fun _ => ?_
    refine .bind_fact ((dirlookup_spec hdir).err fun _ _ _ => trivial) fun r ⟨hfound, _⟩ => ?_
    cases r with
    | some ik =>
      obtain ⟨ip, k⟩ := ik
      have hC : ¬ Creates D pr.cwd path := not_creates_of_found hr hfound
      refine .bind ((iput_own (hh.mono fun j hj => ?_)).pre fun s hs => At.swap hs) fun _ =>
        .bind (ilock_own (by simp) fun _ => trivial) fun _ => ?_
      · omega
      refine .bind_fact getNode_spec fun x _ => ?_
      refine .ite (fun _ => .pure fun s hs => .inr ⟨ip, rfl, .inl ⟨hC, hs⟩⟩) fun _ => ?_
      exact .bind (iput_own (by simpa using hh)) fun _ => .pure fun s hs => .inl ⟨⟨rfl, hC⟩, hs⟩
    | none =>
      have hnone : Found (D dp) name none := hfound
      have hC : Creates D pr.cwd path := ⟨dp, name, hr.symm, hnone.find_none⟩
      refine .bind_fact ((ialloc_spec htype).err fun _ _ _ => trivial) fun ip ⟨hfree, _, _⟩ => ?_
      by_cases ht : type = T_DIR
      · -- a directory is of no interest here
        refine .bind Triple.any fun _ => .bind Triple.any fun _ => .bind Triple.any fun _ =>
          Triple.bind Triple.any fun _ => .bind Triple.any fun b => .ite (fun _ => ?_) fun _ =>
          panic_spec fun _ => trivial
        exact .bind Triple.any fun _ => .pure fun s _ => .inr ⟨ip, rfl, .inr ⟨hC, fun h => absurd ht h⟩⟩
      have hne : ip ≠ dp := by
        rintro rfl
        rw [hdir] at hfree
        exact absurd hfree (by decide)
      refine .bind (ilock_own (by simp) fun _ => trivial) fun _ => .read getNode_spec ?_
      refine .bind (setNode_spec fun h => by exact h) fun _ => ?_
      rw [update_idem, update_self, if_neg ht]
      set D₁ := update D ip { type, major, minor, nlink := 1 } with hD₁
      refine .bind (Q := fun _ => Own N F P D₁ B [ip, dp]) (.pure fun s hs => hs) fun _ => ?_
      have hdp : (D₁ dp).type = T_DIR := by rw [hD₁, update_of_ne (Ne.symm hne), hdir]
      refine .bind ((dirlink_spec hdp).err fun _ _ _ => trivial) fun b => ?_
      refine .or (.of_fact fun hb => .exists fun k => .of_fact fun _ => ?_) (.of_fact fun hb => ?_)
      · subst hb
        refine .bind (iput_spec.pre fun s hs => At.swap hs) fun _ =>
          Triple.pure fun s ⟨D', hput, hs⟩ => .inr ⟨ip, rfl, .inr ⟨hC, fun _ => ⟨D', ?_, hs.own⟩⟩⟩
        -- the new inode has the call's reference
        rw [hput.frees.eq_of_mem (by simp), putEnt_of_ne hne, hD₁, update_self]
        exact ⟨hfree, rfl, rfl⟩
      · subst hb
        exact panic_spec fun _ => trivial

/-! ## `sys_chdir` and `sys_open` -/

/-- There is a free file and a free descriptor. -/
def Room (F : Ftable) (pr : Proc) : Prop := (∃ f, (F f).ref = 0) ∧ ∃ fd, pr.ofile fd = none

/-- The device number of a device is out of range. -/
def Node.BadDevice (x : Node) : Prop := x.type = T_DEVICE ∧ (x.major.toInt < 0 ∨ (NDEV : Int) ≤ x.major.toInt)

/-- `sys_open` of an inode fails on a bad device or when a table is full. -/
def Opened (N : Nat) (F : Ftable) (P : Procs) (D : Disk) (B : Nat → Nat) (pr : Proc) (i : Nat)
    (r : Int) (s : State) : Prop :=
  (r = -1 ∧ ((D i).BadDevice ∨ ¬ Room F pr)) ∧ (∃ D', Frees (fun j => 0 < B j) D D' ∧ Own N F P D' B [] s) ∨
    r ≠ -1 ∧ Room F pr

theorem openFile_fails {omode : BitVec 32} (hp : P p = some pr) (hclosed : ∀ f, (F f).ref = 0 → (F f).type = .none) :
    Triple (Own N F P D B [i]) (openFile p i omode) (Opened N F P D B pr i) fun _ _ => True := by
  have hput : (D i).BadDevice ∨ ¬ Room F pr → Triple (Own N F P D B [i]) (do iput i; return (-1 : Int))
      (Opened N F P D B pr i) fun _ _ => True := fun hbad => by
    refine .bind iput_spec fun _ => .pure fun s ⟨D', hf, hs⟩ => .inl ⟨⟨rfl, hbad⟩, D', ?_, hs.own⟩
    simpa using hf.frees
  refine .read getNode_spec ?_
  refine .ite (fun hbad => hput (.inl hbad)) fun _ => ?_
  refine .bind filealloc_spec fun r => .or (.of_fact fun ⟨hr, hfull⟩ => ?_) (.exists fun f =>
    Triple.of_fact fun ⟨hr, href⟩ => ?_)
  · subst hr
    exact hput (.inr fun ⟨⟨f, hf⟩, _⟩ => hfull f hf)
  subst hr
  refine .bind (fdalloc_spec hp) fun r => .or (.of_fact fun ⟨hr, hfull⟩ => ?_) (.exists fun fd =>
    Triple.of_fact fun ⟨hr, hfree⟩ => ?_)
  · subst hr
    -- the file is closed again, and is what it was
    refine .bind (Q := fun _ => Own N F P D B [i]) ?_ fun _ => hput (.inr fun ⟨_, fd, hfd⟩ => hfull fd hfd)
    refine .read getFile_spec ?_
    rw [update_self, if_neg (by simp), if_neg (by simp)]
    refine .bind (setFile_spec _) fun _ => ?_
    have hsame : update (update F f { F f with ref := 1 }) f { F f with ref := 0, type := .none } = F := by
      rw [update_idem, ← hclosed f href, ← href]
      exact update_eq_self f F
    rw [if_pos (hclosed f href)]
    refine .pure fun s hs => ?_
    simp only at hs
    rwa [hsame] at hs
  · subst hr
    refine .bind Triple.any fun _ => .bind Triple.any fun _ => .bind Triple.any fun _ =>
      Triple.pure fun s _ => .inr ⟨?_, ⟨f, href⟩, fd, hfree⟩
    omega

theorem sysOpen_create {omode : BitVec 32} (hp : P p = some pr) (hh : Held D fun j => 0 < B j)
    (hclosed : ∀ f, (F f).ref = 0 → (F f).type = .none) (hc : omode &&& O_CREATE ≠ 0) :
    Triple (Own N F P D B []) (sysOpen p omode (some path))
      (fun r s => (r = -1 → s.inode = D) ↔ (¬ Creates D pr.cwd path ∨ Room F pr)) fun _ _ => True := by
  refine .bind (Q := Created N F P D B (Creates D pr.cwd path) T_FILE) ?_ fun r => ?_
  · exact .ite (fun _ => create_held (by decide) hp hh) fun h => absurd hc h
  refine .or (.of_fact fun ⟨hr, hC⟩ => ?_) (.exists fun ip => .of_fact fun hr => ?_)
  · subst hr
    exact .pure fun s hs => ⟨fun _ => .inl hC, fun _ _ => hs.inode⟩
  subst hr
  refine .or (.of_fact fun hC => ?_) (.of_fact fun hC => ?_)
  · refine (openFile_fails hp hclosed).post fun r s hs => ⟨fun _ => .inl hC, fun _ hr => ?_⟩
    obtain ⟨-, D', hf, hs⟩ := hs.resolve_right fun h => h.1 hr
    rw [hs.inode, hh.eq_of_frees hf]
  · have hopen : ∀ D', (D ip).type = 0 ∧ (D' ip).type = T_FILE ∧ (D' ip).nlink = 1 →
        Triple (Own N F P D' B [ip]) (openFile p ip omode)
          (fun r s => (r = -1 → s.inode = D) ↔ (¬ Creates D pr.cwd path ∨ Room F pr)) fun _ _ => True := by
      intro D' ⟨hfree, htype, hlink⟩
      refine (openFile_fails hp hclosed).post fun r s hs => ?_
      rcases hs with ⟨⟨hr, hbad⟩, D₁, hf, hs⟩ | ⟨hr, hroom⟩
      · have hfull : ¬ Room F pr := hbad.resolve_left fun hd => absurd (htype.symm.trans hd.1) (by decide)
        -- the new inode has a link, and is not freed
        have hnew : (D₁ ip).type = T_FILE := by rw [hf.eq_of_link (by rw [hlink]; decide), htype]
        refine iff_of_false (fun h => ?_) fun h => h.elim (fun hn => hn hC) hfull
        rw [← hs.inode, h hr, hfree] at hnew
        exact absurd hnew (by decide)
      · exact iff_of_true (fun h => absurd h hr) (.inr hroom)
    intro s hs
    obtain ⟨D', h, hs⟩ := hs (by decide)
    exact hopen D' h s hs

/-! ## Failing calls between other calls -/

/-- `sys_open` with `O_CREATE` that fails leaves no trace if and only if the name was not new, or there was a free
file and a free descriptor. -/
theorem failed_create_unchanged_iff {s t : State} {path : Option Path} {omode : BitVec 32} {r : Int}
    (hidle : Idle N s.inode V s) (hh : Held s.inode fun i => 0 < holders s.proc s.ftable i) (hp : s.proc p = some pr)
    (hc : omode &&& O_CREATE ≠ 0) (hrun : sysOpen p omode path s = .ok r t) :
    (r = -1 → t.inode = s.inode) ↔
      ((∀ q, path = some q → ¬ Creates s.inode pr.cwd q) ∨ Room s.ftable pr) := by
  obtain ⟨F, P, hf, hs⟩ := hidle
  cases path with
  | none =>
    cases hrun
    exact iff_of_true (fun _ => rfl) (.inl fun q h => by cases h)
  | some path =>
    rw [hs.proc] at hh hp
    rw [hs.ftable] at hh ⊢
    rw [(sysOpen_create hp hh hf.closed hc).of_ok hs.own hrun]
    simp

/-- The path `/.`. -/
def rootDot : Path := [SLASH, 46]

/-- `open("/.", O_CREATE)` fails, since the name is that of a directory. -/
theorem failed_create_unchanged_iff_rootDot :
    ∃ t, sysOpen 0 O_CREATE (some rootDot) (start 200 emptyRoot []) = .ok (-1) t ∧
    (∀ q, some rootDot = some q → ¬ Creates emptyRoot ROOTINO q) ∧ t.inode = emptyRoot := by
  obtain ⟨t, hrun⟩ : ∃ t, sysOpen 0 O_CREATE (some rootDot) (start 200 emptyRoot []) = .ok (-1) t := by decide +kernel
  have hnot : ∀ q, some rootDot = some q → ¬ Creates emptyRoot ROOTINO q := by
    rintro q hq ⟨dp, name, hname, hnone⟩
    cases hq
    have hfound : (resolve emptyRoot ROOTINO rootDot true).all (fun q => ((emptyRoot q.1).find q.2).isSome) = true := by
      decide +kernel
    rw [hname, Option.all_some, hnone] at hfound
    cases hfound
  obtain ⟨-, hidle, hcore⟩ : Sound (start 200 emptyRoot []) := sound_start (by decide) consistent_emptyRoot
  have hp : (start 200 emptyRoot []).proc 0 = some { cwd := ROOTINO } := by simp [start]
  have hiff := failed_create_unchanged_iff hidle (hcore.held.mono fun _ hi => hi.1) hp (by decide) hrun
  exact ⟨t, hrun, hnot, hiff.mpr (.inl hnot) rfl⟩

/-- The path `f`. -/
def newFile : Path := [102]

/-- `open("/", O_RDONLY)` as often as there are descriptors. -/
def openAll : List (Fin NPROC × Call) := List.replicate NOFILE (0, .openPath (some [SLASH]) O_RDONLY)

/-- With all descriptors in use, `open("f", O_CREATE)` fails and makes the file. -/
theorem failed_create_leaves_file :
    Consistent emptyRoot ∧ ∃ s, Machine.Run step enabled (start 200 emptyRoot []) openAll s ∧
    ∃ t, sysOpen 0 O_CREATE (some newFile) s = .ok (-1) t ∧ (s.inode 2).type = 0 ∧ (t.inode 2).type = T_FILE ∧
      (s.inode ROOTINO).find (Name.ofStr newFile) = none ∧ (t.inode ROOTINO).find (Name.ofStr newFile) = some 2 ∧
      ((t.inode ROOTINO).ents 2).inum = 2 := by
  refine ⟨consistent_emptyRoot, ?_⟩
  decide +kernel

end Xv6.Sys

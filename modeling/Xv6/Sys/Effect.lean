import Xv6.Sys.Spec

/-!
# What the system calls do to the disk

Every call that returns is one `Change`, a short sequence of updates of the disk between lookups (`Look`) and
dropped references (`Drop`). A change speaks of the disk and of the inodes that are known to be valid and
referenced, and no longer of the in-memory inodes: which laws directories and link counts keep is read off
from it.
-/

namespace Xv6.Sys

open Hoare (Triple)
open Function (update update_of_ne update_self update_idem update_eq_self)

variable {N : Nat} {D D' : Disk} {F : Ftable} {P : Procs} {B : Nat → Nat} {H : List Nat}
  {V V' K : Nat → Prop} {E : Panic → State → Prop} {G : Prop} {i d : Nat}
variable {path : Path} {p : Fin NPROC} {I : State → Prop} {pr : Proc} {type : BitVec 16} {x : Node}
variable {n : BitVec 16}

/-! ## Lookups and dropped references -/

/-- A path was looked up: only inodes without links that are not known can have been freed. -/
structure Look (D : Disk) (V : Nat → Prop) (D' : Disk) (V' : Nat → Prop) : Prop where
  frees : Frees V D D'
  known : ∀ j, V j → V' j

theorem Look.refl : Look D V D V := ⟨.refl, fun _ hj => hj⟩

theorem Look.trans {D₁ : Disk} {V₁ : Nat → Prop} (h : Look D V D₁ V₁) (h' : Look D₁ V₁ D' V') : Look D V D' V' :=
  ⟨h.frees.trans (h'.frees.mono h.known), fun j hj => h'.known j (h.known j hj)⟩

theorem Look.grow (h : Look D V D' V') {W : Nat → Prop} (hW : ∀ j, V' j → W j) : Look D V D' W :=
  ⟨h.frees, fun j hj => hW j (h.known j hj)⟩

/-- A reference to `i` was dropped; the inodes in `K` have other references. -/
structure Drop (K : Nat → Prop) (i : Nat) (D : Disk) (V : Nat → Prop) (D' : Disk) (V' : Nat → Prop) : Prop where
  known : ∀ j, j ≠ i ∨ K j → V j → V' j
  disk : D' = D ∧ (V i → (D i).nlink = 0 → V' i) ∨
    ¬ K i ∧ (D i).type ≠ 0 ∧ (D i).nlink = 0 ∧ D' = update D i (D i).freed

theorem Drop.frees (h : Drop K i D V D' V') : Frees K D D' := by
  rcases h.disk with ⟨rfl, -⟩ | ⟨hk, ht, hl, rfl⟩
  · exact .refl
  · intro j
    by_cases hji : j = i
    · subst hji
      exact .inr ⟨hk, ht, hl, update_self ..⟩
    · exact .inl (update_of_ne hji ..)

theorem Drop.mono {K' : Nat → Prop} (h : Drop K i D V D' V') (hK : ∀ j, K' j → K j) : Drop K' i D V D' V' :=
  ⟨fun j hj => h.known j (hj.imp_right (hK j)), h.disk.imp_right fun hd => ⟨fun hi => hd.1 (hK i hi), hd.2⟩⟩

theorem Look.drop {D₁ : Disk} {V₁ : Nat → Prop} (h : Look D V D₁ V₁) (h' : Drop V i D₁ V₁ D' V') : Look D V D' V' :=
  ⟨h.frees.trans h'.frees, fun j hj => h'.known j (.inr hj) (h.known j hj)⟩

theorem iput_drop (hK : ∀ j, K j → 0 < B j + H.count j) : Triple (At N F P D B (i :: H) V) (iput i)
    (fun _ s => ∃ D' V', Drop K i D V D' V' ∧ At N F P D' B H V' s) E := by
  refine Triple.known fun hV => iput_spec.post ?_
  rintro _ s ⟨D', hput, hs⟩
  refine ⟨D', fun j => V j ∧ 0 < B j + H.count j, ⟨fun j hj hv => ⟨hv, ?_⟩, ?_⟩, hs⟩
  · have := (hV j hv).1
    rcases hj with hj | hj
    · rwa [List.count_cons_of_ne (Ne.symm hj)] at this
    · exact hK j hj
  · cases hput with
    | keep h => exact .inl ⟨rfl, fun hv h0 => ⟨hv, h hv h0⟩⟩
    | free ht hl hlast =>
      refine .inr ⟨fun hk => ?_, ht, hl, rfl⟩
      have := hK i hk
      omega

theorem iput_held (hK : ∀ j, K j → 0 < B j) : Triple (At N F P D B (i :: H) V) (iput i)
    (fun _ s => ∃ D' V', Drop K i D V D' V' ∧ At N F P D' B H V' s) E :=
  iput_drop fun j hj => Nat.lt_add_right _ (hK j hj)

/-- Where `G` holds, a panic is not that of `ilock` for a free inode. -/
abbrev LockSafe (G : Prop) (e : Panic) (_ : State) : Prop := G → e ≠ .ilockNoType

/-- The inode that a path names. -/
def Names (D : Disk) (cwd : Nat) (path : Path) (parent : Bool) (i : Nat) : Prop :=
  ∃ name, resolve D cwd path parent = some (i, name)

theorem namei_look (hp : P p = some pr) (hG : G → Good P D fun j => 0 < B j + H.count j) :
    Triple (At N F P D B H V) (namei p path)
      (fun r s => ∃ D' V', (Look D V D' V' ∧ (G → D' = D) ∧
        ∀ ip, r = some ip → Names D pr.cwd path false ip ∧ (G → (D' ip).type ≠ 0)) ∧
        At N F P D' B (r.toList ++ H) V' s) (LockSafe G) := by
  refine Triple.known fun hV => .bind ((namex_spec hp hG).err fun _ _ he => he.ne) fun r =>
    Triple.pure fun s hs => ?_
  obtain ⟨D', V', ⟨hf, hk, hr, _⟩, hs⟩ := hs
  refine ⟨D', V', ⟨⟨hf.mono fun j hj => (hV j hj).1, hk⟩, fun hg => (hG hg).eq_of_frees hf, fun ip h => ?_⟩, hs⟩
  cases r with
  | none => cases h
  | some q =>
    cases h
    exact ⟨⟨q.2, (hr q.1 q.2 rfl).walk⟩, (hr q.1 q.2 rfl).type⟩

theorem nameiparent_look (hp : P p = some pr) (hG : G → Good P D fun j => 0 < B j + H.count j) :
    Triple (At N F P D B H V) (nameiparent p path)
      (fun r s => ∃ D' V', (Look D V D' V' ∧ (G → D' = D) ∧
        ∀ dp name, r = some (dp, name) →
          resolve D pr.cwd path true = some (dp, name) ∧ (D' dp).type = T_DIR ∧ V' dp) ∧
        At N F P D' B ((r.map Prod.fst).toList ++ H) V' s) (LockSafe G) := by
  refine Triple.known fun hV => ((namex_spec hp hG).err fun _ _ he => he.ne).post ?_
  rintro r s ⟨D', V', ⟨hf, hk, hr, _⟩, hs⟩
  refine ⟨D', V', ⟨⟨hf.mono fun j hj => (hV j hj).1, hk⟩, fun hg => (hG hg).eq_of_frees hf, fun dp name h => ?_⟩, hs⟩
  exact ⟨(hr dp name h).walk, (hr dp name h).dir rfl⟩

/-! ## Changes -/

/-- The disk with `n` added to a link count. -/
def addLink (D : Disk) (i : Nat) (n : BitVec 16) : Disk :=
  update D i { D i with nlink := (D i).nlink + n }

/-- A new directory. -/
def newDir (ip dp : Nat) (major minor : BitVec 16) : Node where
  type := T_DIR
  major := major
  minor := minor
  nlink := 1
  size := 2 * DIRENT
  ents := update
    (update (fun _ => {}) 0 ⟨BitVec.ofNat 16 ip, Name.dot.strncpy⟩)
    1 ⟨BitVec.ofNat 16 dp, Name.dotdot.strncpy⟩

/-- The disk with a new inode that `dp` has no entry for yet. -/
def newNode (D : Disk) (dp ip : Nat) (type major minor : BitVec 16) : Disk :=
  if type = T_DIR then update (addLink D dp 1) ip (newDir ip dp major minor)
  else update D ip { type, major, minor, nlink := 1 }

/-- The disk with the entry `k` of `dp`, which names `ip`, removed. -/
def removeEnt (D : Disk) (dp k ip : Nat) : Disk :=
  if (D ip).type = T_DIR then addLink (putEnt D dp k {}) dp (-1) else putEnt D dp k {}

/-- Which inodes a call is about. -/
structure Scope where
  /-- What the first path of `link` names. -/
  old : Nat → Prop := fun _ => False
  /-- The directory in which it makes a name. -/
  made : Nat → Prop := fun _ => False
  /-- The directory from which it removes a name, and what that names. -/
  cut : Nat → Nat → Prop := fun _ _ => False
  /-- What has a reference that is not given up. -/
  left : Nat → Prop := fun _ => False

/-- The directory that has the entry with the last element of the path, and the inode that the entry names. -/
def namedIn (D : Disk) (cwd : Nat) (path : Path) : Option (Nat × Nat) :=
  (resolve D cwd path true).bind fun q => ((D q.1).find q.2).map fun k => (q.1, ((D q.1).ents k).inum.toNat)

/-- What a call does. -/
inductive Change (N : Nat) (c : Scope) (D : Disk) (V : Nat → Prop) : Disk → (Nat → Prop) → Prop
  | look {D' : Disk} {V' : Nat → Prop} (h : Look D V D' V') : Change N c D V D' V'
  | link {D₁ D₂ D₃ D' : Disk} {V₁ V₂ V₃ V' : Nat → Prop} {ip dp k : Nat} {name : Name} (hold : c.old ip)
      (hpar : c.made dp)
      (hl : Look D V D₁ V₁) (hip : V₁ ip) (htype : (D₁ ip).type ≠ 0) (hfile : (D₁ ip).type ≠ T_DIR)
      (hl' : Look (addLink D₁ ip 1) V₁ D₂ V₂) (hdir : (D₂ dp).type = T_DIR) (hdp : V₂ dp)
      (hnone : Found (D₂ dp) name none) (hfree : FreeSlot (D₂ dp) k)
      (hd : Drop V dp (putEnt D₂ dp k ⟨BitVec.ofNat 16 ip, name.strncpy⟩) V₂ D₃ V₃)
      (hd' : Drop V ip D₃ V₃ D' V') : Change N c D V D' V'
  | linkBad {D₁ D₂ D' : Disk} {V₁ V₂ V' : Nat → Prop} {ip : Nat}
      (hl : Look D V D₁ V₁) (hip : V₁ ip) (htype : (D₁ ip).type ≠ 0) (hfile : (D₁ ip).type ≠ T_DIR)
      (hl' : Look (addLink D₁ ip 1) V₁ D₂ V₂) (hd : Drop V ip (addLink D₂ ip (-1)) V₂ D' V') : Change N c D V D' V'
  | unlink {D₁ D₂ D' : Disk} {V₁ V₂ V' : Nat → Prop} {ip dp k : Nat} {name : Name} (hcut : c.cut dp ip)
      (hl : Look D V D₁ V₁) (hdir : (D₁ dp).type = T_DIR) (hdp : V₁ dp)
      (hdot : namecmp name .dot ≠ 0) (hdotdot : namecmp name .dotdot ≠ 0) (hfound : Found (D₁ dp) name (some k))
      (hip : ip = ((D₁ dp).ents k).inum.toNat) (hv : V₁ ip) (hlink : 1 ≤ (D₁ ip).nlink.toInt)
      (hempty : (D₁ ip).type = T_DIR → ∀ j, 2 ≤ j → (D₁ ip).has j → ((D₁ ip).ents j).inum = 0)
      (hd : Drop V dp (removeEnt D₁ dp k ip) V₁ D₂ V₂)
      (hd' : Drop V ip (addLink D₂ ip (-1)) V₂ D' V') : Change N c D V D' V'
  | create {D₁ D' : Disk} {V₁ V' : Nat → Prop} {ip dp k : Nat} {name : Name} {type major minor : BitVec 16}
      (hpar : c.made dp)
      (hl : Look D V D₁ V₁) (hdir : (D₁ dp).type = T_DIR) (hdp : V₁ dp) (htype : type ≠ 0)
      (hnone : Found (D₁ dp) name none) (hip : (D₁ ip).type = 0) (hpos : 0 < ip) (hlt : ip < N)
      (hfree : FreeSlot (D₁ dp) k)
      (hd : Drop V dp (putEnt (newNode D₁ dp ip type major minor) dp k
        ⟨BitVec.ofNat 16 ip, name.strncpy⟩) (fun j => V₁ j ∨ j = ip) D' V') : Change N c D V D' V'

section

variable {n : BitVec 16} {j : Nat}

@[simp] theorem addLink_type : (addLink D i n j).type = (D j).type := by
  by_cases hji : j = i <;> simp [addLink, hji]

@[simp] theorem addLink_size : (addLink D i n j).size = (D j).size := by
  by_cases hji : j = i <;> simp [addLink, hji]

@[simp] theorem addLink_ents : (addLink D i n j).ents = (D j).ents := by
  by_cases hji : j = i <;> simp [addLink, hji]

theorem addLink_nlink : (addLink D i n i).nlink = (D i).nlink + n := by simp [addLink]

theorem addLink_of_ne (hji : j ≠ i) : addLink D i n j = D j := update_of_ne hji ..

end

theorem addLink_cancel : addLink (addLink D i 1) i (-1) = D := by
  have hsum : (D i).nlink + 1 + -1 = (D i).nlink := by
    rw [BitVec.add_assoc]
    exact BitVec.add_zero _
  unfold addLink
  rw [update_idem, update_self]
  simp only [hsum]
  exact update_eq_self i D

theorem addLinks_spec : Triple (At N F P D B H V) (addLinks i n)
    (fun _ => At N F P (addLink D i n) B H V) E := by
  refine .read getNode_spec ?_
  exact setNode_spec fun h => by exact h

theorem Good.of_addLink (h : Good P D K) {K' : Nat → Prop} (hK : ∀ j, K j → K' j) (hi : K' i) :
    Good P (addLink D i n) K' where
  root := by simpa using h.root
  cwd := by simpa using h.cwd
  entries := by simpa [Node.has] using h.entries
  held j hj hl := by
    by_cases hji : j = i
    · rwa [hji]
    · rw [addLink_of_ne hji] at hj hl
      exact hK j (h.held j hj hl)

theorem Names.of_addLink {parent : Bool} {cwd j : Nat} (h : Names (addLink D i n) cwd path parent j) :
    Names D cwd path parent j := by
  obtain ⟨name, h⟩ := h
  exact ⟨name, walk_of_dirs _ (fun j hj => by simpa using hj) _ _ _ h⟩

theorem Names.of_frees {parent : Bool} {cwd j : Nat} (hf : Frees K D D') (h : Names D' cwd path parent j) :
    Names D cwd path parent j := by
  obtain ⟨name, h⟩ := h
  exact ⟨name, hf.walk h⟩

/-! ## `sys_link` -/

theorem linkBad_spec (hip : V i) (hK : ∀ j, K j → 0 < B j) : Triple (At N F P D B [i] V) (linkBad i)
    (fun r s => ∃ D' V', (r = -1 ∧ Drop K i (addLink D i (-1)) V D' V') ∧ At N F P D' B [] V' s)
    fun e _ => e ≠ .ilockNoType := by
  refine .bind (ilock_known hip) fun _ => .bind addLinks_spec fun _ => ?_
  refine .bind (iput_held hK) fun _ => .pure fun s hs => ?_
  obtain ⟨D', V', hd, hs⟩ := hs
  exact ⟨D', V', ⟨rfl, hd⟩, hs⟩

theorem sysLink_spec {old new : Path} {c : Int → Scope} (hp : P p = some pr) (hG : G → Good P D fun j => 0 < B j)
    (hold : ∀ i, Names D pr.cwd old false i → (c 0).old i) (hpar : ∀ i, Names D pr.cwd new true i → (c 0).made i) :
    Triple (At N F P D B [] V) (sysLink p (some old) (some new))
      (fun r s => ∃ D' V', Change N (c r) D V D' V' ∧ At N F P D' B [] V' s) (LockSafe G) := by
  refine Triple.held fun hK => ?_
  refine .bind_exists₂ (namei_look hp (by simpa using hG)) fun r D₁ V₁ ⟨hl, heq, hr⟩ => ?_
  cases r with
  | none => exact .pure fun s hs => ⟨D₁, V₁, .look hl, hs⟩
  | some ip =>
    obtain ⟨hname, htype⟩ := hr ip rfl
    refine .bind_fact ((ilock_spec (by simp)).err fun e s he hg _ => htype hg he.2) fun _ hip => ?_
    refine .read getNode_spec ?_
    have hl₁ : Look D V D₁ fun j => V₁ j ∨ j = ip := hl.grow fun j hj => .inl hj
    refine .ite (fun _ => ?_) fun hfile => ?_
    · refine .bind (iput_held hK) fun _ => .pure fun s ⟨D', V', hd, hs⟩ => ?_
      exact ⟨D', V', .look (hl₁.drop hd), hs⟩
    · refine .bind addLinks_spec fun _ => ?_
      refine Triple.known fun hV₁ => ?_
      refine .bind_exists₂ (nameiparent_look hp fun hg => ?_) fun r D₂ V₂ ⟨hl', _, hr⟩ => ?_
      · rw [heq hg]
        exact (hG hg).of_addLink (fun j hj => by omega) (by simp)
      cases r with
      | none =>
        refine ((linkBad_spec (hl'.known ip (.inr rfl)) hK).err fun _ _ he _ => he).post ?_
        rintro r s ⟨D', V', ⟨rfl, hd⟩, hs⟩
        exact ⟨D', V', .linkBad hl₁ (.inr rfl) hip hfile hl' hd, hs⟩
      | some dn =>
        obtain ⟨dp, name⟩ := dn
        obtain ⟨hparent, hdir, hdp⟩ := hr dp name rfl
        have hparent : Names D pr.cwd new true dp := Names.of_frees hl.frees (Names.of_addLink ⟨name, hparent⟩)
        refine .bind ((ilock_known hdp).err fun _ _ he _ => he) fun _ => ?_
        refine Triple.known fun hB => .bind ((dirlink_spec hdir).err fun _ _ he _ => he) fun b => ?_
        refine .or (.of_fact fun hb => .exists fun k => .of_fact fun ⟨hnone, hfree⟩ => ?_)
          (.of_fact fun hb => .of_fact fun _ => .exists fun D₃ => .of_fact fun hf => ?_)
        · subst hb
          refine .bind_exists₂ (iput_held hK) fun _ D₃ V₃ hd => ?_
          refine .bind (iput_held hK) fun _ => .pure fun s ⟨D', V', hd', hs⟩ => ?_
          exact ⟨D', V', .link (hold ip hname) (hpar dp hparent) hl₁ (.inr rfl) hip hfile hl' hdir hdp hnone
            hfree hd hd', hs⟩
        · subst hb
          have hl₃ := hl'.trans ⟨hf.mono fun j hj => (hB j hj).1, fun j hj => hj⟩
          refine .bind_exists₂ (iput_drop fun j hj => (hV₁ j hj).1) fun _ D₄ V₄ hd => ?_
          have hl₄ := hl₃.drop hd
          refine ((linkBad_spec (hl₄.known ip (.inr rfl)) hK).err fun _ _ he _ => he).post ?_
          rintro r s ⟨D', V', ⟨rfl, hd'⟩, hs⟩
          exact ⟨D', V', .linkBad hl₁ (.inr rfl) hip hfile hl₄ hd', hs⟩

/-! ## `sys_unlink` -/

theorem isdirempty_spec : Triple I (isdirempty x)
    (fun r s => (r = true → ∀ j, 2 ≤ j → x.has j → (x.ents j).inum = 0) ∧ I s) fun e _ => e = .isdiremptyReadi := by
  refine .bind_fact ((scan_spec _ 2 (by omega)).err fun e s he => he.1) fun r hr => .pure fun s hs =>
    ⟨fun h j hj hx => ?_, hs⟩
  cases r with
  | none => simpa using hr.2 j hj hx
  | some k => cases h

theorem dirInUse_spec : Triple I (dirInUse x)
    (fun r s => (r = false → x.type = T_DIR → ∀ j, 2 ≤ j → x.has j → (x.ents j).inum = 0) ∧ I s)
    fun e _ => e = .isdiremptyReadi := by
  refine .ite (fun _ => ?_) fun hf => .pure fun s hs => ⟨fun _ ht => absurd ht hf, hs⟩
  refine .bind_fact isdirempty_spec fun r hr => .pure fun s hs => ⟨fun h _ => hr ?_, hs⟩
  simpa using h

theorem sysUnlink_spec {c : Scope} (hp : P p = some pr) (hG : G → Good P D fun j => 0 < B j)
    (hcut : ∀ dp ip, namedIn D pr.cwd path = some (dp, ip) → c.cut dp ip) :
    Triple (At N F P D B [] V) (sysUnlink p (some path))
      (fun _ s => ∃ D' V', Change N c D V D' V' ∧ At N F P D' B [] V' s) (LockSafe G) := by
  refine Triple.held fun hK => ?_
  refine .bind_exists₂ (nameiparent_look hp (by simpa using hG)) fun r D₁ V₁ ⟨hl, heq, hr⟩ => ?_
  cases r with
  | none => exact .pure fun s hs => ⟨D₁, V₁, .look hl, hs⟩
  | some dn =>
    obtain ⟨dp, name⟩ := dn
    obtain ⟨hpar, hdir, hdp⟩ := hr dp name rfl
    -- what is left when nothing was removed
    have hfail : ∀ W, (∀ j, V₁ j → W j) → Triple (At N F P D₁ B [dp] W) (do iput dp; return (-1 : Int))
        (fun _ s => ∃ D' V', Change N c D V D' V' ∧ At N F P D' B [] V' s) (LockSafe G) :=
        fun W hW => by
      refine .bind (iput_held hK) fun _ => .pure fun s ⟨D', V', hd, hs⟩ => ?_
      exact ⟨D', V', .look ((hl.grow hW).drop hd), hs⟩
    refine .bind ((ilock_known hdp).err fun _ _ he _ => he) fun _ => ?_
    refine .ite (fun _ => hfail V₁ fun _ hj => hj) fun hdots => ?_
    refine .bind_fact ((dirlookup_spec hdir).err fun _ _ he _ => dirlookup_panic he) fun r ⟨hfound, hent⟩ => ?_
    cases r with
    | none => exact hfail V₁ fun _ hj => hj
    | some ik =>
      obtain ⟨ip, k⟩ := ik
      have hip := hent ip k rfl
      have hfound : Found (D₁ dp) name (some k) := hfound
      have hl₁ : Look D V D₁ fun j => V₁ j ∨ j = ip := hl.grow fun j hj => .inl hj
      refine .bind_fact ((ilock_spec (by simp)).err fun e s he hg _ => ?_) fun _ htype => ?_
      · refine absurd he.2 ?_
        rw [heq hg] at hdir hfound hip ⊢
        rw [hip]
        exact (hG hg).found hdir hfound
      refine .read getNode_spec ?_
      refine .ite (fun _ _ _ _ => by simp) fun hlink => ?_
      refine .bind_fact (dirInUse_spec.err fun _ _ he _ => by rw [he]; decide) fun b hempty => ?_
      refine .ite (fun _ => ?_) fun hb => ?_
      · refine .bind_exists₂ (iput_held hK) fun _ D₂ V₂ hd => ?_
        have hl₂ := hl₁.drop hd
        refine .bind (iput_held hK) fun _ => .pure fun s ⟨D', V', hd', hs⟩ => ?_
        exact ⟨D', V', .look (hl₂.drop hd'), hs⟩
      · refine .bind_fact (writeEnt_spec.err fun _ _ he _ => by rcases he with rfl | rfl <;> decide) fun _ _ => ?_
        refine .bind (Q := fun _ => At N F P (removeEnt D₁ dp k ip) B [ip, dp] fun j => V₁ j ∨ j = ip) ?_ fun _ => ?_
        · unfold removeEnt
          refine .ite (fun ht => ?_) fun ht => .pure fun s hs => ?_
          · rw [if_pos ht]
            exact addLinks_spec
          · rw [if_neg ht]
            exact hs
        refine .bind_exists₂ ((iput_held hK).pre fun s hs => At.swap hs) fun _ D₂ V₂ hd => ?_
        refine .bind addLinks_spec fun _ => ?_
        refine .bind (iput_held hK) fun _ => .pure fun s ⟨D', V', hd', hs⟩ => ?_
        have hsame : D₁ dp = D dp := hl.frees.eq_of_type (by rw [hdir]; decide)
        have hnamed : namedIn D pr.cwd path = some (dp, ip) := by
          rw [namedIn, hpar, Option.bind_some, ← hsame, hfound.find, hip]
          rfl
        exact ⟨D', V', .unlink (hcut dp ip hnamed) hl₁ hdir (.inl hdp) (fun h => hdots (.inl h))
          (fun h => hdots (.inr h)) hfound hip (.inr rfl) (by omega) (hempty (by simpa using hb)) hd hd', hs⟩

/-! ## `create` -/

theorem iallocLoop_spec (htype : type ≠ 0) (k : Nat) : ∀ i, 0 < i →
    Triple (At N F P D B H V) (iallocLoop type k i)
      (fun ip s => ((D ip).type = 0 ∧ 0 < ip ∧ ip < N) ∧ At N F P (update D ip { type }) B (ip :: H) V s)
      fun e _ => e ≠ .ilockNoType := by
  induction k with
  | zero => exact fun i _ s _ => by simp [iallocLoop, panic, Hoare.Outcome]
  | succ k ih =>
    intro i hi s hs
    rw [iallocLoop]
    beta_reduce
    split_ifs with hlt h0
    · rw [hs.ninodes] at hlt
      rw [hs.inode] at h0
      have halloc : Triple (At N F P D B H V) (do setNode i { type }; iget i; return i)
          (fun ip s => ((D ip).type = 0 ∧ 0 < ip ∧ ip < N) ∧ At N F P (update D ip { type }) B (ip :: H) V s)
          fun e _ => e ≠ .ilockNoType := by
        refine .bind (setNode_spec fun _ => htype) fun _ => .bind (iget_spec.err fun e s he => ?_) fun _ =>
          Triple.pure fun s hs => ⟨⟨h0, hi, hlt⟩, hs⟩
        rw [he]
        decide
      exact halloc s hs
    · exact ih (i + 1) (by omega) s hs
    · simp [Hoare.Outcome]

theorem ialloc_spec (htype : type ≠ 0) : Triple (At N F P D B H V) (ialloc type)
    (fun ip s => ((D ip).type = 0 ∧ 0 < ip ∧ ip < N) ∧ At N F P (update D ip { type }) B (ip :: H) V s)
    fun e _ => e ≠ .ilockNoType := fun s hs => iallocLoop_spec htype _ 1 (by decide) s hs

theorem panic_spec {α : Type} {Q : α → State → Prop} {m : Panic} (hm : ∀ s, E m s) :
    Triple I (panic m : SysM α) Q E := fun s _ => hm s

theorem FreeSlot.eq_of_size {k n : Nat} (h : FreeSlot x k) (hn : x.size = DIRENT * n)
    (hused : ∀ j, j < n → (x.ents j).inum ≠ 0) : k = n := by
  have hle : k ≤ n := by
    have := h.next
    rw [hn] at this
    exact Nat.le_of_mul_le_mul_left this (by decide)
  by_contra hk
  refine hused k (by omega) (h.free ?_)
  unfold Node.has
  rw [hn, ← Nat.mul_succ]
  exact Nat.mul_le_mul_left _ (by omega)

theorem makeDots_spec {ip dp : Nat} {major minor : BitVec 16} (hne : ip ≠ dp) (hpos : 0 < ip) (hlt : ip < 2 ^ 16) :
    Triple (At N F P (update D ip { type := T_DIR, major, minor, nlink := 1 }) B H V) (makeDots dp ip)
      (fun _ => At N F P (update (addLink D dp 1) ip (newDir ip dp major minor)) B H V)
      fun e _ => e ≠ .ilockNoType := by
  refine .bind addLinks_spec fun _ => ?_
  have hinum : BitVec.ofNat 16 ip ≠ 0 := by
    intro h
    have := congrArg BitVec.toNat h
    simp only [BitVec.toNat_ofNat, Nat.mod_eq_of_lt hlt] at this
    exact absurd this (by simp; omega)
  set D₁ := addLink (update D ip { type := T_DIR, major, minor, nlink := 1 }) dp 1 with hD₁
  have hip : D₁ ip = { type := T_DIR, major, minor, nlink := 1 } := by
    rw [hD₁, addLink_of_ne hne, update_self]
  refine .bind (dirlink_spec (by rw [hip])) fun b => .or (.of_fact fun hb => .exists fun k =>
    Triple.of_fact fun ⟨_, hfree⟩ => ?_) (.of_fact fun hb => .of_fact fun _ => ?_)
  · subst hb
    obtain rfl : k = 0 := hfree.eq_of_size (by rw [hip]; rfl) fun j hj => by omega
    have hip₂ : putEnt D₁ ip 0 ⟨BitVec.ofNat 16 ip, Name.dot.strncpy⟩ ip =
        { type := T_DIR, major, minor, nlink := 1, size := DIRENT * 1,
          ents := update (fun _ => {}) 0 ⟨BitVec.ofNat 16 ip, Name.dot.strncpy⟩ } := by
      rw [putEnt, update_self, hip]
      rfl
    refine .bind (dirlink_spec (by rw [hip₂])) fun b => .or (.of_fact fun hb =>
      Triple.exists fun k => .of_fact fun ⟨_, hfree⟩ => ?_) (.of_fact fun hb => .of_fact fun _ => ?_)
    · subst hb
      obtain rfl : k = 1 := hfree.eq_of_size (by rw [hip₂]) fun j hj => by
        obtain rfl : j = 0 := by omega
        rw [hip₂]
        simpa using hinum
      refine .pure fun s hs => ?_
      have heq : putEnt (putEnt D₁ ip 0 ⟨BitVec.ofNat 16 ip, Name.dot.strncpy⟩) ip 1
          ⟨BitVec.ofNat 16 dp, Name.dotdot.strncpy⟩ =
          update (addLink D dp 1) ip (newDir ip dp major minor) := by
        funext j
        by_cases hj : j = ip
        · subst hj
          rw [putEnt, update_self, update_self, hip₂]
          rfl
        · by_cases hjd : j = dp
          · subst hjd
            simp [putEnt, hj, hD₁, addLink]
          · simp [putEnt, hj, hD₁, addLink, hjd]
      rwa [← heq]
    · subst hb
      exact panic_spec fun _ => by decide
  · subst hb
    exact panic_spec fun _ => by decide

theorem newNode_parent {dp ip : Nat} (type major minor : BitVec 16) (hne : ip ≠ dp) :
    (newNode D dp ip type major minor dp).type = (D dp).type ∧ (newNode D dp ip type major minor dp).size =
    (D dp).size ∧ (newNode D dp ip type major minor dp).ents = (D dp).ents := by
  unfold newNode
  split_ifs
  · simp [update_of_ne (Ne.symm hne)]
  · simp [update_of_ne (Ne.symm hne)]

theorem FreeSlot.congr {y : Node} {k : Nat} (h : FreeSlot x k) (hsize : x.size = y.size) (hents : x.ents = y.ents) :
    FreeSlot y k := by
  refine ⟨fun hk => ?_, hsize ▸ h.next, ?_, h.fits⟩
  · rw [← hents]
    exact h.free (by unfold Node.has at hk ⊢; rwa [hsize])
  · exact h.aligned.imp (fun ha => hsize ▸ ha) fun ha => by unfold Node.has at ha ⊢; rwa [← hsize]

theorem create_spec {major minor : BitVec 16} {c : Scope} (hN : N ≤ 2 ^ 16) (htype : type ≠ 0) (hp : P p = some pr)
    (hG : G → Good P D fun j => 0 < B j) (hc : ∀ i, Names D pr.cwd path true i → c.made i) :
    Triple (At N F P D B [] V) (create p path type major minor)
      (fun r s => ∃ D' V', (Change N c D V D' V' ∧ ∀ ip, r = some ip → V' ip) ∧
        At N F P D' B r.toList V' s) (LockSafe G) := by
  refine Triple.held fun hK => ?_
  refine .bind_exists₂ (nameiparent_look hp (by simpa using hG)) fun r D₁ V₁ ⟨hl, heq, hr⟩ => ?_
  cases r with
  | none => exact .pure fun s hs => ⟨D₁, V₁, ⟨.look hl, fun ip h => by cases h⟩, hs⟩
  | some dn =>
    obtain ⟨dp, name⟩ := dn
    obtain ⟨hpar, hdir, hdp⟩ := hr dp name rfl
    refine .bind ((ilock_known hdp).err fun _ _ he _ => he) fun _ => ?_
    refine .bind_fact ((dirlookup_spec hdir).err fun _ _ he _ => dirlookup_panic he) fun r ⟨hfound, hent⟩ => ?_
    cases r with
    | some ik =>
      obtain ⟨ip, k⟩ := ik
      have hip := hent ip k rfl
      have hfound : Found (D₁ dp) name (some k) := hfound
      refine .bind_exists₂ ((iput_held fun _ hj => hj).pre fun s hs => At.swap hs) fun _ D₂ V₂ hd => ?_
      have hl₂ := hl.drop (hd.mono hK)
      refine .bind_fact ((ilock_spec (by simp)).err fun e s he hg _ => ?_) fun _ _ => ?_
      · refine absurd he.2 ?_
        have h₁ := heq hg
        subst h₁
        rw [(hG hg).eq_of_frees hd.frees, hip]
        exact (hG hg).found hdir hfound
      refine .bind_fact getNode_spec fun x hx => ?_
      have hl₃ : Look D V D₂ fun j => V₂ j ∨ j = ip := hl₂.grow fun j hj => .inl hj
      refine .ite (fun _ => .pure fun s hs => ?_) fun _ => ?_
      · exact ⟨D₂, _, ⟨.look hl₃, fun a h => by cases h; exact .inr rfl⟩, hs⟩
      · refine .bind (iput_held hK) fun _ => .pure fun s ⟨D', V', hd', hs⟩ => ?_
        exact ⟨D', V', ⟨.look (hl₃.drop hd'), fun a h => by cases h⟩, hs⟩
    | none =>
      refine .bind_fact ((ialloc_spec htype).err fun _ _ he _ => he) fun ip ⟨hfree, hpos, hlt⟩ => ?_
      have hne : ip ≠ dp := by
        rintro rfl
        rw [hdir] at hfree
        exact absurd hfree (by decide)
      refine .bind_fact ((ilock_spec (by simp)).err fun e s he _ _ => absurd he.2 (by simpa using htype)) fun _ _ => ?_
      refine .read getNode_spec ?_
      refine .bind (setNode_spec fun h => by exact h) fun _ => ?_
      rw [update_idem, update_self]
      refine .bind (Q := fun _ => At N F P (newNode D₁ dp ip type major minor) B [ip, dp] fun j => V₁ j ∨ j = ip)
        ?_ fun _ => ?_
      · unfold newNode
        refine .ite (fun ht => ?_) fun ht => .pure fun s hs => ?_
        · rw [if_pos ht, ht]
          exact (makeDots_spec hne hpos (by omega)).err fun _ _ he _ => he
        · rw [if_neg ht]
          exact hs
      obtain ⟨htype', hsize, hents⟩ := newNode_parent type major minor hne
      refine .bind ((dirlink_spec (by rw [htype', hdir])).err fun _ _ he _ => he) fun b => .or
        (.of_fact fun hb => .exists fun k => .of_fact fun ⟨_, hslot⟩ => ?_) (.of_fact fun hb => ?_)
      · subst hb
        refine .bind ((iput_held hK).pre fun s hs => At.swap hs) fun _ => .pure fun s ⟨D', V', hd, hs⟩ => ?_
        refine ⟨D', V', ⟨.create (hc dp ⟨name, hpar⟩) hl hdir hdp htype hfound hfree hpos hlt
          (hslot.congr hsize hents) hd, fun a h => ?_⟩, hs⟩
        cases h
        exact hd.known ip (.inl hne) (.inr rfl)
      · subst hb
        exact panic_spec fun _ _ => by decide

end Xv6.Sys

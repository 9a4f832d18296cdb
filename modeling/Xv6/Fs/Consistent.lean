import Xv6.Fs.Ops
import Xv6.Lib.Run

/-!
# Block ownership

The inode cache: `iget`, `idup`, `ialloc` and `iput` keep the image consistent. Then any sequence of
operations on any inodes, from a boot on a consistent image: a bit of the free map is set exactly for the
metadata blocks and for the blocks in one slot of an inode, and truncating an inode frees all of its blocks.
-/

namespace Xv6.Fs

open Hoare (Triple Outcome)
open Ownership (Owned)
open Machine (Run)
open Function (update_of_ne update_self update_idem)

variable {g : Geometry} {v v' w w' : Blocks} {c : Icache} {ip : Fin NINODE} {i : Nat}
  {E : Panic → State → Prop}

/-! ## References to inodes -/

theorem Inv.setRef (h : Inv g v w c) (href : 0 < (c ip).ref) (n : Nat) :
    Inv g v w (Function.update c ip { c ip with ref := n }) :=
  { h with cache := h.cache.update href rfl (fun _ _ _ => rfl) fun _ hv => h.cache.valid ip href hv }

theorem idup_spec (h : Inv g v w c) (href : 0 < (c ip).ref) : Triple (Is v w c) (idup ip)
    (fun _ s => ∃ c', Inv g v w c' ∧ Is v w c' s) E :=
  (modifyInode_spec ip _).post fun _ _ hs => ⟨_, h.setRef href _, hs⟩

theorem Cached.take (h : Cached g v c) (hi : i < g.ninodes) (hnone : ∀ iq, 0 < (c iq).ref → (c iq).inum ≠ i) :
    Cached g v (Function.update c ip { c ip with inum := i, ref := 1, valid := false }) := by
  refine ⟨fun iq hq => ?_, fun iq hq hv => ?_, fun iq ir hq hr he => ?_⟩
  · by_cases hqp : iq = ip
    · rw [hqp, update_self]
      exact hi
    · rw [update_of_ne hqp] at hq ⊢
      exact h.lt iq hq
  · by_cases hqp : iq = ip
    · simp [hqp, update_self] at hv
    · rw [update_of_ne hqp] at hq hv ⊢
      exact h.valid iq hq hv
  · by_cases hqp : iq = ip <;> by_cases hrp : ir = ip
    · rw [hqp, hrp]
    · rw [hqp, update_self, update_of_ne hrp] at he
      rw [update_of_ne hrp] at hr
      exact absurd he.symm (hnone ir hr)
    · rw [hrp, update_self, update_of_ne hqp] at he
      rw [update_of_ne hqp] at hq
      exact absurd he (hnone iq hq)
    · rw [update_of_ne hqp] at hq he
      rw [update_of_ne hrp] at hr he
      exact h.uniq iq ir hq hr he

theorem iget_spec (h : Inv g v w c) (hi : i < g.ninodes) : Triple (Is v w c) (iget i)
    (fun _ s => ∃ c', Inv g v w c' ∧ Is v w c' s) fun e _ => e = .igetNoInodes := by
  rintro s ⟨rfl, rfl, rfl⟩
  unfold iget
  split
  next ip hfind =>
    have hp := List.find?_some hfind
    rw [decide_eq_true_iff] at hp
    exact ⟨_, h.setRef hp.1 _, rfl, rfl, rfl⟩
  next hnone =>
    split
    · refine ⟨_, { h with cache := h.cache.take hi fun iq hq he => ?_ }, rfl, rfl, rfl⟩
      have := List.find?_eq_none.mp hnone iq (List.mem_finRange iq)
      rw [decide_eq_true_iff] at this
      exact this ⟨hq, he⟩
    · rfl

/-! ## `ialloc` -/

/-- The image after `ialloc` has taken inode `i`. -/
def newInode (g : Geometry) (v : Blocks) (i : Nat) (type : BitVec 16) : Blocks :=
  Function.update v (g.iblock i) (Dinode.clear (v (g.iblock i)) (i % IPB) type)

theorem dinode_newInode_self (type : BitVec 16) : dinode g (newInode g v i type) i = { type } := by
  rw [dinode, newInode, update_self]
  exact Dinode.read_clear type (Nat.mod_lt i (by decide))

theorem dinode_newInode_of_ne {j : Nat} (h : j ≠ i) (type : BitVec 16) :
    dinode g (newInode g v i type) j = dinode g v j := by
  unfold dinode newInode
  by_cases hb : g.iblock j = g.iblock i
  · rw [hb, update_self]
    exact Dinode.read_clear_of_ne type fun hm => h (eq_of_iblock hb hm)
  · rw [update_of_ne hb]

theorem Inv.newInode {type : BitVec 16} (h : Inv g v w c) (hi : i < g.ninodes) (h0 : (dinode g v i).type = 0)
    (ht : type ≠ 0) : Inv g (newInode g v i type) (newInode g w i type) c := by
  have hlt := g.iblock_lt_datastart hi
  have hself := dinode_newInode_self (g := g) (v := v) (i := i) type
  have haddrs : ∀ j, (dinode g (Fs.newInode g v i type) j).addrs = (dinode g v j).addrs := by
    intro j
    by_cases hji : j = i
    · rw [hji, hself, (h.inodes i hi).free h0]
    · rw [dinode_newInode_of_ne hji]
  have hkeep : ∀ a, g.datastart ≤ a → Fs.newInode g v i type a = v a := fun a ha => update_of_ne (by omega) ..
  have hclean : ∀ a, v a = w a → Fs.newInode g v i type a = Fs.newInode g w i type a := by
    intro a ha
    unfold Fs.newInode
    rw [h.clean _ hlt]
    by_cases hai : a = g.iblock i
    · rw [hai, update_self, update_self]
    · rw [update_of_ne hai, update_of_ne hai, ha]
  constructor
  case owns =>
    refine Owned.congr h.owns (fun s => refs_congr fun hs => ?_) fun b _ => ?_
    · rw [slotAddr_of_addrs haddrs]
      exact slotAddr_congr rfl fun hind => hkeep _ (h.owns.ind_ge hs hind)
    · rw [Fs.newInode, used_update_of_ne (g.iblock_ne_bblock hi b).symm]
  case clean => exact fun a ha => hclean a (h.clean a ha)
  case inds =>
    intro j hj hind
    rw [addr_of_addrs (haddrs j)] at hind ⊢
    exact hclean _ (h.inds j hj hind)
  case inodes =>
    intro j hj
    by_cases hji : j = i
    · rw [hji, hself]
      exact ⟨fun htz => absurd htz ht, Nat.zero_le _, fun t ht => by cases ht⟩
    · have hok := h.inodes j hj
      rw [dinode_newInode_of_ne hji]
      refine ⟨hok.free, hok.size, fun t ht => ?_⟩
      rw [leafAddr_congr fun hind => hkeep _ (h.owns.ind_ge hj hind)]
      exact hok.filled t ht
  case cache =>
    refine ⟨h.cache.lt, fun iq hq hv => ?_, h.cache.uniq⟩
    have hvalid := h.cache.valid iq hq hv
    have hne : (c iq).inum ≠ i := fun he => hvalid.2 (by rw [hvalid.1, he, h0])
    rw [dinode_newInode_of_ne hne]
    exact hvalid

theorem iallocLoop_spec {type : BitVec 16} (h : Inv g v w c) (ht : type ≠ 0) (k : Nat) : ∀ inum,
    Triple (Is v w c) (iallocLoop g type k inum) (fun _ s => ∃ v' w' c', Inv g v' w' c' ∧ Is v' w' c' s)
      fun e _ => e = .iallocNoInodes ∨ e = .igetNoInodes := by
  induction k with
  | zero => exact fun _ _ _ => .inl rfl
  | succ k ih =>
    intro inum
    rw [iallocLoop]
    refine .ite (fun hi => ?_) fun _ _ _ => .inl rfl
    have hclean := h.clean _ (g.iblock_lt_datastart hi)
    refine .read (bread_spec hclean) ?_
    refine .ite (fun h0 => ?_) fun _ => ih (inum + 1)
    refine .bind (modifyData_spec _) fun _ => .bind logWrite_spec fun _ => ?_
    rw [update_self]
    refine (iget_spec (h.newInode hi h0 ht) hi).imp (fun s hs => ?_) (fun _ s hs => ?_) fun _ _ he => .inr he
    · unfold newInode
      rwa [← hclean]
    · obtain ⟨c', hinv, hs⟩ := hs
      exact ⟨_, _, c', hinv, hs⟩

/-! ## `iput` -/

/-- What `iput` writes over an inode it frees. -/
def freed (x : Dinode) : Dinode := { emptied x with type := 0 }

theorem ifree_spec (h : Locked g ip v w c) : Triple (Is v w c) (ifree g ip)
    (fun _ s => ∃ v' w', ((∀ n, Inv g v' w' (Function.update c ip
      { c ip with ref := n, valid := false, d := freed (dinode g v (c ip).inum) })) ∧ Freed g (c ip).inum v v') ∧
      Is v' w' (Function.update c ip { c ip with valid := false, d := freed (dinode g v (c ip).inum) }) s) E := by
  refine .bind_exists₂ (itrunc_spec h.busy) fun _ v' w' ht => ?_
  have hb := ht.busy.setMeta (y := freed (dinode g v (c ip).inum)) (by rw [update_self]; rfl)
  rw [update_idem, setD_setD] at hb
  have hb' := hb.putInode (freed (dinode g v (c ip).inum))
  have hinv : ∀ n, Inv g (putInode g v' (c ip).inum (freed (dinode g v (c ip).inum)))
      (putInode g w' (c ip).inum (freed (dinode g v (c ip).inum)))
      (Function.update c ip { c ip with ref := n, valid := false, d := freed (dinode g v (c ip).inum) }) := by
    intro n
    refine h.inv_emptied hb' (dinode_putInode_self _ _ _) (fun a ha => ?_) rfl rfl rfl fun _ hv => by cases hv
    have := g.iblock_lt_datastart hb.lt
    rw [putInode_of_ne (by omega)]
    exact ht.data a ha
  have hfreed := h.freed ht (fun a => used_putInode hb.lt _ a)
    (dinode_putInode_self _ _ (freed (dinode g v (c ip).inum))) rfl
  refine .bind (modifyInode_spec ip _) fun _ => ?_
  have hcore : Function.update (setD c ip (emptied (dinode g v (c ip).inum))) ip
      { setD c ip (emptied (dinode g v (c ip).inum)) ip with
        d := { (setD c ip (emptied (dinode g v (c ip).inum)) ip).d with type := 0 } } =
      setD c ip (freed (dinode g v (c ip).inum)) := by
    rw [setD_self, setD, update_idem]
    rfl
  rw [hcore]
  refine .bind (iupdate_spec hb.clean hb.lt (x := freed (dinode g v (c ip).inum)) hb.inum
    (by rw [setD_self])) fun _ => ?_
  refine (modifyInode_spec ip _).post fun _ s hs => ⟨_, _, ⟨hinv, hfreed⟩, ?_⟩
  rwa [setD_self, setD, update_idem] at hs

theorem iput_spec (h : Inv g v w c) (href : 0 < (c ip).ref) : Triple (Is v w c) (iput g ip)
    (fun _ s => ∃ v' w' c', (Inv g v' w' c' ∧ ((c ip).unlinked → Freed g (c ip).inum v v')) ∧ Is v' w' c' s) E := by
  refine .read (getInode_spec ip) ?_
  by_cases hu : (c ip).unlinked
  · rw [if_pos hu]
    refine .bind_exists₂ (ifree_spec ⟨h, href, hu.2.1⟩) fun _ v' w' hf => ?_
    refine (modifyInode_spec ip _).post fun _ s hs => ?_
    rw [update_idem, update_self] at hs
    exact ⟨v', w', _, ⟨hf.1 _, fun _ => hf.2⟩, hs⟩
  · rw [if_neg hu]
    refine .bind (Q := fun _ => Is v w c) (.pure fun _ hs => hs) fun _ => ?_
    exact (modifyInode_spec ip _).post fun _ s hs => ⟨v, w, _, ⟨h.setRef href _, fun hc => absurd hc hu⟩, hs⟩

/-! ## Operations -/

/-- The system calls set these fields of a locked inode and call `iupdate`. -/
def setFields (g : Geometry) (ip : Fin NINODE) (major minor nlink : BitVec 16) : FsM Unit := do
  modifyInode ip fun x => { x with d := { x.d with major, minor, nlink } }
  iupdate g ip

theorem setFields_spec {major minor nlink : BitVec 16} (h : Locked g ip v w c) :
    Triple (Is v w c) (setFields g ip major minor nlink) (fun _ s => ∃ v' w' c', Inv g v' w' c' ∧ Is v' w' c' s) E := by
  have hb := h.busy
  have hok := h.inodes _ hb.lt
  have hb' : Busy g ip (c ip).inum (dinode g v) v w (setD c ip (dinode g v (c ip).inum)) := by
    rwa [setD_eq_self hb.core]
  refine .bind (modifyInode_spec ip _) fun _ => ?_
  refine (iupdate_spec h.clean hb.lt (by rw [update_self])
    (by rw [update_self])).post fun _ s hs => ⟨_, _, _, ?_, hs⟩
  refine h.writeBack hb' .refl (by rw [hb.core]) (by rw [hb.core]) ?_ fun t ht => ?_
  · rw [hb.core]; exact hok.size
  · rw [hb.core] at ht; exact hok.filled t ht

theorem commit_spec (h : Inv g v w c) : Triple (Is v w c) commit (fun _ s => ∃ w', Inv g v w' c ∧ Is v w' c s) E := by
  rintro s ⟨rfl, rfl, rfl⟩
  have hsame : ∀ b, s.buf b = s.disk b → s.buf b = if s.pinned b then s.buf b else s.disk b := by
    intro b hb
    split
    · rfl
    · exact hb
  exact ⟨_, { h with clean := fun b hb => hsame b (h.clean b hb), inds := fun j hj ha => hsame _ (h.inds j hj ha) },
    rfl, rfl, rfl⟩

/-- An operation, with the locking its callers do. -/
inductive Op
  | commit
  | ialloc (type : BitVec 16)
  | iget (inum : Nat)
  | idup (ip : Fin NINODE)
  | iput (ip : Fin NINODE)
  | itrunc (ip : Fin NINODE)
  | setFields (ip : Fin NINODE) (major minor nlink : BitVec 16)
  | readi (ip : Fin NINODE) (mem : Memory) (dst : Nat) (off n : BitVec 32)
  | writei (ip : Fin NINODE) (mem : Memory) (src : Nat) (off n : BitVec 32)

/-- Run code on a locked inode. -/
def withLock {α : Type} (g : Geometry) (ip : Fin NINODE) (x : FsM α) : FsM Unit := do
  ilock g ip
  let _ ← x

def Op.run (g : Geometry) : Op → FsM Unit
  | .commit => Fs.commit
  | .ialloc type => do let _ ← Fs.ialloc g type
  | .iget inum => do let _ ← Fs.iget inum
  | .idup ip => Fs.idup ip
  | .iput ip => Fs.iput g ip
  | .itrunc ip => withLock g ip (Fs.itrunc g ip)
  | .setFields ip major minor nlink => withLock g ip (Fs.setFields g ip major minor nlink)
  | .readi ip mem dst off n => withLock g ip (Fs.readi g ip mem dst off n)
  | .writei ip mem src off n => withLock g ip (Fs.writei g ip mem src off n)

/-- What the callers see to: new inodes have a type, inode numbers come from directory entries, and an entry
of the inode cache is used by those who have a reference. -/
def Op.Enabled (g : Geometry) (s : State) : Op → Prop
  | .commit => True
  | .ialloc type => type ≠ 0
  | .iget inum => inum < g.ninodes
  | .idup ip | .iput ip | .itrunc ip | .setFields ip _ _ _ | .readi ip _ _ _ _ | .writei ip _ _ _ _ =>
    0 < (s.icache ip).ref

instance (g : Geometry) (s : State) : (op : Op) → Decidable (op.Enabled g s)
  | .commit => inferInstanceAs (Decidable True)
  | .ialloc type => inferInstanceAs (Decidable (type ≠ 0))
  | .iget inum => inferInstanceAs (Decidable (inum < g.ninodes))
  | .idup ip | .iput ip | .itrunc ip | .setFields ip _ _ _ | .readi ip _ _ _ _ | .writei ip _ _ _ _ =>
    inferInstanceAs (Decidable (0 < (s.icache ip).ref))

def State.Inv (g : Geometry) (s : State) : Prop := Fs.Inv g s.buf s.disk s.icache

theorem Inv.state {s : State} (h : Inv g v w c) (hs : Is v w c s) : s.Inv g := by
  obtain ⟨rfl, rfl, rfl⟩ := hs
  exact h

/-- The panics an operation on a consistent image can end in. -/
def Expected (e : Panic) (_ : State) : Prop :=
  e = .ballocOutOfBlocks ∨ e = .iallocNoInodes ∨ e = .igetNoInodes ∨ e = .ilockNoType

theorem withLock_spec {α : Type} {x : FsM α} {R : State → Prop} (h : Inv g v w c) (href : 0 < (c ip).ref)
    (hE : ∀ s, E .ilockNoType s)
    (hx : ∀ c', Locked g ip v w c' → (c' ip).inum = (c ip).inum → Triple (Is v w c') x (fun _ => R) E) :
    Triple (Is v w c) (withLock g ip x) (fun _ => R) E := by
  refine .bind ((ilock_spec h href).err fun e s he => he ▸ hE s) fun _ => ?_
  refine .exists fun c' => .of_fact fun hl => ?_
  exact .bind (hx c' hl.1 hl.2.1) fun _ => .pure fun _ hs => hs

theorem itrunc_locked (h : Inv g v w c) (href : 0 < (c ip).ref) : Triple (Is v w c) (Op.run g (.itrunc ip))
    (fun _ s => s.Inv g ∧ Freed g (c ip).inum v s.buf) fun e _ => e = .ilockNoType := by
  refine withLock_spec h href (fun _ => rfl) fun c' hl hi => ?_
  refine (itrunc_inv hl).post ?_
  rintro _ s ⟨v', w', c'', ⟨hinv, hf⟩, hs⟩
  rw [hi] at hf
  exact ⟨hinv.state hs, hs.buf ▸ hf⟩

theorem Op.run_spec {s : State} {op : Op} (h : s.Inv g) (hop : op.Enabled g s) :
    Outcome (fun _ t => t.Inv g) Expected (op.run g s) := by
  have hs : Is s.buf s.disk s.icache s := ⟨rfl, rfl, rfl⟩
  have hlock : ∀ s : State, Expected .ilockNoType s := fun _ => .inr (.inr (.inr rfl))
  have hinv : ∀ t : State, (∃ v' w' c', Fs.Inv g v' w' c' ∧ Is v' w' c' t) → t.Inv g :=
    fun t ⟨_, _, _, hi, ht⟩ => hi.state ht
  suffices ht : Triple (Is s.buf s.disk s.icache) (op.run g) (fun _ t => t.Inv g) Expected from ht s hs
  cases op with
  | commit =>
    refine (commit_spec h).post fun _ t ht => ?_
    obtain ⟨w', hi, ht⟩ := ht
    exact hi.state ht
  | ialloc type =>
    refine .bind ((iallocLoop_spec h hop _ _).imp (fun _ hs => hs) (fun _ t ht => hinv t ht) ?_)
      fun _ => .pure fun _ ht => ht
    rintro e t (rfl | rfl)
    · exact .inr (.inl rfl)
    · exact .inr (.inr (.inl rfl))
  | iget inum =>
    refine .bind ((iget_spec h hop).imp (fun _ hs => hs) (fun _ t ht => ?_) fun e t he => ?_)
      fun _ => .pure fun _ ht => ht
    · obtain ⟨c', hi, ht⟩ := ht
      exact hi.state ht
    · exact .inr (.inr (.inl he))
  | idup ip =>
    refine (idup_spec h hop).post fun _ t ht => ?_
    obtain ⟨c', hi, ht⟩ := ht
    exact hi.state ht
  | iput ip =>
    refine (iput_spec h hop).post fun _ t ht => ?_
    obtain ⟨v', w', c', hi, ht⟩ := ht
    exact hi.1.state ht
  | itrunc ip =>
    exact (itrunc_locked h hop).imp (fun _ hs => hs) (fun _ t ht => ht.1) fun e t he => he ▸ hlock t
  | setFields ip major minor nlink =>
    exact withLock_spec h hop hlock fun c' hl _ =>
      (setFields_spec hl).post fun _ t ht => hinv t ht
  | readi ip mem dst off n =>
    refine withLock_spec h hop hlock fun c' hl _ => (readi_spec hl).post fun _ t ht => ?_
    obtain ⟨v', hi, ht⟩ := ht
    exact hi.state ht
  | writei ip mem src off n =>
    exact withLock_spec h hop hlock fun c' hl _ =>
      (writei_spec hl).imp (fun _ hs => hs) (fun _ t ht => hinv t ht) fun _ _ he => .inl he.1

/-! ## Runs -/

structure Sys where
  fs : State
  panicked : Option Panic := none

/-- What is left of a call. -/
def Sys.after : EStateM.Result Panic State Unit → Sys
  | .ok _ t => { fs := t }
  | .error e t => { fs := t, panicked := some e }

def step (g : Geometry) (s : Sys) (op : Op) : Option Sys :=
  if s.panicked = none ∧ op.Enabled g s.fs then some (Sys.after (op.run g s.fs)) else none

/-- A boot on image `v`; `r` says which buffers are recycled. -/
def start (v : Blocks) (r : List Bool) : Sys := { fs := { buf := v, disk := v, recycle := r } }

/-- An image as mkfs makes it: blocks have owners, free inodes have no blocks and files no holes. -/
structure Consistent (g : Geometry) (v : Blocks) : Prop where
  owns : Owns g (dinode g v) v
  inodes : ∀ i, i < g.ninodes → InodeOk (dinode g v i) v

/-- The free map and the slots of all inodes agree. -/
structure BlocksOwned (g : Geometry) (v : Blocks) : Prop where
  bit : ∀ b, b < g.size → (used g v b = true ↔ b < g.datastart ∨ ∃! s, refs g (dinode g v) v s = some b)
  once : ∀ s t b, refs g (dinode g v) v s = some b → refs g (dinode g v) v t = some b → s = t
  range : ∀ s b, refs g (dinode g v) v s = some b → g.datastart ≤ b ∧ b < g.size

theorem Owns.blocksOwned (h : Owns g (dinode g v) v) : BlocksOwned g v where
  bit b hb := Owned.used_iff h (by omega)
  once := Owned.inj h
  range := Owned.mem h

theorem Inv.owns_disk (h : Inv g v w c) : Owns g (dinode g w) w := by
  have hdin : ∀ j, j < g.ninodes → dinode g w j = dinode g v j := fun j => h.clean.dinode_eq fun _ _ => rfl
  refine Owned.congr h.owns (fun s => refs_congr fun hs => ?_) fun b hb => ?_
  · exact slotAddr_congr (hdin _ hs) fun hind => (h.inds _ hs hind).symm
  · rw [used, used, h.clean _ (g.bblock_lt (slot_cases hb))]

theorem Consistent.inv {r : List Bool} (h : Consistent g v) : (start v r).fs.Inv g where
  owns := h.owns
  clean _ _ := rfl
  inds _ _ _ := rfl
  inodes := h.inodes
  cache := ⟨fun _ h => absurd h (Nat.lt_irrefl 0), fun _ h => absurd h (Nat.lt_irrefl 0),
    fun _ _ h => absurd h (Nat.lt_irrefl 0)⟩

/-- The state is consistent, or the last call ended in an expected panic. -/
def Sys.Ok (g : Geometry) (s : Sys) : Prop :=
  (s.panicked = none → s.fs.Inv g) ∧ ∀ e, s.panicked = some e → Expected e s.fs

theorem ok_after {x : EStateM.Result Panic State Unit} (h : Outcome (fun _ t => t.Inv g) Expected x) :
    (Sys.after x).Ok g := by
  cases x with
  | ok _ t => exact ⟨fun _ => h, fun e he => by cases he⟩
  | error e t => exact ⟨fun hn => (by cases hn), fun e' he => (by cases he; exact h)⟩

theorem ok_step {s t : Sys} {op : Op} (h : s.Ok g) (hs : step g s op = some t) : t.Ok g := by
  unfold step at hs
  split_ifs at hs with hen
  obtain rfl := Option.some.inj hs
  exact ok_after (Op.run_spec (h.1 hen.1) hen.2)

theorem ok_of_run {r : List Bool} {ops : List Op} {s : Sys} (hv : Consistent g v)
    (h : Run (step g) Machine.any (start v r) ops s) : s.Ok g :=
  h.inv ⟨fun _ => hv.inv, fun e he => by cases he⟩ fun _ _ _ _ _ hok _ hs => ok_step hok hs

/-- In every run from a consistent image, with any copies failing, any commits and any buffers recycled: the
free map and the slots agree, in the buffers and in what has been logged; `freeing free block` is never
reached; and `itrunc`, and an `iput` that frees the inode, return every block of the inode. -/
theorem block_ownership (g : Geometry) (v : Blocks) (hv : Consistent g v) (r : List Bool) (ops : List Op) (s : Sys)
    (hrun : Run (step g) Machine.any (start v r) ops s) :
    (s.panicked = none → BlocksOwned g s.fs.buf ∧ BlocksOwned g s.fs.disk) ∧
      s.panicked ≠ some .freeingFreeBlock ∧
      (∀ ip t, step g s (.itrunc ip) = some t →
        t.panicked = some .ilockNoType ∨ t.panicked = none ∧ Freed g (s.fs.icache ip).inum s.fs.buf t.fs.buf) ∧
      ∀ ip t, step g s (.iput ip) = some t → (s.fs.icache ip).unlinked →
        t.panicked = none ∧ Freed g (s.fs.icache ip).inum s.fs.buf t.fs.buf := by
  have hok := ok_of_run hv hrun
  have hs : Is s.fs.buf s.fs.disk s.fs.icache s.fs := ⟨rfl, rfl, rfl⟩
  refine ⟨fun hp => ⟨(hok.1 hp).owns.blocksOwned, (hok.1 hp).owns_disk.blocksOwned⟩, fun hp => ?_,
    fun ip t ht => ?_, fun ip t ht hu => ?_⟩
  · rcases hok.2 _ hp with he | he | he | he <;> cases he
  · unfold step at ht
    split_ifs at ht with hen
    obtain rfl := Option.some.inj ht
    have hout := itrunc_locked (hok.1 hen.1) hen.2 s.fs hs
    cases hx : Op.run g (.itrunc ip) s.fs with
    | ok _ t => rw [hx] at hout; exact .inr ⟨rfl, hout.2⟩
    | error e t => rw [hx] at hout; exact .inl (congrArg some hout)
  · unfold step at ht
    split_ifs at ht with hen
    obtain rfl := Option.some.inj ht
    have hout := iput_spec (E := fun _ _ => False) (hok.1 hen.1) hen.2 s.fs hs
    rw [show Op.run g (.iput ip) = iput g ip from rfl]
    cases hx : iput g ip s.fs with
    | ok _ t =>
      rw [hx] at hout
      obtain ⟨v', w', c', ⟨-, hf⟩, ht⟩ := hout
      exact ⟨rfl, ht.buf ▸ hf hu⟩
    | error e t => rw [hx] at hout; exact hout.elim

/-- The image with no inodes and no data. -/
def emptyImage : Blocks := fun b j =>
  if b = Mkfs.sb.bmapstart then BitVec.ofNat 8 (2 ^ min 8 (Mkfs.sb.datastart - 8 * j) - 1) else 0

theorem consistent_emptyImage : Consistent Mkfs.geometry emptyImage := by
  have hdin : ∀ i, i < Mkfs.geometry.ninodes → dinode Mkfs.geometry emptyImage i = {} := by
    intro i hi
    have hne : Mkfs.geometry.iblock i ≠ Mkfs.sb.bmapstart := Nat.ne_of_lt (Mkfs.geometry.iblock_lt hi)
    exact dinode_of_zero (funext fun j => if_neg hne)
  constructor
  case owns => exact owns_of_no_addrs (fun i hi => by rw [hdin i hi]) (by decide +kernel)
  case inodes =>
    intro i hi
    rw [hdin i hi]
    exact ⟨fun _ => rfl, Nat.zero_le _, fun t ht => by cases ht⟩

/-- A file is made and written, and then a copy fails for a new block. -/
def writeTwice : List Op :=
  let ip : Fin NINODE := ⟨0, NINODE_pos⟩
  [.ialloc 2, .writei ip (.kernel fun _ => 7) 0 0 3072, .commit, .writei ip (.user .unmapped) 0 3072 2000]

theorem block_ownership_writeTwice : ∃ s t,
    Run (step Mkfs.geometry) Machine.any (start emptyImage [false, true]) writeTwice s ∧
      step Mkfs.geometry s (.iput ⟨0, by decide⟩) = some t ∧
      BlocksOwned Mkfs.geometry s.fs.buf ∧ t.panicked = none ∧
      Freed Mkfs.geometry (s.fs.icache ⟨0, by decide⟩).inum s.fs.buf t.fs.buf := by
  obtain ⟨s, hrun, hp, hu⟩ : ∃ s, Machine.Run (step Mkfs.geometry) Machine.any (start emptyImage [false, true])
      writeTwice s ∧ s.panicked = none ∧ (s.fs.icache ⟨0, by decide⟩).unlinked :=
      by decide +kernel
  have h := block_ownership Mkfs.geometry emptyImage consistent_emptyImage _ _ s hrun
  have hstep : step Mkfs.geometry s (.iput ⟨0, by decide⟩) =
      some (Sys.after (Op.run Mkfs.geometry (.iput ⟨0, by decide⟩) s.fs)) :=
    if_pos ⟨hp, show 0 < (s.fs.icache ⟨0, by decide⟩).ref by rw [hu.1]; decide⟩
  exact ⟨s, _, hrun, hstep, (h.1 hp).1, h.2.2.2 _ _ hstep hu⟩

end Xv6.Fs

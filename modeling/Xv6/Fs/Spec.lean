import Xv6.Fs.Inode

/-!
# What the block and inode primitives do to the image

The image is read through `dinode` (an inode on disk) and `used` (a bit of the free map), and changed
through `mark`, `unmark`, `grow` and `putInode`. Each primitive is given by the contents of the buffers,
the logged contents and the inode cache before and after it (`Is`).
-/

namespace Xv6.Fs

open Hoare (Triple)
open Function (update update_of_ne update_self update_idem update_eq_self)

variable {g : Geometry} {v w : Blocks} {c : Icache} {E : Panic → State → Prop} {b i : Nat}
variable {a : Nat} {d : Block}

/-! ## The image -/

/-- Inode `i` on disk. -/
def dinode (g : Geometry) (v : Blocks) (i : Nat) : Dinode := Dinode.read (v (g.iblock i)) (i % IPB)

/-- The bit of block `b` in the free map. -/
def used (g : Geometry) (v : Blocks) (b : Nat) : Bool := (v (g.bblock b)).bit (b % BPB)

def mark (g : Geometry) (v : Blocks) (b : Nat) : Blocks :=
  update v (g.bblock b) ((v (g.bblock b)).setBit (b % BPB))

def unmark (g : Geometry) (v : Blocks) (b : Nat) : Blocks :=
  update v (g.bblock b) ((v (g.bblock b)).clearBit (b % BPB))

/-- Block `b` is marked and zeroed. -/
def grow (g : Geometry) (v : Blocks) (b : Nat) : Blocks := update (mark g v b) b fun _ => 0

def putInode (g : Geometry) (v : Blocks) (i : Nat) (x : Dinode) : Blocks :=
  update v (g.iblock i) (Dinode.write (v (g.iblock i)) (i % IPB) x)

theorem eq_of_bblock {c : Nat} (h : g.bblock c = g.bblock b) (hmod : c % BPB = b % BPB) : c = b := by
  have hB : BPB = 8192 := rfl
  unfold Superblock.bblock at h
  rw [hB] at h hmod
  omega

theorem eq_of_iblock {j : Nat} (h : g.iblock j = g.iblock i) (hmod : j % IPB = i % IPB) : j = i := by
  have hI : IPB = 16 := rfl
  unfold Superblock.iblock at h
  rw [hI] at h hmod
  omega

theorem bit_lt (b : Nat) : b % BPB / 8 < BSIZE := by
  have hB : BPB = 8192 := rfl
  have hS : BSIZE = 1024 := rfl
  rw [hB, hS]
  omega

theorem used_update_of_ne (h : g.bblock b ≠ a) : used g (update v a d) b = used g v b := by
  rw [used, update_of_ne h, used]

theorem dinode_update_of_ne (h : g.iblock i ≠ a) : dinode g (update v a d) i = dinode g v i := by
  rw [dinode, update_of_ne h, dinode]

theorem used_mark (v : Blocks) (b c : Nat) : used g (mark g v b) c = (decide (c = b) || used g v c) := by
  unfold used mark
  by_cases h : g.bblock c = g.bblock b
  · rw [h, update_self, Bytes.bit_setBit _ (bit_lt b)]
    congr 2
    rw [eq_iff_iff]
    exact ⟨eq_of_bblock h, fun hc => by rw [hc]⟩
  · rw [update_of_ne h, decide_eq_false fun hc => h (by rw [hc]), Bool.false_or]

theorem used_unmark (v : Blocks) (b c : Nat) : used g (unmark g v b) c = (!decide (c = b) && used g v c) := by
  unfold used unmark
  by_cases h : g.bblock c = g.bblock b
  · rw [h, update_self, Bytes.bit_clearBit _ (bit_lt b)]
    congr 3
    rw [eq_iff_iff]
    exact ⟨eq_of_bblock h, fun hc => by rw [hc]⟩
  · rw [update_of_ne h, decide_eq_false fun hc => h (by rw [hc]), Bool.not_false, Bool.true_and]

theorem used_grow (hb : g.datastart ≤ b) (ha : a < g.size) :
    used g (grow g v b) a = (decide (a = b) || used g v a) := by
  rw [grow, used_update_of_ne, used_mark]
  exact Nat.ne_of_lt (Nat.lt_of_lt_of_le (g.bblock_lt ha) hb)

theorem mark_of_ne (h : a ≠ g.bblock b) : mark g v b a = v a := update_of_ne h ..

theorem unmark_of_ne (h : a ≠ g.bblock b) : unmark g v b a = v a := update_of_ne h ..

theorem grow_of_ne (h : a ≠ g.bblock b) (hb : a ≠ b) : grow g v b a = v a := by
  rw [grow, update_of_ne hb, mark_of_ne h]

theorem grow_self (v : Blocks) (b : Nat) : grow g v b b = fun _ => 0 := update_self ..

theorem dinode_grow (hi : i < g.ninodes) (hb : g.datastart ≤ b) : dinode g (grow g v b) i = dinode g v i := by
  rw [grow, dinode_update_of_ne (Nat.ne_of_lt (Nat.lt_of_lt_of_le (g.iblock_lt_datastart hi) hb)), mark,
    dinode_update_of_ne (g.iblock_ne_bblock hi b)]

theorem used_putInode (hi : i < g.ninodes) (x : Dinode) (b : Nat) : used g (putInode g v i x) b = used g v b :=
  used_update_of_ne (g.iblock_ne_bblock hi b).symm

theorem dinode_of_zero (h : v (g.iblock i) = fun _ => 0) : dinode g v i = {} := by
  have hfield : ∀ w off, (v (g.iblock i)).field w off = 0 := by
    refine fun w off => Bytes.field_eq_zero fun k _ => ?_
    rw [h, Bytes.get_zero]
  rw [dinode, Dinode.read, hfield, hfield, hfield, hfield, hfield]
  simp only [hfield]

theorem dinode_putInode_self (v : Blocks) (i : Nat) (x : Dinode) : dinode g (putInode g v i x) i = x := by
  rw [dinode, putInode, update_self]
  exact Dinode.read_write x (Nat.mod_lt i (by decide))

theorem dinode_putInode_of_ne {j : Nat} (h : j ≠ i) (x : Dinode) :
    dinode g (putInode g v i x) j = dinode g v j := by
  unfold dinode putInode
  by_cases hb : g.iblock j = g.iblock i
  · rw [hb, update_self]
    exact Dinode.read_write_of_ne x fun hm => h (eq_of_iblock hb hm)
  · rw [update_of_ne hb]

/-! ## Primitives -/

/-- The contents of the buffers, the logged contents and the inode cache. -/
structure Is (v w : Blocks) (c : Icache) (s : State) : Prop where
  buf : s.buf = v
  disk : s.disk = w
  icache : s.icache = c

theorem bread_any : Triple (Is v w c) (bread b)
    (fun d s => ∃ v', (v' = v ∨ v' = update v b (w b)) ∧ d = v' b ∧ Is v' w c s) E := by
  rintro s ⟨rfl, rfl, rfl⟩
  unfold bread
  split
  · split
    · exact ⟨_, .inl rfl, rfl, rfl, rfl, rfl⟩
    · exact ⟨_, .inr rfl, (update_self b (s.disk b) s.buf).symm, rfl, rfl, rfl⟩
  · exact ⟨_, .inl rfl, rfl, rfl, rfl, rfl⟩
  · exact ⟨_, .inl rfl, rfl, rfl, rfl, rfl⟩

theorem bread_spec (h : v b = w b) : Triple (Is v w c) (bread b) (fun d s => d = v b ∧ Is v w c s) E := by
  refine bread_any.post ?_
  rintro d s ⟨v', hv', rfl, hs⟩
  have hvv : v' = v := by
    rcases hv' with rfl | rfl
    · rfl
    · rw [← h, update_eq_self]
  rw [hvv] at hs ⊢
  exact ⟨rfl, hs⟩

theorem modifyData_spec (f : Block → Block) : Triple (Is v w c) (modifyData b f)
    (fun _ => Is (update v b (f (v b))) w c) E := by
  rintro s ⟨rfl, rfl, rfl⟩
  exact ⟨rfl, rfl, rfl⟩

theorem logWrite_spec : Triple (Is v w c) (logWrite b) (fun _ => Is v (update w b (v b)) c) E := by
  rintro s ⟨rfl, rfl, rfl⟩
  exact ⟨rfl, rfl, rfl⟩

theorem getInode_spec (ip : Fin NINODE) : Triple (Is v w c) (getInode ip) (fun x s => x = c ip ∧ Is v w c s) E := by
  rintro s ⟨rfl, rfl, rfl⟩
  exact ⟨rfl, rfl, rfl, rfl⟩

theorem modifyInode_spec (ip : Fin NINODE) (f : Inode → Inode) : Triple (Is v w c) (modifyInode ip f)
    (fun _ => Is v w (update c ip (f (c ip)))) E := by
  rintro s ⟨rfl, rfl, rfl⟩
  exact ⟨rfl, rfl, rfl⟩

theorem update_spec (h : v b = w b) (f : Block → Block) :
    Triple (Is v w c) (do modifyData b f; logWrite b)
      (fun _ => Is (update v b (f (v b))) (update w b (f (w b))) c) E := by
  refine .bind (modifyData_spec f) fun _ => logWrite_spec.post fun _ s hs => ?_
  rw [← h]
  rwa [update_self] at hs

theorem bzero_spec : Triple (Is v w c) (bzero b)
    (fun _ => Is (update v b fun _ => 0) (update w b fun _ => 0) c) E := by
  refine .bind bread_any fun d => .exists fun v' => ?_
  refine .of_fact fun hv' => .of_fact fun _ => .bind (modifyData_spec _) fun _ => ?_
  refine logWrite_spec.post fun _ s hs => ?_
  rw [update_self] at hs
  rcases hv' with rfl | rfl
  · exact hs
  · rwa [update_idem] at hs

/-- The metadata blocks have no unlogged changes. -/
def Clean (g : Geometry) (v w : Blocks) : Prop := ∀ b, b < g.datastart → v b = w b

theorem firstFree_some {size : Nat} (k : Nat) : ∀ {bi r : Nat}, firstFree d b size k bi = some r →
    bi ≤ r ∧ r < bi + k ∧ b + r < size ∧ d.bit r = false := by
  induction k with
  | zero => intro bi r h; cases h
  | succ k ih =>
    intro bi r h
    rw [firstFree] at h
    split_ifs at h with hlt hbit
    · obtain ⟨h1, h2, h3⟩ := ih h
      exact ⟨by omega, by omega, h3⟩
    · obtain rfl := Option.some.inj h
      exact ⟨Nat.le_refl _, by omega, hlt, by simpa using hbit⟩

theorem firstFree_none {size : Nat} (k : Nat) : ∀ {bi : Nat}, firstFree d b size k bi = none →
    ∀ r, bi ≤ r → r < bi + k → b + r < size → d.bit r = true := by
  induction k with
  | zero => intro bi _ r h1 h2; omega
  | succ k ih =>
    intro bi h r h1 h2 h3
    rw [firstFree, if_pos (by omega)] at h
    split_ifs at h with hbit
    rcases Nat.eq_or_lt_of_le h1 with rfl | hlt
    · exact hbit
    · exact ih h r hlt (by omega) h3

/-- `balloc` found every block in use. -/
def NoSpace (g : Geometry) (e : Panic) (s : State) : Prop :=
  e = .ballocOutOfBlocks ∧ ∀ a, a < g.size → used g s.buf a = true

theorem ballocLoop_spec (hc : Clean g v w) (k : Nat) : ∀ m, g.size ≤ (m + k) * BPB →
    (∀ a, a < m * BPB → a < g.size → used g v a = true) →
    Triple (Is v w c) (ballocLoop g k (m * BPB))
      (fun b s => b < g.size ∧ used g v b = false ∧ Is (grow g v b) (grow g w b) c s) (NoSpace g) := by
  have hB : BPB = 8192 := rfl
  induction k with
  | zero =>
    intro m hm hfull s hs
    exact ⟨rfl, fun a ha => by rw [hs.buf]; exact hfull a (Nat.lt_of_lt_of_le ha hm) ha⟩
  | succ k ih =>
    intro m hm hfull
    rw [ballocLoop]
    refine .ite (fun hlt => ?_) fun hge s hs =>
      ⟨rfl, fun a ha => by rw [hs.buf]; exact hfull a (by omega) ha⟩
    have hblock := g.bblock_lt hlt
    have hbit : ∀ bi, bi < BPB → g.bblock (m * BPB + bi) = g.bblock (m * BPB) ∧ (m * BPB + bi) % BPB = bi := by
      intro bi hbi
      unfold Superblock.bblock
      rw [hB] at hbi ⊢
      omega
    refine .bind_fact (bread_spec (hc _ hblock)) fun d hd => ?_
    cases hf : firstFree d (m * BPB) g.size BPB 0 with
    | some bi =>
      obtain ⟨-, hbi, hsize, hfree⟩ := firstFree_some BPB hf
      obtain ⟨hbb, hmod⟩ := hbit bi (by omega)
      refine .bind (modifyData_spec _) fun _ => .bind logWrite_spec fun _ => ?_
      refine .bind bzero_spec fun _ => .pure fun s hs => ⟨hsize, ?_, ?_⟩
      · rw [used, hbb, hmod, ← hd]
        exact hfree
      · unfold grow mark
        rw [hbb, hmod, ← hc _ hblock]
        rwa [update_self] at hs
    | none =>
      have := ih (m + 1) (by rwa [show m + 1 + k = m + (k + 1) by omega]) fun a ha hsz => ?_
      · rwa [Nat.succ_mul] at this
      · by_cases hold : a < m * BPB
        · exact hfull a hold hsz
        · obtain ⟨hbb, hmod⟩ := hbit (a - m * BPB) (by rw [hB] at ha hold ⊢; omega)
          rw [show m * BPB + (a - m * BPB) = a by omega] at hbb hmod
          rw [used, hbb, hmod, ← hd]
          exact firstFree_none BPB hf _ (Nat.zero_le _) (by rw [hB] at ha hold ⊢; omega) (by omega)

theorem balloc_spec (hc : Clean g v w) : Triple (Is v w c) (balloc g)
    (fun b s => b < g.size ∧ used g v b = false ∧ Is (grow g v b) (grow g w b) c s) (NoSpace g) := by
  have h := ballocLoop_spec (c := c) hc (g.size / BPB + 1) 0 (by
    have hB : BPB = 8192 := rfl
    rw [hB]
    omega) fun a ha => by omega
  rwa [Nat.zero_mul] at h

theorem bfree_spec (hc : Clean g v w) (hb : b < g.size) (hu : used g v b = true) :
    Triple (Is v w c) (bfree g b) (fun _ => Is (unmark g v b) (unmark g w b) c) E := by
  have hclean := hc _ (g.bblock_lt hb)
  refine .bind_fact (bread_spec hclean) fun d hd => ?_
  rw [if_pos (by rw [hd]; exact hu)]
  exact update_spec hclean _

theorem iupdate_spec (hc : Clean g v w) {ip : Fin NINODE} {x : Dinode} (hi : i < g.ninodes) (hinum : (c ip).inum = i)
    (hx : (c ip).d = x) :
    Triple (Is v w c) (iupdate g ip) (fun _ => Is (putInode g v i x) (putInode g w i x) c) E := by
  subst hinum hx
  have hclean := hc _ (g.iblock_lt_datastart hi)
  refine .read (getInode_spec ip) ?_
  exact .bind_fact (bread_spec hclean) fun d _ => update_spec hclean _

end Xv6.Fs

import Xv6.Fs.Content

/-!
# Writes from memory that is not mapped

`writei` stops at the first block whose bytes `either_copyin` cannot copy. The blocks before that one are
stored and logged. Of the block itself a first part may have been copied, straight into the buffer, which is
then released without `log_write`; and `writei` returns `n` all the same.
-/

namespace Xv6.Fs

open Hoare
open Function (update update_of_ne update_self update_eq_self_iff)

variable {g : Geometry} {ip : Fin NINODE} {i b : Nat} {ino ino' ino₁ : Nat → Dinode} {v w v' w' v₁ w₁ : Blocks}
  {c : Icache} {E : Panic → State → Prop} {m : Memory}
variable {src off : Nat}

/-! ## Blocks without unlogged changes -/

/-- The blocks of `S` have no changes that were not logged. -/
def Synced (S : Nat → Prop) (s : State) : Prop := ∀ b, S b → s.buf b = s.disk b

variable {S : Nat → Prop}

theorem bread_synced (b : Nat) : Keeps (Synced S) (bread b) := by
  intro s hs
  unfold bread
  split
  · split
    · exact hs
    · intro a ha
      by_cases hab : a = b
      · rw [hab]
        exact update_self ..
      · exact (update_of_ne hab ..).trans (hs a ha)
  · exact hs
  · exact hs

theorem modifyData_synced (f : Block → Block) :
    Triple (Synced S) (modifyData b f) (fun _ => Synced fun a => S a ∧ a ≠ b) E :=
  fun _ hs _ ha => (update_of_ne ha.2 ..).trans (hs _ ha.1)

theorem logWrite_synced : Triple (Synced fun a => S a ∧ a ≠ b) (logWrite b) (fun _ => Synced S) E := by
  intro s hs a ha
  by_cases hab : a = b
  · rw [hab]
    exact (update_self b (s.buf b) s.disk).symm
  · exact (hs a ⟨ha, hab⟩).trans (update_of_ne hab ..).symm

theorem bzero_synced (b : Nat) : Keeps (Synced S) (bzero b) :=
  Keeps.bind (bread_synced b) fun _ => Triple.bind (modifyData_synced _) fun _ => logWrite_synced

theorem ballocLoop_synced (k : Nat) : ∀ b, Keeps (Synced S) (ballocLoop g k b) := by
  induction k with
  | zero => exact fun b s hs => hs
  | succ k ih =>
    intro b
    rw [ballocLoop]
    refine .ite (fun _ => .bind (bread_synced _) fun d => ?_) fun _ s hs => hs
    split
    · refine .bind (modifyData_synced _) fun _ => .bind logWrite_synced fun _ => ?_
      exact .bind (bzero_synced _) fun _ => .pure fun _ hs => hs
    · exact ih _

theorem getInode_synced : Keeps (Synced S) (getInode ip) := fun _ hs => hs

theorem modifyInode_synced (f : Inode → Inode) : Keeps (Synced S) (modifyInode ip f) := fun _ hs => hs

theorem mapAddr_synced (k : Fin (NDIRECT + 1)) : Keeps (Synced S) (mapAddr g ip k) := by
  refine .bind getInode_synced fun x => .ite (fun _ => ?_) fun _ => .pure fun _ hs => hs
  refine .bind (ballocLoop_synced _ _) fun addr => ?_
  exact .bind (modifyInode_synced _) fun _ => .pure fun _ hs => hs

theorem bmap_synced (bn : Nat) : Keeps (Synced S) (bmap g ip bn) := by
  unfold bmap
  split
  · exact mapAddr_synced _
  · refine .ite (fun _ => ?_) fun _ s hs => hs
    refine .bind (mapAddr_synced _) fun ind => .bind (bread_synced _) fun a => ?_
    refine .ite (fun _ => ?_) fun _ => .pure fun _ hs => hs
    refine .bind (ballocLoop_synced _ _) fun addr => ?_
    refine .bind (modifyData_synced _) fun _ => .bind logWrite_synced fun _ => ?_
    exact .pure fun _ hs => hs

/-! ## The blocks that are stored -/

/-- Bytes `[off, off')` of the file are those at address `src`, and logged; nothing else has changed that had no
unlogged changes. -/
structure Stored (g : Geometry) (ip : Fin NINODE) (i : Nat) (m : Memory) (src off off' : Nat) (ino : Nat → Dinode)
    (v w : Blocks) (c : Icache) (ino' : Nat → Dinode) (v' w' : Blocks) : Prop where
  busy : Busy g ip i ino' v' w' (setD c ip (ino' i))
  grown : Grown g i ino v ino' v'
  ge : off ≤ off'
  sync : ∀ b, v b = w b → v' b = w' b
  bytes : ∀ t, off ≤ t → t < off' → m.byte (src + (t - off)) = some (content (ino' i) v' t) ∧
    leafAddr (ino' i) v' (t / BSIZE) ≠ 0 ∧ v' (leafAddr (ino' i) v' (t / BSIZE)) = w' (leafAddr (ino' i) v' (t / BSIZE))
  kept : ∀ t, t < off ∨ off' ≤ t → v (leafAddr (ino i) v (t / BSIZE)) = w (leafAddr (ino i) v (t / BSIZE)) →
    content (ino' i) v' t = content (ino i) v t ∧
      v' (leafAddr (ino' i) v' (t / BSIZE)) = w' (leafAddr (ino' i) v' (t / BSIZE))

theorem stored_refl (h : Busy g ip i ino v w c) : Stored g ip i m src off off ino v w c ino v w where
  busy := by rwa [setD_eq_self h.core]
  grown := .refl
  ge := Nat.le_refl _
  sync _ hb := hb
  bytes t h1 h2 := by omega
  kept _ _ hs := ⟨rfl, hs⟩

theorem Stored.trans {src₁ off₁ off' : Nat} (h : Stored g ip i m src off off₁ ino v w c ino₁ v₁ w₁)
    (h' : Stored g ip i m src₁ off₁ off' ino₁ v₁ w₁ (setD c ip (ino₁ i)) ino' v' w')
    (hsrc : src₁ = src + (off₁ - off)) :
    Stored g ip i m src off off' ino v w c ino' v' w' where
  busy := by
    have hb := h'.busy
    rwa [setD_setD] at hb
  grown := h.grown.trans h'.grown
  ge := h.ge.trans h'.ge
  sync b hb := h'.sync b (h.sync b hb)
  bytes t h1 h2 := by
    have := h.ge
    by_cases hlt : t < off₁
    · obtain ⟨hbyte, hleaf, hsync⟩ := h.bytes t h1 hlt
      obtain ⟨hsame, hsync'⟩ := h'.kept t (.inl hlt) hsync
      exact ⟨by rw [hsame]; exact hbyte, h'.grown.leaves i _ h.busy.lt hleaf, hsync'⟩
    · have hbytes := h'.bytes t (by omega) h2
      rwa [show src₁ + (t - off₁) = src + (t - off) by omega] at hbytes
  kept t ht hs := by
    have := h.ge
    have := h'.ge
    obtain ⟨hsame, hsync⟩ := h.kept t (by omega) hs
    obtain ⟨hsame', hsync'⟩ := h'.kept t (by omega) hsync
    exact ⟨hsame'.trans hsame, hsync'⟩

theorem stored_open (src off : Nat) {bn a : Nat} (hlt : i < g.ninodes)
    (hb : Busy g ip i ino₁ v₁ w₁ (setD c ip (ino₁ i)))
    (hm : Mapped g i bn a ino v ino₁ v₁) (hsync : ∀ b, v b = w b → v₁ b = w₁ b)
    (hnew : leafAddr (ino i) v bn = 0 → v₁ a = w₁ a) (hv' : v' = v₁ ∨ v' = update v₁ a (w₁ a)) :
    Stored g ip i m src off off ino v w c ino₁ v' w₁ ∧ leafAddr (ino₁ i) v' bn = a := by
  obtain ⟨rfl, hpos⟩ : leafAddr (ino₁ i) v₁ bn = a ∧ a ≠ 0 := ⟨hm.addr, hm.pos⟩
  -- in `v₁`, before the buffer is read
  have hleaf : ∀ t, v (leafAddr (ino i) v (t / BSIZE)) = w (leafAddr (ino i) v (t / BSIZE)) →
      v₁ (leafAddr (ino₁ i) v₁ (t / BSIZE)) = w₁ (leafAddr (ino₁ i) v₁ (t / BSIZE)) := by
    intro t hs
    by_cases h0 : leafAddr (ino i) v (t / BSIZE) = 0
    · by_cases hbn : t / BSIZE = bn
      · rw [hbn] at h0 ⊢
        exact hnew h0
      · rw [hm.holes i _ hlt (.inr hbn) h0]
        exact hb.clean 0 (Nat.lt_of_le_of_lt (Nat.zero_le _) (g.iblock_lt_datastart hlt))
    · rw [hm.leaves i _ hlt h0]
      exact hsync _ hs
  have h₁ : Stored g ip i m src off off ino v w c ino₁ v₁ w₁ :=
    ⟨hb, hm.grown, Nat.le_refl _, hsync, fun t h1 h2 => by omega, fun t _ hs => ⟨hm.content hlt t, hleaf t hs⟩⟩
  rcases hv' with rfl | rfl
  · exact ⟨h₁, rfl⟩
  · have haddr : ∀ n, leafAddr (ino₁ i) (update v₁ (leafAddr (ino₁ i) v₁ bn) (w₁ (leafAddr (ino₁ i) v₁ bn))) n =
        leafAddr (ino₁ i) v₁ n := fun n => hb.leafAddr_write hlt _ n
    -- a block without unlogged changes is read back as it is
    have hread : ∀ a, v₁ a = w₁ a →
        update v₁ (leafAddr (ino₁ i) v₁ bn) (w₁ (leafAddr (ino₁ i) v₁ bn)) a = v₁ a := by
      intro a ha
      by_cases hab : a = leafAddr (ino₁ i) v₁ bn
      · rw [hab, update_self, ← hab, ha]
      · exact update_of_ne hab ..
    refine ⟨⟨hb.write_buf hpos _, hm.grown.trans (hb.grown_write _), Nat.le_refl _, fun a ha => ?_,
      fun t h1 h2 => by omega, fun t ht hs => ?_⟩, haddr bn⟩
    · rw [hread a (hsync a ha)]
      exact hsync a ha
    · rw [haddr, hread _ (hleaf t hs), ← hm.content hlt t]
      exact ⟨content_congr (haddr _) fun _ => hread _ (hleaf t hs), hleaf t hs⟩

theorem stored_chunk {k : Nat} (h : Busy g ip i ino v w c) (ha : leafAddr (ino i) v (off / BSIZE) ≠ 0)
    (hk : k ≤ BSIZE - off % BSIZE) (hmap : ∀ t, t < k → m.byte (src + t) ≠ none) {d : Block}
    (hd : d = (v (leafAddr (ino i) v (off / BSIZE))).store (off % BSIZE) (fun t => (m.byte (src + t)).getD 0) k) :
    Stored g ip i m src off (off + k) ino v w c ino (update v (leafAddr (ino i) v (off / BSIZE)) d)
      (update w (leafAddr (ino i) v (off / BSIZE)) d) := by
  have hcontent := h.content_store (f := fun t => (m.byte (src + t)).getD 0) ha hk
  rw [← hd] at hcontent
  have haddr : ∀ n, leafAddr (ino i) (update v (leafAddr (ino i) v (off / BSIZE)) d) n = leafAddr (ino i) v n :=
    fun n => h.leafAddr_write h.lt d n
  have hsame : ∀ a, v a = w a → update v (leafAddr (ino i) v (off / BSIZE)) d a =
      update w (leafAddr (ino i) v (off / BSIZE)) d a := by
    intro a hvw
    by_cases hab : a = leafAddr (ino i) v (off / BSIZE)
    · rw [hab, update_self, update_self]
    · rw [update_of_ne hab, update_of_ne hab, hvw]
  refine ⟨by rw [setD_eq_self h.core]; exact h.write ha d, h.grown_write d, Nat.le_add_right _ _, hsame,
    fun t h1 h2 => ?_, fun t ht hs => ?_⟩
  · rw [hcontent, if_pos ⟨h1, h2⟩, haddr, chunk hk h1 h2, update_self, update_self]
    obtain ⟨x, hx⟩ := Option.ne_none_iff_exists'.mp (hmap (t - off) (by omega))
    exact ⟨by rw [hx]; rfl, ha, rfl⟩
  · rw [hcontent, if_neg (by omega), haddr]
    exact ⟨rfl, hsame _ hs⟩

/-! ## The loop -/

/-- The copy to the block at `off'` fails after `j` bytes. -/
structure Fails (m : Memory) (src off last off' j : Nat) (x : Dinode) (v : Blocks) : Prop where
  start : off' = off ∨ off' % BSIZE = 0
  lt : j < min (last - off') (BSIZE - off' % BSIZE)
  mapped : ∀ k, k < j → m.byte (src + (off' - off) + k) ≠ none
  stops : m.byte (src + (off' - off) + j) = none
  leaf : leafAddr x v (off' / BSIZE) ≠ 0

/-- The loop of `writei` from `off` to `last` has ended at `off'`, with the contents `vb` of the buffers. -/
def Ends (m : Memory) (src off last off' : Nat) (x : Dinode) (v vb : Blocks) : Prop :=
  off' = last ∧ vb = v ∨
  ∃ j, Fails m src off last off' j x v ∧ vb = update v (leafAddr x v (off' / BSIZE))
    ((v (leafAddr x v (off' / BSIZE))).store (off' % BSIZE) (fun k => (m.byte (src + (off' - off) + k)).getD 0) j)

theorem Busy.bmap_synced_spec {bn : Nat} (h : Busy g ip i ino v w c) (hbn : bn < MAXFILE) :
    Triple (Is v w c) (bmap g ip bn)
      (fun a s => ∃ ino' v' w', (Busy g ip i ino' v' w' (setD c ip (ino' i)) ∧ Mapped g i bn a ino v ino' v' ∧
        (leafAddr (ino i) v bn = 0 → v' a = w' a) ∧ ∀ b, v b = w b → v' b = w' b) ∧ Is v' w' (setD c ip (ino' i)) s)
      (NoSpace g) := by
  refine ((bmap_spec h hbn).and (bmap_synced bn)).imp
    (fun s hs => ⟨hs, fun b hb => by rw [hs.buf, hs.disk]; exact hb⟩) ?_ fun _ _ he => he.1
  rintro a s ⟨⟨ino', v', w', ⟨hb, hm, -, hnew⟩, hs⟩, hsync⟩
  refine ⟨ino', v', w', ⟨hb, hm, hnew, fun b hb => ?_⟩, hs⟩
  have hb' := hsync b hb
  rwa [hs.buf, hs.disk] at hb'

theorem writeLoop_ends {n : Nat} (hfits : m.Fits src n) (k : Nat) : ∀ {ino : Nat → Dinode} {v w : Blocks} {c : Icache}
    (tot off : Nat), n - tot ≤ k → off + (n - tot) ≤ MAXFILE * BSIZE → (tot < n → src + tot < 2 ^ 64) →
    Busy g ip i ino v w c → Triple (Is v w c) (writeLoop g ip m src n k tot off)
      (fun off' s => ∃ ino' v' w' vb, (Stored g ip i m (src + tot) off off' ino v w c ino' v' w' ∧
        Ends m (src + tot) off (off + (n - tot)) off' (ino' i) v' vb) ∧ Is vb w' (setD c ip (ino' i)) s)
        (NoSpace g) := by
  have hstop : ∀ {ino : Nat → Dinode} {v w : Blocks} {c : Icache} (tot off : Nat), n - tot = 0 →
      Busy g ip i ino v w c → ∀ s, Is v w c s → ∃ ino' v' w' vb,
      (Stored g ip i m (src + tot) off off ino v w c ino' v' w' ∧
        Ends m (src + tot) off (off + (n - tot)) off (ino' i) v' vb) ∧ Is vb w' (setD c ip (ino' i)) s := by
    intro ino v w c tot off h0 h s hs
    exact ⟨ino, v, w, v, ⟨stored_refl h, .inl ⟨by omega, rfl⟩⟩, by rwa [setD_eq_self h.core]⟩
  induction k with
  | zero => exact fun tot off hk _ _ h => .pure (hstop tot off (by omega) h)
  | succ k ih =>
    intro ino v w c tot off hk hmax hsrc h
    rw [writeLoop]
    refine .ite (fun hlt => ?_) fun hge => .pure (hstop tot off (by omega) h)
    obtain ⟨l, hl⟩ : ∃ l, l = min (n - tot) (BSIZE - off % BSIZE) := ⟨_, rfl⟩
    have hmod : off % BSIZE < BSIZE := Nat.mod_lt _ (by decide)
    have hbn := block_lt hlt hmax
    refine .bind (h.bmap_synced_spec hbn) fun a => .exists fun ino₁ => .exists fun v₁ =>
      Triple.exists fun w₁ => .of_fact fun hmap => ?_
    obtain ⟨hb₁, hmapped, hnew, hsync⟩ := hmap
    refine .bind_exists bread_any fun d v₂ hv₂ => .of_fact fun hd => ?_
    obtain ⟨hopen, rfl⟩ := stored_open (src + tot) off h.lt hb₁ hmapped hsync hnew hv₂
    obtain ⟨j, hle, hj, hstops, hcopyin⟩ := m.eitherCopyin_spec d (off % BSIZE) (hfits.mono (show tot + l ≤ n by omega))
    simp only [← hl, Nat.mod_eq_of_lt (hsrc hlt), hcopyin, decide_eq_true_eq]
    refine .bind (modifyData_spec _) fun _ => .ite (fun hjl => ?_) fun hjl => .pure fun s hs => ?_
    · -- the chunk is copied in whole
      refine .bind logWrite_spec fun _ => ?_
      subst hjl
      have hchunk := hopen.trans (stored_chunk hopen.busy hmapped.pos (by omega) hj
        (d := d.store (off % BSIZE) (fun k => (m.byte (src + tot + k)).getD 0) j) (by rw [hd])) (by omega)
      have hnext : tot + j < n → src + (tot + j) < 2 ^ 64 := by
        intro hlt'
        have hlast := hj (j - 1) (by omega)
        rw [Nat.add_assoc] at hlast
        have := hfits.next_lt (by omega) hlast
        omega
      rw [update_self]
      refine (ih (tot + j) (off + j) (by omega) (by omega) hnext hchunk.busy).post ?_
      rintro off' s ⟨ino', v', w', vb, ⟨hrest, hends⟩, hs⟩
      rw [setD_setD] at hs
      refine ⟨ino', v', w', vb, ⟨hchunk.trans hrest (by omega), ?_⟩, hs⟩
      have hge := hrest.ge
      rw [show off + j + (n - (tot + j)) = off + (n - tot) by omega, ← Nat.add_assoc] at hends
      rcases hends with hall | ⟨j', ⟨hstart, hj', hmap', hstops', hleaf⟩, hvb⟩
      · exact .inl hall
      · have haddr : src + tot + j + (off' - (off + j)) = src + tot + (off' - off) := by omega
        rw [haddr] at hmap' hstops' hvb
        refine .inr ⟨j', ⟨.inr ?_, hj', hmap', hstops', hleaf⟩, hvb⟩
        rcases hstart with rfl | h0
        · -- there is more to copy, so the chunk went to the end of its block
          have hend : j = BSIZE - off % BSIZE := by omega
          have := Nat.div_add_mod off BSIZE
          rw [hend, show off + (BSIZE - off % BSIZE) = BSIZE * (off / BSIZE + 1) by rw [Nat.mul_add]; omega]
          exact Nat.mul_mod_right ..
        · exact h0
    · have hlt' : j < l := Nat.lt_of_le_of_ne hle hjl
      refine ⟨ino₁, v₂, w₁, _, ⟨hopen, .inr ⟨j, ⟨.inl rfl, by omega, ?_, ?_, hmapped.pos⟩, rfl⟩⟩, ?_⟩
      · rw [Nat.sub_self, Nat.add_zero]
        exact hj
      · rw [Nat.sub_self, Nat.add_zero]
        exact hstops hlt'
      · rw [Nat.sub_self, Nat.add_zero, ← hd]
        exact hs

theorem Ends.busy {last off' : Nat} {vb : Blocks} (h : Busy g ip i ino v w c)
    (he : Ends m src off last off' (ino i) v vb) : Busy g ip i ino vb w c := by
  rcases he with ⟨-, rfl⟩ | ⟨j, hf, rfl⟩
  · exact h
  · exact h.write_buf hf.leaf _

/-! ## `writei` -/

/-- What `writei` leaves behind when it does not reject its arguments. -/
structure Leaves (g : Geometry) (ip : Fin NINODE) (i : Nat) (m : Memory) (src off n off' : Nat) (ino : Nat → Dinode)
    (v w : Blocks) (c : Icache) (ino' : Nat → Dinode) (v' w' vb : Blocks) (s : State) : Prop where
  stored : Stored g ip i m src off off' ino v w c ino' v' w'
  ends : Ends m src off (off + n) off' (ino' i) v' vb
  buf : s.buf = putInode g vb i (sized (ino' i) off')
  disk : s.disk = putInode g w' i (sized (ino' i) off')
  icache : s.icache = setD c ip (sized (ino' i) off')

/-- If a byte of the source is not mapped, the bytes before the first such one that go to the same block of the file
are there already. -/
def FailsClean (m : Memory) (src off n : Nat) (f : Nat → BitVec 8) : Prop :=
  ∀ k, k < n → (∀ t, t < k → m.byte (src + t) ≠ none) → m.byte (src + k) = none →
    ∀ t, t < k → (off + t) / BSIZE = (off + k) / BSIZE → m.byte (src + t) = some (f (off + t))

section Leaves

variable {src off n off' : Nat} {vb : Blocks} {s : State}

theorem Leaves.synced_iff (h : Leaves g ip i m src off n off' ino v v c ino' v' w' vb s) :
    (∀ b, s.buf b = s.disk b) ↔ vb = v' := by
  obtain rfl : v' = w' := funext fun b => h.stored.sync b rfl
  rw [h.buf, h.disk]
  constructor
  · intro hall
    funext b
    by_cases hb : b = g.iblock i
    · rw [hb]
      exact (h.ends.busy h.stored.busy).clean _ (g.iblock_lt_datastart h.stored.busy.lt)
    · have := hall b
      rwa [putInode_of_ne hb, putInode_of_ne hb] at this
  · rintro rfl b
    rfl

theorem Leaves.mapped (h : Leaves g ip i m src off n off' ino v w c ino' v' w' vb s) {t : Nat} (ht : t < off' - off) :
    m.byte (src + t) ≠ none := by
  have hbyte := (h.stored.bytes (off + t) (by omega) (by omega)).1
  rw [Nat.add_sub_cancel_left] at hbyte
  rw [hbyte]
  exact Option.some_ne_none _

theorem Leaves.clean_iff (h : Leaves g ip i m src off n off' ino v v c ino' v' w' vb s) :
    vb = v' ↔ FailsClean m src off n (content (ino i) v) := by
  have hge := h.stored.ge
  rcases h.ends with ⟨rfl, rfl⟩ | ⟨j, hf, rfl⟩
  · exact iff_of_true rfl fun k hk _ hnone => absurd hnone (h.mapped (by omega))
  have hlt := hf.lt
  -- the bytes of the block, as they were before the call
  have hold : ∀ t, t < j → (v' (leafAddr (ino' i) v' (off' / BSIZE))).get (off' % BSIZE + t) =
    content (ino i) v (off' + t) := by
    intro t ht
    rw [← content_chunk hf.leaf (by omega)]
    exact (h.stored.kept (off' + t) (.inr (by omega)) rfl).1
  have hfirst : ∀ k, (∀ t, t < k → m.byte (src + t) ≠ none) → m.byte (src + k) = none → k = off' - off + j := by
    intro k hmap hnone
    have hstops := hf.stops
    rw [Nat.add_assoc] at hstops
    by_contra hne
    rcases Nat.lt_or_gt_of_ne hne with hk | hk
    · by_cases hk' : k < off' - off
      · exact h.mapped hk' hnone
      · refine hf.mapped (k - (off' - off)) (by omega) ?_
        rwa [show src + (off' - off) + (k - (off' - off)) = src + k by omega]
    · exact hmap _ hk hstops
  rw [update_eq_self_iff, Bytes.store_eq_self_iff _ (by omega)]
  constructor
  · intro hsame k hk hmap hnone t ht hblock
    obtain rfl := hfirst k hmap hnone
    have hin : off' - off ≤ t := by
      rcases hf.start with rfl | h0
      · omega
      · by_contra hlow
        rw [show off + (off' - off + j) = off' + j by omega] at hblock
        rw [chunk (m := j + 1) (by omega) (Nat.le_add_right off' j) (by omega)] at hblock
        have := Nat.div_add_mod off' BSIZE
        have := Nat.div_add_mod (off + t) BSIZE
        rw [hblock] at this
        omega
    have hbyte := hsame (t - (off' - off)) (by omega)
    rw [hold _ (by omega), show src + (off' - off) + (t - (off' - off)) = src + t by omega,
      show off' + (t - (off' - off)) = off + t by omega] at hbyte
    obtain ⟨x, hx⟩ := Option.ne_none_iff_exists'.mp (hmap t ht)
    rw [hx] at hbyte ⊢
    exact congrArg some hbyte
  · intro hclean t ht
    have hk := hclean (off' - off + j) (by omega) ?_ ?_ (off' - off + t) (by omega) ?_
    · rw [← Nat.add_assoc, ← Nat.add_assoc, Nat.add_sub_cancel' hge] at hk
      rw [hk, hold t ht]
      rfl
    · intro u hu
      by_cases hu' : u < off' - off
      · exact h.mapped hu'
      · have := hf.mapped (u - (off' - off)) (by omega)
        rwa [show src + (off' - off) + (u - (off' - off)) = src + u by omega] at this
    · rw [← Nat.add_assoc]
      exact hf.stops
    · rw [← Nat.add_assoc, ← Nat.add_assoc, Nat.add_sub_cancel' hge,
        chunk (m := j + 1) (by omega) (Nat.le_add_right off' t) (by omega),
        chunk (m := j + 1) (by omega) (Nat.le_add_right off' j) (by omega)]

end Leaves

theorem writei_cases {off n : BitVec 32} {s : State} (h : Busy g ip i ino v w c) (hsrc : src < 2 ^ 64)
    (hfits : m.Fits src n.toNat) (hs : Is v w c s) : Triple (fun u => u = s) (writei g ip m src off n)
      (fun r t => ¬ Accepts (c ip).d.size off n ∧ r = -1 ∧ t = s ∨ n.toNat = 0 ∧ r = 0 ∧ t = s ∨
        Accepts (c ip).d.size off n ∧ 0 < n.toNat ∧ r = n.toNat ∧
          ∃ off' ino' v' w' vb, Leaves g ip i m src off.toNat n.toNat off' ino v w c ino' v' w' vb t)
          fun _ _ => True := by
  refine writei_rule (fun u hu => by rw [hu, hs.icache]) (fun hout u hu => .inl ⟨hout, rfl, hu⟩)
    (fun _ hn u hu => .inr (.inl ⟨hn, rfl, hu⟩)) fun hin hn => ?_
  refine .bind ((writeLoop_ends hfits n.toNat 0 off.toNat (by omega) (by have := hin.2; omega)
    (fun _ => by omega) h).imp
    (fun u hu => hu ▸ hs) (fun _ _ hq => hq) fun _ _ _ => trivial) fun off' => .exists fun ino' => .exists fun v' =>
    .exists fun w' => .exists fun vb => .of_fact fun ⟨hst, he⟩ => ?_
  refine (writeBack_spec (he.busy hst.busy)).post fun _ u hu => .inr (.inr ⟨hin, hn, rfl, off', ino', v', w', vb, ?_⟩)
  rw [setD_setD] at hu
  exact ⟨hst, he, hu.buf, hu.disk, hu.icache⟩

/-- `writei` leaves no unlogged change in the buffer cache if and only if it rejects its arguments or what
it copies before a copy fails was there already. -/
theorem writei_logs_changes_iff (g : Geometry) (ip : Fin NINODE) (v : Blocks) (c : Icache) (h : Settled g ip v c)
    (m : Memory) (src : Nat) (hsrc : src < 2 ^ 64) (off n : BitVec 32) (hfits : m.Fits src n.toNat) (s t : State)
    (hs : Is v v c s) (r : Int) (hrun : writei g ip m src off n s = .ok r t) :
    (∀ b, t.buf b = t.disk b) ↔ (off.toNat ≤ (c ip).d.size.toNat → off.toNat + n.toNat ≤ MAXFILE * BSIZE →
      FailsClean m src off.toNat n.toNat (content (c ip).d v)) := by
  have hsame : ∀ b, s.buf b = s.disk b := fun b => by rw [hs.buf, hs.disk]
  rcases (writei_cases h.busy hsrc hfits hs).of_ok rfl hrun with
    ⟨hout, -, rfl⟩ | ⟨hn, -, rfl⟩ | ⟨⟨hoff, hlast⟩, -, -, off', ino', v', w', vb, hl⟩
  · exact iff_of_true hsame fun h1 h2 => absurd ⟨h1, h2⟩ hout
  · exact iff_of_true hsame fun _ _ k hk => by omega
  · rw [hl.synced_iff, hl.clean_iff, ← h.core]
    exact ⟨fun hc _ _ => hc, fun hc => hc hoff hlast⟩

/-- Two bytes of one page, which is mapped. -/
theorem writei_logs_changes_iff_onePage : ∃ t, writei tiny ⟨0, by decide⟩ (.user onePage) 0 0 2 fullState = .ok 2 t ∧
    ∀ b, t.buf b = t.disk b := by
  obtain ⟨t, hx⟩ : ∃ t, writei tiny ⟨0, by decide⟩ (.user onePage) 0 0 2 fullState = .ok 2 t := by decide +kernel
  refine ⟨t, hx, (writei_logs_changes_iff tiny ⟨0, by decide⟩ fullImage fullCache settled_fullImage (.user onePage)
    0 (by decide)
    0 2 trivial fullState t ⟨rfl, rfl, rfl⟩ 2 hx).mpr fun _ _ k hk _ hnone => ?_⟩
  have hmap : ∀ k < 2, (Memory.user onePage).byte (0 + k) ≠ none := by decide
  exact absurd hnone (hmap k hk)

/-- The last byte of a page and one of the next, which is not mapped: the first byte gets into the buffer, and is not
logged. -/
theorem writei_unlogged : Settled tiny ⟨0, by decide⟩ fullImage fullCache ∧ Is fullImage fullImage fullCache fullState ∧
    ∃ t, writei tiny ⟨0, by decide⟩ (.user onePage) 4095 0 2 fullState = .ok 2 t ∧ t.buf 6 ≠ t.disk 6 ∧
      t.pinned 6 = false := by
  refine ⟨settled_fullImage, ⟨rfl, rfl, rfl⟩, ?_⟩
  obtain ⟨t, hx, hne, hpin⟩ : ∃ t, writei tiny ⟨0, by decide⟩ (.user onePage) 4095 0 2 fullState = .ok 2 t ∧
      (t.buf 6).get 0 ≠ (t.disk 6).get 0 ∧ t.pinned 6 = false := by decide +kernel
  exact ⟨t, hx, fun he => hne (by rw [he]), hpin⟩

end Xv6.Fs

import Xv6.Fs.Partial
import Xv6.Ftable.Write

/-!
# What a write reports

`writei` and `filewrite` on a source that need not be mapped: whether the bytes that a write reports as
written are in the file. The file system is one whose data blocks may have unlogged changes, as an earlier
write that failed leaves them.
-/

namespace Xv6.Fs

open Hoare

variable {g : Geometry} {ip : Fin NINODE} {i : Nat} {ino ino' : Nat → Dinode} {v w v' w' vb : Blocks}
  {c : Icache} {m : UserMem} {src off n off' : Nat} {s t : State}

/-- Entry `ip` has a valid copy of its inode, and no block has two owners. -/
structure Ready (g : Geometry) (ip : Fin NINODE) (s : State) : Prop where
  busy : Busy g ip (s.icache ip).inum (dinode g s.buf) s.buf s.disk s.icache
  ref : 0 < (s.icache ip).ref
  isValid : (s.icache ip).valid = true

/-- The bytes of the inode in entry `ip`, as they are read from the buffer cache. -/
def fileBytes (ip : Fin NINODE) (s : State) : List (BitVec 8) := contents (s.icache ip).d s.buf

/-- The `r` bytes at address `src` are there, and they are bytes `[off, off + r)` of the file. -/
def Reported (m : UserMem) (src off r : Nat) (bs : List (BitVec 8)) : Prop :=
  ∀ k, k < r → ∃ b, m.byte (src + k) = some b ∧ bs[off + k]? = some b

/-- Byte `t` of the file is in a block without unlogged changes. -/
def Kept (ip : Fin NINODE) (s : State) (t : Nat) : Prop :=
  leafAddr (s.icache ip).d s.buf (t / BSIZE) ≠ 0 ∧
    s.buf (leafAddr (s.icache ip).d s.buf (t / BSIZE)) = s.disk (leafAddr (s.icache ip).d s.buf (t / BSIZE))

theorem Reported.mapped {r : Nat} {bs : List (BitVec 8)} (h : Reported m src off r bs) :
    (Memory.user m).Mapped src r := by
  intro k hk
  obtain ⟨b, hb, -⟩ := h k hk
  change m.byte (src + k) ≠ none
  rw [hb]
  exact Option.some_ne_none b

theorem Busy.readBack (h : Busy g ip i ino v w c) (hi : dinode g v i = ino i) : Busy g ip i (dinode g v) v w c where
  owns := h.owns.congr_inodes fun j hj => by
    by_cases hji : j = i
    · rw [hji, hi]
    · exact h.disk j hj hji
  clean := h.clean
  inds j hj := by
    by_cases hji : j = i
    · rw [hji, hi]
      exact h.inds i h.lt
    · rw [h.disk j hj hji]
      exact h.inds j hj
  lt := h.lt
  inum := h.inum
  core := by rw [h.core, hi]
  disk _ _ _ := rfl

theorem Busy.logged (h : Busy g ip i ino v w c) (hw : ∀ b, v b = w b → v b = w' b) : Busy g ip i ino v w' c :=
  { h with
    clean := fun b hb => hw b (h.clean b hb)
    inds := fun j hj ha => hw _ (h.inds j hj ha) }

section Leaves

variable (h : Leaves g ip i (.user m) src off n off' ino v w c ino' v' w' vb s)

include h

theorem Leaves.ends_of_mapped (hmap : (Memory.user m).Mapped src n) : off' = off + n ∧ vb = v' := by
  have hge := h.stored.ge
  rcases h.ends with hall | ⟨j, hf, -⟩
  · exact hall
  · have hlt := hf.lt
    have hstops := hf.stops
    rw [Nat.add_assoc] at hstops
    exact absurd hstops (hmap (off' - off + j) (by omega))

theorem Leaves.entry : s.icache ip = { c ip with d := sized (ino' i) off' } := by rw [h.icache, setD_self]

theorem Leaves.busy_after : Busy g ip i (dinode g s.buf) s.buf s.disk s.icache := by
  have hb := ((h.ends.busy h.stored.busy).setMeta (sized_addrs (ino' i) off')).putInode (sized (ino' i) off')
  rw [setD_setD, ← h.buf, ← h.disk, ← h.icache] at hb
  exact hb.readBack (by rw [h.buf, dinode_putInode_self, Function.update_self])

theorem Leaves.leaf_after (k : Nat) : leafAddr (s.icache ip).d s.buf k = leafAddr (ino' i) vb k := by
  have hb := h.ends.busy h.stored.busy
  rw [h.entry, h.buf]
  exact (leafAddr_of_addrs (sized_addrs _ _) _).trans (hb.leafAddr_putInode hb.lt _ _)

theorem Leaves.content_after (t : Nat) : content (s.icache ip).d s.buf t = content (ino' i) vb t := by
  have hb := h.ends.busy h.stored.busy
  rw [h.entry, h.buf]
  exact (content_of_addrs (sized_addrs _ _) t).trans (hb.content_putInode hb.lt _ t)

theorem Leaves.size_after (hlast : off + n ≤ MAXFILE * BSIZE) : off' ≤ (s.icache ip).d.size.toNat := by
  have hle : off' ≤ off + n := by
    rcases h.ends with ⟨rfl, -⟩ | ⟨j, hf, -⟩
    · exact Nat.le_refl _
    · have := hf.lt
      omega
  rw [h.entry]
  change off' ≤ (sized (ino' i) off').size.toNat
  rw [sized_size _ (hle.trans hlast)]
  exact Nat.le_max_right _ _

theorem Leaves.kept_of_loop (hvb : vb = v') {t : Nat} (h0 : leafAddr (ino' i) v' (t / BSIZE) ≠ 0)
    (hs : v' (leafAddr (ino' i) v' (t / BSIZE)) = w' (leafAddr (ino' i) v' (t / BSIZE))) : Kept ip s t := by
  have hge : g.datastart ≤ leafAddr (ino' i) v' (t / BSIZE) :=
    (h.stored.busy.owns.range (s := .leaf i (t / BSIZE)) h.stored.busy.lt h0).1
  have hne : leafAddr (ino' i) v' (t / BSIZE) ≠ g.iblock i := by
    have := g.iblock_lt_datastart h.stored.busy.lt
    omega
  unfold Kept
  rw [h.leaf_after, hvb, h.buf, h.disk, putInode_of_ne hne, putInode_of_ne hne, hvb]
  exact ⟨h0, hs⟩

theorem Leaves.new_bytes (hmap : (Memory.user m).Mapped src n) {t : Nat} (h1 : off ≤ t) (h2 : t < off + n) :
    m.byte (src + (t - off)) = some (content (s.icache ip).d s.buf t) ∧ Kept ip s t := by
  obtain ⟨rfl, hvb⟩ := h.ends_of_mapped hmap
  obtain ⟨hbyte, h0, hs⟩ := h.stored.bytes t h1 h2
  rw [h.content_after, hvb]
  exact ⟨hbyte, h.kept_of_loop hvb h0 hs⟩

theorem Leaves.old_bytes (hmap : (Memory.user m).Mapped src n) {t : Nat} (hlt : t < off)
    (h0 : leafAddr (ino i) v (t / BSIZE) ≠ 0)
    (hs : v (leafAddr (ino i) v (t / BSIZE)) = w (leafAddr (ino i) v (t / BSIZE))) :
    content (s.icache ip).d s.buf t = content (ino i) v t ∧ Kept ip s t := by
  obtain ⟨-, hvb⟩ := h.ends_of_mapped hmap
  obtain ⟨hsame, hs'⟩ := h.stored.kept t (.inl hlt) hs
  rw [h.content_after, hvb]
  exact ⟨hsame, h.kept_of_loop hvb (h.stored.grown.leaves i _ h.stored.busy.lt h0) hs'⟩

end Leaves

theorem fileBytes_get {k : Nat} (hk : k < (s.icache ip).d.size.toNat) :
    (fileBytes ip s)[k]? = some (content (s.icache ip).d s.buf k) := by
  rw [fileBytes, contents, List.getElem?_map, List.getElem?_range hk]
  rfl

theorem Ready.writei_reports {off n : BitVec 32} {r : Int} (h : Ready g ip s) (hsrc : src < 2 ^ 64)
    (hrun : writei g ip (.user m) src off n s = .ok r t) (hr : 0 ≤ r) :
    Reported m src off.toNat r.toNat (fileBytes ip t) ↔ (Memory.user m).Mapped src n.toNat := by
  rcases (writei_cases (m := .user m) h.busy hsrc trivial ⟨rfl, rfl, rfl⟩).of_ok rfl hrun with
    ⟨-, rfl, -⟩ | ⟨hn, rfl, -⟩ | ⟨⟨-, hlast⟩, -, rfl, off', ino', v', w', vb, hl⟩
  · exact absurd hr (by decide)
  · exact iff_of_true (fun k hk => absurd hk (Nat.not_lt_zero k)) fun k hk => by omega
  · refine ⟨fun hr => hr.mapped, fun hmap k hk => ?_⟩
    change k < n.toNat at hk
    obtain ⟨hbyte, -⟩ := hl.new_bytes hmap (t := off.toNat + k) (by omega) (by omega)
    have hsize := hl.size_after hlast
    have hend := (hl.ends_of_mapped hmap).1
    rw [Nat.add_sub_cancel_left] at hbyte
    exact ⟨_, hbyte, fileBytes_get (by omega)⟩

end Xv6.Fs

namespace Xv6.Filewrite

open Fs

variable {P : Type} [DecidableEq P] {g : Geometry} {ip : Fin NINODE} {a : Args} {off k : Nat} {fs fs' : Fs.State}
    {x₀ : Fs.Inode}

/-! ## One call of `filewrite` -/

/-- The first `k` bytes of the buffer of a call are in the file from offset `off` on; the entry of the inode
was `x₀` when the call started. -/
structure Has (g : Geometry) (ip : Fin NINODE) (x₀ : Fs.Inode) (a : Args) (off k : Nat) (fs : Fs.State) : Prop
    extends Ready g ip fs where
  bytes : ∀ t, t < k → a.mem.byte (a.addr + t) = some (content (fs.icache ip).d fs.buf (off + t)) ∧ Kept ip fs (off + t)
  start : k = 0 → fs.icache ip = x₀
  size : off ≤ x₀.d.size.toNat ∨ 0 < k → off + k ≤ (fs.icache ip).d.size.toNat

theorem Has.writei (h : Has g ip x₀ a off k fs) {o n : BitVec 32} {r : Int} (ho : o.toNat = off + k) (hn : 0 < n.toNat)
    (hmap : (Memory.user a.mem).Mapped (a.addr + k) n.toNat)
    (hrun : writei g ip (.user a.mem) ((a.addr + k) % 2 ^ 64) o n fs = .ok r fs') :
    r = -1 ∧ fs' = fs ∨ r = n.toNat ∧ Has g ip x₀ a off (k + n.toNat) fs' := by
  have haddr : a.addr + k < 2 ^ 64 := (Memory.lt_of_mapped hmap hn : a.addr + k + 0 < 2 ^ 64)
  rw [Nat.mod_eq_of_lt haddr] at hrun
  rcases (writei_cases (m := .user a.mem) h.busy haddr trivial ⟨rfl, rfl, rfl⟩).of_ok rfl hrun with
    ⟨-, hfail⟩ | ⟨hn0, -⟩ | ⟨⟨-, hlast⟩, -, rfl, off', ino', v', w', vb, hl⟩
  · exact .inl hfail
  · omega
  refine .inr ⟨rfl, ?_⟩
  have hentry := hl.entry
  rw [ho] at hl hlast
  have hsize := hl.size_after hlast
  have hend := (hl.ends_of_mapped hmap).1
  constructor
  case toReady =>
    refine ⟨?_, ?_, ?_⟩
    · rw [hentry]
      exact hl.busy_after
    · rw [hentry]
      exact h.ref
    · rw [hentry]
      exact h.isValid
  case bytes =>
    intro t ht
    by_cases hlt : t < k
    · obtain ⟨hbyte, h0, hs⟩ := h.bytes t hlt
      rw [h.busy.core] at h0 hs hbyte
      obtain ⟨hsame, hkept⟩ := hl.old_bytes hmap (by omega) h0 hs
      exact ⟨by rw [hsame]; exact hbyte, hkept⟩
    · have hnew := hl.new_bytes hmap (t := off + t) (by omega) (by omega)
      rwa [show a.addr + k + (off + t - (off + k)) = a.addr + t by omega] at hnew
  case start => exact fun h0 => by omega
  case size => exact fun _ => by omega

theorem Has.commit (h : Has g ip x₀ a off k fs) : ∃ fs', Fs.commit fs = .ok () fs' ∧ Has g ip x₀ a off k fs' := by
  have hsame : ∀ b, fs.buf b = fs.disk b → fs.buf b = if fs.pinned b then fs.buf b else fs.disk b := by
    intro b hb
    split
    · rfl
    · exact hb
  exact ⟨_, rfl, { h with
    busy := h.busy.logged hsame
    bytes := fun t ht => ⟨(h.bytes t ht).1, (h.bytes t ht).2.1, hsame _ (h.bytes t ht).2.2⟩ }⟩

theorem Has.ilock (h : Has g ip x₀ a off k fs) : ilock g ip fs = .ok () fs := by
  have href := h.ref
  have hget : getInode ip fs = .ok (fs.icache ip) fs := rfl
  rw [Fs.ilock, Hoare.bind_of_ok hget, if_neg (by omega), if_pos h.isValid]
  rfl

/-- The steps of a process `p` that makes one call, `a`, while no other process writes. -/
def Alone (p : P) (a : Args) (s : State P) : Event P → Prop
  | .run q => q = p
  | .call q b => q = p ∧ b = a ∧ s.calls = []

/-- How far the call is, if the whole buffer is mapped. -/
def SoloAt (g : Geometry) (x₀ : Fs.Inode) (off : Nat) (x : Locals) (s : State P) : Place → Prop
  | .loop => 0 ≤ x.i ∧ x.i ≤ x.args.n ∧ s.file.off.toNat = off + x.i.toNat ∧
      Has g s.file.ip x₀ x.args off x.i.toNat s.fs
  | .ilock | .writei => 0 ≤ x.i ∧ 0 < x.n1 ∧ x.n1 ≤ chunkMax ∧ x.i + x.n1 ≤ x.args.n ∧
      s.file.off.toNat = off + x.i.toNat ∧
      Has g s.file.ip x₀ x.args off x.i.toNat s.fs
  | .advance => 0 ≤ x.i ∧ 0 < x.n1 ∧ x.i + x.n1 ≤ x.args.n ∧ s.file.off.toNat = off + x.i.toNat ∧
      (x.r = -1 ∨ x.r = x.n1 ∧ Has g s.file.ip x₀ x.args off (x.i + x.n1).toNat s.fs)
  | .iunlock | .endOp | .check => 0 ≤ x.i ∧ 0 < x.n1 ∧ x.i + x.n1 ≤ x.args.n ∧ (x.r = -1 ∨ x.r = x.n1 ∧
      s.file.off.toNat = off + (x.i + x.n1).toNat ∧ Has g s.file.ip x₀ x.args off (x.i + x.n1).toNat s.fs)

/-- The states of a process that makes one call. -/
inductive Solo (g : Geometry) (x₀ : Fs.Inode) (off : Nat) (p : P) (a : Args) (s : State P) : Prop
  | panicked (hret : s.ret 0 = none) (hpanic : s.panic ≠ none)
  | start (hcalls : s.calls = []) (hpc : s.pc p = .user) (hret : s.ret 0 = none) (hoff : s.file.off.toNat = off)
      (hhas : Has g s.file.ip x₀ a off 0 s.fs)
  | running (l : Place) (x : Locals) (hcalls : s.calls = [a]) (hpc : s.pc p = .filewrite l x) (hargs : x.args = a)
      (hcall : x.call = 0) (hret : s.ret 0 = none) (hat : SoloAt g x₀ off x s l)
  | done (r : Int) (hcalls : s.calls = [a]) (hpc : s.pc p = .user) (hret : s.ret 0 = some r)
      (hn : r = a.n → s.file.off.toNat = off + a.n.toNat ∧ Has g s.file.ip x₀ a off a.n.toNat s.fs)

section Solo

variable {p : P} {s u : State P}

variable {es : List (Event P)} {x : Locals} {file : File}

theorem SoloAt.finish (hn : 0 ≤ x.args.n) (hcalls : s.calls = [x.args]) (hcall : x.call = 0)
    (hdone : x.i = x.args.n → s.file.off.toNat = off + x.args.n.toNat ∧
    Has g s.file.ip x₀ x.args off x.args.n.toNat s.fs) :
    Solo g x₀ off p x.args (s.finish p x) := by
  refine .done (if x.i = x.args.n then x.args.n else -1) hcalls (Function.update_self ..) ?_ fun hr => ?_
  · rw [← hcall]
    exact Function.update_self ..
  · refine hdone ?_
    by_contra hne
    rw [if_neg hne] at hr
    omega

theorem SoloAt.goto {l : Place} {y : Locals} (hcalls : s.calls = [x.args]) (hret : s.ret 0 = none)
    (hargs : y.args = x.args)
    (hcall : y.call = 0) (hat : SoloAt g x₀ off y s l) : Solo g x₀ off p x.args (s.goto p l y) := by
  refine .running l y hcalls (Function.update_self ..) hargs hcall hret ?_
  cases l <;> exact hat

theorem SoloAt.writei (hmap : (Memory.user x.args.mem).Mapped x.args.addr x.args.n.toNat)
    (hcalls : s.calls = [x.args]) (hpc : s.pc p = .filewrite .writei x) (hcall : x.call = 0) (hret : s.ret 0 = none)
    (hat : SoloAt g x₀ off x s .writei) (hs : Filewrite.run g s p = some u) : Solo g x₀ off p x.args u := by
  obtain ⟨hi, hn1, hmax, hle, hoff, hhas⟩ := hat
  have hM : chunkMax = 3072 := rfl
  have hlen : (BitVec.ofInt 32 x.n1).toNat = x.n1.toNat := by
    rw [BitVec.toNat_ofInt, Int.emod_eq_of_lt (by omega) (by omega)]
  have hchunk : (Memory.user x.args.mem).Mapped (x.args.addr + x.i.toNat) (BitVec.ofInt 32 x.n1).toNat := by
    intro t ht
    rw [Nat.add_assoc]
    exact hmap _ (by omega)
  simp only [Filewrite.run, hpc] at hs
  split at hs
  · next r fs hw =>
    rw [Option.some.injEq] at hs
    subst hs
    refine SoloAt.goto hcalls hret rfl hcall ⟨hi, hn1, hle, hoff, ?_⟩
    rcases hhas.writei hoff (by omega) hchunk hw with ⟨rfl, -⟩ | ⟨rfl, hnew⟩
    · exact .inl rfl
    · rw [hlen, show x.i.toNat + x.n1.toNat = (x.i + x.n1).toNat by omega] at hnew
      exact .inr ⟨(by omega : ((BitVec.ofInt 32 x.n1).toNat : Int) = x.n1), hnew⟩
  · rw [Option.some.injEq] at hs
    subst hs
    exact .panicked hret (Option.some_ne_none _)

theorem SoloAt.advance (hcalls : s.calls = [x.args]) (hpc : s.pc p = .filewrite .advance x) (hcall : x.call = 0)
    (hret : s.ret 0 = none) (hat : SoloAt g x₀ off x s .advance) (hs : Filewrite.run g s p = some u) :
    Solo g x₀ off p x.args u := by
  obtain ⟨hi, hn1, hle, hoff, hr⟩ := hat
  simp only [Filewrite.run, hpc, Option.some.injEq] at hs
  subst hs
  refine SoloAt.goto hcalls hret rfl hcall ⟨hi, hn1, hle, hr.imp id fun h => ⟨h.1, ?_, h.2⟩⟩
  have hsize := h.2.size (.inr (by omega))
  have hlt := (s.fs.icache s.file.ip).d.size.isLt
  rw [if_pos (by omega), BitVec.toNat_add, BitVec.toNat_ofInt, Int.emod_eq_of_lt (by omega) (by omega),
    Nat.mod_eq_of_lt (by omega)]
  omega

theorem SoloAt.run {l : Place} (hn : 0 ≤ x.args.n) (hmap : (Memory.user x.args.mem).Mapped x.args.addr x.args.n.toNat)
    (hcalls : s.calls = [x.args]) (hpc : s.pc p = .filewrite l x) (hcall : x.call = 0) (hret : s.ret 0 = none)
    (hat : SoloAt g x₀ off x s l) (hs : Filewrite.run g s p = some u) : Solo g x₀ off p x.args u := by
  cases l with
  | writei => exact SoloAt.writei hmap hcalls hpc hcall hret hat hs
  | advance => exact SoloAt.advance hcalls hpc hcall hret hat hs
  | loop =>
    obtain ⟨hi, hle, hoff, hhas⟩ := hat
    simp only [Filewrite.run, hpc] at hs
    split at hs
    · next hlt =>
      rw [Option.some.injEq] at hs
      subst hs
      refine SoloAt.goto hcalls hret rfl hcall ⟨hi, ?_, ?_, ?_, hoff, hhas⟩ <;>
      · have hM : chunkMax = 3072 := rfl
        dsimp only
        split <;> omega
    · next hge =>
      rw [Option.some.injEq] at hs
      subst hs
      exact SoloAt.finish hn hcalls hcall fun he => by rw [← he]; exact ⟨hoff, hhas⟩
  | ilock =>
    simp only [Filewrite.run, hpc] at hs
    split at hs
    · cases hs
    · rw [hat.2.2.2.2.2.ilock] at hs
      rw [Option.some.injEq] at hs
      subst hs
      exact SoloAt.goto hcalls hret rfl hcall hat
  | iunlock =>
    simp only [Filewrite.run, hpc] at hs
    split at hs
    · rw [Option.some.injEq] at hs
      subst hs
      exact SoloAt.goto hcalls hret rfl hcall hat
    · rw [Option.some.injEq] at hs
      subst hs
      exact .panicked hret (Option.some_ne_none _)
  | endOp =>
    obtain ⟨hi, hn1, hle, hr⟩ := hat
    simp only [Filewrite.run, hpc, Option.some.injEq] at hs
    subst hs
    unfold Filewrite.endOp
    split
    · rcases hr with hr | ⟨hr, hoff, hhas⟩
      · exact SoloAt.goto hcalls hret rfl hcall ⟨hi, hn1, hle, .inl hr⟩
      · obtain ⟨fs, hcommit, hhas'⟩ := hhas.commit
        rw [hcommit]
        exact SoloAt.goto hcalls hret rfl hcall ⟨hi, hn1, hle, .inr ⟨hr, hoff, hhas'⟩⟩
    · exact SoloAt.goto hcalls hret rfl hcall ⟨hi, hn1, hle, hr⟩
  | check =>
    obtain ⟨hi, hn1, hle, hr⟩ := hat
    simp only [Filewrite.run, hpc] at hs
    rcases hr with hr | ⟨hr, hoff, hhas⟩
    · rw [if_pos (by omega), Option.some.injEq] at hs
      subst hs
      exact SoloAt.finish hn hcalls hcall fun he => by omega
    · rw [if_neg (by omega), if_neg (not_not.mpr hr), Option.some.injEq] at hs
      subst hs
      refine SoloAt.goto hcalls hret rfl hcall ⟨?_, ?_, ?_, ?_⟩
      · change 0 ≤ x.i + x.r
        omega
      · change x.i + x.r ≤ x.args.n
        omega
      · change _ = off + (x.i + x.r).toNat
        rw [hr]
        exact hoff
      · change Has g _ x₀ _ off (x.i + x.r).toNat _
        rw [hr]
        exact hhas

theorem Solo.step (hn : 0 ≤ a.n) (hmap : (Memory.user a.mem).Mapped a.addr a.n.toNat) {e : Event P}
    (h : Solo g x₀ off p a s)
    (hok : Alone p a s e) (hs : step g s e = some u) : Solo g x₀ off p a u := by
  unfold Filewrite.step at hs
  split at hs
  · cases hs
  next hpanic =>
  cases e with
  | run q =>
    obtain rfl : q = p := hok
    cases h with
    | panicked hret hp => exact absurd (Option.isSome_iff_ne_none.mpr hp) hpanic
    | start hcalls hpc => simp only [Filewrite.run, hpc] at hs; cases hs
    | done r hcalls hpc => simp only [Filewrite.run, hpc] at hs; cases hs
    | running l x hcalls hpc hargs hcall hret hat =>
      subst hargs
      exact SoloAt.run hn hmap hcalls hpc hcall hret hat hs
  | call q b =>
    obtain ⟨rfl, rfl, hnone⟩ := hok
    cases h with
    | panicked hret hp => exact absurd (Option.isSome_iff_ne_none.mpr hp) hpanic
    | running l x hcalls => simp [hcalls] at hnone
    | done r hcalls => simp [hcalls] at hnone
    | start hcalls hpc hret hoff hhas =>
      simp only [hpc, hcalls, List.nil_append, List.length_nil] at hs
      split at hs
      · rw [Option.some.injEq] at hs
        subst hs
        exact SoloAt.goto (x := ⟨0, b, 0, 0, 0⟩) rfl hret rfl rfl ⟨Int.le_refl 0, hn, hoff, hhas⟩
      · rw [Option.some.injEq] at hs
        subst hs
        exact .done (-1) rfl hpc (by simp) fun hr => by omega

omit [DecidableEq P] in
theorem endOp_ip (s : State P) : (Filewrite.endOp s).file.ip = s.file.ip := by
  unfold Filewrite.endOp
  split
  · split <;> rfl
  · rfl

theorem step_ip {e : Event P} (hs : step g s e = some u) : u.file.ip = s.file.ip := by
  simp only [Filewrite.step, Filewrite.run] at hs
  repeat' split at hs
  all_goals cases hs
  all_goals first | rfl | exact endOp_ip s

theorem solo_run (hn : 0 ≤ a.n) (hmap : (Memory.user a.mem).Mapped a.addr a.n.toNat) (h : Ready g file.ip fs)
    (hrun : Machine.Run (step g) (Alone p a) (init fs file) es s) :
    Solo g (fs.icache file.ip) file.off.toNat p a s ∧ s.file.ip = file.ip := by
  refine hrun.inv (I := fun _ s => Solo g (fs.icache file.ip) file.off.toNat p a s ∧ s.file.ip = file.ip) ⟨?_, rfl⟩
    fun _ _ _ _ _ ⟨hsolo, hip⟩ hok hs => ⟨hsolo.step hn hmap hok hs, (step_ip hs).trans hip⟩
  refine .start rfl rfl rfl rfl ⟨h, fun t ht => by omega, fun _ => rfl, fun hsize => ?_⟩
  rcases hsize with hle | hlt
  · exact hle
  · omega

theorem solo_done (hn : 0 ≤ a.n) (hmap : (Memory.user a.mem).Mapped a.addr a.n.toNat) (h : Ready g file.ip fs)
    (hrun : Machine.Run (step g) (Alone p a) (init fs file) es s) (hret : s.ret 0 = some a.n) :
    s.file.off.toNat = file.off.toNat + a.n.toNat ∧
      Has g file.ip (fs.icache file.ip) a file.off.toNat a.n.toNat s.fs := by
  obtain ⟨hsolo, hip⟩ := solo_run hn hmap h hrun
  cases hsolo with
  | panicked hnone => simp [hnone] at hret
  | start _ _ hnone => simp [hnone] at hret
  | running _ _ _ _ _ _ hnone => simp [hnone] at hret
  | done r _ _ hr hdone =>
    rw [hr, Option.some.injEq] at hret
    rw [← hip]
    have hd := hdone hret
    rwa [hip] at hd ⊢

end Solo

/-- A write reports only what it stored if and only if all of its source is mapped. An empty write reports
that the offset is inside the file if and only if it was. -/
theorem writes_report_stored_iff (g : Geometry) (ip : Fin NINODE) (fs : Fs.State) (h : Ready g ip fs) (m : UserMem)
    (addr : Nat) (haddr : addr < 2 ^ 64) (off : BitVec 32) :
    (∀ (n : BitVec 32) (r : Int) (t : Fs.State), writei g ip (.user m) addr off n fs = .ok r t →
      0 ≤ r → (Reported m addr off.toNat r.toNat (fileBytes ip t) ↔ (Memory.user m).Mapped addr n.toNat)) ∧
    ∀ (p : P) (n : Int) (writable : Bool) (es : List (Event P)) (s : State P), 0 ≤ n →
      Machine.Run (step g) (Alone p ⟨m, addr, n⟩) (init fs ⟨writable, ip, off⟩) es s → s.ret 0 = some n →
      ((Reported m addr off.toNat n.toNat (fileBytes ip s.fs) ∧ s.file.off.toNat = off.toNat + n.toNat ∧
        s.file.off.toNat ≤ (fileBytes ip s.fs).length) ↔
      ((Memory.user m).Mapped addr n.toNat ∧ (n = 0 → off.toNat ≤ (fileBytes ip fs).length))) := by
  refine ⟨fun n r t hrun => h.writei_reports haddr hrun, fun p n writable es s hn hrun hret => ?_⟩
  have hlen : ∀ t, (fileBytes ip t).length = (t.icache ip).d.size.toNat := fun t => length_contents _ _
  rw [hlen, hlen]
  constructor
  · intro ⟨hr, hoff, hsize⟩
    refine ⟨hr.mapped, fun h0 => ?_⟩
    subst h0
    obtain ⟨-, hhas⟩ := solo_done hn hr.mapped h hrun hret
    rw [hhas.start rfl] at hsize
    exact (Nat.le_add_right _ _).trans (hoff.symm.trans_le hsize)
  · intro ⟨hmap, hzero⟩
    obtain ⟨hoff, hhas⟩ := solo_done hn hmap h hrun hret
    have hsize := hhas.size (by dsimp only; omega)
    dsimp only at hsize hoff
    exact ⟨fun k hk => ⟨_, (hhas.bytes k hk).1, fileBytes_get (by omega)⟩, hoff, by omega⟩

/-- A process that does nothing but go on. -/
def Goes (p : P) (_ : State P) : Event P → Prop
  | .run q => q = p
  | .call _ _ => False

instance (p : P) (s : State P) (e : Event P) : Decidable (Goes p s e) :=
  match e with
  | .run q => inferInstanceAs (Decidable (q = p))
  | .call _ _ => inferInstanceAs (Decidable False)

theorem alone_of_goes {p : P} {s t : State P} (hcall : step g (init fs file) (.call p a) = some s)
    (hgoes : Machine.Run (step g) (Goes p) s es t) :
    Machine.Run (step g) (Alone p a) (init fs file) (.call p a :: es) t := by
  refine Machine.Run.cons ⟨rfl, rfl, rfl⟩ hcall (hgoes.mono fun s e he => ?_)
  cases e with
  | run q => exact he
  | call q b => exact he.elim

theorem ready_fullState : Ready tiny ⟨0, by decide⟩ fullState :=
  ⟨settled_fullImage.busy, by decide, rfl⟩

/-- A call of `filewrite` on the file with the data block, at the top of its loop. -/
def oneCall (off : BitVec 32) (a : Args) : State Unit :=
  { init fullState ⟨true, ⟨0, NINODE_pos⟩, off⟩ with calls := [a] }.goto () .loop ⟨0, a, 0, 0, 0⟩

/-- Two bytes of a mapped page are written over the byte of a file, by `writei` or `filewrite`. -/
theorem writes_report_stored_iff_onePage :
    (∃ t, writei tiny ⟨0, by decide⟩ (.user onePage) 0 0 2 fullState = .ok 2 t ∧
      Reported onePage 0 0 2 (fileBytes ⟨0, by decide⟩ t)) ∧
    ∃ s : State Unit, s.ret 0 = some 2 ∧ Reported onePage 0 0 2 (fileBytes ⟨0, by decide⟩ s.fs) ∧ s.file.off.toNat = 2 ∧
      s.file.off.toNat ≤ (fileBytes ⟨0, by decide⟩ s.fs).length := by
  obtain ⟨s, hs, hret⟩ : ∃ s, Machine.Run (step tiny) (Goes ()) (oneCall 0 ⟨onePage, 0, 2⟩)
      (List.replicate 8 (.run ())) s ∧ s.ret 0 = some 2 := by decide +kernel
  have hthm := writes_report_stored_iff (P := Unit) tiny ⟨0, by decide⟩ fullState ready_fullState onePage 0
    (by decide) 0
  have hmap : (Memory.user onePage).Mapped 0 2 := by
    have hall : ∀ k < 2, (Memory.user onePage).byte (0 + k) ≠ none := by decide
    exact hall
  obtain ⟨t, hw⟩ : ∃ t, writei tiny ⟨0, by decide⟩ (.user onePage) 0 0 2 fullState = .ok 2 t := by decide +kernel
  exact ⟨⟨t, hw, (hthm.1 2 2 t hw (by decide)).mpr hmap⟩, s, hret,
    (hthm.2 () 2 true _ s (by decide) (alone_of_goes rfl hs) hret).mpr ⟨hmap, fun h0 => absurd h0 (by decide)⟩⟩

/-- Memory without a page. -/
def noPage : UserMem := .unmapped

/-- A byte that is not mapped, written at the end of a file of one byte: `writei` and `filewrite` report it
as written, and the file still has one byte. -/
theorem write_reports_unmapped : Ready tiny ⟨0, by decide⟩ fullState ∧
    (∃ t, writei tiny ⟨0, by decide⟩ (.user noPage) 0 1 1 fullState = .ok 1 t ∧
    (fileBytes ⟨0, by decide⟩ t).length = 1) ∧
    ∃ (es : List (Event Unit)) (s : State Unit),
      Machine.Run (step tiny) (Alone () ⟨noPage, 0, 1⟩) (init fullState ⟨true, ⟨0, by decide⟩, 1⟩) es s ∧
      s.ret 0 = some 1 ∧
      s.file.off = 2 ∧ (fileBytes ⟨0, by decide⟩ s.fs).length = 1 := by
  have hlen : ∀ t, (fileBytes ⟨0, by decide⟩ t).length = (t.icache ⟨0, by decide⟩).d.size.toNat := fun t =>
    length_contents _ _
  simp only [hlen]
  refine ⟨ready_fullState, ?_, ?_⟩
  · decide +kernel
  · obtain ⟨s, hs, hp⟩ : ∃ s, Machine.Run (step tiny) (Goes ()) (oneCall 1 ⟨noPage, 0, 1⟩)
        (List.replicate 8 (.run ())) s ∧ s.ret 0 = some 1 ∧ s.file.off = 2 ∧
        (s.fs.icache ⟨0, by decide⟩).d.size.toNat = 1 := by decide +kernel
    exact ⟨_, s, alone_of_goes rfl hs, hp⟩

end Xv6.Filewrite

import Xv6.Log.Client

/-!
# The invariant of the clients

What the clients see is an array of blocks. `Sys.flat` is that array, and `Sys.base` the part of it that
has been committed. The invariant says that the account of the cache that the clients' states add up to is
right (`CacheInv`), with the blocks in the log header pinned, that the disk holds the committed array, and
that every `bread` so far returned what was stored last. Each step keeps it.
-/

namespace Xv6.Client

open Machine (Run snoc_split count_move)
open Function (update update_of_ne update_self update_eq_self)

/-! ## The history -/

/-- The contents most recently stored in block `b`, or else its initial contents. -/
def latest (d0 : Blocks) (h : List Obs) (b : Nat) : Block :=
  h.foldl (fun d o => match o with
    | .stored c d' => if c = b then d' else d
    | .returned _ _ => d) (d0 b)

/-- Every `bread` returned the contents most recently stored before. -/
def ReadsLatest (d0 : Blocks) (h : List Obs) : Prop :=
  ∀ pre b d post, h = pre ++ .returned b d :: post → d = latest d0 pre b

variable {d0 : Blocks} {h : List Obs} {b : Nat} {d : Block}
variable {k : Kernel}

theorem latest_stored : latest d0 (h ++ [.stored b d]) = update (latest d0 h) b d := by
  funext c
  by_cases hc : c = b
  · subst hc; simp [latest]
  · simp [latest, update_of_ne hc, Ne.symm hc]

theorem latest_returned : latest d0 (h ++ [.returned b d]) = latest d0 h := by
  funext c
  simp [latest]

theorem ReadsLatest.stored (hr : ReadsLatest d0 h) : ReadsLatest d0 (h ++ [.stored b d]) := by
  intro pre c e post heq
  rcases snoc_split heq with ⟨-, -, hlast⟩ | ⟨post', -, heq⟩
  · cases hlast
  · exact hr pre c e post' heq

theorem ReadsLatest.returned (hr : ReadsLatest d0 h) (hd : d = latest d0 h b) :
    ReadsLatest d0 (h ++ [.returned b d]) := by
  intro pre c e post heq
  rcases snoc_split heq with ⟨-, rfl, hlast⟩ | ⟨post', -, heq⟩
  · cases hlast
    exact hd
  · exact hr pre c e post' heq

/-! ## The account -/

/-- The committed blocks. -/
def Sys.base (d0 : Blocks) (s : Sys) : Blocks := Redo.apply d0 (s.done.flatMap (·.tx))

/-- The blocks as the clients see them. -/
def Sys.flat (d0 : Blocks) (s : Sys) : Blocks := Redo.apply (s.base d0) s.cur

/-- The process has a reference to buffer `i` without its lock. -/
def Proc.waits (i : Fin NBUF) (x : Proc) : Bool :=
  match x.act with
  | some (.wait j _) => j = i
  | some (.releasing j) => j = i
  | _ => false

/-- The account that the clients' states add up to. -/
def Sys.ghost (d0 : Blocks) (s : Sys) : Ghost where
  wait i := Machine.count (Proc.waits i) s.proc
  pins := s.k.log.lh
  stuck := []
  view b := if s.k.log.area b then s.k.disk b else s.flat d0 b
  dirty := s.dirty

/-- What the state of process `p` says about the buffer it is working on. -/
def ActOk (s : Sys) (p : Pid) : Act → Prop
  | .wait i b => (s.k.bcache.buf i).dev = s.k.log.dev ∧ (s.k.bcache.buf i).blockno = b ∧ clientBlock s.k.log b
  | .fill i b => s.holds p i ∧ (s.k.bcache.buf i).blockno = b ∧ s.dirty i = false
  | .logging i => s.holds p i ∧ (s.k.bcache.buf i).valid = true
  | .releasing _ => True

/-- A locked buffer `i` is in use by an operation of process `p`. -/
structure Owns (s : Sys) (i : Fin NBUF) (p : Pid) : Prop where
  inOp : (s.proc p).inOp = true
  client : clientBlock s.k.log (s.k.bcache.buf i).blockno
  valid : (s.k.bcache.buf i).valid = true ∨ ∃ b, (s.proc p).act = some (.fill i b)

structure Inv (L : Log) (d0 : Blocks) (s : Sys) : Prop where
  place : s.k.log.start = L.start ∧ s.k.log.size = L.size ∧ s.k.log.dev = L.dev
  cache : CacheInv s.k.log.dev s.k.bcache s.k.disk (s.ghost d0)
  wrapped : s.k.bcache.wrapped = false
  disk : s.k.disk = Redo.apply d0 s.k.writes
  head : headEntries (s.k.disk s.k.log.start) = []
  size : 0 < s.k.log.size
  outstanding : s.k.log.outstanding = Machine.count Proc.inOp s.proc
  committing : s.k.log.committing = false
  nodup : s.k.log.lh.Nodup
  client : ∀ b ∈ s.k.log.lh, clientBlock s.k.log b
  logged : ∀ b, b ∈ s.k.log.lh ↔ ∃ d, (b, d) ∈ s.cur
  base : ∀ b, ¬ s.k.log.area b → s.k.disk b = s.base d0 b
  acting : ∀ p a, (s.proc p).act = some a → (s.proc p).inOp = true ∧ ActOk s p a
  owner : ∀ i q, (s.k.bcache.buf i).lock = some q → ∃ p : Pid, p.val = q ∧ Owns s i p
  reads : ReadsLatest d0 s.hist
  hist : latest d0 s.hist = s.flat d0

variable {L : Log} {s t : Sys} {p q : Pid} {i j : Fin NBUF} {a : Act}

/-! ## What a step of one process leaves alone -/

/-- A step of process `p` keeps the blocks of buffers in use and the other processes' locks. -/
structure Frame (s t : Sys) (p : Pid) : Prop where
  proc : ∀ q, q ≠ p → t.proc q = s.proc q
  key : ∀ i, (s.k.bcache.buf i).refcnt ≠ 0 →
    (t.k.bcache.buf i).dev = (s.k.bcache.buf i).dev ∧
    (t.k.bcache.buf i).blockno = (s.k.bcache.buf i).blockno ∧
    ((s.k.bcache.buf i).valid = true → (t.k.bcache.buf i).valid = true)
  lock : ∀ i q, q ≠ p.val → ((t.k.bcache.buf i).lock = some q ↔ (s.k.bcache.buf i).lock = some q)
  dirty : ∀ i, t.dirty i = s.dirty i ∨ s.holds p i
  start : t.k.log.start = s.k.log.start
  size : t.k.log.size = s.k.log.size
  dev : t.k.log.dev = s.k.log.dev

theorem Frame.client (hF : Frame s t p) : clientBlock t.k.log b ↔ clientBlock s.k.log b := by
  rw [clientBlock, clientBlock, Log.area, Log.area, hF.start, hF.size]

theorem Inv.refcnt_ne_zero (h : Inv L d0 s) (hrefs : 0 < (s.ghost d0).refs s.k.log.dev i (s.k.bcache.buf i)) :
    (s.k.bcache.buf i).refcnt ≠ 0 := by
  have := (h.cache.each i).refcnt_pos List.not_mem_nil hrefs
  omega

theorem Inv.refcnt_of_lock (h : Inv L d0 s) {q : Nat} (hl : (s.k.bcache.buf i).lock = some q) :
    (s.k.bcache.buf i).refcnt ≠ 0 :=
  h.refcnt_ne_zero (by rw [Ghost.refs, Buf.holders_some hl]; omega)

theorem Inv.refcnt_of_waits (h : Inv L d0 s) (hw : (s.proc p).waits i = true) :
    (s.k.bcache.buf i).refcnt ≠ 0 := by
  have hpos : 0 < (s.ghost d0).wait i := Machine.count_pos hw
  exact h.refcnt_ne_zero (by rw [Ghost.refs]; omega)

theorem Inv.acting_frame (h : Inv L d0 s) (hF : Frame s t p) (hq : q ≠ p) (ha : (t.proc q).act = some a) :
    (t.proc q).inOp = true ∧ ActOk t q a := by
  rw [hF.proc q hq] at ha ⊢
  obtain ⟨hop, hok⟩ := h.acting q a ha
  refine ⟨hop, ?_⟩
  cases a with
  | wait i b =>
    obtain ⟨h1, h2, h3⟩ := hok
    obtain ⟨k1, k2, -⟩ := hF.key i (h.refcnt_of_waits (p := q) (by simp [Proc.waits, ha]))
    exact ⟨k1.trans (h1.trans hF.dev.symm), k2.trans h2, hF.client.mpr h3⟩
  | fill i b =>
    obtain ⟨h1, h2, h3⟩ := hok
    refine ⟨(hF.lock i q (Fin.val_ne_of_ne hq)).mpr h1, (hF.key i (h.refcnt_of_lock h1)).2.1.trans h2, ?_⟩
    rcases hF.dirty i with hd | hd
    · rw [hd, h3]
    · exact absurd (Fin.ext (Option.some.inj (h1.symm.trans hd))) hq
  | logging i =>
    obtain ⟨h1, h2⟩ := hok
    exact ⟨(hF.lock i q (Fin.val_ne_of_ne hq)).mpr h1, (hF.key i (h.refcnt_of_lock h1)).2.2 h2⟩
  | releasing i => trivial

theorem Inv.owner_frame (h : Inv L d0 s) (hF : Frame s t p) {q : Nat} (hq : q ≠ p.val)
    (hl : (t.k.bcache.buf i).lock = some q) : ∃ p' : Pid, p'.val = q ∧ Owns t i p' := by
  rw [hF.lock i q hq] at hl
  obtain ⟨p', rfl, hown⟩ := h.owner i q hl
  have hp' : p' ≠ p := fun he => hq (congrArg Fin.val he)
  obtain ⟨-, k2, k3⟩ := hF.key i (h.refcnt_of_lock hl)
  refine ⟨p', rfl, by rw [hF.proc p' hp']; exact hown.inOp, ?_, ?_⟩
  · rw [k2]
    exact hF.client.mpr hown.client
  · rw [hF.proc p' hp']
    exact hown.valid.imp k3 id

theorem Inv.all_acting (h : Inv L d0 s) (hF : Frame s t p)
    (hp : ∀ a, (t.proc p).act = some a → (t.proc p).inOp = true ∧ ActOk t p a) :
    ∀ q a, (t.proc q).act = some a → (t.proc q).inOp = true ∧ ActOk t q a := by
  intro q a ha
  by_cases hq : q = p
  · subst hq; exact hp a ha
  · exact h.acting_frame hF hq ha

theorem Inv.all_owners (h : Inv L d0 s) (hF : Frame s t p)
    (hp : ∀ i, (t.k.bcache.buf i).lock = some p.val → Owns t i p) :
    ∀ i q, (t.k.bcache.buf i).lock = some q → ∃ p' : Pid, p'.val = q ∧ Owns t i p' := by
  intro i q hl
  by_cases hq : q = p.val
  · subst hq; exact ⟨p, rfl, hp i hl⟩
  · exact h.owner_frame hF hq hl

theorem Inv.own_keep (h : Inv L d0 s) (hF : Frame s t p) (hl : s.holds p i)
    (hop' : (t.proc p).inOp = true) (hnf : ∀ b, (s.proc p).act ≠ some (.fill i b)) : Owns t i p := by
  obtain ⟨p', hp', hown⟩ := h.owner i p.val hl
  obtain rfl : p' = p := Fin.ext hp'
  obtain ⟨-, k2, k3⟩ := hF.key i (h.refcnt_of_lock hl)
  refine ⟨hop', ?_, .inl (k3 (hown.valid.resolve_right fun ⟨b, hb⟩ => hnf b hb))⟩
  rw [k2]
  exact hF.client.mpr hown.client

theorem Inv.valid_of_ready (h : Inv L d0 s) (hr : s.ready p) (hl : s.holds p i) :
    (s.k.bcache.buf i).valid = true := by
  obtain ⟨p', hp', hown⟩ := h.owner i p.val hl
  obtain rfl : p' = p := Fin.ext hp'
  refine hown.valid.resolve_right fun ⟨b, hb⟩ => ?_
  simp [hr.2] at hb

/-- The step neither logs a block nor touches the disk. -/
structure Quiet (s t : Sys) : Prop where
  wrapped : t.k.bcache.wrapped = s.k.bcache.wrapped
  log : t.k.log = s.k.log
  disk : t.k.disk = s.k.disk
  writes : t.k.writes = s.k.writes
  cur : t.cur = s.cur
  done : t.done = s.done

theorem Inv.of_frame (h : Inv L d0 s) (hF : Frame s t p)
    (hkeep : t.k.bcache.wrapped = s.k.bcache.wrapped ∧ t.k.disk = s.k.disk ∧ t.k.writes = s.k.writes ∧ t.done = s.done ∧
      t.k.log.committing = s.k.log.committing)
    (hout : t.k.log.outstanding = Machine.count Proc.inOp t.proc) (hnodup : t.k.log.lh.Nodup)
    (hclient : ∀ b ∈ t.k.log.lh, clientBlock s.k.log b) (hlogged : ∀ b, b ∈ t.k.log.lh ↔ ∃ d, (b, d) ∈ t.cur)
    (hcache : CacheInv s.k.log.dev t.k.bcache s.k.disk (t.ghost d0))
    (hact : ∀ a, (t.proc p).act = some a → (t.proc p).inOp = true ∧ ActOk t p a)
    (hown : ∀ i, (t.k.bcache.buf i).lock = some p.val → Owns t i p)
    (hreads : ReadsLatest d0 t.hist) (hhist : latest d0 t.hist = t.flat d0) : Inv L d0 t := by
  obtain ⟨hwrapped, hdisk, hwrites, hdone, hcommitting⟩ := hkeep
  exact {
    place := by rw [hF.start, hF.size, hF.dev]; exact h.place
    cache := by rw [hF.dev, hdisk]; exact hcache
    wrapped := hwrapped.trans h.wrapped
    disk := by rw [hdisk, hwrites]; exact h.disk
    head := by rw [hdisk, hF.start]; exact h.head
    size := by rw [hF.size]; exact h.size
    outstanding := hout
    committing := hcommitting.trans h.committing
    nodup := hnodup
    client := fun b hb => hF.client.mpr (hclient b hb)
    logged := hlogged
    base := fun b hb => by
      rw [hdisk, Sys.base, hdone]
      exact h.base b (by rwa [Log.area, hF.start, hF.size] at hb)
    acting := h.all_acting hF hact
    owner := h.all_owners hF hown
    reads := hreads
    hist := hhist }

theorem Inv.move (h : Inv L d0 s) (hF : Frame s t p) (hQ : Quiet s t) (hop : (s.proc p).inOp = true)
    (hop' : (t.proc p).inOp = true) (hcache : CacheInv s.k.log.dev t.k.bcache s.k.disk (t.ghost d0))
    (hact : ∀ a, (t.proc p).act = some a → ActOk t p a)
    (hown : ∀ i, (t.k.bcache.buf i).lock = some p.val → Owns t i p)
    (hreads : ReadsLatest d0 t.hist) (hhist : latest d0 t.hist = latest d0 s.hist) : Inv L d0 t := by
  refine h.of_frame hF ⟨hQ.wrapped, hQ.disk, hQ.writes, hQ.done, by rw [hQ.log]⟩ ?_ (by rw [hQ.log]; exact h.nodup)
    (by rw [hQ.log]; exact h.client) (by rw [hQ.log, hQ.cur]; exact h.logged) hcache (fun a ha =>
    ⟨hop', hact a ha⟩) hown
    hreads ?_
  · have hmove := count_move (c := Proc.inOp) (f := s.proc) (g := t.proc) p fun q hq => by rw [hF.proc q hq]
    rw [hop, hop'] at hmove
    rw [hQ.log, h.outstanding]
    omega
  · unfold Sys.flat Sys.base
    rw [hhist, h.hist, hQ.cur, hQ.done]
    rfl

theorem wait_move (d0 : Blocks) (hproc : ∀ q, q ≠ p → t.proc q = s.proc q) (j : Fin NBUF) :
    (t.ghost d0).wait j + ((s.proc p).waits j).toNat = (s.ghost d0).wait j + ((t.proc p).waits j).toNat :=
  count_move p fun q hq => by rw [hproc q hq]

theorem wait_same (d0 : Blocks) (hproc : ∀ q, q ≠ p → t.proc q = s.proc q)
    (hj : ∀ j, (t.proc p).waits j = (s.proc p).waits j) :
    (t.ghost d0).wait = (s.ghost d0).wait := by
  funext j
  have hmove := wait_move d0 hproc j
  rw [hj] at hmove
  exact Nat.add_right_cancel hmove

theorem ghost_wait {x : Proc} (hproc : t.proc = update s.proc p x) (hQ : Quiet s t) (hdirty : t.dirty = s.dirty)
    (i : Fin NBUF) (hj : ∀ j, j ≠ i → x.waits j = (s.proc p).waits j) :
    t.ghost d0 = (s.ghost d0).setWait i ((s.ghost d0).wait i + (x.waits i).toNat - ((s.proc p).waits i).toNat) := by
  have hmove := wait_move (s := s) (t := t) d0 fun q (hq : q ≠ p) => by rw [hproc, update_of_ne hq]
  rw [show t.proc p = x by rw [hproc, update_self]] at hmove
  have hwait : (t.ghost d0).wait = update (s.ghost d0).wait i
      ((s.ghost d0).wait i + (x.waits i).toNat - ((s.proc p).waits i).toNat) := by
    funext j
    by_cases hji : j = i
    · subst hji
      rw [update_self, ← hmove j, Nat.add_sub_cancel]
    · rw [update_of_ne hji]
      have := hmove j
      rw [hj j hji] at this
      exact Nat.add_right_cancel this
  have hview : (t.ghost d0).view = (s.ghost d0).view := by
    unfold Sys.ghost Sys.flat Sys.base
    rw [hQ.log, hQ.disk, hQ.cur, hQ.done]
  rw [Ghost.setWait, ← hwait, ← hview]
  unfold Sys.ghost
  rw [hQ.log, hdirty]

theorem ghost_same {x : Proc} (hproc : t.proc = update s.proc p x) (hQ : Quiet s t) (hdirty : t.dirty = s.dirty)
    (hj : ∀ j, x.waits j = (s.proc p).waits j) : t.ghost d0 = s.ghost d0 := by
  rw [ghost_wait hproc hQ hdirty ⟨0, by decide⟩ fun j _ => hj j, hj, Nat.add_sub_cancel, Ghost.setWait_self rfl]

theorem Frame.of_update {x : Buf} (hproc : ∀ q, q ≠ p → t.proc q = s.proc q)
    (hbuf : t.k.bcache.buf = update s.k.bcache.buf i x)
    (hlog : t.k.log.start = s.k.log.start ∧ t.k.log.size = s.k.log.size ∧ t.k.log.dev = s.k.log.dev)
    (hdev : x.dev = (s.k.bcache.buf i).dev) (hblk : x.blockno = (s.k.bcache.buf i).blockno)
    (hvalid : (s.k.bcache.buf i).valid = true → x.valid = true)
    (hlock : ∀ q, q ≠ p.val → (x.lock = some q ↔ (s.k.bcache.buf i).lock = some q))
    (hdirty : ∀ j, t.dirty j = s.dirty j ∨ s.holds p j) : Frame s t p := by
  refine ⟨hproc, fun j _ => ?_, fun j q hq => ?_, hdirty, hlog.1, hlog.2.1, hlog.2.2⟩ <;> rw [hbuf] <;>
    by_cases hji : j = i
  · subst hji
    rw [update_self]
    exact ⟨hdev, hblk, hvalid⟩
  · rw [update_of_ne hji]
    exact ⟨rfl, rfl, id⟩
  · subst hji
    rw [update_self]
    exact hlock q hq
  · rw [update_of_ne hji]

theorem Inv.touch {x : Buf} {a : Option Act} (h : Inv L d0 s) (hop : (s.proc p).inOp = true) (hQ : Quiet s t)
    (hproc : t.proc = update s.proc p { inOp := true, act := a }) (hbuf : t.k.bcache.buf = update s.k.bcache.buf i x)
    (hdev : x.dev = (s.k.bcache.buf i).dev) (hblk : x.blockno = (s.k.bcache.buf i).blockno)
    (hvalid : (s.k.bcache.buf i).valid = true → x.valid = true)
    (hlock : ∀ q, q ≠ p.val → (x.lock = some q ↔ (s.k.bcache.buf i).lock = some q))
    (hdirty : ∀ j, t.dirty j = s.dirty j ∨ s.holds p j) (hfill : ∀ j b, (s.proc p).act = some (.fill j b) → j = i)
    (hcache : CacheInv s.k.log.dev t.k.bcache s.k.disk (t.ghost d0)) (hact : ∀ b, a = some b → ActOk t p b)
    (hown : x.lock = some p.val → clientBlock s.k.log x.blockno ∧ (x.valid = true ∨ ∃ b, a = some (.fill i b)))
    (hreads : ReadsLatest d0 t.hist) (hhist : latest d0 t.hist = latest d0 s.hist) : Inv L d0 t := by
  have hself : t.proc p = { inOp := true, act := a } := by rw [hproc, update_self]
  have hF : Frame s t p := .of_update (fun q hq => by rw [hproc, update_of_ne hq]) hbuf
    (by rw [hQ.log]; exact ⟨rfl, rfl, rfl⟩)
    hdev hblk hvalid hlock hdirty
  refine h.move hF hQ hop (by rw [hself]) hcache (fun b hb => hact b (by rwa [hself] at hb))
    (fun j hj => ?_) hreads hhist
  by_cases hji : j = i
  · subst hji
    have hx : t.k.bcache.buf j = x := by rw [hbuf, update_self]
    rw [hx] at hj
    refine ⟨by rw [hself], ?_, ?_⟩
    · rw [hx, hF.client]
      exact (hown hj).1
    · rw [hx, hself]
      exact (hown hj).2
  · rw [hbuf, update_of_ne hji] at hj
    exact h.own_keep hF hj (by rw [hself]) fun b hb => hji (hfill j b hb)

/-! ## The steps -/

theorem wait_le (i : Fin NBUF) : (s.ghost d0).wait i + 3 < 2 ^ 32 := by
  have : (s.ghost d0).wait i ≤ Fintype.card Pid := Machine.count_le (Proc.waits i) s.proc
  rw [Fintype.card_fin] at this
  have hN : NPROC = 64 := rfl
  omega

theorem idle (c : Bcache) (D : Nat) : (s.ghost d0).Idle D c := fun _ _ hb => by cases hb

@[simp] theorem setAct_proc_self (s : Sys) (p : Pid) (a : Option Act) :
    (s.setAct p a).proc p = { inOp := true, act := a } := update_self ..

theorem setAct_proc_of_ne (s : Sys) (a : Option Act) (h : q ≠ p) :
    (s.setAct p a).proc q = s.proc q := update_of_ne h _ _

theorem waits_of_ready (hr : s.ready p) (j : Fin NBUF) : (s.proc p).waits j = false := by
  rw [Proc.waits, hr.2]

theorem inv_bget (h : Inv L d0 s) (hr : s.ready p) (hb : clientBlock s.k.log b)
    (hget : bget s.k.log.dev b s.k = .ok i k) :
    Inv L d0 (({ s with k } : Sys).setAct p (some (.wait i b))) := by
  have hout := bget_outcome (b := b) h.cache (idle _ _) List.not_mem_nil wait_le
  rw [hget] at hout
  obtain ⟨hlog, hdisk, hwrites, hwrap⟩ := hout.rest
  have hlock : ∀ j, (k.bcache.buf j).lock = (s.k.bcache.buf j).lock := by
    intro j
    by_cases hji : j = i
    · subst hji; exact hout.lock
    · rw [hout.other j hji]
  have hF : Frame s (({ s with k } : Sys).setAct p (some (.wait i b))) p := by
    refine ⟨fun q hq => setAct_proc_of_ne _ _ hq, fun j hj => ?_, fun j q _ => by rw [← hlock j]; rfl,
      fun _ => .inl rfl, congrArg Log.start hlog, congrArg Log.size hlog, congrArg Log.dev hlog⟩
    by_cases hji : j = i
    · subst hji
      obtain ⟨k1, k2, k3⟩ := hout.keep hj
      exact ⟨hout.key.1.trans k1.symm, hout.key.2.trans k2.symm, fun hv => k3.trans hv⟩
    · rw [← hout.other j hji]
      exact ⟨rfl, rfl, id⟩
  have hQ : Quiet s (({ s with k } : Sys).setAct p (some (.wait i b))) :=
    ⟨hwrap, hlog, hdisk, hwrites, rfl, rfl⟩
  refine h.move hF hQ hr.1 (by rw [setAct_proc_self]) ?_ (fun a ha => ?_)
    (fun j hl => h.own_keep hF ((hlock j).symm.trans hl) (by rw [setAct_proc_self])
      fun b hf => by simp [hr.2] at hf) h.reads rfl
  · rw [ghost_wait rfl hQ rfl i fun j hj => by rw [waits_of_ready hr]; simpa [Proc.waits] using hj.symm,
      waits_of_ready hr]
    simp only [Proc.waits, decide_true, Bool.toNat_true, Bool.toNat_false, Nat.sub_zero]
    rw [← hdisk]
    exact hout.inv
  · rw [setAct_proc_self] at ha
    cases ha
    exact ⟨hout.key.1.trans (congrArg Log.dev hlog).symm, hout.key.2, hF.client.mpr hb⟩

theorem inv_acquire (h : Inv L d0 s) (ha : (s.proc p).act = some (.wait i b))
    (hl : (s.k.bcache.buf i).lock = none) :
    Inv L d0 (({ s with k := s.k.setBuf i { s.k.bcache.buf i with lock := some p.val } } : Sys).setAct p
      (some (.fill i b))) := by
  obtain ⟨hop, h1, h2, h3⟩ := h.acting p _ ha
  have hw : (s.proc p).waits i = true := by simp [Proc.waits, ha]
  have hpos : 0 < (s.ghost d0).wait i := Machine.count_pos hw
  have hd : s.dirty i = false := by
    cases hd : s.dirty i with
    | false => rfl
    | true =>
      have := ((h.cache.each i).dirty hd).1
      simp [hl] at this
  have hQ : Quiet s (({ s with k := s.k.setBuf i { s.k.bcache.buf i with lock := some p.val } } : Sys).setAct p
    (some (.fill i b))) := ⟨rfl, rfl, rfl, rfl, rfl, rfl⟩
  refine h.touch hop hQ rfl rfl rfl rfl id (fun q hq => ?_) (fun _ => .inl rfl) (fun j c hc => ?_) ?_ (fun a ha' => ?_)
    (fun _ => ⟨h2 ▸ h3, .inr ⟨b, rfl⟩⟩) h.reads rfl
  · rw [hl]
    exact ⟨fun he => absurd (Option.some.inj he).symm hq, fun he => by cases he⟩
  · simp [ha] at hc
  · rw [ghost_wait rfl hQ rfl i fun j hj => by simpa [Proc.waits, ha] using hj.symm, hw]
    exact h.cache.acquire p hl hpos
  · cases ha'
    have hself : (s.k.setBuf i { s.k.bcache.buf i with lock := some p.val }).bcache.buf i = _ := Kernel.setBuf_self ..
    exact ⟨congrArg Buf.lock hself, (congrArg Buf.blockno hself).trans h2, hd⟩

theorem view_of_client (hb : clientBlock s.k.log b) : (s.ghost d0).view b = s.flat d0 b := if_neg hb.1

theorem inv_fill (h : Inv L d0 s) (ha : (s.proc p).act = some (.fill i b)) (hfill : fill i s.k = .ok () k) :
    Inv L d0 ((({ s with k } : Sys).setAct p none).returned i b) := by
  obtain ⟨hop, h1, h2, h3⟩ := h.acting p _ ha
  obtain ⟨x, hx, hinv, hdev, hblk, hlk, hvalid, hdata⟩ := fill_ok h.cache (by rw [h1]; rfl)
  obtain ⟨-, rfl⟩ := EStateM.Result.ok.inj (hfill.symm.trans hx)
  obtain ⟨p', hp', hown⟩ := h.owner i p.val h1
  obtain rfl : p' = p := Fin.ext hp'
  have hclient := hown.client
  have hQ : Quiet s ((({ s with k := s.k.setBuf i x } : Sys).setAct p' none).returned i b) :=
  ⟨rfl, rfl, rfl, rfl, rfl, rfl⟩
  refine h.touch hop hQ rfl rfl (hdev.trans ((h.cache.each i).held (by rw [h1]; rfl)).symm) hblk (fun _ => hvalid)
    (fun q _ => by rw [hlk]) (fun _ => .inl rfl) (fun j c hc => ?_) ?_ (fun _ hc => by cases hc)
    (fun _ => ⟨hblk ▸ hclient, .inl hvalid⟩) ?_ latest_returned
  · rw [ha] at hc
    cases hc
    rfl
  · rw [ghost_same rfl hQ rfl fun j => by rw [Proc.waits, Proc.waits, ha]]
    exact hinv
  · refine h.reads.returned ?_
    change ((s.k.setBuf i x).bcache.buf i).data = _
    rw [Kernel.setBuf_self, hdata h3, hblk, view_of_client hclient, h2, h.hist]

theorem inv_modify (h : Inv L d0 s) (hr : s.ready p) (hl : s.holds p i) (d : Block) :
    Inv L d0 { s with
      k := s.k.setBuf i { s.k.bcache.buf i with data := d }
      dirty := update s.dirty i true } := by
  have hlock : (s.k.bcache.buf i).lock.isSome := by rw [hl]; rfl
  have hproc : s.proc = update s.proc p { inOp := true, act := none } := by
    rw [← hr.1, ← hr.2]
    exact (update_eq_self p s.proc).symm
  refine h.touch hr.1 ⟨rfl, rfl, rfl, rfl, rfl, rfl⟩ hproc rfl rfl rfl id (fun q _ => Iff.rfl) (fun j => ?_)
    (fun j c hc => ?_) (h.cache.modify d hlock (h.valid_of_ready hr hl)) (fun _ hc => by cases hc)
    (fun _ => ?_) h.reads rfl
  · by_cases hji : j = i
    · subst hji; exact .inr hl
    · exact .inl (update_of_ne hji _ _)
  · simp [hr.2] at hc
  · obtain ⟨p', -, hown⟩ := h.owner i p.val hl
    exact ⟨hown.client, .inl (h.valid_of_ready hr hl)⟩

theorem inv_logGuard (h : Inv L d0 s) (hr : s.ready p) (hl : s.holds p i) :
    Inv L d0 (s.setAct p (some (.logging i))) := by
  have hF : Frame s (s.setAct p (some (.logging i))) p :=
    ⟨fun q hq => setAct_proc_of_ne _ _ hq, fun _ _ => ⟨rfl, rfl, id⟩, fun _ _ _ => Iff.rfl,
      fun _ => .inl rfl, rfl, rfl, rfl⟩
  have hQ : Quiet s (s.setAct p (some (.logging i))) := ⟨rfl, rfl, rfl, rfl, rfl, rfl⟩
  refine h.move hF hQ hr.1 (by rw [setAct_proc_self]) ?_ (fun a ha => ?_) (fun j hj =>
    h.own_keep hF hj (by rw [setAct_proc_self]) fun b hb => by simp [hr.2] at hb) h.reads rfl
  · rw [ghost_same rfl hQ rfl fun j => by rw [waits_of_ready hr]; rfl]
    exact h.cache
  · rw [setAct_proc_self] at ha
    cases ha
    exact ⟨hl, h.valid_of_ready hr hl⟩

theorem inv_unlock (h : Inv L d0 s) (hr : s.ready p) (hl : s.holds p i) (hd : s.dirty i = false) :
    Inv L d0 (({ s with k := s.k.setBuf i { s.k.bcache.buf i with lock := none } } : Sys).setAct p
      (some (.releasing i))) := by
  have hQ : Quiet s (({ s with k := s.k.setBuf i { s.k.bcache.buf i with lock := none } } : Sys).setAct p
    (some (.releasing i))) := ⟨rfl, rfl, rfl, rfl, rfl, rfl⟩
  refine h.touch hr.1 hQ rfl rfl rfl rfl id (fun q hq => ?_) (fun _ => .inl rfl) (fun j c hc => ?_) ?_ (fun a ha => ?_)
    (fun hc => by cases hc) h.reads rfl
  · rw [hl]
    exact ⟨(by cases ·), fun he => absurd (Option.some.inj he).symm hq⟩
  · simp [hr.2] at hc
  · rw [ghost_wait rfl hQ rfl i fun j hj => by rw [waits_of_ready hr]; simpa [Proc.waits] using hj.symm,
      waits_of_ready hr]
    simp only [Proc.waits, decide_true, Bool.toNat_true, Bool.toNat_false, Nat.sub_zero]
    exact h.cache.unlock (by rw [hl]; rfl) hd
  · cases ha
    trivial

theorem inv_unref (h : Inv L d0 s) (ha : (s.proc p).act = some (.releasing i))
    (hun : brelseUnref i s.k = .ok () k) : Inv L d0 (({ s with k } : Sys).setAct p none) := by
  obtain ⟨hop, -⟩ := h.acting p _ ha
  have hw : (s.proc p).waits i = true := by simp [Proc.waits, ha]
  have hpos : 0 < (s.ghost d0).wait i := Machine.count_pos hw
  obtain ⟨k', hk', hinv, hb, hwrap, hlog, hdisk, hwrites⟩ := brelseUnref_ok h.cache hpos
  obtain ⟨-, rfl⟩ := EStateM.Result.ok.inj (hun.symm.trans hk')
  have hQ : Quiet s (({ s with k } : Sys).setAct p none) := by
    have hne : ((s.k.bcache.buf i).refcnt == 0) = false := by simpa using h.refcnt_of_waits hw
    rw [hne, Bool.or_false] at hwrap
    exact ⟨hwrap, hlog, hdisk, hwrites, rfl, rfl⟩
  refine h.touch hop hQ rfl hb rfl rfl id (fun q _ => Iff.rfl) (fun _ => .inl rfl) (fun j c hc => ?_) ?_
    (fun _ hc => by cases hc) (fun hl => ?_) h.reads rfl
  · simp [ha] at hc
  · rw [ghost_wait rfl hQ rfl i fun j hj => by simpa [Proc.waits, ha] using hj.symm, hw, ← hdisk]
    simp only [Proc.waits, Bool.toNat_true, Bool.toNat_false, Nat.add_zero]
    exact hinv
  · obtain ⟨p', hp', hown⟩ := h.owner i p.val hl
    obtain rfl : p' = p := Fin.ext hp'
    exact ⟨hown.client, hown.valid.imp_right fun ⟨b, hb⟩ => by simp [ha] at hb⟩

theorem logLocked_ok {D : Nat} {g : Ghost} (h : CacheInv D k.bcache k.disk g) (hg : g.pins = k.log.lh)
    (hl : (k.bcache.buf i).lock.isSome) (hw : g.wait i + 3 < 2 ^ 32) :
    ∃ r, logLocked i k = .ok () { k.setBuf i { k.bcache.buf i with refcnt := r } with
        log := k.log.record (k.bcache.buf i).blockno } ∧ r < 2 ^ 32 ∧
      (r + g.lost D (k.bcache.buf i)) % 2 ^ 32 = g.wait i + (k.bcache.buf i).holders + 1 := by
  have hdev := (h.each i).held hl
  have hcount := (h.each i).count
  have hle := (k.bcache.buf i).holders_le
  rw [Ghost.refs] at hcount
  unfold logLocked
  by_cases hb : (k.bcache.buf i).blockno ∈ k.log.lh
  · refine ⟨(k.bcache.buf i).refcnt, ?_, (h.each i).lt, ?_⟩
    · simp only
      rw [if_neg (by rw [Log.find_eq_n]; exact not_not.mpr hb)]
      change _ = EStateM.Result.ok () { k.setBuf i (k.bcache.buf i) with
        log := k.log.record (k.bcache.buf i).blockno }
      rw [Kernel.setBuf_eq_self]
    · rw [hcount, Ghost.pin_of_mem hdev (hg ▸ hb)]
  · refine ⟨incr (k.bcache.buf i).refcnt, ?_, incr_lt _, ?_⟩
    · simp only
      rw [if_pos (Log.find_eq_n.mpr hb)]
      rfl
    · rw [Ghost.pin_of_not_mem (hg ▸ hb)] at hcount
      exact incr_count hcount (by omega)

theorem inv_logLocked (h : Inv L d0 s) (ha : (s.proc p).act = some (.logging i))
    (hlog : logLocked i s.k = .ok () k) :
    Inv L d0 ((({ s with k } : Sys).setAct p none).stored i) := by
  obtain ⟨hop, hl, hv⟩ := h.acting p _ ha
  have hlock : (s.k.bcache.buf i).lock.isSome := by rw [hl]; rfl
  obtain ⟨r, hk, hr, hcount⟩ := logLocked_ok h.cache rfl hlock (wait_le i)
  obtain ⟨-, rfl⟩ := EStateM.Result.ok.inj (hlog.symm.trans hk)
  obtain ⟨p', hp', hown⟩ := h.owner i p.val hl
  obtain rfl : p' = p := Fin.ext hp'
  have hclient := hown.client
  obtain ⟨b, hb⟩ : ∃ b, (s.k.bcache.buf i).blockno = b := ⟨_, rfl⟩
  obtain ⟨d, hd⟩ : ∃ d, (s.k.bcache.buf i).data = d := ⟨_, rfl⟩
  rw [hb] at hclient
  have hinv := h.cache.record (s.k.log.record b).lh hlock hv hb (fun a => Log.mem_record) hr hcount
  rw [hd] at hinv
  obtain ⟨t, ht⟩ : ∃ t, t = (({ s with k := { s.k.setBuf i { s.k.bcache.buf i with refcnt := r } with
    log := s.k.log.record (s.k.bcache.buf i).blockno } } : Sys).setAct p' none).stored i := ⟨_, rfl⟩
  rw [← ht]
  have hself : t.proc p' = { inOp := true } := by rw [ht]; exact setAct_proc_self ..
  have hbuf : t.k.bcache.buf = update s.k.bcache.buf i { s.k.bcache.buf i with refcnt := r } := by
    rw [ht]; rfl
  have hlog' : t.k.log = s.k.log.record b := by rw [ht, ← hb]; rfl
  have hdisk : t.k.disk = s.k.disk ∧ t.k.writes = s.k.writes ∧ t.done = s.done := by
    rw [ht]; exact ⟨rfl, rfl, rfl⟩
  have hself' : (s.k.setBuf i { s.k.bcache.buf i with refcnt := r }).bcache.buf i =
    { s.k.bcache.buf i with refcnt := r } := Kernel.setBuf_self ..
  have hcur : t.cur = s.cur ++ [(b, d)] := by
    rw [ht, ← hb, ← hd, Sys.stored]
    simp only [Sys.setAct, Sys.setProc, hself']
  have hhist : t.hist = s.hist ++ [.stored b d] := by
    rw [ht, ← hb, ← hd, Sys.stored]
    simp only [Sys.setAct, Sys.setProc, hself']
  have hdirty : t.dirty = update s.dirty i false := by rw [ht]; rfl
  have hflat : t.flat d0 = update (s.flat d0) b d := by
    unfold Sys.flat Sys.base
    rw [hcur, hdisk.2.2, Redo.apply_concat]
  have hF : Frame s t p' := by
    refine .of_update (fun q hq => by rw [ht]; exact setAct_proc_of_ne _ _ hq) hbuf
      (by rw [hlog']; simp) rfl rfl id (fun q _ => Iff.rfl) fun j => ?_
    by_cases hji : j = i
    · subst hji; exact .inr hl
    · exact .inl (by rw [hdirty, update_of_ne hji])
  have hghost : t.ghost d0 = (s.ghost d0).record i b d (s.k.log.record b).lh := by
    have hwait := wait_same d0 hF.proc fun j => by rw [hself, Proc.waits, Proc.waits, ha]
    have hview : (t.ghost d0).view = update (s.ghost d0).view b d := by
      funext c
      have hview' : (t.ghost d0).view c = if s.k.log.area c then s.k.disk c else t.flat d0 c :=
        if_congr (by rw [Log.area, Log.area, hF.start, hF.size]) (by rw [hdisk.1]) rfl
      rw [hview', hflat]
      by_cases hc : c = b
      · subst hc
        rw [if_neg hclient.1, update_self, update_self]
      · rw [update_of_ne hc, update_of_ne hc]
        rfl
    rw [Ghost.record, ← hwait, ← hview]
    unfold Sys.ghost
    rw [hlog', hdirty]
  have hcount' : Machine.count Proc.inOp t.proc = Machine.count Proc.inOp s.proc := by
    have := count_move (c := Proc.inOp) (f := s.proc) (g := t.proc) p' fun q hq => by rw [hF.proc q hq]
    rw [hop, hself] at this
    exact Nat.add_right_cancel this
  refine h.of_frame hF ⟨by rw [ht]; rfl, hdisk.1, hdisk.2.1, hdisk.2.2, by rw [hlog', Log.record_committing]⟩ ?_
    (by rw [hlog']; exact Log.nodup_record h.nodup) (fun c hc => ?_) (fun c => ?_) (by rw [hghost, ht]; exact hinv)
    (fun a ha' => by rw [hself] at ha'; cases ha') (fun j hj => ?_) (by rw [hhist]; exact h.reads.stored)
    (by rw [hhist, latest_stored, h.hist, hflat])
  · rw [hlog', Log.record_outstanding, h.outstanding, hcount']
  · rw [hlog', Log.mem_record] at hc
    rcases hc with rfl | hc
    · exact hclient
    · exact h.client c hc
  · rw [hlog', Log.mem_record, h.logged, hcur]
    simp only [List.mem_append, List.mem_singleton, Prod.mk.injEq, exists_or, exists_and_left, exists_eq, and_true]
    exact or_comm
  · refine h.own_keep hF ?_ (by rw [hself]) fun b' hb' => by rw [ha] at hb'; cases hb'
    by_cases hji : j = i
    · subst hji; exact hl
    · rwa [hbuf, update_of_ne hji] at hj

theorem Inv.reop (h : Inv L d0 s) {x : Proc} {n : Int} (hact : (s.proc p).act = none) (hfree : ∀ i, ¬ s.holds p i)
    (hx : x.act = none) (hn : n = Machine.count Proc.inOp (update s.proc p x)) :
    Inv L d0 (({ s with k := { s.k with log := { s.k.log with outstanding := n } } } : Sys).setProc p x) := by
  obtain ⟨t, ht⟩ : ∃ t, t = ({ s with k := { s.k with log := { s.k.log with outstanding := n } } } :
    Sys).setProc p x := ⟨_, rfl⟩
  have hself : t.proc p = x := by rw [ht]; exact update_self ..
  have hF : Frame s t p := by
    rw [ht]
    exact ⟨fun q hq => update_of_ne hq _ _, fun _ _ => ⟨rfl, rfl, id⟩, fun _ _ _ => Iff.rfl,
      fun _ => .inl rfl, rfl, rfl, rfl⟩
  have hghost : t.ghost d0 = s.ghost d0 := by
    have hwait := wait_same d0 hF.proc fun j => by rw [hself, Proc.waits, Proc.waits, hact, hx]
    have hrest : t.ghost d0 = { s.ghost d0 with wait := (t.ghost d0).wait } := by rw [ht]; rfl
    rw [hrest, hwait]
  rw [← ht]
  refine h.of_frame hF (by rw [ht]; exact ⟨rfl, rfl, rfl, rfl, rfl⟩) (by rw [ht]; exact hn) (by rw [ht]; exact h.nodup)
    (by rw [ht]; exact h.client) (by rw [ht]; exact h.logged) (by rw [hghost, ht]; exact h.cache)
    (fun a ha => by simp [hself, hx] at ha) (fun j hj => absurd (by rw [ht] at hj; exact hj) (hfree j))
    (by rw [ht]; exact h.reads) (by rw [ht]; exact h.hist)

/-! ## The end of an operation -/

theorem endOpLocked_eq (hc : k.log.committing = false) :
    endOpLocked k = if k.log.outstanding - 1 = 0 then
      .ok true { k with log := { k.log with outstanding := k.log.outstanding - 1, committing := true } }
    else .ok false { k with log := { k.log with outstanding := k.log.outstanding - 1 } } := by
  change (if k.log.committing then panic .logCommitting
    else if k.log.outstanding - 1 = 0 then do
      setLog { k.log with outstanding := k.log.outstanding - 1, committing := true }
      return true
    else return false : KernelM Bool)
    { k with log := { k.log with outstanding := k.log.outstanding - 1 } } = _
  rw [hc, if_neg Bool.false_ne_true]
  split_ifs <;> rfl

theorem endOp_some (p : Nat) (hc : k.log.committing = false) (ho : k.log.outstanding ≠ 1) :
    endOp p k = .ok () { k with log := { k.log with outstanding := k.log.outstanding - 1 } } := by
  have hlocked := endOpLocked_eq hc
  rw [if_neg (by omega)] at hlocked
  rw [endOp, Hoare.bind_of_ok hlocked]
  rfl

/-- The log while the last operation commits. -/
def atCommit (l : Log) : Log := { l with outstanding := 0, committing := true }

theorem endOp_last (p : Nat) (hc : k.log.committing = false) (ho : k.log.outstanding = 1) :
    endOp p k = (commit p >>= fun _ => commitDone) { k with log := atCommit k.log } := by
  have hlocked := endOpLocked_eq hc
  rw [if_pos (by omega)] at hlocked
  rw [endOp, Hoare.bind_of_ok hlocked, ho]
  rfl

theorem Inv.alone (h : Inv L d0 s) (hr : s.ready p) (hfree : ∀ i, ¬ s.holds p i) (ho : s.k.log.outstanding = 1) :
    Machine.count Proc.inOp (update s.proc p {}) = 0 ∧ (∀ q, (s.proc q).act = none) ∧
    (∀ i, (s.k.bcache.buf i).lock = none) ∧ ∀ i, s.dirty i = false := by
  have hcount : Machine.count Proc.inOp (update s.proc p {}) = 0 := by
    have hmove := count_move (c := Proc.inOp) (f := s.proc) (g := update s.proc p {}) p
      fun q hq => by rw [update_of_ne hq]
    rw [hr.1, update_self] at hmove
    have := h.outstanding
    simp only [Bool.toNat_true, Bool.toNat_false] at hmove
    omega
  have hout : ∀ q, q ≠ p → (s.proc q).inOp = false := by
    intro q hq
    have := Machine.count_eq_zero.mp hcount q
    rwa [update_of_ne hq] at this
  have hlock : ∀ i, (s.k.bcache.buf i).lock = none := by
    intro i
    cases hl : (s.k.bcache.buf i).lock with
    | none => rfl
    | some q =>
      obtain ⟨p', rfl, hown⟩ := h.owner i q hl
      by_cases hp : p' = p
      · subst hp; exact absurd hl (hfree i)
      · have := hown.inOp
        simp [hout p' hp] at this
  refine ⟨hcount, fun q => ?_, hlock, fun i => ?_⟩
  · by_cases hq : q = p
    · subst hq; exact hr.2
    · by_contra hne
      obtain ⟨a, ha⟩ := Option.ne_none_iff_exists'.mp hne
      have := (h.acting q a ha).1
      simp [hout q hq] at this
  · by_contra hd
    rw [Bool.not_eq_false] at hd
    have := ((h.cache.each i).dirty hd).1
    simp [hlock i] at this

theorem wait_of_idle (h : ∀ q, (s.proc q).act = none) (i : Fin NBUF) : (s.ghost d0).wait i = 0 :=
  Machine.count_eq_zero (f := s.proc).mpr fun q => by rw [Proc.waits, h q]

theorem Inv.at_commit (h : Inv L d0 s) (hr : s.ready p) (hfree : ∀ i, ¬ s.holds p i)
    (ho : s.k.log.outstanding = 1) :
    At s.k.log.dev p d0 (s.ghost d0) (atCommit s.k.log) s.k.writes noHold
      { s.k with log := atCommit s.k.log } := by
  obtain ⟨-, hact, hlock, hdirty⟩ := h.alone hr hfree ho
  exact {
    inv := h.cache
    log := rfl
    writes := rfl
    disk := h.disk
    held := fun _ _ hn => by cases hn
    free := fun i _ => hlock i
    calm := fun i => ⟨wait_of_idle hact i, hdirty i⟩
    apart := fun b hb => by cases hb
    safe := fun _ => h.wrapped
    lost := fun b hb => by cases hb }

theorem Inv.fits (h : Inv L d0 s) (hn : s.k.log.n + 1 ≤ s.k.log.size) : s.k.log.layout.Fits s.k.log.lh where
  le := by
    change s.k.log.n ≤ s.k.log.size - 1
    omega
  nodup := h.nodup
  home b hb := (Log.layout_home h.size).mpr (h.client b hb).1

theorem Inv.n_le (h : Inv L d0 s) : s.k.log.n ≤ NBUF := (h.cache.card_pins h.nodup).1

theorem endOp_empty (p : Nat) (hc : k.log.committing = false) (ho : k.log.outstanding = 1) (hn : k.log.lh = []) :
    endOp p k = .ok () { k with log := { k.log with outstanding := 0 } } := by
  rw [endOp_last p hc ho]
  have hcommit : commit p { k with log := atCommit k.log } = .ok () { k with log := atCommit k.log } := by
    change (if k.log.n > 0 then _ else pure () : KernelM Unit) { k with log := atCommit k.log } = _
    rw [if_neg (by rw [Log.n, hn]; exact Nat.lt_irrefl 0)]
    rfl
  rw [Hoare.bind_of_ok hcommit]
  change EStateM.Result.ok () { k with log := { k.log with outstanding := 0, committing := false } } = _
  rw [← hc]

theorem Inv.commit_outcome (h : Inv L d0 s) (hr : s.ready p) (hfree : ∀ i, ¬ s.holds p i)
    (ho : s.k.log.outstanding = 1) (hn : 0 < s.k.log.n) (hsize : s.k.log.n + 1 ≤ s.k.log.size) :
    Hoare.Outcome
      (fun _ k => ∃ g', g'.pins = [] ∧ g'.stuck = [] ∧
        At s.k.log.dev p d0 g' { s.k.log with outstanding := 0, lh := [] }
          (s.k.writes ++ s.k.log.commitWrites (s.ghost d0)) noHold k)
      (fun _ k => ∃ ws, ws <+: s.k.log.commitWrites (s.ghost d0) ∧ k.writes = s.k.writes ++ ws)
      (endOp p s.k) := by
  rw [endOp_last p h.committing ho]
  refine Hoare.Triple.bind (commit_spec (L := atCommit s.k.log) rfl (h.fits hsize) (fun _ => Iff.rfl) rfl hn
    fun ws hws e k hk => ⟨ws, hws, hk⟩) (fun _ => ?_) _ (h.at_commit hr hfree ho)
  refine Hoare.Triple.exists fun g' => Hoare.Triple.of_fact fun hp => Hoare.Triple.of_fact fun hst => ?_
  refine .bind getLog_spec fun l => .of_fact fun hl => ?_
  refine (setLog_spec _).imp (fun _ hk => hk) (fun _ k hk => ⟨g', hp, hst, ?_⟩) fun _ _ hk => hk
  rw [hl] at hk
  rw [show ({ s.k.log with outstanding := 0, lh := [] } : Log) =
    { s.k.log with outstanding := 0, lh := [], committing := false } by rw [← h.committing]]
  exact hk

theorem Inv.full_outcome (h : Inv L d0 s) (hr : s.ready p) (hfree : ∀ i, ¬ s.holds p i)
    (ho : s.k.log.outstanding = 1) (hfull : NBUF ≤ s.k.log.n) (hsize : 2 ≤ s.k.log.size) :
    Hoare.Outcome (fun _ _ => False) (fun _ k => k.writes = s.k.writes) (endOp p s.k) := by
  have hslot : s.k.log.start + 1 ∉ s.k.log.lh := fun hm =>
    (h.client _ hm).1 ⟨Nat.le_add_right _ _, by omega⟩
  have hpos : 0 < s.k.log.n := Nat.lt_of_lt_of_le (by decide) hfull
  rw [endOp_last p h.committing ho]
  exact Hoare.Triple.bind (commit_full (g := s.ghost d0) (L := atCommit s.k.log) rfl hslot rfl h.nodup hfull hpos)
    (fun _ _ hk => hk.elim) _ (h.at_commit hr hfree ho)

theorem Inv.committed_disk (h : Inv L d0 s) (hsize : s.k.log.n + 1 ≤ s.k.log.size) :
    headEntries (Redo.apply d0 (s.k.writes ++ s.k.log.commitWrites (s.ghost d0)) s.k.log.start) = [] ∧
      ∀ b, ¬ s.k.log.area b →
        Redo.apply d0 (s.k.writes ++ s.k.log.commitWrites (s.ghost d0)) b = s.flat d0 b := by
  have hfull : headEntries (s.k.log.headFull (s.ghost d0)) = s.k.log.lh :=
    headEntries_putHead _ h.n_le fun b hb => (h.client b hb).2
  have hclear : headEntries (s.k.log.headClear (s.ghost d0)) = [] :=
    headEntries_putHead _ (Nat.zero_le _) fun b hb => by cases hb
  rw [Redo.apply_append, ← h.disk]
  obtain ⟨h1, h2⟩ := Redo.Layout.commit_done
    (v := (s.ghost d0).view) (f := s.k.log.headFull (s.ghost d0)) (e := s.k.log.headClear (s.ghost d0))
    (fun _ _ => rfl) (h.fits hsize) hfull hclear
  refine ⟨h1, fun b hb => ?_⟩
  rw [Log.commitWrites, ← h2 b ((Log.layout_home h.size).mpr hb), Redo.Layout.merge]
  split_ifs with hm
  · exact view_of_client (h.client b hm)
  · rw [h.base b hb, Sys.flat, Redo.apply_of_not_mem]
    rintro ⟨c, d⟩ hw rfl
    exact hm ((h.logged c).mpr ⟨d, hw⟩)

theorem inv_commit {g' : Ghost} (h : Inv L d0 s) (hr : s.ready p)
    (hfree : ∀ i, ¬ s.holds p i) (ho : s.k.log.outstanding = 1) (hn : 0 < s.k.log.n)
    (hsize : s.k.log.n + 1 ≤ s.k.log.size) (hp : g'.pins = []) (hst : g'.stuck = [])
    (hk : At s.k.log.dev p d0 g' { s.k.log with outstanding := 0, lh := [] }
      (s.k.writes ++ s.k.log.commitWrites (s.ghost d0)) noHold k) :
    Inv L d0 (({ s with k } : Sys).setProc p {}).committed := by
  obtain ⟨hcount, hact, -, hdirty⟩ := h.alone hr hfree ho
  obtain ⟨hhead, hdisk⟩ := h.committed_disk hsize
  have hcur : s.cur ≠ [] := by
    intro hc
    obtain ⟨b, hb⟩ := List.exists_mem_of_length_pos hn
    obtain ⟨d, hd⟩ := (h.logged b).mp hb
    simp [hc] at hd
  obtain ⟨t, ht⟩ : ∃ t, t = (({ s with k } : Sys).setProc p {}).committed := ⟨_, rfl⟩
  have ht' : t = { s with
      k, proc := update s.proc p {}, cur := []
      done := s.done ++ [⟨s.cur, k.writes.length⟩] } := by
    rw [ht, Sys.committed]
    exact if_neg hcur
  have hbase : t.base d0 = s.flat d0 := by
    rw [ht', Sys.flat, Sys.base, Sys.base, List.flatMap_append, Redo.apply_append, List.flatMap_singleton]
  have hlog : t.k.log = { s.k.log with outstanding := 0, lh := [] } := by rw [ht']; exact hk.log
  have hkd : t.k.disk = Redo.apply d0 (s.k.writes ++ s.k.log.commitWrites (s.ghost d0)) := by
    rw [ht']; exact hk.disk
  have harea : ∀ b, t.k.log.area b ↔ s.k.log.area b := fun b => by rw [hlog]; rfl
  have hnoact : ∀ q, (t.proc q).act = none := by
    intro q
    rw [ht']
    by_cases hq : q = p
    · subst hq; simp
    · simpa [update_of_ne hq] using hact q
  have hflat : t.flat d0 = s.flat d0 := by
    rw [← hbase, Sys.flat, show t.cur = [] by rw [ht']]
    rfl
  have hghost : t.ghost d0 = g' := by
    have hview : (t.ghost d0).view = g'.view := by
      funext b
      rw [← hk.inv.clean b (by rw [hp]; exact List.not_mem_nil), hk.disk]
      by_cases hb : t.k.log.area b
      · exact (if_pos hb).trans (by rw [hkd])
      · refine (if_neg hb).trans ?_
        rw [hflat, hdisk b (mt (harea b).mpr hb)]
    have hwait : (t.ghost d0).wait = g'.wait := funext fun i => by
      rw [wait_of_idle hnoact, (hk.calm i).1]
    have hdirty' : (t.ghost d0).dirty = g'.dirty := funext fun i => by
      rw [(hk.calm i).2, ← hdirty i, ht']
      rfl
    have hpins : (t.ghost d0).pins = g'.pins := by rw [hp]; exact congrArg Log.lh hlog
    cases g'
    simp only at hview hwait hdirty' hpins hst
    rw [← hview, ← hwait, ← hdirty', ← hpins, hst]
    rfl
  rw [← ht]
  exact {
    place := by rw [hlog]; exact h.place
    cache := by rw [hghost, hlog, ht']; exact hk.inv
    wrapped := by rw [ht']; exact hk.safe hst
    disk := by rw [hkd, ht', hk.writes]
    head := by rw [hkd, hlog]; exact hhead
    size := by rw [hlog]; exact h.size
    outstanding := by rw [hlog, ht', hcount]; rfl
    committing := by rw [hlog]; exact h.committing
    nodup := by rw [hlog]; exact List.nodup_nil
    client := by rw [hlog]; exact fun b hb => by cases hb
    logged := by rw [hlog, ht']; simp
    base := fun b hb => by rw [hkd, hbase]; exact hdisk b (mt (harea b).mpr hb)
    acting := fun q a ha => by simp [hnoact q] at ha
    owner := fun i q hl => by
      rw [ht'] at hl
      simp [hk.free i rfl] at hl
    reads := by rw [ht']; exact h.reads
    hist := by rw [hflat, ← h.hist, ht'] }

/-! ## Every step -/

/-- The header fits the log when an operation ends, or the cache is full of pinned buffers. -/
def HeaderFits (s : Sys) : Event → Prop
  | .endOp _ => s.k.log.n + 1 ≤ s.k.log.size ∨ NBUF ≤ s.k.log.n ∧ 2 ≤ s.k.log.size
  | _ => True

theorem call_cases {α : Type} {x : KernelM α} {f : α → Sys → Sys} (h : s.call x f = some t) :
    (∃ a k, x s.k = .ok a k ∧ t = f a { s with k }) ∨
      ∃ m k, x s.k = .error (.panic m) k ∧ t = { s with k, panicked := some m } := by
  unfold Sys.call at h
  cases hx : x s.k with
  | ok a k =>
    rw [hx] at h
    exact .inl ⟨a, k, rfl, (Option.some.inj h).symm⟩
  | error e k =>
    rw [hx] at h
    cases e with
    | panic m => exact .inr ⟨m, k, rfl, (Option.some.inj h).symm⟩
    | sleep => cases h

theorem call_ok {α : Type} {x : KernelM α} {f : α → Sys → Sys} (h : s.call x f = some t) (hp : t.panicked = none) :
    ∃ a k, x s.k = .ok a k ∧ t = f a { s with k } := by
  rcases call_cases h with h | ⟨m, k, -, rfl⟩
  · exact h
  · cases hp

theorem logGuard_ok {k' : Kernel} (h : logGuard k = .ok () k') : k' = k := by
  change (if k.log.tooBig then panic .tooBig
    else if k.log.outstanding < 1 then panic .outsideTrans else pure () : KernelM Unit) k = _ at h
  split_ifs at h
  · cases h
  · cases h
  · exact (EStateM.Result.ok.inj h).2.symm

theorem inv_beginOp (h : Inv L d0 s) (hp : (s.proc p).inOp = false) (hbegin : beginOp s.k = .ok () k) :
    Inv L d0 (({ s with k } : Sys).setAct p none) := by
  have hk : k = { s.k with log := { s.k.log with outstanding := s.k.log.outstanding + 1 } } := by
    unfold beginOp at hbegin
    split_ifs at hbegin
    exact (EStateM.Result.ok.inj hbegin).2.symm
  have hact : (s.proc p).act = none := by
    by_contra hne
    obtain ⟨a, ha⟩ := Option.ne_none_iff_exists'.mp hne
    have := (h.acting p a ha).1
    simp [hp] at this
  have hfree : ∀ i, ¬ s.holds p i := by
    intro i hl
    obtain ⟨p', hp', hown⟩ := h.owner i p.val hl
    obtain rfl : p' = p := Fin.ext hp'
    simp [hown.inOp] at hp
  have hmove := count_move (c := Proc.inOp) (f := s.proc)
    (g := update s.proc p { inOp := true }) p fun q hq => by rw [update_of_ne hq]
  rw [hp, update_self] at hmove
  simp only [Bool.toNat_true, Bool.toNat_false] at hmove
  rw [hk]
  refine h.reop hact hfree rfl ?_
  rw [h.outstanding]
  omega

theorem inv_endOp (h : Inv L d0 s) (hr : s.ready p) (hfree : ∀ i, ¬ s.holds p i)
    (hfit : s.k.log.n + 1 ≤ s.k.log.size ∨ NBUF ≤ s.k.log.n ∧ 2 ≤ s.k.log.size) (hend : endOp p s.k = .ok () k) :
    Inv L d0 (if s.k.log.outstanding = 1 then (({ s with k } : Sys).setProc p {}).committed
      else ({ s with k } : Sys).setProc p {}) := by
  have hmove := count_move (c := Proc.inOp) (f := s.proc) (g := update s.proc p {}) p
    fun q hq => by rw [update_of_ne hq]
  rw [hr.1, update_self] at hmove
  simp only [Bool.toNat_true, Bool.toNat_false] at hmove
  have hout := h.outstanding
  by_cases ho : s.k.log.outstanding = 1
  · rw [if_pos ho]
    by_cases hn : s.k.log.lh = []
    · rw [endOp_empty p h.committing ho hn] at hend
      obtain ⟨-, rfl⟩ := EStateM.Result.ok.inj hend
      have hcur : s.cur = [] := List.eq_nil_iff_forall_not_mem.mpr fun w hw => by
        have := (h.logged w.1).mpr ⟨w.2, hw⟩
        simp [hn] at this
      rw [Sys.committed, if_pos (by exact hcur)]
      exact h.reop hr.2 hfree rfl (by omega)
    · have hpos : 0 < s.k.log.n := List.length_pos_iff.mpr hn
      rcases hfit with hsize | ⟨hfull, hsize⟩
      · have hc := h.commit_outcome hr hfree ho hpos hsize
        rw [hend] at hc
        obtain ⟨g', hp, hst, hk⟩ := hc
        exact inv_commit h hr hfree ho hpos hsize hp hst hk
      · have hc := h.full_outcome hr hfree ho hfull hsize
        rw [hend] at hc
        exact hc.elim
  · rw [if_neg ho]
    rw [endOp_some p h.committing ho] at hend
    obtain ⟨-, rfl⟩ := EStateM.Result.ok.inj hend
    exact h.reop hr.2 hfree rfl (by omega)

/-- The kernel function a step calls, and what the system is once it returns. -/
inductive Calls (s : Sys) : Event → (α : Type) → KernelM α → (α → Sys → Sys) → Prop
  | beginOp {p : Pid} : (s.proc p).inOp = false → Calls s (.beginOp p) Unit beginOp fun _ t => t.setAct p none
  | bget {p : Pid} {b : Nat} : s.ready p → clientBlock s.k.log b →
      Calls s (.bget p b) _ (bget s.k.log.dev b) fun i t => t.setAct p (some (.wait i b))
  | acquire {p : Pid} {i : Fin NBUF} {b : Nat} : (s.proc p).act = some (.wait i b) →
      Calls s (.acquire p) _ (acquiresleep p i) fun _ t => t.setAct p (some (.fill i b))
  | fill {p : Pid} {i : Fin NBUF} {b : Nat} : (s.proc p).act = some (.fill i b) →
      Calls s (.fill p) _ (fill i) fun _ t => (t.setAct p none).returned i b
  | modify {p : Pid} {i : Fin NBUF} {d : Block} : s.ready p → s.holds p i →
      Calls s (.modify p i d) _ (setData i d) fun _ t => { t with dirty := update t.dirty i true }
  | logGuard {p : Pid} {i : Fin NBUF} : s.ready p → s.holds p i →
      Calls s (.logGuard p i) _ logGuard fun _ t => t.setAct p (some (.logging i))
  | logLocked {p : Pid} {i : Fin NBUF} : (s.proc p).act = some (.logging i) →
      Calls s (.logLocked p) _ (logLocked i) fun _ t => (t.setAct p none).stored i
  | unlock {p : Pid} {i : Fin NBUF} : s.ready p → s.holds p i → s.dirty i = false →
      Calls s (.unlock p i) _ (brelseUnlock p i) fun _ t => t.setAct p (some (.releasing i))
  | unref {p : Pid} {i : Fin NBUF} : (s.proc p).act = some (.releasing i) →
      Calls s (.unref p) _ (brelseUnref i) fun _ t => t.setAct p none
  | endOp {p : Pid} : s.ready p → (∀ i, ¬ s.holds p i) → Calls s (.endOp p) _ (endOp p) fun _ t =>
      if s.k.log.outstanding = 1 then (t.setProc p {}).committed else t.setProc p {}

theorem step_calls {e : Event} (hs : step s e = some t) :
    s.panicked = none ∧ ∃ α x f, Calls s e α x f ∧ s.call x f = some t := by
  unfold step at hs
  split_ifs at hs with hnone
  refine ⟨by simpa using hnone, ?_⟩
  cases e <;> simp only [next, Option.ite_none_left_eq_some, Option.ite_none_right_eq_some] at hs
  case beginOp p => exact ⟨_, _, _, .beginOp (by simpa using hs.1), hs.2⟩
  case bget p b => exact ⟨_, _, _, .bget hs.1.1 hs.1.2, hs.2⟩
  case modify p i d => exact ⟨_, _, _, .modify hs.1.1 hs.1.2, hs.2⟩
  case logGuard p i => exact ⟨_, _, _, .logGuard hs.1.1 hs.1.2, hs.2⟩
  case unlock p i => exact ⟨_, _, _, .unlock hs.1.1 hs.1.2.1 hs.1.2.2, hs.2⟩
  case endOp p => exact ⟨_, _, _, .endOp hs.1.1 hs.1.2, hs.2⟩
  -- the other events continue what the process is in the middle of
  all_goals
    split at hs
    on_goal 2 => cases hs
    rename_i ha
  · exact ⟨_, _, _, .acquire ha, hs⟩
  · exact ⟨_, _, _, .fill ha, hs⟩
  · exact ⟨_, _, _, .logLocked ha, hs⟩
  · exact ⟨_, _, _, .unref ha, hs⟩

theorem inv_step {e : Event} (h : Inv L d0 s) (hs : step s e = some t) (hp : t.panicked = none)
    (hfit : HeaderFits s e) : Inv L d0 t := by
  obtain ⟨-, α, x, f, hc, hcall⟩ := step_calls hs
  obtain ⟨a, k, hk, rfl⟩ := call_ok hcall hp
  cases hc with
  | beginOp hin => exact inv_beginOp h hin hk
  | bget hr hb => exact inv_bget h hr hb hk
  | acquire ha =>
    unfold acquiresleep at hk
    split at hk
    · obtain ⟨-, rfl⟩ := EStateM.Result.ok.inj hk
      exact inv_acquire h ha ‹_›
    · cases hk
  | fill ha => exact inv_fill h ha hk
  | modify hr hl =>
    obtain ⟨-, rfl⟩ := EStateM.Result.ok.inj hk
    exact inv_modify h hr hl _
  | logGuard hr hl =>
    obtain rfl := logGuard_ok hk
    exact inv_logGuard h hr hl
  | logLocked ha => exact inv_logLocked h ha hk
  | unlock hr hl hd =>
    rw [brelseUnlock_of_held hl] at hk
    obtain ⟨-, rfl⟩ := EStateM.Result.ok.inj hk
    exact inv_unlock h hr hl hd
  | unref ha => exact inv_unref h ha hk
  | endOp hr hfree => exact inv_endOp h hr hfree hfit hk

end Xv6.Client

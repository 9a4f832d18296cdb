import Xv6.Log.Crash

/-!
# Reference counts after recovery

`commit()` and recovery share `install_trans`, which drops the pin of each home block. In recovery no block
was pinned: `bread` takes the one reference there is, `bunpin` drops it, and `brelse` decrements a count that
is zero. So a boot leaves exact counts if and only if it finds no entries in the log header. After a boot that finds
some, the pin of `log_write` does not keep a buffer, and updates are lost.
-/

namespace Xv6

open Hoare (Triple Keeps)

/-- A count was decremented at zero. -/
def Kernel.Wrapped (k : Kernel) : Prop := k.bcache.wrapped = true

variable {p : Nat} {d : Blocks} {sb : Superblock}

/-! ## A count that has wrapped stays known -/

theorem keeps_bget (dev b : Nat) : Keeps Kernel.Wrapped (bget dev b) := by
  intro k hk
  rcases bget_cases dev b k with ⟨i, -, heq⟩ | ⟨i, -, -, heq⟩ | ⟨-, heq⟩ <;> rw [heq] <;> exact hk

theorem keeps_acquiresleep (p : Nat) (i : Fin NBUF) : Keeps Kernel.Wrapped (acquiresleep p i) := by
  intro k hk
  unfold acquiresleep
  split <;> exact hk

theorem keeps_fill (i : Fin NBUF) : Keeps Kernel.Wrapped (fill i) := by
  intro k hk
  unfold fill
  split_ifs <;> exact hk

theorem keeps_bread (p dev b : Nat) : Keeps Kernel.Wrapped (bread p dev b) :=
  (keeps_bget dev b).bind fun i => (keeps_acquiresleep p i).bind fun _ => (keeps_fill i).bind fun _ _ hk => hk

theorem keeps_bwrite (p : Nat) (i : Fin NBUF) : Keeps Kernel.Wrapped (bwrite p i) := by
  intro k hk
  unfold bwrite
  simp only
  split_ifs <;> exact hk

theorem wrapped_unref {c : Bcache} (h : c.wrapped = true) (i : Fin NBUF) : (c.unref i).wrapped = true := by
  simp [Bcache.unref, h]

theorem keeps_bunpin (i : Fin NBUF) : Keeps Kernel.Wrapped (bunpin i) := fun _ hk => wrapped_unref hk i

theorem keeps_brelse (p : Nat) (i : Fin NBUF) : Keeps Kernel.Wrapped (brelse p i) := by
  refine .bind (fun k hk => ?_) fun _ k hk => ?_
  · unfold brelseUnlock
    split_ifs <;> exact hk
  · change Bcache.wrapped (if _ then _ else _) = true
    split_ifs
    · exact wrapped_unref hk i
    · exact wrapped_unref hk i

theorem keeps_installBlock (p : Nat) (log : Log) (tail : Nat) :
    Keeps Kernel.Wrapped (installBlock p log tail) := by
  refine (keeps_bread p _ _).bind fun lbuf => (keeps_bread p _ _).bind fun dbuf => ?_
  refine .bind (fun _ hk => hk) fun data => .bind (fun _ hk => hk) fun _ => ?_
  refine (keeps_bwrite p dbuf).bind fun _ => (keeps_bunpin dbuf).bind fun _ => ?_
  exact (keeps_brelse p lbuf).bind fun _ => keeps_brelse p dbuf

theorem keeps_writeHead (p : Nat) : Keeps Kernel.Wrapped (writeHead p) := by
  refine .bind (fun _ hk => hk) fun log => (keeps_bread p _ _).bind fun buf => ?_
  refine .bind (fun _ hk => hk) fun hb => .bind (fun _ hk => hk) fun _ => ?_
  exact (keeps_bwrite p buf).bind fun _ => keeps_brelse p buf

/-! ## The first block installed -/

theorem recoverFromLog_wraps {b : Nat} {bs : List Nat} (hhead : headEntries (d sb.logstart) = b :: bs)
    (hb : b ≠ sb.logstart + 1) :
    Triple (At ROOTDEV p d { view := d } (bootLog sb) [] noHold) (recoverFromLog p)
      (fun _ => Kernel.Wrapped) fun _ => Kernel.Wrapped := by
  have hE : ∀ (L : Log) hold e s, HoldsOne hold → At ROOTDEV p d { view := d } L [] hold s →
      s.bcache.unused = none → (fun _ => Kernel.Wrapped : Halt → Kernel → Prop) e s :=
    fun L hold e s hone hs hu => absurd hu (hs.has_unused hone rfl rfl)
  refine .bind (readHead_spec rfl List.not_mem_nil fun e s => hE _ _ e s holdsOne_noHold) fun _ => ?_
  rw [show headEntries (d (bootLog sb).start) = b :: bs from hhead]
  refine .bind (Q := fun _ => Kernel.Wrapped) ?_ fun _ => ?_
  · refine .bind_fact getLog_spec fun l hl => ?_
    rw [hl]
    -- the first iteration leaves `b` without the reference that `brelse` drops
    have hb' : ({ bootLog sb with lh := b :: bs } : Log).lh.getD 0 0 = b := rfl
    refine .bind ((installBlock_spec rfl List.not_mem_nil hb' List.not_mem_nil hb (hE _)).imp
      (fun _ h => h) (fun _ s h => ?_) fun _ _ h => h) fun _ => Keeps.loop (keeps_installBlock p _) 1 bs.length
    refine h.lost b ?_ fun i x hi => by cases hi
    simp [Ghost.install, Ghost.unpin]
  · exact Keeps.bind (Keeps.bind (fun _ hk => hk) fun _ _ hk => hk) fun _ => keeps_writeHead p

end Xv6

namespace Xv6.Client

open Machine (Run)

/-- Reference counts are exact from boot on disk `d` onwards: no count is decremented at zero during
recovery, recovery returns with all buffers free, and later a locked buffer is referenced and is not
recycled. -/
structure RefcntsExact (p : Nat) (sb : Superblock) (d : Blocks) : Prop where
  recovery : ¬ (lastState (initlog p ROOTDEV sb (boot d))).Wrapped
  after : ∃ k, initlog p ROOTDEV sb (boot d) = .ok () k ∧ (∀ i, (k.bcache.buf i).refcnt = 0) ∧
    ∀ es s, Run step Machine.any (start k) es s → s.panicked = none →
      ∀ i q, (s.k.bcache.buf i).lock = some q → 1 ≤ (s.k.bcache.buf i).refcnt ∧ Kept s.k i

variable {p : Nat} {d : Blocks} {sb : Superblock}

theorem refcntsExact_of_empty (hsb : LOGSIZE ≤ sb.nlog) (hempty : headEntries (d sb.logstart) = []) :
    RefcntsExact p sb d := by
  have hsize : 0 < sb.nlog := Nat.lt_of_lt_of_le (by decide) hsb
  obtain ⟨k, hk, hat⟩ := initlog_empty hempty
  constructor
  · rw [hk, lastState, Kernel.Wrapped, hat.safe rfl]
    exact Bool.false_ne_true
  · refine ⟨k, hk, fun i => hat.free_refcnt rfl rfl rfl, fun es s hrun hp i q hl => ?_⟩
    have hinv := (inv_of_run (fun s e h _ => headerFits_of_size h hsb) (inv_start hsize hempty hk) hrun).2 hp
    have hne := hinv.refcnt_of_lock hl
    exact ⟨Nat.one_le_iff_ne_zero.mpr hne, kept_of_refcnt hne⟩

theorem wrapped_of_entry {b : Nat} {bs : List Nat} (hhead : headEntries (d sb.logstart) = b :: bs)
    (hb : b ≠ sb.logstart + 1) : (lastState (initlog p ROOTDEV sb (boot d))).Wrapped := by
  have hout := recoverFromLog_wraps hhead hb _ (at_initlog (p := p))
  rw [← initlog_eq] at hout
  cases hr : initlog p ROOTDEV sb (boot d) with
  | ok a k => rw [hr] at hout; exact hout
  | error e k => rw [hr] at hout; exact hout

/-- For every header whose entries are home blocks outside the log area, boot leaves exact reference counts
if and only if the header has no entries. -/
theorem refcnts_exact_iff (p : Nat) (sb : Superblock) (hsb : LOGSIZE ≤ sb.nlog) (d : Blocks)
    (hhome : ∀ b ∈ headEntries (d sb.logstart), ¬ (bootLog sb).area b) :
    RefcntsExact p sb d ↔ headEntries (d sb.logstart) = [] := by
  refine ⟨fun h => ?_, refcntsExact_of_empty hsb⟩
  cases hhead : headEntries (d sb.logstart) with
  | nil => rfl
  | cons b bs =>
    have hL : LOGSIZE = 30 := rfl
    have hb : b ≠ sb.logstart + 1 := by
      rintro rfl
      refine hhome (sb.logstart + 1) (by rw [hhead]; exact List.mem_cons_self) ⟨Nat.le_succ _, ?_⟩
      change sb.logstart + 1 < sb.logstart + sb.nlog
      omega
    exact absurd (wrapped_of_entry hhead hb) h.recovery

/-- A disk whose log header has the one entry 100, as a crash after the header write of `commit()` leaves it. -/
def loggedDisk : Blocks :=
  Function.update zeroDisk Mkfs.sb.logstart (putHead (zeroDisk Mkfs.sb.logstart) [100])

theorem refcnts_exact_iff_zeroDisk : RefcntsExact 1 Mkfs.sb zeroDisk :=
  (refcnts_exact_iff 1 Mkfs.sb (by decide) zeroDisk
    (by rw [show headEntries (zeroDisk Mkfs.sb.logstart) = [] by decide +kernel]; exact fun _ h => by cases h)).mpr
    (by decide +kernel)

/-- Recovery of one block returns with a buffer that nobody holds and whose count is `2^32 - 1`. -/
theorem refcnt_wraps : headEntries (loggedDisk Mkfs.sb.logstart) = [100] ∧ ¬ (bootLog Mkfs.sb).area 100 ∧
    ∃ k, initlog 1 ROOTDEV Mkfs.sb (boot loggedDisk) = .ok () k ∧
      (∃ i, (k.bcache.buf i).lock = none ∧ (k.bcache.buf i).refcnt = 2 ^ 32 - 1) ∧ k.Wrapped := by
  obtain ⟨k, hk, hbuf⟩ : ∃ k, initlog 1 ROOTDEV Mkfs.sb (boot loggedDisk) = .ok () k ∧
      ∃ i, (k.bcache.buf i).lock = none ∧ (k.bcache.buf i).refcnt = 2 ^ 32 - 1 := by decide +kernel
  have hhead : headEntries (loggedDisk Mkfs.sb.logstart) = [100] := by decide +kernel
  have hwrap := wrapped_of_entry (p := 1) hhead (by decide)
  rw [hk] at hwrap
  exact ⟨hhead, by decide, k, hk, hbuf, hwrap⟩

/-! ## Updates that are lost after a recovery -/

/-- Process 0 stores block 100 and reads 30 other blocks, the last of which gets the buffer of block 100: its count was
`2^32 - 1`, so that it is zero again after `bget`, `bpin` and `brelse`. -/
def crowdOut : List Event :=
  let p : Pid := ⟨0, NPROC_pos⟩
  let i : Fin NBUF := ⟨2, by decide⟩
  [.beginOp p, .bget p 100, .acquire p, .fill p, .modify p i fun _ => 9, .logGuard p i, .logLocked p, .unlock p i,
    .unref p] ++
    ((List.finRange NBUF).drop 3 ++ ((List.finRange NBUF).take 2).reverse ++ [i]).flatMap fun j =>
      [.bget p (200 + j), .acquire p, .fill p, .unlock p j, .unref p]

/-- After a boot that recovers block 100, `commit()` of a transaction on that block returns and the block keeps its old
contents, without any crash. -/
theorem commit_lost : ∃ k s k', initlog 1 ROOTDEV Mkfs.sb (boot loggedDisk) = .ok () k ∧
    Run step GroupsFit (start k) (crowdOut ++ [.endOp ⟨0, NPROC_pos⟩]) s ∧ s.panicked = none ∧
    initlog 1 ROOTDEV Mkfs.sb (boot s.k.disk) = .ok () k' ∧
    ¬ ∃ j, j ≤ s.txs.length ∧ (∀ n c, s.done[n]? = some c → c.time ≤ s.k.writes.length → n < j) ∧
      ∀ b, ¬ (bootLog Mkfs.sb).area b → k'.disk b = s.after k.disk j b := by
  obtain ⟨k, hboot, s, hrun, hp, hlen, ⟨c, hc, htime⟩, hone, htwo, k', hrec, hold⟩ :
      ∃ k, initlog 1 ROOTDEV Mkfs.sb (boot loggedDisk) = .ok () k ∧
      ∃ s, Run step GroupsFit (start k) (crowdOut ++ [.endOp ⟨0, NPROC_pos⟩]) s ∧ s.panicked = none ∧ s.txs.length = 2 ∧
        (∃ c ∈ s.done[0]?, c.time ≤ s.k.writes.length) ∧ (s.after k.disk 1 100).get 0 = 9 ∧
        (s.after k.disk 2 100).get 0 = 9 ∧
        ∃ k', initlog 1 ROOTDEV Mkfs.sb (boot s.k.disk) = .ok () k' ∧ (k'.disk 100).get 0 = 0 := by decide +kernel
  refine ⟨k, s, k', hboot, hrun, hp, hrec, fun ⟨j, hj, hdone, hdisk⟩ => ?_⟩
  have h0 := hdone 0 c hc htime
  have h100 : (s.after k.disk j 100).get 0 = 0 := by rw [← hdisk 100 (by decide)]; exact hold
  obtain rfl | rfl : j = 1 ∨ j = 2 := by omega
  · exact absurd (h100.symm.trans hone) (by decide)
  · exact absurd (h100.symm.trans htwo) (by decide)

/-- What the last call of `bread` has returned. -/
def lastReturned (hist : List Obs) : Option (Nat × Block) :=
  match hist.getLast? with
  | some (.returned b d) => some (b, d)
  | _ => none

theorem getLast?_of_lastReturned {hist : List Obs} {r : Nat × Block} (h : lastReturned hist = some r) :
    hist.getLast? = some (.returned r.1 r.2) := by
  unfold lastReturned at h
  split at h <;> cases h
  assumption

/-- After such a boot, `bread` of block 100 returns its contents before the last `log_write`, which is not
committed yet. -/
theorem bread_stale : ∃ k s, initlog 1 ROOTDEV Mkfs.sb (boot loggedDisk) = .ok () k ∧
    Run step Machine.any (start k)
      (crowdOut ++ [.bget ⟨0, NPROC_pos⟩ 100, .acquire ⟨0, NPROC_pos⟩, .fill ⟨0, NPROC_pos⟩]) s ∧
    s.panicked = none ∧ 100 ∈ s.k.log.lh ∧ ¬ ReadsLatest k.disk s.hist := by
  obtain ⟨k, hboot, s, hrun, hp, hlh, ⟨b, d⟩, hr, rfl, hd, hlatest⟩ :
      ∃ k, initlog 1 ROOTDEV Mkfs.sb (boot loggedDisk) = .ok () k ∧
      ∃ s, Run step Machine.any (start k)
          (crowdOut ++ [.bget ⟨0, NPROC_pos⟩ 100, .acquire ⟨0, NPROC_pos⟩, .fill ⟨0, NPROC_pos⟩]) s ∧
        s.panicked = none ∧ 100 ∈ s.k.log.lh ∧ ∃ r ∈ lastReturned s.hist, r.1 = 100 ∧ r.2.get 0 = 0 ∧
          (latest k.disk s.hist.dropLast 100).get 0 = 9 := by decide +kernel
  refine ⟨k, s, hboot, hrun, hp, hlh, fun hreads => ?_⟩
  have hlost := hreads s.hist.dropLast 100 d [] (List.dropLast_append_getLast? _ (getLast?_of_lastReturned hr)).symm
  have hnine : d.get 0 = 9 := (congrArg (Bytes.get · 0) hlost).trans hlatest
  exact absurd (hd.symm.trans hnine) (by decide)

end Xv6.Client

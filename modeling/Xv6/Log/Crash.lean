import Xv6.Log.Refine

/-!
# Crash atomicity of the log

A crash stops the machine between two block writes, so what is left is the disk after some prefix of the
writes made so far. Reboots run `initlog`, each of which may crash in the same way, until one of them
completes. The home blocks are then those of a prefix of the transactions, with every transaction whose
`commit()` had returned before the crash: each prefix of the writes leaves a disk that is durable for such
a state (`Redo.Layout.Durable`), and recovery keeps that.
-/

namespace Xv6.Client

open Machine (Run)

/-- The state a computation ended in, whether it returned or not. -/
def lastState {ε σ α : Type} : EStateM.Result ε σ α → σ
  | .ok _ s => s
  | .error _ s => s

/-- `d'` is left of disk `d` after any number of reboots that crashed during recovery. -/
inductive Crashed (sb : Superblock) (d : Blocks) : Blocks → Prop
  | here : Crashed sb d d
  | again {d' : Blocks} {p : Nat} {ws : List (Nat × Block)} : Crashed sb d d' →
      ws <+: (lastState (initlog p ROOTDEV sb (boot d'))).writes → Crashed sb d (Redo.apply d' ws)

/-- The transactions of a run, the one in progress last. -/
def Sys.txs (s : Sys) : List Tx := s.done.map (·.tx) ++ [s.cur]

/-- The blocks after the first `j` transactions. -/
def Sys.after (d : Blocks) (s : Sys) (j : Nat) : Blocks := Redo.apply d (s.txs.take j).flatten

variable {d d' t t' : Blocks} {sb : Superblock} {L : Log} {s : Sys} {ws : List (Nat × Block)}

theorem after_done (s : Sys) : s.after d s.done.length = s.base d := by
  rw [Sys.after, Sys.base, Sys.txs, List.take_left' (by simp), List.flatMap]

theorem after_all (s : Sys) : s.after d (s.done.length + 1) = s.flat d := by
  rw [Sys.after, Sys.flat, Sys.base, Sys.txs, List.take_of_length_le (by simp), List.flatten_append,
    List.flatten_singleton, Redo.apply_append, List.flatMap]

/-! ## Recovery -/

theorem durable_congr (h : L.layout.Durable d t) (ht : ∀ b, L.layout.home b → t' b = t b) :
    L.layout.Durable d t' where
  fits := h.fits
  slots k b hk := by
    rw [ht b (h.fits.home b (List.mem_of_getElem? hk))]
    exact h.slots k b hk
  rest b hb hn := by rw [ht b hb]; exact h.rest b hb hn

theorem headEntries_clear (hb : Block) : headEntries (putHead hb []) = [] :=
  headEntries_putHead hb (Nat.zero_le _) fun b h => by cases h

theorem durable_crashed (h : (bootLog sb).layout.Durable d t) (hc : Crashed sb d d') :
    (bootLog sb).layout.Durable d' t := by
  induction hc with
  | here => exact h
  | @again d' p ws _ hws ih =>
    have hout := initlog_outcome (p := p) ih.fits
    have hpre : (lastState (initlog p ROOTDEV sb (boot d'))).writes <+: (bootLog sb).recoveryWrites d' := by
      cases hr : initlog p ROOTDEV sb (boot d') with
      | ok a k => rw [hr] at hout; rw [lastState, hout.1]
      | error e k => rw [hr] at hout; exact hout
    exact ih.replay_cut (e := putHead (d' sb.logstart) [])
      (headEntries_clear (d' sb.logstart)) (hws.trans hpre)

theorem recovered (h : (bootLog sb).layout.Durable d t) {p : Nat} {k : Kernel}
    (hrec : initlog p ROOTDEV sb (boot d) = .ok () k) {b : Nat} (hb : (bootLog sb).layout.home b) :
    k.disk b = t b := by
  have hout := initlog_outcome (p := p) h.fits
  rw [hrec] at hout
  rw [hout.2]
  exact ((h.replay_done (e := putHead (d sb.logstart) []) (headEntries_clear (d sb.logstart))).2 b hb).symm

/-! ## Commit -/

theorem layout_congr {L' : Log} (hstart : L'.start = L.start) (hsize : L'.size = L.size) :
    L'.layout = L.layout := by
  cases L
  cases L'
  subst hstart hsize
  rfl

theorem Inv.layout (h : Inv L d s) : s.k.log.layout = L.layout := layout_congr h.place.1 h.place.2.1

theorem Inv.merge_eq_flat (h : Inv L d s) {b : Nat} (hb : ¬ s.k.log.area b) :
    s.flat d b = Redo.Layout.merge (s.base d) s.k.log.lh (s.ghost d).view b := by
  rw [Redo.Layout.merge]
  split_ifs with hm
  · exact (view_of_client (h.client b hm)).symm
  · rw [Sys.flat, Redo.apply_of_not_mem]
    rintro ⟨c, x⟩ hw rfl
    exact hm ((h.logged c).mpr ⟨x, hw⟩)

theorem Inv.crash_cut (h : Inv L d s) (hsize : s.k.log.n + 1 ≤ s.k.log.size)
    (hws : ws <+: s.k.log.commitWrites (s.ghost d)) :
    L.layout.Durable (Redo.apply d (s.k.writes ++ ws)) (s.base d) ∨
      L.layout.Durable (Redo.apply d (s.k.writes ++ ws)) (s.flat d) := by
  have hhome : ∀ b, s.k.log.layout.home b → ¬ s.k.log.area b := fun b => (Log.layout_home h.size).mp
  have hfull : headEntries (s.k.log.headFull (s.ghost d)) = s.k.log.lh :=
    headEntries_putHead _ h.n_le fun b hb => (h.client b hb).2
  have hpre := Redo.Layout.commit_cut
    (v := (s.ghost d).view) (f := s.k.log.headFull (s.ghost d)) (e := s.k.log.headClear (s.ghost d))
    h.head (fun b hb => (h.base b (hhome b hb)).symm)
    (h.fits hsize) hfull (headEntries_clear (s.k.log.headFull (s.ghost d))) hws
  rw [Redo.apply_append, ← h.disk, ← h.layout]
  exact hpre.imp id fun hnew => durable_congr hnew fun b hb => h.merge_eq_flat (hhome b hb)

theorem Inv.crash_done (h : Inv L d s) (hsize : s.k.log.n + 1 ≤ s.k.log.size) :
    L.layout.Durable (Redo.apply d (s.k.writes ++ s.k.log.commitWrites (s.ghost d))) (s.flat d) := by
  obtain ⟨hhead, hdisk⟩ := h.committed_disk hsize
  rw [← h.layout]
  exact Redo.Layout.durable_of_clean hhead fun b hb => (hdisk b ((Log.layout_home h.size).mp hb)).symm

theorem Inv.crash_now (h : Inv L d s) : L.layout.Durable (Redo.apply d s.k.writes) (s.base d) := by
  rw [← h.layout, ← h.disk]
  exact Redo.Layout.durable_of_clean h.head fun b hb => (h.base b ((Log.layout_home h.size).mp hb)).symm

/-! ## Runs -/

/-- Each group of operations logs at most `log.size - 1` blocks. -/
def GroupsFit (s : Sys) : Event → Prop
  | .endOp _ => s.k.log.n + 1 ≤ s.k.log.size
  | _ => True

instance (s : Sys) (e : Event) : Decidable (GroupsFit s e) := by
  cases e <;> unfold GroupsFit <;> infer_instance

/-- The disk after the writes `ws` is durable for a prefix of the transactions that has every transaction
whose `commit()` returned before. -/
def DurableAt (L : Log) (d : Blocks) (s : Sys) (ws : List (Nat × Block)) (j : Nat) : Prop :=
  (∀ n c, s.done[n]? = some c → c.time ≤ ws.length → n < j) ∧ L.layout.Durable (Redo.apply d ws) (s.after d j)

/-- What every prefix of the writes leaves; a transaction in progress can only be durable when its
`commit()` was stopped by a panic. -/
def CrashInv (L : Log) (d : Blocks) (s : Sys) : Prop :=
  ∀ ws, ws <+: s.k.writes → ∃ j, j ≤ s.done.length + 1 ∧
    (s.panicked = none → j ≤ s.done.length) ∧ DurableAt L d s ws j

/-- What a step that returns does to the disk and the transactions. -/
inductive Progress (d : Blocks) (s t : Sys) : Prop
  | quiet : t.k.writes = s.k.writes → t.done = s.done → Progress d s t
  | commit : s.k.log.n + 1 ≤ s.k.log.size →
      t.k.writes = s.k.writes ++ s.k.log.commitWrites (s.ghost d) →
      t.done = s.done ++ [⟨s.cur, t.k.writes.length⟩] → t.cur = [] → Progress d s t

theorem Inv.endOp_cases (h : Inv L d s) {p : Pid} (hr : s.ready p) (hfree : ∀ i, ¬ s.holds p i)
    (hsize : s.k.log.n + 1 ≤ s.k.log.size) :
    (∃ k, endOp p s.k = .ok () k ∧ k.writes = s.k.writes ∧ (s.k.log.outstanding = 1 → s.cur = [])) ∨
      (s.k.log.outstanding = 1 ∧ s.cur ≠ []) ∧ Hoare.Outcome
        (fun _ k => k.writes = s.k.writes ++ s.k.log.commitWrites (s.ghost d))
        (fun _ k => ∃ ws, ws <+: s.k.log.commitWrites (s.ghost d) ∧ k.writes = s.k.writes ++ ws)
        (endOp p s.k) := by
  by_cases ho : s.k.log.outstanding = 1
  · by_cases hlh : s.k.log.lh = []
    · refine .inl ⟨_, endOp_empty p h.committing ho hlh, rfl, fun _ => ?_⟩
      refine List.eq_nil_iff_forall_not_mem.mpr fun w hw => ?_
      have := (h.logged w.1).mpr ⟨w.2, hw⟩
      simp [hlh] at this
    · refine .inr ⟨⟨ho, fun hcur => ?_⟩, ?_⟩
      · obtain ⟨b, hb⟩ := List.exists_mem_of_ne_nil _ hlh
        obtain ⟨x, hx⟩ := (h.logged b).mp hb
        simp [hcur] at hx
      · have hout := h.commit_outcome hr hfree ho (List.length_pos_iff.mpr hlh) hsize
        cases hend : endOp p s.k with
        | ok a k =>
          rw [hend] at hout
          obtain ⟨g', -, -, hat⟩ := hout
          exact hat.writes
        | error e k =>
          rw [hend] at hout
          exact hout
  · exact .inl ⟨_, endOp_some p h.committing ho, rfl, fun h1 => absurd h1 ho⟩

theorem Inv.progress {t : Sys} {e : Event} (h : Inv L d s) (hs : step s e = some t) (hp : t.panicked = none)
    (hfit : GroupsFit s e) : Progress d s t := by
  obtain ⟨-, α, x, f, hc, hcall⟩ := step_calls hs
  obtain ⟨a, k, hk, rfl⟩ := call_ok hcall hp
  by_cases he : ∃ p, e = .endOp p
  · obtain ⟨p, rfl⟩ := he
    cases hc with
    | endOp hr hfree =>
      beta_reduce
      rcases h.endOp_cases hr hfree hfit with ⟨k', hk', hw, hcur⟩ | ⟨⟨ho, hcur⟩, hout⟩
      · obtain ⟨-, rfl⟩ := EStateM.Result.ok.inj (hk.symm.trans hk')
        split_ifs with ho
        · rw [Sys.committed, if_pos (by exact hcur ho)]
          exact .quiet hw rfl
        · exact .quiet hw rfl
      · rw [hk] at hout
        rw [if_pos ho, Sys.committed, if_neg (by exact hcur)]
        exact .commit hfit hout rfl rfl
  · have hwrites := hc.clean (fun p hp => he ⟨p, hp⟩) s.k
    rw [hk] at hwrites
    cases hc with
    | endOp => exact absurd ⟨_, rfl⟩ he
    | _ => exact .quiet hwrites rfl

theorem after_of_done {t : Sys} {j : Nat} (h : s.done <+: t.done) (hj : j ≤ s.done.length) :
    t.after d j = s.after d j := by
  obtain ⟨cs, hcs⟩ := h
  have hs : j ≤ (s.done.map (·.tx)).length := by simpa using hj
  have ht : j ≤ (t.done.map (·.tx)).length := by
    rw [← hcs, List.map_append, List.length_append]
    omega
  rw [Sys.after, Sys.after, Sys.txs, Sys.txs, List.take_append_of_le_length hs,
    List.take_append_of_le_length ht, ← hcs, List.map_append, List.take_append_of_le_length hs]

theorem DurableAt.mono {t : Sys} {j : Nat} (h : DurableAt L d s ws j) (hdone : s.done <+: t.done)
    (hj : j ≤ s.done.length) (hlate : ∀ n c, s.done.length ≤ n → t.done[n]? = some c → ws.length < c.time) :
    DurableAt L d t ws j := by
  refine ⟨fun n c hc htime => ?_, by rw [after_of_done hdone hj]; exact h.2⟩
  by_cases hn : n < s.done.length
  · obtain ⟨cs, hcs⟩ := hdone
    rw [← hcs, List.getElem?_append_left hn] at hc
    exact h.1 n c hc htime
  · have := hlate n c (by omega) hc
    omega

theorem durableAt_of_length {j : Nat} (h : L.layout.Durable (Redo.apply d ws) (s.after d j))
    (hj : s.done.length ≤ j) : DurableAt L d s ws j := by
  refine ⟨fun n c hc _ => ?_, h⟩
  obtain ⟨hn, -⟩ := List.getElem?_eq_some_iff.mp hc
  omega

theorem commitWrites_ne_nil (l : Log) (g : Ghost) : l.commitWrites g ≠ [] := by
  simp [Log.commitWrites, Redo.Layout.commit]

theorem Inv.crash_step {t : Sys} {e : Event} (h : Inv L d s) (hc : CrashInv L d s) (hnone : s.panicked = none)
    (hs : step s e = some t) (hp : t.panicked = none) (hfit : GroupsFit s e) : CrashInv L d t := by
  intro ws hws
  rcases h.progress hs hp hfit with ⟨hw, hdone⟩ | ⟨hsize, hw, hdone, hcur⟩
  · rw [hw] at hws
    obtain ⟨j, -, hj, hat⟩ := hc ws hws
    have hj := hj hnone
    refine ⟨j, by rw [hdone]; omega, fun _ => by rw [hdone]; exact hj,
      hat.mono (by rw [hdone]) hj fun n c hn hget => ?_⟩
    simp [hdone, List.getElem?_eq_none hn] at hget
  · have hlen : t.done.length = s.done.length + 1 := by rw [hdone, List.length_append, List.length_singleton]
    have hpre : s.done <+: t.done := by rw [hdone]; exact List.prefix_append _ _
    -- the new commit is the last one, and its time is the whole list of writes
    have hlate : ∀ n c, s.done.length ≤ n → t.done[n]? = some c → c.time = t.k.writes.length := by
      intro n c hn hget
      rw [hdone, List.getElem?_append_right hn] at hget
      rw [List.mem_singleton.mp (List.mem_of_getElem? hget)]
    have hbase : t.after d s.done.length = s.base d := (after_of_done hpre (Nat.le_refl _)).trans (after_done s)
    have hflat : t.after d t.done.length = s.flat d := by
      rw [after_done, Sys.base, Sys.flat, Sys.base, hdone, List.flatMap_append, Redo.apply_append,
        List.flatMap_singleton]
    have hpos := List.length_pos_iff.mpr (commitWrites_ne_nil s.k.log (s.ghost d))
    have hwlen : t.k.writes.length = s.k.writes.length + (s.k.log.commitWrites (s.ghost d)).length := by
      rw [hw, List.length_append]
    by_cases hall : ws.length = t.k.writes.length
    · refine ⟨t.done.length, by omega, fun _ => Nat.le_refl _, durableAt_of_length ?_ (Nat.le_refl _)⟩
      rw [hflat, hws.eq_of_length hall, hw]
      exact h.crash_done hsize
    · have hshort : ws.length < t.k.writes.length := lt_of_le_of_ne hws.length_le hall
      have hlate' : ∀ n c, s.done.length ≤ n → t.done[n]? = some c → ws.length < c.time :=
        fun n c hn hget => by rw [hlate n c hn hget]; exact hshort
      rw [hw] at hws
      rcases Redo.prefix_append_cases hws with hws | ⟨zs, rfl, hzs⟩
      · obtain ⟨j, -, hj, hat⟩ := hc ws hws
        have hj := hj hnone
        exact ⟨j, by omega, fun _ => by omega, hat.mono hpre hj hlate'⟩
      · rcases h.crash_cut hsize hzs with hold | hnew
        · have hat : DurableAt L d s (s.k.writes ++ zs) s.done.length :=
            durableAt_of_length (by rwa [after_done]) (Nat.le_refl _)
          exact ⟨s.done.length, by omega, fun _ => by omega, hat.mono hpre (Nat.le_refl _) hlate'⟩
        · exact ⟨t.done.length, by omega, fun _ => Nat.le_refl _,
            durableAt_of_length (by rwa [hflat]) (Nat.le_refl _)⟩

theorem Inv.crash_panic {t : Sys} {e : Event} (h : Inv L d s) (hc : CrashInv L d s)
    (hs : step s e = some t) (hp : t.panicked ≠ none) (hfit : GroupsFit s e) : CrashInv L d t := by
  obtain ⟨m, k, rfl, ⟨p, rfl, hr, hfree, hend⟩ | rfl⟩ := step_panic hs hp
  · intro ws hws
    rcases h.endOp_cases hr hfree hfit with ⟨k', hk', -⟩ | ⟨-, hout⟩
    · cases hend.symm.trans hk'
    · rw [hend] at hout
      obtain ⟨zs, hzs, hw⟩ := hout
      rw [show (({ s with k, panicked := some m } : Sys).k.writes) = k.writes from rfl, hw] at hws
      rcases Redo.prefix_append_cases hws with hws | ⟨ys, rfl, hys⟩
      · obtain ⟨j, hj, -, hat⟩ := hc ws hws
        exact ⟨j, hj, fun hn => absurd hn hp, hat⟩
      · rcases h.crash_cut hfit (hys.trans hzs) with hold | hnew
        · rw [← after_done] at hold
          exact ⟨s.done.length, Nat.le_succ _, fun hn => absurd hn hp,
            durableAt_of_length hold (Nat.le_refl _)⟩
        · rw [← after_all] at hnew
          exact ⟨s.done.length + 1, Nat.le_refl _, fun hn => absurd hn hp,
            durableAt_of_length hnew (Nat.le_succ _)⟩
  · intro ws hws
    obtain ⟨j, hj, -, hat⟩ := hc ws hws
    exact ⟨j, hj, fun hn => absurd hn hp, hat⟩

theorem crashInv_start {p : Nat} {k : Kernel} (hsize : 0 < sb.nlog) (hempty : headEntries (d sb.logstart) = [])
    (hboot : initlog p ROOTDEV sb (boot d) = .ok () k) : CrashInv (bootLog sb) d (start k) := by
  obtain ⟨k', hk', hat⟩ := initlog_empty hempty
  obtain ⟨-, rfl⟩ := EStateM.Result.ok.inj (hboot.symm.trans hk')
  have hnow := (inv_start hsize hempty hboot).crash_now
  intro ws hws
  refine ⟨0, Nat.zero_le _, fun _ => Nat.le_refl _, durableAt_of_length ?_ (Nat.le_refl _)⟩
  rw [show (start k).after d 0 = d from rfl]
  rw [show (start k).k.writes = k.writes from rfl, hat.writes] at hws hnow
  rcases List.prefix_cons_iff.mp hws with rfl | ⟨zs, rfl, hnil⟩
  · exact Redo.Layout.durable_of_clean hempty fun _ _ => rfl
  · rw [List.prefix_nil.mp hnil]
    exact hnow

theorem crashInv_of_run {es : List Event} {s0 : Sys} (h0 : Inv L d s0) (hc : CrashInv L d s0)
    (hrun : Run step GroupsFit s0 es s) : CrashInv L d s := by
  refine (hrun.inv (I := fun _ s => CrashInv L d s ∧ (s.panicked = none → Inv L d s)) ⟨hc, fun _ => h0⟩
    fun es s e t _ ih hfit hs => ?_).1
  have hnone := (step_calls hs).1
  have hinv := ih.2 hnone
  by_cases hp : t.panicked = none
  · refine ⟨hinv.crash_step ih.1 hnone hs hp hfit, fun _ => inv_step hinv hs hp ?_⟩
    cases e
    case endOp => exact .inl hfit
    all_goals trivial
  · exact ⟨hinv.crash_panic ih.1 hs hp hfit, fun hn => absurd hn hp⟩

/-- Crash atomicity of the redo log. Take any run of clients in which no group logs more than
`log.size - 1` blocks, a crash after any number of its block writes, and any number of reboots that crash
during recovery. A recovery that completes then leaves in the home blocks the first `j` transactions, each
of them in full, for some `j` that counts every transaction whose `commit()` had returned. -/
theorem crash_atomic (p : Nat) (sb : Superblock) (hsize : 0 < sb.nlog) (d : Blocks)
    (hempty : headEntries (d sb.logstart) = []) (k : Kernel) (hboot : initlog p ROOTDEV sb (boot d) = .ok () k)
    (es : List Event) (s : Sys) (hrun : Run step GroupsFit (start k) es s) (ws : List (Nat × Block))
    (hws : ws <+: s.k.writes) (d' : Blocks) (hcrash : Crashed sb (Redo.apply d ws) d') (q : Nat) (k' : Kernel)
    (hrec : initlog q ROOTDEV sb (boot d') = .ok () k') :
    ∃ j, j ≤ s.txs.length ∧ (∀ n c, s.done[n]? = some c → c.time ≤ ws.length → n < j) ∧
      ∀ b, ¬ (bootLog sb).area b → k'.disk b = s.after d j b := by
  obtain ⟨j, hj, -, hdone, hdur⟩ := crashInv_of_run (inv_start hsize hempty hboot)
    (crashInv_start hsize hempty hboot) hrun ws hws
  refine ⟨j, by simpa [Sys.txs] using hj, hdone, fun b hb => ?_⟩
  exact recovered (durable_crashed hdur hcrash) hrec ((Log.layout_home hsize).mpr hb)

/-- The disk after a crash at the commit point of the first transaction, and a crash of the recovery after
its first write. -/
def crashedTwice (s : Sys) : Blocks :=
  let d := Redo.apply zeroDisk (s.k.writes.take 3)
  Redo.apply d ((lastState (initlog 1 ROOTDEV Mkfs.sb (boot d))).writes.take 1)

theorem crash_atomic_crashedTwice : ∃ k s k', initlog 1 ROOTDEV Mkfs.sb (boot zeroDisk) = .ok () k ∧
    Run step GroupsFit (start k) (storeAndRead.take 10) s ∧
    headEntries (crashedTwice s Mkfs.sb.logstart) = [100] ∧
    initlog 1 ROOTDEV Mkfs.sb (boot (crashedTwice s)) = .ok () k' ∧
    ∃ j, j ≤ s.txs.length ∧ (∀ n c, s.done[n]? = some c → c.time ≤ (s.k.writes.take 3).length → n < j) ∧
      ∀ b, ¬ (bootLog Mkfs.sb).area b → k'.disk b = s.after zeroDisk j b := by
  obtain ⟨k, hboot, s, hrun, hhead, k', hrec⟩ : ∃ k, initlog 1 ROOTDEV Mkfs.sb (boot zeroDisk) = .ok () k ∧
      ∃ s, Run step GroupsFit (start k) (storeAndRead.take 10) s ∧ headEntries (crashedTwice s Mkfs.sb.logstart) =
      [100] ∧ ∃ k', initlog 1 ROOTDEV Mkfs.sb (boot (crashedTwice s)) = .ok () k' := by decide +kernel
  exact ⟨k, s, k', hboot, hrun, hhead, hrec,
    crash_atomic 1 Mkfs.sb (by decide) zeroDisk (by decide +kernel) k hboot _ s hrun
      (s.k.writes.take 3) (List.take_prefix _ _) (crashedTwice s)
      (.again .here (List.take_prefix _ _)) 1 k' hrec⟩

end Xv6.Client

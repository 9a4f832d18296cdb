import Xv6.Log.GroupCommit
import Xv6.Superblock
import Mathlib.Algebra.Order.BigOperators.Group.Finset

/-!
# Log space

`begin_op` admits an operation when `lh.n + (outstanding + 1) * MAXOPBLOCKS <= LOGSIZE`. That reserves
`LOGSIZE` header entries for operations that keep to `MAXOPBLOCKS` blocks.
The log `mkfs` lays out has `LOGSIZE` blocks with its header block among them, so it
holds one block less, and `log_write` panics at `lh.n >= log.size - 1` before it looks whether the
block is in the header already. The panic is reached exactly when a group of operations calls
`log_write` after `LOGSIZE - 1` distinct blocks (`log_write_fits_iff`). Since the test is made without
the lock, two processes can pass it on the same `lh.n` and push the header past the log area; this
cannot happen while the blocks in the header and in the calls past the test fit it (`log_stays_inside`).
-/

namespace Xv6.GroupCommit

open Machine

variable {P : Type} [DecidableEq P]
variable {ok : Sys P → Event P → Prop} {es : List (Event P)} {s : Sys P} {size start : Nat}

/-- A file-system operation passes at most `MAXOPBLOCKS` distinct blocks to `log_write`. -/
def withinLimit (s : Sys P) : Event P → Prop
  | .logGuard p b => ∀ op ∈ (s.proc p).op?, (insert b op.used).card ≤ MAXOPBLOCKS
  | _ => True

instance (s : Sys P) : (e : Event P) → Decidable (withinLimit s e)
  | .logGuard p b =>
    inferInstanceAs (Decidable (∀ op ∈ (s.proc p).op?, (insert b op.used).card ≤ MAXOPBLOCKS))
  | .beginOp _ | .logLocked _ _ | .endOp _ | .commit _ _ => isTrue trivial

/-! ## The blocks of the current group -/

/-- The distinct blocks recorded by `log_write` since the header was last reset, read off the events. -/
def groupBlocks (es : List (Event P)) : Finset Nat :=
  es.foldl (fun bs e => match e with
    | .logLocked _ b => insert b bs
    | .commit _ .reset => ∅
    | _ => bs) ∅

omit [DecidableEq P] in
theorem groupBlocks_snoc (es : List (Event P)) (e : Event P) :
    groupBlocks (es ++ [e]) = match e with
      | .logLocked _ b => insert b (groupBlocks es)
      | .commit _ .reset => ∅
      | _ => groupBlocks es := by
  rw [groupBlocks, List.foldl_append]
  rfl

omit [DecidableEq P] in
theorem card_groupBlocks_le (es : List (Event P)) : (groupBlocks es).card ≤ es.length := by
  induction es using List.reverseRecOn with
  | nil => exact le_rfl
  | append_singleton es e ih =>
    rw [groupBlocks_snoc, List.length_append, List.length_singleton]
    split
    · exact (Finset.card_insert_le _ _).trans (Nat.succ_le_succ ih)
    · exact Nat.zero_le _
    · exact ih.trans (Nat.le_succ _)

theorem header_eq_group [Fintype P] (h : Run step ok (init P start size) es s) :
    s.log.lh.toFinset = groupBlocks es := by
  refine h.inv (I := fun es s => s.log.lh.toFinset = groupBlocks es) rfl ?_
  intro es t e u _ ih _ hs
  rw [groupBlocks_snoc]
  cases trans_of_step hs with
  | record p b op hp => rw [← ih]; exact Log.toFinset_record t.log b
  | commit p pc hp =>
    cases pc with
    | reset => rfl
    | _ => exact ih
  | _ => exact ih

theorem n_eq_card [Fintype P] (h : Run step ok (init P start size) es s) :
    s.log.n = (groupBlocks es).card := by
  rw [← header_eq_group h, List.toFinset_card_of_nodup (inv_of_run h).nodup]
  rfl

theorem log_fixed (h : Run step ok (init P start size) es s) : s.log.start = start ∧ s.log.size = size := by
  refine h.inv (I := fun _ s => s.log.start = start ∧ s.log.size = size) ⟨rfl, rfl⟩ ?_
  intro es t e u _ ih _ hs
  cases trans_of_step hs with
  | record p b op hp => exact ⟨(Log.record_start _ _).trans ih.1, (Log.record_size _ _).trans ih.2⟩
  | commit p pc hp => cases pc <;> exact ih
  | _ => exact ih

/-! ## When the panic in `log_write` is reached -/

/-- No `log_write` of the run panicked, and each found room in the header and in the log. -/
def LogWriteFits (es : List (Event P)) (s : Sys P) : Prop :=
  s.panicked ≠ some .tooBig ∧
  ∀ es₁ p b es₂ t, es = es₁ ++ .logGuard p b :: es₂ →
    Run step withinLimit (init P Mkfs.sb.logstart Mkfs.sb.nlog) es₁ t →
    t.log.n < LOGSIZE ∧ (t.log.n : Int) < (t.log.size : Int) - 1

theorem tooBig_iff {l : Log} (hsize : l.size = LOGSIZE) : l.tooBig = true ↔ LOGSIZE - 1 ≤ l.n := by
  simp only [Log.tooBig, hsize, Bool.or_eq_true, decide_eq_true_eq]
  have hL : LOGSIZE = 30 := rfl
  omega

theorem panics_iff {t : Sys P} {e : Event P} (hs : step s e = some t) :
    t.panicked = some .tooBig ↔ (∃ p b, e = .logGuard p b) ∧ s.log.tooBig = true := by
  have hnone := calm_of_step hs
  cases trans_of_step hs with
  | tooBig p b op hp hbig => exact ⟨fun _ => ⟨⟨p, b, rfl⟩, hbig⟩, fun _ => rfl⟩
  | outside p b op hp hbig hout => simp [Sys.panic, hbig]
  | pass p b op hp hbig => simp [Sys.setProc, hnone, hbig]
  | endPanic p op hp hc => simp [Sys.panic]
  | commit p pc hp => cases pc <;> simp [commit, Sys.setProc, Sys.wakeup, hnone]
  | sleep | enter | record | endLast | endSome => simp [logLocked, Sys.setProc, Sys.wakeup, hnone]

theorem panicked_iff [Fintype P] (h : Run step withinLimit (init P Mkfs.sb.logstart Mkfs.sb.nlog) es s) :
    s.panicked = some .tooBig ↔
      ∃ es₁ p b es₂, es = es₁ ++ .logGuard p b :: es₂ ∧ LOGSIZE - 1 ≤ (groupBlocks es₁).card := by
  refine h.inv (I := fun es s => s.panicked = some .tooBig ↔
    ∃ es₁ p b es₂, es = es₁ ++ .logGuard p b :: es₂ ∧ LOGSIZE - 1 ≤ (groupBlocks es₁).card) ?_ ?_
  · simp [init]
  · intro es t e u hrun ih _ hs
    rw [panics_iff hs, tooBig_iff (log_fixed hrun).2, n_eq_card hrun]
    constructor
    · rintro ⟨⟨p, b, rfl⟩, hcard⟩
      exact ⟨es, p, b, [], rfl, hcard⟩
    · rintro ⟨es₁, p, b, es₂, he, hcard⟩
      rcases snoc_split he with ⟨-, rfl, he'⟩ | ⟨es₂', -, he'⟩
      · exact ⟨⟨p, b, he'.symm⟩, hcard⟩
      · -- an earlier call would have stopped the run
        have hpan := ih.mpr ⟨es₁, p, b, es₂', he', hcard⟩
        simp [calm_of_step hs] at hpan

/-- **Log space.** With the log `mkfs` lays out and operations of at most `MAXOPBLOCKS` distinct blocks,
in any interleaving: every `log_write` finds room, and none panics, exactly when no group of
operations calls `log_write` once `LOGSIZE - 1` distinct blocks of it are logged. -/
theorem log_write_fits_iff [Fintype P] {es : List (Event P)} {s : Sys P}
    (h : Run step withinLimit (init P Mkfs.sb.logstart Mkfs.sb.nlog) es s) :
    LogWriteFits es s ↔
      ∀ es₁ p b es₂, es = es₁ ++ .logGuard p b :: es₂ → (groupBlocks es₁).card ≤ LOGSIZE - 2 := by
  have hL : LOGSIZE = 30 := rfl
  constructor
  · rintro ⟨-, hfits⟩ es₁ p b es₂ he
    obtain ⟨t, ht, -⟩ := Run.split (he ▸ h)
    have hroom := (hfits es₁ p b es₂ t he ht).2
    rw [(log_fixed ht).2, n_eq_card ht] at hroom
    have hsize : Mkfs.sb.nlog = 30 := rfl
    omega
  · intro hcond
    refine ⟨fun hpan => ?_, fun es₁ p b es₂ t he ht => ?_⟩
    · obtain ⟨es₁, p, b, es₂, he, hcard⟩ := (panicked_iff h).mp hpan
      have := hcond es₁ p b es₂ he
      omega
    · have := hcond es₁ p b es₂ he
      have hsize : Mkfs.sb.nlog = 30 := rfl
      rw [(log_fixed ht).2, n_eq_card ht]
      omega

/-- A process logs the given blocks, one `log_write` after another. -/
def logAll (p : P) (bs : List Nat) : List (Event P) :=
  bs.flatMap fun b => [.logGuard p b, .logLocked p b]

/-- Three operations of ten blocks each, all admitted at once. -/
def threeOps : List (Event (Fin 3)) :=
  [.beginOp 0, .beginOp 1, .beginOp 2] ++ logAll 0 (List.range' 100 10) ++
    logAll 1 (List.range' 200 10) ++ logAll 2 (List.range' 300 9) ++ [.logGuard 2 309]

/-- The third operation's tenth block finds `lh.n = 29 = log.size - 1`. -/
theorem log_write_panics :
    ¬ ∀ (es : List (Event (Fin 3))) (s : Sys (Fin 3)),
      Run step withinLimit (init (Fin 3) Mkfs.sb.logstart Mkfs.sb.nlog) es s → LogWriteFits es s := by
  intro hall
  obtain ⟨s, hs, hp⟩ : ∃ s, Run step withinLimit (init (Fin 3) Mkfs.sb.logstart Mkfs.sb.nlog) threeOps s ∧
      s.panicked = some .tooBig := by decide +kernel
  exact (hall threeOps s hs).1 hp

/-- Two operations, one of which logs a block twice. -/
def twoOps : List (Event (Fin 2)) := [.beginOp 0, .beginOp 1] ++ logAll 0 [40, 41, 40]

theorem log_write_fits_twoOps :
    ∃ s, Run step withinLimit (init (Fin 2) Mkfs.sb.logstart Mkfs.sb.nlog) twoOps s ∧
      LogWriteFits twoOps s := by
  obtain ⟨s, hs⟩ : ∃ s, Run step withinLimit (init (Fin 2) Mkfs.sb.logstart Mkfs.sb.nlog) twoOps s := by decide +kernel
  refine ⟨s, hs, (log_write_fits_iff hs).mpr fun es₁ p b es₂ he => ?_⟩
  have hlen : es₁.length < 8 := by
    have := congrArg List.length he
    rw [List.length_append, List.length_cons] at this
    have h8 : twoOps.length = 8 := rfl
    omega
  exact (card_groupBlocks_le es₁).trans (by have hL : LOGSIZE = 30 := rfl; omega)

variable [Fintype P]

/-! ## Staying inside the log area -/

/-- The block of a `log_write` that is past its tests and has not taken the lock. -/
def ProcState.pending : ProcState → Finset Nat
  | .logging _ b => {b}
  | _ => ∅

/-- The blocks in the header and those of the calls of `log_write` past the tests. -/
def called (s : Sys P) : Finset Nat := s.log.lh.toFinset ∪ Finset.univ.biUnion fun p => (s.proc p).pending

/-- The tests of `log_write` should have counted these: with the new block, they fit the log area. -/
def fitsLog (s : Sys P) : Event P → Prop
  | .logGuard _ b => (insert b (called s)).card ≤ s.log.size - 1
  | _ => True

instance (s : Sys P) : (e : Event P) → Decidable (fitsLog s e)
  | .logGuard _ b => inferInstanceAs (Decidable ((insert b (called s)).card ≤ s.log.size - 1))
  | .beginOp _ | .logLocked _ _ | .endOp _ | .commit _ _ => isTrue trivial

/-- The header does not outgrow the log, and the committer uses only the log's data blocks. -/
def InsideLog (s : Sys P) : Prop :=
  s.log.n ≤ s.log.size - 1 ∧
  ∀ p pc b, s.proc p = .committing pc → pc.logBlock s.log = some b →
    s.log.start + 1 ≤ b ∧ b ≤ s.log.start + s.log.size - 1

omit [DecidableEq P] in
theorem mem_called {b : Nat} : b ∈ called s ↔ b ∈ s.log.lh ∨ ∃ p op, s.proc p = .logging op b := by
  simp only [called, Finset.mem_union, List.mem_toFinset, Finset.mem_biUnion, Finset.mem_univ, true_and]
  refine or_congr Iff.rfl ⟨?_, ?_⟩
  · rintro ⟨p, hp⟩
    cases hs : s.proc p with
    | logging op b' =>
      rw [hs] at hp
      obtain rfl : b = b' := by simpa [ProcState.pending] using hp
      exact ⟨p, op, hs⟩
    | _ => rw [hs] at hp; simp [ProcState.pending] at hp
  · rintro ⟨p, op, hp⟩
    exact ⟨p, by rw [hp]; exact Finset.mem_singleton_self b⟩

theorem called_step {t : Sys P} {e : Event P} (hs : Trans s e t) {c : Nat} (hc : c ∈ called t) :
    c ∈ called s ∨ ∃ p b, e = .logGuard p b ∧ c = b := by
  rw [mem_called] at hc
  -- another process in `log_write`, or one that was there before the step
  have hback : ∀ q op, q ≠ e.actor → t.proc q = .logging op c → c ∈ called s := by
    intro q op hq ht
    refine mem_called.mpr (.inr ⟨q, op, ?_⟩)
    have hset : ∀ (u : Sys P) (x : ProcState), (u.setProc e.actor x).proc q = u.proc q :=
      fun u x => Function.update_of_ne hq _ _
    cases hs with
    | sleep | enter | pass | record | endLast => rw [← hset s]; exact ht
    | tooBig | outside | endPanic => exact ht
    | endSome p =>
      exact ProcState.wake_eq_logging.mp ((hset s.wakeup .idle).symm.trans ht)
    | commit p pc =>
      cases pc with
      | leave => exact ProcState.wake_eq_logging.mp ((hset s.wakeup .idle).symm.trans ht)
      | _ => rw [← hset s]; exact ht
  have hlh : t.log.lh = s.log.lh → c ∈ t.log.lh → c ∈ called s :=
    fun he hm => mem_called.mpr (.inl (he ▸ hm))
  rcases hc with hc | ⟨q, op, hq⟩
  · cases hs with
    | record p b op hp =>
      rcases Log.mem_record.mp hc with rfl | hc
      · exact .inl (mem_called.mpr (.inr ⟨p, op, hp⟩))
      · exact .inl (mem_called.mpr (.inl hc))
    | commit p pc hp =>
      cases pc with
      | reset => cases hc
      | _ => exact .inl (hlh rfl hc)
    | _ => exact .inl (hlh rfl hc)
  · by_cases hqa : q = e.actor
    · subst hqa
      cases hs with
      | tooBig p b op' hp | outside p b op' hp =>
        have : s.proc p = .logging op c := hq
        simp [hp] at this
      | endPanic p op' hp =>
        have : s.proc p = .logging op c := hq
        simp [hp] at this
      | pass p b op' hp =>
        have : (ProcState.logging ⟨op'.id, insert b op'.used⟩ b) = .logging op c := by
          simpa [Sys.setProc, Event.actor] using hq
        cases this
        exact .inr ⟨p, c, rfl, rfl⟩
      | commit p pc hp => cases pc <;> simp [commit, Sys.setProc, Event.actor] at hq
      | sleep | enter | record | endLast | endSome =>
        simp [logLocked, Sys.setProc, Event.actor] at hq
    · exact .inl (hback q op hqa hq)

/-- **The log stays inside its area.** Whatever the interleaving of the unlocked tests and the locked
appends: if each `log_write` passes its tests only where the called blocks and its own fit the log area,
then no state reached has more header entries than the log has data blocks, and `write_log` and
`install_trans` use the blocks `log.start + 1 .. log.start + log.size - 1` only. -/
theorem log_stays_inside {es : List (Event P)} {s : Sys P}
    (h : Run step (fun s e => withinLimit s e ∧ fitsLog s e)
      (init P Mkfs.sb.logstart Mkfs.sb.nlog) es s) : InsideLog s := by
  have hcard : (called s).card ≤ s.log.size - 1 := by
    rw [(log_fixed h).2]
    refine h.inv (I := fun _ s => (called s).card ≤ Mkfs.sb.nlog - 1) ?_ ?_
    · have : called (init P Mkfs.sb.logstart Mkfs.sb.nlog) = ∅ := by
        refine Finset.eq_empty_of_forall_notMem fun b hb => ?_
        rcases mem_called.mp hb with hb | ⟨p, op, hp⟩
        · cases hb
        · cases hp
      rw [this]
      exact Nat.zero_le _
    · intro es t e u hrun ih hok hs
      have hstep := fun c hc => called_step (trans_of_step hs) (c := c) hc
      by_cases hg : ∃ p b, e = .logGuard p b
      · obtain ⟨p, b, rfl⟩ := hg
        have hfit : (insert b (called t)).card ≤ t.log.size - 1 := hok.2
        rw [(log_fixed hrun).2] at hfit
        refine (Finset.card_le_card fun c hc => ?_).trans hfit
        rcases hstep c hc with hc | ⟨p', b', he, rfl⟩
        · exact Finset.mem_insert_of_mem hc
        · cases he
          exact Finset.mem_insert_self _ _
      · refine (Finset.card_le_card fun c hc => ?_).trans ih
        rcases hstep c hc with hc | ⟨p', b', he, rfl⟩
        · exact hc
        · exact absurd ⟨p', c, he⟩ hg
  have hn : s.log.n ≤ s.log.size - 1 := by
    refine le_trans ?_ hcard
    rw [Log.n, ← List.toFinset_card_of_nodup (inv_of_run h).nodup]
    exact Finset.card_le_card Finset.subset_union_left
  refine ⟨hn, fun p pc b _ hb => ?_⟩
  cases pc with
  | writeLog tail | installTrans tail =>
    simp only [CommitPc.logBlock] at hb
    split_ifs at hb with ht
    cases hb
    omega
  | _ => cases hb

/-- Three operations at `lh.n = 28`, two of which pass the tests before either takes the lock. -/
def raceOps : List (Event (Fin 3)) :=
  [.beginOp 0, .beginOp 1, .beginOp 2] ++ logAll 0 (List.range' 100 10) ++
    logAll 1 (List.range' 200 9) ++ logAll 2 (List.range' 300 9) ++
    [.logGuard 1 209, .logGuard 2 309, .logLocked 1 209, .logLocked 2 309]

/-- Both are appended: the header has 30 entries, and the log has room for 29. -/
theorem log_spills :
    ¬ ∀ (es : List (Event (Fin 3))) (s : Sys (Fin 3)),
      Run step withinLimit (init (Fin 3) Mkfs.sb.logstart Mkfs.sb.nlog) es s → InsideLog s := by
  intro hall
  obtain ⟨s, hs, hn, hsize⟩ : ∃ s, Run step withinLimit (init (Fin 3) Mkfs.sb.logstart Mkfs.sb.nlog) raceOps s ∧
      s.log.n = 30 ∧ s.log.size = 30 := by decide +kernel
  have := (hall raceOps s hs).1
  omega

theorem log_stays_inside_twoOps :
    ∃ s, Run step (fun s e => withinLimit s e ∧ fitsLog s e)
      (init (Fin 2) Mkfs.sb.logstart Mkfs.sb.nlog) twoOps s ∧ InsideLog s := by
  obtain ⟨s, hs⟩ : ∃ s, Run step (fun s e => withinLimit s e ∧ fitsLog s e)
      (init (Fin 2) Mkfs.sb.logstart Mkfs.sb.nlog) twoOps s := by decide +kernel
  exact ⟨s, hs, log_stays_inside hs⟩

end Xv6.GroupCommit

import Xv6.Log.Protocol
import Xv6.Lib.Sum

/-!
# The group-commit protocol

`log.outstanding` counts the operations between `begin_op` and `end_op`, a commit runs only when there
is none, and the committer alone touches the header until it has reset it. So an operation never
straddles a commit: everything it logs is in the header that one `commit()` writes.
-/

namespace Xv6.GroupCommit

open Machine
open Function (update update_of_ne update_self)

variable {P : Type} [DecidableEq P]
variable {s t : Sys P} {p : P} {e : Event P} {op : Op}
variable {h : List Entry}

/-! ## What a step can do -/

/-- The steps of the machine, one constructor for each way through the code. -/
inductive Trans (s : Sys P) : Event P → Sys P → Prop
  | sleep (p : P) (hop : (s.proc p).op? = none) (hpc : (s.proc p).pc? = none)
      (hwait : s.log.committing = true ∨ s.log.exhausted = true) :
      Trans s (.beginOp p) (s.setProc p .sleeping)
  | enter (p : P) (hop : (s.proc p).op? = none) (hpc : (s.proc p).pc? = none)
      (hc : s.log.committing = false) (he : s.log.exhausted = false) :
      Trans s (.beginOp p) { s.setProc p (.running ⟨s.nextOp, ∅⟩) with
        log := { s.log with outstanding := s.log.outstanding + 1 }
        nextOp := s.nextOp + 1 }
  | tooBig (p : P) (b : Nat) (op : Op) (hp : s.proc p = .running op) (hbig : s.log.tooBig = true) :
      Trans s (.logGuard p b) (s.panic .tooBig)
  | outside (p : P) (b : Nat) (op : Op) (hp : s.proc p = .running op) (hbig : s.log.tooBig = false)
      (hout : s.log.outstanding < 1) : Trans s (.logGuard p b) (s.panic .outsideTrans)
  | pass (p : P) (b : Nat) (op : Op) (hp : s.proc p = .running op) (hbig : s.log.tooBig = false) :
      Trans s (.logGuard p b) (s.setProc p (.logging ⟨op.id, insert b op.used⟩ b))
  | record (p : P) (b : Nat) (op : Op) (hp : s.proc p = .logging op b) :
      Trans s (.logLocked p b) (logLocked s p op b)
  | endPanic (p : P) (op : Op) (hp : s.proc p = .running op) (hc : s.log.committing = true) :
      Trans s (.endOp p)
        ({ s with log := { s.log with outstanding := s.log.outstanding - 1 } }.panic .logCommitting)
  | endLast (p : P) (op : Op) (hp : s.proc p = .running op) (hc : s.log.committing = false)
      (hlast : s.log.outstanding = 1) :
      Trans s (.endOp p) { s.setProc p (.committing .enter) with
        log := { s.log with outstanding := 0, committing := true } }
  | endSome (p : P) (op : Op) (hp : s.proc p = .running op) (hc : s.log.committing = false)
      (hmore : s.log.outstanding ≠ 1) :
      Trans s (.endOp p) { s.wakeup.setProc p .idle with
        log := { s.log with outstanding := s.log.outstanding - 1 } }
  | commit (p : P) (pc : CommitPc) (hp : s.proc p = .committing pc) : Trans s (.commit p pc) (commit s p pc)

theorem trans_beginOp (hop : (s.proc p).op? = none) (hpc : (s.proc p).pc? = none) :
    Trans s (.beginOp p) (beginOp s p) := by
  unfold beginOp
  split_ifs with hc he
  · exact .sleep p hop hpc (.inl hc)
  · exact .sleep p hop hpc (.inr he)
  · exact .enter p hop hpc (by simpa using hc) (by simpa using he)

theorem trans_endOp (hp : s.proc p = .running op) : Trans s (.endOp p) (endOp s p) := by
  unfold endOp
  simp only
  split_ifs with hc hlast
  · exact .endPanic p op hp hc
  · rw [hlast]
    exact .endLast p op hp (by simpa using hc) (by omega)
  · exact .endSome p op hp (by simpa using hc) (by omega)

theorem trans_of_step (h : step s e = some t) : Trans s e t := by
  unfold step at h
  split_ifs at h
  cases e with
  | beginOp p =>
    simp only at h
    split at h
    · rename_i hp
      cases h
      exact trans_beginOp (by rw [hp]; rfl) (by rw [hp]; rfl)
    · rename_i hp
      cases h
      exact trans_beginOp (by rw [hp]; rfl) (by rw [hp]; rfl)
    · cases h
  | logGuard p b =>
    simp only at h
    split at h
    · rename_i op hp
      cases h
      unfold logGuard
      split_ifs with hbig hout
      · exact .tooBig p b op hp hbig
      · exact .outside p b op hp (by simpa using hbig) hout
      · exact .pass p b op hp (by simpa using hbig)
    · cases h
  | logLocked p b =>
    simp only at h
    split at h
    · rename_i op b' hp
      split_ifs at h with hb
      subst hb
      cases h
      exact .record p b' op hp
    · cases h
  | endOp p =>
    simp only at h
    split at h
    · rename_i op hp
      cases h
      exact trans_endOp hp
    · cases h
  | commit p pc =>
    simp only at h
    split_ifs at h with hp
    cases h
    exact .commit p pc hp

theorem calm_of_step (h : step s e = some t) : s.panicked = none := by
  unfold step at h
  split_ifs at h with hp
  simpa using hp

/-! ## Outstanding operations and the committer -/

theorem Trans.others (h : Trans s e t) {q : P} (hq : q ≠ e.actor) :
    (t.proc q).op? = (s.proc q).op? ∧ (t.proc q).pc? = (s.proc q).pc? := by
  have hset : ∀ (u : Sys P) (x : ProcState), (u.setProc e.actor x).proc q = u.proc q :=
    fun u x => update_of_ne hq _ _
  cases h with
  | sleep p | enter p | pass p | record p | endLast p => exact ⟨by rw [← hset s]; rfl, by rw [← hset s]; rfl⟩
  | tooBig | outside | endPanic => exact ⟨rfl, rfl⟩
  | endSome p =>
    have hw : (s.wakeup.setProc p .idle).proc q = (s.proc q).wake := hset s.wakeup .idle
    exact ⟨by rw [← (s.proc q).op?_wake, ← hw], by rw [← (s.proc q).pc?_wake, ← hw]⟩
  | commit p pc =>
    cases pc with
    | leave =>
      have hw : (s.wakeup.setProc p .idle).proc q = (s.proc q).wake := hset s.wakeup .idle
      exact ⟨by rw [← (s.proc q).op?_wake, ← hw]; rfl, by rw [← (s.proc q).pc?_wake, ← hw]; rfl⟩
    | _ => exact ⟨by rw [← hset s]; rfl, by rw [← hset s]; rfl⟩

/-- The operations in progress, the committer and the header. -/
structure Inv [Fintype P] (s : Sys P) : Prop where
  count : s.log.outstanding = (count ProcState.inOp s.proc : Int)
  single : ∀ p q, (s.proc p).pc?.isSome → (s.proc q).pc?.isSome → p = q
  flag : s.log.committing = true ↔ ∃ p, (s.proc p).pc?.isSome
  quiet : s.log.committing = true → ∀ p, (s.proc p).op? = none
  nodup : s.log.lh.Nodup
  calm : s.panicked ≠ some .logCommitting

variable [Fintype P]

omit [DecidableEq P] in
theorem inv_init (start size : Nat) : Inv (init P start size) where
  count := by
    have h : Machine.count ProcState.inOp (init P start size).proc = 0 := count_eq_zero.mpr fun _ => rfl
    rw [h]; rfl
  single := fun p _ hp => by simp [init, ProcState.pc?] at hp
  flag := by simp [init, ProcState.pc?]
  quiet := fun h => by simp [init] at h
  nodup := List.nodup_nil
  calm := by simp [init]

omit [DecidableEq P] in
theorem Inv.stay (h : Inv s) (hop : ∀ q, (t.proc q).inOp = (s.proc q).inOp)
    (hpc : ∀ q, (t.proc q).pc?.isSome = (s.proc q).pc?.isSome)
    (hout : t.log.outstanding = s.log.outstanding) (hcom : t.log.committing = s.log.committing)
    (hnodup : t.log.lh.Nodup) (hcalm : t.panicked ≠ some .logCommitting) : Inv t where
  count := by
    have hsame : Machine.count ProcState.inOp t.proc = Machine.count ProcState.inOp s.proc := by
      unfold Machine.count
      simp only [hop]
    rw [hout, hsame, h.count]
  single := fun p q hp hq => h.single p q (by rw [← hpc]; exact hp) (by rw [← hpc]; exact hq)
  flag := by simp only [hcom, hpc]; exact h.flag
  quiet := fun hc q => by
    have hq := h.quiet (hcom ▸ hc) q
    have hin : (t.proc q).inOp = false := by rw [hop q, ProcState.inOp, hq]; rfl
    simpa [ProcState.inOp] using hin
  nodup := hnodup
  calm := hcalm

omit [DecidableEq P] in
theorem Inv.no_committer (h : Inv s) (hc : s.log.committing = false) (q : P) : (s.proc q).pc? = none := by
  by_contra hq
  have hflag : s.log.committing = true := h.flag.mpr ⟨q, Option.isSome_iff_ne_none.mpr hq⟩
  simp [hc] at hflag

theorem inv_enter (h : Inv s) (hop : (s.proc p).op? = none)
    (hpc : (s.proc p).pc? = none) (hc : s.log.committing = false) :
    Inv { s.setProc p (.running ⟨s.nextOp, ∅⟩) with
      log := { s.log with outstanding := s.log.outstanding + 1 }
      nextOp := s.nextOp + 1 } := by
  have hnone := h.no_committer hc
  have hnone' : ∀ q, (update s.proc p (.running ⟨s.nextOp, ∅⟩) q).pc?.isSome = false := by
    intro q
    by_cases hq : q = p
    · subst hq; simp [ProcState.pc?]
    · rw [update_of_ne hq, hnone q]; rfl
  have hcount := count_move (c := ProcState.inOp) (f := s.proc)
    (g := update s.proc p (.running ⟨s.nextOp, ∅⟩)) p
    fun q hq => by rw [update_of_ne hq]
  have h0 : (s.proc p).inOp = false := by rw [ProcState.inOp, hop]; rfl
  rw [update_self, h0] at hcount
  refine ⟨?_, fun q r hq => ?_, ?_, fun hc' => ?_, h.nodup, h.calm⟩
  · have := h.count
    simp only [Sys.setProc, ProcState.inOp, ProcState.op?, Option.isSome_some, Bool.toNat_true,
      Bool.toNat_false] at hcount ⊢
    omega
  · exact absurd hq (by simpa [Sys.setProc] using hnone' q)
  · simp only [Sys.setProc, hc, hnone']
    simp
  · simp [hc] at hc'

theorem inv_endLast (h : Inv s) (hp : s.proc p = .running op)
    (hc : s.log.committing = false) (hlast : s.log.outstanding = 1) :
    Inv { s.setProc p (.committing .enter) with
      log := { s.log with outstanding := 0, committing := true } } := by
  have hnone := h.no_committer hc
  have hcount := count_move (c := ProcState.inOp) (f := s.proc)
    (g := update s.proc p (.committing .enter)) p
    fun q hq => by rw [update_of_ne hq]
  have h1 : (s.proc p).inOp = true := by rw [hp]; rfl
  rw [update_self, h1] at hcount
  have hzero : Machine.count ProcState.inOp (update s.proc p (.committing .enter)) = 0 := by
    have := h.count
    simp only [ProcState.inOp, ProcState.op?, Option.isSome_none, Bool.toNat_true,
      Bool.toNat_false] at hcount ⊢
    omega
  have honly : ∀ q, (update s.proc p (.committing .enter) q).pc?.isSome → q = p := by
    intro q hq
    by_contra hne
    rw [update_of_ne hne, hnone q] at hq
    exact absurd hq (by simp)
  refine ⟨?_, fun q r hq hr => ?_, ?_, fun _ q => ?_, h.nodup, h.calm⟩
  · simp only [Sys.setProc]
    rw [hzero]; rfl
  · rw [honly q hq, honly r hr]
  · refine ⟨fun _ => ⟨p, ?_⟩, fun _ => rfl⟩
    simp [Sys.setProc, ProcState.pc?]
  · have := count_eq_zero.mp hzero q
    simpa [ProcState.inOp, Sys.setProc] using this

theorem inv_endSome (h : Inv s) (hp : s.proc p = .running op) (hc : s.log.committing = false) :
    Inv { s.wakeup.setProc p .idle with
      log := { s.log with outstanding := s.log.outstanding - 1 } } := by
  have hnone := h.no_committer hc
  have hnone' : ∀ q, (update (fun q => (s.proc q).wake) p .idle q).pc?.isSome = false := by
    intro q
    by_cases hq : q = p
    · subst hq; simp [ProcState.pc?]
    · rw [update_of_ne hq, ProcState.pc?_wake, hnone q]; rfl
  have hcount := count_move (c := ProcState.inOp) (f := s.proc)
    (g := update (fun q => (s.proc q).wake) p .idle) p
    fun q hq => by rw [update_of_ne hq, ProcState.inOp_wake]
  have h1 : (s.proc p).inOp = true := by rw [hp]; rfl
  rw [update_self, h1] at hcount
  refine ⟨?_, fun q r hq => ?_, ?_, fun hc' => ?_, h.nodup, h.calm⟩
  · have := h.count
    simp only [Sys.setProc, Sys.wakeup, ProcState.inOp, ProcState.op?, Option.isSome_none,
      Bool.toNat_true, Bool.toNat_false] at hcount ⊢
    omega
  · exact absurd hq (by simpa [Sys.setProc, Sys.wakeup] using hnone' q)
  · simp only [Sys.setProc, Sys.wakeup, hc, hnone']
    simp
  · simp [hc] at hc'

theorem inv_leave (h : Inv s) (hp : s.proc p = .committing .leave) : Inv (commit s p .leave) := by
  have hsome : (s.proc p).pc?.isSome := by rw [hp]; rfl
  have hc : s.log.committing = true := h.flag.mpr ⟨p, hsome⟩
  have hnone : ∀ q, (update (fun q => (s.proc q).wake) p .idle q).pc?.isSome = false := by
    intro q
    by_cases hq : q = p
    · subst hq; simp [ProcState.pc?]
    · rw [update_of_ne hq, ProcState.pc?_wake]
      exact Bool.eq_false_iff.mpr fun hqs => hq (h.single q p hqs hsome)
  have hcount := count_move (c := ProcState.inOp) (f := s.proc)
    (g := update (fun q => (s.proc q).wake) p .idle) p
    fun q hq => by rw [update_of_ne hq, ProcState.inOp_wake]
  have h0 : (s.proc p).inOp = false := by rw [hp]; rfl
  rw [update_self, h0] at hcount
  refine ⟨?_, fun q r hq => ?_, ?_, fun hc' => ?_, h.nodup, h.calm⟩
  · have := h.count
    simp only [commit, Sys.setProc, Sys.wakeup, ProcState.inOp, ProcState.op?, Option.isSome_none,
      Bool.toNat_false] at hcount ⊢
    omega
  · exact absurd hq (by simpa [commit, Sys.setProc, Sys.wakeup] using hnone q)
  · simp only [commit, Sys.setProc, Sys.wakeup, hnone]
    simp
  · simp [commit] at hc'

theorem inv_commit {pc : CommitPc} (h : Inv s) (hp : s.proc p = .committing pc) : Inv (commit s p pc) := by
  have hstay : ∀ (t : Sys P) (pc' : CommitPc), t.proc = update s.proc p (.committing pc') →
      t.log.outstanding = s.log.outstanding → t.log.committing = s.log.committing →
      t.log.lh.Nodup → t.panicked = s.panicked → Inv t := by
    intro t pc' hproc hout hcom hnodup hpan
    refine h.stay (fun q => ?_) (fun q => ?_) hout hcom hnodup (hpan ▸ h.calm) <;>
    · rw [hproc]
      by_cases hq : q = p
      · subst hq
        rw [update_self, hp]
        rfl
      · rw [update_of_ne hq]
  cases pc with
  | leave => exact inv_leave h hp
  | reset => exact hstay _ .clearHead rfl rfl rfl List.nodup_nil rfl
  | _ => exact hstay _ _ rfl rfl rfl h.nodup rfl

theorem inv_step (h : Inv s) (hs : Trans s e t) : Inv t := by
  -- a process that stays outside `commit()` and keeps its operation, if it has one
  have hstay : ∀ (p : P) (x : ProcState) (t : Sys P), t.proc = update s.proc p x →
      x.inOp = (s.proc p).inOp → x.pc? = none → (s.proc p).pc? = none →
      t.log.outstanding = s.log.outstanding → t.log.committing = s.log.committing →
      t.log.lh.Nodup → t.panicked = s.panicked → Inv t := by
    intro p x t hproc hin hx hpc hout hcom hnodup hpan
    refine h.stay (fun q => ?_) (fun q => ?_) hout hcom hnodup (hpan ▸ h.calm) <;>
    · rw [hproc]
      by_cases hq : q = p
      · subst hq
        rw [update_self]
        first | exact hin | rw [hx, hpc]
      · rw [update_of_ne hq]
  cases hs with
  | sleep p hop hpc =>
    exact hstay p .sleeping _ rfl (by rw [ProcState.inOp, ProcState.inOp, hop]; rfl) rfl hpc
      rfl rfl h.nodup rfl
  | enter p hop hpc hc => exact inv_enter h hop hpc hc
  | tooBig p b op hp =>
    exact h.stay (fun _ => rfl) (fun _ => rfl) rfl rfl h.nodup (by simp [Sys.panic])
  | outside p b op hp =>
    exact h.stay (fun _ => rfl) (fun _ => rfl) rfl rfl h.nodup (by simp [Sys.panic])
  | pass p b op hp =>
    exact hstay p _ _ rfl (by rw [hp]; rfl) rfl (by rw [hp]; rfl) rfl rfl h.nodup rfl
  | record p b op hp =>
    exact hstay p _ _ rfl (by rw [hp]; rfl) rfl (by rw [hp]; rfl) (Log.record_outstanding _ _)
      (Log.record_committing _ _) (Log.nodup_record h.nodup) rfl
  | endPanic p op hp hc =>
    -- the panic: a process in an operation while a commit is running
    have hq := h.quiet hc p
    rw [hp] at hq
    cases hq
  | endLast p op hp hc hlast => exact inv_endLast h hp hc hlast
  | endSome p op hp hc => exact inv_endSome h hp hc
  | commit p pc hp => exact inv_commit h hp

theorem inv_of_run {start size : Nat} {es : List (Event P)}
    {ok : Sys P → Event P → Prop} (h : Run step ok (init P start size) es s) : Inv s :=
  h.inv (inv_init start size)
    fun _ _ _ _ _ hinv _ hs => inv_step hinv (trans_of_step hs)

/-! ## The header belongs to the committer -/

theorem header_frame {pc : CommitPc} (h : Inv s)
    (hp : s.proc p = .committing pc) (hs : Trans s e t) (hne : e.actor ≠ p) :
    e.isLogWrite = false ∧ t.log.lh = s.log.lh := by
  have hsome : (s.proc p).pc?.isSome := by rw [hp]; rfl
  have hquiet := h.quiet (h.flag.mpr ⟨p, hsome⟩)
  cases hs with
  | sleep | enter => exact ⟨rfl, rfl⟩
  | tooBig q b op hq | outside q b op hq | pass q b op hq | record q b op hq =>
    have := hquiet q
    rw [hq] at this
    cases this
  | endPanic | endLast | endSome => exact ⟨rfl, rfl⟩
  | commit q pc' hq =>
    have hqs : (s.proc q).pc?.isSome := by rw [hq]; rfl
    exact absurd (h.single q p hqs hsome) hne

/-! ## An operation is committed by one commit -/

/-- No `commit()` wrote its header in this part of the history. -/
def NoCommit (h : List Entry) : Prop := ∀ bs, Entry.commit bs ∉ h

/-- Between two blocks logged by one operation lies no commit, and the commit that follows a logged
block has that block in the header it writes. -/
structure OneCommit (h : List Entry) : Prop where
  together : ∀ A B C o b b', h = A ++ .logged o b :: (B ++ .logged o b' :: C) → NoCommit B
  covered : ∀ A B C o b bs, h = A ++ .logged o b :: (B ++ .commit bs :: C) → NoCommit B → b ∈ bs

theorem OneCommit.exists_commit {A C : List Entry} {o b : Nat} (h : OneCommit (A ++ .logged o b :: C))
    (hC : ¬ NoCommit C) :
    ∃ B bs C', C = B ++ .commit bs :: C' ∧ NoCommit B ∧ b ∈ bs := by
  have hfirst : ∃ B bs C', C = B ++ .commit bs :: C' ∧ NoCommit B := by
    clear h
    induction C with
    | nil => exact absurd (fun bs hbs => by cases hbs) hC
    | cons x C ih =>
      cases x with
      | commit bs => exact ⟨[], bs, C, rfl, fun bs hbs => by cases hbs⟩
      | logged o b =>
        obtain ⟨B, bs, C', rfl, hB⟩ := ih fun hn => hC fun bs hbs => hn bs (by simpa using hbs)
        exact ⟨.logged o b :: B, bs, C', rfl, fun bs hbs => hB bs (by simpa using hbs)⟩
  obtain ⟨B, bs, C', rfl, hB⟩ := hfirst
  exact ⟨B, bs, C', rfl, hB, h.covered A B C' o b bs rfl hB⟩

theorem OneCommit.snoc {x : Entry} (hone : OneCommit h)
    (hlog : ∀ o b', x = .logged o b' → ∀ A B b, h = A ++ .logged o b :: B → NoCommit B)
    (hcommit : ∀ bs, x = .commit bs → ∀ A B o b, h = A ++ .logged o b :: B → NoCommit B → b ∈ bs) :
    OneCommit (h ++ [x]) := by
  constructor
  · intro A B C o b b' he
    rw [← List.cons_append, ← List.append_assoc] at he
    rcases snoc_split he with ⟨rfl, hA, hx⟩ | ⟨C', rfl, hA⟩
    · exact hlog o b' hx.symm A B b hA.symm
    · rw [List.append_assoc, List.cons_append] at hA
      exact hone.together A B C' o b b' hA
  · intro A B C o b bs he hB
    rw [← List.cons_append, ← List.append_assoc] at he
    rcases snoc_split he with ⟨rfl, hA, hx⟩ | ⟨C', rfl, hA⟩
    · exact hcommit bs hx.symm A B o b hA.symm hB
    · rw [List.append_assoc, List.cons_append] at hA
      exact hone.covered A B C' o b bs hA hB

/-- After `write_head`. -/
def CommitPc.headWritten : CommitPc → Bool
  | .installTrans _ | .reset | .clearHead | .leave => true
  | _ => false

/-- A commit has written its header, or no operation and no commit is in progress. -/
def Settled (s : Sys P) : Prop :=
  (∃ p pc, (s.proc p).pc? = some pc ∧ pc.headWritten = true) ∨ s.log.committing = false ∧ s.log.outstanding = 0

/-- How the history relates to the running operations and to the header in memory. -/
structure HistInv (s : Sys P) : Prop where
  one : OneCommit s.hist
  pending : ∀ A C o b, s.hist = A ++ .logged o b :: C → NoCommit C → b ∈ s.log.lh
  active : ∀ p op, (s.proc p).op? = some op → ∀ A C b, s.hist = A ++ .logged op.id b :: C → NoCommit C
  fresh : ∀ o b, Entry.logged o b ∈ s.hist → o < s.nextOp
  ids : ∀ p op, (s.proc p).op? = some op → op.id < s.nextOp
  settled : Settled s → ∀ A C o b, s.hist = A ++ .logged o b :: C → ¬ NoCommit C

theorem noCommit_snoc {o b : Nat} (hn : NoCommit h) : NoCommit (h ++ [.logged o b]) := by
  intro bs hbs
  rw [List.mem_append, List.mem_singleton] at hbs
  rcases hbs with hbs | hbs
  · exact hn bs hbs
  · cases hbs

theorem noCommit_of_snoc {x : Entry} (hn : NoCommit (h ++ [x])) : NoCommit h :=
  fun bs hbs => hn bs (List.mem_append_left _ hbs)

omit [DecidableEq P] [Fintype P] in
theorem histInv_init (start size : Nat) : HistInv (init P start size) where
  one := ⟨fun A B C o b b' h => by simp [init] at h, fun A B C o b bs h => by simp [init] at h⟩
  pending := fun A C o b h => by simp [init] at h
  active := fun p op h => by simp [init, ProcState.op?] at h
  fresh := fun o b h => by simp [init] at h
  ids := fun p op h => by simp [init, ProcState.op?] at h
  settled := fun _ A C o b h => by simp [init] at h

omit [DecidableEq P] [Fintype P] in
theorem HistInv.stay (h : HistInv s) (hhist : t.hist = s.hist) (hlh : t.log.lh = s.log.lh)
    (hnext : s.nextOp ≤ t.nextOp)
    (hop : ∀ p op, (t.proc p).op? = some op →
      (∃ op', (s.proc p).op? = some op' ∧ op'.id = op.id) ∨ (op.id = s.nextOp ∧ op.id < t.nextOp))
    (hset : Settled t → Settled s ∨ s.log.lh = []) : HistInv t where
  one := hhist ▸ h.one
  pending := by rw [hhist, hlh]; exact h.pending
  active := by
    intro p op ht A C b hA
    rw [hhist] at hA
    rcases hop p op ht with ⟨op', hs, hid⟩ | hid
    · exact h.active p op' hs A C b (by rw [hid]; exact hA)
    · have := h.fresh op.id b (by rw [hA]; simp)
      omega
  fresh := fun o b hb => lt_of_lt_of_le (h.fresh o b (hhist ▸ hb)) hnext
  ids := by
    intro p op ht
    rcases hop p op ht with ⟨op', hs, hid⟩ | hid
    · have := h.ids p op' hs
      omega
    · exact hid.2
  settled := by
    intro ht A C o b hA hC
    rw [hhist] at hA
    rcases hset ht with hs | hnil
    · exact h.settled hs A C o b hA hC
    · have := h.pending A C o b hA hC
      simp [hnil] at this

theorem histInv_record {b : Nat} (hi : Inv s) (h : HistInv s) (hp : s.proc p = .logging op b) :
    HistInv (logLocked s p op b) := by
  have hact : (s.proc p).op? = some op := by rw [hp]; rfl
  have hnc : ∀ q, (s.proc q).pc? = none := by
    refine hi.no_committer (Bool.eq_false_iff.mpr fun hc => ?_)
    have := hi.quiet hc p
    simp [hact] at this
  have hops : ∀ q op', ((logLocked s p op b).proc q).op? = some op' → (s.proc q).op? = some op' := by
    intro q op' hq
    by_cases hqp : q = p
    · subst hqp
      rw [hact]
      simpa [logLocked, Sys.setProc, ProcState.op?] using hq
    · simpa [logLocked, Sys.setProc, update_of_ne hqp] using hq
  have hpcs : ∀ q, ((logLocked s p op b).proc q).pc? = none := by
    intro q
    by_cases hqp : q = p
    · subst hqp; simp [logLocked, Sys.setProc, ProcState.pc?]
    · simpa [logLocked, Sys.setProc, update_of_ne hqp] using hnc q
  have hbusy : ¬ Settled (logLocked s p op b) := by
    rintro (⟨q, pc, hq, -⟩ | ⟨-, hout⟩)
    · simp [hpcs q] at hq
    · have hpos : 0 < Machine.count ProcState.inOp s.proc := count_pos (p := p) (by rw [ProcState.inOp, hact]; rfl)
      have hcount := hi.count
      simp only [logLocked, Log.record_outstanding] at hout
      omega
  refine ⟨h.one.snoc ?_ (fun bs hx => by cases hx), ?_, ?_, ?_, fun q op' hq => h.ids q op' (hops q op' hq),
    fun hs => absurd hs hbusy⟩
  · intro o c' hx A B c hA
    cases hx
    exact h.active p op hact A B c hA
  · intro A C o c he hC
    rw [show (logLocked s p op b).log.lh = (s.log.record b).lh from rfl, Log.mem_record]
    rcases snoc_split he with ⟨rfl, rfl, hx⟩ | ⟨C', rfl, hA⟩
    · cases hx
      exact .inl rfl
    · exact .inr (h.pending A C' o c hA (noCommit_of_snoc hC))
  · intro q op' hq A C c he
    rcases snoc_split he with ⟨rfl, rfl, hx⟩ | ⟨C', rfl, hA⟩
    · intro bs hbs
      simp at hbs
    · exact noCommit_snoc (h.active q op' (hops q op' hq) A C' c hA)
  · intro o c hc
    rcases List.mem_append.mp hc with hc | hc
    · exact h.fresh o c hc
    · rw [List.mem_singleton] at hc
      cases hc
      exact h.ids p op hact

theorem histInv_writeHead (hi : Inv s) (h : HistInv s) (hp : s.proc p = .committing .writeHead) :
    HistInv (commit s p .writeHead) := by
  have hsome : (s.proc p).pc?.isSome := by rw [hp]; rfl
  have hquiet := hi.quiet (hi.flag.mpr ⟨p, hsome⟩)
  have hops : ∀ q op, ((commit s p .writeHead).proc q).op? ≠ some op := by
    intro q op
    by_cases hqp : q = p
    · subst hqp; simp [commit, Sys.setProc, ProcState.op?]
    · simp [commit, Sys.setProc, update_of_ne hqp, hquiet q]
  have hwritten : ∀ A C o c, s.hist ++ [.commit s.log.lh] = A ++ .logged o c :: C → ¬ NoCommit C := by
    intro A C o c he hC
    rcases snoc_split he with ⟨rfl, rfl, hx⟩ | ⟨C', rfl, hA⟩
    · cases hx
    · exact absurd (List.mem_append_right C' (List.mem_singleton.mpr rfl)) (hC s.log.lh)
  refine ⟨h.one.snoc (fun o c' hx => by cases hx) ?_, fun A C o c he hC => absurd hC (hwritten A C o c he),
    fun q op hq => absurd hq (hops q op), ?_, fun q op hq => absurd hq (hops q op), fun _ => hwritten⟩
  · intro bs hx
    cases hx
    exact h.pending
  · intro o c hc
    rcases List.mem_append.mp hc with hc | hc
    · exact h.fresh o c hc
    · rw [List.mem_singleton] at hc
      cases hc

omit [Fintype P] in
theorem histInv_reset (h : HistInv s) (hp : s.proc p = .committing .reset) : HistInv (commit s p .reset) := by
  have hw := h.settled (.inl ⟨p, .reset, by rw [hp]; rfl, rfl⟩)
  have hother : ∀ q, q ≠ p → (commit s p .reset).proc q = s.proc q :=
    fun q hq => update_of_ne hq _ _
  have hself : (commit s p .reset).proc p = .committing .clearHead := update_self ..
  refine ⟨h.one, fun A C o b he hC => absurd hC (hw A C o b he), fun q op hq => ?_, h.fresh,
    fun q op hq => ?_, fun _ => hw⟩ <;>
  · by_cases hqp : q = p
    · rw [hqp, hself] at hq; cases hq
    · rw [hother q hqp] at hq
      first | exact h.active q op hq | exact h.ids q op hq

theorem settled_of_trans (hi : Inv s) (hs : Trans s e t) (ht : Settled t) :
    Settled s ∨ s.log.lh = [] ∨ ∃ p, e = .commit p .writeHead := by
  rcases ht with ⟨q, pc, hq, hpc⟩ | ⟨hc, hout⟩
  · by_cases hqe : q = e.actor
    · subst hqe
      cases hs with
      | sleep | enter | pass | record | endSome => simp [Event.actor, logLocked, Sys.setProc, ProcState.pc?] at hq
      | tooBig | outside | endPanic => exact .inl (.inl ⟨_, pc, hq, hpc⟩)
      | endLast =>
        obtain rfl : CommitPc.enter = pc := by simpa [Event.actor, Sys.setProc, ProcState.pc?] using hq
        cases hpc
      | commit p pc' hp =>
        have hself : (s.proc p).pc? = some pc' := by rw [hp]; rfl
        cases pc' with
        | installTrans | reset | clearHead => exact .inl (.inl ⟨p, _, hself, rfl⟩)
        | leave => simp [Event.actor, Xv6.GroupCommit.commit, Sys.setProc, ProcState.pc?] at hq
        | writeHead => exact .inr (.inr ⟨p, rfl⟩)
        | writeLog tail =>
          simp only [Event.actor, Xv6.GroupCommit.commit, Sys.setProc, update_self, ProcState.pc?,
            Option.some.injEq] at hq
          subst hq
          split_ifs at hpc <;> cases hpc
        | enter =>
          simp only [Event.actor, Xv6.GroupCommit.commit, Sys.setProc, update_self, ProcState.pc?,
            Option.some.injEq] at hq
          subst hq
          split_ifs at hpc with hn
          · cases hpc
          · exact .inr (.inl (List.length_eq_zero_iff.mp (Nat.le_zero.mp (Nat.not_lt.mp hn))))
    · exact .inl (.inl ⟨q, pc, (hs.others hqe).2 ▸ hq, hpc⟩)
  · cases hs with
    | enter p => have := hi.count; simp only at hout; omega
    | endPanic | endLast => simp_all [Sys.panic]
    | endSome p op hp hc' hmore => simp only at hout; omega
    | record p b => exact .inl (.inr ⟨by simpa [logLocked] using hc, by simpa [logLocked] using hout⟩)
    | commit p pc hp =>
      cases pc with
      | leave => exact .inl (.inl ⟨p, .leave, by rw [hp]; rfl, rfl⟩)
      | _ => exact .inl (.inr ⟨hc, hout⟩)
    | _ => exact .inl (.inr ⟨hc, hout⟩)

theorem histInv_step (hi : Inv s) (h : HistInv s) (hs : Trans s e t) : HistInv t := by
  have hstay : t.hist = s.hist → t.log.lh = s.log.lh → s.nextOp ≤ t.nextOp → (∀ p, e ≠ .commit p .writeHead) →
      (∀ op, (t.proc e.actor).op? = some op → (∃ op', (s.proc e.actor).op? = some op' ∧ op'.id = op.id) ∨
        (op.id = s.nextOp ∧ op.id < t.nextOp)) → HistInv t := by
    intro hhist hlh hnext he hself
    refine h.stay hhist hlh hnext (fun q op hq => ?_) fun ht => ?_
    · by_cases hqe : q = e.actor
      · subst hqe
        exact hself op hq
      · exact .inl ⟨op, (hs.others hqe).1 ▸ hq, rfl⟩
    · rcases settled_of_trans hi hs ht with hset | hnil | ⟨p, hp⟩
      · exact .inl hset
      · exact .inr hnil
      · exact absurd hp (he p)
  cases hs with
  | sleep | endLast | endSome =>
    exact hstay rfl rfl le_rfl (by simp) fun op hq => by simp [Event.actor, Sys.setProc, ProcState.op?] at hq
  | enter p =>
    refine hstay rfl rfl (Nat.le_succ _) (by simp) fun op hq => .inr ?_
    obtain rfl : (⟨s.nextOp, ∅⟩ : Op) = op := by simpa [Event.actor, Sys.setProc, ProcState.op?] using hq
    exact ⟨rfl, Nat.lt_succ_self _⟩
  | tooBig | outside | endPanic => exact hstay rfl rfl le_rfl (by simp) fun op hq => .inl ⟨op, hq, rfl⟩
  | pass p b op hp =>
    refine hstay rfl rfl le_rfl (by simp) fun op' hq => .inl ⟨op, by rw [Event.actor, hp]; rfl, ?_⟩
    obtain rfl : (⟨op.id, insert b op.used⟩ : Op) = op' := by simpa [Event.actor, Sys.setProc, ProcState.op?] using hq
    rfl
  | record p b op hp => exact histInv_record hi h hp
  | commit p pc hp =>
    cases pc with
    | writeHead => exact histInv_writeHead hi h hp
    | reset => exact histInv_reset h hp
    | _ =>
      exact hstay rfl rfl le_rfl (by simp) fun op hq => by
        simp [Event.actor, Xv6.GroupCommit.commit, Sys.setProc, ProcState.op?] at hq

theorem histInv_of_run {start size : Nat} {es : List (Event P)}
    {ok : Sys P → Event P → Prop} (h : Run step ok (init P start size) es s) : HistInv s :=
  h.inv (histInv_init start size)
    fun _ _ _ _ hrun hh _ hs => histInv_step (inv_of_run hrun) hh (trans_of_step hs)

/-! ## The protocol -/

/-- **Group commit.** In every state that any interleaving of any number of processes reaches:
`outstanding` counts the processes between `begin_op` and `end_op`; it is zero during a commit, so the
panic in `end_op` is not reached; until the committer has reset the header only the committer touches
it and nobody is in `log_write`; the header's entries are distinct; and what an operation logs is
committed by one commit, or still in the header, and committed when no operation and no commit is in progress. -/
theorem group_commit {start size : Nat} {es : List (Event P)} {s : Sys P}
    (h : Run step any (init P start size) es s) :
    s.log.outstanding = (count ProcState.inOp s.proc : Int) ∧
    (s.log.committing = true → s.log.outstanding = 0) ∧
    s.panicked ≠ some .logCommitting ∧
    (∀ p pc, s.proc p = .committing pc → pc.usesHeader = true → ∀ e t, step s e = some t →
      e.actor ≠ p → e.isLogWrite = false ∧ t.log.lh = s.log.lh) ∧
    s.log.lh.Nodup ∧
    OneCommit s.hist ∧
    (∀ A C o b, s.hist = A ++ .logged o b :: C → NoCommit C → b ∈ s.log.lh) ∧
    (s.log.committing = false → s.log.outstanding = 0 → ∀ A C o b, s.hist = A ++ .logged o b :: C →
      ∃ B bs C', C = B ++ .commit bs :: C' ∧ NoCommit B ∧ b ∈ bs) := by
  have hi := inv_of_run h
  have hh := histInv_of_run h
  refine ⟨hi.count, fun hc => ?_, hi.calm, fun p pc hp _ e t hs hne => ?_, hi.nodup, hh.one, hh.pending, ?_⟩
  · have hzero : Machine.count ProcState.inOp s.proc = 0 := by
      refine count_eq_zero.mpr fun p => ?_
      rw [ProcState.inOp, hi.quiet hc p]
      rfl
    rw [hi.count, hzero]
    rfl
  · exact header_frame hi hp (trans_of_step hs) hne
  · intro hc hout A C o b he
    exact (he ▸ hh.one).exists_commit (hh.settled (.inr ⟨hc, hout⟩) A C o b he)

/-- Two processes share a transaction; the second to end commits both blocks. -/
def twoEnd : List (Event (Fin 2)) :=
  [.beginOp 0, .beginOp 1, .logGuard 0 40, .logGuard 1 41, .logLocked 1 41, .logLocked 0 40, .endOp 0, .endOp 1,
    .commit 1 .enter, .commit 1 (.writeLog 0), .commit 1 (.writeLog 1), .commit 1 (.writeLog 2), .commit 1 .writeHead,
    .commit 1 (.installTrans 0), .commit 1 (.installTrans 1), .commit 1 (.installTrans 2), .commit 1 .reset,
    .commit 1 .clearHead, .commit 1 .leave]

theorem group_commit_twoEnd : ∃ s, Run step any (init (Fin 2) 2 30) twoEnd s ∧
    s.hist = [.logged 1 41, .logged 0 40, .commit [41, 40]] ∧ OneCommit s.hist ∧
    ∀ A C o b, s.hist = A ++ .logged o b :: C → ∃ B bs C', C = B ++ .commit bs :: C' ∧ NoCommit B ∧ b ∈ bs := by
  obtain ⟨s, hs, hc, hout, hhist⟩ : ∃ s, Run step any (init (Fin 2) 2 30) twoEnd s ∧ s.log.committing = false ∧
      s.log.outstanding = 0 ∧ s.hist = [.logged 1 41, .logged 0 40, .commit [41, 40]] :=
      by decide +kernel
  obtain ⟨-, -, -, -, -, hone, -, hall⟩ := group_commit hs
  exact ⟨s, hs, hhist, hone, hall hc hout⟩

end Xv6.GroupCommit

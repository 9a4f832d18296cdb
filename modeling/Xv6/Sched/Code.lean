import Mathlib.Data.List.Basic
import Xv6.Sched.Machine

/-!
# What the position of a thread says

The position of a thread says which locks the CPU that runs it holds, and what the state of its process is. For
each function this is checked once against the code.
-/

namespace Xv6.Sched

open Function (update update_of_ne update_self)

/-! ## What a position says -/

variable {L : Type}

def Yield.locks (p : Slot) : Yield → List Slot
  | .acquire | .saved => []
  | .mark | .sched | .release => [p]

def Scan.locks : Scan → List Slot
  | .acquire _ => []
  | .body j | .release j _ => [j]

def Sleep.locks (p : Slot) : Sleep → List Slot
  | .acquire | .saved => []
  | .releaseLk | .mark | .sched | .tidy | .release => [p]

def Exit.locks (p : Slot) : Exit → List Slot
  | .acquireInit | .acquireSelf | .acquireParent _ => []
  | .wakeInit | .releaseInit => [initproc]
  | .readParent | .releaseSelf _ | .sched => [p]
  | .acquireAgain op => [op]
  | .reparent op _ | .acquireChild op _ | .finish op | .releaseParent op => [p, op]
  | .give op k | .releaseChild op k => [k, p, op]

def Fork.locks : Fork → List Slot
  | .acquire _ => []
  | .test j | .release j | .fill j | .done j => [j]

def Wait.locks (p : Slot) : Wait → List Slot
  | .acquire => []
  | .scan _ _ | .acquireChild _ | .releaseSelf => [p]
  | .test k | .releaseChild k | .releaseFound k => [k, p]

/-- The process locks held at a position of the thread of `p`, the last one first. -/
def Pc.locks (p : Slot) : Pc L → List Slot
  | .fresh | .user | .dead | .enter _ | .inside _ => []
  | .forkret => [p]
  | .yield i _ => i.locks p
  | .scan _ i _ => i.locks
  | .sleep _ i => i.locks p
  | .exit _ i => i.locks p
  | .fork i => i.locks
  | .wait _ i => i.locks p

/-- `sleep` was called with the lock of the monitor. -/
def Sleeper.inMonitor : Sleeper L → Bool
  | .monitor _ _ => true
  | _ => false

def Sleep.lkHeld (w : Sleeper L) : Sleep → Bool
  | .acquire | .releaseLk => w.inMonitor
  | _ => false

/-- The lock of the monitor is held. -/
def Pc.lkHeld : Pc L → Bool
  | .scan _ _ k => k.lkHeld
  | .sleep w i => i.lkHeld w
  | .inside _ => true
  | .fresh | .forkret | .user | .dead | .yield _ _ | .exit _ _ | .fork _ | .wait _ _ | .enter _ => false

/-- The context of the thread is saved and will be resumed. -/
def Pc.resumable : Pc L → Bool
  | .fresh => true
  | .yield i _ => i = .saved
  | .sleep _ i => i = .saved
  | _ => false

/-- The thread is on a CPU. -/
def Pc.runs : Pc L → Bool
  | .fresh | .dead => false
  | .yield i _ => i ≠ .saved
  | .sleep _ i => i ≠ .saved
  | _ => true

def Exit.shows : Exit → ProcState
  | .releaseParent _ | .sched => .zombie
  | _ => .running

/-- The state of a process whose thread is on a CPU. -/
def Pc.shows : Pc L → ProcState
  | .yield i _ => if i = .sched then .runnable else .running
  | .sleep _ i => if i = .sched then .sleeping else .running
  | .exit _ i => i.shows
  | _ => .running

/-- The states of a process whose thread is not on a CPU. -/
def Pc.rests (st : ProcState) : Pc L → Prop
  | .fresh => st = .runnable
  | .yield i _ => i = .saved ∧ st = .runnable
  | .sleep _ i => i = .saved ∧ (st = .sleeping ∨ st = .runnable)
  | .dead => st = .zombie ∨ st = .unused
  | _ => False

/-- What `wakeup` and `kill` return to: a place without locks, or a place in the monitor. -/
def Pc.returns (k : Pc L) : Prop := k.interruptible = true ∨ ∃ l, k = .inside l

/-- Calls return to the right places. -/
def Pc.Wf : Pc L → Prop
  | .yield _ k => k.interruptible = true
  | .scan _ _ k => k.returns
  | _ => True

theorem Pc.interruptible_spec {k : Pc L} (h : k.interruptible = true) (p : Slot) :
    k.locks p = [] ∧ k.lkHeld = false ∧ k.runs = true ∧ k.shows = .running ∧ k.Wf := by
  induction k with
  | user => exact ⟨rfl, rfl, rfl, rfl, trivial⟩
  | scan w i k ih =>
    simp only [interruptible, Bool.and_eq_true] at h
    obtain ⟨hi, hk⟩ := h
    obtain ⟨-, hlk, -⟩ := ih hk
    cases i with
    | acquire j => exact ⟨rfl, hlk, rfl, rfl, .inl hk⟩
    | _ => simp [Scan.lockFree] at hi
  | exit _ i => cases i <;> first | exact ⟨rfl, rfl, rfl, rfl, trivial⟩ | simp [interruptible, Exit.lockFree] at h
  | fork i => cases i <;> first | exact ⟨rfl, rfl, rfl, rfl, trivial⟩ | simp [interruptible, Fork.lockFree] at h
  | wait _ i => cases i <;> first | exact ⟨rfl, rfl, rfl, rfl, trivial⟩ | simp [interruptible, Wait.lockFree] at h
  | enter l => exact ⟨rfl, rfl, rfl, rfl, trivial⟩
  | _ => simp [interruptible] at h

theorem Pc.returns_spec {k : Pc L} (h : k.returns) (p : Slot) :
    k.locks p = [] ∧ k.runs = true ∧ k.shows = .running ∧ k.Wf := by
  rcases h with h | ⟨l, rfl⟩
  · obtain ⟨h1, -, h2⟩ := interruptible_spec h p
    exact ⟨h1, h2⟩
  · exact ⟨rfl, rfl, rfl, trivial⟩

theorem Pc.mem_locks_of_shows {p : Slot} {pc : Pc L} (h : pc.shows ≠ .running) : p ∈ pc.locks p := by
  cases pc with
  | yield i k => cases i <;> simp_all [shows, locks, Yield.locks]
  | sleep w i => cases i <;> simp_all [shows, locks, Sleep.locks]
  | exit st i => cases i <;> simp_all [shows, Exit.shows, locks, Exit.locks]
  | _ => simp [shows] at h

theorem Pc.shows_ne_unused {pc : Pc L} : pc.shows ≠ .unused := by
  cases pc with
  | yield i k => cases i <;> simp [shows]
  | sleep w i => cases i <;> simp [shows]
  | exit st i => cases i <;> simp [shows, Exit.shows]
  | _ => simp [shows]

theorem Pc.runs_of_lkHeld {pc : Pc L} (h : pc.lkHeld = true) : pc.runs = true := by
  cases pc with
  | sleep w i => cases i <;> simp_all [lkHeld, Sleep.lkHeld, runs]
  | scan | inside => rfl
  | _ => cases h

theorem Pc.not_resumable {pc : Pc L} (h : pc.runs = true) : pc.resumable = false := by
  cases pc <;> simp_all [runs, resumable]

theorem Pc.resume_spec {pc : Pc L} (h : pc.resumable = true) (p : Slot) :
    pc.resume.runs = true ∧ pc.resume.shows = .running ∧ pc.resume.locks p = [p] ∧ pc.resume.lkHeld = false ∧
      (pc.Wf → pc.resume.Wf) ∧ ∀ i, pc.resume ≠ .fork i := by
  cases pc with
  | fresh => exact ⟨rfl, rfl, rfl, rfl, id, by simp [resume]⟩
  | yield i k =>
    obtain rfl : i = .saved := by simpa [resumable] using h
    exact ⟨rfl, rfl, rfl, rfl, id, by simp [resume]⟩
  | sleep w i =>
    obtain rfl : i = .saved := by simpa [resumable] using h
    exact ⟨rfl, rfl, rfl, rfl, id, by simp [resume]⟩
  | _ => simp [resumable] at h

theorem Pc.resume_eq_sleep {pc : Pc L} (h : pc.resumable = true) {w : Sleeper L} {i : Sleep}
    (he : pc.resume = .sleep w i) : pc = .sleep w .saved ∧ i = .tidy := by
  cases pc with
  | fresh => cases he
  | yield j k =>
    obtain rfl : j = .saved := by simpa [resumable] using h
    cases he
  | sleep w' j =>
    obtain rfl : j = .saved := by simpa [resumable] using h
    cases he
    exact ⟨rfl, rfl⟩
  | _ => cases h

theorem Pc.resumable_of_rests {pc : Pc L} {st : ProcState} (h : pc.rests st) (hz : st ≠ .zombie) (hu : st ≠ .unused) :
    pc.resumable = true := by
  cases pc <;> simp_all [rests, resumable]

theorem Pc.rests_runnable {pc : Pc L} (h : pc.rests .sleeping) : pc.rests .runnable := by
  cases pc <;> simp_all [rests]

theorem Pc.dead_of_rests {pc : Pc L} {st : ProcState} (h : pc.rests st) (hst : st = .zombie ∨ st = .unused) :
    pc = .dead := by
  cases pc <;> rcases hst with rfl | rfl <;> simp_all [rests]

/-! ## What an action does to it -/

variable {M : Monitor}

/-- Where an action goes. -/
def Act.pc : Act M → Pc M.Loc
  | .goto pc | .acquire _ pc | .release _ pc | .acquireLk pc | .releaseLk pc | .write _ _ pc | .number _ pc
  | .spawn _ pc | .finish _ _ pc | .reap _ pc | .update _ pc | .swtch pc => pc

def Act.locksOk (p : Slot) (pc : Pc M.Loc) : Act M → Prop
  | .acquire q pc' => pc'.locks p = q :: pc.locks p
  | .release q pc' => (pc.locks p).Perm (q :: pc'.locks p)
  | .swtch pc' => pc.locks p = [p] ∧ pc'.locks p = []
  | a => a.pc.locks p = pc.locks p

def Act.lkOk (pc : Pc M.Loc) : Act M → Prop
  | .acquireLk pc' => pc.lkHeld = false ∧ pc'.lkHeld = true
  | .releaseLk pc' => pc.lkHeld = true ∧ pc'.lkHeld = false
  | a => a.pc.lkHeld = pc.lkHeld

/-- The process stays on its CPU, with the state that its position says, or leaves it. -/
def Act.placeOk (pc : Pc M.Loc) : Act M → Prop
  | .write _ _ pc' => pc'.runs = true
  | .finish _ _ pc' => pc'.runs = true ∧ pc'.shows = .zombie
  | .swtch pc' => pc'.rests pc.shows ∧ pc.shows ≠ .running
  | a => a.pc.runs = true ∧ a.pc.shows = pc.shows

variable {C : Type} {s t : State M C} {p q : Slot} {ch : Choice M} {pc : Pc M.Loc} {a : Act M}

/-- The places where a thread writes an entry of the table. -/
inductive Writes (s : State M C) (p : Slot) : Pc M.Loc → Slot → Proc → Pc M.Loc → Prop
  | yield (k : Pc M.Loc) : Writes s p (.yield .mark k) p { s.proc p with state := .runnable } (.yield .sched k)
  | wakeup (chan : Chan) (j : Slot) (k : Pc M.Loc) :
      Writes s p (.scan (.wakeup chan) (.body j) k) j ((s.proc j).wakeup chan)
        (.scan (.wakeup chan) (.release j false) k)
  | kill (pid : BitVec 32) (j : Slot) (k : Pc M.Loc) (hpid : (s.proc j).pid = pid) :
      Writes s p (.scan (.kill pid) (.body j) k) j (s.proc j).kill (.scan (.kill pid) (.release j true) k)
  | sleep (w : Sleeper M.Loc) :
      Writes s p (.sleep w .mark) p { s.proc p with chan := some (w.chan p), state := .sleeping } (.sleep w .sched)
  | tidy (w : Sleeper M.Loc) : Writes s p (.sleep w .tidy) p { s.proc p with chan := none } (.sleep w .release)
  | tidyWait (addr : Bool) :
      Writes s p (.sleep (.wait addr) .tidy) p { s.proc p with chan := none } (.wait addr (.scan 0 false))
  | init (status : BitVec 32) :
      Writes s p (.exit status .wakeInit) initproc ((s.proc initproc).wakeup (.proc initproc))
        (.exit status .releaseInit)
  | give (status : BitVec 32) (op k : Slot) :
      Writes s p (.exit status (.give op k)) k { s.proc k with parent := some initproc }
        (.exit status (.releaseChild op k))
  | fail (j : Slot) : Writes s p (.fork (.fill j)) j Proc.free (.fork (.done j))

section steps

variable (s p ch)

/-- The steps of a thread, one for each branch of the code. -/
inductive CodeStep : Pc M.Loc → Act M → Prop
  | forkret : CodeStep .forkret (.release p .user)
  | call (op : Op M.Loc) (hop : op.allowed s p = true) : CodeStep .user (.goto op.entry)
  | yieldAcquire (k) : CodeStep (.yield .acquire k) (.acquire p (.yield .mark k))
  | yieldSched (k) : CodeStep (.yield .sched k) (.swtch (.yield .saved k))
  | yieldRelease (k) : CodeStep (.yield .release k) (.release p k)
  | scanAcquire (w k) (j : Slot) : CodeStep (.scan w (.acquire j) k) (.acquire j (.scan w (.body j) k))
  | scanEnd (w k j) (hj : ¬ j < NPROC) : CodeStep (.scan w (.acquire j) k) (.goto k)
  | killSkip (pid j k) : CodeStep (.scan (.kill pid) (.body j) k) (.goto (.scan (.kill pid) (.release j false) k))
  | scanDone (w j k) : CodeStep (.scan w (.release j true) k) (.release j k)
  | scanNext (w j k) : CodeStep (.scan w (.release j false) k) (.release j (.scan w (.acquire (j + 1)) k))
  | sleepAcquire (w) : CodeStep (.sleep w .acquire) (.acquire p (.sleep w .releaseLk))
  | sleepReleaseLk (n l) : CodeStep (.sleep (.monitor n l) .releaseLk) (.releaseLk (.sleep (.monitor n l) .mark))
  | sleepOther (n) : CodeStep (.sleep (.other n) .releaseLk) (.goto (.sleep (.other n) .mark))
  | sleepSched (w) : CodeStep (.sleep w .sched) (.swtch (.sleep w .saved))
  | sleepEnter (n l) : CodeStep (.sleep (.monitor n l) .release) (.release p (.enter l))
  | sleepRelease (w) : CodeStep (.sleep w .release) (.release p .user)
  | exitAcquireInit (st) : CodeStep (.exit st .acquireInit) (.acquire initproc (.exit st .wakeInit))
  | exitReleaseInit (st) : CodeStep (.exit st .releaseInit) (.release initproc (.exit st .acquireSelf))
  | exitAcquireSelf (st) : CodeStep (.exit st .acquireSelf) (.acquire p (.exit st .readParent))
  | exitReadParent (st op) (hop : (s.proc p).parent = some op) :
      CodeStep (.exit st .readParent) (.goto (.exit st (.releaseSelf op)))
  | exitReleaseSelf (st op) : CodeStep (.exit st (.releaseSelf op)) (.release p (.exit st (.acquireParent op)))
  | exitAcquireParent (st op) : CodeStep (.exit st (.acquireParent op)) (.acquire op (.exit st (.acquireAgain op)))
  | exitAcquireAgain (st op) : CodeStep (.exit st (.acquireAgain op)) (.acquire p (.exit st (.reparent op 0)))
  | exitChild (st op) (k : Slot) (hpar : (s.proc k).parent = some p) :
      CodeStep (.exit st (.reparent op k)) (.goto (.exit st (.acquireChild op k)))
  | exitSkip (st op) (k : Slot) (hpar : (s.proc k).parent ≠ some p) :
      CodeStep (.exit st (.reparent op k)) (.goto (.exit st (.reparent op (k + 1))))
  | exitReparented (st op k) (hk : ¬ k < NPROC) : CodeStep (.exit st (.reparent op k)) (.goto (.exit st (.finish op)))
  | exitAcquireChild (st op k) : CodeStep (.exit st (.acquireChild op k)) (.acquire k (.exit st (.give op k)))
  | exitReleaseChild (st op k) :
      CodeStep (.exit st (.releaseChild op k)) (.release k (.exit st (.reparent op (k + 1))))
  | exitFinish (st op) : CodeStep (.exit st (.finish op)) (.finish op st (.exit st (.releaseParent op)))
  | exitReleaseParent (st op) : CodeStep (.exit st (.releaseParent op)) (.release op (.exit st .sched))
  | exitSched (st) : CodeStep (.exit st .sched) (.swtch .dead)
  | forkAcquire (j : Slot) : CodeStep (.fork (.acquire j)) (.acquire j (.fork (.test j)))
  | forkFull (j) : CodeStep (.fork (.acquire j)) (.goto .user)
  | forkNumber (j) (hst : (s.proc j).state = .unused) : CodeStep (.fork (.test j)) (.number j (.fork (.fill j)))
  | forkUsed (j) : CodeStep (.fork (.test j)) (.goto (.fork (.release j)))
  | forkRelease (j) : CodeStep (.fork (.release j)) (.release j (.fork (.acquire (j + 1))))
  | forkSpawn (j) : CodeStep (.fork (.fill j)) (.spawn j (.fork (.done j)))
  | forkFailEarly (j) : CodeStep (.fork (.fill j)) (.goto (.fork (.done j)))
  | forkDone (j) : CodeStep (.fork (.done j)) (.release j .user)
  | waitAcquire (addr) : CodeStep (.wait addr .acquire) (.acquire p (.wait addr (.scan 0 false)))
  | waitChild (addr havekids) (k : Slot) (hpar : (s.proc k).parent = some p) :
      CodeStep (.wait addr (.scan k havekids)) (.goto (.wait addr (.acquireChild k)))
  | waitSkip (addr havekids) (k : Slot) (hpar : (s.proc k).parent ≠ some p) :
      CodeStep (.wait addr (.scan k havekids)) (.goto (.wait addr (.scan (k + 1) havekids)))
  | waitNone (addr k havekids) : CodeStep (.wait addr (.scan k havekids)) (.goto (.wait addr .releaseSelf))
  | waitSleep (addr k havekids) (hk : ¬ k < NPROC) :
      CodeStep (.wait addr (.scan k havekids)) (.goto (.sleep (.wait addr) .mark))
  | waitAcquireChild (addr k) : CodeStep (.wait addr (.acquireChild k)) (.acquire k (.wait addr (.test k)))
  | waitReap (addr k) (hst : (s.proc k).state = .zombie) :
      CodeStep (.wait addr (.test k)) (.reap k (.wait addr (.releaseFound k)))
  | waitFail (addr k) : CodeStep (.wait addr (.test k)) (.goto (.wait addr (.releaseFound k)))
  | waitAlive (addr k) (hst : (s.proc k).state ≠ .zombie) :
      CodeStep (.wait addr (.test k)) (.goto (.wait addr (.releaseChild k)))
  | waitReleaseChild (addr k) : CodeStep (.wait addr (.releaseChild k)) (.release k (.wait addr (.scan (k + 1) true)))
  | waitReleaseFound (addr k) : CodeStep (.wait addr (.releaseFound k)) (.release k (.wait addr .releaseSelf))
  | waitReleaseSelf (addr) : CodeStep (.wait addr .releaseSelf) (.release p .user)
  | write (q x pc pc') (hw : Writes s p pc q x pc') : CodeStep pc (.write q x pc')
  | enter (l) : CodeStep (.enter l) (.acquireLk (.inside l))
  | update (x l d l') (hch : ch = .input x) (hbody : M.body p (s.proc p).killed x s.data l = some (.update d l')) :
      CodeStep (.inside l) (.update d (.inside l'))
  | callSleep (x l n l') (hch : ch = .input x) (hbody : M.body p (s.proc p).killed x s.data l = some (.sleep n l')) :
      CodeStep (.inside l) (.goto (.sleep (.monitor n l') .acquire))
  | callWakeup (x l n l') (hch : ch = .input x) (hbody : M.body p (s.proc p).killed x s.data l = some (.wakeup n l')) :
      CodeStep (.inside l) (.goto (.scan (.wakeup (.monitor n)) (.acquire 0) (.inside l')))
  | leave (x l) (hch : ch = .input x) (hbody : M.body p (s.proc p).killed x s.data l = some .leave) :
      CodeStep (.inside l) (.releaseLk .user)

end steps

theorem code_step (h : code s p ch pc = some a) : CodeStep s p ch pc a := by
  revert h
  fun_cases code s p ch pc
  case case3 op hop => rintro ⟨⟩; exact .call op hop
  case case7 i k =>
    cases i <;> rintro ⟨⟩ <;> constructor
    exact .yield k
  case case8 w i k =>
    fun_cases scanCode s w k i <;> rintro ⟨⟩
    case case1 j hj => exact .scanAcquire w k ⟨j, hj⟩
    case case2 j hj => exact .scanEnd w k j hj
    case case3 => exact .write _ _ _ _ (.wakeup _ _ k)
    case case4 => exact .write _ _ _ _ (.kill _ _ k rfl)
    all_goals constructor
  case case9 w i =>
    fun_cases sleepCode s p w i <;> rintro ⟨⟩
    case case5 => exact .write _ _ _ _ (.sleep w)
    case case8 addr => exact .write _ _ _ _ (.tidyWait addr)
    case case9 => exact .write _ _ _ _ (.tidy w)
    all_goals constructor
  case case10 st i =>
    fun_cases exitCode s p st i
    case case2 => rintro ⟨⟩; exact .write _ _ _ _ (.init st)
    case case5 =>
      intro h
      obtain ⟨op, hop, rfl⟩ := Option.map_eq_some_iff.mp h
      exact .exitReadParent st op hop
    case case9 op k hk hpar => rintro ⟨⟩; exact .exitChild st op ⟨k, hk⟩ hpar
    case case10 op k hk hpar => rintro ⟨⟩; exact .exitSkip st op ⟨k, hk⟩ hpar
    case case11 op k hk => rintro ⟨⟩; exact .exitReparented st op k hk
    case case13 op k => rintro ⟨⟩; exact .write _ _ _ _ (.give st op k)
    all_goals rintro ⟨⟩; constructor
  case case11 i =>
    fun_cases forkCode s ch i <;> rintro ⟨⟩
    case case1 j hj => exact .forkAcquire ⟨j, hj⟩
    case case3 j hst => exact .forkNumber j hst
    case case8 j => exact .write _ _ _ _ (.fail j)
    all_goals constructor
  case case12 addr i =>
    fun_cases waitCode s p ch addr i
    case case2 k havekids hk hpar => rintro ⟨⟩; exact .waitChild addr havekids ⟨k, hk⟩ hpar
    case case3 k havekids hk hpar => rintro ⟨⟩; exact .waitSkip addr havekids ⟨k, hk⟩ hpar
    all_goals rintro ⟨⟩ <;> constructor <;> assumption
  case case14 l => fun_cases insideCode s p ch l <;> rintro ⟨⟩ <;> constructor <;> first | rfl | assumption
  all_goals rintro ⟨⟩ <;> constructor

theorem code_locks (hwf : pc.Wf) : ∀ a ∈ code s p ch pc, a.locksOk p pc := by
  intro a ha
  cases code_step ha
  case call op hop => cases op <;> rfl
  case yieldRelease =>
    rw [Act.locksOk, (Pc.interruptible_spec hwf p).1]
    exact .refl _
  case scanEnd => exact (Pc.returns_spec hwf p).1
  case scanDone =>
    rw [Act.locksOk, (Pc.returns_spec hwf p).1]
    exact .refl _
  case write hw => cases hw <;> rfl
  all_goals first | rfl | exact ⟨rfl, rfl⟩ | exact .refl _ | exact .swap _ _ _

theorem code_lk (hwf : pc.Wf) : ∀ a ∈ code s p ch pc, a.lkOk pc := by
  intro a ha
  cases code_step ha
  case call op hop => cases op <;> rfl
  case yieldRelease => exact (Pc.interruptible_spec hwf p).2.1
  case write hw => cases hw <;> rfl
  all_goals first | rfl | exact ⟨rfl, rfl⟩

theorem code_wf (hwf : pc.Wf) : ∀ a ∈ code s p ch pc, a.pc.Wf := by
  intro a ha
  cases code_step ha
  case call op hop => cases op <;> first | trivial | exact .inl rfl
  case yieldRelease => exact (Pc.interruptible_spec hwf p).2.2.2.2
  case scanEnd => exact (Pc.returns_spec hwf p).2.2.2
  case scanDone => exact (Pc.returns_spec hwf p).2.2.2
  case callWakeup => exact .inr ⟨_, rfl⟩
  case write hw => cases hw <;> trivial
  all_goals trivial

theorem code_place (hwf : pc.Wf) : ∀ a ∈ code s p ch pc, a.placeOk pc := by
  intro a ha
  cases code_step ha
  case call op hop => cases op <;> exact ⟨rfl, rfl⟩
  case yieldRelease =>
    obtain ⟨-, -, hruns, hshows, -⟩ := Pc.interruptible_spec hwf p
    exact ⟨hruns, hshows⟩
  case scanEnd =>
    obtain ⟨-, hruns, hshows, -⟩ := Pc.returns_spec hwf p
    exact ⟨hruns, hshows⟩
  case scanDone =>
    obtain ⟨-, hruns, hshows, -⟩ := Pc.returns_spec hwf p
    exact ⟨hruns, hshows⟩
  case yieldSched => exact ⟨⟨rfl, rfl⟩, by simp [Pc.shows]⟩
  case sleepSched => exact ⟨⟨rfl, .inl rfl⟩, by simp [Pc.shows]⟩
  case exitSched => exact ⟨.inl rfl, by simp [Pc.shows, Exit.shows]⟩
  case write hw => cases hw <;> rfl
  all_goals exact ⟨rfl, rfl⟩

/-- The other places where a thread changes more than its position and the locks. -/
def Act.special (s : State M C) (p : Slot) (pc : Pc M.Loc) : Act M → Prop
  | .number q pc' => pc = .fork (.test q) ∧ pc' = .fork (.fill q) ∧ (s.proc q).state = .unused
  | .spawn q pc' => pc = .fork (.fill q) ∧ pc' = .fork (.done q)
  | .finish op status pc' => pc = .exit status (.finish op) ∧ pc' = .exit status (.releaseParent op)
  | .reap q pc' => ∃ addr, pc = .wait addr (.test q) ∧ pc' = .wait addr (.releaseFound q) ∧ (s.proc q).state = .zombie
  | .update _ pc' => ∃ l l', pc = .inside l ∧ pc' = .inside l'
  | .write q x pc' => Writes s p pc q x pc'
  | .swtch pc' => (∃ k, pc = .yield .sched k ∧ pc' = .yield .saved k) ∨
      (∃ w, pc = .sleep w .sched ∧ pc' = .sleep w .saved) ∨ ∃ status, pc = .exit status .sched ∧ pc' = .dead
  | a => ∀ j, a.pc ≠ .fork (.fill j)

theorem Pc.returns.ne_fill {k : Pc L} (h : k.returns) (j : Slot) : k ≠ .fork (.fill j) := by
  rcases h with h | ⟨l, rfl⟩
  · rintro rfl
    simp [Pc.interruptible, Fork.lockFree] at h
  · simp

theorem Pc.returns.ne_sleep {k : Pc L} (h : k.returns) (w : Sleeper L) (i : Sleep) : k ≠ .sleep w i := by
  rcases h with h | ⟨l, rfl⟩
  · rintro rfl
    simp [Pc.interruptible] at h
  · simp

theorem code_special (hwf : pc.Wf) : ∀ a ∈ code s p ch pc, a.special s p pc := by
  intro a ha
  cases code_step ha
  case call op hop => cases op <;> simp [Act.special, Act.pc, Op.entry]
  case yieldSched k => exact .inl ⟨k, rfl, rfl⟩
  case yieldRelease => exact Pc.returns.ne_fill (.inl hwf)
  case scanEnd => exact Pc.returns.ne_fill hwf
  case scanDone => exact Pc.returns.ne_fill hwf
  case sleepSched w => exact .inr (.inl ⟨w, rfl, rfl⟩)
  case exitSched st => exact .inr (.inr ⟨st, rfl, rfl⟩)
  case write hw => exact hw
  all_goals simp_all [Act.special, Act.pc]

theorem perform_acquire [DecidableEq C] {c : C} : perform s c p (.acquire q pc) = some t ↔
    s.lock q = none ∧ { s with thread := update s.thread p pc, lock := update s.lock q (some c) } = t := by
  simp [perform]

theorem perform_acquireLk [DecidableEq C] {c : C} : perform s c p (.acquireLk pc) = some t ↔
    s.lk = none ∧ { s with thread := update s.thread p pc, lk := some c } = t := by
  simp [perform]

variable {pc' : Pc M.Loc} {x : Proc}

theorem Writes.mem_locks (hw : Writes s p pc q x pc') : q ∈ pc.locks p := by
  cases hw <;> simp [Pc.locks, Yield.locks, Scan.locks, Sleep.locks, Exit.locks, Fork.locks]

theorem Writes.ne_fill (hw : Writes s p pc q x pc') (j : Slot) : pc' ≠ .fork (.fill j) := by
  cases hw <;> simp

theorem Proc.wakeup_cases (x : Proc) (chan : Chan) :
    x.wakeup chan = x ∨ x.state = .sleeping ∧ x.wakeup chan = { x with state := .runnable } := by
  by_cases h : x.state = .sleeping ∧ x.chan = some chan
  · exact .inr ⟨h.1, by simp [Proc.wakeup, h]⟩
  · exact .inl (if_neg h)

theorem Proc.wakeup_of_ne (chan : Chan) (h : x.state ≠ .sleeping) : x.wakeup chan = x := by
  simp [Proc.wakeup, h]

theorem Writes.own (hw : Writes s p pc q x pc') (hst : (s.proc p).state = pc.shows)
    (hfill : ∀ j, pc = .fork (.fill j) → (s.proc j).state = .unused) :
    (update s.proc q x p).state = pc'.shows := by
  by_cases h : p = q
  · subst h
    rw [update_self]
    -- a process that runs does not wake itself up
    have hwake : pc.shows = .running → ∀ chan, (s.proc p).wakeup chan = s.proc p := fun h chan =>
      Proc.wakeup_of_ne chan (by simp [hst, h])
    cases hw with
    | wakeup chan k => rw [hwake rfl, hst]; rfl
    | kill pid k => simp [Proc.kill, hst, Pc.shows]
    | init status => rw [hwake rfl, hst]; rfl
    | fail => simp [hfill p rfl, Pc.shows] at hst
    | tidy | tidyWait | give => exact hst
    | _ => rfl
  · rw [update_of_ne h, hst]
    cases hw <;> first | exact absurd rfl h | rfl

end Xv6.Sched

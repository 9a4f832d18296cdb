import Xv6.Lib.RingBuffer
import Xv6.Sched.Monitor

/-!
# Pipes

`pipewrite`, `piperead` and `pipeclose` of `kernel/pipe.c` on one pipe. The bytes come out in the order in which they
went in, after any number of them. A reader can sleep in front of a full ring: `pipewrite` gives up without a wakeup
if it finds that it was killed when the ring is full. Apart from that, whoever sleeps has a reason to.
-/

namespace Xv6.Sched

def PIPESIZE : Nat := 512

/-- `struct pipe`. The last fields are history: the bytes put in and taken out, and what the calls have returned. -/
structure Pipe where
  data : Nat → BitVec 8 := fun _ => 0
  nread : BitVec 32 := 0
  nwrite : BitVec 32 := 0
  readopen : Bool := true
  writeopen : Bool := true
  put : List (BitVec 8) := []
  taken : List (BitVec 8) := []
  results : List (Slot × Int) := []

/-- What the calls do not decide: whether `copyin` gets a byte, and whether `copyout` works. -/
inductive PipeInput
  | none
  | copyin (b : Option (BitVec 8))
  | copyout (ok : Bool)

/-- Where a process is in `pipewrite`, `piperead` and `pipeclose`, with `n` and `i`. In `pipewrite`, `fresh` is
history: bytes have been put in since the last wakeup. -/
inductive PipeLoc
  | writeLoop (n i : Int) (fresh : Bool)
  | writeFull (n i : Int) (fresh : Bool)
  | writeSleep (n i : Int)
  | writeWake (i : Int)
  | readEmpty (n : Int)
  | readLoop (n i : Int)
  | readWake (i : Int)
  | closeEnd (writable : Bool)
  | closeWake (writable : Bool)
  /-- Release the lock and return `v`. -/
  | ret (v : Int)
  | out
  deriving DecidableEq

/-- `&pi->nread`, where readers sleep. -/
def chanRead : Nat := 0

/-- `&pi->nwrite`, where writers sleep. -/
def chanWrite : Nat := 1

namespace Pipe

def empty (pi : Pipe) : Bool := pi.nread = pi.nwrite

def full (pi : Pipe) : Bool := pi.nwrite = pi.nread + BitVec.ofNat 32 PIPESIZE

/-- `pi->data[pi->nwrite++ % PIPESIZE] = ch` -/
def push (pi : Pipe) (b : BitVec 8) : Pipe :=
  { pi with
    data := Function.update pi.data (pi.nwrite.toNat % PIPESIZE) b
    nwrite := pi.nwrite + 1
    put := pi.put ++ [b] }

/-- `ch = pi->data[pi->nread++ % PIPESIZE]` -/
def pop (pi : Pipe) : Pipe :=
  { pi with
    nread := pi.nread + 1
    taken := pi.taken ++ [pi.data (pi.nread.toNat % PIPESIZE)] }

def close (pi : Pipe) (writable : Bool) : Pipe :=
  if writable then { pi with writeopen := false } else { pi with readopen := false }

def code (p : Slot) (killed : Bool) (x : PipeInput) (pi : Pipe) : PipeLoc → Option (Within Pipe PipeLoc)
  | .writeLoop n i fresh =>
    if i < n then some (.update pi (.writeFull n i fresh)) else some (.update pi (.writeWake i))
  | .writeFull n i _ =>
    if pi.full then
      if !pi.readopen || killed then some (.update pi (.ret (-1)))
      else some (.wakeup chanRead (.writeSleep n i))
    else
      match x with
      | .copyin none => some (.update pi (.writeWake i))
      | .copyin (some b) => some (.update (pi.push b) (.writeLoop n (i + 1) true))
      | _ => none
  | .writeSleep n i => some (.sleep chanWrite (.writeFull n i false))
  | .writeWake i => some (.wakeup chanRead (.ret i))
  | .readEmpty n =>
    if pi.empty && pi.writeopen then
      if killed then some (.update pi (.ret (-1))) else some (.sleep chanRead (.readEmpty n))
    else some (.update pi (.readLoop n 0))
  | .readLoop n i =>
    if i < n then
      if pi.empty then some (.update pi (.readWake i))
      else
        match x with
        | .copyout true => some (.update pi.pop (.readLoop n (i + 1)))
        | .copyout false => some (.update pi.pop (.readWake i))
        | _ => none
    else some (.update pi (.readWake i))
  | .readWake i => some (.wakeup chanWrite (.ret i))
  | .closeEnd writable => some (.update (pi.close writable) (.closeWake writable))
  | .closeWake writable => some (.wakeup (if writable then chanRead else chanWrite) .out)
  | .ret v => some (.update { pi with results := pi.results ++ [(p, v)] } .out)
  | .out => some .leave

/-- The places where the functions start. -/
def starts : PipeLoc → Bool
  | .writeLoop _ i fresh => i = 0 && !fresh
  | .readEmpty _ | .closeEnd _ => true
  | _ => false

end Pipe

def pipe : Monitor where
  Data := Pipe
  Loc := PipeLoc
  Input := PipeInput
  data := {}
  allowed _ _ l := Pipe.starts l
  body p killed x pi l := pi.code p killed x l

namespace Pipe

variable {pi pi' : Pipe} {p q : Slot} {killed : Bool} {x : PipeInput} {l l' : PipeLoc}

/-! ## First in, first out -/

def ring (pi : Pipe) : RingBuffer (BitVec 8) PIPESIZE 32 := ⟨pi.data, pi.nread, pi.nwrite⟩

theorem pipesize_dvd : PIPESIZE ∣ 2 ^ 32 := by decide

theorem pipesize_lt : PIPESIZE < 2 ^ 32 := by decide

/-- What has been put in and not been taken out is in the ring, in that order. -/
def Fifo (pi : Pipe) : Prop := ∃ rest, pi.put = pi.taken ++ rest ∧ pi.ring.Holds pi.taken.length rest

theorem Fifo.push (h : pi.Fifo) (hfull : pi.full = false) (b : BitVec 8) : (pi.push b).Fifo := by
  obtain ⟨rest, hput, hring⟩ := h
  have hlt : rest.length < PIPESIZE := by
    refine Nat.lt_of_le_of_ne hring.bound fun heq => ?_
    exact of_decide_eq_false hfull ((hring.full_iff pipesize_lt).mpr heq)
  exact ⟨rest ++ [b], by simp [Pipe.push, hput], hring.push pipesize_dvd hlt⟩

theorem Fifo.pop (h : pi.Fifo) (hempty : pi.empty = false) : pi.pop.Fifo := by
  obtain ⟨rest, hput, hring⟩ := h
  cases rest with
  | nil => exact absurd ((hring.empty_iff pipesize_lt).mpr rfl) (of_decide_eq_false hempty)
  | cons b rest =>
    obtain ⟨hfront, hpop⟩ := hring.front_pop pipesize_dvd
    refine ⟨rest, ?_, ?_⟩
    · have hb : pi.data (pi.nread.toNat % PIPESIZE) = b := hfront
      simp [Pipe.pop, hput, hb]
    · rw [show pi.pop.taken.length = pi.taken.length + 1 by simp [Pipe.pop]]
      exact hpop

theorem Fifo.congr (h : pi.Fifo) (hring : pi'.ring = pi.ring) (hput : pi'.put = pi.put)
    (htaken : pi'.taken = pi.taken) :
    pi'.Fifo := by
  unfold Fifo
  rw [hring, hput, htaken]
  exact h

/-- What a step of the code does to the pipe. -/
inductive Does (pi : Pipe) (p : Slot) : PipeLoc → Pipe → PipeLoc → Prop
  | stay {l l' : PipeLoc} : Does pi p l pi l'
  | push (n i : Int) (fresh : Bool) (b : BitVec 8) (hfull : pi.full = false) :
      Does pi p (.writeFull n i fresh) (pi.push b) (.writeLoop n (i + 1) true)
  | pop (n i : Int) (l' : PipeLoc) (hl : l' = .readLoop n (i + 1) ∨ l' = .readWake i) (hempty : pi.empty = false) :
      Does pi p (.readLoop n i) pi.pop l'
  | close (writable : Bool) : Does pi p (.closeEnd writable) (pi.close writable) (.closeWake writable)
  | ret (v : Int) : Does pi p (.ret v) { pi with results := pi.results ++ [(p, v)] } .out

theorem code_update (h : pi.code p killed x l = some (.update pi' l')) : Does pi p l pi' l' := by
  revert h
  fun_cases code p killed x pi l <;> rintro ⟨⟩
  case case6 n i fresh hfull b => exact .push n i fresh b (by simpa using hfull)
  case case14 n i hi hempty => exact .pop n i _ (.inl rfl) (by simpa using hempty)
  case case15 n i hi hempty => exact .pop n i _ (.inr rfl) (by simpa using hempty)
  case case19 writable => exact .close writable
  case case21 v => exact .ret v
  all_goals exact .stay

theorem Does.fifo (hdoes : Does pi p l pi' l') (h : pi.Fifo) : pi'.Fifo := by
  cases hdoes with
  | stay => exact h
  | push n i fresh b hfull => exact h.push hfull b
  | pop n i l' hl hempty => exact h.pop hempty
  | close writable => cases writable <;> exact h.congr rfl rfl rfl
  | ret v => exact h.congr rfl rfl rfl

/-! ## Sleepers -/

/-- A reader sleeps because the ring is empty and somebody can still write, a writer because it is full and
somebody can still read. -/
def Reason (pi : Pipe) (n : Nat) : Prop :=
  n = chanRead ∧ pi.empty = true ∧ pi.writeopen = true ∨ n = chanWrite ∧ pi.full = true ∧ pi.readopen = true

/-- The wakeups that are still to come. -/
def Owes (l : PipeLoc) (_ : Pipe) (n : Nat) : Prop :=
  match l with
  | .writeLoop _ _ fresh | .writeFull _ _ fresh => fresh = true ∧ n = chanRead
  | .writeWake _ => n = chanRead
  | .readLoop _ _ | .readWake _ => n = chanWrite
  | .closeWake writable => n = if writable then chanRead else chanWrite
  | _ => False

/-- Before `pipewrite` goes to sleep, it has found the ring full. -/
def Valid (_ : Slot) (l : PipeLoc) (pi : Pipe) : Prop :=
  ∀ n i, l = .writeSleep n i → pi.full = true ∧ pi.readopen = true

def Pre (_ : Slot) (l : PipeLoc) (_ : Pipe) : Prop := ∀ n i, l ≠ .writeSleep n i

theorem code_pre (h : pi.code p killed x l = some (.update pi' l')) : Pre p l' pi' := by
  revert h
  fun_cases code p killed x pi l <;> rintro ⟨⟩ <;> simp [Pre]

theorem code_sleep {n : Nat} (h : pi.code p killed x l = some (.sleep n l')) : Pre p l' pi := by
  revert h
  fun_cases code p killed x pi l <;> rintro ⟨⟩ <;> simp [Pre]

theorem code_wakeup {n : Nat} (h : pi.code p killed x l = some (.wakeup n l')) : Valid p l' pi := by
  revert h
  fun_cases code p killed x pi l <;> rintro ⟨⟩ <;> simp_all [Valid]

def proto : Proto pipe where
  Good := Fifo
  Pre := Pre
  Valid := Valid
  start := ⟨[], rfl, rfl, rfl, Nat.zero_le _, fun i h => absurd h (Nat.not_lt_zero i)⟩
  call := by
    rintro pi p l h n i rfl
    cases h
  enter _ h n i hl := absurd hl (h n i)
  update h hgood _ := ⟨(code_update h).fifo hgood, fun n i hl => absurd hl (code_pre h n i), fun _ _ _ hpre => hpre⟩
  sleep h _ _ := code_sleep h
  wakeup h _ _ := code_wakeup h

theorem chanWrite_of_reason (hempty : ¬ pi.empty = true) {n : Nat} (h : Reason pi n ∨ n = chanWrite) :
    n = chanWrite := by
  rcases h with (⟨-, h, -⟩ | ⟨h, -⟩) | h
  · exact absurd h hempty
  · exact h
  · exact h

theorem code_keeps (hvalid : Valid p l pi)
    (hok : ∀ n i, l = .writeFull n i true → pi.full = true → pi.readopen = true ∧ killed = false)
    {w : Within Pipe PipeLoc} (h : pi.code p killed x l = some w) : Keeps (M := pipe) Reason Owes pi l w := by
  revert h
  fun_cases code p killed x pi l <;> rintro ⟨⟩
  case case1 => exact fun m h => h
  case case2 => exact fun m h => h.imp_right (·.2)
  case case3 n i fresh hfull hexit =>
    refine fun m h => .inl (h.resolve_right ?_)
    rintro ⟨rfl, -⟩
    obtain ⟨hopen, hkilled⟩ := hok n i rfl hfull
    simp [hopen, hkilled] at hexit
  case case4 => exact fun m hm h => absurd h.2 hm
  case case5 => exact fun m h => h.imp_right (·.2)
  case case6 n i fresh hfull b =>
    refine fun m h => .inr ⟨rfl, ?_⟩
    rcases h with (⟨hm, -⟩ | ⟨-, hfull', -⟩) | ⟨-, hm⟩
    · exact hm
    · exact absurd hfull' hfull
    · exact hm
  case case8 n i => exact ⟨.inr ⟨rfl, hvalid n i rfl⟩, fun m h => absurd h id⟩
  case case9 => exact fun m hm h => absurd h hm
  case case10 => exact fun m h => .inl (h.resolve_right id)
  case case11 n hempty hkilled =>
    rw [Bool.and_eq_true] at hempty
    exact ⟨.inl ⟨rfl, hempty⟩, fun m h => absurd h id⟩
  case case12 => exact fun m h => .inl (h.resolve_right id)
  case case13 => exact fun m h => h
  case case14 n i hi hempty => exact fun m h => .inr (chanWrite_of_reason hempty h)
  case case15 n i hi hempty => exact fun m h => .inr (chanWrite_of_reason hempty h)
  case case17 => exact fun m h => h
  case case18 => exact fun m hm h => absurd h hm
  case case19 writable =>
    rintro m ((⟨rfl, h⟩ | ⟨rfl, h⟩) | h)
    · cases writable with
      | true => exact .inr rfl
      | false => exact .inl (.inl ⟨rfl, h⟩)
    · cases writable with
      | true => exact .inl (.inr ⟨rfl, h⟩)
      | false => exact .inr rfl
    · exact absurd h id
  case case20 => exact fun m hm h => absurd h hm
  case case21 => exact fun m h => .inl (h.resolve_right id)
  case case22 => exact fun m h => absurd h id

end Pipe

open Machine (Run any)

variable {C : Type} [DecidableEq C] {s t : State pipe C} {c : C} {p : Slot} {ch : Choice pipe}

/-! ## The end of the file -/

/-- In a call of `piperead` that has not taken anything. -/
inductive AtEof : Pc PipeLoc → Prop
  | test (n : Int) : AtEof (.inside (.readEmpty n))
  | loop (n : Int) : AtEof (.inside (.readLoop n 0))
  | wake : AtEof (.inside (.readWake 0))
  | scan (i : Scan) : AtEof (.scan (.wakeup (.monitor chanWrite)) i (.inside (.ret 0)))
  | ret : AtEof (.inside (.ret 0))

/-- How many steps of its own such a call has left; those of `wakeup` are three for each entry of the table. -/
def eofLeft : Pc PipeLoc → Nat
  | .inside (.readEmpty _) => 3 * NPROC + 5
  | .inside (.readLoop _ _) => 3 * NPROC + 4
  | .inside (.readWake _) => 3 * NPROC + 3
  | .scan _ (.acquire j) _ => 3 * (NPROC - j) + 2
  | .scan _ (.body j) _ => 3 * (NPROC - j) + 1
  | .scan _ (.release j _) _ => 3 * (NPROC - j)
  | .inside (.ret _) => 1
  | _ => 0

/-- In `wakeup`, the process waits on CPU `c` for the lock of an entry, which another CPU has. -/
def Spins (s : State pipe C) (c : C) (p : Slot) : Prop := ∃ (w : Scanner) (j : Slot) (k : Pc PipeLoc) (c' : C),
  s.thread p = .scan w (.acquire j) k ∧ s.lock j = some c' ∧ c' ≠ c

theorem AtEof.lkHeld {pc : Pc PipeLoc} (h : AtEof pc) : pc.lkHeld = true := by cases h <;> rfl

omit [DecidableEq C] in
theorem code_atEof {pc : Pc PipeLoc} (hpos : AtEof pc) (hempty : s.data.empty = true)
    (hclosed : s.data.writeopen = false)
    {a : Act pipe} (ha : code s p ch pc = some a) :
    (a.data s.data = s.data ∧ AtEof a.pc ∧ eofLeft a.pc < eofLeft pc) ∨
      (a.data s.data).results = s.data.results ++ [(p, 0)] := by
  cases hpos with
  | scan i =>
    left
    cases i with
    | acquire j =>
      simp only [code, scanCode] at ha
      split at ha
      · cases ha; exact ⟨rfl, .scan _, Nat.lt_succ_self _⟩
      · cases ha; exact ⟨rfl, .ret, Nat.le_add_left ..⟩
    | body j => cases ha; exact ⟨rfl, .scan _, Nat.lt_succ_self _⟩
    | release j done =>
      have hj := j.isLt
      cases done
      · cases ha; exact ⟨rfl, .scan _, by simp only [Act.pc, eofLeft]; omega⟩
      · cases ha; exact ⟨rfl, .ret, by simp only [Act.pc, eofLeft]; omega⟩
  | test n =>
    cases ch with
    | input x =>
      simp only [code, insideCode, pipe, Pipe.code, hclosed, Bool.and_false, Bool.false_eq_true, if_false] at ha
      cases ha
      exact .inl ⟨rfl, .loop n, Nat.lt_succ_self _⟩
    | _ => cases ha
  | loop n =>
    cases ch with
    | input x =>
      simp only [code, insideCode, pipe, Pipe.code, hempty, if_true, ite_self] at ha
      cases ha
      exact .inl ⟨rfl, .wake, Nat.lt_succ_self _⟩
    | _ => cases ha
  | wake =>
    cases ch with
    | input x => cases ha; exact .inl ⟨rfl, .scan _, Nat.lt_succ_self _⟩
    | _ => cases ha
  | ret =>
    cases ch with
    | input x => cases ha; exact .inr rfl
    | _ => cases ha

theorem step_results (hi : Inv s) (h : step s (c, ch) = some t) : s.data.results <+: t.data.results := by
  rcases step_body hi h with hsame | ⟨p, l, l', x, hbody⟩
  · exact ⟨[], by rw [hsame, List.append_nil]⟩
  · have hdoes := Pipe.code_update hbody
    generalize t.data = pi at hdoes
    cases hdoes with
    | close writable => cases writable <;> exact List.prefix_rfl
    | ret v => exact List.prefix_append ..
    | _ => exact List.prefix_rfl

theorem step_own (h : step s (c, ch) = some t) (hc : (s.cpu c).pc = .away p) (hlk : (s.thread p).lkHeld = true) :
    ∃ a, code s p ch (s.thread p) = some a ∧ perform s c p a = some t := by
  have hint : (s.thread p).interruptible = false :=
    Bool.eq_false_iff.mpr fun hk => by simp [(Pc.interruptible_spec hk p).2.1] at hlk
  simp only [step, hc] at h
  cases ch with
  | timer => simp [procStep, hint] at h
  | device chan => simp [procStep, hint] at h
  | _ => exact Option.bind_eq_some_iff.mp h

theorem step_atEof (hi : Inv s) (h : step s (c, ch) = some t) (hpos : AtEof (s.thread p)) (hempty : s.data.empty = true)
    (hclosed : s.data.writeopen = false) :
    t.data.results = s.data.results ++ [(p, 0)] ∨ t.data = s.data ∧ AtEof (t.thread p) ∧
      if (s.cpu c).pc = .away p then eofLeft (t.thread p) < eofLeft (s.thread p) else t.thread p = s.thread p := by
  by_cases hc : (s.cpu c).pc = .away p
  · obtain ⟨a, ha, ht⟩ := step_own h hc hpos.lkHeld
    rw [if_pos hc, perform_data ht, perform_self ht]
    exact (code_atEof hpos hempty hclosed ha).symm
  · rcases step_holder hi h hpos.lkHeld with ⟨hsame, hdata⟩ | ⟨a, hc', -⟩
    · exact .inr ⟨hdata, hsame ▸ hpos, by rwa [if_neg hc]⟩
    · exact absurd hc' hc

theorem enabled_atEof (hi : Inv s) (hpos : AtEof (s.thread p)) (hempty : s.data.empty = true)
    (hclosed : s.data.writeopen = false) :
    ∃ c, (s.cpu c).pc = .away p ∧ ((∃ ch, (step s (c, ch)).isSome) ∨ Spins s c p) := by
  obtain ⟨c, hc⟩ := hi.exists_away (Pc.runs_of_lkHeld hpos.lkHeld)
  refine ⟨c, hc, ?_⟩
  have hgo : step s (c, .go) = (code s p .go (s.thread p)).bind (perform s c p) := by simp only [step, hc, procStep]
  have hinput : step s (c, .input PipeInput.none) =
      (code s p (.input PipeInput.none) (s.thread p)).bind (perform s c p) := by simp only [step, hc, procStep]
  generalize hpc : s.thread p = pc at hpos hgo hinput
  cases hpos with
  | scan i =>
    cases i with
    | acquire j =>
      by_cases hj : j < NPROC
      · cases hlock : s.lock ⟨j, hj⟩ with
        | none => exact .inl ⟨.go, by simp [hgo, code, scanCode, hj, perform, hlock]⟩
        | some c' =>
          refine .inr ⟨_, ⟨j, hj⟩, _, c', hpc, hlock, ?_⟩
          rintro rfl
          have hmem := (hi.locks ⟨j, hj⟩ c').mp hlock
          simp [State.locks, hc, hpc, Pc.locks, Scan.locks] at hmem
      · exact .inl ⟨.go, by simp [hgo, code, scanCode, hj, perform]⟩
    | body j => exact .inl ⟨.go, by rw [hgo]; rfl⟩
    | release j done => exact .inl ⟨.go, by cases done <;> (rw [hgo]; rfl)⟩
  | test n =>
    exact .inl ⟨.input PipeInput.none, by
      rw [hinput]
      simp [code, insideCode, pipe, Pipe.code, hclosed, perform]⟩
  | loop n =>
    exact .inl ⟨.input PipeInput.none, by
      rw [hinput]
      simp [code, insideCode, pipe, Pipe.code, hempty, perform]⟩
  | wake => exact .inl ⟨.input PipeInput.none, by rw [hinput]; rfl⟩
  | ret => exact .inl ⟨.input PipeInput.none, by rw [hinput]; rfl⟩

theorem run_atEof (hi : Inv s) {es : List (C × Choice pipe)} (h : Run step any s es t)
    (hpos : AtEof (s.thread p)) (hempty : s.data.empty = true) (hclosed : s.data.writeopen = false) :
    (t.data = s.data ∧ AtEof (t.thread p)) ∨ s.data.results ++ [(p, 0)] <+: t.data.results := by
  have hinv := h.inv (I := fun _ t => Inv t ∧ ((t.data = s.data ∧ AtEof (t.thread p)) ∨
    s.data.results ++ [(p, 0)] <+: t.data.results)) ⟨hi, .inl ⟨rfl, hpos⟩⟩ ?_
  · exact hinv.2
  rintro es t ⟨c, ch⟩ u - ⟨hi, hor⟩ - hs
  refine ⟨hi.step hs, ?_⟩
  rcases hor with ⟨hdata, hpos⟩ | hpre
  · rcases step_atEof hi hs hpos (hdata ▸ hempty) (hdata ▸ hclosed) with hres | ⟨hdata', hpos', -⟩
    · exact .inr ⟨[], by rw [hres, hdata, List.append_nil]⟩
    · exact .inl ⟨hdata'.trans hdata, hpos'⟩
  · exact .inr (hpre.trans (step_results hi hs))

/-- A pipe is a queue: what comes out went in before, in the same order, and nothing is overwritten. When it has
been closed and emptied, a call of `piperead` returns 0: each step that it takes brings it closer to that, and it can
take one unless another CPU has the lock that it waits for. -/
theorem pipe_is_a_queue (h : Reachable s) :
    s.data.taken <+: s.data.put ∧
    s.data.taken.length + (s.data.nwrite - s.data.nread).toNat = s.data.put.length ∧
    (s.data.nwrite - s.data.nread).toNat ≤ PIPESIZE ∧
    (∀ k < (s.data.nwrite - s.data.nread).toNat,
      s.data.put[s.data.taken.length + k]? = some (s.data.data ((s.data.taken.length + k) % PIPESIZE))) ∧
    (∀ p n es t, s.thread p = .inside (.readEmpty n) → s.data.writeopen = false → s.data.nread = s.data.nwrite →
      Run step any s es t →
        s.data.results ++ [(p, 0)] <+: t.data.results ∨ t.data = s.data ∧ AtEof (t.thread p)) ∧
    ∀ p, AtEof (s.thread p) → s.data.writeopen = false → s.data.nread = s.data.nwrite →
      (∃ c, (s.cpu c).pc = .away p ∧ ((∃ ch, (step s (c, ch)).isSome) ∨ Spins s c p)) ∧
      ∀ c ch t, step s (c, ch) = some t →
        t.data.results = s.data.results ++ [(p, 0)] ∨ t.data = s.data ∧ AtEof (t.thread p) ∧
          if (s.cpu c).pc = .away p then eofLeft (t.thread p) < eofLeft (s.thread p)
          else t.thread p = s.thread p := by
  obtain ⟨es, hrun⟩ := h
  obtain ⟨hi, hh⟩ := hrun.inv (I := fun _ s => Inv s ∧ Pipe.proto.Holds s) ⟨inv_boot, Proto.boot⟩
    fun _ _ _ _ _ ⟨hi, hh⟩ _ hs => ⟨hi.step hs, hh.step hi hs⟩
  obtain ⟨rest, hput, hring⟩ := hh.inv
  have hlen : (s.data.nwrite - s.data.nread).toNat = rest.length := hring.toNat_sub Pipe.pipesize_lt
  refine ⟨⟨rest, hput.symm⟩, ?_, hlen ▸ hring.bound, ?_, ?_, ?_⟩
  · rw [hlen, hput, List.length_append]
  · intro k hk
    rw [hlen] at hk
    rw [hput, List.getElem?_append_right (Nat.le_add_right ..), Nat.add_sub_cancel_left, List.getElem?_eq_getElem hk,
      ← hring.cells k hk]
    rfl
  · intro p n es t hpc hclosed hempty ht
    exact (run_atEof hi ht (hpc ▸ .test n) (decide_eq_true hempty) hclosed).symm
  · intro p hpos hclosed hempty
    exact ⟨enabled_atEof hi hpos (decide_eq_true hempty) hclosed,
      fun c ch t hs => step_atEof hi hs hpos (decide_eq_true hempty) hclosed⟩

/-- `init` puts a byte in, takes it out and closes the pipe for writing. It is about to read again. -/
def readAtEnd : List (Fin 3 × Choice pipe) :=
  goes 0 4 ++ [(0, .call (.enter (PipeLoc.writeLoop 1 0 false))), (0, .go), (0, .input PipeInput.none),
    (0, .input (PipeInput.copyin (some 7))), (0, .input PipeInput.none), (0, .input PipeInput.none)] ++ goes 0 193 ++
  [(0, .input PipeInput.none), (0, .input PipeInput.none), (0, .call (.enter (PipeLoc.readEmpty 1))), (0, .go),
    (0, .input PipeInput.none), (0, .input (PipeInput.copyout true)), (0, .input PipeInput.none),
    (0, .input PipeInput.none)] ++ goes 0 193 ++
  [(0, .input PipeInput.none), (0, .input PipeInput.none), (0, .call (.enter (PipeLoc.closeEnd true))), (0, .go),
    (0, .input PipeInput.none), (0, .input PipeInput.none)] ++ goes 0 193 ++
  [(0, .input PipeInput.none), (0, .call (.enter (PipeLoc.readEmpty 1))), (0, .go)]

/-- Its second call returns 0. -/
def readReturns : List (Fin 3 × Choice pipe) :=
  List.replicate 3 (0, .input PipeInput.none) ++ goes 0 193 ++ [(0, .input PipeInput.none)]

instance : DecidableEq pipe.Loc := inferInstanceAs (DecidableEq PipeLoc)

theorem pipe_is_a_queue_readAtEnd : ∃ s t : State pipe (Fin 3), Run step any s readReturns t ∧
    s.data.put = [7] ∧ s.data.taken = [7] ∧ s.data.writeopen = false ∧
    s.data.results = [(initproc, 1), (initproc, 1)] ∧ s.thread initproc = .inside (.readEmpty 1) ∧
    t.data.results = [(initproc, 1), (initproc, 1), (initproc, 0)] ∧
    (s.data.results ++ [(initproc, 0)] <+: t.data.results ∨ t.data = s.data ∧ AtEof (t.thread initproc)) ∧
    (∃ c, (s.cpu c).pc = .away initproc ∧ ((∃ ch, (step s (c, ch)).isSome) ∨ Spins s c initproc)) := by
  obtain ⟨s, hs, hput, htaken, hclosed, hresults, hpc, hempty, t, ht, hret⟩ : ∃ s : State pipe (Fin 3), Reachable s ∧
      s.data.put = [7] ∧ s.data.taken = [7] ∧ s.data.writeopen = false ∧
      s.data.results = [(initproc, 1), (initproc, 1)] ∧ s.thread initproc = .inside (.readEmpty 1) ∧
      s.data.nread = s.data.nwrite ∧ ∃ t, Run step any s readReturns t ∧
        t.data.results = [(initproc, 1), (initproc, 1), (initproc, 0)] :=
    exists_reachable readAtEnd (by decide +kernel)
  obtain ⟨-, -, -, -, hrun, hstep⟩ := pipe_is_a_queue hs
  exact ⟨s, t, ht, hput, htaken, hclosed, hresults, hpc, hret, hrun _ _ _ _ hpc hclosed hempty ht,
    (hstep _ (hpc ▸ .test 1) hclosed hempty).1⟩

/-! ## Who sleeps -/

/-- `pipewrite` does not give up with bytes in the ring that it has not called `wakeup` for. -/
def wakesReaders (s : State pipe C) (e : C × Choice pipe) : Bool :=
  match (s.cpu e.1).pc with
  | .away p =>
    match s.thread p with
    | .inside (.writeFull _ _ true) => !s.data.full || s.data.readopen && !(s.proc p).killed
    | _ => true
  | _ => true

omit [DecidableEq C] in
theorem keeps_of_wakesReaders (hh : Pipe.proto.Holds s) (hok : wakesReaders s (c, ch) = true)
    (hc : (s.cpu c).pc = .away p) : KeepsStep Pipe.Reason Pipe.Owes s ch p := by
  intro l x w hpc hch hbody
  have hvalid : Pipe.Valid p l s.data := by
    have hfits := hh.fits p
    rwa [hpc] at hfits
  refine Pipe.code_keeps hvalid ?_ hbody
  rintro n i rfl hfull
  simpa [wakesReaders, hc, hpc, hfull] using hok

/-- As long as `pipewrite` wakes up the readers whenever it has put something in, an end of the pipe that sleeps has a
reason to. -/
theorem pipe_sleepers_have_a_reason {es : List (C × Choice pipe)}
    (h : Run step (fun s e => wakesReaders s e = true) (State.boot pipe C) es s) (hlk : s.lk = none) (p : Slot)
    (hst : (s.proc p).state = .sleeping) :
    ((s.proc p).chan = some (.monitor chanRead) → s.data.nread = s.data.nwrite ∧ s.data.writeopen = true) ∧
    ((s.proc p).chan = some (.monitor chanWrite) →
      s.data.nwrite = s.data.nread + BitVec.ofNat 32 PIPESIZE ∧ s.data.readopen = true) := by
  obtain ⟨-, hr⟩ := monitor_run Pipe.Reason Pipe.Owes Pipe.proto h
    fun s c ch p hh hok hc => keeps_of_wakesReaders hh hok hc
  refine ⟨fun hchan => ?_, fun hchan => ?_⟩
  · rcases hr p chanRead hlk (.inr ⟨hst, hchan⟩) with ⟨-, hempty, hopen⟩ | ⟨hch, -⟩
    · exact ⟨of_decide_eq_true hempty, hopen⟩
    · cases hch
  · rcases hr p chanWrite hlk (.inr ⟨hst, hchan⟩) with ⟨hch, -⟩ | ⟨-, hfull, hopen⟩
    · cases hch
    · exact ⟨of_decide_eq_true hfull, hopen⟩

/-- `init` makes processes 1 and 2, which run on CPUs of their own. -/
def twoForks : List (Fin 3 × Choice pipe) :=
  goes 0 4 ++ (0, .call .fork) :: goes 0 7 ++ goes 1 7 ++ (0, .call .fork) :: goes 0 10 ++ goes 2 10

/-- Process 1 reads from the empty pipe and sleeps. -/
def readerSleeps : List (Fin 3 × Choice pipe) :=
  [(1, .call (.enter (PipeLoc.readEmpty 1))), (1, .go), (1, .input PipeInput.none)] ++ goes 1 6

theorem pipe_sleepers_have_a_reason_readerSleeps : ∃ s : State pipe (Fin 3), s.lk = none ∧
    (s.proc slot1).state = .sleeping ∧
    ((s.proc slot1).chan = some (.monitor chanRead) → s.data.nread = s.data.nwrite ∧ s.data.writeopen = true) ∧
    ((s.proc slot1).chan = some (.monitor chanWrite) →
      s.data.nwrite = s.data.nread + BitVec.ofNat 32 PIPESIZE ∧ s.data.readopen = true) := by
  obtain ⟨s, hs, hlk, hst⟩ : ∃ s, Run step (fun s e => wakesReaders s e = true) (State.boot pipe (Fin 3))
      (twoForks ++ readerSleeps) s ∧ s.lk = none ∧ (s.proc slot1).state = .sleeping :=
      by decide +kernel
  exact ⟨s, hlk, hst, pipe_sleepers_have_a_reason hs hlk slot1 hst⟩

/-- Process 2 writes 513 bytes and has put in 512 of them, when `init` kills it. -/
def writerKilled : List (Fin 3 × Choice pipe) :=
  [(2, .call (.enter (PipeLoc.writeLoop 513 0 false))), (2, .go)] ++
    (List.replicate 512 [(2, .input PipeInput.none), (2, .input (PipeInput.copyin (some 0)))]).flatten ++
    (0, .call (.kill 3)) :: goes 0 9 ++ List.replicate 4 (2, .input PipeInput.none)

/-- Process 1 still sleeps on the pipe, which is full. -/
theorem pipe_reader_sleeps_on_full_ring : ∃ s : State pipe (Fin 3), Reachable s ∧ s.lk = none ∧
    (s.proc slot1).state = .sleeping ∧ (s.proc slot1).chan = some (.monitor chanRead) ∧
    s.data.nread ≠ s.data.nwrite :=
  exists_reachable (twoForks ++ readerSleeps ++ writerKilled) (by decide +kernel)

end Xv6.Sched

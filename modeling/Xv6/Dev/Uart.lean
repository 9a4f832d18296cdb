import Xv6.Lib.RingBuffer
import Xv6.Lib.Run
import Xv6.Panic

/-!
# The transmit buffer of the UART

`uartputc` by any number of processes, and `uartstart` as it and `uartintr` call it, of `kernel/uart.c`. A
step is taken by the thread that has `uart_tx_lock`, by one that acquires it, or by the device, which may
become ready and interrupt at any time. `sleep` gives up the lock and sleeps in one step, but not if the
caller holds another spinlock: `sched` panics then. `consolewrite`, the only caller in the kernel, does hold
`cons.lock`.
-/

namespace Xv6.Uart

open Machine (Run any)

abbrev Char8 := BitVec 8

def UART_TX_BUF_SIZE : Nat := 32

/-- Where the thread with the lock is: in the loop of `uartputc`, perhaps with another spinlock, in that of
`uartstart`, or before `WriteReg`. -/
inductive Loc
  | putc (c : Char8) (locked : Bool)
  | start
  | send (c : Char8)

structure State where
  /-- `uart_tx_buf`, `uart_tx_r` and `uart_tx_w`; the indices are kept modulo the size. -/
  tx : RingBuffer Char8 UART_TX_BUF_SIZE 5 := ⟨fun _ => 0, 0, 0⟩
  lock : Option Loc := none
  /-- `LSR_TX_IDLE` -/
  idle : Bool := true
  /-- The device has interrupted, and `uartintr` has not got the lock yet. -/
  irq : Bool := false
  /-- The characters of processes that sleep on `uart_tx_r`, and of those woken up. -/
  asleep : List Char8 := []
  woken : List Char8 := []
  panicked : Option Panic := none
  /-- History: what went into the buffer, and what was written to `THR`. -/
  put : List Char8 := []
  sent : List Char8 := []

inductive Event
  | putc (c : Char8) (locked : Bool)
  | resume (c : Char8)
  | intr
  | go
  | ready

namespace State

variable {u v : State} {q : List Char8} {e : Event} {l : Loc}

def acquire (u : State) (l : Loc) : Option State := if u.lock.isNone then some { u with lock := some l } else none

def go (u : State) : Loc → State
  | .putc c locked =>
    if u.tx.tail + 1 = u.tx.head then
      -- `noff` counts the other spinlock
      if locked then { u with panicked := some .schedLocks } else { u with lock := none, asleep := c :: u.asleep }
    else { u with tx := u.tx.push c, put := u.put ++ [c], lock := some .start }
  | .start =>
    if u.tx.tail = u.tx.head then { u with lock := none }
    else if u.idle then
      { u with tx := u.tx.pop, lock := some (.send u.tx.front), asleep := [], woken := u.woken ++ u.asleep }
    else { u with lock := none }
  | .send c => { u with sent := u.sent ++ [c], idle := false, lock := some .start }

def next (u : State) : Event → Option State
  | .putc c locked => u.acquire (.putc c locked)
  | .resume c => if c ∈ u.woken then { u with woken := u.woken.erase c }.acquire (.putc c false) else none
  | .intr => { u with irq := false }.acquire .start
  | .go => u.lock.map u.go
  | .ready => if u.idle then none else some { u with idle := true, irq := true }

def step (u : State) (e : Event) : Option State := if u.panicked.isNone then u.next e else none

/-- The character that `uartstart` has taken out and not written yet. -/
def hand (u : State) : List Char8 :=
  match u.lock with
  | some (.send c) => [c]
  | _ => []

/-- Nobody is in `uartstart`. -/
def Out (u : State) : Prop := ∀ l, u.lock = some l → ∃ c locked, l = .putc c locked

/-- The buffer holds `q`. Processes sleep only while it is full, and outside `uartstart` it is empty or the device is
busy or has interrupted. -/
structure Inv (u : State) (q : List Char8) : Prop where
  ring : u.tx.Holds (u.sent ++ u.hand).length q
  fits : q.length < 32
  put : u.put = u.sent ++ u.hand ++ q
  asleep : u.asleep ≠ [] → q.length = 31
  driven : u.Out → q ≠ [] → u.idle = true → u.irq = true
  panicked : ∀ e, u.panicked = some e → e = .schedLocks ∧ q.length = 31 ∧ ∃ c, u.lock = some (.putc c true)

theorem Inv.full_empty (h : u.Inv q) :
    (u.tx.tail + 1 = u.tx.head ↔ q.length = 31) ∧ (u.tx.tail = u.tx.head ↔ q = []) := by
  have hlt := h.fits
  rw [h.ring.head, h.ring.tail, ← List.length_eq_zero_iff]
  constructor <;> bv_omega

theorem Inv.acquire {irq : Bool} {woken : List Char8} (h : u.Inv q) (hrun : u.panicked = none)
    (hl : l = .start ∨ irq = u.irq ∧ ∃ c locked, l = .putc c locked)
    (hs : { u with irq := irq, woken := woken }.acquire l = some v) : v.Inv q := by
  simp only [State.acquire, Option.ite_none_right_eq_some, Option.isNone_iff_eq_none, Option.some.injEq] at hs
  obtain ⟨hfree, rfl⟩ := hs
  obtain ⟨hring, hfits, hput, hasleep, hdriven, -⟩ := h
  simp only [hand, hfree] at hring hput
  rcases hl with rfl | ⟨rfl, c, locked, rfl⟩
  · exact ⟨hring, hfits, hput, hasleep, fun hout => by simp [Out] at hout, by simp [hrun]⟩
  · exact ⟨hring, hfits, hput, hasleep, fun _ => hdriven (by simp [Out, hfree]), by simp [hrun]⟩

theorem Inv.go (h : u.Inv q) (hrun : u.panicked = none) (hl : u.lock = some l) : ∃ q', (u.go l).Inv q' := by
  obtain ⟨hfull, hempty⟩ := h.full_empty
  obtain ⟨hring, hfits, hput, hasleep, hdriven, -⟩ := h
  have hok : ∀ {P : Panic → Prop} e, u.panicked = some e → P e := by simp [hrun]
  simp only [hand, hl] at hring hput
  -- inside `uartstart` nothing is asked of the device
  have hin : ∀ {v : State} {P : Prop}, v.lock = some .start ∨ (∃ c, v.lock = some (.send c)) → v.Out → P := by
    rintro v P (hl | ⟨c, hl⟩) hout <;> simp [Out, hl] at hout
  cases l with
  | putc c locked =>
    simp only [State.go]
    split
    case isTrue h =>
      have hdriven := hdriven fun l' hl' => ⟨c, locked, Option.some.inj (hl'.symm.trans hl)⟩
      cases locked with
      | true => exact ⟨q, by simpa [hand, hl] using hring, hfits, by simpa [hand, hl] using hput, hasleep,
          fun _ => hdriven, fun e he => ⟨(Option.some.inj he).symm, hfull.mp h, c, hl⟩⟩
      | false => exact ⟨q, hring, hfits, hput, fun _ => hfull.mp h, fun _ => hdriven, hok⟩
    case isFalse h =>
      have hlt : q.length ≠ 31 := fun he => h (hfull.mpr he)
      refine ⟨q ++ [c], hring.push (by decide) hfits, ?_, by simp [hput, hand], fun ha => absurd (hasleep ha) hlt,
        hin (.inl rfl), hok⟩
      rw [List.length_append, List.length_singleton]
      omega
  | start =>
    simp only [State.go]
    split
    case isTrue h => exact ⟨q, hring, hfits, hput, hasleep, fun _ hne => absurd (hempty.mp h) hne, hok⟩
    case isFalse h =>
      split
      case isFalse hbusy => exact ⟨q, hring, hfits, hput, hasleep, fun _ _ hidle => absurd hidle hbusy, hok⟩
      case isTrue =>
        cases q with
        | nil => exact absurd (hempty.mpr rfl) h
        | cons c q =>
          obtain ⟨hfront, hpop⟩ := hring.front_pop (by decide)
          exact ⟨q, by simpa [hand] using hpop, Nat.lt_of_succ_lt hfits, by simp [hput, hand, hfront],
            fun ha => absurd rfl ha, hin (.inr ⟨_, rfl⟩), hok⟩
  | send c =>
    exact ⟨q, by simpa [State.go, hand] using hring, hfits, by simpa [State.go, hand] using hput,
      hasleep, hin (.inl rfl), hok⟩

theorem Inv.step (h : u.Inv q) (hs : u.step e = some v) : ∃ q', v.Inv q' := by
  simp only [State.step, Option.ite_none_right_eq_some, Option.isNone_iff_eq_none] at hs
  obtain ⟨hrun, hs⟩ := hs
  cases e with
  | putc c locked => exact ⟨q, h.acquire hrun (.inr ⟨rfl, c, locked, rfl⟩) hs⟩
  | resume c =>
    simp only [State.next, Option.ite_none_right_eq_some] at hs
    exact ⟨q, h.acquire hrun (.inr ⟨rfl, c, false, rfl⟩) hs.2⟩
  | intr => exact ⟨q, h.acquire hrun (.inl rfl) hs⟩
  | go =>
    obtain ⟨l, hl, rfl⟩ := Option.map_eq_some_iff.mp hs
    exact h.go hrun hl
  | ready =>
    simp only [State.next, Option.ite_none_left_eq_some, Option.some.injEq] at hs
    obtain ⟨-, rfl⟩ := hs
    exact ⟨q, h.ring, h.fits, h.put, h.asleep, fun _ _ _ => rfl, h.panicked⟩

end State

/-- The characters go out in the order in which `uartputc` took them, and when the device is ready and has
not interrupted, all of them have gone out and no process sleeps. The only panic is that of a caller with
another spinlock that has found the buffer full. -/
theorem uart_sends_in_order {es : List Event} {u : State} (h : Run State.step any {} es u) :
    u.sent <+: u.put ∧ (u.lock = none → u.idle = true → u.irq = false → u.sent = u.put ∧ u.asleep = []) ∧
      ∀ e, u.panicked = some e → e = .schedLocks ∧ u.tx.tail + 1 = u.tx.head ∧ ∃ c, u.lock = some (.putc c true) := by
  obtain ⟨q, hi⟩ := h.inv (I := fun _ u => ∃ q, u.Inv q)
    ⟨[], ⟨rfl, rfl, by decide, by simp⟩, by decide, rfl, by simp, by simp, by simp⟩
    fun _ _ _ _ _ ⟨_, hi⟩ _ hs => hi.step hs
  refine ⟨⟨_, by rw [hi.put, List.append_assoc]⟩, fun hl hidle hirq => ?_, fun e he => ?_⟩
  · obtain rfl : q = [] := by
      by_contra hne
      simp [hi.driven (by simp [State.Out, hl]) hne hidle] at hirq
    refine ⟨by simp [hi.put, State.hand, hl], ?_⟩
    by_contra hne
    simpa using hi.asleep hne
  · obtain ⟨he, hlen, hl⟩ := hi.panicked e he
    exact ⟨he, hi.full_empty.1.mpr hlen, hl⟩

/-- The interrupt sends the character that was put while the device was busy. -/
def sendTwo : List Event :=
  [.putc 1 true, .go, .go, .go, .go, .putc 2 true, .go, .go, .ready, .intr, .go, .go, .go, .ready, .intr, .go]

theorem uart_sends_in_order_two : ∃ u : State, Run State.step any {} sendTwo u ∧ u.put = [1, 2] ∧
    u.sent = u.put ∧ u.asleep = [] := by
  obtain ⟨u, hu, hput, hl, hidle, hirq⟩ : ∃ u, Run State.step any {} sendTwo u ∧ u.put = [1, 2] ∧
      u.lock.isNone ∧ u.idle ∧ u.irq = false := by decide
  exact ⟨u, hu, hput, (uart_sends_in_order hu).2.1 (by simpa using hl) hidle hirq⟩

/-- `consolewrite` of 33 characters: the device takes the first one and stays busy, and then the buffer is full. -/
def fillUp : List Event :=
  [.putc 1 true, .go, .go, .go, .go] ++ (List.replicate 31 [Event.putc 1 true, .go, .go]).flatten ++ [.putc 1 true, .go]

theorem consolewrite_panics : ∃ u : State, Run State.step any {} fillUp u ∧ u.panicked = some .schedLocks := by
  obtain ⟨u, hu, hdec⟩ : ∃ u, Run State.step any {} fillUp u ∧ u.panicked = some .schedLocks :=
      by decide +kernel
  exact ⟨u, hu, hdec⟩

end Xv6.Uart

import Mathlib.Algebra.Order.BigOperators.Group.Finset
import Xv6.Fs.Content
import Xv6.Lib.Chunks
import Xv6.Lib.Run

/-!
# Writers that share an open file

`filewrite` of `kernel/file.c` for a file of type `FD_INODE`, called by any number of processes on one
`struct file`. The lock of the inode is given up between the chunks of a call, so the calls interleave.
`writei` and `ilock` are those of `Xv6.Fs.Inode`, on the file system as it is; `begin_op` and `end_op` count
the operations, and the last one commits. Whether `begin_op` has to wait is not modelled here.
-/

namespace Xv6.Filewrite

open Fs Chunks
open Function (update update_of_ne update_self)
open Machine (Run)

/-- The arguments of a call. -/
structure Args where
  mem : UserMem
  addr : Nat
  n : Int

/-- The part of `struct file` that `filewrite` uses. -/
structure File where
  writable : Bool
  ip : Fin NINODE
  off : BitVec 32

/-- The variables of a call, and its number. -/
structure Locals where
  call : Nat
  args : Args
  i : Int := 0
  n1 : Int := 0
  r : Int := 0

/-- What comes next in `filewrite`. -/
inductive Place
  | loop | ilock | writei | advance | iunlock | endOp | check
  deriving DecidableEq

inductive Pc
  | user
  | filewrite (l : Place) (x : Locals)

structure State (P : Type) where
  fs : Fs.State
  file : File
  lock : Option P
  outstanding : Nat
  pc : P → Pc
  calls : List Args
  ret : Nat → Option Int
  /-- what `writei` was given to write, and where -/
  chunks : List (Chunk Nat (BitVec 8))
  panic : Option Panic

variable {P : Type} [DecidableEq P]
variable {p : P} {x : Locals} {k : Nat} {l : Place}

/-- `max` -/
def chunkMax : Nat := (MAXOPBLOCKS - 1 - 1 - 2) / 2 * BSIZE

def State.goto (s : State P) (p : P) (l : Place) (x : Locals) : State P :=
  { s with pc := update s.pc p (.filewrite l x) }

def State.fail (s : State P) (m : Panic) (fs : Fs.State) : State P := { s with fs := fs, panic := some m }

/-- `return ret` after the loop. -/
def State.finish (s : State P) (p : P) (x : Locals) : State P :=
  { s with
    pc := update s.pc p .user
    ret := update s.ret x.call (some (if x.i = x.args.n then x.args.n else -1)) }

/-- `end_op` -/
def endOp (s : State P) : State P :=
  if s.outstanding = 1 then
    match Fs.commit s.fs with
    | .ok _ fs => { s with outstanding := 0, fs := fs }
    | .error e fs => s.fail e fs
  else { s with outstanding := s.outstanding - 1 }

/-- A process in `filewrite` goes on. -/
def run (g : Geometry) (s : State P) (p : P) : Option (State P) :=
  match s.pc p with
  | .user => none
  | .filewrite .loop x =>
    if x.i < x.args.n then
      let n1 := x.args.n - x.i
      let n1 := if n1 > chunkMax then (chunkMax : Int) else n1
      some ({ s with outstanding := s.outstanding + 1 }.goto p .ilock { x with n1 := n1 })
    else some (s.finish p x)
  | .filewrite .ilock x =>
    match s.lock with
    | some _ => none
    | none =>
      match ilock g s.file.ip s.fs with
      | .ok _ fs => some ({ s with fs := fs, lock := some p }.goto p .writei x)
      | .error e fs => some (s.fail e fs)
  | .filewrite .writei x =>
    let src := (x.args.addr + x.i.toNat) % 2 ^ 64
    match writei g s.file.ip (.user x.args.mem) src s.file.off (BitVec.ofInt 32 x.n1) s.fs with
    | .ok r fs =>
      let chunk := ⟨x.call, s.file.off.toNat, (Memory.user x.args.mem).bytes src x.n1.toNat⟩
      some ({ s with fs := fs, chunks := if r > 0 then s.chunks ++ [chunk] else s.chunks }.goto p .advance
        { x with r := r })
    | .error e fs => some (s.fail e fs)
  | .filewrite .advance x =>
    let off := if x.r > 0 then s.file.off + BitVec.ofInt 32 x.r else s.file.off
    some ({ s with file := { s.file with off := off } }.goto p .iunlock x)
  | .filewrite .iunlock x =>
    if s.lock = some p then some ({ s with lock := none }.goto p .endOp x) else some (s.fail .iunlock s.fs)
  | .filewrite .endOp x => some ((endOp s).goto p .check x)
  | .filewrite .check x =>
    if x.r < 0 then some (s.finish p x)
    else if x.r ≠ x.n1 then some (s.fail .shortFilewrite s.fs)
    else some (s.goto p .loop { x with i := x.i + x.r })

inductive Event (P : Type)
  | call (p : P) (a : Args)
  | run (p : P)

def step (g : Geometry) (s : State P) (e : Event P) : Option (State P) :=
  if s.panic.isSome then none
  else
    match e with
    | .run p => run g s p
    | .call p a =>
      match s.pc p with
      | .filewrite _ _ => none
      | .user =>
        if s.file.writable then some ({ s with calls := s.calls ++ [a] }.goto p .loop ⟨s.calls.length, a, 0, 0, 0⟩)
        else some { s with calls := s.calls ++ [a], ret := update s.ret s.calls.length (some (-1)) }

def init (fs : Fs.State) (file : File) : State P where
  fs := fs
  file := file
  lock := none
  outstanding := 0
  pc := fun _ => .user
  calls := []
  ret := fun _ => none
  chunks := []
  panic := none

/-- The bytes that all the calls are to write. -/
def total (calls : List Args) : Nat := (calls.map fun a => a.n.toNat).sum

/-- Calls get a number of bytes in the range of `int`, in memory that can be copied from, and the file stays below its
maximum size. -/
def Fits (off : Nat) (s : State P) : Event P → Prop
  | .run _ => True
  | .call _ a => a.n < 2 ^ 31 ∧ (Memory.user a.mem).Mapped a.addr a.n.toNat ∧
    off + total s.calls + a.n.toNat ≤ MAXFILE * BSIZE

/-! ## Bytes -/

theorem overwrite_concat {α : Type} {c : List α} {a : Nat} (ha : a ≤ c.length) (s t : List α) :
    overwrite (overwrite c a s) (a + s.length) t = overwrite c a (s ++ t) := by
  have hlen : a + s.length = (c.take a ++ s).length := by simp [ha]
  rw [overwrite, overwrite, hlen, List.take_left, List.drop_length_add_append, ← hlen, List.drop_drop, overwrite,
    List.length_append, Nat.add_assoc, List.append_assoc _ s t]

theorem length_bytes (m : Memory) (a n : Nat) : (m.bytes a n).length = n := by simp [Memory.bytes]

theorem bytes_add (m : Memory) (a i k : Nat) : m.bytes a (i + k) = m.bytes a i ++ m.bytes (a + i) k := by
  rw [Memory.bytes, Memory.bytes, Memory.bytes, List.range_add, List.map_append, List.map_map]
  congr 1
  exact List.map_congr_left fun t _ => (m.bytesAt_add a i t).symm

/-! ## The file -/

/-- The file system is in order, and inode `inum`, in entry `ip` of the cache, has the contents `bs`. -/
def Holds (g : Geometry) (ip : Fin NINODE) (inum : Nat) (bs : List (BitVec 8)) (fs : Fs.State) : Prop :=
  ∃ v c, Is v v c fs ∧ Settled g ip v c ∧ (c ip).inum = inum ∧ 0 < (c ip).ref ∧ (c ip).valid = true ∧
    contents (dinode g v inum) v = bs

section Holds

variable {g : Geometry} {ip : Fin NINODE} {inum : Nat} {bs : List (BitVec 8)} {fs : Fs.State}

theorem Holds.length_le (h : Holds g ip inum bs fs) : bs.length ≤ MAXFILE * BSIZE := by
  obtain ⟨v, c, -, hset, rfl, -, -, rfl⟩ := h
  rw [length_contents]
  exact hset.size

theorem Holds.ilock (h : Holds g ip inum bs fs) : ilock g ip fs = .ok () fs := by
  obtain ⟨v, c, hs, -, -, href, hvalid, -⟩ := h
  have hip : fs.icache ip = c ip := by rw [hs.icache]
  have hget : getInode ip fs = .ok (fs.icache ip) fs := rfl
  rw [Fs.ilock, Hoare.bind_of_ok hget, hip, if_neg (by omega), if_pos hvalid]
  rfl

theorem Holds.commit (h : Holds g ip inum bs fs) : ∃ fs', Fs.commit fs = .ok () fs' ∧ Holds g ip inum bs fs' := by
  obtain ⟨v, c, ⟨hbuf, hdisk, hic⟩, h⟩ := h
  exact ⟨_, rfl, v, c, ⟨hbuf, by simp [hbuf, hdisk], hic⟩, h⟩

theorem Holds.writei (h : Holds g ip inum bs fs) (mem : Memory) (src : Nat) (off n : BitVec 32)
    (hoff : off.toNat ≤ bs.length)
    (hmax : off.toNat + n.toNat ≤ MAXFILE * BSIZE) (hmem : mem.Mapped src n.toNat) :
    Hoare.Outcome
      (fun (r : Int) fs' => r = n.toNat ∧ Holds g ip inum (overwrite bs off.toNat (mem.bytes src n.toNat)) fs')
      (fun e _ => e = Panic.ballocOutOfBlocks) (writei g ip mem src off n fs) := by
  obtain ⟨v, c, hs, hset, rfl, href, hvalid, rfl⟩ := h
  rw [length_contents, ← hset.core] at hoff
  refine ((writei_content hset ⟨hoff, hmax⟩ hmem).imp (fun _ hs => hs) ?_ fun e t he => he.1.1) fs hs
  rintro r t ⟨hr, v', c', ⟨hw, -⟩, ht⟩
  have hentry : c' ip = { c ip with d := dinode g v' (c ip).inum } := by rw [hw.entry, setD_self]
  exact ⟨hr, v', c', ht, hw.settled, by rw [hentry], by rw [hentry]; exact href,
    by rw [hentry]; exact hvalid, hw.contents⟩

end Holds

/-! ## The invariant -/

/-- The first bytes of the buffer of a call. -/
def Args.bytes (a : Args) (k : Nat) : List (BitVec 8) := (Memory.user a.mem).bytes a.addr k

/-- What a call returns. -/
def Args.result (a : Args) : Int := if 0 ≤ a.n then a.n else -1

/-- Between `ilock` and `iunlock`. -/
def Pc.locked : Pc → Bool
  | .filewrite .writei _ | .filewrite .advance _ | .filewrite .iunlock _ => true
  | _ => false

/-- What `writei` has stored and `f->off` does not count yet. -/
def Pc.pending : Pc → Nat
  | .filewrite .advance x => x.r.toNat
  | _ => 0

def State.pending (s : State P) : Nat :=
  match s.lock with
  | some p => (s.pc p).pending
  | none => 0

/-- How far a call is, and what it has written. -/
def Progress (x : Locals) (written : List (BitVec 8)) : Place → Prop
  | .loop => 0 ≤ x.i ∧ (x.i ≤ x.args.n ∨ x.i = 0) ∧ written = x.args.bytes x.i.toNat
  | .ilock | .writei => 0 ≤ x.i ∧ 0 < x.n1 ∧ x.n1 ≤ chunkMax ∧ x.i + x.n1 ≤ x.args.n ∧ written = x.args.bytes x.i.toNat
  | .advance | .iunlock | .endOp | .check => 0 ≤ x.i ∧ 0 < x.n1 ∧ x.n1 ≤ chunkMax ∧ x.i + x.n1 ≤ x.args.n ∧ x.r = x.n1 ∧
      written = x.args.bytes (x.i.toNat + x.n1.toNat)

/-- The calls write from offset `off` on into a file that had the contents `bs`. -/
structure Inv (g : Geometry) (inum : Nat) (bs : List (BitVec 8)) (off : Nat) (s : State P) : Prop where
  file : Holds g s.file.ip inum (overwrite bs off (data s.chunks)) s.fs
  start : off ≤ bs.length
  writable : s.file.writable = true
  tiles : Tiles chunkMax off s.chunks
  tags : ∀ c ∈ s.chunks, c.tag < s.calls.length
  offset : s.file.off.toNat + s.pending = off + (data s.chunks).length
  locked : ∀ p, s.lock = some p ↔ (s.pc p).locked = true
  space : off + total s.calls ≤ MAXFILE * BSIZE
  args : ∀ a ∈ s.calls, a.n < 2 ^ 31 ∧ (Memory.user a.mem).Mapped a.addr a.n.toNat
  call : ∀ p l x, s.pc p = .filewrite l x →
    s.calls[x.call]? = some x.args ∧ s.ret x.call = none ∧ Progress x (of x.call s.chunks) l
  single : ∀ p q l l' x y, s.pc p = .filewrite l x → s.pc q = .filewrite l' y → x.call = y.call → p = q
  running : ∀ k, k < s.calls.length → s.ret k = none → ∃ p l x, s.pc p = .filewrite l x ∧ x.call = k
  done : ∀ k a r, s.calls[k]? = some a → s.ret k = some r → r = a.result ∧ of k s.chunks = a.bytes a.n.toNat
  later : ∀ k, s.calls.length ≤ k → s.ret k = none
  panic : s.panic = none

variable {g : Geometry} {inum : Nat} {bs : List (BitVec 8)} {off : Nat} {s u : State P}

theorem Inv.move (h : Inv g inum bs off s) {l' : Place} {x' : Locals} (hp : s.pc p = .filewrite l x)
    (hpc : u.pc = update s.pc p (.filewrite l' x')) (hcall : x'.call = x.call) (hargs : x'.args = x.args)
    (hcalls : u.calls = s.calls) (hret : u.ret = s.ret) (hpanic : u.panic = none)
    (hwritable : u.file.writable = s.file.writable)
    (hfile : Holds g u.file.ip inum (overwrite bs off (data u.chunks)) u.fs)
    (htiles : Tiles chunkMax off u.chunks) (htags : ∀ c ∈ u.chunks, c.tag < s.calls.length)
    (hoffset : u.file.off.toNat + u.pending = off + (data u.chunks).length)
    (hlocked : ∀ q, u.lock = some q ↔ (u.pc q).locked = true) (hof : ∀ k, k ≠ x.call → of k u.chunks = of k s.chunks)
    (hprogress : Progress x' (of x.call u.chunks) l') : Inv g inum bs off u := by
  have hself : u.pc p = .filewrite l' x' := by rw [hpc, update_self]
  have hother : ∀ q, q ≠ p → u.pc q = s.pc q := fun q hq => by rw [hpc, update_of_ne hq]
  obtain ⟨hx, hxret, -⟩ := h.call p l x hp
  -- what the process `q` is doing, before the step
  have hback : ∀ q m y, u.pc q = .filewrite m y → ∃ m' y', s.pc q = .filewrite m' y' ∧ y'.call = y.call := by
    intro q m y hq
    by_cases hqp : q = p
    · subst hqp
      rw [hself] at hq
      cases hq
      exact ⟨l, x, hp, hcall.symm⟩
    · exact ⟨m, y, (hother q hqp).symm.trans hq, rfl⟩
  refine ⟨hfile, h.start, hwritable.trans h.writable, htiles, hcalls ▸ htags, hoffset, hlocked, hcalls ▸ h.space,
    hcalls ▸ h.args,
    fun q m y hq => ?_, fun q r m m' y z hq hr hyz => ?_, fun k hk hkr => ?_, fun k a r hk hr => ?_,
    fun k hk => hret ▸ h.later k (hcalls ▸ hk), hpanic⟩
  · by_cases hqp : q = p
    · subst hqp
      rw [hself] at hq
      cases hq
      rw [hcalls, hret, hcall, hargs]
      exact ⟨hx, hxret, hprogress⟩
    · rw [hother q hqp] at hq
      obtain ⟨h1, h2, h3⟩ := h.call q m y hq
      have hne : y.call ≠ x.call := fun he => hqp (h.single q p m l y x hq hp he)
      rw [hcalls, hret, hof _ hne]
      exact ⟨h1, h2, h3⟩
  · obtain ⟨m₁, y₁, h1, h1c⟩ := hback q m y hq
    obtain ⟨m₂, y₂, h2, h2c⟩ := hback r m' z hr
    exact h.single q r m₁ m₂ y₁ y₂ h1 h2 (by rw [h1c, h2c, hyz])
  · rw [hcalls] at hk
    rw [hret] at hkr
    obtain ⟨q, m, y, hq, hqk⟩ := h.running k hk hkr
    by_cases hqp : q = p
    · subst hqp
      rw [hp] at hq
      cases hq
      exact ⟨q, l', x', hself, hcall.trans hqk⟩
    · exact ⟨q, m, y, (hother q hqp).trans hq, hqk⟩
  · rw [hcalls] at hk
    rw [hret] at hr
    have hne : k ≠ x.call := fun he => by simp [he, hxret] at hr
    rw [hof k hne]
    exact h.done k a r hk hr

theorem Inv.finish (h : Inv g inum bs off s) (hp : s.pc p = .filewrite l x)
    (hl : (s.pc p).locked = false) (hres : (if x.i = x.args.n then x.args.n else -1) = x.args.result)
    (hwritten : of x.call s.chunks = x.args.bytes x.args.n.toNat) : Inv g inum bs off (s.finish p x) := by
  have hself : (s.finish p x).pc p = .user := update_self _ _ _
  have hother : ∀ q, q ≠ p → (s.finish p x).pc q = s.pc q := fun q hq => update_of_ne hq _ _
  obtain ⟨hx, hxret, -⟩ := h.call p l x hp
  have hfile : ∀ q m y, (s.finish p x).pc q = .filewrite m y → q ≠ p ∧ s.pc q = .filewrite m y := by
    intro q m y hq
    have hqp : q ≠ p := fun he => by
      simp [he, hself] at hq
    exact ⟨hqp, (hother q hqp).symm.trans hq⟩
  refine ⟨h.file, h.start, h.writable, h.tiles, h.tags, ?_, fun q => ?_, h.space, h.args, fun q m y hq => ?_,
    fun q r m m' y z hq hr => ?_, fun k hk hkr => ?_, fun k a r hk hr => ?_, fun k hk => ?_, h.panic⟩
  · have hpending : (s.finish p x).pending = s.pending := by
      unfold State.pending
      cases hlock : s.lock with
      | none => simp [State.finish, hlock]
      | some q =>
        have hqp : q ≠ p := fun he => by
          have := (h.locked q).mp hlock
          simp [he, hl] at this
        have : (s.finish p x).lock = some q := hlock
        rw [this]
        simp only [hother q hqp]
    rw [hpending]
    exact h.offset
  · by_cases hqp : q = p
    · rw [hqp, hself, show (s.finish p x).lock = s.lock from rfl, h.locked, hl]
      simp [Pc.locked]
    · rw [hother q hqp]
      exact h.locked q
  · obtain ⟨hqp, hq⟩ := hfile q m y hq
    obtain ⟨h1, h2, h3⟩ := h.call q m y hq
    have hne : y.call ≠ x.call := fun he => hqp (h.single q p m l y x hq hp he)
    exact ⟨h1, (update_of_ne hne _ _).trans h2, h3⟩
  · exact h.single q r m m' y z (hfile q m y hq).2 (hfile r m' z hr).2
  · have hne : k ≠ x.call := fun he => by simp [he, State.finish] at hkr
    have hkr : s.ret k = none := (update_of_ne hne _ _).symm.trans hkr
    obtain ⟨q, m, y, hq, hqk⟩ := h.running k hk hkr
    have hqp : q ≠ p := fun he => by
      rw [he, hp] at hq
      cases hq
      exact hne hqk.symm
    exact ⟨q, m, y, (hother q hqp).trans hq, hqk⟩
  · by_cases hkx : k = x.call
    · subst hkx
      have hk : s.calls[x.call]? = some a := hk
      rw [hx] at hk
      cases hk
      simp only [State.finish, update_self, Option.some.injEq] at hr
      exact ⟨hr ▸ hres, hwritten⟩
    · exact h.done k a r hk ((update_of_ne hkx _ _).symm.trans hr)
  · have hkx : k ≠ x.call := fun he => by
      have : x.call < s.calls.length := (List.getElem?_eq_some_iff.mp hx).1
      have : s.calls.length ≤ k := hk
      omega
    exact (update_of_ne hkx _ _).trans (h.later k hk)

/-! ## The steps -/

theorem Inv.locked_move (h : Inv g inum bs off s) {c : Pc} (hc : c.locked = (s.pc p).locked) (q : P) :
    s.lock = some q ↔ (update s.pc p c q).locked = true := by
  rw [h.locked]
  by_cases hq : q = p
  · rw [hq, update_self, hc]
  · rw [update_of_ne hq]

theorem Inv.offset_move (h : Inv g inum bs off s) {c : Pc} (hc : c.pending = 0) (hp : (s.pc p).pending = 0)
    (hpc : u.pc = update s.pc p c) (hlock : u.lock = s.lock) (hoff : u.file.off = s.file.off)
    (hchunks : u.chunks = s.chunks) : u.file.off.toNat + u.pending = off + (data u.chunks).length := by
  have hpending : u.pending = s.pending := by
    unfold State.pending
    rw [hlock, hpc]
    cases s.lock with
    | none => rfl
    | some q =>
      by_cases hq : q = p
      · simp only [hq, update_self, hc, hp]
      · simp only [update_of_ne hq]
  rw [hpending, hoff, hchunks]
  exact h.offset

theorem Inv.loop (h : Inv g inum bs off s) (hp : s.pc p = .filewrite .loop x) (hs : run g s p = some u) :
    Inv g inum bs off u := by
  obtain ⟨hx, -, hi, hin, hw⟩ := h.call p _ x hp
  have hmaxpos : 0 < chunkMax := by decide
  simp only [run, hp] at hs
  split_ifs at hs with hlt hmax
  all_goals cases hs
  · refine h.move hp rfl rfl rfl rfl rfl h.panic rfl h.file h.tiles h.tags
      (h.offset_move rfl (by rw [hp]; rfl) rfl rfl rfl rfl) (h.locked_move (by rw [hp]; rfl)) (fun _ _ => rfl)
      ⟨hi, ?_, ?_, ?_, hw⟩ <;> simp only <;> omega
  · refine h.move hp rfl rfl rfl rfl rfl h.panic rfl h.file h.tiles h.tags
      (h.offset_move rfl (by rw [hp]; rfl) rfl rfl rfl rfl) (h.locked_move (by rw [hp]; rfl)) (fun _ _ => rfl)
      ⟨hi, ?_, ?_, ?_, hw⟩ <;> simp only <;> omega
  · refine h.finish hp (by rw [hp]; rfl) ?_ ?_
    · unfold Args.result
      split_ifs <;> omega
    · rw [hw]
      congr 1
      omega

theorem Inv.ilock (h : Inv g inum bs off s) (hp : s.pc p = .filewrite .ilock x) (hs : run g s p = some u) :
    Inv g inum bs off u := by
  obtain ⟨-, -, hprogress⟩ := h.call p _ x hp
  simp only [run, hp] at hs
  cases hl : s.lock with
  | some q => simp [hl] at hs
  | none =>
    simp only [hl, h.file.ilock, Option.some.injEq] at hs
    subst hs
    refine h.move hp rfl rfl rfl rfl rfl h.panic rfl h.file h.tiles h.tags ?_ (fun q => ?_) (fun _ _ => rfl) hprogress
    · have hoffset := h.offset
      simp only [State.pending, hl] at hoffset
      simp only [State.pending, State.goto, update_self]
      exact hoffset
    · by_cases hq : q = p
      · simp [State.goto, hq, Pc.locked]
      · have hfree := h.locked q
        simp only [hl] at hfree
        simp only [State.goto, update_of_ne hq, ← hfree, Option.some.injEq]
        exact ⟨fun he => absurd he.symm hq, fun he => by cases he⟩

theorem total_eq_sum (calls : List Args) :
    total calls = ∑ k ∈ Finset.range calls.length, ((calls[k]?).map fun a => a.n.toNat).getD 0 := by
  induction calls with
  | nil => rfl
  | cons a calls ih =>
    rw [List.length_cons, Finset.sum_range_succ']
    simp only [List.getElem?_cons_succ, List.getElem?_cons_zero, Option.map_some, Option.getD_some, ← ih, total,
      List.map_cons, List.sum_cons]
    omega

omit [DecidableEq P] in
theorem Inv.written (h : Inv g inum bs off s) {a : Args} (hk : s.calls[k]? = some a) :
    ∃ m, m ≤ a.n.toNat ∧ of k s.chunks = a.bytes m := by
  cases hr : s.ret k with
  | some r => exact ⟨a.n.toNat, Nat.le_refl _, (h.done k a r hk hr).2⟩
  | none =>
    obtain ⟨q, l, x, hq, rfl⟩ := h.running k (List.getElem?_eq_some_iff.mp hk).1 hr
    obtain ⟨hx, -, hprogress⟩ := h.call q l x hq
    rw [hx] at hk
    cases hk
    cases l <;> simp only [Progress] at hprogress
    case loop | ilock | writei => exact ⟨x.i.toNat, by omega, by simp only [hprogress]⟩
    all_goals exact ⟨x.i.toNat + x.n1.toNat, by omega, by simp only [hprogress]⟩

omit [DecidableEq P] in
theorem Inv.written_le (h : Inv g inum bs off s) (hk : k < s.calls.length) :
    (of k s.chunks).length ≤ ((s.calls[k]?).map fun a => a.n.toNat).getD 0 := by
  obtain ⟨m, hm, hof⟩ := h.written (List.getElem?_eq_getElem hk)
  rw [List.getElem?_eq_getElem hk, hof, Args.bytes, length_bytes]
  exact hm

omit [DecidableEq P] in
theorem Inv.room (h : Inv g inum bs off s) (hp : s.pc p = .filewrite l x)
    (hk : (of x.call s.chunks).length + k ≤ x.args.n.toNat) : (data s.chunks).length + k ≤ total s.calls := by
  obtain ⟨hx, -⟩ := h.call p l x hp
  have hmem : x.call ∈ Finset.range s.calls.length := Finset.mem_range.mpr (List.getElem?_eq_some_iff.mp hx).1
  rw [← sum_length_of fun c hc => Finset.mem_range.mpr (h.tags c hc), total_eq_sum, ← Finset.add_sum_erase _ _ hmem,
    ← Finset.add_sum_erase _ (fun i => ((s.calls[i]?).map fun a => a.n.toNat).getD 0) hmem, hx]
  have hrest := Finset.sum_le_sum fun i (hi : i ∈ (Finset.range s.calls.length).erase x.call) =>
    h.written_le (Finset.mem_range.mp (Finset.mem_of_mem_erase hi))
  simp only [Option.map_some, Option.getD_some]
  omega

theorem Inv.writei (h : Inv g inum bs off s) (hp : s.pc p = .filewrite .writei x) (hs : run g s p = some u) :
    Inv g inum bs off u ∨ u.panic = some .ballocOutOfBlocks := by
  obtain ⟨hx, -, hi, hpos, hmax, hin, hw⟩ := h.call p _ x hp
  have hlock : s.lock = some p := (h.locked p).mpr (by rw [hp]; rfl)
  have hoffset : s.file.off.toNat = off + (data s.chunks).length := by
    have hoffset := h.offset
    simp only [State.pending, hlock, hp, Pc.pending] at hoffset
    exact hoffset
  have hn : (BitVec.ofInt 32 x.n1).toNat = x.n1.toNat := by
    have : chunkMax < 2 ^ 32 := by decide
    rw [BitVec.toNat_ofInt]
    omega
  obtain ⟨hn31, hmapped⟩ := h.args x.args (List.mem_of_getElem? hx)
  have hroom := h.room hp (k := x.n1.toNat) (by rw [hw]; simp only [Args.bytes, length_bytes]; omega)
  have hspace := h.space
  have hsrc : (x.args.addr + x.i.toNat) % 2 ^ 64 = x.args.addr + x.i.toNat :=
    Nat.mod_eq_of_lt (Memory.lt_of_mapped hmapped (by omega))
  have hout := h.file.writei (.user x.args.mem) (x.args.addr + x.i.toNat) s.file.off (BitVec.ofInt 32 x.n1)
    (by rw [length_overwrite h.start]; omega) (by omega) fun k hk => by
      rw [Nat.add_assoc]
      exact hmapped _ (by omega)
  simp only [run, hp, hsrc] at hs
  cases hr : Fs.writei g s.file.ip (.user x.args.mem) (x.args.addr + x.i.toNat) s.file.off
    (BitVec.ofInt 32 x.n1) s.fs with
  | error e fs =>
    rw [hr] at hout
    simp only [hr, Option.some.injEq] at hs
    exact .inr (by rw [← hs]; exact congrArg some hout)
  | ok r fs =>
    rw [hr] at hout
    obtain ⟨hrn, hfile⟩ := hout
    rw [hn] at hrn hfile
    have hlen : ((Memory.user x.args.mem).bytes (x.args.addr + x.i.toNat) x.n1.toNat).length = x.n1.toNat :=
      length_bytes _ _ _
    simp only [hr, if_pos (show r > 0 by omega), Option.some.injEq] at hs
    subst hs
    left
    refine h.move hp rfl rfl rfl rfl rfl h.panic rfl ?_ ?_ ?_ ?_ (h.locked_move (by rw [hp]; rfl)) (fun k hk => ?_)
      ⟨hi, hpos, hmax, hin, by simp only; omega, ?_⟩
    · rw [hoffset, overwrite_concat h.start] at hfile
      simp only [State.goto, data_concat]
      exact hfile
    · exact tiles_concat h.tiles hoffset (by simp only [hlen]; omega) (by simp only [hlen]; omega)
    · intro c hc
      rcases List.mem_append.mp hc with hc | hc
      · exact h.tags c hc
      · rw [List.mem_singleton.mp hc]
        exact (List.getElem?_eq_some_iff.mp hx).1
    · simp only [State.goto, State.pending, hlock, update_self, Pc.pending, data_concat, List.length_append, hlen]
      omega
    · exact of_concat_of_ne _ (Ne.symm hk)
    · refine (of_concat_self (i := x.call) s.chunks rfl).trans ?_
      rw [hw, Args.bytes, Args.bytes, bytes_add]

theorem Inv.advance (h : Inv g inum bs off s) (hp : s.pc p = .filewrite .advance x) (hs : run g s p = some u) :
    Inv g inum bs off u := by
  obtain ⟨hx, -, hprogress⟩ := h.call p _ x hp
  obtain ⟨-, hpos, hmax, -, hr, -⟩ := hprogress
  have hlock : s.lock = some p := (h.locked p).mpr (by rw [hp]; rfl)
  have hoffset := h.offset
  simp only [State.pending, hlock, hp, Pc.pending] at hoffset
  have hlen : (data s.chunks).length + 0 ≤ total s.calls := h.room hp (by
    have hle := h.written_le (List.getElem?_eq_some_iff.mp hx).1
    rw [hx] at hle
    simpa using hle)
  have hspace := h.space
  have hbound : MAXFILE * BSIZE < 2 ^ 32 := by decide
  have hadd : (s.file.off + BitVec.ofInt 32 x.r).toNat = s.file.off.toNat + x.r.toNat := by
    have hr32 : (BitVec.ofInt 32 x.r).toNat = x.r.toNat := by
      rw [BitVec.toNat_ofInt]
      omega
    rw [BitVec.toNat_add, hr32]
    omega
  simp only [run, hp, if_pos (show x.r > 0 by omega), Option.some.injEq] at hs
  subst hs
  refine h.move hp rfl rfl rfl rfl rfl h.panic rfl h.file h.tiles h.tags ?_ (h.locked_move (by rw [hp]; rfl))
    (fun _ _ => rfl)
    (h.call p _ x hp).2.2
  simp only [State.goto, State.pending, hlock, update_self, Pc.pending, hadd]
  omega

theorem Inv.iunlock (h : Inv g inum bs off s) (hp : s.pc p = .filewrite .iunlock x) (hs : run g s p = some u) :
    Inv g inum bs off u := by
  have hlock : s.lock = some p := (h.locked p).mpr (by rw [hp]; rfl)
  have hoffset := h.offset
  simp only [State.pending, hlock, hp, Pc.pending] at hoffset
  simp only [run, hp, if_pos hlock, Option.some.injEq] at hs
  subst hs
  refine h.move hp rfl rfl rfl rfl rfl h.panic rfl h.file h.tiles h.tags hoffset (fun q => ?_) (fun _ _ => rfl)
    (h.call p _ x hp).2.2
  by_cases hq : q = p
  · simp [State.goto, hq, Pc.locked]
  · have hfree := h.locked q
    simp only [hlock, Option.some.injEq] at hfree
    simp only [State.goto, update_of_ne hq, ← hfree]
    exact ⟨nofun, fun he => absurd he.symm hq⟩

theorem Inv.endOp (h : Inv g inum bs off s) (hp : s.pc p = .filewrite .endOp x) (hs : run g s p = some u) :
    Inv g inum bs off u := by
  obtain ⟨fs, hcommit, hfile⟩ := h.file.commit
  simp only [run, hp, Option.some.injEq, Filewrite.endOp, hcommit] at hs
  subst hs
  split_ifs
  · exact h.move hp rfl rfl rfl rfl rfl h.panic rfl hfile h.tiles h.tags
      (h.offset_move rfl (by rw [hp]; rfl) rfl rfl rfl rfl) (h.locked_move (by rw [hp]; rfl)) (fun _ _ => rfl)
      (h.call p _ x hp).2.2
  · exact h.move hp rfl rfl rfl rfl rfl h.panic rfl h.file h.tiles h.tags
      (h.offset_move rfl (by rw [hp]; rfl) rfl rfl rfl rfl) (h.locked_move (by rw [hp]; rfl)) (fun _ _ => rfl)
      (h.call p _ x hp).2.2

theorem Inv.check (h : Inv g inum bs off s) (hp : s.pc p = .filewrite .check x) (hs : run g s p = some u) :
    Inv g inum bs off u := by
  obtain ⟨-, -, hi, hpos, -, hin, hr, hw⟩ := h.call p _ x hp
  simp only [run, hp, if_neg (show ¬ x.r < 0 by omega), if_neg (show ¬ x.r ≠ x.n1 by omega), Option.some.injEq] at hs
  subst hs
  refine h.move hp rfl rfl rfl rfl rfl h.panic rfl h.file h.tiles h.tags
    (h.offset_move rfl (by rw [hp]; rfl) rfl rfl rfl rfl) (h.locked_move (by rw [hp]; rfl)) (fun _ _ => rfl)
    ⟨?_, ?_, ?_⟩
  · simp only
    omega
  · simp only
    omega
  · rw [hr, show (x.i + x.n1).toNat = x.i.toNat + x.n1.toNat by omega]
    exact hw

theorem Inv.run (h : Inv g inum bs off s) (hs : run g s p = some u) :
    Inv g inum bs off u ∨ u.panic = some .ballocOutOfBlocks := by
  cases hp : s.pc p with
  | user => simp [Filewrite.run, hp] at hs
  | filewrite l x =>
    cases l with
    | loop => exact .inl (h.loop hp hs)
    | ilock => exact .inl (h.ilock hp hs)
    | writei => exact h.writei hp hs
    | advance => exact .inl (h.advance hp hs)
    | iunlock => exact .inl (h.iunlock hp hs)
    | endOp => exact .inl (h.endOp hp hs)
    | check => exact .inl (h.check hp hs)

theorem Inv.start_call (h : Inv g inum bs off s) {a : Args} (hp : s.pc p = .user) (hfits : Fits off s (.call p a)) :
    Inv g inum bs off ({ s with calls := s.calls ++ [a] }.goto p .loop ⟨s.calls.length, a, 0, 0, 0⟩) := by
  obtain ⟨hn, hmapped, hspace⟩ := hfits
  have htotal : total (s.calls ++ [a]) = total s.calls + a.n.toNat := by simp [total]
  have hself : update s.pc p (.filewrite .loop ⟨s.calls.length, a, 0, 0, 0⟩) p =
    .filewrite .loop ⟨s.calls.length, a, 0, 0, 0⟩ :=
    update_self _ _ _
  have hother : ∀ q, q ≠ p → update s.pc p (.filewrite .loop ⟨s.calls.length, a, 0, 0, 0⟩) q = s.pc q :=
    fun q hq => update_of_ne hq _ _
  have hlt : ∀ q l x, s.pc q = .filewrite l x → x.call < s.calls.length := fun q l x hq =>
    (List.getElem?_eq_some_iff.mp (h.call q l x hq).1).1
  have hnone : of s.calls.length s.chunks = [] := of_eq_nil fun c hc he => by
    have := h.tags c hc
    omega
  refine ⟨h.file, h.start, h.writable, h.tiles, fun c hc => ?_, ?_, h.locked_move (by rw [hp]; rfl), ?_, fun b hb => ?_,
    fun q l x hq => ?_, fun q r l l' x y hq hr hxy => ?_, fun k hk hkr => ?_, fun k b r hk hr => ?_,
    fun k hk => ?_, h.panic⟩
  · have := h.tags c hc
    simp [State.goto]
    omega
  · exact h.offset_move rfl (by rw [hp]; rfl) rfl rfl rfl rfl
  · simp only [State.goto, htotal]
    omega
  · rcases List.mem_append.mp hb with hb | hb
    · exact h.args b hb
    · rw [List.mem_singleton.mp hb]
      exact ⟨hn, hmapped⟩
  · by_cases hqp : q = p
    · subst hqp
      cases hself.symm.trans hq
      exact ⟨by simp [State.goto], h.later _ (Nat.le_refl _), Int.le_refl 0, .inr rfl, hnone⟩
    · have hq : s.pc q = .filewrite l x := (hother q hqp).symm.trans hq
      obtain ⟨h1, h2, h3⟩ := h.call q l x hq
      exact ⟨by simpa [State.goto, List.getElem?_append, hlt q l x hq] using h1, h2, h3⟩
  · by_cases hqp : q = p <;> by_cases hrp : r = p
    · rw [hqp, hrp]
    · subst hqp
      cases hself.symm.trans hq
      have := hlt r l' y ((hother r hrp).symm.trans hr)
      simp only at hxy
      omega
    · subst hrp
      cases hself.symm.trans hr
      have := hlt q l x ((hother q hqp).symm.trans hq)
      simp only at hxy
      omega
    · exact h.single q r l l' x y ((hother q hqp).symm.trans hq) ((hother r hrp).symm.trans hr) hxy
  · by_cases hkl : k = s.calls.length
    · exact ⟨p, .loop, _, hself, hkl.symm⟩
    · have hk : k < s.calls.length := by
        simp [State.goto] at hk
        omega
      obtain ⟨q, l, x, hq, hqk⟩ := h.running k hk hkr
      have hqp : q ≠ p := fun he => by
        simp [he, hp] at hq
      exact ⟨q, l, x, (hother q hqp).trans hq, hqk⟩
  · have hkl : k < s.calls.length := by
      by_contra hge
      have hr : s.ret k = some r := hr
      simp [h.later k (by omega)] at hr
    simp only [State.goto, List.getElem?_append, hkl, if_true] at hk
    exact h.done k b r hk hr
  · refine h.later k ?_
    simp [State.goto] at hk
    omega

theorem Inv.step (h : Inv g inum bs off s) {e : Event P} (hfits : Fits off s e) (hs : step g s e = some u) :
    Inv g inum bs off u ∨ u.panic = some .ballocOutOfBlocks := by
  unfold Filewrite.step at hs
  rw [if_neg (by simp [h.panic])] at hs
  cases e with
  | run p => exact h.run hs
  | call p a =>
    cases hp : s.pc p with
    | filewrite l x => simp [hp] at hs
    | user =>
      simp only [hp, h.writable, if_true, Option.some.injEq] at hs
      exact .inl (hs ▸ h.start_call hp hfits)

omit [DecidableEq P] in
theorem inv_init {fs : Fs.State} {file : File} (hfile : Holds g file.ip inum bs fs) (hwritable : file.writable = true)
    (hoff : file.off.toNat ≤ bs.length) :
    Inv g inum bs file.off.toNat (init fs file : State P) where
  file := by
    have hnone : overwrite bs file.off.toNat [] = bs := by simp [overwrite]
    simpa [init, hnone] using hfile
  start := hoff
  writable := hwritable
  tiles := trivial
  tags := by simp [init]
  offset := by simp [init, State.pending]
  locked := by simp [init, Pc.locked]
  space := by
    have := hfile.length_le
    simp only [init, total, List.map_nil, List.sum_nil]
    omega
  args := by simp [init]
  call := by simp [init]
  single := by simp [init]
  running := by simp [init]
  done := by simp [init]
  later := by simp [init]
  panic := rfl

theorem inv_run {fs : Fs.State} {file : File} (hfile : Holds g file.ip inum bs fs) (hwritable : file.writable = true)
    (hoff : file.off.toNat ≤ bs.length) {es : List (Event P)}
    (h : Run (step g) (Fits file.off.toNat) (init fs file) es s) :
    Inv g inum bs file.off.toNat s ∨ s.panic = some .ballocOutOfBlocks := by
  induction h with
  | nil => exact .inl (inv_init hfile hwritable hoff)
  | snoc _ hfits hs ih =>
    rcases ih with ih | ih
    · exact ih.step hfits hs
    · simp [step, ih] at hs

/-! ## Calls come to an end -/

/-- The bytes that are left to write. -/
def Locals.left (x : Locals) : Nat := (x.args.n - x.i).toNat

/-- A bound on the steps that a call still makes. -/
def Pc.work : Pc → Nat
  | .user => 0
  | .filewrite .loop x => 8 * x.left + 1
  | .filewrite .ilock x => 8 * x.left
  | .filewrite .writei x => 8 * x.left - 1
  | .filewrite .advance x => 8 * x.left - 2
  | .filewrite .iunlock x => 8 * x.left - 3
  | .filewrite .endOp x => 8 * x.left - 4
  | .filewrite .check x => 8 * x.left - 5

theorem Inv.work_lt (h : Inv g inum bs off s) (hs : Filewrite.run g s p = some u) (hu : u.panic = none) :
    (u.pc p).work < (s.pc p).work ∧ ∀ q, q ≠ p → u.pc q = s.pc q := by
  cases hp : s.pc p with
  | user => simp [Filewrite.run, hp] at hs
  | filewrite l x =>
    have hprogress := (h.call p l x hp).2.2
    have hlock := h.locked p
    cases l <;> simp only [Progress] at hprogress <;> simp only [Filewrite.run, hp] at hs
    case loop =>
      split_ifs at hs <;> cases hs <;>
        refine ⟨?_, fun q hq => update_of_ne hq _ _⟩ <;>
        simp only [State.goto, State.finish, update_self, Pc.work, Locals.left] <;> omega
    case ilock =>
      cases hl : s.lock with
      | some q => simp [hl] at hs
      | none =>
        simp only [hl, h.file.ilock, Option.some.injEq] at hs
        subst hs
        refine ⟨?_, fun q hq => update_of_ne hq _ _⟩
        simp only [State.goto, update_self, Pc.work, Locals.left]
        omega
    case writei =>
      split at hs
      · cases hs
        refine ⟨?_, fun q hq => update_of_ne hq _ _⟩
        simp only [State.goto, update_self, Pc.work, Locals.left]
        omega
      · cases hs
        cases hu
    case advance =>
      cases hs
      refine ⟨?_, fun q hq => update_of_ne hq _ _⟩
      simp only [State.goto, update_self, Pc.work, Locals.left]
      omega
    case iunlock =>
      rw [if_pos (hlock.mpr (by rw [hp]; rfl))] at hs
      cases hs
      refine ⟨?_, fun q hq => update_of_ne hq _ _⟩
      simp only [State.goto, update_self, Pc.work, Locals.left]
      omega
    case endOp =>
      obtain ⟨fs, hcommit, -⟩ := h.file.commit
      simp only [Filewrite.endOp, hcommit, Option.some.injEq] at hs
      subst hs
      have hpc : (if s.outstanding = 1 then { s with outstanding := 0, fs := fs } else
          { s with outstanding := s.outstanding - 1 }).pc = s.pc := by split_ifs <;> rfl
      refine ⟨?_, fun q hq => ?_⟩
      · simp only [State.goto, update_self, Pc.work, Locals.left]
        omega
      · simp only [State.goto, update_of_ne hq, hpc]
    case check =>
      rw [if_neg (by omega), if_neg (by omega)] at hs
      cases hs
      refine ⟨?_, fun q hq => update_of_ne hq _ _⟩
      simp only [State.goto, update_self, Pc.work, Locals.left]
      omega

theorem Inv.enabled (h : Inv g inum bs off s) (hp : s.pc p ≠ .user) : ∃ q u, Filewrite.run g s q = some u := by
  -- a process that does not wait for the lock can go on
  have hgo : ∀ q l x, s.pc q = .filewrite l x → (l = .ilock → s.lock = none) → ∃ u, Filewrite.run g s q = some u := by
    intro q l x hq hl
    cases l <;> simp only [Filewrite.run, hq]
    case loop => split_ifs <;> exact ⟨_, rfl⟩
    case ilock =>
      simp only [hl rfl, h.file.ilock]
      exact ⟨_, rfl⟩
    case writei => split <;> exact ⟨_, rfl⟩
    case advance => exact ⟨_, rfl⟩
    case iunlock => split_ifs <;> exact ⟨_, rfl⟩
    case endOp => exact ⟨_, rfl⟩
    case check => split_ifs <;> exact ⟨_, rfl⟩
  cases hq : s.pc p with
  | user => exact absurd hq hp
  | filewrite l x =>
    cases hlock : s.lock with
    | none => exact ⟨p, hgo p l x hq fun _ => hlock⟩
    | some r =>
      have hr := (h.locked r).mp hlock
      cases hrp : s.pc r with
      | user => simp [hrp, Pc.locked] at hr
      | filewrite m y => exact ⟨r, hgo r m y hrp fun hm => by simp [hrp, hm, Pc.locked] at hr⟩

/-! ## Nothing is lost -/

/-- Writers call `filewrite` on one open file, from offset `off` on, and the file stays below its maximum
size. Unless `balloc` runs out of blocks, in every state: the chunks, of at most `3 * BSIZE` bytes, were
written one after another from `off` on, each at the offset that the file had, and the contents of the file
are what it was with them written into it. When no chunk is being written, the offset of the file is the end
of the last one. A call has written a first part of its bytes, in order; if it has returned, all of them,
and then it has returned `n`, or -1 for a negative `n`. When no call is in progress, the offset has advanced
by all the bytes. Every step of a call brings it closer to its end, and one of the calls can go on. -/
theorem shared_writes_tile {fs : Fs.State} {file : File} (hfile : Holds g file.ip inum bs fs)
    (hwritable : file.writable = true)
    (hoff : file.off.toNat ≤ bs.length) {es : List (Event P)}
    (h : Run (step g) (Fits file.off.toNat) (init fs file) es s) :
    s.panic = some .ballocOutOfBlocks ∨ s.panic = none ∧
      Tiles (3 * BSIZE) file.off.toNat s.chunks ∧
      Holds g s.file.ip inum (overwrite bs file.off.toNat (data s.chunks)) s.fs ∧
      (s.lock = none → s.file.off.toNat = file.off.toNat + (data s.chunks).length) ∧
      (∀ k a, s.calls[k]? = some a → ∃ m, m ≤ a.n.toNat ∧ of k s.chunks = a.bytes m) ∧
      (∀ k a r, s.calls[k]? = some a → s.ret k = some r →
        r = (if 0 ≤ a.n then a.n else -1) ∧ of k s.chunks = a.bytes a.n.toNat) ∧
      ((∀ p, s.pc p = .user) → (data s.chunks).length = total s.calls ∧
        s.file.off.toNat = file.off.toNat + total s.calls ∧ ∀ k, k < s.calls.length → s.ret k ≠ none) ∧
      (∀ p u, step g s (.run p) = some u → u.panic = none →
        (u.pc p).work < (s.pc p).work ∧ ∀ q, q ≠ p → u.pc q = s.pc q) ∧
      ((∃ p, s.pc p ≠ .user) → ∃ p u, step g s (.run p) = some u) := by
  rcases inv_run hfile hwritable hoff h with hinv | hpanic
  · have hstep : ∀ p, step g s (.run p) = Filewrite.run g s p := fun p => by simp [step, hinv.panic]
    have hoffset : s.lock = none → s.file.off.toNat = file.off.toNat + (data s.chunks).length := fun hunlocked => by
      have hoffset := hinv.offset
      simp only [State.pending, hunlocked] at hoffset
      omega
    refine .inr ⟨hinv.panic, hinv.tiles, hinv.file, hoffset, fun k a hk => ?_, hinv.done, fun huser => ?_,
      fun p u hs hu => ?_,
      fun ⟨p, hp⟩ => ?_⟩
    · exact hinv.written hk
    · have hret : ∀ k, k < s.calls.length → s.ret k ≠ none := by
        intro k hk hkr
        obtain ⟨p, l, x, hp, -⟩ := hinv.running k hk hkr
        rw [huser p] at hp
        cases hp
      have hlength : (data s.chunks).length = total s.calls := by
        rw [← sum_length_of fun c hc => Finset.mem_range.mpr (hinv.tags c hc), total_eq_sum]
        refine Finset.sum_congr rfl fun k hk => ?_
        have hk := Finset.mem_range.mp hk
        obtain ⟨r, hr⟩ := Option.ne_none_iff_exists'.mp (hret k hk)
        rw [(hinv.done k _ r (List.getElem?_eq_getElem hk) hr).2, Args.bytes, length_bytes, List.getElem?_eq_getElem hk]
        rfl
      have hunlocked : s.lock = none := by
        cases hl : s.lock with
        | none => rfl
        | some p =>
          have := (hinv.locked p).mp hl
          rw [huser p] at this
          cases this
      exact ⟨hlength, hlength ▸ hoffset hunlocked, hret⟩
    · exact hinv.work_lt (hstep p ▸ hs) hu
    · obtain ⟨q, u, hq⟩ := hinv.enabled hp
      exact ⟨q, u, (hstep q).trans hq⟩
  · exact .inl hpanic

/-! ## A run -/

instance (off : Nat) (s : State P) (e : Event P) : Decidable (Fits off s e) :=
  match e with
  | .run _ => inferInstanceAs (Decidable True)
  | .call _ a => inferInstanceAs (Decidable (a.n < 2 ^ 31 ∧
      (∀ k, k < a.n.toNat → (Memory.user a.mem).byte (a.addr + k) ≠ none) ∧
      off + total s.calls + a.n.toNat ≤ MAXFILE * BSIZE))

theorem holds_fullState : Holds tiny ⟨0, by decide⟩ 1 [0] fullState := by
  refine ⟨fullImage, fullCache, ⟨rfl, rfl, rfl⟩, settled_fullImage, rfl, by decide, rfl, ?_⟩
  rw [dinode_fullImage_one]
  decide +kernel

/-- Two writers, of which the second is asked for a negative number of bytes. -/
def twoWriters : List (Event (Fin 2)) :=
  [.call 0 ⟨onePage, 0, 1⟩, .run 0, .call 1 ⟨onePage, 0, -5⟩, .run 0, .run 0, .run 0, .run 1, .run 0, .run 0,
  .run 0, .run 0]

def sharedFile : File := ⟨true, ⟨0, NINODE_pos⟩, 0⟩

theorem shared_writes_tile_twoWriters :
    ∃ s, Run (step tiny) (Fits 0) (init fullState sharedFile) twoWriters s ∧ s.ret 0 = some 1 ∧
      s.file.off = 1 ∧ of 0 s.chunks = [7] ∧ Holds tiny s.file.ip 1 (overwrite [0] 0 (data s.chunks)) s.fs := by
  obtain ⟨s, hs, hret, hoff, hbytes, hn, hpanic⟩ : ∃ s, Run (step tiny) (Fits 0) (init fullState sharedFile)
      twoWriters s ∧ s.ret 0 = some 1 ∧ s.file.off = 1 ∧ (s.calls[0]?).map (fun a => a.bytes 1) = some [7] ∧
      (s.calls[0]?).map Args.n = some 1 ∧ s.panic ≠ some .ballocOutOfBlocks := by decide +kernel
  have hrun : Run (step tiny) (Fits sharedFile.off.toNat) (init fullState sharedFile) twoWriters s :=
    hs
  have hfile : Holds tiny sharedFile.ip 1 [0] fullState := holds_fullState
  obtain ⟨a, ha, hseven⟩ := Option.map_eq_some_iff.mp hbytes
  have hn : a.n = 1 := by simpa [ha] using hn
  rcases shared_writes_tile hfile rfl (Nat.zero_le _) hrun with hbad | ⟨-, -, hholds, -, -, hdone, -⟩
  · exact absurd hbad hpanic
  · refine ⟨s, hrun, hret, hoff, ?_, hholds⟩
    rw [(hdone 0 a 1 ha hret).2, hn]
    exact hseven

/-- The second writer does not get its `n` back. -/
theorem filewrite_negative :
    ∃ s a, Run (step tiny) (Fits 0) (init fullState sharedFile) twoWriters s ∧ s.calls[1]? = some a ∧ a.n = -5 ∧
      s.ret 1 = some (-1) := by
  obtain ⟨s, hs, hn, hret⟩ : ∃ s, Run (step tiny) (Fits 0) (init fullState sharedFile) twoWriters s ∧
      (s.calls[1]?).map Args.n = some (-5) ∧ s.ret 1 = some (-1) := by decide +kernel
  obtain ⟨a, ha, hn⟩ := Option.map_eq_some_iff.mp hn
  exact ⟨s, a, hs, ha, hn, hret⟩

end Xv6.Filewrite

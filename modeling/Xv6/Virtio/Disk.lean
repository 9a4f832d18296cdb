import Xv6.Lib.RingBuffer
import Xv6.Panic
import Xv6.Param

/-!
# The virtio disk driver

`kernel/virtio_disk.c`, its callers in `kernel/bio.c` as far as they lock the buffer, and the device. A
request takes three descriptors; the index of the first goes to the device through the avail ring and comes
back through the used ring.

`vdisk_lock` is held from `acquire` to the next `sleep` or `release`, and the device does not look at what the code in
between changes before `avail[1]` is incremented, so the code in between is one step. The interrupt handler reads
the index of the used ring again and again while the device may increment it: there, one round of the loop is a step. A
process that sleeps may go on at any time when the lock is free.
-/

namespace Xv6.Virtio

open Function (update)

/-- Number of descriptors. -/
def NUM : Nat := 8

def VRING_DESC_F_NEXT : BitVec 16 := 1

def VRING_DESC_F_WRITE : BitVec 16 := 2

def VIRTIO_BLK_T_IN : Nat := 0

def VIRTIO_BLK_T_OUT : Nat := 1

/-- What a descriptor points to: the header on the stack of a process, the data of a buffer, or a status byte. -/
inductive Addr (P B : Type)
  | zero
  | header (p : P)
  | data (b : B)
  | status (i : Nat)

/-- `struct VRingDesc` -/
structure Desc (P B : Type) where
  addr : Addr P B
  len : Nat
  flags : BitVec 16
  next : Nat

/-- `struct virtio_blk_outhdr` -/
structure Header where
  type : Nat
  reserved : Nat
  sector : Nat
  deriving DecidableEq

structure Info (B : Type) where
  b : Option B
  status : BitVec 8

/-- A call of `virtio_disk_rw` that has its descriptors. -/
structure Req (P B : Type) where
  proc : P
  buf : B
  write : Bool
  sector : Nat
  idx0 : Nat
  idx1 : Nat
  idx2 : Nat
  deriving DecidableEq

variable {P B : Type}

def Req.idx (r : Req P B) : List Nat := [r.idx0, r.idx1, r.idx2]

def Req.header (r : Req P B) : Header :=
  { type := if r.write then VIRTIO_BLK_T_OUT else VIRTIO_BLK_T_IN, reserved := 0, sector := r.sector }

/-- Where a process is: outside of the driver, before it has its descriptors, or waiting for request number `seq`. -/
inductive Pc (P B : Type)
  | out
  | start (b : B) (write : Bool) (sector : Nat)
  | wait (r : Req P B) (seq : Nat)
  deriving DecidableEq

/-- A chain that the device has taken: its head, and the number of the entry of the avail ring it was read from. -/
structure Job where
  head : Nat
  seq : Nat

/-- What the device has done: the entry it took, the head it read there, and the request it found in the descriptors. -/
structure Done (P B : Type) where
  seq : Nat
  head : Nat
  header : Option Header
  data : Addr P B

/-- The completion of request number `k`. -/
def Req.done (r : Req P B) (k : Nat) : Done P B := ⟨k, r.idx0, some r.header, .data r.buf⟩

structure State (P B : Type) where
  desc : Nat → Desc P B
  avail : Nat → Nat
  availIdx : BitVec 16
  usedElems : Nat → Nat
  usedId : BitVec 16
  free : Nat → Bool
  usedIdx : BitVec 16
  info : Nat → Info B
  /-- `b->disk` -/
  disk : B → Bool
  /-- who holds `b->lock` -/
  owner : B → Option P
  pc : P → Pc P B
  /-- `buf0` on the stack of a process -/
  buf0 : P → Header
  /-- the interrupt handler is running, with `vdisk_lock` -/
  intr : Bool
  panic : Option Panic
  /-- how far the device has looked in the avail ring -/
  lastAvail : BitVec 16
  jobs : List Job
  /-- history: the requests, how many of them the device has taken, its completions, and the heads that the interrupt
  handler has read -/
  log : List (Req P B)
  taken : Nat
  completed : List (Done P B)
  seen : List Nat

/-! ## The driver -/

def allocDesc (s : State P B) : Option (Nat × State P B) :=
  ((List.range NUM).find? s.free).map fun i => (i, { s with free := update s.free i false })

def freeDesc (s : State P B) (i : Nat) : Except Panic (State P B) :=
  if NUM ≤ i then .error .virtioIntr1
  else if s.free i = true then .error .virtioIntr2
  else .ok { s with
    desc := update s.desc i { s.desc i with addr := .zero }
    free := update s.free i true }

/-- A chain with more descriptors than there are comes back to one that is free. -/
def freeChain : Nat → State P B → Nat → Except Panic (State P B)
  | 0, _, _ => .error .virtioIntr2
  | fuel + 1, s, i =>
    match freeDesc s i with
    | .error e => .error e
    | .ok s => if (s.desc i).flags &&& VRING_DESC_F_NEXT ≠ 0 then freeChain fuel s (s.desc i).next else .ok s

/-- The loop in `alloc3_desc` that gives back what was allocated. -/
def freeDescs : List Nat → State P B → Except Panic (State P B)
  | [], s => .ok s
  | i :: idx, s =>
    match freeDesc s i with
    | .error e => .error e
    | .ok s => freeDescs idx s

/-- The loop of `alloc3_desc`, with `n` descriptors to go after `idx`. -/
def allocLoop : Nat → List Nat → State P B → Except Panic (Option (List Nat) × State P B)
  | 0, idx, s => .ok (some idx, s)
  | n + 1, idx, s =>
    match allocDesc s with
    | some (i, s) => allocLoop n (idx ++ [i]) s
    | none => (freeDescs idx s).map fun s => (none, s)

def alloc3Desc (s : State P B) : Except Panic (Option (List Nat) × State P B) := allocLoop 3 [] s

section

variable [DecidableEq P] [DecidableEq B]

/-- `virtio_disk_rw` with its descriptors, up to the loop that waits. -/
def request (s : State P B) (r : Req P B) : State P B :=
  { s with
    buf0 := update s.buf0 r.proc r.header
    desc := update (update (update s.desc
      r.idx0 ⟨.header r.proc, 16, VRING_DESC_F_NEXT, r.idx1⟩)
      r.idx1 ⟨.data r.buf, BSIZE, (if r.write then 0 else VRING_DESC_F_WRITE) ||| VRING_DESC_F_NEXT, r.idx2⟩)
      r.idx2 ⟨.status r.idx0, 1, VRING_DESC_F_WRITE, 0⟩
    info := update s.info r.idx0 ⟨some r.buf, 0⟩
    disk := update s.disk r.buf true
    avail := update s.avail (s.availIdx.toNat % NUM) r.idx0
    availIdx := s.availIdx + 1
    pc := update s.pc r.proc (.wait r s.log.length)
    log := s.log ++ [r] }

/-- A round of the loop that allocates. -/
def rwStart (s : State P B) (p : P) (b : B) (write : Bool) (sector : Nat) : Except Panic (State P B) :=
  match alloc3Desc s with
  | .error e => .error e
  | .ok (some [i, j, k], s) => .ok (request s ⟨p, b, write, sector, i, j, k⟩)
  | .ok (_, s) => .ok s

/-- A round of the loop that waits, and the end of the call. -/
def rwFinish (s : State P B) (p : P) (r : Req P B) : Except Panic (State P B) :=
  if s.disk r.buf = true then .ok s
  else
    match freeChain (NUM + 1)
      { s with info := update s.info r.idx0 { s.info r.idx0 with b := none } } r.idx0 with
    | .error e => .error e
    | .ok s => .ok { s with pc := update s.pc p .out }

/-- A round of the loop of `virtio_disk_intr`, or its end. -/
def intrStep (s : State P B) : Except Panic (State P B) :=
  if s.usedIdx.toNat % NUM ≠ s.usedId.toNat % NUM then
    let id := s.usedElems s.usedIdx.toNat
    if (s.info id).status ≠ 0 then .error .virtioStatus
    else
      match (s.info id).b with
      | none => .error .kerneltrap
      | some b => .ok { s with
          disk := update s.disk b false
          usedIdx := BitVec.ofNat 16 ((s.usedIdx.toNat + 1) % NUM)
          seen := s.seen ++ [id] }
  else .ok { s with intr := false }

end

/-! ## The device -/

/-- The device takes the next entry of the avail ring. -/
def take (s : State P B) : Option (State P B) :=
  if s.lastAvail = s.availIdx then none
  else some { s with
    jobs := s.jobs ++ [⟨s.avail (s.lastAvail.toNat % NUM), s.taken⟩]
    lastAvail := s.lastAvail + 1
    taken := s.taken + 1 }

/-- The header that a descriptor points to. -/
def headerAt (s : State P B) : Addr P B → Option Header
  | .header p => some (s.buf0 p)
  | _ => none

/-- The device writes the status. -/
def writeStatus (info : Nat → Info B) (status : BitVec 8) : Addr P B → Nat → Info B
  | .status i => update info i { info i with status := status }
  | _ => info

/-- The device completes one of the chains it has taken, with status 0. -/
def complete (s : State P B) (n : Nat) : Option (State P B) :=
  (s.jobs[n]?).map fun j =>
    let d0 := s.desc j.head
    let d1 := s.desc d0.next
    let d2 := s.desc d1.next
    { s with
      jobs := s.jobs.eraseIdx n
      info := writeStatus s.info 0 d2.addr
      usedElems := update s.usedElems (s.usedId.toNat % NUM) j.head
      usedId := s.usedId + 1
      completed := s.completed ++ [⟨j.seq, j.head, headerAt s d0.addr, d1.addr⟩] }

/-! ## The system -/

inductive Event (P B : Type)
  | acquiresleep (p : P) (b : B)
  | releasesleep (p : P) (b : B)
  | call (p : P) (b : B) (write : Bool) (sector : Nat)
  | run (p : P)
  | intr
  | intrStep
  | take
  | complete (n : Nat)

/-- The state after code of the kernel that may panic. -/
def State.after (s : State P B) : Except Panic (State P B) → State P B
  | .ok s => s
  | .error e => { s with panic := some e }

section

variable [DecidableEq P] [DecidableEq B]

/-- A process in the driver goes on. -/
def runProc (s : State P B) (p : P) : Option (State P B) :=
  match s.pc p with
  | .out => none
  | .start b write sector => some (s.after (rwStart s p b write sector))
  | .wait r _ => some (s.after (rwFinish s p r))

/-- The callers in `kernel/bio.c` hold the lock of the buffer. After a panic, nothing happens. -/
def step (s : State P B) (e : Event P B) : Option (State P B) :=
  if s.panic.isSome then none
  else
    match e with
    | .acquiresleep p b => if s.owner b = none then some { s with owner := update s.owner b (some p) } else none
    | .releasesleep p b =>
      match s.pc p with
      | .out => if s.owner b = some p then some { s with owner := update s.owner b none } else none
      | _ => none
    | .call p b write sector =>
      match s.pc p with
      | .out =>
        if s.owner b = some p then some { s with pc := update s.pc p (.start b write sector) } else none
      | _ => none
    | .run p => if s.intr then none else runProc s p
    | .intr => if s.intr then none else some { s with intr := true }
    | .intrStep => if s.intr then some (s.after (intrStep s)) else none
    | .take => take s
    | .complete n => complete s n

end

/-- After `virtio_disk_init`. -/
def init : State P B where
  desc := fun _ => ⟨.zero, 0, 0, 0⟩
  avail := fun _ => 0
  availIdx := 0
  usedElems := fun _ => 0
  usedId := 0
  free := fun i => decide (i < NUM)
  usedIdx := 0
  info := fun _ => ⟨none, 0⟩
  disk := fun _ => false
  owner := fun _ => none
  pc := fun _ => .out
  buf0 := fun _ => ⟨0, 0, 0⟩
  intr := false
  panic := none
  lastAvail := 0
  jobs := []
  log := []
  taken := 0
  completed := []
  seen := []

end Xv6.Virtio

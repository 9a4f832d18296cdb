import Xv6.Bio.Spec
import Xv6.Lib.Dlist
import Xv6.Lib.Run

/-!
# The order of the buffers

The pointers `prev` and `next` of `kernel/bio.c`, which the cache of `Bio.Cache` has as the list `lru`:
`brelse` takes a buffer out of the list and puts it behind the head by six pointer writes, and `bget` walks
along the links in both directions.

The calls are those of any number of processes. `acquiresleep` at the end of `bget` is an event of its own,
since a process may sleep there. The history has the references of each buffer, whether `bget` has returned
it, and when a `brelse` last left it without references.
-/

namespace Xv6.Lru

open Dlist
open Function (update update_of_ne update_self)

/-- The buffers and the links between them; `none` is `bcache.head`. -/
structure Cache where
  buf : Fin NBUF → Buf
  links : Links (Fin NBUF)

def Cache.set (c : Cache) (i : Fin NBUF) (x : Buf) : Cache := { c with buf := update c.buf i x }

def binit : Cache where
  buf _ := {}
  links := (List.finRange NBUF).foldl Links.insert ⟨fun _ => none, fun _ => none⟩

/-- How `bget` ends. -/
inductive Got
  | buffer (i : Fin NBUF) (c : Cache)
  /-- `panic("bget: no buffers")` -/
  | noBuffers

/-- `bget` up to `acquiresleep`. There is no result if a loop does not end. -/
def bget (c : Cache) (dev blockno : Nat) : Option Got :=
  (walk c.links.next (fun i => (c.buf i).dev == dev && (c.buf i).blockno == blockno) (NBUF + 1)
    (c.links.next none)).bind fun
    | some i => some (.buffer i (c.set i { c.buf i with refcnt := incr (c.buf i).refcnt }))
    | none => (walk c.links.prev (fun i => (c.buf i).refcnt == 0) (NBUF + 1) (c.links.prev none)).map fun
      | some i => .buffer i (c.set i { c.buf i with dev, blockno, valid := false, refcnt := 1 })
      | none => .noBuffers

def brelse (c : Cache) (i : Fin NBUF) : Cache :=
  let c := c.set i { c.buf i with lock := none }
  let c := c.set i { c.buf i with refcnt := decr (c.buf i).refcnt }
  if (c.buf i).refcnt = 0 then { c with links := (c.links.remove i).insert i } else c

def bpin (c : Cache) (i : Fin NBUF) : Cache := c.set i { c.buf i with refcnt := incr (c.buf i).refcnt }

def bunpin (c : Cache) (i : Fin NBUF) : Cache := c.set i { c.buf i with refcnt := decr (c.buf i).refcnt }

structure State where
  cache : Cache
  /-- processes between the two parts of `bget` -/
  wait : Fin NBUF → Nat := fun _ => 0
  pins : Fin NBUF → Nat := fun _ => 0
  /-- there was a `bunpin` without a `bpin` -/
  unmatched : Bool := false
  used : Fin NBUF → Bool := fun _ => false
  /-- the number of the last `brelse` that left no reference, or 0 -/
  released : Fin NBUF → Nat := fun _ => 0
  clock : Nat := 0

inductive Call
  | bget (dev blockno : Nat)
  | acquiresleep (p : Nat) (i : Fin NBUF)
  | brelse (p : Nat) (i : Fin NBUF)
  | bpin (i : Fin NBUF)
  | bunpin (i : Fin NBUF)

def step (s : State) : Call → Option State
  | .bget dev blockno =>
    match bget s.cache dev blockno with
    | some (.buffer i c) =>
      some { s with cache := c, wait := update s.wait i (s.wait i + 1), used := update s.used i true }
    | _ => none
  | .acquiresleep p i =>
    if 0 < s.wait i ∧ (s.cache.buf i).lock = none then
      some { s with
        cache := s.cache.set i { s.cache.buf i with lock := some p }
        wait := update s.wait i (s.wait i - 1) }
    else none
  | .brelse p i =>
    if (s.cache.buf i).lock = some p then
      let c := brelse s.cache i
      some { s with
        cache := c
        released := if (c.buf i).refcnt = 0 then update s.released i (s.clock + 1) else s.released
        clock := s.clock + 1 }
    else none
  | .bpin i => some { s with cache := bpin s.cache i, pins := update s.pins i (s.pins i + 1) }
  | .bunpin i => some { s with
      cache := bunpin s.cache i
      pins := update s.pins i (s.pins i - 1)
      unmatched := s.unmatched || s.pins i == 0 }

/-- The device number is not zero, and `bunpin` is called on a buffer that is held. -/
def Allowed (s : State) : Call → Prop
  | .bget dev _ => dev ≠ 0
  | .bunpin i => (s.cache.buf i).lock.isSome
  | _ => True

instance Allowed.decidable (s : State) : ∀ e, Decidable (Allowed s e)
  | .bget dev _ => inferInstanceAs (Decidable (dev ≠ 0))
  | .bunpin i => inferInstanceAs (Decidable ((s.cache.buf i).lock.isSome = true))
  | .acquiresleep _ _ => isTrue trivial
  | .brelse _ _ => isTrue trivial
  | .bpin _ => isTrue trivial

def boot : State := { cache := binit }

/-- The references to a buffer. -/
def State.refs (s : State) (i : Fin NBUF) : Nat := s.wait i + (s.cache.buf i).holders + s.pins i

/-- Among the buffers without references, `i` was released first, or never. If the references have been
counted, it has not been used while there is one that has not. -/
structure Oldest (s : State) (i : Fin NBUF) : Prop where
  unused : (s.cache.buf i).refcnt = 0
  oldest : ∀ j, (s.cache.buf j).refcnt = 0 → s.released i ≤ s.released j
  never : s.unmatched = false → (∀ j, s.refs j < 2 ^ 32) → (∃ j, (s.cache.buf j).refcnt = 0 ∧ s.used j = false) →
    s.used i = false

/-! ## The links are the list -/

variable {c : Cache} {order : List (Fin NBUF)} {i j : Fin NBUF} {dev blockno : Nat} {s s' : State}

/-- The cache with the list that the links form. -/
def Cache.toBcache (c : Cache) (order : List (Fin NBUF)) : Bcache := { buf := c.buf, lru := order }

theorem binit_ring : IsRing binit.links (Xv6.binit).lru := by
  have h : IsRing (⟨fun _ => none, fun _ => none⟩ : Links (Fin NBUF)) [] := ⟨List.nodup_nil, rfl, rfl⟩
  have hring := h.insert_all (List.nodup_finRange NBUF) fun _ _ => List.not_mem_nil
  rwa [List.append_nil] at hring

theorem bget_cases (hring : IsRing c.links order) (dev blockno : Nat) :
    (∃ i, (c.toBcache order).cached dev blockno = some i ∧
      bget c dev blockno = some (.buffer i (c.set i { c.buf i with refcnt := incr (c.buf i).refcnt }))) ∨
    (c.toBcache order).cached dev blockno = none ∧
      ((∃ i, (c.toBcache order).unused = some i ∧
        bget c dev blockno = some (.buffer i (c.set i { c.buf i with dev, blockno, valid := false, refcnt := 1 }))) ∨
      (c.toBcache order).unused = none ∧ bget c dev blockno = some .noBuffers) := by
  have hlen : order.length < NBUF + 1 := by
    have := hring.nodup.length_le_card
    rw [Fintype.card_fin] at this
    omega
  have hnext : walk c.links.next (fun i => (c.buf i).dev == dev && (c.buf i).blockno == blockno) (NBUF + 1)
    (c.links.next none) = some ((c.toBcache order).cached dev blockno) := hring.walk_next hlen
  have hprev : walk c.links.prev (fun i => (c.buf i).refcnt == 0) (NBUF + 1) (c.links.prev none) =
      some (c.toBcache order).unused := hring.walk_prev hlen
  rw [bget, hnext, hprev, Option.bind_some]
  cases hcached : (c.toBcache order).cached dev blockno with
  | some i => exact .inl ⟨i, rfl, rfl⟩
  | none =>
    cases hunused : (c.toBcache order).unused with
    | some i => exact .inr ⟨rfl, .inl ⟨i, rfl, rfl⟩⟩
    | none => exact .inr ⟨rfl, .inr ⟨rfl, rfl⟩⟩

theorem mem_toFront (hall : ∀ j, j ∈ order) (i j : Fin NBUF) : j ∈ i :: order.erase i := by
  rcases eq_or_ne j i with rfl | hj
  · exact List.mem_cons_self
  · exact List.mem_cons_of_mem i ((List.mem_erase_of_ne hj).mpr (hall j))

theorem brelse_eq (c : Cache) (i : Fin NBUF) :
    (brelse c i).buf = update c.buf i { c.buf i with lock := none, refcnt := decr (c.buf i).refcnt } ∧
      (brelse c i).links = if decr (c.buf i).refcnt = 0 then (c.links.remove i).insert i else c.links := by
  simp only [brelse, Cache.set, update_self, Function.update_idem]
  split_ifs
  · exact ⟨rfl, rfl⟩
  · exact ⟨rfl, rfl⟩

/-! ## Every run -/

/-- No two buffers are for the same block. -/
def Distinct (buf : Fin NBUF → Buf) : Prop :=
  ∀ i j, (buf i).dev ≠ 0 → (buf i).dev = (buf j).dev → (buf i).blockno = (buf j).blockno → i = j

/-- A buffer has `n` references. If it has been used and has none, it has been released. -/
structure Counted (x : Buf) (n : Nat) (used : Bool) (released : Nat) : Prop where
  refcnt : x.refcnt = n % 2 ^ 32
  released : used = true → n = 0 → 0 < released

structure Inv (s : State) (order : List (Fin NBUF)) : Prop where
  ring : IsRing s.cache.links order
  all : ∀ i, i ∈ order
  sorted : order.Pairwise fun i j => s.released j ≤ s.released i
  clock : ∀ i, s.released i ≤ s.clock
  distinct : Distinct s.cache.buf
  idle : ∀ i, s.used i = false → s.wait i = 0 ∧ (s.cache.buf i).lock = none ∧ s.released i = 0
  counted : s.unmatched = false → ∀ i, Counted (s.cache.buf i) (s.refs i) (s.used i) (s.released i)

theorem inv_boot : Inv boot (Xv6.binit).lru where
  ring := binit_ring
  all i := List.mem_reverse.mpr (List.mem_finRange i)
  sorted := List.pairwise_of_forall fun _ _ => Nat.le_refl 0
  clock _ := Nat.le_refl 0
  distinct _ _ h := absurd rfl h
  idle _ _ := ⟨rfl, rfl, rfl⟩
  counted _ _ := ⟨rfl, fun h => absurd h Bool.false_ne_true⟩

variable {buf : Fin NBUF → Buf} {x : Buf}

theorem Distinct.same (h : Distinct buf) (hdev : x.dev = (buf i).dev) (hblockno : x.blockno = (buf i).blockno) :
    Distinct (update buf i x) := by
  have hkey : ∀ j, (update buf i x j).dev = (buf j).dev ∧ (update buf i x j).blockno = (buf j).blockno := by
    intro j
    rcases eq_or_ne j i with rfl | hj
    · rw [update_self]
      exact ⟨hdev, hblockno⟩
    · rw [update_of_ne hj]
      exact ⟨rfl, rfl⟩
  intro j k
  rw [(hkey j).1, (hkey j).2, (hkey k).1, (hkey k).2]
  exact h j k

theorem Distinct.recycle (h : Distinct buf) (hnew : ∀ j, ¬((buf j).dev = x.dev ∧ (buf j).blockno = x.blockno)) :
    Distinct (update buf i x) := by
  intro j k h0 hdev hblockno
  rcases eq_or_ne j i with rfl | hj
  · rcases eq_or_ne k j with rfl | hk
    · rfl
    · rw [update_self, update_of_ne hk] at hdev hblockno
      exact absurd ⟨hdev.symm, hblockno.symm⟩ (hnew k)
  · rcases eq_or_ne k i with rfl | hk
    · rw [update_self, update_of_ne hj] at hdev hblockno
      exact absurd ⟨hdev, hblockno⟩ (hnew j)
    · rw [update_of_ne hj] at h0 hdev hblockno
      rw [update_of_ne hk] at hdev hblockno
      exact h j k h0 hdev hblockno

theorem holders_refcnt (x : Buf) (r : Nat) : Buf.holders { x with refcnt := r } = x.holders := rfl

theorem Counted.incr {n released : Nat} {used : Bool} (h : Counted x n used released) (used' : Bool) :
    Counted { x with refcnt := incr x.refcnt } (n + 1) used' released := by
  refine ⟨?_, fun _ h0 => absurd h0 (Nat.succ_ne_zero n)⟩
  change Xv6.incr x.refcnt = (n + 1) % 2 ^ 32
  rw [h.refcnt, Xv6.incr]
  omega

theorem Counted.decr {n released : Nat} {used : Bool} (h : Counted x (n + 1) used released) :
    decr x.refcnt = n % 2 ^ 32 := by
  rw [h.refcnt, Xv6.decr]
  omega

section

variable (h : Inv s order)

include h

theorem Inv.of_set (i : Fin NBUF) (x : Buf) (wait pins : Nat) (used unmatched : Bool)
    (hdistinct : Distinct (update s.cache.buf i x)) (hidle : used = false → wait = 0 ∧ x.lock = none ∧ s.released i = 0)
    (hmatched : unmatched = false → s.unmatched = false)
    (hcounted : unmatched = false → Counted (s.cache.buf i) (s.refs i) (s.used i) (s.released i) →
      Counted x (wait + x.holders + pins) used (s.released i)) :
    Inv { s with
      cache := s.cache.set i x
      wait := update s.wait i wait
      pins := update s.pins i pins
      used := update s.used i used
      unmatched := unmatched } order where
  ring := h.ring
  all := h.all
  sorted := h.sorted
  clock := h.clock
  distinct := hdistinct
  idle j := by
    rcases eq_or_ne j i with rfl | hne
    · simp only [Cache.set, update_self]
      exact hidle
    · simp only [Cache.set, update_of_ne hne]
      exact h.idle j
  counted hm j := by
    have hj := h.counted (hmatched hm) j
    rcases eq_or_ne j i with rfl | hne
    · simp only [State.refs, Cache.set, update_self]
      exact hcounted hm hj
    · simp only [State.refs, Cache.set, update_of_ne hne]
      exact hj

theorem Inv.bget (hs : step s (.bget dev blockno) = some s') : Inv s' order := by
  have hrefs : ∀ i, s.wait i + 1 + (s.cache.buf i).holders + s.pins i = s.refs i + 1 := fun i => by
    rw [State.refs]
    omega
  rw [step] at hs
  rcases bget_cases h.ring dev blockno with ⟨i, -, heq⟩ | ⟨hmiss, ⟨i, hunused, heq⟩ | ⟨-, heq⟩⟩
  · rw [heq] at hs
    obtain rfl := Option.some.inj hs
    have hset := h.of_set i { s.cache.buf i with refcnt := incr (s.cache.buf i).refcnt } (s.wait i + 1) (s.pins i)
      true s.unmatched
      (h.distinct.same rfl rfl) nofun id fun _ hc => (hrefs i).symm ▸ hc.incr true
    rwa [Function.update_eq_self] at hset
  · rw [heq] at hs
    obtain rfl := Option.some.inj hs
    have h0 : (s.cache.buf i).refcnt = 0 := refcnt_of_unused hunused
    have hset := h.of_set i { s.cache.buf i with dev, blockno, valid := false, refcnt := 1 } (s.wait i + 1)
      (s.pins i) true s.unmatched
      (h.distinct.recycle (not_cached h.all hmiss)) nofun id fun _ hc => ?_
    · rwa [Function.update_eq_self] at hset
    · have hc' := hc.incr true
      rw [h0, ← hrefs i] at hc'
      exact ⟨hc'.refcnt, hc'.released⟩
  · simp [heq] at hs

theorem Inv.acquiresleep {p : Nat} (hs : step s (.acquiresleep p i) = some s') : Inv s' order := by
  rw [step] at hs
  split_ifs at hs with hfree
  obtain rfl := Option.some.inj hs
  have hset := h.of_set i { s.cache.buf i with lock := some p } (s.wait i - 1) (s.pins i) (s.used i) s.unmatched
    (h.distinct.same rfl rfl) (fun hu => absurd hfree.1 (Nat.not_lt.mpr (h.idle i hu).1.le)) id fun _ hc => ?_
  · rwa [Function.update_eq_self, Function.update_eq_self] at hset
  · have hrefs : s.refs i = s.wait i - 1 + Buf.holders { s.cache.buf i with lock := some p } + s.pins i := by
      rw [State.refs, Buf.holders_none hfree.2, Buf.holders_some rfl]
      omega
    rw [hrefs] at hc
    exact ⟨hc.refcnt, hc.released⟩

theorem Inv.bpin (hs : step s (.bpin i) = some s') : Inv s' order := by
  obtain rfl := Option.some.inj hs
  have hset := h.of_set i { s.cache.buf i with refcnt := incr (s.cache.buf i).refcnt } (s.wait i) (s.pins i + 1)
    (s.used i) s.unmatched
    (h.distinct.same rfl rfl) (h.idle i) id fun _ hc => hc.incr (s.used i)
  rwa [Function.update_eq_self, Function.update_eq_self] at hset

theorem Inv.bunpin (hheld : (s.cache.buf i).lock.isSome) (hs : step s (.bunpin i) = some s') : Inv s' order := by
  obtain rfl := Option.some.inj hs
  have hset := h.of_set i { s.cache.buf i with refcnt := decr (s.cache.buf i).refcnt } (s.wait i)
    (s.pins i - 1) (s.used i)
    (s.unmatched || s.pins i == 0) (h.distinct.same rfl rfl) (h.idle i) (fun hm => (Bool.or_eq_false_iff.mp hm).1)
    fun hm hc => ?_
  · rwa [Function.update_eq_self, Function.update_eq_self] at hset
  · -- the holder has a reference of its own
    have hpin : s.pins i ≠ 0 := by simpa using (Bool.or_eq_false_iff.mp hm).2
    have hholder : (s.cache.buf i).holders = 1 := if_pos hheld
    have hrefs : s.refs i = s.wait i + (s.cache.buf i).holders + (s.pins i - 1) + 1 := by
      rw [State.refs]
      omega
    rw [hrefs] at hc
    rw [holders_refcnt]
    exact ⟨hc.decr, fun _ h0 => by omega⟩

theorem Inv.brelse {p : Nat} (hs : step s (.brelse p i) = some s') : ∃ order', Inv s' order' := by
  obtain ⟨hbuf, hlinks⟩ := brelse_eq s.cache i
  rw [step] at hs
  split_ifs at hs with hheld
  have hzero : ((Lru.brelse s.cache i).buf i).refcnt = decr (s.cache.buf i).refcnt := by rw [hbuf, update_self]
  simp only [hzero] at hs
  obtain rfl := Option.some.inj hs
  generalize hreleased :
    (if decr (s.cache.buf i).refcnt = 0 then update s.released i (s.clock + 1) else s.released) = released
  have hne : ∀ j, j ≠ i → released j = s.released j := by
    intro j hj
    rw [← hreleased]
    split_ifs
    · exact update_of_ne hj ..
    · rfl
  have hdistinct : Distinct (Lru.brelse s.cache i).buf := hbuf ▸ h.distinct.same rfl rfl
  have hcounted : s.unmatched = false → ∀ j, Counted ((Lru.brelse s.cache i).buf j)
      (s.wait j + ((Lru.brelse s.cache i).buf j).holders + s.pins j) (s.used j) (released j) := by
    intro hm j
    rw [hbuf]
    rcases eq_or_ne j i with rfl | hj
    · have hrefs : s.refs j = s.wait j + 0 + s.pins j + 1 := by
        rw [State.refs, Buf.holders_some hheld]
        omega
      have hnone : Buf.holders { s.cache.buf j with lock := none, refcnt := decr (s.cache.buf j).refcnt } = 0 := rfl
      have hc := h.counted hm j
      rw [hrefs] at hc
      rw [update_self, hnone]
      refine ⟨hc.decr, fun _ h0 => ?_⟩
      have hdecr := hc.decr
      rw [h0, Nat.zero_mod] at hdecr
      rw [← hreleased, if_pos hdecr, update_self]
      exact Nat.succ_pos _
    · rw [update_of_ne hj, hne j hj]
      exact h.counted hm j
  have hidle : ∀ j, s.used j = false → s.wait j = 0 ∧ ((Lru.brelse s.cache i).buf j).lock = none ∧ released j = 0 := by
    intro j hu
    have hj : j ≠ i := by
      rintro rfl
      simp [(h.idle j hu).2.1] at hheld
    rw [hbuf, update_of_ne hj, hne j hj]
    exact h.idle j hu
  by_cases h0 : decr (s.cache.buf i).refcnt = 0
  · rw [if_pos h0] at hlinks hreleased
    have hi : released i = s.clock + 1 := by rw [← hreleased, update_self]
    have hring : IsRing (Lru.brelse s.cache i).links (i :: order.erase i) := hlinks ▸ h.ring.toFront (h.all i)
    refine ⟨i :: order.erase i, hring, mem_toFront h.all i, ?_, fun j => ?_, hdistinct, hidle, hcounted⟩
    · have hmem : ∀ j ∈ order.erase i, j ≠ i := fun j hj heq => h.ring.nodup.not_mem_erase (heq ▸ hj)
      refine List.pairwise_cons.mpr ⟨fun j hj => ?_, ?_⟩
      · dsimp only
        rw [hi, hne j (hmem j hj)]
        exact Nat.le_succ_of_le (h.clock j)
      · refine (h.sorted.sublist List.erase_sublist).imp_of_mem fun hj hk hle => ?_
        dsimp only
        rwa [hne _ (hmem _ hj), hne _ (hmem _ hk)]
    · rcases eq_or_ne j i with rfl | hj
      · exact hi.le
      · exact (hne j hj).trans_le (Nat.le_succ_of_le (h.clock j))
  · rw [if_neg h0] at hlinks hreleased
    exact ⟨order, hlinks ▸ h.ring, h.all, hreleased ▸ h.sorted, fun j => hreleased ▸ Nat.le_succ_of_le (h.clock j),
      hdistinct, hidle, hcounted⟩

theorem Inv.step {e : Call} (ha : Allowed s e) (hs : step s e = some s') : ∃ order', Inv s' order' := by
  cases e with
  | bget dev blockno => exact ⟨order, h.bget hs⟩
  | acquiresleep p i => exact ⟨order, h.acquiresleep hs⟩
  | brelse p i => exact h.brelse hs
  | bpin i => exact ⟨order, h.bpin hs⟩
  | bunpin i => exact ⟨order, h.bunpin ha hs⟩

theorem Inv.oldest (hunused : (s.cache.toBcache order).unused = some i) : Oldest s i := by
  have h0 : (s.cache.buf i).refcnt = 0 := refcnt_of_unused hunused
  have holdest : ∀ j, (s.cache.buf j).refcnt = 0 → s.released i ≤ s.released j := by
    intro j hj
    obtain ⟨-, as, bs, heq, has⟩ := List.find?_eq_some_iff_append.mp hunused
    have hsorted : (as ++ i :: bs).Pairwise fun j k => s.released j ≤ s.released k :=
      heq ▸ List.pairwise_reverse.mpr h.sorted
    have hmem : j ∈ as ++ i :: bs := heq ▸ List.mem_reverse.mpr (h.all j)
    rcases List.mem_append.mp hmem with hmem | hmem
    · exact absurd (has j hmem) (by simpa [Cache.toBcache] using hj)
    · rcases List.mem_cons.mp hmem with rfl | hmem
      · exact Nat.le_refl _
      · exact (List.pairwise_cons.mp (List.pairwise_append.mp hsorted).2.1).1 j hmem
  refine ⟨h0, holdest, fun hm hlt ⟨j, hj0, hj⟩ => Bool.eq_false_iff.mpr fun hused => ?_⟩
  obtain ⟨hrefcnt, hreleased⟩ := h.counted hm i
  rw [h0, Nat.mod_eq_of_lt (hlt i)] at hrefcnt
  have hpos := hreleased hused hrefcnt.symm
  have hle := holdest j hj0
  rw [(h.idle j hj).2.2] at hle
  omega

end

/-- In every run: the links form one ring of the head and all buffers and have inverses, no two buffers are
for the same block, and on a miss `bget` recycles the oldest buffer without references, or panics if there
is none. -/
theorem bcache_lru {es : List Call} (hrun : Machine.Run step Allowed boot es s) :
    (∃ order, IsRing s.cache.links order ∧ ∀ i, i ∈ order) ∧
    (∀ n, s.cache.links.prev (s.cache.links.next n) = n ∧ s.cache.links.next (s.cache.links.prev n) = n) ∧
    Distinct s.cache.buf ∧
    ∀ dev blockno, (∀ i, ¬((s.cache.buf i).dev = dev ∧ (s.cache.buf i).blockno = blockno)) →
      (∃ i, Oldest s i ∧ bget s.cache dev blockno =
        some (.buffer i (s.cache.set i { s.cache.buf i with dev, blockno, valid := false, refcnt := 1 }))) ∨
      (∀ i, (s.cache.buf i).refcnt ≠ 0) ∧ bget s.cache dev blockno = some .noBuffers := by
  obtain ⟨order, h⟩ := hrun.inv (I := fun _ s => ∃ order, Inv s order) ⟨_, inv_boot⟩ fun _ _ _ _ _ ⟨_, h⟩ ha hs =>
    h.step ha hs
  refine ⟨⟨order, h.ring, h.all⟩, h.ring.inverse h.all, h.distinct, fun dev blockno hmiss => ?_⟩
  rcases bget_cases h.ring dev blockno with ⟨i, hcached, -⟩ | ⟨-, ⟨i, hunused, heq⟩ | ⟨hunused, heq⟩⟩
  · exact absurd (key_of_cached hcached) (hmiss i)
  · exact .inl ⟨i, h.oldest hunused, heq⟩
  · exact .inr ⟨refcnt_ne_zero_of_unused h.all hunused, heq⟩

theorem NBUF_pos : 0 < NBUF := by decide

/-- Two blocks are read, and the first one, in buffer 0, is released. -/
def brief : List Call := [.bget 1 7, .acquiresleep 3 ⟨0, NBUF_pos⟩, .bget 1 8, .brelse 3 ⟨0, NBUF_pos⟩]

/-- A third block does not get buffer 0. -/
theorem bcache_lru_brief : ∃ s i, Machine.Run step Allowed boot brief s ∧ s.released ⟨0, NBUF_pos⟩ = 1 ∧
    (∃ order, IsRing s.cache.links order ∧ ∀ i, i ∈ order) ∧ Distinct s.cache.buf ∧ Oldest s i ∧ s.used i = false ∧
    bget s.cache 1 9 =
      some (.buffer i (s.cache.set i { s.cache.buf i with dev := 1, blockno := 9, valid := false, refcnt := 1 })) := by
  obtain ⟨s, hrun, hreleased, hmiss, hmatched, hrefs, hfree⟩ : ∃ s, Machine.Run step Allowed boot brief s ∧
      s.released ⟨0, NBUF_pos⟩ = 1 ∧ (∀ i, ¬((s.cache.buf i).dev = 1 ∧ (s.cache.buf i).blockno = 9)) ∧
      s.unmatched = false ∧ (∀ i, s.refs i < 2 ^ 32) ∧ ∃ i, (s.cache.buf i).refcnt = 0 ∧ s.used i = false :=
      by decide +kernel
  obtain ⟨hring, -, hdistinct, hbget⟩ := bcache_lru hrun
  rcases hbget 1 9 hmiss with ⟨i, hi, heq⟩ | ⟨hall, -⟩
  · exact ⟨s, i, hrun, hreleased, hring, hdistinct, hi, hi.never hmatched hrefs hfree, heq⟩
  · exact absurd hfree.choose_spec.1 (hall _)

/-- A `bunpin` that had no `bpin` takes the reference of the process that holds the buffer. -/
def overUnpinned : List Call := [.bget 1 7, .acquiresleep 3 ⟨0, NBUF_pos⟩, .bunpin ⟨0, NBUF_pos⟩]

/-- The next miss recycles that buffer, while there are others that have never been used. -/
theorem held_buffer_recycled : ∃ s, Machine.Run step Allowed boot overUnpinned s ∧
    (s.cache.buf ⟨0, NBUF_pos⟩).lock = some 3 ∧ s.used ⟨0, NBUF_pos⟩ = true ∧
    (∃ j, (s.cache.buf j).refcnt = 0 ∧ s.used j = false) ∧
    (∀ i, ¬((s.cache.buf i).dev = 1 ∧ (s.cache.buf i).blockno = 8)) ∧
    ∃ c, bget s.cache 1 8 = some (.buffer ⟨0, NBUF_pos⟩ c) := by
  have h : (Machine.exec step Allowed boot overUnpinned).any (fun s => decide
      ((s.cache.buf ⟨0, NBUF_pos⟩).lock = some 3 ∧ s.used ⟨0, NBUF_pos⟩ = true ∧
        (∃ j, (s.cache.buf j).refcnt = 0 ∧ s.used j = false) ∧
        (∀ i, ¬((s.cache.buf i).dev = 1 ∧ (s.cache.buf i).blockno = 8))) && match bget s.cache 1 8 with
          | some (.buffer i _) => decide (i = ⟨0, NBUF_pos⟩)
          | _ => false) = true := by decide +kernel
  obtain ⟨s, hs, hdec⟩ := (Option.any_eq_true _ _).mp h
  obtain ⟨hdec, hbget⟩ := Bool.and_eq_true_iff.mp hdec
  obtain ⟨hlock, hused, hfree, hmiss⟩ := of_decide_eq_true hdec
  refine ⟨s, Machine.run_of_exec hs, hlock, hused, hfree, hmiss, ?_⟩
  split at hbget
  case h_1 i c heq =>
    obtain rfl := of_decide_eq_true hbget
    exact ⟨c, heq⟩
  case h_2 => cases hbget

/-! ## The two models of the cache -/

/-- The list is what the links form, and the buffers are the same. -/
structure Matches (c : Cache) (b : Bcache) : Prop where
  ring : IsRing c.links b.lru
  all : ∀ i, i ∈ b.lru
  buf : b.buf = c.buf

/-- The call in the other model. -/
def Call.exec : Call → KernelM Unit
  | .bget dev blockno => Xv6.bget dev blockno >>= fun _ => pure ()
  | .acquiresleep p i => Xv6.acquiresleep p i
  | .brelse p i => Xv6.brelse p i
  | .bpin i => Xv6.bpin i
  | .bunpin i => Xv6.bunpin i

variable {k : Kernel} {e : Call}

theorem Matches.modify (h : Matches c k.bcache) (i : Fin NBUF) (f : Buf → Buf) :
    Matches (c.set i (f (c.buf i))) (k.setBuf i (f (k.bcache.buf i))).bcache :=
  ⟨h.ring, h.all, by simp only [Kernel.setBuf, Bcache.set, Cache.set, h.buf]⟩

theorem Matches.drop {b : Bcache} (h : Matches c b) (i : Fin NBUF) : Matches (bunpin c i) (b.unref i) :=
  ⟨h.ring, h.all, by simp only [Bcache.unref, Bcache.set, bunpin, Cache.set, h.buf]⟩

theorem Matches.unref {b : Bcache} (h : Matches c b) (i : Fin NBUF) :
    Matches (if ((bunpin c i).buf i).refcnt = 0 then { bunpin c i with links := ((bunpin c i).links.remove i).insert i }
        else bunpin c i)
      (if ((b.unref i).buf i).refcnt = 0 then (b.unref i).toFront i else b.unref i) := by
  have hm := h.drop i
  rw [hm.buf]
  split_ifs
  · exact ⟨hm.ring.toFront (hm.all i), mem_toFront hm.all i, hm.buf⟩
  · exact hm

theorem step_matches (h : Matches s.cache k.bcache) (hs : step s e = some s') :
    ∃ k', e.exec k = .ok () k' ∧ Matches s'.cache k'.bcache := by
  cases e with
  | bget dev blockno =>
    have hcached : k.bcache.cached dev blockno = (s.cache.toBcache k.bcache.lru).cached dev blockno := by
      rw [Bcache.cached, h.buf]
      rfl
    have hunused : k.bcache.unused = (s.cache.toBcache k.bcache.lru).unused := by
      rw [Bcache.unused, h.buf]
      rfl
    rw [step] at hs
    rcases bget_cases h.ring dev blockno with ⟨i, hi, heq⟩ | ⟨hmiss, ⟨i, hi, heq⟩ | ⟨-, heq⟩⟩
    · rw [heq] at hs
      obtain rfl := Option.some.inj hs
      refine ⟨_, Hoare.bind_of_ok (a := i) ?_, h.modify i fun x => { x with refcnt := incr x.refcnt }⟩
      rw [Xv6.bget, hcached, hi]
    · rw [heq] at hs
      obtain rfl := Option.some.inj hs
      refine ⟨_, Hoare.bind_of_ok (a := i) ?_, h.modify i fun x => { x with dev, blockno, valid := false, refcnt := 1 }⟩
      rw [Xv6.bget, hcached, hmiss, hunused, hi]
    · simp [heq] at hs
  | acquiresleep p i =>
    rw [step] at hs
    split_ifs at hs with hfree
    obtain rfl := Option.some.inj hs
    have hlock : (k.bcache.buf i).lock = none := h.buf ▸ hfree.2
    exact ⟨_, acquiresleep_of_none p hlock, h.modify i fun x => { x with lock := some p }⟩
  | brelse p i =>
    rw [step] at hs
    split_ifs at hs with hheld
    obtain rfl := Option.some.inj hs
    have hlock : (k.bcache.buf i).lock = some p := h.buf ▸ hheld
    exact ⟨_, Hoare.bind_of_ok (brelseUnlock_of_held hlock), (h.modify i fun x => { x with lock := none }).unref i⟩
  | bpin i =>
    obtain rfl := Option.some.inj hs
    exact ⟨_, rfl, h.modify i fun x => { x with refcnt := incr x.refcnt }⟩
  | bunpin i =>
    obtain rfl := Option.some.inj hs
    exact ⟨_, rfl, h.drop i⟩

/-- Whatever the calls do with the links, they do with the list. -/
theorem links_refine_list {es : List Call} (hrun : Machine.Run step Allowed boot es s) (h : k.bcache = Xv6.binit) :
    ∃ k', forM es Call.exec k = .ok () k' ∧ Matches s.cache k'.bcache := by
  refine hrun.inv (I := fun es s => ∃ k', forM es Call.exec k = .ok () k' ∧ Matches s.cache k'.bcache)
    ⟨k, rfl, by rw [h]; exact ⟨binit_ring, inv_boot.all, rfl⟩⟩ ?_
  rintro es s e s' - ⟨k', hk', hm⟩ - hs
  obtain ⟨k'', he, hm'⟩ := step_matches hm hs
  refine ⟨k'', ?_, hm'⟩
  rw [List.forM_append]
  exact (Hoare.bind_of_ok hk').trans (Hoare.bind_of_ok he)

end Xv6.Lru

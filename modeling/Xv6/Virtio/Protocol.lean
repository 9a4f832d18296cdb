import Mathlib.Data.List.Nodup
import Mathlib.Data.List.Perm.Basic
import Xv6.Lib.Run
import Xv6.Virtio.Disk

/-!
# The descriptor protocol

What holds in every state that the driver and the device reach: the descriptors of the requests in flight are disjoint,
the rings hold what the two sides think they hold although their indices wrap, and a request is answered when the
device has completed it. At most two requests are in flight, as there are eight descriptors; this is why the interrupt
handler may compare the indices of the used ring modulo `NUM`.
-/

namespace Xv6.Virtio

open Function (update update_of_ne update_self)
open Machine (of_update update_of)

variable {P B : Type}
variable {s u : State P B} {r : Req P B} {k : Nat} {p q : P}
variable {b : B}

/-! ## Descriptors -/

/-- The descriptors of a request in flight, as the driver has formatted them. -/
structure Chain (s : State P B) (r : Req P B) : Prop where
  lt : ∀ i ∈ r.idx, i < NUM
  nodup : r.idx.Nodup
  used : ∀ i ∈ r.idx, s.free i = false
  desc0 : s.desc r.idx0 = ⟨.header r.proc, 16, VRING_DESC_F_NEXT, r.idx1⟩
  desc1 : s.desc r.idx1 =
    ⟨.data r.buf, BSIZE, (if r.write then 0 else VRING_DESC_F_WRITE) ||| VRING_DESC_F_NEXT, r.idx2⟩
  desc2 : s.desc r.idx2 = ⟨.status r.idx0, 1, VRING_DESC_F_WRITE, 0⟩
  info : (s.info r.idx0).b = some r.buf
  header : s.buf0 r.proc = r.header

theorem Req.mem_idx0 (r : Req P B) : r.idx0 ∈ r.idx := by simp [Req.idx]

theorem Req.mem_idx1 (r : Req P B) : r.idx1 ∈ r.idx := by simp [Req.idx]

theorem Req.mem_idx2 (r : Req P B) : r.idx2 ∈ r.idx := by simp [Req.idx]

theorem Req.ne_of_nodup (h : r.idx.Nodup) : r.idx0 ≠ r.idx1 ∧ r.idx0 ≠ r.idx2 ∧ r.idx1 ≠ r.idx2 := by
  simpa [Req.idx, and_assoc] using h

theorem Chain.congr (h : Chain s r)
    (hfree : ∀ i ∈ r.idx, u.free i = s.free i) (hdesc : ∀ i ∈ r.idx, u.desc i = s.desc i)
    (hinfo : (u.info r.idx0).b = (s.info r.idx0).b) (hheader : u.buf0 r.proc = s.buf0 r.proc) : Chain u r where
  lt := h.lt
  nodup := h.nodup
  used i hi := (hfree i hi).trans (h.used i hi)
  desc0 := (hdesc _ r.mem_idx0).trans h.desc0
  desc1 := (hdesc _ r.mem_idx1).trans h.desc1
  desc2 := (hdesc _ r.mem_idx2).trans h.desc2
  info := hinfo.trans h.info
  header := hheader.trans h.header

/-- The state with the descriptors `idx` taken. -/
def State.mark (s : State P B) (idx : List Nat) : State P B :=
  { s with free := fun i => s.free i && !decide (i ∈ idx) }

theorem mark_nil (s : State P B) : s.mark [] = s := by simp [State.mark]

/-- What `free_desc` changes. -/
structure Frees (s u : State P B) (idx : List Nat) : Prop where
  rest : u = { s with desc := u.desc, free := u.free }
  free : ∀ i, u.free i = (s.free i || decide (i ∈ idx))
  desc : ∀ i, i ∉ idx → u.desc i = s.desc i

theorem freeDesc_eq {i : Nat} (hi : i < NUM) (hused : s.free i = false) :
    ∃ u, freeDesc s i = .ok u ∧ Frees s u [i] ∧ (u.desc i).flags = (s.desc i).flags ∧
      (u.desc i).next = (s.desc i).next := by
  refine ⟨_, by rw [freeDesc, if_neg (not_le.mpr hi), if_neg (by simp [hused])], ⟨rfl, ?_, ?_⟩, ?_, ?_⟩
  · intro j
    by_cases hj : j = i
    · simp [hj]
    · simp [hj]
  · intro j hj
    simp [List.mem_singleton.not.mp hj]
  · simp
  · simp

theorem Frees.trans {t : State P B} {idx idx' : List Nat} (h : Frees s t idx) (h' : Frees t u idx') :
    Frees s u (idx ++ idx') := by
  refine ⟨?_, ?_, ?_⟩
  · rw [h'.rest, h.rest]
  · intro i
    rw [h'.free, h.free]
    by_cases h1 : i ∈ idx <;> by_cases h2 : i ∈ idx' <;> simp [h1, h2]
  · intro i hi
    rw [List.mem_append, not_or] at hi
    rw [h'.desc i hi.2, h.desc i hi.1]

theorem freeDescs_eq {idx : List Nat} (hlt : ∀ i ∈ idx, i < NUM) (hnodup : idx.Nodup)
    (hused : ∀ i ∈ idx, s.free i = false) : ∃ u, freeDescs idx s = .ok u ∧ Frees s u idx := by
  induction idx generalizing s with
  | nil => exact ⟨s, rfl, rfl, by simp, fun _ _ => rfl⟩
  | cons i idx ih =>
    obtain ⟨hi, hnodup⟩ := List.nodup_cons.mp hnodup
    obtain ⟨t, ht, hfrees, -, -⟩ := freeDesc_eq (hlt i List.mem_cons_self) (hused i List.mem_cons_self)
    obtain ⟨u, hu, hfrees'⟩ := ih (s := t) (fun j hj => hlt j (List.mem_cons_of_mem i hj)) hnodup (by
      intro j hj
      have hne : j ≠ i := fun h => hi (h ▸ hj)
      simp [hfrees.free, hused j (List.mem_cons_of_mem i hj), hne])
    exact ⟨u, by rw [freeDescs, ht]; exact hu, hfrees.trans hfrees'⟩

theorem freeChain_eq (h : Chain s r) (info : Nat → Info B) :
    ∃ u, freeChain (NUM + 1) { s with info := info } r.idx0 = .ok u ∧ Frees { s with info := info } u r.idx := by
  obtain ⟨h01, h02, h12⟩ := r.ne_of_nodup h.nodup
  obtain ⟨t0, ht0, hf0, hflags0, hnext0⟩ :=
    freeDesc_eq (s := { s with info := info }) (h.lt _ r.mem_idx0) (h.used _ r.mem_idx0)
  obtain ⟨t1, ht1, hf1, hflags1, hnext1⟩ := freeDesc_eq (s := t0) (h.lt _ r.mem_idx1) (by
    simp [hf0.free, h.used _ r.mem_idx1, Ne.symm h01])
  obtain ⟨t2, ht2, hf2, hflags2, -⟩ := freeDesc_eq (s := t1) (h.lt _ r.mem_idx2) (by
    simp [hf1.free, hf0.free, h.used _ r.mem_idx2, Ne.symm h02, Ne.symm h12])
  have hd1 : t0.desc r.idx1 = s.desc r.idx1 := hf0.desc _ (by simpa using Ne.symm h01)
  have hd2 : t1.desc r.idx2 = s.desc r.idx2 :=
    (hf1.desc _ (by simpa using Ne.symm h12)).trans (hf0.desc _ (by simpa using Ne.symm h02))
  have hmore0 : (t0.desc r.idx0).flags &&& VRING_DESC_F_NEXT ≠ 0 := by
    have : (t0.desc r.idx0).flags = VRING_DESC_F_NEXT := hflags0.trans (congrArg Desc.flags h.desc0)
    rw [this]
    decide
  have hmore1 : (t1.desc r.idx1).flags &&& VRING_DESC_F_NEXT ≠ 0 := by
    rw [hflags1, hd1, h.desc1]
    simp only
    cases r.write <;> decide
  have hmore2 : ¬ (t2.desc r.idx2).flags &&& VRING_DESC_F_NEXT ≠ 0 := by
    rw [hflags2, hd2, h.desc2]
    simp only
    decide
  have hnext0' : (t0.desc r.idx0).next = r.idx1 := hnext0.trans (congrArg Desc.next h.desc0)
  have hnext1' : (t1.desc r.idx1).next = r.idx2 := by rw [hnext1, hd1, h.desc1]
  refine ⟨t2, ?_, (hf0.trans hf1).trans hf2⟩
  simp only [NUM, freeChain, ht0, if_pos hmore0, hnext0', ht1, if_pos hmore1, hnext1', ht2, if_neg hmore2]

theorem allocDesc_mark (s : State P B) (idx : List Nat) :
    allocDesc (s.mark idx) = none ∨
    ∃ i, allocDesc (s.mark idx) = some (i, s.mark (idx ++ [i])) ∧ i < NUM ∧ s.free i = true ∧ i ∉ idx := by
  cases hfind : (List.range NUM).find? (s.mark idx).free with
  | none => exact .inl (by rw [allocDesc, hfind]; rfl)
  | some i =>
    right
    have hlt : i < NUM := List.mem_range.mp (List.mem_of_find?_eq_some hfind)
    have hfree := List.find?_some hfind
    simp only [State.mark, Bool.and_eq_true, Bool.not_eq_true', decide_eq_false_iff_not] at hfree
    refine ⟨i, ?_, hlt, hfree.1, hfree.2⟩
    rw [allocDesc, hfind]
    simp only [Option.map_some, State.mark, Option.some.injEq, Prod.mk.injEq, true_and]
    congr 1
    funext j
    by_cases hj : j = i
    · simp [hj]
    · simp [hj]

/-- What `alloc3_desc` returns: nothing, with the free descriptors as before, or descriptors that were free. -/
inductive Allocated (s : State P B) : Option (List Nat) × State P B → Prop
  | none (u : State P B) : u = { s with desc := u.desc } → (∀ i, s.free i = false → u.desc i = s.desc i) →
      Allocated s (none, u)
  | some (i j k : Nat) : (∀ l ∈ [i, j, k], l < NUM ∧ s.free l = true) → [i, j, k].Nodup →
      Allocated s (some [i, j, k], s.mark [i, j, k])

theorem allocLoop_eq (s : State P B) (n : Nat) : ∀ idx : List Nat, idx.length + n = 3 →
    (∀ i ∈ idx, i < NUM ∧ s.free i = true) → idx.Nodup →
    ∃ x, allocLoop n idx (s.mark idx) = .ok x ∧ Allocated s x := by
  induction n with
  | zero =>
    intro idx hlen hfree hnodup
    obtain ⟨i, j, k, rfl⟩ := List.length_eq_three.mp hlen
    exact ⟨_, rfl, .some i j k hfree hnodup⟩
  | succ n ih =>
    intro idx hlen hfree hnodup
    rw [allocLoop]
    rcases allocDesc_mark s idx with hnone | ⟨i, hsome, hlt, hi, hnew⟩
    · -- the descriptors taken so far are given back
      obtain ⟨u, hu, hfrees⟩ := freeDescs_eq (s := s.mark idx) (fun i hi => (hfree i hi).1) hnodup (by
        intro i hi
        simp [State.mark, hi])
      have hback : u.free = s.free := by
        funext i
        rw [hfrees.free]
        by_cases hi : i ∈ idx
        · simp [State.mark, hi, (hfree i hi).2]
        · simp [State.mark, hi]
      refine ⟨(none, u), by simp [hnone, hu, Except.map], .none u ?_ ?_⟩
      · rw [hfrees.rest, hback]
        rfl
      · intro i hi
        refine hfrees.desc i fun hmem => ?_
        simp [(hfree i hmem).2] at hi
    · rw [hsome]
      refine ih (idx ++ [i]) (by simp; omega) ?_ ?_
      · intro j hj
        rcases List.mem_append.mp hj with hj | hj
        · exact hfree j hj
        · rw [List.mem_singleton.mp hj]
          exact ⟨hlt, hi⟩
      · rw [List.nodup_append]
        refine ⟨hnodup, List.nodup_singleton i, ?_⟩
        intro a ha b hb
        rw [List.mem_singleton.mp hb]
        exact fun h => hnew (h ▸ ha)

theorem alloc3Desc_eq (s : State P B) : ∃ x, alloc3Desc s = .ok x ∧ Allocated s x := by
  have h := allocLoop_eq s 3 [] rfl (by simp) List.nodup_nil
  rwa [mark_nil] at h

/-! ## The invariant -/

/-- The numbers of the requests that the device has not completed. -/
def State.active (s : State P B) : List Nat :=
  List.range' s.taken (s.log.length - s.taken) ++ s.jobs.map (·.seq)

/-- The numbers of the requests whose completion the interrupt handler has not seen. -/
def State.unhandled (s : State P B) : List Nat :=
  s.active ++ (s.completed.drop s.seen.length).map (·.seq)

def State.availRing (s : State P B) : RingBuffer Nat NUM 16 := ⟨s.avail, s.lastAvail, s.availIdx⟩

def State.usedRing (s : State P B) : RingBuffer Nat NUM 16 := ⟨s.usedElems, BitVec.ofNat 16 s.seen.length, s.usedId⟩

/-- The processes in the driver, the buffers they have locked and the descriptors they use. -/
structure Driver (s : State P B) : Prop where
  calls : ∀ p b write sector, s.pc p = .start b write sector → s.owner b = some p
  waits : ∀ p r k, s.pc p = .wait r k → r.proc = p ∧ s.owner r.buf = some p ∧ s.log[k]? = some r ∧ Chain s r
  apart : ∀ p q r r' k k', s.pc p = .wait r k → s.pc q = .wait r' k' → p ≠ q → ∀ i ∈ r.idx, i ∉ r'.idx
  owned : ∀ i < NUM, s.free i = false → ∃ p r k, s.pc p = .wait r k ∧ i ∈ r.idx
  status : ∀ i, (s.info i).status = 0

/-- What is in the rings and in the device. -/
structure Rings (s : State P B) : Prop where
  taken : s.taken ≤ s.log.length
  avail : s.availRing.Holds s.taken ((s.log.drop s.taken).map (·.idx0))
  used : s.usedRing.Holds s.seen.length ((s.completed.drop s.seen.length).map (·.head))
  usedIdx : s.usedIdx.toNat = s.seen.length % NUM
  seen : s.seen <+: s.completed.map (·.head)
  jobs : ∀ j ∈ s.jobs, (s.log[j.seq]?).map (·.idx0) = some j.head
  heads : ∀ d ∈ s.completed, (s.log[d.seq]?).map (·.idx0) = some d.head
  once : (s.jobs.map (·.seq) ++ s.completed.map (·.seq)).Perm (List.range s.taken)

/-- Every request that has not been handled is waited for, and nobody waits for another's. -/
structure Live (s : State P B) : Prop where
  nodup : s.unhandled.Nodup
  waited : ∀ k ∈ s.unhandled, ∃ r, s.log[k]? = some r ∧ s.pc r.proc = .wait r k
  disk : ∀ p r k, s.pc p = .wait r k → (s.disk r.buf = true ↔ k ∈ s.unhandled)
  done : ∀ p r k, s.pc p = .wait r k → k ∈ s.active ∨ r.done k ∈ s.completed

structure Inv (s : State P B) : Prop where
  driver : Driver s
  rings : Rings s
  live : Live s
  panic : s.panic = none

theorem inv_init : Inv (init : State P B) where
  driver := ⟨by simp [init], by simp [init], by simp [init], by simp [init], by simp [init]⟩
  rings := by
    refine ⟨le_rfl, ⟨rfl, rfl, by simp [init], ?_⟩, ⟨rfl, rfl, by simp [init], ?_⟩, rfl, List.nil_prefix, ?_, ?_,
      .nil⟩
    · intro i hi
      simp [init] at hi
    · intro i hi
      simp [init] at hi
    · simp [init]
    · simp [init]
  live := ⟨by simp [State.unhandled, State.active, init], by simp [State.unhandled, State.active, init],
    by simp [init], by simp [init]⟩
  panic := rfl

theorem mem_unhandled_of_active (h : k ∈ s.active) : k ∈ s.unhandled :=
  List.mem_append_left _ h

/-- The descriptors of request number `k`. -/
def State.idxOf (s : State P B) (k : Nat) : List Nat := ((s.log[k]?).map Req.idx).getD []

theorem Inv.length_unhandled (h : Inv s) : s.unhandled.length ≤ 2 := by
  have hidx : ∀ k ∈ s.unhandled, ∃ r, s.idxOf k = r.idx ∧ s.pc r.proc = .wait r k ∧ Chain s r := by
    intro k hk
    obtain ⟨r, hlog, hpc⟩ := h.live.waited k hk
    exact ⟨r, by simp [State.idxOf, hlog], hpc, (h.driver.waits _ _ _ hpc).2.2.2⟩
  have hlen : ∀ l : List Nat, (∀ k ∈ l, k ∈ s.unhandled) → (l.flatMap s.idxOf).length = 3 * l.length := by
    intro l hl
    induction l with
    | nil => rfl
    | cons k l ih =>
      obtain ⟨r, hr, -⟩ := hidx k (hl k List.mem_cons_self)
      rw [List.flatMap_cons, List.length_append, ih fun j hj => hl j (List.mem_cons_of_mem k hj), hr]
      simp [Req.idx]
      omega
  have hnodup : (s.unhandled.flatMap s.idxOf).Nodup := by
    rw [List.nodup_flatMap]
    constructor
    · intro k hk
      obtain ⟨r, hr, -, hchain⟩ := hidx k hk
      rw [hr]
      exact hchain.nodup
    · apply h.live.nodup.imp_of_mem
      intro k k' hk hk' hne i hi hi'
      obtain ⟨r, hr, hpc, -⟩ := hidx k hk
      obtain ⟨r', hr', hpc', -⟩ := hidx k' hk'
      rw [hr] at hi
      rw [hr'] at hi'
      refine h.driver.apart _ _ _ _ _ _ hpc hpc' (fun heq => hne ?_) i hi hi'
      rw [heq, hpc'] at hpc
      exact (Pc.wait.inj hpc).2.symm
  have hsub : s.unhandled.flatMap s.idxOf ⊆ List.range NUM := by
    intro i hi
    obtain ⟨k, hk, hik⟩ := List.mem_flatMap.mp hi
    obtain ⟨r, hr, -, hchain⟩ := hidx k hk
    rw [hr] at hik
    exact List.mem_range.mpr (hchain.lt i hik)
  have hle := (List.subperm_of_subset hnodup hsub).length_le
  rw [hlen _ fun _ hk => hk, List.length_range, NUM] at hle
  omega

theorem Inv.length_pending (h : Inv s) : s.log.length - s.taken ≤ 2 := by
  have := h.length_unhandled
  simp only [State.unhandled, State.active, List.length_append, List.length_range'] at this
  omega

theorem Inv.length_completed (h : Inv s) : s.completed.length - s.seen.length ≤ 2 := by
  have := h.length_unhandled
  simp only [State.unhandled, List.length_append, List.length_map, List.length_drop] at this
  omega

theorem NUM_dvd : NUM ∣ 2 ^ 16 := by decide

theorem Driver.wait_inj (h : Driver s) {r' : Req P B} (hp : s.pc p = .wait r k) (hq : s.pc q = .wait r' k) : p = q := by
  obtain ⟨hproc, -, hlog, -⟩ := h.waits p r k hp
  obtain ⟨hproc', -, hlog', -⟩ := h.waits q r' k hq
  rw [hlog] at hlog'
  rw [← hproc, ← hproc', Option.some.inj hlog']

theorem Driver.buf_ne (h : Driver s) {r' : Req P B} {k' : Nat}
    (hp : s.pc p = .wait r k) (hq : s.pc q = .wait r' k') (hne : p ≠ q) : r.buf ≠ r'.buf := by
  intro hbuf
  have hown := (h.waits p r k hp).2.1
  rw [hbuf, (h.waits q r' k' hq).2.1] at hown
  exact hne (Option.some.inj hown).symm

theorem Driver.congr (h : Driver s) (hpc : u.pc = s.pc) (howner : u.owner = s.owner)
    (hlog : u.log = s.log) (hfree : u.free = s.free) (hdesc : ∀ i, s.free i = false → u.desc i = s.desc i)
    (hinfo : ∀ i, (u.info i).b = (s.info i).b) (hbuf0 : u.buf0 = s.buf0) (hstatus : ∀ i, (u.info i).status = 0) :
    Driver u where
  calls p b write sector hp := by
    rw [hpc] at hp
    rw [howner]
    exact h.calls p b write sector hp
  waits p r k hp := by
    rw [hpc] at hp
    rw [howner, hlog]
    obtain ⟨hproc, hown, hr, hchain⟩ := h.waits p r k hp
    exact ⟨hproc, hown, hr, hchain.congr (fun i _ => by rw [hfree]) (fun i hi => hdesc i (hchain.used i hi))
      (hinfo _) (by rw [hbuf0])⟩
  apart := by
    rw [hpc]
    exact h.apart
  owned := by
    rw [hpc, hfree]
    exact h.owned
  status := hstatus

theorem Live.congr (h : Live s) (hpc : u.pc = s.pc) (hlog : u.log = s.log) (hdisk : u.disk = s.disk)
    (hunhandled : u.unhandled.Perm s.unhandled)
    (hdone : ∀ p r k, s.pc p = .wait r k → k ∈ s.active ∨ r.done k ∈ s.completed → k ∈ u.active ∨
    r.done k ∈ u.completed) :
    Live u where
  nodup := hunhandled.nodup_iff.mpr h.nodup
  waited k hk := by
    rw [hlog, hpc]
    exact h.waited k (hunhandled.mem_iff.mp hk)
  disk p r k hp := by
    rw [hpc] at hp
    rw [hdisk, hunhandled.mem_iff, h.disk p r k hp]
  done p r k hp := by
    rw [hpc] at hp
    exact hdone p r k hp (h.done p r k hp)

/-! ## Steps outside of the driver -/

theorem Inv.setOwner (h : Inv s) {owner : B → Option P}
    (hkeep : ∀ b q, s.pc q ≠ .out → s.owner b = some q → owner b = some q) : Inv { s with owner := owner } := by
  refine ⟨⟨?_, ?_, h.driver.apart, h.driver.owned, h.driver.status⟩, { h.rings with }, { h.live with }, h.panic⟩
  · intro q b write sector hq
    have hpc : s.pc q ≠ .out := hq.trans_ne nofun
    exact hkeep b q hpc (h.driver.calls q b write sector hq)
  · intro q r k hq
    have hpc : s.pc q ≠ .out := hq.trans_ne nofun
    obtain ⟨hproc, hown, hlog, hchain⟩ := h.driver.waits q r k hq
    exact ⟨hproc, hkeep _ q hpc hown, hlog, { hchain with }⟩

theorem inv_acquiresleep [DecidableEq B] (h : Inv s) (p : P) (hb : s.owner b = none) :
    Inv { s with owner := update s.owner b (some p) } :=
  h.setOwner fun _ _ _ => update_of (by rw [hb]; nofun)

theorem inv_releasesleep [DecidableEq B] (h : Inv s) (hp : s.pc p = .out) (hb : s.owner b = some p) :
    Inv { s with owner := update s.owner b none } := by
  refine h.setOwner fun c q hq => update_of fun hc => hq ?_
  rw [hb] at hc
  exact Option.some.inj hc ▸ hp

theorem inv_call [DecidableEq P] (h : Inv s) (hp : s.pc p = .out)
    (hb : s.owner b = some p) (write : Bool) (sector : Nat) :
    Inv { s with pc := update s.pc p (.start b write sector) } := by
  have hback : ∀ {q r k}, update s.pc p (.start b write sector) q = .wait r k → s.pc q = .wait r k :=
    fun hq => (of_update hq nofun).2
  have hkeep : ∀ {q r k}, s.pc q = .wait r k → update s.pc p (.start b write sector) q = .wait r k :=
    update_of (by rw [hp]; nofun)
  refine ⟨⟨?_, ?_, ?_, ?_, h.driver.status⟩, { h.rings with }, ⟨h.live.nodup, ?_, ?_, ?_⟩, h.panic⟩
  · intro q c w n hq
    have hq' : update s.pc p (.start b write sector) q = .start c w n := hq
    by_cases hqp : q = p
    · rw [hqp, update_self] at hq'
      rw [hqp, ← (Pc.start.inj hq').1]
      exact hb
    · rw [update_of_ne hqp] at hq'
      exact h.driver.calls q c w n hq'
  · intro q r k hq
    obtain ⟨hproc, hown, hlog, hchain⟩ := h.driver.waits q r k (hback hq)
    exact ⟨hproc, hown, hlog, { hchain with }⟩
  · intro q q' r r' k k' hq hq'
    exact h.driver.apart q q' r r' k k' (hback hq) (hback hq')
  · intro i hi hused
    obtain ⟨q, r, k, hq, hmem⟩ := h.driver.owned i hi hused
    exact ⟨q, r, k, hkeep hq, hmem⟩
  · intro k hk
    obtain ⟨r, hlog, hr⟩ := h.live.waited k hk
    exact ⟨r, hlog, hkeep hr⟩
  · intro q r k hq
    exact h.live.disk q r k (hback hq)
  · intro q r k hq
    exact h.live.done q r k (hback hq)

theorem inv_intr (h : Inv s) (b : Bool) : Inv { s with intr := b } :=
  ⟨h.driver.congr rfl rfl rfl rfl (fun _ _ => rfl) (fun _ => rfl) rfl h.driver.status, { h.rings with },
    { h.live with }, h.panic⟩

/-! ## The device -/

theorem inv_take (h : Inv s) (hs : take s = some u) : Inv u := by
  unfold take at hs
  split_ifs at hs with hempty
  cases hs
  have hring := h.rings.avail
  obtain ⟨r, rest, hdrop⟩ := List.exists_cons_of_ne_nil fun hnil : s.log.drop s.taken = [] =>
    hempty ((hring.empty_iff (by decide)).mpr (by rw [hnil, List.map_nil]))
  have hlt : s.taken < s.log.length := by
    have := congrArg List.length hdrop
    simp only [List.length_drop, List.length_cons] at this
    omega
  have hget : s.log[s.taken]? = some r := by
    have := congrArg (·[0]?) hdrop
    simpa using this
  rw [hdrop, List.map_cons] at hring
  obtain ⟨hfront, hpop⟩ := hring.front_pop NUM_dvd
  -- the entry moves from the ring to the device
  have hactive : (List.range' (s.taken + 1) (s.log.length - (s.taken + 1)) ++
      (s.jobs ++ [Job.mk (s.avail (s.lastAvail.toNat % NUM)) s.taken]).map (·.seq)).Perm s.active := by
    have hlen : s.log.length - s.taken = s.log.length - (s.taken + 1) + 1 := by omega
    rw [State.active, hlen, List.range'_succ, List.map_append, List.map_cons, List.map_nil, ← List.append_assoc]
    exact List.perm_append_singleton _ _
  refine ⟨h.driver.congr rfl rfl rfl rfl (fun _ _ => rfl) (fun _ => rfl) rfl h.driver.status,
    { h.rings with taken := hlt, avail := ?_, jobs := ?_, once := ?_ },
    h.live.congr rfl rfl rfl (hactive.append_right _) fun _ _ _ _ => Or.imp_left hactive.mem_iff.mpr, h.panic⟩
  · have hrest : s.log.drop (s.taken + 1) = rest := by rw [← List.drop_drop, hdrop, List.drop_succ_cons, List.drop_zero]
    show RingBuffer.Holds _ (s.taken + 1) ((s.log.drop (s.taken + 1)).map _)
    rw [hrest]
    exact hpop
  · intro j hj
    rcases List.mem_append.mp hj with hj | hj
    · exact h.rings.jobs j hj
    · rw [List.mem_singleton.mp hj]
      show (s.log[s.taken]?).map _ = some _
      rw [hget, Option.map_some]
      exact congrArg some hfront.symm
  · show ((s.jobs ++ [_]).map Job.seq ++ s.completed.map (·.seq)).Perm (List.range (s.taken + 1))
    rw [List.range_succ, List.map_append, List.append_assoc]
    exact List.perm_middle.trans ((h.rings.once.cons _).trans (List.perm_append_singleton _ _).symm)

theorem writeStatus_b (info : Nat → Info B) (a : Addr P B) (i : Nat) : (writeStatus info 0 a i).b = (info i).b := by
  cases a with
  | status j =>
    by_cases hj : i = j
    · simp [writeStatus, hj]
    · simp [writeStatus, hj]
  | zero | header | data => rfl

theorem writeStatus_status {info : Nat → Info B} (h : ∀ i, (info i).status = 0) (a : Addr P B) (i : Nat) :
    (writeStatus info 0 a i).status = 0 := by
  cases a with
  | status j =>
    by_cases hj : i = j
    · simp [writeStatus, hj]
    · simp [writeStatus, hj, h]
  | zero | header | data => exact h i

theorem Rings.seen_le (h : Rings s) : s.seen.length ≤ s.completed.length := by
  simpa using h.seen.length_le

theorem inv_complete {n : Nat} (h : Inv s) (hs : complete s n = some u) : Inv u := by
  obtain ⟨j, hj, rfl⟩ := Option.map_eq_some_iff.mp hs
  obtain ⟨hn, hget⟩ := List.getElem?_eq_some_iff.mp hj
  have hmem : j ∈ s.jobs := List.mem_of_getElem? hj
  have hact : j.seq ∈ s.active := List.mem_append_right _ (List.mem_map_of_mem hmem)
  obtain ⟨r, hlog, hpc⟩ := h.live.waited _ (mem_unhandled_of_active hact)
  have hchain := (h.driver.waits _ _ _ hpc).2.2.2
  have hhead : j.head = r.idx0 := by
    have := h.rings.jobs j hmem
    rw [hlog, Option.map_some] at this
    exact (Option.some.inj this).symm
  -- the device finds the request in the descriptors
  have hdone : (⟨j.seq, j.head, headerAt s (s.desc j.head).addr, (s.desc (s.desc j.head).next).addr⟩ : Done P B) =
      r.done j.seq := by
    rw [hhead, hchain.desc0]
    simp only [headerAt]
    rw [hchain.header, hchain.desc1]
    rfl
  have hperm : (j :: s.jobs.eraseIdx n).Perm s.jobs := hget ▸ List.getElem_cons_eraseIdx_perm hn
  have hactive : (j.seq :: (List.range' s.taken (s.log.length - s.taken) ++ (s.jobs.eraseIdx n).map (·.seq))).Perm
      s.active :=
    List.perm_middle.symm.trans ((hperm.map (·.seq)).append_left _)
  have hle := h.rings.seen_le
  have hdrop : (s.completed ++ [r.done j.seq]).drop s.seen.length = s.completed.drop s.seen.length ++ [r.done j.seq] :=
    List.drop_append_of_le_length hle
  have hunhandled : (List.range' s.taken (s.log.length - s.taken) ++ (s.jobs.eraseIdx n).map (·.seq) ++
      ((s.completed ++ [r.done j.seq]).drop s.seen.length).map (·.seq)).Perm s.unhandled := by
    rw [hdrop, List.map_append, ← List.append_assoc]
    refine (List.perm_append_singleton _ _).trans ?_
    exact (hactive.append_right _ : (j.seq :: _ ++ _).Perm _)
  simp only [hdone]
  refine ⟨h.driver.congr rfl rfl rfl rfl (fun _ _ => rfl) (writeStatus_b s.info _) rfl
    (writeStatus_status h.driver.status _),
    { h.rings with used := ?_, seen := ?_, jobs := ?_, heads := ?_, once := ?_ },
    h.live.congr rfl rfl rfl hunhandled ?_, h.panic⟩
  · have hlt : ((s.completed.drop s.seen.length).map (·.head)).length < NUM := by
      have := h.length_completed
      simp only [List.length_map, List.length_drop, NUM]
      omega
    show RingBuffer.Holds _ _ (((s.completed ++ [r.done j.seq]).drop s.seen.length).map _)
    rw [hdrop, List.map_append]
    have := h.rings.used.push (a := j.head) NUM_dvd hlt
    rwa [hhead] at this ⊢
  · show s.seen <+: (s.completed ++ [r.done j.seq]).map _
    rw [List.map_append]
    exact h.rings.seen.trans (List.prefix_append _ _)
  · intro j' hj'
    exact h.rings.jobs j' (List.mem_of_mem_eraseIdx hj')
  · intro d hd
    rcases List.mem_append.mp hd with hd | hd
    · exact h.rings.heads d hd
    · rw [List.mem_singleton.mp hd]
      show (s.log[j.seq]?).map _ = some r.idx0
      rw [hlog, Option.map_some]
  · show ((s.jobs.eraseIdx n).map (·.seq) ++ (s.completed ++ [r.done j.seq]).map (·.seq)).Perm _
    rw [List.map_append, ← List.append_assoc]
    refine (List.perm_append_singleton _ _).trans (List.Perm.trans ?_ h.rings.once)
    exact ((hperm.map (·.seq)).append_right _ : (j.seq :: _ ++ _).Perm _)
  · rintro p r' k hp (hk | hk)
    · rcases List.mem_cons.mp (hactive.mem_iff.mpr hk) with rfl | hk
      · have hpr : p = r.proc := h.driver.wait_inj hp hpc
        have hp' : s.pc r.proc = .wait r' j.seq := hpr ▸ hp
        rw [hpc] at hp'
        rw [← (Pc.wait.inj hp').1]
        exact .inr (List.mem_append_right _ (List.mem_singleton_self _))
      · exact .inl hk
    · exact .inr (List.mem_append_left _ hk)

/-! ## The interrupt handler -/

/-- The handler stops exactly when it has seen all completions: the indices are compared modulo `NUM`, but
never that far apart. -/
theorem Inv.intr_test (h : Inv s) :
    s.usedIdx.toNat % NUM = s.usedId.toNat % NUM ↔ s.completed.drop s.seen.length = [] := by
  have htail : s.usedId = BitVec.ofNat 16 (s.seen.length + ((s.completed.drop s.seen.length).map (·.head)).length) :=
    h.rings.used.tail
  rw [h.rings.usedIdx, htail, RingBuffer.toNat_mod NUM_dvd, Nat.mod_mod, List.length_map, ← List.length_eq_zero_iff]
  have hlen : (s.completed.drop s.seen.length).length ≤ 2 := by
    rw [List.length_drop]
    exact h.length_completed
  simp only [NUM]
  omega

theorem inv_intrStep [DecidableEq B] (h : Inv s) : ∃ u, intrStep s = .ok u ∧ Inv u := by
  unfold intrStep
  by_cases htest : s.usedIdx.toNat % NUM = s.usedId.toNat % NUM
  · exact ⟨_, if_neg (not_not.mpr htest), inv_intr h false⟩
  rw [if_pos htest]
  obtain ⟨d, rest, hdrop⟩ := List.exists_cons_of_ne_nil (mt h.intr_test.mpr htest)
  have hmem : d ∈ s.completed := List.mem_of_mem_drop (by rw [hdrop]; exact List.mem_cons_self)
  have hrest : s.completed.drop (s.seen.length + 1) = rest := by
    rw [← List.drop_drop, hdrop, List.drop_succ_cons, List.drop_zero]
  have hused := h.rings.used
  rw [hdrop, List.map_cons] at hused
  obtain ⟨hfront, hpop⟩ := hused.front_pop NUM_dvd
  have hid : s.usedElems s.usedIdx.toNat = d.head := by
    rw [← hfront, h.rings.usedIdx, RingBuffer.front]
    show _ = s.usedElems ((BitVec.ofNat 16 s.seen.length).toNat % NUM)
    rw [RingBuffer.toNat_mod NUM_dvd]
  -- the completion is that of a request somebody waits for
  have hsplit : (d.seq :: (s.active ++ rest.map (·.seq))).Perm s.unhandled := by
    rw [State.unhandled, hdrop, List.map_cons]
    exact List.perm_middle.symm
  have hunh : d.seq ∈ s.unhandled := hsplit.mem_iff.mp List.mem_cons_self
  have hnodup := List.nodup_cons.mp (hsplit.nodup_iff.mpr h.live.nodup)
  obtain ⟨r, hlog, hpc⟩ := h.live.waited _ hunh
  have hhead : d.head = r.idx0 := by
    have := h.rings.heads d hmem
    rw [hlog, Option.map_some] at this
    exact (Option.some.inj this).symm
  have hinfo : (s.info d.head).b = some r.buf := by
    rw [hhead]
    exact (h.driver.waits _ _ _ hpc).2.2.2.info
  simp only [hid, h.driver.status, ne_eq, not_true_eq_false, if_false, hinfo]
  have hunhandled : ∀ k, k ∈ s.active ++ (s.completed.drop (s.seen ++ [d.head]).length).map (·.seq) ↔
      k ∈ s.unhandled ∧ k ≠ d.seq := by
    intro k
    rw [List.length_append, List.length_singleton, hrest, ← hsplit.mem_iff, List.mem_cons]
    constructor
    · intro hk
      exact ⟨.inr hk, fun heq => hnodup.1 (heq ▸ hk)⟩
    · rintro ⟨rfl | hk, hne⟩
      · exact absurd rfl hne
      · exact hk
  refine ⟨_, rfl, h.driver.congr rfl rfl rfl rfl (fun _ _ => rfl) (fun _ => rfl) rfl h.driver.status,
    { h.rings with used := ?_, usedIdx := ?_, seen := ?_ }, ⟨?_, ?_, ?_, h.live.done⟩, h.panic⟩
  · show RingBuffer.Holds ⟨s.usedElems, BitVec.ofNat 16 (s.seen ++ [d.head]).length, s.usedId⟩
      (s.seen ++ [d.head]).length
      ((s.completed.drop (s.seen ++ [d.head]).length).map _)
    rw [List.length_append, List.length_singleton, hrest, ← RingBuffer.ofNat_add_one]
    exact hpop
  · show (BitVec.ofNat 16 ((s.usedIdx.toNat + 1) % NUM)).toNat = (s.seen ++ [d.head]).length % NUM
    rw [h.rings.usedIdx, BitVec.toNat_ofNat, List.length_append, List.length_singleton, Nat.mod_add_mod]
    exact Nat.mod_eq_of_lt (lt_trans (Nat.mod_lt _ (by decide)) (by decide))
  · obtain ⟨t, ht⟩ := h.rings.seen
    have htail : t = (s.completed.drop s.seen.length).map (·.head) := by
      rw [List.map_drop, ← ht, List.drop_left]
    refine ⟨rest.map (·.head), ?_⟩
    show s.seen ++ [d.head] ++ _ = s.completed.map _
    rw [← ht, htail, hdrop, List.map_cons, List.append_assoc, List.singleton_append]
  · show (s.active ++ (s.completed.drop (s.seen ++ [d.head]).length).map (·.seq)).Nodup
    rw [List.length_append, List.length_singleton, hrest]
    exact hnodup.2
  · intro k hk
    exact h.live.waited k ((hunhandled k).mp hk).1
  · intro q r' k hq
    show update s.disk r.buf false r'.buf = true ↔
      k ∈ s.active ++ (s.completed.drop (s.seen ++ [d.head]).length).map (·.seq)
    rw [hunhandled]
    by_cases hqr : q = r.proc
    · rw [hqr] at hq
      have hq' : s.pc r.proc = .wait r' k := hq
      rw [hpc] at hq'
      obtain ⟨rfl, rfl⟩ := Pc.wait.inj hq'
      simp
    · have hk : k ≠ d.seq := by
        rintro rfl
        exact hqr (h.driver.wait_inj hq hpc)
      rw [update_of_ne (h.driver.buf_ne hq hpc hqr), h.live.disk q r' k hq]
      simp [hk]

/-! ## Calls -/

theorem inv_finish [DecidableEq P] (h : Inv s) (hp : s.pc p = .wait r k) : ∃ u, rwFinish s p r = .ok u ∧ Inv u := by
  unfold rwFinish
  by_cases hdisk : s.disk r.buf = true
  · exact ⟨s, if_pos hdisk, h⟩
  rw [if_neg hdisk]
  have hchain := (h.driver.waits p r k hp).2.2.2
  obtain ⟨t, ht, hfrees⟩ := freeChain_eq hchain (update s.info r.idx0 { s.info r.idx0 with b := none })
  rw [ht, hfrees.rest]
  have hother : ∀ {q r' k'}, update s.pc p .out q = .wait r' k' → q ≠ p ∧ s.pc q = .wait r' k' :=
    fun hq => of_update hq nofun
  have hfree : ∀ i, i ∉ r.idx → t.free i = s.free i := fun i hi => by simp [hfrees.free, hi]
  refine ⟨_, rfl, ⟨?_, ?_, ?_, ?_, ?_⟩, { h.rings with }, ⟨h.live.nodup, ?_, ?_, ?_⟩, h.panic⟩
  · intro q b write sector hq
    exact h.driver.calls q b write sector (of_update hq nofun).2
  · intro q r' k' hq
    obtain ⟨hqp, hq'⟩ := hother hq
    obtain ⟨hproc, hown, hlog, hchain'⟩ := h.driver.waits q r' k' hq'
    have hapart := h.driver.apart q p r' r k' k hq' hp hqp
    refine ⟨hproc, hown, hlog, hchain'.congr (fun i hi => hfree i (hapart i hi))
      (fun i hi => hfrees.desc i (hapart i hi)) ?_ rfl⟩
    have hne : r'.idx0 ≠ r.idx0 := fun heq => hapart _ r'.mem_idx0 (heq ▸ r.mem_idx0)
    simp [hne]
  · intro q q' r1 r2 k1 k2 hq hq'
    exact h.driver.apart q q' r1 r2 k1 k2 (hother hq).2 (hother hq').2
  · intro i hi hused
    have hused' : t.free i = false := hused
    have hnot : i ∉ r.idx := by
      intro hmem
      simp [hfrees.free, hmem] at hused'
    obtain ⟨q, r', k', hq, hmem⟩ := h.driver.owned i hi (by rw [← hfree i hnot, hused'])
    have hqp : q ≠ p := by
      rintro rfl
      rw [hp] at hq
      exact hnot ((Pc.wait.inj hq).1 ▸ hmem)
    exact ⟨q, r', k', by rw [← hq]; exact update_of_ne hqp _ _, hmem⟩
  · intro i
    by_cases hi : i = r.idx0
    · simp [hi, h.driver.status]
    · simp [hi, h.driver.status]
  · intro k' hk'
    obtain ⟨r', hlog, hr'⟩ := h.live.waited k' hk'
    have hne : r'.proc ≠ p := by
      intro heq
      rw [heq, hp] at hr'
      obtain ⟨rfl, rfl⟩ := Pc.wait.inj hr'
      exact hdisk ((h.live.disk p r k hp).mpr hk')
    exact ⟨r', hlog, by rw [← hr']; exact update_of_ne hne _ _⟩
  · intro q r' k' hq
    exact h.live.disk q r' k' (hother hq).2
  · intro q r' k' hq
    exact h.live.done q r' k' (hother hq).2

theorem getElem?_append_singleton {α : Type*} {l : List α} {a b : α} (h : l[k]? = some a) :
    (l ++ [b])[k]? = some a := by
  rw [List.getElem?_append_left (List.getElem?_eq_some_iff.mp h).1, h]

theorem head_append {i : Nat} (h : (s.log[k]?).map Req.idx0 = some i) : ((s.log ++ [r])[k]?).map Req.idx0 = some i := by
  obtain ⟨r', hlog, hr'⟩ := Option.map_eq_some_iff.mp h
  rw [getElem?_append_singleton hlog, Option.map_some, hr']

theorem inv_request [DecidableEq P] [DecidableEq B] (h : Inv s) (hp : s.pc r.proc = .start r.buf r.write r.sector)
    (hidx : ∀ i ∈ r.idx, i < NUM ∧ s.free i = true) (hnodup : r.idx.Nodup) : Inv (request (s.mark r.idx) r) := by
  have hactive : (request (s.mark r.idx) r).active.Perm (s.log.length :: s.active) := by
    have htaken := h.rings.taken
    have hlen : s.log.length + 1 - s.taken = s.log.length - s.taken + 1 := by omega
    have hlast : s.taken + (s.log.length - s.taken) = s.log.length := by omega
    simp only [State.active, request, State.mark, List.length_append, List.length_singleton]
    rw [hlen, List.range'_1_concat, hlast, List.append_assoc]
    exact List.perm_middle
  have hunhandled : (request (s.mark r.idx) r).unhandled.Perm (s.log.length :: s.unhandled) := hactive.append_right _
  have hnew : s.log.length ∉ s.unhandled := by
    intro hmem
    obtain ⟨r', hlog, -⟩ := h.live.waited _ hmem
    simp at hlog
  have hcases : ∀ {q r' k}, (request (s.mark r.idx) r).pc q = .wait r' k →
      q = r.proc ∧ r' = r ∧ k = s.log.length ∨ q ≠ r.proc ∧ s.pc q = .wait r' k := by
    intro q r' k hq
    have hq' : update s.pc r.proc (.wait r s.log.length) q = .wait r' k := hq
    by_cases hqp : q = r.proc
    · rw [hqp, update_self] at hq'
      obtain ⟨rfl, rfl⟩ := Pc.wait.inj hq'
      exact .inl ⟨hqp, rfl, rfl⟩
    · rw [update_of_ne hqp] at hq'
      exact .inr ⟨hqp, hq'⟩
  have hkeep : ∀ {q r' k}, s.pc q = .wait r' k → (request (s.mark r.idx) r).pc q = .wait r' k :=
    update_of (by rw [hp]; nofun)
  have hown : s.owner r.buf = some r.proc := h.driver.calls _ _ _ _ hp
  have hbuf : ∀ {q r' k}, s.pc q = .wait r' k → q ≠ r.proc → r'.buf ≠ r.buf := by
    intro q r' k hq hqp heq
    have hown' := (h.driver.waits q r' k hq).2.1
    rw [heq, hown] at hown'
    exact hqp (Option.some.inj hown').symm
  have hold : ∀ {q r' k}, s.pc q = .wait r' k → ∀ i ∈ r'.idx, i ∉ r.idx := by
    intro q r' k hq i hi hmem
    have hused := (h.driver.waits q r' k hq).2.2.2.used i hi
    simp [(hidx i hmem).2] at hused
  obtain ⟨h01, h02, h12⟩ := r.ne_of_nodup hnodup
  refine ⟨⟨?_, ?_, ?_, ?_, ?_⟩, { h.rings with taken := ?_, avail := ?_, jobs := ?_, heads := ?_ },
    ⟨?_, ?_, ?_, ?_⟩, h.panic⟩
  · intro q b write sector hq
    exact h.driver.calls q b write sector (of_update hq nofun).2
  · intro q r' k hq
    rcases hcases hq with ⟨rfl, rfl, rfl⟩ | ⟨hqp, hq⟩
    · refine ⟨rfl, hown, by simp [request, State.mark], fun i hi => (hidx i hi).1, hnodup, ?_, ?_, ?_, ?_, ?_, ?_⟩
      · intro i hi
        simp [request, State.mark, hi]
      · simp [request, h01, h02]
      · simp [request, h12]
      · simp [request]
      · simp [request]
      · simp [request]
    · obtain ⟨hproc, hown', hlog, hchain⟩ := h.driver.waits q r' k hq
      refine ⟨hproc, hown', getElem?_append_singleton hlog, hchain.congr ?_ ?_ ?_ ?_⟩
      · intro i hi
        simp [request, State.mark, hold hq i hi]
      · intro i hi
        have hi' := hold hq i hi
        simp only [Req.idx, List.mem_cons, List.not_mem_nil, or_false, not_or] at hi'
        simp [request, State.mark, hi'.1, hi'.2.1, hi'.2.2]
      · have hne : r'.idx0 ≠ r.idx0 := fun heq => hold hq _ r'.mem_idx0 (heq ▸ r.mem_idx0)
        simp [request, State.mark, hne]
      · have hne : r'.proc ≠ r.proc := hproc ▸ hqp
        simp [request, State.mark, hne]
  · intro q q' r1 r2 k1 k2 hq hq' hne i hi
    rcases hcases hq with ⟨hqp, hr, -⟩ | ⟨-, hold1⟩ <;> rcases hcases hq' with ⟨hqp', hr', -⟩ | ⟨-, hold2⟩
    · exact absurd (hqp.trans hqp'.symm) hne
    · exact fun hi' => hold hold2 i hi' (hr ▸ hi)
    · rw [hr']
      exact hold hold1 i hi
    · exact h.driver.apart q q' r1 r2 k1 k2 hold1 hold2 hne i hi
  · intro i hi hused
    by_cases hmem : i ∈ r.idx
    · exact ⟨r.proc, r, s.log.length, update_self _ _ _, hmem⟩
    · obtain ⟨q, r', k, hq, hi'⟩ := h.driver.owned i hi (by simpa [request, State.mark, hmem] using hused)
      exact ⟨q, r', k, hkeep hq, hi'⟩
  · intro i
    by_cases hi : i = r.idx0
    · simp [request, hi]
    · simp [request, State.mark, hi, h.driver.status]
  · exact h.rings.taken.trans (by simp [request, State.mark])
  · have hlt : ((s.log.drop s.taken).map (·.idx0)).length < NUM := by
      have := h.length_pending
      simp only [List.length_map, List.length_drop, NUM]
      omega
    have hpush := h.rings.avail.push (a := r.idx0) NUM_dvd hlt
    show RingBuffer.Holds _ s.taken (((s.log ++ [r]).drop s.taken).map _)
    rw [List.drop_append_of_le_length h.rings.taken, List.map_append]
    exact hpush
  · intro j hj
    exact head_append (h.rings.jobs j hj)
  · intro d hd
    exact head_append (h.rings.heads d hd)
  · exact hunhandled.nodup_iff.mpr (List.nodup_cons.mpr ⟨hnew, h.live.nodup⟩)
  · intro k hk
    rcases List.mem_cons.mp (hunhandled.mem_iff.mp hk) with rfl | hk
    · exact ⟨r, by simp [request, State.mark], update_self _ _ _⟩
    · obtain ⟨r', hlog, hr'⟩ := h.live.waited k hk
      exact ⟨r', getElem?_append_singleton hlog, hkeep hr'⟩
  · intro q r' k hq
    rw [hunhandled.mem_iff, List.mem_cons]
    rcases hcases hq with ⟨rfl, rfl, rfl⟩ | ⟨hqp, hq⟩
    · simp [request]
    · have hk : k ≠ s.log.length := by
        rintro rfl
        have := (h.driver.waits q r' _ hq).2.2.1
        simp at this
      simp only [hk, false_or]
      rw [← h.live.disk q r' k hq]
      simp [request, State.mark, hbuf hq hqp]
  · intro q r' k hq
    rcases hcases hq with ⟨rfl, rfl, rfl⟩ | ⟨hqp, hq⟩
    · exact .inl (hactive.mem_iff.mpr List.mem_cons_self)
    · rcases h.live.done q r' k hq with hk | hk
      · exact .inl (hactive.mem_iff.mpr (List.mem_cons_of_mem _ hk))
      · exact .inr hk

theorem inv_start [DecidableEq P] [DecidableEq B] (h : Inv s) {write : Bool}
    {sector : Nat} (hp : s.pc p = .start b write sector) : ∃ u, rwStart s p b write sector = .ok u ∧ Inv u := by
  obtain ⟨x, hx, halloc⟩ := alloc3Desc_eq s
  unfold rwStart
  rw [hx]
  cases halloc with
  | none u hu hdesc =>
    refine ⟨u, rfl, ?_⟩
    rw [hu]
    exact ⟨h.driver.congr rfl rfl rfl rfl hdesc (fun _ => rfl) rfl h.driver.status, { h.rings with },
      { h.live with }, h.panic⟩
  | some i j k hidx hnodup => exact ⟨_, rfl, inv_request h hp hidx hnodup⟩

/-! ## Runs -/

theorem inv_step [DecidableEq P] [DecidableEq B] {e : Event P B} (h : Inv s) (hs : step s e = some u) : Inv u := by
  have hpanic : ¬ s.panic.isSome = true := by simp [h.panic]
  unfold step at hs
  rw [if_neg hpanic] at hs
  cases e with
  | acquiresleep p b =>
    simp only at hs
    split_ifs at hs with hb
    cases hs
    exact inv_acquiresleep h p hb
  | releasesleep p b =>
    simp only at hs
    cases hp : s.pc p with
    | out =>
      simp only [hp] at hs
      split_ifs at hs with hb
      cases hs
      exact inv_releasesleep h hp hb
    | start | wait => simp [hp] at hs
  | call p b write sector =>
    simp only at hs
    cases hp : s.pc p with
    | out =>
      simp only [hp] at hs
      split_ifs at hs with hb
      cases hs
      exact inv_call h hp hb write sector
    | start | wait => simp [hp] at hs
  | run p =>
    simp only at hs
    split_ifs at hs
    unfold runProc at hs
    cases hp : s.pc p with
    | out => simp [hp] at hs
    | start b write sector =>
      obtain ⟨t, ht, hinv⟩ := inv_start h hp
      simp only [hp, ht, State.after] at hs
      cases hs
      exact hinv
    | wait r k =>
      obtain ⟨t, ht, hinv⟩ := inv_finish h hp
      simp only [hp, ht, State.after] at hs
      cases hs
      exact hinv
  | intr =>
    simp only at hs
    split_ifs at hs
    cases hs
    exact inv_intr h true
  | intrStep =>
    simp only at hs
    split_ifs at hs
    obtain ⟨t, ht, hinv⟩ := inv_intrStep h
    rw [ht, State.after] at hs
    cases hs
    exact hinv
  | take => exact inv_take h hs
  | complete n => exact inv_complete h hs

theorem inv_run [DecidableEq P] [DecidableEq B] {es : List (Event P B)}
    (h : Machine.Run step Machine.any init es s) : Inv s := by
  induction h with
  | nil => exact inv_init
  | snoc _ _ hs ih => exact inv_step ih hs

/-- In every run, whatever the order of the completions and however often the indices have wrapped: no panic is
reached; the descriptors of the requests in flight are disjoint, and those that are not free are theirs; the
interrupt handler has read the completions in order, none twice and none skipped, and stops when it has read all; and a
call returns only after the device has completed its request. -/
theorem virtio_descriptor_protocol [DecidableEq P] [DecidableEq B] (es : List (Event P B)) (s : State P B)
    (h : Machine.Run step Machine.any init es s) :
    s.panic = none ∧
    (∀ p r k, s.pc p = .wait r k → r.idx.Nodup ∧ ∀ i ∈ r.idx, i < NUM ∧ s.free i = false) ∧
    (∀ p q r r' k k', s.pc p = .wait r k → s.pc q = .wait r' k' → p ≠ q → ∀ i ∈ r.idx, i ∉ r'.idx) ∧
    (∀ i < NUM, s.free i = false → ∃ p r k, s.pc p = .wait r k ∧ i ∈ r.idx) ∧
    s.seen <+: s.completed.map (·.head) ∧
    (s.usedIdx.toNat % NUM = s.usedId.toNat % NUM ↔ s.seen = s.completed.map (·.head)) ∧
    (s.completed.map (·.seq)).Nodup ∧
    (∀ p r k u, s.pc p = .wait r k → step s (.run p) = some u → u.pc p = .out →
      r.proc = p ∧ s.log[k]? = some r ∧ r.done k ∈ s.completed) := by
  have hinv := inv_run h
  have hdriver := hinv.driver
  refine ⟨hinv.panic, ?_, hdriver.apart, hdriver.owned, hinv.rings.seen, ?_, ?_, ?_⟩
  · intro p r k hp
    have hchain := (hdriver.waits p r k hp).2.2.2
    exact ⟨hchain.nodup, fun i hi => ⟨hchain.lt i hi, hchain.used i hi⟩⟩
  · obtain ⟨t, ht⟩ := hinv.rings.seen
    have htail : (s.completed.drop s.seen.length).map (·.head) = t := by rw [List.map_drop, ← ht, List.drop_left]
    rw [hinv.intr_test, ← List.map_eq_nil_iff, htail, ← ht]
    constructor
    · intro hnil
      rw [hnil, List.append_nil]
    · intro hseen
      simpa using hseen.symm
  · have hnodup := hinv.rings.once.nodup_iff.mpr List.nodup_range
    exact (List.nodup_append.mp hnodup).2.1
  · intro p r k u hp hs hout
    obtain ⟨hproc, -, hlog, -⟩ := hdriver.waits p r k hp
    refine ⟨hproc, hlog, (hinv.live.done p r k hp).resolve_left fun hk => ?_⟩
    -- a call that the device has not completed goes back to sleep
    have hdisk : s.disk r.buf = true := (hinv.live.disk p r k hp).mpr (mem_unhandled_of_active hk)
    unfold step at hs
    simp only at hs
    split_ifs at hs
    simp only [runProc, hp, rwFinish, if_pos hdisk, State.after, Option.some.injEq] at hs
    simp [← hs, hp] at hout

/-- Three calls: the third does not get its descriptors, and the device completes the second before the first. -/
def threeCalls : List (Event (Fin 3) (Fin 3)) :=
  [.acquiresleep 0 0, .call 0 0 false 2, .run 0, .acquiresleep 1 1, .call 1 1 true 4, .run 1,
    .acquiresleep 2 2, .call 2 2 false 6, .run 2, .take, .take, .complete 1, .complete 0,
    .intr, .intrStep, .intrStep, .intrStep, .run 2]

theorem virtio_descriptor_protocol_threeCalls :
    ∃ s u r, Machine.Run step Machine.any init threeCalls s ∧ s.pc 0 = .wait r 0 ∧ r.idx = [0, 1, 2] ∧
      step s (.run 0) = some u ∧ u.pc 0 = .out ∧ r.done 0 ∈ s.completed := by
  let r : Req (Fin 3) (Fin 3) := ⟨0, 0, false, 2, 0, 1, 2⟩
  obtain ⟨s, hrun, hp, u, hu, hpc⟩ : ∃ s, Machine.Run step Machine.any init threeCalls s ∧ s.pc 0 = .wait r 0 ∧
      ∃ u ∈ step s (.run 0), u.pc 0 = .out := by decide +kernel
  have hdone := (virtio_descriptor_protocol threeCalls s hrun).2.2.2.2.2.2.2 0 r 0 u hp hu hpc
  exact ⟨s, u, r, hrun, hp, rfl, hu, hpc, hdone.2.2⟩

end Xv6.Virtio

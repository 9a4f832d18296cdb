import Xv6.Bio.Inv
import Xv6.Lib.Hoare
import Xv6.Lib.Redo

/-!
# One process and the buffer cache

What the functions of `kernel/bio.c` do when process `p` runs them and no other process has a reference
to a buffer, as it is in `commit()` and in recovery. `At D p d0 g L W hold` is what `p` knows then: the
account `g` of the cache, the in-memory log, the blocks written since the disk was `d0`, and the buffers
it holds with their contents. The rules say how each call changes that knowledge.
-/

namespace Xv6

open Hoare (Triple Outcome)
open Function (update update_eq_self update_idem update_of_ne update_self)

structure At (D p : Nat) (d0 : Blocks) (g : Ghost) (L : Log) (W : List (Nat × Block))
    (hold : Fin NBUF → Option Buf) (s : Kernel) : Prop where
  inv : CacheInv D s.bcache s.disk g
  log : s.log = L
  writes : s.writes = W
  disk : s.disk = Redo.apply d0 W
  held : ∀ i x, hold i = some x → s.bcache.buf i = x ∧ x.lock = some p ∧ x.valid = true
  free : ∀ i, hold i = none → (s.bcache.buf i).lock = none
  calm : ∀ i, g.wait i = 0 ∧ g.dirty i = false
  apart : ∀ b ∈ g.stuck, b ∉ g.pins
  safe : g.stuck = [] → s.bcache.wrapped = false
  lost : ∀ b ∈ g.stuck, (∀ i x, hold i = some x → x.blockno ≠ b) → s.bcache.wrapped = true

variable {D p : Nat} {d0 : Blocks} {g : Ghost} {L : Log} {W : List (Nat × Block)}
  {hold : Fin NBUF → Option Buf} {s t : Kernel} {i j : Fin NBUF} {b : Nat} {x : Buf}
  {E : Halt → Kernel → Prop}

/-- No stuck block among the blocks of held buffers. -/
def HoldsNoStuck (g : Ghost) (hold : Fin NBUF → Option Buf) : Prop :=
  ∀ i x, hold i = some x → x.blockno ∉ g.stuck

theorem Ghost.setWait_setWait (m n : Nat) : (g.setWait i m).setWait i n = g.setWait i n := by
  rw [setWait, setWait, setWait, update_idem]

theorem Ghost.setWait_self {n : Nat} (h : g.wait i = n) : g.setWait i n = g := by
  rw [setWait, ← h, update_eq_self]

theorem At.idle (h : At D p d0 g L W hold s) (hh : HoldsNoStuck g hold) : g.Idle D s.bcache := by
  intro i hd hb
  have hlock : (s.bcache.buf i).lock = none := by
    cases hi : hold i with
    | none => exact h.free i hi
    | some x =>
      obtain ⟨rfl, -, -⟩ := h.held i x hi
      exact absurd hb (hh i _ hi)
  rw [Ghost.refs, (h.calm i).1, Buf.holders_none hlock, Ghost.pin_of_not_mem (h.apart _ hb)]

theorem bget_cases (dev b : Nat) (s : Kernel) :
    (∃ i, s.bcache.cached dev b = some i ∧ bget dev b s = .ok i
      (s.setBuf i { s.bcache.buf i with refcnt := incr (s.bcache.buf i).refcnt })) ∨
    (∃ i, s.bcache.cached dev b = none ∧ s.bcache.unused = some i ∧ bget dev b s = .ok i
      (s.setBuf i { s.bcache.buf i with dev, blockno := b, valid := false, refcnt := 1 })) ∨
    (s.bcache.unused = none ∧ bget dev b s = .error (.panic .bgetNoBuffers) s) := by
  cases hc : s.bcache.cached dev b with
  | some i => exact .inl ⟨i, rfl, by rw [bget, hc]⟩
  | none =>
    cases hu : s.bcache.unused with
    | some i => exact .inr (.inl ⟨i, rfl, rfl, by rw [bget, hc]; simp only [hu]⟩)
    | none => exact .inr (.inr ⟨rfl, by rw [bget, hc]; simp only [hu]⟩)

/-- What is known after `bget` returned buffer `i`. -/
structure Got (D b : Nat) (g : Ghost) (s : Kernel) (i : Fin NBUF) (t : Kernel) : Prop where
  inv : CacheInv D t.bcache t.disk (g.setWait i (g.wait i + 1))
  key : (t.bcache.buf i).dev = D ∧ (t.bcache.buf i).blockno = b
  lock : (t.bcache.buf i).lock = (s.bcache.buf i).lock
  keep : (s.bcache.buf i).refcnt ≠ 0 → (s.bcache.buf i).dev = D ∧ (s.bcache.buf i).blockno = b ∧
    (t.bcache.buf i).valid = (s.bcache.buf i).valid
  data : (t.bcache.buf i).data = (s.bcache.buf i).data
  other : ∀ j, j ≠ i → t.bcache.buf j = s.bcache.buf j
  rest : t.log = s.log ∧ t.disk = s.disk ∧ t.writes = s.writes ∧ t.bcache.wrapped = s.bcache.wrapped

theorem bget_outcome (h : CacheInv D s.bcache s.disk g) (hidle : g.Idle D s.bcache) (hb : b ∉ g.stuck)
    (hw : ∀ i, g.wait i + 3 < 2 ^ 32) :
    Outcome (Got D b g s) (fun _ t => t = s ∧ s.bcache.unused = none) (bget D b s) := by
  rcases bget_cases D b s with ⟨i, hc, hget⟩ | ⟨i, hc, hu, hget⟩ | ⟨hu, hget⟩ <;> rw [hget]
  · exact ⟨h.hit hc (hw i), by rw [Kernel.setBuf_self]; exact key_of_cached hc,
      by rw [Kernel.setBuf_self],
      fun _ => ⟨(key_of_cached hc).1, (key_of_cached hc).2, by rw [Kernel.setBuf_self]⟩,
      by rw [Kernel.setBuf_self], fun j hj => Kernel.setBuf_of_ne s _ hj, rfl, rfl, rfl, rfl⟩
  · have hrefs := (h.each i).unused hidle (refcnt_of_unused hu)
    unfold Ghost.refs at hrefs
    have hwait : g.wait i = 0 := by omega
    have hrec := h.recycle (x := { s.bcache.buf i with dev := D, blockno := b, valid := false, refcnt := 1 })
      hc hu hb hidle rfl rfl rfl rfl rfl
    exact ⟨by rw [hwait]; exact hrec, by rw [Kernel.setBuf_self]; exact ⟨rfl, rfl⟩,
      by rw [Kernel.setBuf_self], fun hr => absurd (refcnt_of_unused hu) hr,
      by rw [Kernel.setBuf_self], fun j hj => Kernel.setBuf_of_ne s _ hj, rfl, rfl, rfl, rfl⟩
  · exact ⟨rfl, hu⟩

theorem acquiresleep_of_none (p : Nat) (h : (t.bcache.buf i).lock = none) :
    acquiresleep p i t = .ok () (t.setBuf i { t.bcache.buf i with lock := some p }) := by
  rw [acquiresleep, h]

theorem fill_ok (h : CacheInv D t.bcache t.disk g) (hl : (t.bcache.buf i).lock.isSome) :
    ∃ x, fill i t = .ok () (t.setBuf i x) ∧ CacheInv D (t.setBuf i x).bcache t.disk g ∧
      x.dev = D ∧ x.blockno = (t.bcache.buf i).blockno ∧ x.lock = (t.bcache.buf i).lock ∧
      x.valid = true ∧ (g.dirty i = false → x.data = g.view x.blockno) := by
  have hdev := (h.each i).held hl
  cases hv : (t.bcache.buf i).valid with
  | true =>
    refine ⟨t.bcache.buf i, ?_, ?_, hdev, rfl, rfl, hv, fun hd => (h.each i).data hdev hv hd⟩
    · rw [fill, if_pos hv, Kernel.setBuf_eq_self]
    · rw [Kernel.setBuf_eq_self]
      exact h
  | false =>
    have hfill := h.fill hl hv
    refine ⟨_, by rw [fill, if_neg (by rw [hv]; exact Bool.noConfusion)], hfill, hdev, rfl, rfl, rfl, ?_⟩
    intro hd
    have hi := hfill.each i
    rw [Bcache.set_self] at hi
    exact hi.data hdev rfl hd

/-! ## Rules for a process on its own -/

theorem At.update (hs : At D p d0 g L W hold s) {g' : Ghost} {L' : Log} {W' : List (Nat × Block)}
    {o : Option Buf} (hinv : CacheInv D t.bcache t.disk g') (hlog : t.log = L') (hwrites : t.writes = W')
    (hdisk : t.disk = Redo.apply d0 W') (hother : ∀ j, j ≠ i → t.bcache.buf j = s.bcache.buf j)
    (hsome : ∀ x, o = some x → t.bcache.buf i = x ∧ x.lock = some p ∧ x.valid = true)
    (hnone : o = none → (t.bcache.buf i).lock = none)
    (hcalm : ∀ j, g'.wait j = 0 ∧ g'.dirty j = false) (hapart : ∀ b ∈ g'.stuck, b ∉ g'.pins)
    (hsafe : g'.stuck = [] → t.bcache.wrapped = false)
    (hlost : ∀ b ∈ g'.stuck, (∀ j x, update hold i o j = some x → x.blockno ≠ b) →
      t.bcache.wrapped = true) : At D p d0 g' L' W' (update hold i o) t := by
  refine ⟨hinv, hlog, hwrites, hdisk, fun j x hj => ?_, fun j hj => ?_, hcalm, hapart, hsafe, hlost⟩
  · by_cases hji : j = i
    · subst hji
      rw [update_self] at hj
      exact hsome x hj
    · rw [update_of_ne hji] at hj
      rw [hother j hji]
      exact hs.held j x hj
  · by_cases hji : j = i
    · subst hji
      rw [update_self] at hj
      exact hnone hj
    · rw [update_of_ne hji] at hj
      rw [hother j hji]
      exact hs.free j hj

theorem bread_spec (hh : HoldsNoStuck g hold) (hb : b ∉ g.stuck) (hne : ∀ i x, hold i = some x → x.blockno ≠ b) :
    Triple (At D p d0 g L W hold) (bread p D b)
      (fun i s => ∃ x, hold i = none ∧ x.dev = D ∧ x.blockno = b ∧ x.data = g.view b ∧
        At D p d0 g L W (update hold i (some x)) s)
      (fun _ s => At D p d0 g L W hold s ∧ s.bcache.unused = none) := by
  intro s hs
  have hget := bget_outcome hs.inv (hs.idle hh) hb fun i => by rw [(hs.calm i).1]; decide
  unfold bread
  cases hr : bget D b s with
  | error e t =>
    rw [hr] at hget
    obtain ⟨rfl, hu⟩ := hget
    rw [Hoare.bind_of_error hr]
    exact ⟨hs, hu⟩
  | ok i t =>
    rw [hr] at hget
    rw [Hoare.bind_of_ok hr]
    have hnone : hold i = none := by
      cases hi : hold i with
      | none => rfl
      | some x =>
        obtain ⟨rfl, hlock, -⟩ := hs.held i x hi
        have hpos := (hs.inv.each i).refcnt_pos (hh i _ hi)
          (by rw [Ghost.refs, Buf.holders_some hlock]; omega)
        exact absurd (hget.keep (by omega)).2.1 (hne i _ hi)
    have hlock : (t.bcache.buf i).lock = none := hget.lock.trans (hs.free i hnone)
    have hwait : (g.setWait i (g.wait i + 1)).wait i = 1 := by
      rw [Ghost.setWait, (hs.calm i).1]
      exact update_self ..
    have hacq := hget.inv.acquire p hlock (by omega)
    rw [Ghost.setWait_setWait, hwait, Ghost.setWait_self (hs.calm i).1] at hacq
    rw [Hoare.bind_of_ok (acquiresleep_of_none p hlock)]
    obtain ⟨x, hfill, hinv, hdev, hblk, hlk, hvalid, hdata⟩ :=
      fill_ok (t := t.setBuf i { t.bcache.buf i with lock := some p }) (i := i) hacq
        (by rw [Kernel.setBuf_self]; rfl)
    rw [Kernel.setBuf_self] at hblk hlk
    have hxb : x.blockno = b := hblk.trans hget.key.2
    rw [Hoare.bind_of_ok hfill]
    have hother : ∀ j, j ≠ i → (((t.setBuf i { t.bcache.buf i with lock := some p }).setBuf i x).bcache.buf j =
        s.bcache.buf j) := fun j hj => by
      rw [Kernel.setBuf_of_ne _ _ hj, Kernel.setBuf_of_ne _ _ hj, hget.other j hj]
    refine ⟨x, hnone, hdev, hxb, hxb ▸ hdata (hs.calm i).2, hs.update hinv (hget.rest.1.trans hs.log)
      (hget.rest.2.2.1.trans hs.writes) (hget.rest.2.1.trans hs.disk) hother (fun y hy => ?_)
      (fun hn => by cases hn) hs.calm hs.apart (fun hst => hget.rest.2.2.2.trans (hs.safe hst))
      fun c hc hno => ?_⟩
    · obtain rfl := Option.some.inj hy
      exact ⟨Kernel.setBuf_self .., hlk, hvalid⟩
    · refine hget.rest.2.2.2.trans (hs.lost c hc fun j y hj => hno j y ?_)
      rwa [update_of_ne (by rintro rfl; simp [hnone] at hj)]

theorem not_held_of_update {y : Buf} {c : Nat} (hi : hold i = some x)
    (hno : ∀ j z, update hold i (some y) j = some z → z.blockno ≠ c) (hb : y.blockno = x.blockno) :
    ∀ j z, hold j = some z → z.blockno ≠ c := by
  intro j z hj
  by_cases hji : j = i
  · subst hji
    obtain rfl := Option.some.inj (hi.symm.trans hj)
    exact hb ▸ hno j y (update_self ..)
  · exact hno j z (by rwa [update_of_ne hji])

theorem getData_spec (hi : hold i = some x) :
    Triple (At D p d0 g L W hold) (getData i) (fun d s => d = x.data ∧ At D p d0 g L W hold s) E := by
  intro s hs
  exact ⟨by rw [(hs.held i x hi).1], hs⟩

/-- The state after `d` was stored in a buffer and before the buffer is written to disk. -/
def Stored (D p : Nat) (d0 : Blocks) (g : Ghost) (L : Log) (W : List (Nat × Block))
    (hold : Fin NBUF → Option Buf) (i : Fin NBUF) (d : Block) (s : Kernel) : Prop :=
  ∃ s0, At D p d0 g L W hold s0 ∧ s = s0.setBuf i { s0.bcache.buf i with data := d }

theorem setData_spec (d : Block) :
    Triple (At D p d0 g L W hold) (setData i d) (fun _ => Stored D p d0 g L W hold i d) E :=
  fun s hs => ⟨s, hs, rfl⟩

theorem bwrite_spec {d : Block} (hi : hold i = some x) (hb : x.blockno = b) :
    Triple (Stored D p d0 g L W hold i d) (bwrite p i)
      (fun _ => At D p d0 { g with view := update g.view b d } L (W ++ [(b, d)])
        (update hold i (some { x with data := d }))) E := by
  subst hb
  rintro _ ⟨s, hs, rfl⟩
  obtain ⟨hx, hlock, hvalid⟩ := hs.held i x hi
  subst hx
  have hinv := hs.inv.overwrite d (by rw [hlock]; rfl) rfl (hs.calm i).2
  rw [bwrite, Kernel.setBuf_self]
  rw [if_neg (by rw [hlock]; exact fun h => h rfl)]
  refine hs.update hinv hs.log (by rw [← hs.writes]; rfl) ?_
    (fun j hj => Kernel.setBuf_of_ne s _ hj) (fun y hy => ?_) (fun hn => by cases hn) hs.calm hs.apart
    hs.safe fun c hc hno => hs.lost c hc (not_held_of_update hi hno rfl)
  · rw [Redo.apply_concat, ← hs.disk]
    rfl
  · obtain rfl := Option.some.inj hy
    exact ⟨Kernel.setBuf_self .., hlock, hvalid⟩

theorem bunpin_spec (hi : hold i = some x) (hb : x.blockno = b) (hst : b ∉ g.stuck)
    (hdisk : Redo.apply d0 W b = g.view b) :
    Triple (At D p d0 g L W hold) (bunpin i)
      (fun _ => At D p d0 (g.unpin b) L W
        (update hold i (some { x with refcnt := decr x.refcnt }))) E := by
  subst hb
  intro s hs
  obtain ⟨hx, hlock, hvalid⟩ := hs.held i x hi
  subst hx
  have hinv := hs.inv.unpin (i := i) (w := (s.bcache.unref i).wrapped) (by rw [hlock]; rfl) rfl hst
    (hs.disk ▸ hdisk)
  have hpos := (hs.inv.each i).refcnt_pos hst (by rw [Ghost.refs, Buf.holders_some hlock]; omega)
  have hwrapped : (s.bcache.unref i).wrapped = s.bcache.wrapped := by
    have hne : ((s.bcache.buf i).refcnt == 0) = false := by simpa using (by omega : _ ≠ 0)
    simp [Bcache.unref, hne]
  refine hs.update (t := { s with bcache := s.bcache.unref i }) hinv hs.log hs.writes hs.disk
    (fun j hj => update_of_ne hj _ _) (fun y hy => ?_) (fun hn => by cases hn) hs.calm
    (fun c hc hp => ?_) (fun hn => ?_) fun c hc hno => ?_
  · obtain rfl := Option.some.inj hy
    exact ⟨update_self .., hlock, hvalid⟩
  · obtain ⟨hp, hcb⟩ := Ghost.mem_unpin_pins.mp hp
    exact hs.apart c ((Ghost.mem_unpin_stuck hcb).mp hc) hp
  · refine hwrapped.trans (hs.safe ?_)
    unfold Ghost.unpin at hn
    split_ifs at hn
    exact hn
  · have hcb : (s.bcache.buf i).blockno ≠ c := not_held_of_update hi hno rfl i _ hi
    exact hwrapped.trans (hs.lost c ((Ghost.mem_unpin_stuck hcb.symm).mp hc) (not_held_of_update hi hno rfl))

theorem brelseUnlock_of_held (h : (s.bcache.buf i).lock = some p) :
    brelseUnlock p i s = .ok () (s.setBuf i { s.bcache.buf i with lock := none }) := by
  rw [brelseUnlock, if_neg (by rw [h]; exact fun hn => hn rfl)]

theorem brelseUnref_ok (h : CacheInv D s.bcache s.disk g) (hw : 0 < g.wait i) :
    ∃ t, brelseUnref i s = .ok () t ∧ CacheInv D t.bcache t.disk (g.setWait i (g.wait i - 1)) ∧
      t.bcache.buf = (s.bcache.unref i).buf ∧
      t.bcache.wrapped = (s.bcache.wrapped || (s.bcache.buf i).refcnt == 0) ∧
      t.log = s.log ∧ t.disk = s.disk ∧ t.writes = s.writes := by
  refine ⟨_, rfl, ?_, ?_, ?_, rfl, rfl, rfl⟩
  · have hperm : (i :: (s.bcache.unref i).lru.erase i).Perm s.bcache.lru :=
      (List.perm_cons_erase (h.all i)).symm
    split_ifs
    · exact h.unref hperm hw
    · exact h.unref (List.Perm.refl _) hw
  · split_ifs <;> rfl
  · split_ifs <;> rfl

theorem brelse_spec (hi : hold i = some x) :
    Triple (At D p d0 g L W hold) (brelse p i) (fun _ => At D p d0 g L W (update hold i none)) E := by
  intro s hs
  obtain ⟨hx, hlock, hvalid⟩ := hs.held i x hi
  subst hx
  rw [brelse, Hoare.bind_of_ok (brelseUnlock_of_held hlock)]
  have hunl := hs.inv.unlock (by rw [hlock]; rfl) (hs.calm i).2
  have hwait : (g.setWait i (g.wait i + 1)).wait i = 1 := by
    rw [Ghost.setWait, (hs.calm i).1]
    exact update_self ..
  obtain ⟨t, ht, hinv, hbuf, hwrapped, hlog, hdisk, hwrites⟩ :=
    brelseUnref_ok (s := s.setBuf i { s.bcache.buf i with lock := none }) (i := i) hunl (by omega)
  rw [ht]
  rw [Ghost.setWait_setWait, hwait, Ghost.setWait_self (hs.calm i).1] at hinv
  rw [Kernel.setBuf_self] at hwrapped
  change t.bcache.wrapped = (s.bcache.wrapped || (s.bcache.buf i).refcnt == 0) at hwrapped
  have hcount := (hs.inv.each i).count
  rw [Ghost.refs, (hs.calm i).1, Buf.holders_some hlock] at hcount
  refine hs.update hinv (hlog.trans hs.log) (hwrites.trans hs.writes) (hdisk.trans hs.disk)
    (fun j hj => ?_) (fun y hy => by cases hy) (fun _ => ?_) hs.calm hs.apart (fun hn => ?_)
    fun c hc hno => ?_
  · rw [hbuf]
    exact (update_of_ne hj _ _).trans (Kernel.setBuf_of_ne s _ hj)
  · rw [hbuf]
    simp [Bcache.unref]
  · -- No stuck block: the count was at least one.
    rw [Ghost.lost_of_not_mem (by rw [hn]; exact List.not_mem_nil)] at hcount
    have hne : ((s.bcache.buf i).refcnt == 0) = false := by simpa using (by omega : _ ≠ 0)
    rw [hwrapped, hne, Bool.or_false]
    exact hs.safe hn
  · rw [hwrapped]
    by_cases hcb : (s.bcache.buf i).blockno = c
    · subst hcb
      rw [Ghost.lost_of_mem ((hs.inv.each i).held (by rw [hlock]; rfl)) hc,
        Ghost.pin_of_not_mem (hs.apart _ hc)] at hcount
      have hlt := (hs.inv.each i).lt
      have hzero : (s.bcache.buf i).refcnt = 0 := by omega
      rw [hzero, beq_self_eq_true, Bool.or_true]
    · rw [hs.lost c hc fun j y hj => ?_, Bool.true_or]
      by_cases hji : j = i
      · subst hji
        obtain rfl := Option.some.inj (hi.symm.trans hj)
        exact hcb
      · exact hno j y (by rwa [update_of_ne hji])

end Xv6

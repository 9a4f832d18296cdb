import Xv6.Bio.Spec
import Xv6.Log.Kernel

/-!
# What commit and recovery write

`write_log`, `write_head`, `install_trans` and the functions made of them, run by a process on its own.
Each rule says which blocks are written, in which order, and what the account of the cache is afterwards.
When a call stops with `bget: no buffers`, the blocks written so far are a prefix of these.
-/

namespace Xv6

open Hoare (Triple)
open Function (update update_of_ne update_self update_idem update_eq_self)

/-- No buffer is held. -/
def noHold : Fin NBUF → Option Buf := fun _ => none

/-- At most one buffer is held. -/
def HoldsOne (hold : Fin NBUF → Option Buf) : Prop :=
  ∀ i j x y, hold i = some x → hold j = some y → i = j

variable {D p : Nat} {d0 : Blocks} {g : Ghost} {L : Log} {W : List (Nat × Block)}
  {i j : Fin NBUF} {b c : Nat} {x y : Buf} {E : Halt → Kernel → Prop}
variable {hold : Fin NBUF → Option Buf}

theorem holdsOne_noHold : HoldsOne noHold := fun _ _ _ _ h _ => by cases h

theorem noHold_update (h : update noHold i (some x) j = some y) : j = i ∧ y = x := by
  by_cases hj : j = i
  · subst hj
    rw [update_self] at h
    exact ⟨rfl, (Option.some.inj h).symm⟩
  · rw [update_of_ne hj] at h
    cases h

theorem holdsOne_update : HoldsOne (update noHold i (some x)) := fun _ _ _ _ h h' =>
  (noHold_update h).1.trans (noHold_update h').1.symm

/-- The account after a block was installed: `b` contains `d` on disk too, and its pin is dropped. -/
def Ghost.install (g : Ghost) (b : Nat) (d : Block) : Ghost :=
  Ghost.unpin { g with view := update g.view b d } b

theorem bread_two (hb : b ∉ g.stuck) (hc : c ∉ g.stuck) (hne : c ≠ b)
    (hE : ∀ hold e s, HoldsOne hold → At D p d0 g L W hold s → s.bcache.unused = none → E e s)
    {k : Fin NBUF → Fin NBUF → KernelM Unit} {Q : Unit → Kernel → Prop}
    (hk : ∀ i j x y, j ≠ i → x.dev = D → y.dev = D → x.blockno = b → y.blockno = c →
      x.data = g.view b → y.data = g.view c →
      Triple (At D p d0 g L W (update (update noHold i (some x)) j (some y))) (k i j) Q E) :
    Triple (At D p d0 g L W noHold) (bread p D b >>= fun i => bread p D c >>= fun j => k i j) Q E := by
  have hE0 : ∀ hold e s, HoldsOne hold →
      At D p d0 g L W hold s ∧ s.bcache.unused = none → E e s := fun hold e s ho h => hE hold e s ho h.1 h.2
  refine .bind ((bread_spec (fun _ _ h => by cases h) hb fun _ _ h => by cases h).err
    fun e s => hE0 _ e s holdsOne_noHold) fun i => .exists fun x => ?_
  refine .of_fact fun _ => .of_fact fun hxd => .of_fact fun hxb => .of_fact fun hx => ?_
  refine .bind ((bread_spec (fun j y h => ?_) hc fun j y h => ?_).err
    fun e s => hE0 _ e s holdsOne_update) fun j => .exists fun y => ?_
  · obtain ⟨-, rfl⟩ := noHold_update h
    exact hxb ▸ hb
  · obtain ⟨-, rfl⟩ := noHold_update h
    exact hxb ▸ hne.symm
  refine .of_fact fun hj => .of_fact fun hyd => .of_fact fun hyb => .of_fact fun hy => ?_
  refine hk i j x y ?_ hxd hyd hxb hyb hx hy
  rintro rfl
  simp [update_self] at hj

theorem release_two (h : ∀ k, k ≠ i → k ≠ j → hold k = none) :
    update (update hold i none) j none = noHold := by
  funext k
  by_cases hkj : k = j
  · subst hkj; rw [update_self]; rfl
  · rw [update_of_ne hkj]
    by_cases hki : k = i
    · subst hki; rw [update_self]; rfl
    · rw [update_of_ne hki, h k hki hkj]; rfl

theorem installBlock_spec {tail : Nat} (hL : L.dev = D) (hlb : L.start + tail + 1 ∉ g.stuck)
    (hb : L.lh.getD tail 0 = b) (hst : b ∉ g.stuck) (hne : b ≠ L.start + tail + 1)
    (hE : ∀ hold e s, HoldsOne hold → At D p d0 g L W hold s → s.bcache.unused = none → E e s) :
    Triple (At D p d0 g L W noHold) (installBlock p L tail)
      (fun _ => At D p d0 (g.install b (g.view (L.start + tail + 1))) L
        (W ++ [(b, g.view (L.start + tail + 1))]) noHold) E := by
  subst hL hb
  refine bread_two hlb hst hne hE fun i j x y hji hxd hyd hxb hyb hx hy => ?_
  have hi := update_self i (some x) noHold
  have hj := update_self j (some y) (update noHold i (some x))
  refine .bind_fact (getData_spec (by rw [update_of_ne hji.symm, hi]))
    fun d hd => ?_
  subst hd
  rw [hx]
  refine .bind (setData_spec _) fun _ => .bind (bwrite_spec hj hyb) fun _ => ?_
  rw [update_idem]
  refine .bind (bunpin_spec (update_self ..) hyb hst ?_) fun _ => ?_
  · rw [Redo.apply_concat, update_self]
    exact (update_self (L.lh.getD tail 0) _ g.view).symm
  rw [update_idem]
  refine .bind (brelse_spec (by rw [update_of_ne hji.symm, hi])) fun _ => ?_
  refine (brelse_spec (by rw [update_of_ne hji, update_self])).imp (fun _ h => h)
    (fun _ s h => ?_) fun _ _ h => h
  rw [release_two fun k hki hkj => by
    rw [update_of_ne hkj, update_of_ne hki]; rfl] at h
  exact h

theorem logBlock_spec {tail : Nat} (hL : L.dev = D) (hlb : L.start + tail + 1 ∉ g.stuck)
    (hb : L.lh.getD tail 0 = b) (hst : b ∉ g.stuck) (hne : b ≠ L.start + tail + 1)
    (hE : ∀ hold e s, HoldsOne hold → At D p d0 g L W hold s → s.bcache.unused = none → E e s) :
    Triple (At D p d0 g L W noHold) (logBlock p L tail)
      (fun _ => At D p d0 { g with view := update g.view (L.start + tail + 1) (g.view b) } L
        (W ++ [(L.start + tail + 1, g.view b)]) noHold) E := by
  subst hL hb
  refine bread_two hlb hst hne hE fun i j x y hji hxd hyd hxb hyb hx hy => ?_
  have hi : update (update noHold i (some x)) j (some y) i = some x := by
    rw [update_of_ne hji.symm, update_self]
  have hj := update_self j (some y) (update noHold i (some x))
  refine .read (getData_spec hj) ?_
  rw [hy]
  refine .bind (setData_spec _) fun _ => .bind (bwrite_spec hi hxb) fun _ => ?_
  refine .bind (brelse_spec (by rw [update_of_ne hji, hj])) fun _ => ?_
  refine (brelse_spec (by rw [update_of_ne hji.symm, update_self])).imp (fun _ h => h)
    (fun _ s h => ?_) fun _ _ h => h
  rw [release_two fun k hkj hki => by
    rw [update_of_ne hki, update_of_ne hkj, update_of_ne hki]; rfl] at h
  exact h

/-! ## The header -/

theorem getLog_spec : Triple (At D p d0 g L W hold) getLog (fun l s => l = L ∧ At D p d0 g L W hold s) E :=
  fun _ hs => ⟨hs.log, hs⟩

theorem setLog_spec (L' : Log) :
    Triple (At D p d0 g L W hold) (setLog L') (fun _ => At D p d0 g L' W hold) E := fun _ hs =>
  ⟨hs.inv, rfl, hs.writes, hs.disk, hs.held, hs.free, hs.calm, hs.apart, hs.safe, hs.lost⟩

theorem clearLog_spec :
    Triple (At D p d0 g L W hold) clearLog (fun _ => At D p d0 g { L with lh := [] } W hold) E := by
  refine .read getLog_spec ?_
  exact setLog_spec _

theorem release_one : update (update noHold i (some x)) i none = noHold := by
  rw [update_idem]
  exact update_eq_self i noHold

theorem bread_one (hb : b ∉ g.stuck)
    (hE : ∀ e s, At D p d0 g L W noHold s → s.bcache.unused = none → E e s)
    {k : Fin NBUF → KernelM Unit} {Q : Unit → Kernel → Prop}
    (hk : ∀ i x, x.blockno = b → x.data = g.view b →
      Triple (At D p d0 g L W (update noHold i (some x))) (k i) Q E) :
    Triple (At D p d0 g L W noHold) (bread p D b >>= k) Q E := by
  refine .bind ((bread_spec (fun _ _ h => by cases h) hb fun _ _ h => by cases h).err
    fun e s h => hE e s h.1 h.2) fun i => .exists fun x => ?_
  exact .of_fact fun _ => .of_fact fun _ => .of_fact fun hxb => .of_fact fun hx =>
    hk i x hxb hx

theorem readHead_spec (hL : L.dev = D) (hst : L.start ∉ g.stuck)
    (hE : ∀ e s, At D p d0 g L W noHold s → s.bcache.unused = none → E e s) :
    Triple (At D p d0 g L W noHold) (readHead p)
      (fun _ => At D p d0 g { L with lh := headEntries (g.view L.start) } W noHold) E := by
  subst hL
  refine .read getLog_spec ?_
  refine bread_one hst hE fun i x _ hx => ?_
  refine .bind_fact (getData_spec (update_self ..)) fun d hd => ?_
  rw [hd, hx]
  refine .bind (setLog_spec _) fun _ => ?_
  refine (brelse_spec (update_self ..)).imp (fun _ h => h) (fun _ s h => ?_) fun _ _ h => h
  rw [release_one] at h
  exact h

/-- The account after the header block was written. -/
def Ghost.putHead (g : Ghost) (L : Log) : Ghost :=
  { g with view := update g.view L.start (Xv6.putHead (g.view L.start) L.lh) }

theorem writeHead_spec (hL : L.dev = D) (hst : L.start ∉ g.stuck)
    (hE : ∀ e s, At D p d0 g L W noHold s → s.bcache.unused = none → E e s) :
    Triple (At D p d0 g L W noHold) (writeHead p)
      (fun _ => At D p d0 (g.putHead L) L (W ++ [(L.start, putHead (g.view L.start) L.lh)]) noHold) E := by
  subst hL
  refine .read getLog_spec ?_
  refine bread_one hst hE fun i x hxb hx => ?_
  refine .bind_fact (getData_spec (update_self ..)) fun d hd => ?_
  rw [hd, hx]
  refine .bind (setData_spec _) fun _ => .bind (bwrite_spec (update_self ..) hxb) fun _ => ?_
  rw [update_idem]
  refine (brelse_spec (update_self ..)).imp (fun _ h => h) (fun _ s h => ?_) fun _ _ h => h
  rw [release_one] at h
  exact h

/-! ## The loops -/

/-- The account `g'` after the blocks `bs` were installed. -/
structure Ghost.Installed (g g' : Ghost) (bs : List Nat) : Prop where
  pins : ∀ a, a ∈ g'.pins ↔ a ∈ g.pins ∧ a ∉ bs
  stuck : ∀ a ∈ g'.stuck, a ∈ g.stuck ∨ a ∈ bs
  unstuck : (∀ b ∈ bs, b ∈ g.pins) → g'.stuck = g.stuck
  view : ∀ a, a ∉ bs → g'.view a = g.view a

theorem Ghost.Installed.refl (g : Ghost) : g.Installed g [] :=
  ⟨fun _ => (and_iff_left List.not_mem_nil).symm, fun _ => .inl, fun _ => rfl, fun _ _ => rfl⟩

theorem Ghost.Installed.cons {g' : Ghost} {bs : List Nat} {d : Block} (hb : b ∉ bs)
    (h : (g.install b d).Installed g' bs) : g.Installed g' (b :: bs) where
  pins a := by
    rw [h.pins, Ghost.install, Ghost.mem_unpin_pins, List.mem_cons, not_or, and_assoc]
  stuck a ha := by
    rcases h.stuck a ha with ha | ha
    · by_cases hab : a = b
      · exact .inr (hab ▸ List.mem_cons_self)
      · exact .inl ((Ghost.mem_unpin_stuck hab).mp ha)
    · exact .inr (List.mem_cons_of_mem b ha)
  unstuck hp := by
    rw [h.unstuck fun c hc => ?_]
    · exact if_pos (hp b List.mem_cons_self)
    · exact Ghost.mem_unpin_pins.mpr ⟨hp c (List.mem_cons_of_mem b hc), by rintro rfl; exact hb hc⟩
  view a ha := by
    rw [List.mem_cons, not_or] at ha
    exact (h.view a ha.2).trans (update_of_ne ha.1 _ _)

theorem entry_of_drop {k : Nat} {bs : List Nat} (h : L.lh.drop k = b :: bs) :
    k < L.n ∧ L.lh.getD k 0 = b ∧ L.lh.drop (k + 1) = bs := by
  refine ⟨?_, ?_, by rw [← List.drop_drop, h, List.drop_one, List.tail_cons]⟩
  · by_contra hk
    rw [List.drop_eq_nil_of_le (by simpa [Log.n] using hk)] at h
    cases h
  · have := congrArg (fun l => l.getD 0 0) h
    simpa [List.getD_eq_getElem?_getD] using this

theorem installTrans_loop (d0 : Blocks) {v : Blocks} (hL : L.dev = D) (bs : List Nat) :
    ∀ (k : Nat) (g : Ghost) (W : List (Nat × Block)), L.lh.drop k = bs → bs.Nodup →
    (∀ b ∈ bs, b ∉ g.stuck ∧ ∀ m < L.n, b ≠ L.start + m + 1) →
    (∀ m < L.n, L.start + m + 1 ∉ g.stuck ∧ g.view (L.start + m + 1) = v m) →
    (∀ ws, ws <+: bs.mapIdx (fun j b => (b, v (k + j))) → ∀ e s, s.writes = W ++ ws → E e s) →
    Triple (At D p d0 g L W noHold) (Hoare.loop (installBlock p L) k bs.length)
      (fun _ s => ∃ g', g.Installed g' bs ∧
        At D p d0 g' L (W ++ bs.mapIdx fun j b => (b, v (k + j))) noHold s) E := by
  induction bs with
  | nil =>
    intro k g W _ _ _ _ _ s hs
    exact ⟨g, .refl g, by simpa using hs⟩
  | cons b bs ih =>
    intro k g W hdrop hnodup hbs hlog hE
    obtain ⟨hb, hnodup⟩ := List.nodup_cons.mp hnodup
    obtain ⟨hk, hget, hdrop'⟩ := entry_of_drop hdrop
    have hbk := hbs b List.mem_cons_self
    rw [List.length_cons, Hoare.loop]
    refine .bind (installBlock_spec hL (hlog k hk).1 hget hbk.1 (hbk.2 k hk) ?_) fun _ => ?_
    · intro hold e s _ hs _
      exact hE [] List.nil_prefix e s (by rw [List.append_nil]; exact hs.writes)
    rw [(hlog k hk).2]
    refine (ih (k + 1) _ _ hdrop' hnodup (fun c hc => ?_) (fun m hm => ?_) (fun ws hws e s hs => ?_)).imp
      (fun _ h => h) (fun _ s h => ?_) fun _ _ h => h
    · have hcb : c ≠ b := by rintro rfl; exact hb hc
      have hc' := hbs c (List.mem_cons_of_mem b hc)
      exact ⟨fun hm => hc'.1 ((Ghost.mem_unpin_stuck hcb).mp hm), hc'.2⟩
    · have hne := (hbk.2 m hm).symm
      exact ⟨fun hs => (hlog m hm).1 ((Ghost.mem_unpin_stuck hne).mp hs),
        (update_of_ne hne _ _).trans (hlog m hm).2⟩
    · refine hE ((b, v k) :: ws) ?_ e s (by rw [hs, List.append_assoc]; rfl)
      rw [List.mapIdx_cons]
      refine (List.prefix_cons_inj _).mpr ?_
      simpa only [Nat.add_assoc, Nat.add_comm 1] using hws
    · obtain ⟨g', hg', hs⟩ := h
      refine ⟨g', hg'.cons hb, ?_⟩
      rw [List.append_assoc, List.singleton_append] at hs
      rw [List.mapIdx_cons]
      simpa only [Nat.add_zero, Nat.add_assoc, Nat.add_comm 1] using hs

/-- The account `g'` after the blocks `bs`, with contents `w`, were copied to the log from entry `k` on. -/
structure Ghost.Logged (g g' : Ghost) (w : Blocks) (start k : Nat) (bs : List Nat) : Prop where
  pins : g'.pins = g.pins
  stuck : g'.stuck = g.stuck
  slots : ∀ j b, bs[j]? = some b → g'.view (start + (k + j) + 1) = w b
  view : ∀ a, (∀ j < bs.length, a ≠ start + (k + j) + 1) → g'.view a = g.view a

theorem writeLog_loop (d0 : Blocks) {w : Blocks} (hL : L.dev = D) (bs : List Nat) :
    ∀ (k : Nat) (g : Ghost) (W : List (Nat × Block)), L.lh.drop k = bs →
    (∀ b ∈ L.lh, b ∉ g.stuck ∧ g.view b = w b ∧ ∀ m < L.n, b ≠ L.start + m + 1) →
    (∀ m < L.n, L.start + m + 1 ∉ g.stuck) →
    (∀ ws, ws <+: bs.mapIdx (fun j b => (L.start + (k + j) + 1, w b)) →
      ∀ e s, s.writes = W ++ ws → E e s) →
    Triple (At D p d0 g L W noHold) (Hoare.loop (logBlock p L) k bs.length)
      (fun _ s => ∃ g', g.Logged g' w L.start k bs ∧
        At D p d0 g' L (W ++ bs.mapIdx fun j b => (L.start + (k + j) + 1, w b)) noHold s) E := by
  induction bs with
  | nil =>
    intro k g W _ _ _ _ s hs
    exact ⟨g, ⟨rfl, rfl, fun j b hj => by simp at hj, fun _ _ => rfl⟩, by simpa using hs⟩
  | cons b bs ih =>
    intro k g W hdrop hbs hlog hE
    obtain ⟨hk, hget, hdrop'⟩ := entry_of_drop hdrop
    obtain ⟨hst, hw, hne⟩ := hbs b (List.mem_of_mem_drop (hdrop ▸ List.mem_cons_self))
    rw [List.length_cons, Hoare.loop]
    refine .bind (logBlock_spec hL (hlog k hk) hget hst (hne k hk) ?_) fun _ => ?_
    · intro hold e s _ hs _
      exact hE [] List.nil_prefix e s (by rw [List.append_nil]; exact hs.writes)
    rw [hw]
    refine (ih (k + 1) { g with view := update g.view (L.start + k + 1) (w b) } _ hdrop'
      (fun c hc => ?_) hlog (fun ws hws e s hs => ?_)).imp
      (fun _ h => h) (fun _ s h => ?_) fun _ _ h => h
    · obtain ⟨hc1, hc2, hc3⟩ := hbs c hc
      exact ⟨hc1, (update_of_ne (hc3 k hk) _ _).trans hc2, hc3⟩
    · refine hE ((L.start + k + 1, w b) :: ws) ?_ e s (by rw [hs, List.append_assoc]; rfl)
      rw [List.mapIdx_cons]
      refine (List.prefix_cons_inj _).mpr ?_
      simpa only [Nat.add_assoc, Nat.add_comm 1] using hws
    · obtain ⟨g', hg', hs⟩ := h
      refine ⟨g', ⟨hg'.pins, hg'.stuck, fun j c hj => ?_, fun a ha => ?_⟩, ?_⟩
      · cases j with
        | zero =>
          obtain rfl : b = c := by simpa using hj
          refine (hg'.view _ fun j _ => by omega).trans ?_
          exact update_self (L.start + k + 1) (w b) g.view
        | succ j =>
          rw [show k + (j + 1) = k + 1 + j by omega]
          exact hg'.slots j c (by simpa using hj)
      · refine (hg'.view a fun j hj => ?_).trans (update_of_ne ?_ _ _)
        · have := ha (j + 1) (by rw [List.length_cons]; omega)
          omega
        · have := ha 0 (by rw [List.length_cons]; omega)
          omega
      · rw [List.append_assoc, List.singleton_append] at hs
        rw [List.mapIdx_cons]
        simpa only [Nat.add_zero, Nat.add_assoc, Nat.add_comm 1] using hs

/-! ## Commit and recovery -/

/-- The log on disk as a redo log: the header block, then `size - 1` blocks. -/
def Log.layout (L : Log) : Redo.Layout Nat Block where
  head := L.start
  slot k := L.start + k + 1
  cap := L.size - 1
  decode := headEntries
  slot_inj j k h := by omega
  slot_ne k := by omega

theorem Log.layout_home (h : 0 < L.size) : L.layout.home b ↔ ¬ L.area b := by
  constructor
  · rintro ⟨hne, hslot⟩ ⟨h1, h2⟩
    change b ≠ L.start at hne
    exact hslot (b - L.start - 1) (by change _ < L.size - 1; omega)
      (by change b = L.start + (b - L.start - 1) + 1; omega)
  · intro hb
    refine ⟨?_, fun k hk => ?_⟩
    · rintro rfl
      exact hb ⟨Nat.le_refl _, by change L.start < L.start + L.size; omega⟩
    · rintro rfl
      change k < L.size - 1 at hk
      refine hb ⟨?_, ?_⟩
      · change L.start ≤ L.start + k + 1; omega
      · change L.start + k + 1 < L.start + L.size; omega

theorem installTrans_spec {v : Blocks} (hL : L.dev = D) (hfit : L.layout.Fits L.lh)
    (hst : ∀ a, (a ∈ L.lh ∨ ∃ m < L.n, a = L.start + m + 1) → a ∉ g.stuck)
    (hv : ∀ m < L.n, g.view (L.start + m + 1) = v m)
    (hE : ∀ ws, ws <+: L.lh.mapIdx (fun j b => (b, v j)) → ∀ e s, s.writes = W ++ ws → E e s) :
    Triple (At D p d0 g L W noHold) (installTrans p)
      (fun _ s => ∃ g', g.Installed g' L.lh ∧
        At D p d0 g' L (W ++ L.lh.mapIdx fun j b => (b, v j)) noHold s) E := by
  refine .bind_fact getLog_spec fun l hl => ?_
  subst hl
  have hloop := installTrans_loop (p := p) (E := E) (v := v) d0 hL l.lh 0 g W List.drop_zero
    hfit.nodup (fun b hb => ⟨hst b (.inl hb), fun m hm => (hfit.home b hb).2 m ?_⟩)
    (fun m hm => ⟨hst _ (.inr ⟨m, hm, rfl⟩), hv m hm⟩)
  · simp only [Nat.zero_add] at hloop
    exact hloop hE
  · exact Nat.lt_of_lt_of_le hm hfit.le

theorem writeLog_spec (hL : L.dev = D) (hfit : L.layout.Fits L.lh) (hst : g.stuck = [])
    (hE : ∀ ws, ws <+: L.lh.mapIdx (fun j b => (L.start + j + 1, g.view b)) →
      ∀ e s, s.writes = W ++ ws → E e s) :
    Triple (At D p d0 g L W noHold) (writeLog p)
      (fun _ s => ∃ g', g.Logged g' g.view L.start 0 L.lh ∧
        At D p d0 g' L (W ++ L.lh.mapIdx fun j b => (L.start + j + 1, g.view b)) noHold s) E := by
  refine .bind_fact getLog_spec fun l hl => ?_
  subst hl
  have hnot : ∀ a, a ∉ g.stuck := fun a => by rw [hst]; exact List.not_mem_nil
  have hloop := writeLog_loop (p := p) (E := E) (w := g.view) d0 hL l.lh 0 g W List.drop_zero
    (fun b hb => ⟨hnot b, rfl, fun m hm => (hfit.home b hb).2 m ?_⟩) (fun m _ => hnot _)
  · simp only [Nat.zero_add] at hloop
    exact hloop hE
  · exact Nat.lt_of_lt_of_le hm hfit.le

/-- The header blocks a commit writes: with the entries, and cleared. -/
def Log.headFull (L : Log) (g : Ghost) : Block := putHead (g.view L.start) L.lh

def Log.headClear (L : Log) (g : Ghost) : Block := putHead (L.headFull g) []

/-- The blocks `commit()` writes. -/
def Log.commitWrites (L : Log) (g : Ghost) : List (Nat × Block) :=
  L.layout.commit L.lh g.view (L.headFull g) (L.headClear g)

theorem mapIdx_getD {α : Type} (f : Nat → α) (bs : List Nat) :
    bs.mapIdx (fun j b => (b, f (bs.getD j 0))) = bs.map fun b => (b, f b) := by
  refine List.ext_getElem (by simp) fun k hk hk' => ?_
  have hlt : k < bs.length := by simpa using hk
  simp [List.getD_eq_getElem?_getD, List.getElem?_eq_getElem hlt]

theorem commit_spec (hL : L.dev = D) (hfit : L.layout.Fits L.lh) (hpins : ∀ a, a ∈ g.pins ↔ a ∈ L.lh)
    (hst : g.stuck = []) (hn : 0 < L.n) (hE : ∀ ws, ws <+: L.commitWrites g → ∀ e s, s.writes = W ++ ws → E e s) :
    Triple (At D p d0 g L W noHold) (commit p)
      (fun _ s => ∃ g', g'.pins = [] ∧ g'.stuck = [] ∧
        At D p d0 g' { L with lh := [] } (W ++ L.commitWrites g) noHold s) E := by
  refine .bind_fact getLog_spec fun l hl => ?_
  subst hl
  refine .ite (fun _ => ?_) fun h => absurd hn h
  have hhead : ∀ m, l.start ≠ l.start + m + 1 := fun m => by omega
  -- The four groups of writes, in order.
  obtain ⟨A, hA⟩ : ∃ A, A = l.lh.mapIdx fun j b => (l.start + j + 1, g.view b) := ⟨_, rfl⟩
  obtain ⟨I, hI⟩ : ∃ I, I = l.lh.map fun b => (b, g.view b) := ⟨_, rfl⟩
  have hT : l.commitWrites g = A ++ ((l.start, l.headFull g) :: (I ++ [(l.start, l.headClear g)])) := by
    rw [hA, hI, Log.commitWrites, Redo.Layout.commit, Redo.Layout.save, List.append_assoc]
    rfl
  rw [hT] at hE ⊢
  refine .bind_exists (writeLog_spec hL hfit hst fun ws hws => hE ws ?_) fun _ g1 hg1 => ?_
  · rw [← hA] at hws
    exact hws.trans (List.prefix_append _ _)
  rw [← hA]
  have hst1 : g1.stuck = [] := hg1.stuck.trans hst
  have hview1 : g1.view l.start = g.view l.start := hg1.view _ fun j _ => hhead _
  refine .bind (writeHead_spec hL (by rw [hst1]; exact List.not_mem_nil) ?_) fun _ => ?_
  · intro e s hs _
    exact hE A (List.prefix_append _ _) e s hs.writes
  rw [hview1]
  have hslots : ∀ m < l.n, (g1.putHead l).view (l.start + m + 1) = g.view (l.lh.getD m 0) := by
    intro m hm
    refine (update_of_ne (hhead m).symm _ _).trans ?_
    have := hg1.slots m (l.lh.getD m 0) (by
      rw [List.getD_eq_getElem?_getD, List.getElem?_eq_getElem hm]; rfl)
    rwa [Nat.zero_add] at this
  refine .bind_exists (installTrans_spec hL hfit ?_ hslots ?_) fun _ g3 hg3 => ?_
  · intro a _
    change a ∉ g1.stuck
    rw [hst1]
    exact List.not_mem_nil
  · intro ws hws e s hs
    rw [mapIdx_getD, ← hI] at hws
    refine hE (A ++ (l.start, l.headFull g) :: ws) ?_ e s (by rw [hs]; simp [Log.headFull])
    exact (List.prefix_append_right_inj _).mpr ((List.prefix_cons_inj _).mpr
      (hws.trans (List.prefix_append _ _)))
  rw [mapIdx_getD, ← hI]
  have hst3 : g3.stuck = [] := (hg3.unstuck fun b hb => by
    change b ∈ g1.pins
    rw [hg1.pins]
    exact (hpins b).mpr hb).trans hst1
  have hpins3 : g3.pins = [] := by
    refine List.eq_nil_iff_forall_not_mem.mpr fun a ha => ?_
    obtain ⟨ha, hna⟩ := (hg3.pins a).mp ha
    exact hna ((hpins a).mp (hg1.pins ▸ ha))
  have hview3 : g3.view l.start = l.headFull g := by
    have hstart : l.start ∉ l.lh := fun hm => (hfit.home _ hm).1 rfl
    rw [hg3.view _ hstart, Ghost.putHead, hview1]
    exact update_self ..
  refine .bind clearLog_spec fun _ => ?_
  refine (writeHead_spec (L := { l with lh := [] }) hL (by rw [hst3]; exact List.not_mem_nil) ?_).imp
    (fun _ h => h) (fun _ s h => ?_) fun _ _ h => h
  · intro e s hs _
    refine hE (A ++ (l.start, l.headFull g) :: I) ?_ e s (by rw [hs.writes]; simp [Log.headFull])
    exact (List.prefix_append_right_inj _).mpr ((List.prefix_cons_inj _).mpr (List.prefix_append _ _))
  · refine ⟨g3.putHead { l with lh := [] }, hpins3, hst3, ?_⟩
    rw [hview3] at h
    simpa [Log.headFull, Log.headClear] using h

theorem commit_full (hL : L.dev = D) (hslot : L.start + 1 ∉ g.pins) (hst : g.stuck = [])
    (hnd : g.pins.Nodup) (hfull : NBUF ≤ g.pins.length) (hn : 0 < L.n) :
    Triple (At D p d0 g L W noHold) (commit p) (fun _ _ => False) (fun _ s => s.writes = W) := by
  refine .read getLog_spec ?_
  refine .ite (fun _ => ?_) fun h => absurd hn h
  refine .bind (Q := fun _ _ => False) ?_ fun _ s hs => hs.elim
  refine .bind_fact getLog_spec fun l' hl => ?_
  subst hl
  obtain ⟨m, hm⟩ : ∃ m, l'.n = m + 1 := ⟨l'.n - 1, by omega⟩
  rw [hm, Hoare.loop]
  refine .bind (Q := fun _ _ => False) ?_ fun _ s hs => hs.elim
  subst hL
  refine (.bind (Q := fun _ _ => False) ?_ fun _ s hs => hs.elim)
  refine (bread_spec (fun _ _ h => by cases h) (by rw [hst]; exact List.not_mem_nil)
    fun _ _ h => by cases h).imp (fun _ h => h) (fun i s h => ?_) fun _ s h => h.1.writes
  obtain ⟨x, -, -, hxb, -, hs⟩ := h
  have hbuf := (hs.held i x (update_self ..)).1
  have := (hs.inv.card_pins hnd).2 i (by rw [hbuf, hxb]; exact hslot)
  omega

/-- The blocks recovery writes when the home blocks on disk and in the log are `d`. -/
def Log.recoveryWrites (L : Log) (d : Blocks) : List (Nat × Block) :=
  L.layout.replay d (headEntries (d L.start)) (putHead (d L.start) [])

theorem recoverFromLog_spec (d0 : Blocks) (hL : L.dev = D) (hfit : L.layout.Fits (headEntries (g.view L.start)))
    (hst : g.stuck = []) (hE : ∀ ws, ws <+: L.recoveryWrites g.view → ∀ e s, s.writes = W ++ ws → E e s) :
    Triple (At D p d0 g L W noHold) (recoverFromLog p)
      (fun _ s => s.writes = W ++ L.recoveryWrites g.view ∧
        s.disk = Redo.apply d0 (W ++ L.recoveryWrites g.view)) E := by
  obtain ⟨L1, hL1⟩ : ∃ L1 : Log, L1 = { L with lh := headEntries (g.view L.start) } := ⟨_, rfl⟩
  have hT : L.recoveryWrites g.view =
      (L1.lh.mapIdx fun j b => (b, g.view (L.start + j + 1))) ++
        [(L.start, putHead (g.view L.start) [])] := by
    rw [hL1]; rfl
  rw [hT] at hE ⊢
  have hfit1 : L1.layout.Fits L1.lh := by rw [hL1]; exact hfit
  have hnot : ∀ a, a ∉ g.stuck := fun a => by rw [hst]; exact List.not_mem_nil
  refine .bind (readHead_spec hL (hnot _) ?_) fun _ => ?_
  · intro e s hs _
    exact hE [] List.nil_prefix e s (by rw [List.append_nil]; exact hs.writes)
  rw [← hL1]
  refine .bind_exists (installTrans_spec (by rw [hL1]; exact hL) hfit1
    (fun a _ => hnot a) (fun m _ => by rw [hL1]) ?_) fun _ g' hg' => ?_
  · intro ws hws
    exact hE ws (hws.trans (List.prefix_append _ _))
  have hstart : L.start ∉ L1.lh := fun hm => (hfit1.home _ hm).1 (by rw [hL1]; rfl)
  have hview : g'.view L.start = g.view L.start := hg'.view _ hstart
  refine .bind clearLog_spec fun _ => ?_
  have hL1' : { L1 with lh := [] } = { L with lh := [] } := by rw [hL1]
  rw [hL1']
  refine (writeHead_spec (L := { L with lh := [] }) hL
    (fun hm => (hg'.stuck _ hm).elim (hnot _) hstart) ?_).imp (fun _ h => h) (fun _ s h => ?_)
    fun _ _ h => h
  · intro e s hs _
    exact hE _ (List.prefix_append _ _) e s hs.writes
  · rw [← List.append_assoc, ← hview]
    exact ⟨h.writes, h.disk⟩

end Xv6

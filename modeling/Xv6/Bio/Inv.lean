import Xv6.Bio.Cache
import Mathlib.Data.Finset.Card
import Mathlib.Data.Fintype.Card

/-!
# What the buffer cache keeps

`CacheInv D c disk g` relates the cache and the disk to a ghost account `g` of how buffers are used:
how many processes have a reference to a buffer without holding its lock, which blocks the log has
pinned, what each block is meant to contain, and which buffers have been changed by their holder and
not yet logged or written. It says that buffers are unique, that `refcnt` is the number of references,
that a buffer holds what its block is meant to contain, and so does the disk for every block that is
not pinned.

`stuck` lists the blocks whose buffers have lost a reference they never had, which is what recovery does
to the blocks it installs. The count of such a buffer is one too low, modulo `2 ^ 32`.
-/

namespace Xv6

open Function (update_of_ne update_self)

variable {x : Buf}

/-- The ghost account of the cache. -/
structure Ghost where
  wait : Fin NBUF → Nat := fun _ => 0
  pins : List Nat := []
  stuck : List Nat := []
  view : Blocks
  dirty : Fin NBUF → Bool := fun _ => false

def Buf.holders (x : Buf) : Nat := if x.lock.isSome then 1 else 0

/-- The log's reference to a buffer. -/
def Ghost.pin (g : Ghost) (D : Nat) (x : Buf) : Nat := if x.dev = D ∧ x.blockno ∈ g.pins then 1 else 0

/-- The reference missing from the count of a stuck buffer. -/
def Ghost.lost (g : Ghost) (D : Nat) (x : Buf) : Nat := if x.dev = D ∧ x.blockno ∈ g.stuck then 1 else 0

/-- The references to buffer `i`: processes that wait for it, its holder and the log. -/
def Ghost.refs (g : Ghost) (D : Nat) (i : Fin NBUF) (x : Buf) : Nat := g.wait i + x.holders + g.pin D x

/-- What holds of buffer `i` with contents `x`. -/
structure BufInv (D : Nat) (g : Ghost) (i : Fin NBUF) (x : Buf) : Prop where
  lt : x.refcnt < 2 ^ 32
  count : (x.refcnt + g.lost D x) % 2 ^ 32 = g.refs D i x
  data : x.dev = D → x.valid = true → g.dirty i = false → x.data = g.view x.blockno
  held : x.lock.isSome → x.dev = D
  wait : 0 < g.wait i → x.dev = D
  dirty : g.dirty i = true → x.lock.isSome ∧ x.valid = true

structure CacheInv (D : Nat) (c : Bcache) (disk : Blocks) (g : Ghost) : Prop where
  nodup : c.lru.Nodup
  all : ∀ i, i ∈ c.lru
  key : ∀ i j, (c.buf i).dev = D → (c.buf j).dev = D → (c.buf i).blockno = (c.buf j).blockno → i = j
  each : ∀ i, BufInv D g i (c.buf i)
  pinned : ∀ b ∈ g.pins, ∃ i, (c.buf i).dev = D ∧ (c.buf i).blockno = b ∧ (c.buf i).valid = true
  clean : ∀ b, b ∉ g.pins → disk b = g.view b

theorem Buf.holders_le (x : Buf) : x.holders ≤ 1 := by
  unfold Buf.holders
  split_ifs <;> omega

theorem Buf.holders_none (h : x.lock = none) : x.holders = 0 := by simp [Buf.holders, h]

theorem Buf.holders_some {p : Nat} (h : x.lock = some p) : x.holders = 1 := by
  simp [Buf.holders, h]

namespace Ghost

variable {g : Ghost} {D : Nat} {x y : Buf}
variable {b n r : Nat} {w : Bool}

theorem pin_le : g.pin D x ≤ 1 := by
  unfold pin
  split_ifs <;> omega

theorem pin_of_mem (hd : x.dev = D) (hb : x.blockno ∈ g.pins) : g.pin D x = 1 := if_pos ⟨hd, hb⟩

theorem pin_of_not_mem (h : x.blockno ∉ g.pins) : g.pin D x = 0 := if_neg fun hx => h hx.2

theorem lost_of_not_mem (h : x.blockno ∉ g.stuck) : g.lost D x = 0 := if_neg fun hx => h hx.2

theorem lost_of_mem (hd : x.dev = D) (hb : x.blockno ∈ g.stuck) : g.lost D x = 1 := if_pos ⟨hd, hb⟩

end Ghost

variable {D : Nat} {c : Bcache} {disk disk' : Blocks} {g g' : Ghost} {i j : Fin NBUF}

theorem BufInv.congr (h : BufInv D g i x) (hw : g'.wait i = g.wait i)
    (hd : g'.dirty i = g.dirty i) (hp : x.dev = D → (x.blockno ∈ g'.pins ↔ x.blockno ∈ g.pins))
    (hs : x.dev = D → (x.blockno ∈ g'.stuck ↔ x.blockno ∈ g.stuck))
    (hv : x.dev = D → g'.view x.blockno = g.view x.blockno) : BufInv D g' i x := by
  have hpin : g'.pin D x = g.pin D x := if_congr (and_congr_right hp) rfl rfl
  have hlost : g'.lost D x = g.lost D x := if_congr (and_congr_right hs) rfl rfl
  refine ⟨h.lt, ?_, fun hdev hval hdirty => ?_, h.held, ?_, ?_⟩
  · rw [hlost, Ghost.refs, hw, hpin]
    exact h.count
  · rw [hv hdev]
    exact h.data hdev hval (hd ▸ hdirty)
  · rw [hw]; exact h.wait
  · rw [hd]; exact h.dirty

theorem CacheInv.update (h : CacheInv D c disk g) {lru : List (Fin NBUF)} (hnodup : lru.Nodup) (hall : ∀ j, j ∈ lru)
    (hdev : x.dev = (c.buf i).dev) (hblk : x.blockno = (c.buf i).blockno) (hi : BufInv D g' i x)
    (hother : ∀ j, j ≠ i → BufInv D g' j (c.buf j))
    (hpins : ∀ b ∈ g'.pins, b ∈ g.pins ∨ (x.dev = D ∧ x.blockno = b ∧ x.valid = true))
    (hvalid : (c.buf i).valid = true → x.valid = true) (hclean : ∀ b, b ∉ g'.pins → disk' b = g'.view b) :
    CacheInv D ⟨Function.update c.buf i x, lru, w⟩ disk' g' := by
  have hkey : ∀ j, (Function.update c.buf i x j).dev = (c.buf j).dev ∧
      (Function.update c.buf i x j).blockno = (c.buf j).blockno := by
    intro j
    by_cases hj : j = i
    · subst hj; rw [update_self]; exact ⟨hdev, hblk⟩
    · rw [update_of_ne hj]; exact ⟨rfl, rfl⟩
  refine ⟨hnodup, hall, fun j k hj hk hb => ?_, fun j => ?_, fun b hb => ?_, hclean⟩
  · simp only [hkey] at hj hk hb
    exact h.key j k hj hk hb
  · by_cases hj : j = i
    · subst hj; simpa using hi
    · simpa [update_of_ne hj] using hother j hj
  · rcases hpins b hb with hb | hb
    · obtain ⟨j, hj1, hj2, hj3⟩ := h.pinned b hb
      refine ⟨j, (hkey j).1.trans hj1, (hkey j).2.trans hj2, ?_⟩
      by_cases hj : j = i
      · subst hj; simpa using hvalid hj3
      · simpa [update_of_ne hj] using hj3
    · exact ⟨i, by simpa using hb.1, by simpa using hb.2.1, by simpa using hb.2.2⟩

/-- The ghost account with `n` processes waiting for buffer `i`. -/
def Ghost.setWait (g : Ghost) (i : Fin NBUF) (n : Nat) : Ghost :=
  { g with wait := Function.update g.wait i n }

def Ghost.setDirty (g : Ghost) (i : Fin NBUF) (d : Bool) : Ghost :=
  { g with dirty := Function.update g.dirty i d }

theorem Ghost.refs_setWait (n : Nat) (x : Buf) : (g.setWait i n).refs D i x = n + x.holders + g.pin D x :=
  congrArg (· + _ + _) (update_self ..)

theorem BufInv.setWait_of_ne (h : BufInv D g j x) (hj : j ≠ i) : BufInv D (g.setWait i n) j x :=
  h.congr (update_of_ne hj _ _) rfl (fun _ => Iff.rfl) (fun _ => Iff.rfl) fun _ => rfl

theorem BufInv.setDirty_of_ne {d : Bool} (h : BufInv D g j x) (hj : j ≠ i) : BufInv D (g.setDirty i d) j x :=
  h.congr rfl (update_of_ne hj _ _) (fun _ => Iff.rfl) (fun _ => Iff.rfl) fun _ => rfl

theorem incr_count {l : Nat} (h : (r + l) % 2 ^ 32 = n) (hn : n + 1 < 2 ^ 32) :
    (incr r + l) % 2 ^ 32 = n + 1 := by
  unfold incr
  omega

theorem decr_count {l : Nat} (h : (r + l) % 2 ^ 32 = n + 1) : (decr r + l) % 2 ^ 32 = n := by
  unfold decr
  omega

theorem incr_lt (r : Nat) : incr r < 2 ^ 32 := Nat.mod_lt _ (by decide)

theorem decr_lt (r : Nat) : decr r < 2 ^ 32 := Nat.mod_lt _ (by decide)

-- The new count is a variable here, so that no proof has to tell two counts apart by computing them.
theorem BufInv.recount (h : BufInv D g i x) (g' : Ghost) (hdev : x.dev = D) (hdirty : g'.dirty = g.dirty)
    (hview : g'.view = g.view) (hr : r < 2 ^ 32) (hcount : (r + g'.lost D x) % 2 ^ 32 = g'.refs D i x) :
    BufInv D g' i { x with refcnt := r } :=
  ⟨hr, hcount, by rw [hdirty, hview]; exact h.data, h.held, fun _ => hdev, by rw [hdirty]; exact h.dirty⟩

/-! ## `bget` -/

theorem key_of_cached {dev : Nat} (h : c.cached dev b = some i) :
    (c.buf i).dev = dev ∧ (c.buf i).blockno = b := by
  have := List.find?_some h
  simpa using this

theorem not_cached {dev : Nat} (hall : ∀ i, i ∈ c.lru) (h : c.cached dev b = none) (j : Fin NBUF) :
    ¬ ((c.buf j).dev = dev ∧ (c.buf j).blockno = b) := by
  have := List.find?_eq_none.mp h j (hall j)
  simpa using this

theorem refcnt_of_unused (h : c.unused = some i) : (c.buf i).refcnt = 0 := by
  have := List.find?_some h
  simpa using this

theorem refcnt_ne_zero_of_unused (hall : ∀ i, i ∈ c.lru) (h : c.unused = none) (j : Fin NBUF) :
    (c.buf j).refcnt ≠ 0 := by
  have := List.find?_eq_none.mp h j (List.mem_reverse.mpr (hall j))
  simpa using this

/-- No stuck buffer is in use. -/
def Ghost.Idle (g : Ghost) (D : Nat) (c : Bcache) : Prop :=
  ∀ i, (c.buf i).dev = D → (c.buf i).blockno ∈ g.stuck → g.refs D i (c.buf i) = 0

theorem BufInv.unused (h : BufInv D g i (c.buf i)) (hidle : g.Idle D c) (h0 : (c.buf i).refcnt = 0) :
    g.refs D i (c.buf i) = 0 := by
  by_cases hs : (c.buf i).dev = D ∧ (c.buf i).blockno ∈ g.stuck
  · exact hidle i hs.1 hs.2
  · have hcount := h.count
    rw [h0, Ghost.lost, if_neg hs] at hcount
    exact hcount.symm

theorem BufInv.refcnt_pos (h : BufInv D g i x) (hst : x.blockno ∉ g.stuck) (hrefs : 0 < g.refs D i x) :
    0 < x.refcnt := by
  have hcount := h.count
  rw [Ghost.lost_of_not_mem hst] at hcount
  omega

theorem lock_of_holders (h : x.holders = 0) : x.lock = none := by
  cases hl : x.lock with
  | none => rfl
  | some p => simp [Buf.holders_some hl] at h

theorem CacheInv.hit (h : CacheInv D c disk g) (hc : c.cached D b = some i) (hw : g.wait i + 3 < 2 ^ 32) :
    CacheInv D (c.set i { c.buf i with refcnt := incr (c.buf i).refcnt }) disk
      (g.setWait i (g.wait i + 1)) := by
  obtain ⟨hdev, hblk⟩ := key_of_cached hc
  have hi := h.each i
  have h1 := (c.buf i).holders_le
  have h2 : g.pin D (c.buf i) ≤ 1 := Ghost.pin_le
  have hcount := hi.count
  rw [Ghost.refs] at hcount
  have hi' := hi.recount (g.setWait i (g.wait i + 1)) hdev rfl rfl (incr_lt _)
    ((incr_count hcount (by omega)).trans (by rw [Ghost.refs_setWait]; omega))
  exact h.update h.nodup h.all rfl rfl hi' (fun j hj => (h.each j).setWait_of_ne hj)
    (fun b hb => .inl hb) (fun hv => hv) h.clean

theorem CacheInv.recycle (h : CacheInv D c disk g) (hc : c.cached D b = none) (hu : c.unused = some i)
    (hst : b ∉ g.stuck) (hidle : g.Idle D c) (hdev : x.dev = D) (hblk : x.blockno = b) (hvalid : x.valid = false)
    (hcnt : x.refcnt = 1) (hlk : x.lock = (c.buf i).lock) : CacheInv D (c.set i x) disk (g.setWait i 1) := by
  have hnone := not_cached h.all hc
  have hrefs := (h.each i).unused hidle (refcnt_of_unused hu)
  have hlock : (c.buf i).lock = none := lock_of_holders (by unfold Ghost.refs at hrefs; omega)
  have hbpin : b ∉ g.pins := by
    intro hb
    obtain ⟨j, hj1, hj2, -⟩ := h.pinned b hb
    exact hnone j ⟨hj1, hj2⟩
  have hdirty : g.dirty i = false := by
    by_contra hd
    rw [Bool.not_eq_false] at hd
    have := ((h.each i).dirty hd).1
    simp [hlock] at this
  have hother : ∀ j, j ≠ i → (c.set i x).buf j = c.buf j := fun j hj => update_of_ne hj _ _
  have hself : (c.set i x).buf i = x := update_self ..
  refine ⟨h.nodup, h.all, fun j k hj hk hb => ?_, fun j => ?_, fun b' hb' => ?_, h.clean⟩
  · by_cases hji : j = i <;> by_cases hki : k = i
    · rw [hji, hki]
    · rw [hji, hself, hblk, hother k hki] at hb
      rw [hother k hki] at hk
      exact absurd ⟨hk, hb.symm⟩ (hnone k)
    · rw [hki, hself, hblk, hother j hji] at hb
      rw [hother j hji] at hj
      exact absurd ⟨hj, hb⟩ (hnone j)
    · rw [hother j hji] at hj hb
      rw [hother k hki] at hk hb
      exact h.key j k hj hk hb
  · by_cases hj : j = i
    · subst hj
      rw [hself]
      refine ⟨by rw [hcnt]; decide, ?_, fun _ hv _ => absurd (hvalid.symm.trans hv) Bool.false_ne_true,
        fun _ => hdev, fun _ => hdev, fun hd => absurd (hdirty.symm.trans hd) Bool.false_ne_true⟩
      rw [Ghost.refs_setWait, Ghost.pin_of_not_mem (hblk.symm ▸ hbpin),
        Buf.holders_none (hlk.trans hlock), hcnt]
      exact congrArg (fun n => (1 + n) % 2 ^ 32) (Ghost.lost_of_not_mem (hblk.symm ▸ hst))
    · rw [hother j hj]
      exact (h.each j).setWait_of_ne hj
  · obtain ⟨j, hj1, hj2, hj3⟩ := h.pinned b' hb'
    have hj : j ≠ i := by
      rintro rfl
      have := g.pin_of_mem hj1 (hj2 ▸ hb')
      unfold Ghost.refs at hrefs
      omega
    exact ⟨j, by rw [hother j hj]; exact hj1, by rw [hother j hj]; exact hj2,
      by rw [hother j hj]; exact hj3⟩

/-! ## The other operations on a buffer -/

theorem CacheInv.acquire (h : CacheInv D c disk g) (p : Nat) (hl : (c.buf i).lock = none) (hw : 0 < g.wait i) :
    CacheInv D (c.set i { c.buf i with lock := some p }) disk (g.setWait i (g.wait i - 1)) := by
  have hi := h.each i
  refine h.update h.nodup h.all rfl rfl ⟨hi.lt, ?_, hi.data, fun _ => hi.wait hw, fun _ => hi.wait hw,
    fun hd => ?_⟩ (fun j hj => (h.each j).setWait_of_ne hj) (fun b hb => .inl hb) (fun hv => hv)
    h.clean
  · have hcount := hi.count
    rw [Ghost.refs, Buf.holders_none hl] at hcount
    rw [Ghost.refs_setWait, Buf.holders_some rfl]
    refine hcount.trans ?_
    change _ = g.wait i - 1 + 1 + g.pin D (c.buf i)
    omega
  · have := (hi.dirty hd).1
    simp [hl] at this

theorem CacheInv.fill (h : CacheInv D c disk g) (hl : (c.buf i).lock.isSome) (hv : (c.buf i).valid = false) :
    CacheInv D (c.set i { c.buf i with data := disk (c.buf i).blockno, valid := true }) disk g := by
  have hi := h.each i
  have hdev := hi.held hl
  have hpin : (c.buf i).blockno ∉ g.pins := by
    intro hb
    obtain ⟨j, hj1, hj2, hj3⟩ := h.pinned _ hb
    simp [h.key j i hj1 hdev hj2, hv] at hj3
  exact h.update h.nodup h.all rfl rfl ⟨hi.lt, hi.count, fun _ _ _ => h.clean _ hpin, hi.held, hi.wait,
    fun hd => ⟨hl, rfl⟩⟩ (fun j _ => h.each j) (fun b hb => .inl hb) (fun _ => rfl) h.clean

theorem CacheInv.modify (h : CacheInv D c disk g) (d : Block) (hl : (c.buf i).lock.isSome)
    (hv : (c.buf i).valid = true) :
    CacheInv D (c.set i { c.buf i with data := d }) disk (g.setDirty i true) := by
  have hi := h.each i
  refine h.update h.nodup h.all rfl rfl ⟨hi.lt, hi.count, fun _ _ hd => ?_, hi.held, hi.wait,
    fun _ => ⟨hl, hv⟩⟩ (fun j hj => (h.each j).setDirty_of_ne hj) (fun b hb => .inl hb)
    (fun hv => hv) h.clean
  have hself : (g.setDirty i true).dirty i = true := update_self ..
  exact absurd (hself.symm.trans hd) Bool.noConfusion

theorem CacheInv.unlock (h : CacheInv D c disk g) (hl : (c.buf i).lock.isSome) (hd : g.dirty i = false) :
    CacheInv D (c.set i { c.buf i with lock := none }) disk (g.setWait i (g.wait i + 1)) := by
  have hi := h.each i
  obtain ⟨p, hp⟩ := Option.isSome_iff_exists.mp hl
  refine h.update h.nodup h.all rfl rfl ⟨hi.lt, ?_, hi.data, fun hs => absurd hs Bool.false_ne_true,
    fun _ => hi.held hl, fun hd' => absurd (hd.symm.trans hd') Bool.false_ne_true⟩
    (fun j hj => (h.each j).setWait_of_ne hj) (fun b hb => .inl hb) (fun hv => hv) h.clean
  have hcount := hi.count
  rw [Ghost.refs, Buf.holders_some hp] at hcount
  rw [Ghost.refs_setWait, Buf.holders_none rfl]
  exact hcount.trans rfl

theorem CacheInv.unref (h : CacheInv D c disk g) {lru : List (Fin NBUF)}
    (hlru : lru.Perm c.lru) (hw : 0 < g.wait i) :
    CacheInv D ⟨(c.unref i).buf, lru, w⟩ disk (g.setWait i (g.wait i - 1)) := by
  have hi := h.each i
  have hcount := hi.count
  rw [Ghost.refs] at hcount
  have hi' := hi.recount (g.setWait i (g.wait i - 1)) (hi.wait hw) rfl rfl (decr_lt _)
    (decr_count (hcount.trans (by rw [Ghost.refs_setWait]; omega)))
  exact h.update (hlru.nodup_iff.mpr h.nodup) (fun j => hlru.mem_iff.mpr (h.all j)) rfl rfl hi'
    (fun j hj => (h.each j).setWait_of_ne hj) (fun b hb => .inl hb) (fun hv => hv) h.clean

/-! ## Logging and installing a block -/

/-- The account after `log_write` on buffer `i`, whose block is `b`, with data `d`. -/
def Ghost.record (g : Ghost) (i : Fin NBUF) (b : Nat) (d : Block) (pins : List Nat) : Ghost :=
  { g with view := Function.update g.view b d, dirty := Function.update g.dirty i false, pins }

theorem CacheInv.blockno_ne (h : CacheInv D c disk g) (hi : (c.buf i).dev = D) (hj : (c.buf j).dev = D)
    (hne : j ≠ i) : (c.buf j).blockno ≠ (c.buf i).blockno := fun hb => hne (h.key j i hj hi hb)

theorem CacheInv.record (h : CacheInv D c disk g) (pins : List Nat) (hl : (c.buf i).lock.isSome)
    (hv : (c.buf i).valid = true) (hb : (c.buf i).blockno = b) (hpins : ∀ a, a ∈ pins ↔ a = b ∨ a ∈ g.pins)
    (hr : r < 2 ^ 32) (hcount : (r + g.lost D (c.buf i)) % 2 ^ 32 = g.wait i + (c.buf i).holders + 1) :
    CacheInv D (c.set i { c.buf i with refcnt := r }) disk (g.record i b (c.buf i).data pins) := by
  have hi := h.each i
  have hdev := hi.held hl
  have hself : (g.record i b (c.buf i).data pins).dirty i = false := update_self ..
  refine h.update h.nodup h.all rfl rfl ⟨hr, ?_, fun _ _ _ => ?_, hi.held, hi.wait,
    fun hd => absurd (hself.symm.trans hd) Bool.noConfusion⟩ (fun j hj => ?_) (fun a ha => ?_)
    (fun hv => hv) fun a ha => ?_
  · have hpin : (g.record i b (c.buf i).data pins).pin D { c.buf i with refcnt := r } = 1 :=
      Ghost.pin_of_mem hdev ((hpins _).mpr (.inl hb))
    rw [Ghost.refs, hpin]
    exact hcount
  · change (c.buf i).data = Function.update g.view b (c.buf i).data (c.buf i).blockno
    rw [hb, update_self]
  · have hne : (c.buf j).dev = D → (c.buf j).blockno ≠ b := fun hdj =>
      hb ▸ h.blockno_ne hdev hdj hj
    refine (h.each j).congr rfl (update_of_ne hj _ _) (fun hdj => ?_) (fun _ => Iff.rfl)
      fun hdj => update_of_ne (hne hdj) _ _
    exact (hpins _).trans ⟨fun hc => hc.resolve_left (hne hdj), .inr⟩
  · rcases (hpins a).mp ha with rfl | ha
    · exact .inr ⟨hdev, hb, hv⟩
    · exact .inl ha
  · have ha' : a ≠ b ∧ a ∉ g.pins := not_or.mp fun hc => ha ((hpins a).mpr hc)
    exact (h.clean a ha'.2).trans (update_of_ne ha'.1 _ _).symm

theorem CacheInv.overwrite (h : CacheInv D c disk g) (d : Block) (hl : (c.buf i).lock.isSome)
    (hb : (c.buf i).blockno = b) (hd : g.dirty i = false) :
    CacheInv D (c.set i { c.buf i with data := d }) (Function.update disk b d)
      { g with view := Function.update g.view b d } := by
  have hi := h.each i
  have hdev := hi.held hl
  refine h.update h.nodup h.all rfl rfl ⟨hi.lt, hi.count, fun _ _ _ => ?_, hi.held, hi.wait,
    fun hd' => absurd (hd.symm.trans hd') Bool.noConfusion⟩ (fun j hj => ?_) (fun a ha => .inl ha)
    (fun hv => hv) fun a ha => ?_
  · change d = Function.update g.view b d (c.buf i).blockno
    rw [hb, update_self]
  · exact (h.each j).congr rfl rfl (fun _ => Iff.rfl) (fun _ => Iff.rfl) fun hdj =>
      update_of_ne (hb ▸ h.blockno_ne hdev hdj hj) _ _
  · by_cases hab : a = b
    · subst hab
      exact (update_self a d disk).trans (update_self a d g.view).symm
    · rw [update_of_ne hab]
      exact (h.clean a ha).trans (update_of_ne hab _ _).symm

theorem CacheInv.card_pins (h : CacheInv D c disk g) (hnd : g.pins.Nodup) : g.pins.length ≤ NBUF ∧
    ∀ i, (c.buf i).blockno ∉ g.pins → g.pins.length < NBUF := by
  obtain ⟨S, hS⟩ : ∃ S, S = Finset.univ.filter fun i => (c.buf i).blockno ∈ g.pins := ⟨_, rfl⟩
  have hsub : g.pins.toFinset ⊆ S.image fun i => (c.buf i).blockno := by
    intro b hb
    rw [List.mem_toFinset] at hb
    obtain ⟨i, -, hi, -⟩ := h.pinned b hb
    refine Finset.mem_image.mpr ⟨i, ?_, hi⟩
    rw [hS, Finset.mem_filter, hi]
    exact ⟨Finset.mem_univ i, hb⟩
  have hle : g.pins.length ≤ S.card := by
    rw [← List.toFinset_card_of_nodup hnd]
    exact (Finset.card_le_card hsub).trans Finset.card_image_le
  have hcard : (Finset.univ : Finset (Fin NBUF)).card = NBUF := Finset.card_fin NBUF
  refine ⟨hle.trans ((Finset.card_le_univ S).trans hcard.le), fun i hi => ?_⟩
  have hlt : S.card < (Finset.univ : Finset (Fin NBUF)).card := by
    refine Finset.card_lt_card (Finset.ssubset_univ_iff.mpr fun hu => ?_)
    have hmem : i ∈ S := by rw [hu]; exact Finset.mem_univ i
    rw [hS, Finset.mem_filter] at hmem
    exact hi hmem.2
  omega

/-- The account after `bunpin` on a buffer of block `b`: without a pin to drop, the buffer loses a
reference it needs. -/
def Ghost.unpin (g : Ghost) (b : Nat) : Ghost :=
  { g with
    pins := g.pins.filter (· ≠ b)
    stuck := if b ∈ g.pins then g.stuck else b :: g.stuck }

theorem Ghost.mem_unpin_pins {a : Nat} : a ∈ (g.unpin b).pins ↔ a ∈ g.pins ∧ a ≠ b := by
  simp [Ghost.unpin]

theorem Ghost.mem_unpin_stuck {a : Nat} (h : a ≠ b) : a ∈ (g.unpin b).stuck ↔ a ∈ g.stuck := by
  unfold Ghost.unpin
  split_ifs
  · rfl
  · rw [List.mem_cons, or_iff_right h]

theorem BufInv.unpin_count (h : BufInv D g i x) (hl : x.lock.isSome) (hb : x.blockno = b) (hst : b ∉ g.stuck) :
    (decr x.refcnt + (g.unpin b).lost D x) % 2 ^ 32 = (g.unpin b).refs D i x := by
  have hdev := h.held hl
  obtain ⟨p, hp⟩ := Option.isSome_iff_exists.mp hl
  have hcount := h.count
  have hpin : (g.unpin b).pin D x = 0 :=
    Ghost.pin_of_not_mem fun hm => (Ghost.mem_unpin_pins.mp hm).2 hb
  rw [Ghost.lost_of_not_mem (hb ▸ hst), Ghost.refs, Buf.holders_some hp] at hcount
  rw [Ghost.refs, hpin, Buf.holders_some hp]
  by_cases hpinned : b ∈ g.pins
  · have hlost : (g.unpin b).lost D x = 0 :=
      Ghost.lost_of_not_mem (by rw [hb, Ghost.unpin, if_pos hpinned]; exact hst)
    rw [Ghost.pin_of_mem hdev (hb ▸ hpinned)] at hcount
    rw [hlost]
    exact decr_count hcount
  · have hlost : (g.unpin b).lost D x = 1 :=
      Ghost.lost_of_mem hdev (by rw [hb, Ghost.unpin, if_neg hpinned]; exact List.mem_cons_self)
    rw [Ghost.pin_of_not_mem (hb ▸ hpinned)] at hcount
    rw [hlost]
    change (decr x.refcnt + 1) % 2 ^ 32 = g.wait i + 1 + 0
    unfold decr
    omega

theorem CacheInv.unpin (h : CacheInv D c disk g) (hl : (c.buf i).lock.isSome)
    (hb : (c.buf i).blockno = b) (hst : b ∉ g.stuck) (hdisk : disk b = g.view b) :
    CacheInv D ⟨(c.unref i).buf, c.lru, w⟩ disk (g.unpin b) := by
  have hdev := (h.each i).held hl
  have hi' := (h.each i).recount (g.unpin b) hdev rfl rfl (decr_lt _) ((h.each i).unpin_count hl hb hst)
  refine h.update h.nodup h.all rfl rfl hi' (fun j hj => ?_)
    (fun a ha => .inl (Ghost.mem_unpin_pins.mp ha).1) (fun hv => hv) fun a ha => ?_
  · have hne : (c.buf j).dev = D → (c.buf j).blockno ≠ b := fun hdj => hb ▸ h.blockno_ne hdev hdj hj
    refine (h.each j).congr rfl rfl (fun hdj => ?_) (fun hdj => Ghost.mem_unpin_stuck (hne hdj))
      fun _ => rfl
    rw [Ghost.mem_unpin_pins, and_iff_left (hne hdj)]
  · by_cases hab : a = b
    · subst hab; exact hdisk
    · exact h.clean a fun hm => ha (Ghost.mem_unpin_pins.mpr ⟨hm, hab⟩)

end Xv6

import Xv6.Log.Commit

/-!
# Boot

`binit` followed by `initlog` on a disk. The cache is empty then, so a process on its own can run
(`At`), and if the header on disk has no entries, `initlog` returns with every buffer free.
-/

namespace Xv6

open Hoare (Triple)

/-- The kernel before `initlog`: an empty cache, and a log that is all zeros. -/
def boot (d : Blocks) : Kernel :=
  { bcache := binit, disk := d, log := { start := 0, size := 0, dev := 0 } }

/-- The log `initlog` sets up. -/
def bootLog (sb : Superblock) : Log := { start := sb.logstart, size := sb.nlog, dev := ROOTDEV }

variable {p : Nat} {d : Blocks} {sb : Superblock} {E : Halt → Kernel → Prop}

theorem cacheInv_binit (hD : ROOTDEV ≠ 0) : CacheInv ROOTDEV binit d { view := d } where
  nodup := List.nodup_reverse.mpr (List.nodup_finRange NBUF)
  all i := List.mem_reverse.mpr (List.mem_finRange i)
  key i j hi := absurd hi.symm hD
  each i := {
    lt := Nat.two_pow_pos 32
    count := by
      rw [Ghost.refs, Ghost.lost_of_not_mem List.not_mem_nil, Ghost.pin_of_not_mem List.not_mem_nil,
        Buf.holders_none rfl]
      rfl
    data := fun hdev => absurd hdev.symm hD
    held := fun h => absurd h Bool.false_ne_true
    wait := fun h => absurd h (Nat.lt_irrefl 0)
    dirty := fun h => absurd h Bool.false_ne_true }
  pinned b hb := by cases hb
  clean b _ := rfl

theorem at_boot : At ROOTDEV p d { view := d } (boot d).log [] noHold (boot d) where
  inv := cacheInv_binit (by decide)
  log := rfl
  writes := rfl
  disk := rfl
  held i x h := by cases h
  free i _ := rfl
  calm i := ⟨rfl, rfl⟩
  apart b hb := by cases hb
  safe _ := rfl
  lost b hb := by cases hb

theorem initlog_eq : initlog p ROOTDEV sb (boot d) = recoverFromLog p { boot d with log := bootLog sb } := by
  rw [initlog, if_neg (by decide)]
  rfl

theorem at_initlog : At ROOTDEV p d { view := d } (bootLog sb) [] noHold { boot d with log := bootLog sb } :=
  setLog_spec (E := fun _ _ => False) (bootLog sb) (boot d) at_boot

theorem initlog_outcome (hfit : (bootLog sb).layout.Fits (headEntries (d sb.logstart))) :
    Hoare.Outcome
      (fun _ k => k.writes = (bootLog sb).recoveryWrites d ∧
        k.disk = Redo.apply d ((bootLog sb).recoveryWrites d))
      (fun _ k => k.writes <+: (bootLog sb).recoveryWrites d) (initlog p ROOTDEV sb (boot d)) := by
  have hrec := recoverFromLog_spec (p := p) (D := ROOTDEV) (g := { view := d }) (L := bootLog sb)
    (W := []) (E := fun _ k => k.writes <+: (bootLog sb).recoveryWrites d) d rfl hfit rfl
    fun ws hws e s hs => by rw [hs]; exact hws
  rw [initlog_eq]
  exact hrec _ at_initlog

section Free

variable {D : Nat} {g : Ghost} {L : Log} {W : List (Nat × Block)} {hold : Fin NBUF → Option Buf} {s : Kernel}

theorem At.free_refcnt (h : At D p d g L W hold s) (hp : g.pins = []) (hst : g.stuck = []) {i : Fin NBUF}
    (hi : hold i = none) : (s.bcache.buf i).refcnt = 0 := by
  have hcount := (h.inv.each i).count
  have hlt := (h.inv.each i).lt
  rw [Ghost.lost_of_not_mem (by rw [hst]; exact List.not_mem_nil), Ghost.refs, (h.calm i).1,
    Buf.holders_none (h.free i hi), Ghost.pin_of_not_mem (by rw [hp]; exact List.not_mem_nil)] at hcount
  omega

theorem At.has_unused (h : At D p d g L W hold s) (hone : HoldsOne hold) (hp : g.pins = []) (hst : g.stuck = []) :
    s.bcache.unused ≠ none := by
  intro hu
  have hfree : ∀ i, hold i ≠ none := fun i hi =>
    refcnt_ne_zero_of_unused h.inv.all hu i (h.free_refcnt hp hst hi)
  obtain ⟨x, hx⟩ := Option.ne_none_iff_exists'.mp (hfree ⟨0, by decide⟩)
  obtain ⟨y, hy⟩ := Option.ne_none_iff_exists'.mp (hfree ⟨1, by decide⟩)
  exact absurd (hone _ _ x y hx hy) (by decide)

end Free

theorem initlog_empty (hempty : headEntries (d sb.logstart) = []) :
    ∃ k, initlog p ROOTDEV sb (boot d) = .ok () k ∧
      At ROOTDEV p d (Ghost.putHead { view := d } (bootLog sb)) (bootLog sb)
        [(sb.logstart, putHead (d sb.logstart) [])] noHold k := by
  have hE : ∀ (W : List (Nat × Block)) (L : Log) e s, At ROOTDEV p d { view := d } L W noHold s →
      s.bcache.unused = none → (fun _ _ => False : Halt → Kernel → Prop) e s :=
    fun W L e s hs hu => hs.has_unused holdsOne_noHold rfl rfl hu
  have htriple : Triple (At ROOTDEV p d { view := d } (bootLog sb) [] noHold) (recoverFromLog p)
      (fun _ => At ROOTDEV p d (Ghost.putHead { view := d } (bootLog sb)) (bootLog sb)
        [(sb.logstart, putHead (d sb.logstart) [])] noHold) fun _ _ => False := by
    refine .bind (readHead_spec rfl List.not_mem_nil (hE _ _)) fun _ => ?_
    rw [show ({ bootLog sb with lh := headEntries (d (bootLog sb).start) } : Log) = bootLog sb by
      rw [show headEntries (d (bootLog sb).start) = [] from hempty]; rfl]
    refine .bind (Q := fun _ => At ROOTDEV p d { view := d } (bootLog sb) [] noHold) ?_ fun _ => ?_
    · refine .read getLog_spec ?_
      exact .pure fun s hs => hs
    · refine .bind clearLog_spec fun _ => ?_
      exact writeHead_spec rfl List.not_mem_nil (hE _ _)
  have hout := htriple _ at_initlog
  rw [initlog_eq]
  cases hr : recoverFromLog p { boot d with log := bootLog sb } with
  | ok a k =>
    rw [hr] at hout
    exact ⟨k, rfl, hout⟩
  | error e k =>
    rw [hr] at hout
    exact hout.elim

end Xv6

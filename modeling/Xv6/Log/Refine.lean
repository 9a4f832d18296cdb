import Xv6.Log.Boot
import Xv6.Log.ClientInv

/-!
# The cache and the log refine an array of blocks

Every run of the clients after a boot with an empty log: `bread` returns what was stored last, blocks that
are logged and not yet installed stay in the cache, and the home blocks on disk are the committed ones.
-/

namespace Xv6.Client

open Machine (Run)

variable {d : Blocks} {s t : Sys} {sb : Superblock} {k : Kernel} {p : Nat}
variable {e : Event}

/-- No call of `bget` gives buffer `i` to another block or changes what it holds. -/
def Kept (k : Kernel) (i : Fin NBUF) : Prop :=
  ∀ dev b j k', bget dev b k = .ok j k' →
    (k'.bcache.buf i).dev = (k.bcache.buf i).dev ∧
    (k'.bcache.buf i).blockno = (k.bcache.buf i).blockno ∧
    (k'.bcache.buf i).valid = (k.bcache.buf i).valid ∧
    (k'.bcache.buf i).data = (k.bcache.buf i).data

theorem kept_of_refcnt {i : Fin NBUF} (h : (k.bcache.buf i).refcnt ≠ 0) : Kept k i := by
  intro dev b j k' hget
  rcases bget_cases dev b k with ⟨l, -, heq⟩ | ⟨l, -, hu, heq⟩ | ⟨-, heq⟩ <;> rw [heq] at hget
  · obtain ⟨rfl, rfl⟩ := EStateM.Result.ok.inj hget
    by_cases hil : i = l
    · subst hil
      rw [Kernel.setBuf_self]
      exact ⟨rfl, rfl, rfl, rfl⟩
    · rw [Kernel.setBuf_of_ne _ _ hil]
      exact ⟨rfl, rfl, rfl, rfl⟩
  · obtain ⟨rfl, rfl⟩ := EStateM.Result.ok.inj hget
    have hil : i ≠ l := by
      rintro rfl
      exact h (refcnt_of_unused hu)
    rw [Kernel.setBuf_of_ne _ _ hil]
    exact ⟨rfl, rfl, rfl, rfl⟩
  · cases hget

theorem Calls.clean {α : Type} {x : KernelM α} {f : α → Sys → Sys} (hc : Calls s e α x f)
    (he : ∀ p, e ≠ .endOp p) (k : Kernel) :
    Hoare.Outcome (fun _ k' => k'.writes = k.writes) (fun _ k' => k' = k) (x k) := by
  cases hc with
  | beginOp => unfold Xv6.beginOp; split_ifs <;> rfl
  | bget =>
    rcases bget_cases s.k.log.dev _ k with ⟨i, -, heq⟩ | ⟨i, -, -, heq⟩ | ⟨-, heq⟩ <;> rw [heq] <;> rfl
  | acquire => unfold acquiresleep; split <;> rfl
  | fill => unfold Xv6.fill; split_ifs <;> rfl
  | modify => rfl
  | logGuard =>
    change Hoare.Outcome _ _ ((if k.log.tooBig then panic .tooBig
      else if k.log.outstanding < 1 then panic .outsideTrans else pure () : KernelM Unit) k)
    split_ifs <;> rfl
  | logLocked => unfold Xv6.logLocked; simp only; split_ifs <;> rfl
  | unlock => unfold brelseUnlock; split_ifs <;> rfl
  | unref => rfl
  | endOp => exact absurd rfl (he _)

theorem Calls.panicked {α : Type} {x : KernelM α} {f : α → Sys → Sys} (hc : Calls s e α x f) (a : α) (t : Sys) :
    (f a t).panicked = t.panicked := by
  cases hc with
  | endOp =>
    simp only [Sys.committed]
    split_ifs <;> rfl
  | _ => rfl

theorem step_panic (hs : step s e = some t) (hp : t.panicked ≠ none) :
    ∃ m k, t = { s with k, panicked := some m } ∧
      ((∃ p, e = .endOp p ∧ s.ready p ∧ (∀ i, ¬ s.holds p i) ∧ endOp p s.k = .error (.panic m) k) ∨
        k = s.k) := by
  obtain ⟨hnone, α, x, f, hc, hcall⟩ := step_calls hs
  rcases call_cases hcall with ⟨a, k, -, rfl⟩ | ⟨m, k, hk, rfl⟩
  · exact absurd ((hc.panicked a { s with k }).trans hnone) hp
  · refine ⟨m, k, rfl, ?_⟩
    by_cases he : ∃ p, e = .endOp p
    · obtain ⟨p, rfl⟩ := he
      cases hc with
      | endOp hr hfree => exact .inl ⟨p, rfl, hr, hfree, hk⟩
    · have hclean := hc.clean (fun p hp => he ⟨p, hp⟩) s.k
      rw [hk] at hclean
      exact .inr hclean

theorem inv_start (hsize : 0 < sb.nlog) (hempty : headEntries (d sb.logstart) = [])
    (hboot : initlog p ROOTDEV sb (boot d) = .ok () k) : Inv (bootLog sb) d (start k) := by
  obtain ⟨k', hk', hat⟩ := initlog_empty hempty
  obtain ⟨-, rfl⟩ := EStateM.Result.ok.inj (hboot.symm.trans hk')
  have hlog : (start k).k.log = bootLog sb := hat.log
  have harea : (bootLog sb).area sb.logstart := ⟨Nat.le_refl _, Nat.lt_add_of_pos_right hsize⟩
  have hdisk : k.disk = Function.update d sb.logstart (putHead (d sb.logstart) []) := hat.disk
  have hhome : ∀ b, ¬ (bootLog sb).area b → k.disk b = d b := by
    intro b hb
    rw [hdisk, Function.update_of_ne]
    rintro rfl
    exact hb harea
  have hact : ∀ q, ((start k).proc q).act = none := fun _ => rfl
  have hghost : (start k).ghost d = Ghost.putHead { view := d } (bootLog sb) := by
    have hview : ((start k).ghost d).view = (Ghost.putHead { view := d } (bootLog sb)).view := by
      funext b
      rw [← hat.inv.clean b List.not_mem_nil]
      by_cases hb : (start k).k.log.area b
      · exact if_pos hb
      · exact (if_neg hb).trans (hhome b (by rwa [hlog] at hb)).symm
    have hwait : ((start k).ghost d).wait = fun _ => 0 := funext fun i => wait_of_idle hact i
    have hpins : ((start k).ghost d).pins = [] := congrArg Log.lh hlog
    have hrest : (start k).ghost d = { (start k).ghost d with
      wait := fun _ => 0, pins := [], view := (Ghost.putHead { view := d } (bootLog sb)).view } := by
      rw [← hview, ← hwait, ← hpins]
    rw [hrest]
    rfl
  exact {
    place := by rw [hlog]; exact ⟨rfl, rfl, rfl⟩
    cache := by rw [hghost, hlog]; exact hat.inv
    wrapped := hat.safe rfl
    disk := by rw [show (start k).k.disk = k.disk from rfl, hat.disk, ← hat.writes]; rfl
    head := by
      rw [hlog, show (start k).k.disk = k.disk from rfl, hdisk,
        show (bootLog sb).start = sb.logstart from rfl, Function.update_self]
      exact headEntries_putHead _ (Nat.zero_le _) fun b hb => by cases hb
    size := by rw [hlog]; exact hsize
    outstanding := by
      rw [hlog, Machine.count_eq_zero.mpr fun _ => rfl]
      rfl
    committing := by rw [hlog]; rfl
    nodup := by rw [hlog]; exact List.nodup_nil
    client := by rw [hlog]; exact fun b hb => by cases hb
    logged := by rw [hlog]; simp [start, bootLog]
    base := by rw [hlog]; exact hhome
    acting := fun q a ha => by cases ha
    owner := fun i q hl => by
      simp [show (start k).k.bcache.buf i = k.bcache.buf i from rfl, hat.free i rfl] at hl
    reads := fun pre b x post h => by simp [start] at h
    hist := rfl }

theorem headerFits_of_size (h : Inv (bootLog sb) d s) (hsb : LOGSIZE ≤ sb.nlog) : HeaderFits s e := by
  have hsize : s.k.log.size = sb.nlog := h.place.2.1
  have hn := h.n_le
  have hL : LOGSIZE = 30 := rfl
  have hB : NBUF = 30 := rfl
  cases e <;> simp only [HeaderFits]
  omega

theorem inv_of_run {ok : Sys → Event → Prop} {es : List Event} {L : Log} {s0 : Sys}
    (hok : ∀ s e, Inv L d s → ok s e → HeaderFits s e) (h0 : Inv L d s0) (hrun : Run step ok s0 es s) :
    ReadsLatest d s.hist ∧ (s.panicked = none → Inv L d s) := by
  refine hrun.inv (I := fun _ s => ReadsLatest d s.hist ∧ (s.panicked = none → Inv L d s))
    ⟨h0.reads, fun _ => h0⟩ fun es s e t _ ih hse hs => ?_
  have hinv := ih.2 (step_calls hs).1
  by_cases hp : t.panicked = none
  · have ht := inv_step hinv hs hp (hok s e hinv hse)
    exact ⟨ht.reads, fun _ => ht⟩
  · obtain ⟨m, k, rfl, -⟩ := step_panic hs hp
    exact ⟨ih.1, fun hn => absurd hn hp⟩

/-- A block that is logged and not yet installed is in the cache, in a buffer that `bget` cannot recycle,
and with the contents stored last (unless its holder is changing it again). -/
structure Pinned (d : Blocks) (s : Sys) (b : Nat) (i : Fin NBUF) : Prop where
  key : (s.k.bcache.buf i).dev = s.k.log.dev ∧ (s.k.bcache.buf i).blockno = b
  valid : (s.k.bcache.buf i).valid = true
  refcnt : 1 ≤ (s.k.bcache.buf i).refcnt
  kept : Kept s.k i
  data : s.dirty i = false → (s.k.bcache.buf i).data = latest d s.hist b

theorem Inv.pinned {L : Log} {b : Nat} (h : Inv L d s) (hb : b ∈ s.k.log.lh) : ∃ i, Pinned d s b i := by
  obtain ⟨i, h1, h2, h3⟩ := h.cache.pinned b hb
  have hpin : (s.ghost d).pin s.k.log.dev (s.k.bcache.buf i) = 1 := Ghost.pin_of_mem h1 (h2 ▸ hb)
  have hne := h.refcnt_ne_zero (by rw [Ghost.refs, hpin]; omega)
  refine ⟨i, ⟨h1, h2⟩, h3, by omega, kept_of_refcnt hne, fun hd => ?_⟩
  rw [(h.cache.each i).data h1 h3 hd, h2, view_of_client (h.client b hb), h.hist]

/-- The buffer cache plus the log refine a flat array of blocks: in every run of clients after a boot with
an empty log, each `bread` returned the contents stored last; a block that is logged and not installed
stays in its buffer; and a home block on disk holds what has been committed. -/
theorem cache_refines_blocks (p : Nat) (sb : Superblock) (hsb : LOGSIZE ≤ sb.nlog) (d : Blocks)
    (hempty : headEntries (d sb.logstart) = []) (k : Kernel) (hboot : initlog p ROOTDEV sb (boot d) = .ok () k)
    (es : List Event) (s : Sys) (hrun : Run step Machine.any (start k) es s) :
    ReadsLatest d s.hist ∧
      (s.panicked = none →
        (∀ b ∈ s.k.log.lh, ∃ i, Pinned d s b i) ∧
        ∀ b, ¬ (bootLog sb).area b → s.k.disk b = Redo.apply d (s.done.flatMap (·.tx)) b) := by
  have hsize : 0 < sb.nlog := Nat.lt_of_lt_of_le (by decide) hsb
  obtain ⟨hreads, hinv⟩ := inv_of_run (fun s e h _ => headerFits_of_size h hsb)
    (inv_start hsize hempty hboot) hrun
  refine ⟨hreads, fun hp => ⟨fun b hb => (hinv hp).pinned hb, fun b hb => (hinv hp).base b ?_⟩⟩
  rwa [Log.area, (hinv hp).place.1, (hinv hp).place.2.1]

def zeroDisk : Blocks := fun _ _ => 0

/-- Process 0 stores block 100 and commits it; process 1 reads it back. -/
def storeAndRead : List Event :=
  let p : Pid := ⟨0, NPROC_pos⟩
  let q : Pid := ⟨1, one_lt_NPROC⟩
  let i : Fin NBUF := ⟨1, by decide⟩
  [.beginOp p, .bget p 100, .acquire p, .fill p, .modify p i fun _ => 7, .logGuard p i, .logLocked p,
    .unlock p i, .unref p, .endOp p, .beginOp q, .bget q 100, .acquire q, .fill q]

theorem cache_refines_blocks_storeAndRead : ∃ k s, initlog 1 ROOTDEV Mkfs.sb (boot zeroDisk) = .ok () k ∧
    Run step Machine.any (start k) storeAndRead s ∧ s.panicked = none ∧ s.done.length = 1 ∧
    ReadsLatest zeroDisk s.hist ∧ (∀ b ∈ s.k.log.lh, ∃ i, Pinned zeroDisk s b i) ∧
    ∀ b, ¬ (bootLog Mkfs.sb).area b → s.k.disk b = Redo.apply zeroDisk (s.done.flatMap (·.tx)) b := by
  obtain ⟨k, hboot, s, hrun, hp, hdone⟩ : ∃ k, initlog 1 ROOTDEV Mkfs.sb (boot zeroDisk) = .ok () k ∧
      ∃ s, Run step Machine.any (start k) storeAndRead s ∧ s.panicked = none ∧ s.done.length = 1 := by decide +kernel
  have h := cache_refines_blocks 1 Mkfs.sb (by decide) zeroDisk (by decide +kernel) k hboot storeAndRead s hrun
  exact ⟨k, s, hboot, hrun, hp, hdone, h.1, h.2 hp⟩

end Xv6.Client

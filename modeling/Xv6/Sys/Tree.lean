import Xv6.Sys.Dangling

/-!
# The directory tree

Inodes that can be reached from the root stay reachable, but for one that loses its last name; that one is
loose: no entry names it and it has no entries, so that it takes nothing with it when it is freed. This needs
that names are made only in directories that have links: an entry of a directory that was removed is lost with
the directory, and what it names stays allocated for ever.
-/

namespace Xv6.Sys

open Machine (Run)

variable {N : Nat} {sc : Scope} {D D' : Disk} {U U' : Nat → Prop} {c c' : Nat → Nat} {V V' K : Nat → Prop}
    {i d k a : Nat}
variable {major minor type : BitVec 16} {dp ip : Nat}

/-- The inodes in `U` are counted right, and reachable or loose. -/
structure Tree (U : Nat → Prop) (D : Disk) (c : Nat → Nat) : Prop extends Linked U D c where
  rooted : ∀ i, U i → Reach D i ∨ Loose U D i

theorem Tree.mem (h : Tree U D c) (hi : Reach D i) : U i := by
  induction hi with
  | refl => exact h.root.1
  | tail _ hc ih =>
    obtain ⟨k, he⟩ := hc
    exact h.closed _ _ ⟨ih, he⟩

theorem Tree.reach_of_entry {e : Nat × Nat} (h : Tree U D c) (he : Entry U D e i) : Reach D e.1 :=
  (h.rooted e.1 he.1).resolve_right fun hl => hl.2 e.2 i he.2

theorem Tree.loose_of_nlink (h : Tree U D c) (hi : U i) (h0 : (D i).nlink = 0) : ¬ Reach D i ∧ Loose U D i := by
  obtain ⟨hroot, -, hnone, -⟩ := h.unnamed hi h0
  have hnot : ¬ Reach D i := fun hr => by
    obtain ⟨e, he⟩ := hr.named hroot
    exact hnone e ⟨h.mem he.1, he.2⟩
  exact ⟨hnot, (h.rooted i hi).resolve_left hnot⟩

theorem Reach.of_ents (hi : Reach D i) (h : ∀ e j, Reach D e.1 → Ent D e j → Ent D' e j) : Reach D' i :=
  Graph.reach_of_edges (fun a _ ha ⟨k, hk⟩ => ⟨k, h (a, k) _ ha hk⟩) hi

theorem Tree.of_linked (h : Tree U D c) (hl : Linked U D' c') (hent : ∀ e j, U e.1 → (Ent D' e j ↔ Ent D e j)) :
    Tree U D' c' := by
  refine ⟨hl, fun i hi => (h.rooted i hi).imp (fun hr => hr.of_ents fun e j he => (hent e j (h.mem he)).mpr)
    fun hl => ?_⟩
  exact ⟨fun e he => hl.1 e ⟨he.1, (hent e i he.1).mp he.2⟩, fun k j he => hl.2 k j ((hent (i, k) j hi).mp he)⟩

theorem Tree.congr (h : Tree U D c) (hs : ∀ i, U i → (D i).Same (D' i) ∧ (D i).nlink = (D' i).nlink) : Tree U D' c :=
  h.of_linked (h.toLinked.congr hs) fun e _ he => ⟨Ent.of_same (hs e.1 he).1.symm, Ent.of_same (hs e.1 he).1⟩

theorem Tree.grow (h : Tree U D c) (hl : Linked U' D' c') (hU : ∀ i, U' i → U i ∨ i = a)
    (hent : ∀ e j, Entry U' D' e j ↔ Entry U D e j ∨ e = (d, k) ∧ j = a) (hd : Reach D d) :
    Tree U' D' c' ∧ ∀ i, Reach D i → Reach D' i := by
  have hreach : ∀ i, Reach D i → Reach D' i := fun i hi =>
    hi.of_ents fun e j he hej => ((hent e j).mpr (.inl ⟨h.mem he, hej⟩)).2
  have hnew : Reach D' a := (hreach d hd).tail ⟨k, ((hent (d, k) a).mpr (.inr ⟨rfl, rfl⟩)).2⟩
  refine ⟨⟨hl, fun i hi => ?_⟩, hreach⟩
  by_cases hia : i = a
  · exact .inl (hia ▸ hnew)
  by_cases hid : i = d
  · exact .inl (hid ▸ hreach d hd)
  refine (h.rooted i ((hU i hi).resolve_right hia)).imp (hreach i) fun hli => ⟨fun e he => ?_, fun k' j he => ?_⟩
  · exact ((hent e i).mp he).elim (hli.1 e) fun hr => hia hr.2
  · rcases (hent (i, k') j).mp ⟨hi, he⟩ with hr | ⟨hr, -⟩
    · exact hli.2 k' j hr.2
    · exact hid (congrArg Prod.fst hr)

theorem Tree.shrink (h : Tree U D c) (hl : Linked U D' c')
    (hent : ∀ e j, Entry U D e j ↔ Entry U D' e j ∨ e = (d, k) ∧ j = a) (hleaf : ∀ k j, ¬ Ent D (a, k) j) :
    Tree U D' c' ∧ ∀ i, Reach D i → i ≠ a → Reach D' i := by
  have hreach : ∀ i, Reach D i → i ≠ a → Reach D' i := by
    intro i hi hia
    induction hi with
    | refl => exact .refl
    | @tail b j hb hc ih =>
      obtain ⟨k', he⟩ := hc
      have hba : b ≠ a := by
        rintro rfl
        exact hleaf k' j he
      rcases (hent (b, k') j).mp ⟨h.mem hb, he⟩ with hr | ⟨-, hr⟩
      · exact (ih hba).tail ⟨k', hr.2⟩
      · exact absurd hr hia
  have hno : ∀ i, (∀ e, ¬ Entry U D' e i) → (∀ k j, ¬ Ent D (i, k) j) → U i → Loose U D' i := fun i h1 h2 hi =>
    ⟨h1, fun k' j he => h2 k' j ((hent (i, k') j).mpr (.inl ⟨hi, he⟩)).2⟩
  refine ⟨⟨hl, fun i hi => ?_⟩, hreach⟩
  by_cases hia : i = a
  · subst hia
    by_cases hname : ∃ e, Entry U D' e i
    · obtain ⟨e, he⟩ := hname
      have he₀ := (hent e i).mpr (.inl he)
      have hne : e.1 ≠ i := fun hei => hleaf e.2 i (hei ▸ he₀.2)
      exact .inl ((hreach e.1 (h.reach_of_entry he₀) hne).tail ⟨e.2, he.2⟩)
    · exact .inr (hno i (fun e he => hname ⟨e, he⟩) hleaf hi)
  · refine (h.rooted i hi).imp (fun hr => hreach i hr hia) fun hli => hno i (fun e he => ?_) hli.2 hi
    exact hli.1 e ((hent e i).mpr (.inl he))

theorem Tree.inc (h : Tree U D c) (hmax : U i → (D i).nlink.toNat + 1 < 2 ^ 16) :
    Tree U (addLink D i 1) fun j => c j + if j = i then 1 else 0 :=
  h.of_linked (h.toLinked.inc hmax) fun _ _ _ => ent_addLink

theorem Tree.dec (h : Tree U D fun j => c j + if j = i then 1 else 0) : Tree U (addLink D i (-1)) c :=
  h.of_linked h.toLinked.dec fun _ _ _ => ent_addLink

theorem Tree.frees (h : Tree U D c) (hf : Frees K D D') :
    Tree (fun i => U i ∧ Alloc D' i) D' c ∧ ∀ i, Reach D i → Reach D' i := by
  have hsame : ∀ i, Alloc D' i → D' i = D i := fun i hi => hf.eq_of_type hi
  have hkeep : ∀ i, Reach D i → Alloc D' i := fun i hi => by
    by_contra hn
    rcases hf i with heq | ⟨-, -, h0, -⟩
    · exact hn (by rw [Alloc, heq]; exact (h.range i (h.mem hi)).2.2)
    · exact (h.loose_of_nlink (h.mem hi) h0).1 hi
  have hreach : ∀ i, Reach D i → Reach D' i := fun i hi => hi.of_ents fun e j he hej => by
    rw [Ent, hsame e.1 (hkeep e.1 he)]
    exact hej
  have hloose : ∀ i, U i → ¬ (U i ∧ Alloc D' i) → Loose U D i := fun i hi hn =>
    (h.rooted i hi).resolve_left fun hr => hn ⟨hi, hkeep i hr⟩
  have hl := h.toLinked.restrict (fun i hi => hi.1) ⟨h.root.1, hkeep _ .refl⟩ hloose
  refine ⟨⟨hl.congr fun i hi => ?_, fun i hi => (h.rooted i hi.1).imp (hreach i) fun hli => ⟨fun e he => ?_,
    fun k j he => ?_⟩⟩, hreach⟩
  · rw [hsame i hi.2]
    exact ⟨.refl _, rfl⟩
  · have he2 := he.2
    rw [Ent, hsame e.1 he.1.2] at he2
    exact hli.1 e ⟨he.1.1, he2⟩
  · rw [Ent, hsame i hi.2] at he
    exact hli.2 k j he

/-! ## What calls do -/

theorem Tree.add (de : Dirent) (h : Tree U D fun j => c j + (if j = a then 1 else 0) +
      if j = d ∧ (D a).type = T_DIR then 1 else 0) (hd : Reach D d) (hdir : (D d).type = T_DIR) (ha : U a)
    (hfree : FreeSlot (D d) k) (hinum : de.inum.toNat = a) :
    Tree U (putEnt D d k de) c ∧ ∀ i, Reach D i → Reach (putEnt D d k de) i := by
  have hk : 2 ≤ k := hfree.two_le (h.dots d (h.mem hd) hdir) (h.range d (h.mem hd)).1
  exact h.grow (h.toLinked.add (h.mem hd) hdir ha hfree hinum) (fun _ => .inl)
    (entry_add (h.mem hd) (ent_add hdir hfree hk hinum (h.range a ha).1)) hd

theorem Tree.link (de : Dirent) (h : Tree U D fun j => c j + if j = a then 1 else 0) (hfile : (D a).type ≠ T_DIR)
    (hd : Reach D d) (hdir : (D d).type = T_DIR) (ha : U a) (hfree : FreeSlot (D d) k) (hinum : de.inum.toNat = a) :
    Tree U (putEnt D d k de) c ∧ ∀ i, Reach D i → Reach (putEnt D d k de) i :=
  Tree.add de ⟨h.toLinked.cast fun j _ => by simp [hfile], h.rooted⟩ hd hdir ha hfree hinum

theorem newNode_named : ¬ (newNode D dp ip type major minor ip).named k := by
  unfold newNode
  split_ifs with ht
  · rw [Function.update_self]
    exact newDir_leaf k
  · rw [Function.update_self]
    rintro ⟨-, hx, -⟩
    simp [Node.has, DIRENT] at hx

theorem entry_newNode (hip : ¬ U ip) (e : Nat × Nat) (j : Nat) :
    Entry (fun j => U j ∨ j = ip) (newNode D dp ip type major minor) e j ↔ Entry U D e j := by
  unfold Entry
  by_cases he : e.1 = ip
  · refine iff_of_false (fun hr => ?_) fun hr => hip (he ▸ hr.1)
    have hn := hr.2.2.1
    rw [he] at hn
    exact newNode_named hn
  · have hent : Ent (newNode D dp ip type major minor) e j ↔ Ent D e j := by
      unfold Ent
      rw [newNode_of_ne he]
      split_ifs
      · exact ent_addLink
      · rfl
    rw [hent]
    simp [he]

theorem Tree.newNode (major minor : BitVec 16) (h : Tree U D c) (hip : ¬ U ip)
    (hpos : 0 < ip) (hlt : ip < 2 ^ 16) (hdp : U dp) (htype : type ≠ 0) (hmax : (D dp).nlink.toNat + 1 < 2 ^ 16) :
    Tree (fun j => U j ∨ j = ip) (Sys.newNode D dp ip type major minor) (fun j =>
      (if j = ip then 0 else c j) + (if j = ip then 1 else 0) +
        if j = dp ∧ (Sys.newNode D dp ip type major minor ip).type = T_DIR then 1 else 0) ∧
      ∀ i, Reach D i → Reach (Sys.newNode D dp ip type major minor) i := by
  have hent : ∀ e j, Entry (fun j => U j ∨ j = ip) (Sys.newNode D dp ip type major minor) e j ↔ Entry U D e j :=
    entry_newNode hip
  have hreach : ∀ i, Reach D i → Reach (Sys.newNode D dp ip type major minor) i := fun i hi =>
    hi.of_ents fun e j he hej => ((hent e j).mpr ⟨h.mem he, hej⟩).2
  refine ⟨⟨h.toLinked.newNode hip hpos hlt hdp htype hmax, fun i hi => ?_⟩, hreach⟩
  rcases hi with hi | rfl
  · refine (h.rooted i hi).imp (hreach i) fun hli => ⟨fun e he => hli.1 e ((hent e i).mp he), fun k j he => ?_⟩
    exact hli.2 k j ((hent (i, k) j).mp ⟨.inl hi, he⟩).2
  · refine .inr ⟨fun e he => hip (h.closed e i ((hent e i).mp he)), fun k j he => ?_⟩
    exact hip ((hent (i, k) j).mp ⟨.inr rfl, he⟩).1

theorem Tree.create {name : Name} (h : Tree U D c) (hip : ¬ U ip)
    (hpos : 0 < ip) (hlt : ip < 2 ^ 16) (hdp : Reach D dp) (hdir : (D dp).type = T_DIR) (htype : type ≠ 0)
    (hfree : FreeSlot (D dp) k) (hmax : (D dp).nlink.toNat + 1 < 2 ^ 16) :
    Tree (fun j => U j ∨ j = ip)
        (putEnt (Sys.newNode D dp ip type major minor) dp k ⟨BitVec.ofNat 16 ip, name⟩)
        (fun j => if j = ip then 0 else c j) ∧
      ∀ i, Reach D i →
        Reach (putEnt (Sys.newNode D dp ip type major minor) dp k ⟨BitVec.ofNat 16 ip, name⟩) i := by
  have hne : ip ≠ dp := by
    rintro rfl
    exact hip (h.mem hdp)
  obtain ⟨htype', hsize, hents⟩ := newNode_parent type major minor hne
  obtain ⟨hnew, hreach⟩ := h.newNode major minor hip hpos hlt (h.mem hdp) htype hmax
  obtain ⟨hadd, hreach'⟩ := hnew.add ⟨BitVec.ofNat 16 ip, name⟩ (hreach dp hdp) (htype'.trans hdir)
    (.inr rfl) (hfree.congr hsize.symm hents.symm) (toNat_ofNat hlt)
  exact ⟨hadd, fun i hi => hreach' i (hreach i hi)⟩

theorem Tree.removeEnt (h : Tree U D c) (he : Entry U D (dp, k) ip) (hleaf : ∀ k j, ¬ Ent D (ip, k) j) :
    Tree U (Sys.removeEnt D dp k ip) (fun j => c j + if j = ip then 1 else 0) ∧
      ∀ i, Reach D i → i ≠ ip → Reach (Sys.removeEnt D dp k ip) i := by
  refine h.shrink (k := k) (h.toLinked.removeEnt he) (entry_add he.1 fun e j => ?_) hleaf
  rw [ent_remove he.2]
  unfold Sys.removeEnt
  split_ifs
  · rw [ent_addLink]
  · rfl

/-! ## Runs in which nothing is lost -/

theorem Tree.nlink_eq_zero (h : Tree U D fun _ => 0) (hi : U i) (hr : ¬ Reach D i) : (D i).nlink = 0 := by
  obtain ⟨hnone, hleaf⟩ := (h.rooted i hi).resolve_left hr
  have hlinks := h.links i hi
  have hroot : i ≠ ROOTINO := by
    rintro rfl
    exact hr .refl
  have hsub : ∀ e, ¬ Sub U D e i := fun e ⟨he, j, hj, _⟩ => hleaf e.2 j (he ▸ hj.2)
  rw [Graph.count_eq_zero hnone, Graph.count_eq_zero hsub, if_neg hroot] at hlinks
  exact BitVec.eq_of_toNat_eq hlinks

theorem Tree.frees_alloc (h : Tree (Alloc D) D c) (hf : Frees K D D') : Tree (Alloc D') D' c := by
  have halloc : (fun i => Alloc D i ∧ Alloc D' i) = Alloc D' := funext fun i =>
    propext ⟨fun hi => hi.2, fun hi => ⟨by rw [Alloc, ← hf.eq_of_type hi]; exact hi, hi⟩⟩
  rw [← halloc]
  exact (h.frees hf).1

theorem Tree.settled (h : Tree (Alloc D) D fun _ => 0) (hs : Settled N sc D V D' V')
    (hmade : ∀ dp, sc.made dp → (D dp).nlink ≠ 0) (hN : N ≤ 2 ^ 16) (hmax : CanLink D) :
    Tree (Alloc D') D' fun _ => 0 := by
  have hreach : ∀ {d}, (D d).type = T_DIR → sc.made d → Reach D d := fun {d} hd hm => by
    by_contra hr
    exact hmade d hm (h.nlink_eq_zero (alloc_of_dir hd) hr)
  cases hs with
  | same hV => exact h
  | @link _ ip dp k name hpar hV htype hfile hdir hfree =>
    have hne : dp ≠ ip := by
      rintro rfl
      exact hfile hdir
    rw [alloc_putEnt, alloc_addLink]
    refine ((h.inc fun _ => hmax ip).link _ (by simpa using hfile) ?_ (by simpa using hdir) htype
      (by rwa [addLink_of_ne hne]) (toNat_ofNat (h.range ip htype).2.1)).1
    exact (hreach hdir hpar).of_ents fun e j _ => ent_addLink.mpr
  | @create _ ip dp k name type major minor hpar hV hdir htype hip hpos hlt hfree =>
    rw [alloc_putEnt, alloc_newNode htype]
    simpa using (h.create (fun hi => hi hip) hpos (by omega) (hreach hdir hpar) hdir htype hfree (hmax dp)).1
  | @unlink D₁ _ V₀ V₁ _ ip dp k name _ hV hdir hdp hdot hdotdot hfound hip hv hempty hd hd' =>
    obtain ⟨he, -⟩ := h.toLinked.found hdir hdot hdotdot hfound hip hempty
    have hrem := (h.removeEnt he fun k j hj => hempty hj.1 k hj.2.1).1
    rw [show Alloc D = Alloc (Sys.removeEnt D dp k ip) from alloc_removeEnt.symm] at hrem
    have hdec := (hrem.frees_alloc hd.frees).dec
    rw [show Alloc D₁ = Alloc (addLink D₁ ip (-1)) from alloc_addLink.symm] at hdec
    exact hdec.frees_alloc hd'.frees

theorem Tree.effect (h : Tree (Alloc D) D fun _ => 0) (hh : Held D V) (he : Effect N sc D V D' V')
    (hmade : ∀ dp, sc.made dp → (D dp).nlink ≠ 0) (hN : N ≤ 2 ^ 16) (hmax : CanLink D) :
    Tree (Alloc D') D' fun _ => 0 := by
  cases he with
  | change hch htail =>
    have hmid := h.settled (hch.settled hh hmax) hmade hN hmax
    cases htail with
    | none => exact hmid
    | put hd => exact hmid.frees_alloc hd.frees
    | trunc htype =>
      rw [alloc_congr (trunc_same htype)]
      exact hmid.congr fun j _ => trunc_same htype j
  | release hl hd =>
    exact (h.frees_alloc hl.frees).frees_alloc hd.frees

/-- What holds between calls: what cannot be reached is held. -/
def Whole (s : State) : Prop :=
  s.ninodes ≤ 2 ^ 16 ∧ ∃ V, Idle s.ninodes s.inode V s ∧ Tree (Alloc s.inode) s.inode (fun _ => 0) ∧ Held s.inode V

/-- The calls of a run: link counts are not about to overflow, and a directory in which a name is made has links. -/
def Kept (s : State) (e : Fin NPROC × Call) : Prop :=
  e.2.Enabled s.proc e.1 ∧ LinksBelow s.inode ∧
    ∀ pr ∈ s.proc e.1, ∀ dp ∈ e.2.madeIn s.inode pr.cwd, (s.inode dp).nlink ≠ 0

theorem Tree.core (h : Tree (Alloc D) D fun _ => 0) (hh : Held D V) : Core (fun _ => { type := 1 }) D V fun _ => 0 :=
  ⟨⟨_, fun _ _ => Nat.le_refl _, h.toLinked⟩, hh, fun _ _ => .inr (by simp [Alloc]), fun _ _ _ => by simp [Alloc]⟩

theorem Whole.of_step {s t : State} {e : Fin NPROC × Call} (h : Whole s) (he : Kept s e) (ht : step s e = some t) :
    Whole t := by
  obtain ⟨hN, V, hidle, htree, hheld⟩ := h
  obtain ⟨hen, hb, hmade⟩ := he
  have hmax := hb.canLink
  obtain ⟨pr, r, V', hp, heff, hidle', hnin⟩ := hidle.step hN hen ht
  have hcore' := (htree.core hheld).effect (fun _ _ => by simp [Alloc]) heff hN hmax
  rw [Whole, hnin]
  exact ⟨hN, V', hidle', htree.effect hheld heff (hmade pr hp) hN hmax, hcore'.held⟩

theorem whole_start {full : List Bool} (hN : N ≤ 2 ^ 16) (h : Consistent D) : Whole (start N D full) := by
  obtain ⟨-, hidle, hcore⟩ : Sound (start N D full) := sound_start hN h
  refine ⟨hN, _, hidle, ⟨?_, fun i hi => .inl (h.reach i hi)⟩, hcore.held⟩
  rw [show Alloc (start N D full).inode = Reach D from h.alloc_eq]
  exact h.linked

theorem whole_run {full : List Bool} {es : List (Fin NPROC × Call)} {s : State} (hN : N ≤ 2 ^ 16) (h : Consistent D)
    (hrun : Run step Kept (start N D full) es s) : Whole s :=
  hrun.inv (I := fun _ => Whole) (whole_start hN h) fun _ _ _ _ _ hs he ht => hs.of_step he ht

/-- No file is open, and every process is at the root. -/
def Quiet (s : State) : Prop :=
  (∀ f, (s.ftable f).ref = 0) ∧ ∀ p pr, s.proc p = some pr → pr.cwd = ROOTINO

/-- As long as names are made only in directories that have links, every inode that is allocated when nothing is held
can be reached from the root. -/
theorem no_leaked_inodes {full : List Bool} {es : List (Fin NPROC × Call)} {s : State} (hN : N ≤ 2 ^ 16)
    (hD : Consistent D) (hrun : Run step Kept (start N D full) es s) (hq : Quiet s) :
    ∀ i, (s.inode i).type ≠ 0 → Reach s.inode i := by
  intro i hi
  by_contra hr
  obtain ⟨-, V, ⟨F, P, hfiles, hs⟩, htree, hheld⟩ := whole_run hN hD hrun
  have hheld : 0 < holders P F i := by simpa using (hs.known i (hheld i hi (htree.nlink_eq_zero hi hr))).1
  obtain ⟨e, he⟩ := Graph.exists_of_count_pos hheld
  rw [← hs.proc, ← hs.ftable] at he
  cases e with
  | inl p =>
    obtain ⟨pr, hp, rfl⟩ := he
    rw [hq.2 p pr hp] at hr
    exact hr .refl
  | inr f =>
    refine he.1 ?_
    rw [hs.ftable]
    exact hfiles.closed f (hs.ftable ▸ hq.1 f)

/-- What `Kept` asks, of the inodes that there are. -/
def KeptBelow (s : State) (e : Fin NPROC × Call) : Prop :=
  e.2.Enabled s.proc e.1 ∧ (∀ i < s.ninodes, (s.inode i).nlink.toNat < 2 ^ 15 - 1) ∧
    ∀ pr ∈ s.proc e.1, ∀ dp ∈ e.2.madeIn s.inode pr.cwd, (s.inode dp).nlink ≠ 0

instance (s : State) (e : Fin NPROC × Call) : Decidable (KeptBelow s e) := inferInstanceAs (Decidable (_ ∧ _ ∧ _))

/-- `mkdir d; chdir d; unlink ../d; open("/f", O_CREATE); unlink /f; close(0); mkdir /e; chdir("/")`: a directory and a
file are removed while they are held. -/
def makeElsewhere : List (Fin NPROC × Call) :=
  [(0, .mkdir (some [100])), (0, .chdir (some [100])), (0, .unlink (some [46, 46, 47, 100])),
    (0, .openPath (some [47, 102]) O_CREATE), (0, .unlink (some [47, 102])), (0, .close 0),
    (0, .mkdir (some [47, 101])),
    (0, .chdir (some [47]))]

theorem no_leaked_inodes_makeElsewhere : ∃ s, Run step Kept (start 4 emptyRoot []) makeElsewhere s ∧
    Quiet s ∧ (s.inode 2).type = 0 ∧ (s.inode 3).type = T_DIR ∧ ∀ i, (s.inode i).type ≠ 0 → Reach s.inode i := by
  obtain ⟨s, hs, ⟨hclosed, hcwd⟩, hfree, hdir⟩ : ∃ s, Run step KeptBelow (start 4 emptyRoot []) makeElsewhere s ∧
      ((∀ f, (s.ftable f).ref = 0) ∧ ∀ p, (s.proc p).all (·.cwd = ROOTINO)) ∧
      (s.inode 2).type = 0 ∧ (s.inode 3).type = T_DIR := by decide +kernel
  have hquiet : Quiet s := ⟨hclosed, fun p pr hp => by simpa [hp] using hcwd p⟩
  obtain ⟨hrun, -⟩ : Run step Kept (start 4 emptyRoot []) makeElsewhere s ∧ Whole s ∧ Blank s :=
    hs.strengthen (I := fun s => Whole s ∧ Blank s)
      ⟨whole_start (by decide) consistent_emptyRoot, blank_emptyRoot (by decide)⟩
      (fun t e hI he => ⟨he.1, hI.2.linksBelow he.2.1, he.2.2⟩) fun t e u hI he ht => by
        obtain ⟨hN, V, hidle, htree, hheld⟩ := id hI.1
        exact ⟨hI.1.of_step he ht, (htree.core hheld).blank hidle hN he.1 he.2.1 ht hI.2⟩
  exact ⟨s, hrun, hquiet, hfree, hdir, no_leaked_inodes (by decide) consistent_emptyRoot hrun hquiet⟩

/-! ## A call that makes a file in a directory that was removed -/

/-- `mkdir d; chdir d; unlink ../d; open("f", O_CREATE); close(0); chdir("/")`. -/
def leak : List (Fin NPROC × Call) :=
  [(0, .mkdir (some [100])), (0, .chdir (some [100])), (0, .unlink (some [46, 46, 47, 100])),
    (0, .openPath (some [102]) O_CREATE), (0, .close 0), (0, .chdir (some [47]))]

/-- The file that was made in the directory that was removed is lost. -/
theorem file_leaks : Consistent emptyRoot ∧ ∃ s, Run step enabled (start 200 emptyRoot []) leak s ∧
    Quiet s ∧ (s.inode 3).type ≠ 0 ∧ ¬ Reach s.inode 3 := by
  refine ⟨consistent_emptyRoot, ?_⟩
  obtain ⟨s, hs, hfile, hsize, hfree, hclosed, hcwd⟩ : ∃ s, Run step enabled (start 200 emptyRoot []) leak s ∧
      (s.inode 3).type = T_FILE ∧ (s.inode ROOTINO).size = 3 * DIRENT ∧ ((s.inode ROOTINO).ents 2).inum = 0 ∧
      (∀ f, (s.ftable f).ref = 0) ∧ ∀ p, (s.proc p).all (·.cwd = ROOTINO) := by decide +kernel
  have hleaf : ∀ k, ¬ (s.inode ROOTINO).named k := by
    rintro k ⟨hk, hx, h0⟩
    unfold Node.has at hx
    rw [hsize, show DIRENT = 16 from rfl] at hx
    obtain rfl : k = 2 := by omega
    exact h0 hfree
  refine ⟨s, hs, ⟨hclosed, fun p pr hp => by simpa [hp] using hcwd p⟩, ?_, fun hr => ?_⟩
  · rw [hfile]
    decide
  · rcases Relation.ReflTransGen.cases_head hr with h | ⟨d, ⟨k, he⟩, -⟩
    · exact absurd h (by decide)
    · exact hleaf k he.2.1

end Xv6.Sys

import Xv6.Sys.Tree

/-!
# Calls keep the file system well-formed

`Shape U D c` adds to the law of link counts and to the tree what well-formedness says of names: they are
different within a directory, and a directory other than the root has one name, in the directory that its
`..` names. Each update keeps the shape of the inodes in `U`, which start as the inodes reachable from the
root; what is no longer reachable at the end of a call is loose and drops out.

The parent of a name that is made or removed has to be reachable, and so has the file a link is made to: its
link count counts names in directories that are not reachable.
-/

namespace Xv6.Sys

open Function (update update_of_ne update_self)

variable {N : Nat} {D D' : Disk} {U U' : Nat → Prop} {c c' : Nat → Nat} {V V' K : Nat → Prop} {i d k a : Nat}
variable {name : Name} {x : Node} {dp ip : Nat}

/-! ## Names -/

theorem namecmp_strncpy {t : Name} : namecmp name.strncpy t = 0 ↔ namecmp name t = 0 := by
  rw [namecmp_eq_zero, namecmp_eq_zero, Name.str_strncpy]

theorem namecmp_comm {s t : Name} : namecmp s t = 0 ↔ namecmp t s = 0 := by
  rw [namecmp_eq_zero, namecmp_eq_zero]
  exact eq_comm

theorem Found.fresh {j : Nat} (h : Found x name none) (hj : x.has j) (h0 : (x.ents j).inum ≠ 0) :
    namecmp name (x.ents j).name ≠ 0 := fun hn => by
  have := h.2 j (Nat.zero_le j) hj
  simp only [Dirent.matches, hn, and_true, decide_eq_false_iff_not, not_not] at this
  exact h0 this

theorem Found.congr {y : Node} (h : Found x name none) (hsize : x.size = y.size) (hents : x.ents = y.ents) :
    Found y name none := by
  unfold Found Scanned Node.has at h ⊢
  rwa [← hsize, ← hents]

theorem Node.Distinct.add {inum : BitVec 16} (h : (D d).Distinct) (hnone : Found (D d) name none)
    (hfree : FreeSlot (D d) k) : (putEnt D d k { inum, name := name.strncpy } d).Distinct := by
  intro j j' hj hj' h0 h0' hn
  rw [has_putEnt hfree] at hj hj'
  rw [putEnt_self] at h0 h0' hn
  by_cases hjk : j = k <;> by_cases hjk' : j' = k
  · rw [hjk, hjk']
  · simp only [hjk, update_self, update_of_ne hjk'] at h0' hn
    exact absurd (namecmp_strncpy.mp hn) (hnone.fresh (hj'.resolve_right hjk') h0')
  · simp only [hjk', update_self, update_of_ne hjk] at h0 hn
    exact absurd (namecmp_strncpy.mp (namecmp_comm.mp hn)) (hnone.fresh (hj.resolve_right hjk) h0)
  · simp only [update_of_ne hjk, update_of_ne hjk'] at h0 h0' hn
    exact h j j' (hj.resolve_right hjk) (hj'.resolve_right hjk') h0 h0' hn

theorem Node.Distinct.remove (h : (D d).Distinct) (hk : (D d).has k) : (putEnt D d k {} d).Distinct := by
  intro j j' hj hj' h0 h0' hn
  have hsize : max (D d).size (DIRENT * k + DIRENT) = (D d).size := max_eq_left hk
  rw [putEnt_self] at hj hj' h0 h0' hn
  rw [Node.has, hsize] at hj hj'
  have hne : ∀ m, (update (D d).ents k {} m).inum ≠ 0 → m ≠ k := fun m hm hmk => by simp [hmk] at hm
  simp only [update_of_ne (hne j h0), update_of_ne (hne j' h0')] at h0 h0' hn
  exact h j j' hj hj' h0 h0' hn

theorem Node.Distinct.of_same {y : Node} (h : x.Distinct) (ht : x.type = T_DIR) (hs : x.Same y) : y.Distinct := by
  obtain ⟨hsize, hents⟩ := hs.2 ht
  unfold Node.Distinct Node.has at h ⊢
  rwa [← hsize, ← hents]

theorem newDir_distinct {major minor : BitVec 16} : (newDir ip dp major minor).Distinct := by
  intro j k hj hk _ _ hn
  have hlt : ∀ m, (newDir ip dp major minor).has m → m = 0 ∨ m = 1 := fun m hm => by
    unfold Node.has newDir at hm
    simp only [show DIRENT = 16 from rfl] at hm
    omega
  have hne : ¬ namecmp Name.dot.strncpy Name.dotdot.strncpy = 0 := by decide
  rcases hlt j hj with rfl | rfl <;> rcases hlt k hk with rfl | rfl
  · rfl
  · exact absurd hn hne
  · exact absurd (namecmp_comm.mp hn) hne
  · rfl

/-! ## The shape of a directory tree -/

/-- The inodes in `U` form a tree of directories with different names. -/
structure Shape (U : Nat → Prop) (D : Disk) (c : Nat → Nat) : Prop extends Tree U D c where
  top : (D ROOTINO).target 1 = ROOTINO
  distinct : ∀ d, U d → (D d).type = T_DIR → (D d).Distinct
  up : ∀ e i, Entry U D e i → (D i).type = T_DIR → i ≠ ROOTINO → e.1 = (D i).target 1
  one : ∀ e e' i, Entry U D e i → Entry U D e' i → (D i).type = T_DIR → i ≠ ROOTINO → e = e'

theorem WellFormed.shape (h : WellFormed D) : Shape (Reach D) D fun _ => 0 where
  toLinked := h.linked
  rooted _ hi := .inl hi
  top := h.root.2
  distinct := h.distinct
  up e i he ht hne := by
    obtain ⟨k, hk⟩ := h.parent i (he.1.tail ⟨e.2, he.2⟩) ht hne
    rw [(hk e).mp he]
  one e e' i he he' ht hne := by
    obtain ⟨k, hk⟩ := h.parent i (he.1.tail ⟨e.2, he.2⟩) ht hne
    exact ((hk e).mp he).trans ((hk e').mp he').symm

theorem Shape.of_tree (h : Shape U D c) (ht : Tree U' D' c') (hU : ∀ i, U' i → U i)
    (hent : ∀ e i, Entry U' D' e i → Entry U D e i)
    (hnode : ∀ i, U' i → (D' i).type = (D i).type ∧ ((D i).type = T_DIR → (D' i).target 1 = (D i).target 1 ∧
      ((D i).Distinct → (D' i).Distinct))) : Shape U' D' c' := by
  refine ⟨ht, ?_, fun d hd hdir => ?_, fun e i he hdir hne => ?_, fun e e' i he he' hdir hne => ?_⟩
  · rw [((hnode _ ht.root.1).2 h.root.2).1]
    exact h.top
  · rw [(hnode d hd).1] at hdir
    exact ((hnode d hd).2 hdir).2 (h.distinct d (hU d hd) hdir)
  · obtain ⟨htype, hrest⟩ := hnode i (ht.closed e i he)
    rw [htype] at hdir
    rw [(hrest hdir).1]
    exact h.up e i (hent e i he) hdir hne
  · rw [(hnode i (ht.closed e i he)).1] at hdir
    exact h.one e e' i (hent e i he) (hent e' i he') hdir hne

theorem Shape.wellFormed (h : Shape U D fun _ => 0) : WellFormed D := by
  have hl : Linked (Reach D) D fun _ => 0 :=
    h.toLinked.restrict (fun i hi => h.mem hi) .refl fun i hi hn => (h.rooted i hi).resolve_left hn
  have hent : ∀ {e i}, Entry (Reach D) D e i → Entry U D e i := fun he => ⟨h.mem he.1, he.2⟩
  refine ⟨⟨h.root.2, h.top⟩, hl.dots, fun d hd => h.distinct d (h.mem hd), fun d k hd hdir hk h0 => ?_,
    fun i hi hdir hne => ?_,
    hl.links⟩
  · -- entry 1 names the directory that names this one
    obtain rfl | rfl | hk2 : k = 0 ∨ k = 1 ∨ 2 ≤ k := by omega
    · rw [(hl.dots d hd hdir).dot.1]
      exact (hl.range d hd).2.2
    · by_cases hroot : d = ROOTINO
      · rw [hroot, h.top]
        exact (hl.range _ hl.root.1).2.2
      · obtain ⟨e, he⟩ := hd.named hroot
        rw [← h.up e d (hent he) hdir hroot]
        exact (hl.range e.1 he.1).2.2
    · exact (hl.range _ (hl.closed (d, k) _ ⟨hd, hdir, ⟨hk2, hk, h0⟩, rfl⟩)).2.2
  · obtain ⟨e, he⟩ := hi.named hne
    have hup := h.up e i (hent he) hdir hne
    refine ⟨e.2, fun e' => ⟨fun he' => ?_, fun he' => ?_⟩⟩
    · rw [h.one e' e i (hent he') (hent he) hdir hne, ← hup]
    · rw [he', ← hup]
      exact he

theorem Shape.congr (h : Shape U D c) (ht : Tree U D' c') (hs : ∀ i, U i → (D i).Same (D' i)) : Shape U D' c' := by
  refine h.of_tree ht (fun _ hi => hi) (fun e i he => ⟨he.1, he.2.of_same (hs e.1 he.1).symm⟩) fun i hi => ?_
  refine ⟨(hs i hi).1.symm, fun hdir => ⟨?_, fun hd => hd.of_same hdir (hs i hi)⟩⟩
  rw [Node.target, Node.target, ((hs i hi).2 hdir).2]

theorem Shape.inc (h : Shape U D c) (hmax : U i → (D i).nlink.toNat + 1 < 2 ^ 16) :
    Shape U (addLink D i 1) fun j => c j + if j = i then 1 else 0 :=
  h.congr (h.toTree.inc hmax) fun j _ => addLink_same j

theorem Shape.dec (h : Shape U D fun j => c j + if j = i then 1 else 0) : Shape U (addLink D i (-1)) c :=
  h.congr h.toTree.dec fun j _ => addLink_same j

theorem Shape.frees (h : Shape U D c) (hf : Frees K D D') : ∃ U', Shape U' D' c ∧ (∀ i, Reach D i → Reach D' i) ∧
    ∀ i, U' i → U i := by
  obtain ⟨ht, hreach⟩ := h.toTree.frees hf
  have heq : ∀ i, U i ∧ Alloc D' i → D' i = D i := fun i hi => hf.eq_of_type hi.2
  refine ⟨_, h.of_tree ht (fun i hi => hi.1) (fun e i he => ⟨he.1.1, ?_⟩) fun i hi => ?_, hreach, fun i hi => hi.1⟩
  · rw [Ent, ← heq e.1 he.1]
    exact he.2
  · rw [heq i hi]
    exact ⟨rfl, fun _ => ⟨rfl, fun hd => hd⟩⟩

theorem Shape.add {inum : BitVec 16} (h : Shape U D c)
    (ht : Tree U (putEnt D d k { inum, name := name.strncpy }) c') (hd : U d) (hdir : (D d).type = T_DIR)
    (hnone : Found (D d) name none) (hfree : FreeSlot (D d) k) (hinum : inum.toNat = a) (ha : U a)
    (hnew : (D a).type = T_DIR → (∀ e, ¬ Entry U D e a) ∧ (D a).target 1 = d) :
    Shape U (putEnt D d k { inum, name := name.strncpy }) c' := by
  have hk : 2 ≤ k := hfree.two_le (h.dots d hd hdir) (h.range d hd).1
  have hent : ∀ e i, Entry U (putEnt D d k { inum, name := name.strncpy }) e i ↔ Entry U D e i ∨ e = (d, k) ∧ i = a :=
    entry_add hd (ent_add hdir hfree hk hinum (h.range a ha).1)
  have hsolo : ∀ {e i}, Entry U D e i → (D i).type = T_DIR → i ≠ a := by
    rintro e i he hi rfl
    exact (hnew hi).1 e he
  refine ⟨ht, ?_, fun j hj hjdir => ?_, fun e i he hi hne => ?_, fun e e' i he he' hi hne => ?_⟩
  · rw [target_putEnt hk]
    exact h.top
  · rw [putEnt_type] at hjdir
    by_cases hjd : j = d
    · rw [hjd] at hjdir ⊢
      exact (h.distinct d hd hjdir).add hnone hfree
    · rw [putEnt_of_ne hjd]
      exact h.distinct j hj hjdir
  · rw [putEnt_type] at hi
    rw [target_putEnt hk]
    rcases (hent e i).mp he with hr | ⟨rfl, rfl⟩
    · exact h.up e i hr hi hne
    · exact (hnew hi).2.symm
  · rw [putEnt_type] at hi
    rcases (hent e i).mp he with hr | ⟨rfl, rfl⟩ <;> rcases (hent e' i).mp he' with hr' | ⟨rfl, hr'⟩
    · exact h.one e e' i hr hr' hi hne
    · exact absurd hr' (hsolo hr hi)
    · exact absurd rfl (hsolo hr' hi)
    · rfl

theorem Shape.link (h : Shape U D fun j => c j + if j = a then 1 else 0) (hfile : (D a).type ≠ T_DIR)
    (hd : Reach D d) (hdir : (D d).type = T_DIR) (ha : U a) (hnone : Found (D d) name none) (hfree : FreeSlot (D d) k) :
    Shape U (putEnt D d k ⟨BitVec.ofNat 16 a, name.strncpy⟩) c ∧
      ∀ i, Reach D i → Reach (putEnt D d k ⟨BitVec.ofNat 16 a, name.strncpy⟩) i := by
  have hinum := toNat_ofNat (h.range a ha).2.1
  obtain ⟨ht, hreach⟩ := h.toTree.link ⟨BitVec.ofNat 16 a, name.strncpy⟩ hfile hd hdir ha hfree hinum
  exact ⟨h.add ht (h.mem hd) hdir hnone hfree hinum ha fun hi => absurd hi hfile, hreach⟩

theorem Shape.newNode {type : BitVec 16} (major minor : BitVec 16) (h : Shape U D c) (hip : ¬ U ip)
    (ht : Tree (fun j => U j ∨ j = ip) (Sys.newNode D dp ip type major minor) c') :
    Shape (fun j => U j ∨ j = ip) (Sys.newNode D dp ip type major minor) c' := by
  have hent : ∀ e j, Entry (fun j => U j ∨ j = ip) (Sys.newNode D dp ip type major minor) e j ↔ Entry U D e j :=
    entry_newNode hip
  have hne : ∀ {j}, U j → j ≠ ip := fun hj hji => hip (hji ▸ hj)
  have hnode : ∀ {j}, U j → (Sys.newNode D dp ip type major minor j).target 1 = (D j).target 1 ∧
      (Sys.newNode D dp ip type major minor j).type = (D j).type := fun hj => target_newNode (hne hj)
  refine ⟨ht, ?_, fun d hd hdir => ?_, fun e i he hi hroot => ?_, fun e e' i he he' hi hroot => ?_⟩
  · rw [(hnode h.root.1).1]
    exact h.top
  · by_cases hdi : d = ip
    · subst hdi
      rw [newNode_type] at hdir
      rw [Sys.newNode, if_pos hdir, update_self]
      exact newDir_distinct
    · have hU := hd.resolve_right hdi
      rw [(hnode hU).2] at hdir
      rw [newNode_of_ne hdi]
      split_ifs
      · exact (h.distinct d hU hdir).of_same hdir (addLink_same d)
      · exact h.distinct d hU hdir
  · have he := (hent e i).mp he
    rw [(hnode (h.closed e i he)).2] at hi
    rw [(hnode (h.closed e i he)).1]
    exact h.up e i he hi hroot
  · have he := (hent e i).mp he
    rw [(hnode (h.closed e i he)).2] at hi
    exact h.one e e' i he ((hent e' i).mp he') hi hroot

theorem Shape.create {type major minor : BitVec 16} (h : Shape U D c) (hip : ¬ U ip)
    (hpos : 0 < ip) (hlt : ip < 2 ^ 16) (hdp : Reach D dp) (hdir : (D dp).type = T_DIR) (htype : type ≠ 0)
    (hnone : Found (D dp) name none) (hfree : FreeSlot (D dp) k) (hmax : (D dp).nlink.toNat + 1 < 2 ^ 16) :
    Shape (fun j => U j ∨ j = ip)
      (putEnt (Sys.newNode D dp ip type major minor) dp k ⟨BitVec.ofNat 16 ip, name.strncpy⟩)
      (fun j => if j = ip then 0 else c j) ∧ ∀ i, Reach D i →
        Reach (putEnt (Sys.newNode D dp ip type major minor) dp k ⟨BitVec.ofNat 16 ip, name.strncpy⟩) i := by
  have hne : ip ≠ dp := by
    rintro rfl
    exact hip (h.mem hdp)
  obtain ⟨htype', hsize, hents⟩ := newNode_parent type major minor hne
  obtain ⟨ht, hreach⟩ := h.toTree.create hip hpos hlt hdp hdir htype hfree hmax
  have hnew := h.newNode major minor hip (h.toTree.newNode major minor hip hpos hlt (h.mem hdp) htype hmax).1
  refine ⟨hnew.add ht (.inl (h.mem hdp)) (htype'.trans hdir) ?_ (hfree.congr hsize.symm hents.symm) (toNat_ofNat hlt)
    (.inr rfl) fun hdir' => ⟨fun e he => ?_, ?_⟩, hreach⟩
  · exact Found.congr hnone hsize.symm hents.symm
  · exact hip (h.closed e ip ((entry_newNode hip e ip).mp he))
  · rw [newNode_type] at hdir'
    rw [Sys.newNode, if_pos hdir', update_self]
    exact newDir_target (h.range dp (h.mem hdp)).2.1

theorem Shape.removeEnt (h : Shape U D c) (he : Entry U D (dp, k) ip) (hleaf : ∀ k j, ¬ Ent D (ip, k) j) :
    Shape U (Sys.removeEnt D dp k ip) (fun j => c j + if j = ip then 1 else 0) ∧
      ∀ i, Reach D i → i ≠ ip → Reach (Sys.removeEnt D dp k ip) i := by
  have hk : 2 ≤ k := he.2.2.1.1
  obtain ⟨ht, hreach⟩ := h.toTree.removeEnt he hleaf
  have hput : Shape U (putEnt D dp k {})
      fun j => c j + (if j = ip then 1 else 0) + if j = dp ∧ (D ip).type = T_DIR then 1 else 0 := by
    have hent := entry_add he.1 (ent_remove he.2)
    refine h.of_tree (h.toTree.shrink (h.toLinked.remove he) hent hleaf).1 (fun _ hi => hi)
      (fun e i hi => (hent e i).mpr (.inl hi)) fun i hi => ⟨putEnt_type, fun hdir => ⟨target_putEnt hk i, fun hd => ?_⟩⟩
    by_cases hid : i = dp
    · subst hid
      exact hd.remove he.2.2.1.2.1
    · rwa [putEnt_of_ne hid]
  refine ⟨hput.congr ht fun i _ => ?_, hreach⟩
  unfold Sys.removeEnt
  split_ifs
  · exact addLink_same i
  · exact .refl _

/-! ## Calls -/

/-- What is no longer reachable after a call had no entries. -/
def Stays (D D' : Disk) : Prop := ∀ i, Reach D i → Reach D' i ∨ ∀ k j, ¬ Ent D (i, k) j

theorem reach_addLink {n : BitVec 16} (h : Reach D i) : Reach (addLink D a n) i := h.of_ents fun _ _ _ =>
    ent_addLink.mpr

theorem Shape.change {sc : Scope} (h : Change N sc D V D' V') (hD : WellFormed D) (hN : N ≤ 2 ^ 16)
    (hmax : ∀ i, Reach D i → (D i).nlink.toNat + 1 < 2 ^ 16) (hold : ∀ i, sc.old i → Reach D i)
    (hpar : ∀ i, sc.made i → Reach D i) (hcut : ∀ dp ip, sc.cut dp ip → Reach D dp) :
    (∃ U, Shape U D' fun _ => 0) ∧ Stays D D' := by
  cases h with
  | look hl =>
    obtain ⟨U, hs, hreach, -⟩ := hD.shape.frees hl.frees
    exact ⟨⟨U, hs⟩, fun i hi => .inl (hreach i hi)⟩
  | @link D₁ D₂ D₃ _ V₁ V₂ V₃ _ ip dp k name ho hp hl hip htype hfile hl' hdir hdp hnone hfree hd hd' =>
    obtain ⟨U₁, hs₁, hreach₁, hU₁⟩ := hD.shape.frees hl.frees
    have hmax₁ : U₁ ip → (D₁ ip).nlink.toNat + 1 < 2 ^ 16 := fun hi => by
      rw [hl.frees.eq_of_type htype]
      exact hmax ip (hU₁ ip hi)
    obtain ⟨U₂, hs₂, hreach₂, -⟩ := (hs₁.inc hmax₁).frees hl'.frees
    have hto : ∀ i, Reach D i → Reach D₂ i := fun i hi => hreach₂ i (reach_addLink (hreach₁ i hi))
    have hip₂ : U₂ ip := hs₂.mem (hto ip (hold ip ho))
    have hfile₂ : (D₂ ip).type ≠ T_DIR := by
      rw [hl'.frees.eq_of_type (hs₂.range ip hip₂).2.2]
      simpa using hfile
    obtain ⟨hs₃, hreach₃⟩ := hs₂.link hfile₂ (hto dp (hpar dp hp)) hdir hip₂ hnone hfree
    obtain ⟨U₄, hs₄, hreach₄, -⟩ := hs₃.frees hd.frees
    obtain ⟨U₅, hs₅, hreach₅, -⟩ := hs₄.frees hd'.frees
    exact ⟨⟨U₅, hs₅⟩, fun i hi => .inl (hreach₅ i (hreach₄ i (hreach₃ i (hto i hi))))⟩
  | @linkBad D₁ D₂ _ V₁ V₂ _ ip hl hip htype hfile hl' hd =>
    obtain ⟨U₁, hs₁, hreach₁, hU₁⟩ := hD.shape.frees hl.frees
    have hmax₁ : U₁ ip → (D₁ ip).nlink.toNat + 1 < 2 ^ 16 := fun hi => by
      rw [hl.frees.eq_of_type htype]
      exact hmax ip (hU₁ ip hi)
    obtain ⟨U₂, hs₂, hreach₂, -⟩ := (hs₁.inc hmax₁).frees hl'.frees
    obtain ⟨U₃, hs₃, hreach₃, -⟩ := hs₂.dec.frees hd.frees
    exact ⟨⟨U₃, hs₃⟩, fun i hi => .inl (hreach₃ i (reach_addLink (hreach₂ i (reach_addLink (hreach₁ i hi)))))⟩
  | @unlink D₁ D₂ _ V₁ V₂ _ ip dp k name hp hl hdir hdp hdot hdotdot hfound hip hv hlink hempty hd hd' =>
    obtain ⟨U₁, hs₁, hreach₁, -⟩ := hD.shape.frees hl.frees
    have hU := hs₁.mem (hreach₁ dp (hcut dp ip hp))
    have hk : 2 ≤ k := hfound.two_le (hs₁.dots dp hU hdir) hdot hdotdot
    have he : Entry U₁ D₁ (dp, k) ip := ⟨hU, hdir, ⟨hk, hfound.entry.1, hfound.entry.2.1⟩, hip.symm⟩
    have hleaf : ∀ k j, ¬ Ent D₁ (ip, k) j := fun k j hj => hj.2.1.2.2 (hempty hj.1 k hj.2.1.1 hj.2.1.2.1)
    obtain ⟨hs₂, hreach₂⟩ := hs₁.removeEnt he hleaf
    obtain ⟨U₃, hs₃, hreach₃, -⟩ := hs₂.frees hd.frees
    obtain ⟨U₄, hs₄, hreach₄, -⟩ := hs₃.dec.frees hd'.frees
    refine ⟨⟨U₄, hs₄⟩, fun i hi => ?_⟩
    by_cases hii : i = ip
    · subst hii
      refine .inr fun k j => ?_
      rw [Ent, ← hl.frees.eq_of_type (hs₁.range i (hs₁.closed _ _ he)).2.2]
      exact hleaf k j
    · exact .inl (hreach₄ i (reach_addLink (hreach₃ i (hreach₂ i (hreach₁ i hi) hii))))
  | @create D₁ _ V₁ _ ip dp k name type major minor hp hl hdir hdp htype hnone hip hpos hlt hfree hd =>
    obtain ⟨U₁, hs₁, hreach₁, -⟩ := hD.shape.frees hl.frees
    have hmax₁ : (D₁ dp).nlink.toNat + 1 < 2 ^ 16 := by
      rw [hl.frees.eq_of_type (by rw [hdir]; decide)]
      exact hmax dp (hpar dp hp)
    obtain ⟨hs₂, hreach₂⟩ := hs₁.create (fun hU => (hs₁.range ip hU).2.2 hip) hpos (by omega)
      (hreach₁ dp (hpar dp hp)) hdir
      htype hnone hfree hmax₁
    obtain ⟨U₃, hs₃, hreach₃, -⟩ := hs₂.frees hd.frees
    exact ⟨⟨U₃, by simpa using hs₃⟩, fun i hi => .inl (hreach₃ i (hreach₂ i (hreach₁ i hi)))⟩

theorem Shape.effect {sc : Scope} (h : Effect N sc D V D' V') (hD : WellFormed D) (hN : N ≤ 2 ^ 16)
    (hmax : ∀ i, Reach D i → (D i).nlink.toNat + 1 < 2 ^ 16) (hold : ∀ i, sc.old i → Reach D i)
    (hpar : ∀ i, sc.made i → Reach D i) (hcut : ∀ dp ip, sc.cut dp ip → Reach D dp) :
    (∃ U, Shape U D' fun _ => 0) ∧ Stays D D' := by
  cases h with
  | change hch htail =>
    obtain ⟨⟨U, hs⟩, hstays⟩ := Shape.change hch hD hN hmax hold hpar hcut
    cases htail with
    | none => exact ⟨⟨U, hs⟩, hstays⟩
    | put hd =>
      obtain ⟨U', hs', hreach, -⟩ := hs.frees hd.frees
      exact ⟨⟨U', hs'⟩, fun i hi => (hstays i hi).imp_left (hreach i)⟩
    | trunc htype =>
      have hsame := trunc_same htype
      refine ⟨⟨U, hs.congr (hs.toTree.congr fun i _ => hsame i) fun i _ => (hsame i).1⟩, fun i hi => ?_⟩
      exact (hstays i hi).imp_left fun hr => hr.of_ents fun e _ _ => Ent.of_same (hsame e.1).1
  | release hl hd =>
    obtain ⟨U, hs, hreach, -⟩ := hD.shape.frees hl.frees
    obtain ⟨U', hs', hreach', -⟩ := hs.frees hd.frees
    exact ⟨⟨U', hs'⟩, fun i hi => .inl (hreach' i (hreach i hi))⟩

/-- A call on a well-formed file system leaves it well-formed, if the directory of the name that it makes or removes
can be reached from the root, and the file that it makes a link to; a directory is removed only when it has no
entries with a name. -/
theorem calls_keep_wellFormed {s t : State} {p : Fin NPROC} {pr : Proc} {c : Call} {r : Int}
    (hidle : Idle s.ninodes s.inode V s) (hN : s.ninodes ≤ 2 ^ 16) (hwf : WellFormed s.inode)
    (hlinks : ∀ i, Reach s.inode i → (s.inode i).nlink.toNat < 2 ^ 15 - 1) (hp : s.proc p = some pr)
    (hen : c.Enabled s.proc p) (hpar : ∀ dp, c.Parent s.inode pr.cwd dp → Reach s.inode dp)
    (hold : ∀ ip, c.Target s.inode pr.cwd r ip → Reach s.inode ip) (hrun : c.run p s = .ok r t) :
    WellFormed t.inode ∧ ∀ d, Reach s.inode d → (s.inode d).type = T_DIR → ¬ Reach t.inode d →
      ∀ k, ¬ (s.inode d).named k := by
  obtain ⟨pr', hp', hcall⟩ := hidle.call hN hen
  cases hp.symm.trans hp'
  rw [hrun] at hcall
  obtain ⟨D', V', heff, hidle'⟩ := hcall
  have hD' := hidle'.inode
  subst hD'
  have hmax : ∀ i, Reach s.inode i → (s.inode i).nlink.toNat + 1 < 2 ^ 16 := fun i hi => by
    have := hlinks i hi
    omega
  obtain ⟨⟨U, hs⟩, hstays⟩ := Shape.effect heff hwf hN hmax hold (fun dp h => hpar dp (Call.parent_of_madeIn h))
    fun dp ip h => hpar dp (Call.parent_of_cutFrom h)
  refine ⟨hs.wellFormed, fun d hd hdir hgone k hk => ?_⟩
  exact (hstays d hd).resolve_left hgone k _ ⟨hdir, hk, rfl⟩

theorem calls_keep_wellFormed_mkdir : ∃ r t, Call.run 0 (.mkdir (some [100])) (start 200 emptyRoot []) = .ok r t ∧
    WellFormed t.inode := by
  have hroot : (resolve emptyRoot ROOTINO [100] true).map Prod.fst = some ROOTINO := by decide
  have hproc : (start 200 emptyRoot []).proc 0 = some { cwd := ROOTINO } := rfl
  have hok : (step (start 200 emptyRoot []) (0, .mkdir (some [100]))).isSome := by decide +kernel
  obtain ⟨t, ht⟩ := Option.isSome_iff_exists.mp hok
  obtain ⟨r, hrun⟩ := run_of_step ht
  refine ⟨r, t, hrun, (calls_keep_wellFormed idle_start (by decide) consistent_emptyRoot.toWellFormed
    (fun i _ => linksBelow_emptyRoot i) hproc (by decide) (fun dp hdp => ?_) (fun _ h => ?_) hrun).1⟩
  swap
  · exact False.elim h
  obtain ⟨name, hname⟩ := hdp
  rw [show resolve emptyRoot ROOTINO [100] true = some (dp, name) from hname] at hroot
  cases hroot
  exact .refl

/-! ## A link to a file that cannot be reached -/

/-- `mkdir d; chdir d; unlink ../d; open("f", O_CREATE)`. -/
def outside : List (Fin NPROC × Call) :=
  [(0, .mkdir (some [100])), (0, .chdir (some [100])), (0, .unlink (some [46, 46, 47, 100])),
    (0, .openPath (some [102]) O_CREATE)]

/-- Then `link("f", "/g")`. -/
def linkOut : Call := .link (some [102]) (some [47, 103])

/-- The link counts of `f` are no longer right: it is still counted in a directory that was removed. -/
theorem link_to_unreachable : ∃ s, Machine.Run step enabled (start 200 emptyRoot []) outside s ∧ WellFormed s.inode ∧
    (∀ i < s.ninodes, (s.inode i).nlink.toNat < 2 ^ 15 - 1) ∧
    (∃ pr, s.proc 0 = some pr ∧ ∀ dp, linkOut.Parent s.inode pr.cwd dp → Reach s.inode dp) ∧
    ∃ r t, linkOut.run 0 s = .ok r t ∧ ¬ WellFormed t.inode := by
  obtain ⟨s, hs, ⟨hdir, hlink, hsize, hdot, hdot', hdotdot, hdotdot', hfree⟩, hlinks, ⟨pr, hproc, hpar⟩,
      t, ht, hdir', hsize', hent, hfile, hlink'⟩ :
      ∃ s, Machine.Run step enabled (start 200 emptyRoot []) outside s ∧
      ((s.inode ROOTINO).type = T_DIR ∧ (s.inode ROOTINO).nlink = 1 ∧ (s.inode ROOTINO).size = 3 * DIRENT ∧
      ((s.inode ROOTINO).ents 0).inum = 1 ∧ namecmp ((s.inode ROOTINO).ents 0).name .dot = 0 ∧
      ((s.inode ROOTINO).ents 1).inum = 1 ∧ namecmp ((s.inode ROOTINO).ents 1).name .dotdot = 0 ∧
      ((s.inode ROOTINO).ents 2).inum = 0) ∧ (∀ i < s.ninodes, (s.inode i).nlink.toNat < 2 ^ 15 - 1) ∧
      (∃ pr ∈ s.proc 0, (resolve s.inode pr.cwd [47, 103] true).map Prod.fst = some ROOTINO) ∧
      ∃ t ∈ step s (0, linkOut), (t.inode ROOTINO).type = T_DIR ∧ (t.inode ROOTINO).size = 3 * DIRENT ∧
        ((t.inode ROOTINO).ents 2).inum = 3 ∧ (t.inode 3).type = T_FILE ∧ (t.inode 3).nlink = 2 := by decide +kernel
  obtain ⟨r, hrun⟩ := run_of_step ht
  have hslots : ∀ {x : Node} {k}, x.size = 3 * DIRENT → (2 ≤ k ∧ x.has k ↔ k = 2) := fun {x k} hx => by
    unfold Node.has
    rw [hx, show DIRENT = 16 from rfl]
    omega
  have hleaf : ∀ k, ¬ (s.inode ROOTINO).named k := by
    rintro k ⟨hk, hx, h0⟩
    obtain rfl := (hslots hsize).mp ⟨hk, hx⟩
    exact h0 hfree
  have hdots : Dots ROOTINO (s.inode ROOTINO) := by
    refine ⟨by rw [hsize]; decide, ?_, ⟨by rw [Node.target, hdot]; decide, hdot'⟩, by rw [hdotdot]; decide, hdotdot'⟩
    rw [Node.has, hsize]
    decide
  refine ⟨s, hs, (wellFormed_of_leaf hdir hdots (by rw [Node.target, hdotdot]; decide) hleaf hlink).1,
    hlinks, ⟨pr, hproc, fun dp hdp => ?_⟩, r, t, hrun, fun hwf => ?_⟩
  · obtain ⟨name, hname⟩ := hdp
    rw [hname] at hpar
    obtain rfl : dp = ROOTINO := by simpa using hpar
    exact .refl
  · -- the one entry that names `f`
    have hroot : ∀ k i, Ent t.inode (ROOTINO, k) i → k = 2 ∧ i = 3 := fun k i he => by
      obtain rfl := (hslots hsize').mp ⟨he.2.1.1, he.2.1.2.1⟩
      exact ⟨rfl, by rw [← he.2.2, Node.target, hent]; decide⟩
    have hreach : ∀ i, Reach t.inode i → i = ROOTINO ∨ i = 3 := fun i hi => by
      induction hi with
      | refl => exact .inl rfl
      | tail _ hc ih =>
        obtain ⟨k, he⟩ := hc
        rcases ih with rfl | rfl
        · exact .inr (hroot k _ he).2
        · exact absurd (hfile.symm.trans he.1) (by decide)
    have hone : ∀ e, Entry (Reach t.inode) t.inode e 3 → e = (ROOTINO, 2) := fun e he => by
      obtain ⟨d, k⟩ := e
      rcases hreach d he.1 with rfl | rfl
      · rw [(hroot k _ he.2).1]
      · exact absurd (hfile.symm.trans he.2.1) (by decide)
    have hthree : Reach t.inode 3 :=
      .tail .refl ⟨2, hdir', ⟨Nat.le_refl 2,
      ((hslots hsize').mpr rfl).2, by rw [hent]; decide⟩, by rw [Node.target, hent]; decide⟩
    have hlinks := hwf.links 3 hthree
    have hsub : Graph.count (Sub (Reach t.inode) t.inode) 3 = 0 := Graph.count_eq_zero fun e hsub => by
      obtain ⟨he, i, hi, -⟩ := hsub
      exact absurd (hfile.symm.trans (he ▸ hi.2.1)) (by decide)
    have hle := Graph.count_le_one hone
    rw [hlink', hsub, if_neg (by decide), show (2 : BitVec 16).toNat = 2 from rfl] at hlinks
    omega

end Xv6.Sys

import Xv6.Sys.Links

/-!
# Entries that dangle

When every inode without links is held by a process or a file (`Held`), lookups free nothing, and a change
of the disk is a link, a new inode or a removed entry (`Settled`). Entries with a name are counted in the
link count of what they name, so that is never freed. The `..` of a directory is counted only while the
directory has a name itself: of a directory that was removed and is still held it can come to name a free
inode, and a lookup then panics. That is the only way: as long as every inode that the `..` of another
directory names keeps a link or a reference in each call, no entry dangles.
-/

namespace Xv6.Sys

open Function (update update_of_ne update_self)
open Machine (Run)

variable {N : Nat} {sc : Scope} {D D' : Disk} {V V' K : Nat → Prop} {i j : Nat}
variable {major minor n type : BitVec 16} {s : State} {dp ip k : Nat}
variable {de : Dirent} {name : Name} {e : Fin NPROC × Call}

theorem Look.eq (h : Look D V D' V') (hh : Held D V) : D' = D := hh.eq_of_frees h.frees

theorem Drop.eq (h : Drop K i D V D' V') (hk : Alloc D i → (D i).nlink = 0 → K i) : D' = D :=
  (h.disk.resolve_right fun hf => hf.1 (hk hf.2.1 hf.2.2.1)).1

theorem Drop.eq_of_ne (h : Drop K i D V D' V') (hj : j = i → (D i).nlink ≠ 0) : D' j = D j := by
  rcases h.disk with ⟨rfl, -⟩ | ⟨-, -, h0, rfl⟩
  · rfl
  · exact update_of_ne (fun hji => hj hji h0) ..

theorem Held.addLink (h : Held D V) (hi : V i) : Held (Sys.addLink D i n) V := fun j hj h0 => by
  by_cases hji : j = i
  · exact hji ▸ hi
  · rw [Alloc, addLink_type] at hj
    rw [addLink_of_ne hji] at h0
    exact h j hj h0

/-- What a call does to a disk on which nothing without links is unheld. -/
inductive Settled (N : Nat) (sc : Scope) (D : Disk) (V : Nat → Prop) : Disk → (Nat → Prop) → Prop
  | same {V' : Nat → Prop} (hV : ∀ j, V j → V' j) : Settled N sc D V D V'
  | link {V' : Nat → Prop} {ip dp k : Nat} {name : Name} (hpar : sc.made dp) (hV : ∀ j, V j → V' j) (htype : Alloc D ip)
      (hfile : (D ip).type ≠ T_DIR) (hdir : (D dp).type = T_DIR) (hfree : FreeSlot (D dp) k) :
      Settled N sc D V (putEnt (addLink D ip 1) dp k ⟨BitVec.ofNat 16 ip, name.strncpy⟩) V'
  | create {V' : Nat → Prop} {ip dp k : Nat} {name : Name} {type major minor : BitVec 16} (hpar : sc.made dp)
      (hV : ∀ j, V j → V' j) (hdir : (D dp).type = T_DIR) (htype : type ≠ 0) (hip : (D ip).type = 0)
      (hpos : 0 < ip) (hlt : ip < N)
      (hfree : FreeSlot (D dp) k) :
      Settled N sc D V (putEnt (newNode D dp ip type major minor) dp k ⟨BitVec.ofNat 16 ip, name.strncpy⟩) V'
  | unlink {D₁ D' : Disk} {V₀ V₁ V' : Nat → Prop} {ip dp k : Nat} {name : Name} (hcut : sc.cut dp ip)
      (hV : ∀ j, V j → V₀ j)
      (hdir : (D dp).type = T_DIR) (hdp : V₀ dp) (hdot : namecmp name .dot ≠ 0) (hdotdot : namecmp name .dotdot ≠ 0)
      (hfound : Found (D dp) name (some k)) (hip : ip = (D dp).target k) (hv : V₀ ip)
      (hempty : (D ip).type = T_DIR → ∀ j, ¬ (D ip).named j)
      (hd : Drop V dp (removeEnt D dp k ip) V₀ D₁ V₁) (hd' : Drop V ip (addLink D₁ ip (-1)) V₁ D' V') :
      Settled N sc D V D' V'

theorem newNode_nlink (hne : ip ≠ dp) :
    (newNode D dp ip type major minor dp).nlink = if type = T_DIR then (D dp).nlink + 1 else (D dp).nlink := by
  unfold newNode
  split_ifs
  · rw [update_of_ne (Ne.symm hne), addLink_nlink]
  · rw [update_of_ne (Ne.symm hne)]

theorem nlink_inc_ne {x : BitVec 16} (h : x.toNat + 1 < 2 ^ 16) : x + 1 ≠ 0 := fun h0 => by
  have := toNat_inc h
  rw [h0, show (0 : BitVec 16).toNat = 0 from rfl] at this
  omega

/-- One more link does not overflow any link count. -/
def CanLink (D : Disk) : Prop := ∀ i, (D i).nlink.toNat + 1 < 2 ^ 16

theorem Change.settled (h : Change N sc D V D' V') (hh : Held D V) (hmax : CanLink D) : Settled N sc D V D' V' := by
  cases h with
  | look hl =>
    rw [hl.eq hh]
    exact .same hl.known
  | @link D₁ D₂ D₃ _ V₁ V₂ V₃ _ ip dp k name hold hpar hl hip htype hfile hl' hdir hdp hnone hfree hd hd' =>
    obtain rfl := hl.eq hh
    obtain rfl := hl'.eq ((hh.mono hl.known).addLink hip)
    have hne : dp ≠ ip := by
      rintro rfl
      exact hfile (by simpa using hdir)
    rw [addLink_of_ne hne] at hdir hfree
    have hD₃ := hd.eq fun hj h0 => by
      rw [Alloc, putEnt_type, addLink_of_ne hne] at hj
      rw [putEnt_nlink, addLink_of_ne hne] at h0
      exact hh dp hj h0
    subst hD₃
    have hD' := hd'.eq fun _ h0 => by
      rw [putEnt_nlink, addLink_nlink] at h0
      exact absurd h0 (nlink_inc_ne (hmax ip))
    subst hD'
    refine .link hpar (fun j hj => hd'.known j (.inr hj) (hd.known j (.inr hj) (hl'.known j (hl.known j hj))))
      htype hfile
      hdir hfree
  | @linkBad D₁ D₂ _ V₁ V₂ _ ip hl hip htype hfile hl' hd =>
    obtain rfl := hl.eq hh
    obtain rfl := hl'.eq ((hh.mono hl.known).addLink hip)
    rw [addLink_cancel] at hd
    rw [hd.eq (hh ip)]
    exact .same fun j hj => hd.known j (.inr hj) (hl'.known j (hl.known j hj))
  | unlink hcut hl hdir hdp hdot hdotdot hfound hip hv hlink hempty hd hd' =>
    obtain rfl := hl.eq hh
    exact .unlink hcut hl.known hdir hdp hdot hdotdot hfound hip hv (fun ht j hj =>
      hj.2.2 (hempty ht j hj.1 hj.2.1)) hd hd'
  | @create D₁ _ V₁ _ ip dp k name type major minor hpar hl hdir hdp htype hnone hip hpos hlt hfree hd =>
    obtain rfl := hl.eq hh
    have hne : ip ≠ dp := by
      rintro rfl
      rw [hdir] at hip
      exact absurd hip (by decide)
    have hD' := hd.eq fun hj h0 => by
      rw [Alloc, putEnt_type, (newNode_parent type major minor hne).1] at hj
      rw [putEnt_nlink, newNode_nlink hne] at h0
      split_ifs at h0
      · exact absurd h0 (nlink_inc_ne (hmax dp))
      · exact hh dp hj h0
    subst hD'
    exact .create hpar (fun j hj => hd.known j (.inr hj) (.inl (hl.known j hj))) hdir htype hip hpos hlt hfree

/-! ## The law between calls -/

/-- What holds within a call that started on the disk `S`: names are counted, with a credit of at least `m`,
inodes without links are held, and a `..` names an allocated inode or one that was allocated before. -/
structure Core (S D : Disk) (V : Nat → Prop) (m : Nat → Nat) : Prop where
  linked : ∃ c, (∀ i, Alloc D i → m i ≤ c i) ∧ Linked (Alloc D) D c
  held : Held D V
  dotdot : ∀ d, (D d).type = T_DIR → Alloc D ((D d).target 1) ∨ Alloc S ((D d).target 1)
  old : ∀ i, Alloc D i → (D i).nlink = 0 → Alloc S i

variable {S : Disk} {m : Nat → Nat}

theorem alloc_addLink : Alloc (addLink D i n) = Alloc D := funext fun j => by simp [Alloc]

theorem alloc_putEnt {d : Nat} : Alloc (putEnt D d k de) = Alloc D := funext fun j => by simp [Alloc]

theorem target_putEnt {d : Nat} (hk : 2 ≤ k) (j : Nat) : (putEnt D d k de j).target 1 = (D j).target 1 := by
  unfold Node.target
  by_cases hj : j = d
  · rw [hj, putEnt_self]
    simp only [update_of_ne (show 1 ≠ k by omega)]
  · rw [putEnt_of_ne hj]

theorem target_addLink (j k : Nat) : (addLink D i n j).target k = (D j).target k := by simp [Node.target]

theorem Core.drop (h : Core S D V m) (hd : Drop K i D V D' V') : Core S D' V' m := by
  obtain ⟨⟨c, hc, hl⟩, hheld, hdd, hold⟩ := h
  rcases hd.disk with ⟨rfl, hi⟩ | ⟨-, ht, h0, rfl⟩
  · refine ⟨⟨c, hc, hl⟩, fun j hj h0 => ?_, hdd, hold⟩
    by_cases hji : j = i
    · subst hji
      exact hi (hheld j hj h0) h0
    · exact hd.known j (.inl hji) (hheld j hj h0)
  · have halloc : Alloc (update D i (D i).freed) = fun j => Alloc D j ∧ j ≠ i := funext fun j => by
      by_cases hji : j = i
      · subst hji
        simp [Alloc, Node.freed]
      · simp [Alloc, hji]
    have hne : ∀ j, Alloc (update D i (D i).freed) j → j ≠ i := fun j hj => by
      rw [halloc] at hj
      exact hj.2
    obtain ⟨hroot, -, hnone, -⟩ := hl.unnamed ht h0
    obtain ⟨c', hcc, hl'⟩ := hl.drop hnone hroot
    refine ⟨⟨c', fun j hj => ?_, ?_⟩, fun j hj hz => ?_, fun d hd' => ?_, fun j hj hz => ?_⟩
    · rw [halloc] at hj
      exact (hc j hj.1).trans (hcc j hj.1)
    · rw [halloc]
      exact hl'.congr fun j hj => by rw [update_of_ne hj.2]; exact ⟨.refl _, rfl⟩
    · have hji := hne j hj
      rw [Alloc, update_of_ne hji] at hj
      rw [update_of_ne hji] at hz
      exact hd.known j (.inl hji) (hheld j hj hz)
    · have hdi := hne d (alloc_of_dir hd')
      rw [update_of_ne hdi] at hd' ⊢
      by_cases hti : (D d).target 1 = i
      · exact .inr (hti ▸ hold i ht h0)
      · refine (hdd d hd').imp_left fun ha => ?_
        rwa [Alloc, update_of_ne hti]
    · have hji := hne j hj
      rw [Alloc, update_of_ne hji] at hj
      rw [update_of_ne hji] at hz
      exact hold j hj hz

theorem Core.drops (h : Core S D V m) (hd : Drops K D V D' V') : Core S D' V' m := by
  induction hd with
  | nil => exact h
  | snoc _ hd ih => exact ih.drop hd

theorem newNode_of_ne (hj : j ≠ ip) :
    newNode D dp ip type major minor j = if type = T_DIR then addLink D dp 1 j else D j := by
  unfold newNode
  split_ifs
  · rw [update_of_ne hj]
  · rw [update_of_ne hj]

theorem alloc_newNode (htype : type ≠ 0) :
    Alloc (newNode D dp ip type major minor) = fun j => Alloc D j ∨ j = ip := funext fun j => by
  unfold Alloc
  by_cases hj : j = ip
  · subst hj
    unfold newNode
    split_ifs with ht
    · simp [newDir, T_DIR]
    · simpa using htype
  · rw [newNode_of_ne hj]
    split_ifs <;> simp [hj]

theorem target_newNode (hj : j ≠ ip) :
    (newNode D dp ip type major minor j).target 1 = (D j).target 1 ∧
      (newNode D dp ip type major minor j).type = (D j).type := by
  rw [newNode_of_ne hj]
  split_ifs
  · exact ⟨target_addLink j 1, addLink_type⟩
  · exact ⟨rfl, rfl⟩

theorem nlink_link (hmax : (D ip).nlink.toNat + 1 < 2 ^ 16) (h0 : (putEnt (addLink D ip 1) dp k de j).nlink = 0) :
    (D j).nlink = 0 := by
  rw [putEnt_nlink] at h0
  by_cases hji : j = ip
  · subst hji
    rw [addLink_nlink] at h0
    exact absurd h0 (nlink_inc_ne hmax)
  · rwa [addLink_of_ne hji] at h0

theorem nlink_create (hmax : (D dp).nlink.toNat + 1 < 2 ^ 16)
    (h0 : (putEnt (newNode D dp ip type major minor) dp k de j).nlink = 0) : j ≠ ip ∧ (D j).nlink = 0 := by
  rw [putEnt_nlink] at h0
  have hj : j ≠ ip := by
    rintro rfl
    unfold newNode at h0
    split_ifs at h0 <;> simp [newDir] at h0
  refine ⟨hj, ?_⟩
  rw [newNode_of_ne hj] at h0
  split_ifs at h0
  · by_cases hjd : j = dp
    · subst hjd
      rw [addLink_nlink] at h0
      exact absurd h0 (nlink_inc_ne hmax)
    · rwa [addLink_of_ne hjd] at h0
  · exact h0

theorem Held.link (h : Held D V) (hmax : (D ip).nlink.toNat + 1 < 2 ^ 16) :
    Held (putEnt (Sys.addLink D ip 1) dp k de) V := fun j hj h0 => by
  rw [alloc_putEnt, alloc_addLink] at hj
  exact h j hj (nlink_link hmax h0)

theorem Held.create (h : Held D V) (htype : type ≠ 0) (hmax : (D dp).nlink.toNat + 1 < 2 ^ 16) :
    Held (putEnt (newNode D dp ip type major minor) dp k de) V := fun j hj h0 => by
  obtain ⟨hne, h0⟩ := nlink_create hmax h0
  rw [alloc_putEnt, alloc_newNode htype] at hj
  exact h j (hj.resolve_right hne) h0

theorem Core.link (h : Core S D V fun _ => 0) (hmax : CanLink D) (hV : ∀ j, V j → V' j)
    (htype : Alloc D ip) (hfile : (D ip).type ≠ T_DIR) (hdir : (D dp).type = T_DIR) (hfree : FreeSlot (D dp) k) :
    Core S (putEnt (addLink D ip 1) dp k ⟨BitVec.ofNat 16 ip, name⟩) V' fun _ => 0 := by
  obtain ⟨⟨c, -, hl⟩, hheld, hdd, hold⟩ := h
  have hdp := alloc_of_dir hdir
  have hk : 2 ≤ k := hfree.two_le (hl.dots dp hdp hdir) (hl.range dp hdp).1
  refine ⟨⟨c, fun _ _ => Nat.zero_le _, ?_⟩, (hheld.link (hmax ip)).mono hV, fun d hd => ?_, fun j hj h0 => ?_⟩
  · rw [alloc_putEnt, alloc_addLink]
    exact hl.link htype hdp hfile hdir hfree (hmax ip)
  · rw [alloc_putEnt, alloc_addLink, target_putEnt hk, target_addLink]
    exact hdd d (by simpa using hd)
  · rw [alloc_putEnt, alloc_addLink] at hj
    exact hold j hj (nlink_link (hmax ip) h0)

theorem Core.create (h : Core S D V fun _ => 0)
    (hmax : CanLink D) (hV : ∀ j, V j → V' j) (hdir : (D dp).type = T_DIR) (htype : type ≠ 0)
    (hip : (D ip).type = 0) (hpos : 0 < ip) (hlt : ip < 2 ^ 16) (hfree : FreeSlot (D dp) k) :
    Core S (putEnt (newNode D dp ip type major minor) dp k ⟨BitVec.ofNat 16 ip, name⟩) V' fun _ => 0 := by
  obtain ⟨⟨c, -, hl⟩, hheld, hdd, hold⟩ := h
  have hdp := alloc_of_dir hdir
  have hk : 2 ≤ k := hfree.two_le (hl.dots dp hdp hdir) (hl.range dp hdp).1
  refine ⟨⟨fun j => if j = ip then 0 else c j, fun _ _ => Nat.zero_le _, ?_⟩, (hheld.create htype (hmax dp)).mono hV,
    fun d hd => ?_, fun j hj h0 => ?_⟩
  · rw [alloc_putEnt, alloc_newNode htype]
    exact hl.create (fun h => h hip) hpos hlt hdp hdir htype hfree (hmax dp)
  · rw [alloc_putEnt, alloc_newNode htype, target_putEnt hk]
    rw [putEnt_type] at hd
    by_cases hdi : d = ip
    · -- the `..` of the new directory
      subst hdi
      unfold newNode at hd ⊢
      split_ifs at hd ⊢ with ht
      · rw [update_self, newDir_target (hl.range dp hdp).2.1]
        exact .inl (.inl hdp)
      · exact absurd (by simpa using hd) ht
    · rw [(target_newNode hdi).2] at hd
      rw [(target_newNode hdi).1]
      exact (hdd d hd).imp_left .inl
  · obtain ⟨hne, h0⟩ := nlink_create (hmax dp) h0
    rw [alloc_putEnt, alloc_newNode htype] at hj
    exact hold j (hj.resolve_right hne) h0

theorem alloc_removeEnt : Alloc (removeEnt D dp k ip) = Alloc D := by
  unfold removeEnt
  split_ifs
  · rw [alloc_addLink, alloc_putEnt]
  · rw [alloc_putEnt]

theorem removeEnt_of_ne (hj : j ≠ dp) : removeEnt D dp k ip j = D j := by
  unfold removeEnt
  split_ifs
  · rw [addLink_of_ne hj, putEnt_of_ne hj]
  · rw [putEnt_of_ne hj]

theorem removeEnt_nlink : (removeEnt D dp k ip dp).nlink =
    if (D ip).type = T_DIR then (D dp).nlink + -1 else (D dp).nlink := by
  unfold removeEnt
  split_ifs
  · rw [addLink_nlink, putEnt_nlink]
  · rw [putEnt_nlink]

theorem target_removeEnt (hk : 2 ≤ k) (j : Nat) :
    (removeEnt D dp k ip j).type = (D j).type ∧ (removeEnt D dp k ip j).target 1 = (D j).target 1 := by
  unfold removeEnt
  split_ifs
  · rw [addLink_type, putEnt_type, target_addLink, target_putEnt hk]
    exact ⟨rfl, rfl⟩
  · rw [putEnt_type, target_putEnt hk]
    exact ⟨rfl, rfl⟩

theorem Core.removeEnt (h : Core S D V fun _ => 0) (hS : ∀ i, Alloc D i → Alloc S i)
    (he : Entry (Alloc D) D (dp, k) ip) (hdp : V dp) :
    Core S (Sys.removeEnt D dp k ip) V fun j => if j = ip then 1 else 0 := by
  obtain ⟨⟨c, -, hl⟩, hheld, hdd, -⟩ := h
  have hk : 2 ≤ k := he.2.2.1.1
  refine ⟨⟨_, fun j _ => Nat.le_add_left _ (c j), ?_⟩, fun j hj h0 => ?_, fun d hd => ?_, fun j hj _ => ?_⟩
  · rw [alloc_removeEnt]
    exact hl.removeEnt he
  · by_cases hjd : j = dp
    · exact hjd ▸ hdp
    · rw [alloc_removeEnt] at hj
      rw [removeEnt_of_ne hjd] at h0
      exact hheld j hj h0
  · rw [alloc_removeEnt, (target_removeEnt hk d).2]
    rw [(target_removeEnt hk d).1] at hd
    exact hdd d hd
  · rw [alloc_removeEnt] at hj
    exact hS j hj

theorem Core.dec (h : Core S D V fun j => if j = i then 1 else 0) (hi : V i) (hS : Alloc S i) :
    Core S (addLink D i (-1)) V fun _ => 0 := by
  obtain ⟨⟨c, hc, hl⟩, hheld, hdd, hold⟩ := h
  refine ⟨⟨fun j => c j - if j = i then 1 else 0, fun _ _ => Nat.zero_le _, ?_⟩, hheld.addLink hi, fun d hd => ?_,
    fun j hj h0 => ?_⟩
  · rw [alloc_addLink]
    refine (hl.cast fun j hj => ?_).dec
    have := hc j hj
    omega
  · rw [alloc_addLink, target_addLink]
    exact hdd d (by simpa using hd)
  · rw [alloc_addLink] at hj
    by_cases hji : j = i
    · exact hji ▸ hS
    · rw [addLink_of_ne hji] at h0
      exact hold j hj h0

theorem Linked.found {c : Nat → Nat} (hl : Linked (Alloc D) D c) (hdir : (D dp).type = T_DIR)
    (hdot : namecmp name .dot ≠ 0) (hdotdot : namecmp name .dotdot ≠ 0) (hfound : Found (D dp) name (some k))
    (hip : ip = (D dp).target k) (hempty : (D ip).type = T_DIR → ∀ j, ¬ (D ip).named j) :
    Entry (Alloc D) D (dp, k) ip ∧ ip ≠ dp := by
  have hdp := alloc_of_dir hdir
  have hk : 2 ≤ k := hfound.two_le (hl.dots dp hdp hdir) hdot hdotdot
  have he : Entry (Alloc D) D (dp, k) ip := ⟨hdp, hdir, ⟨hk, hfound.entry.1, hfound.entry.2.1⟩, hip.symm⟩
  refine ⟨he, ?_⟩
  rintro rfl
  exact hempty hdir k he.2.2.1

theorem Core.settled (h : Core S D V fun _ => 0) (hS : ∀ i, Alloc D i → Alloc S i) (hs : Settled N sc D V D' V')
    (hN : N ≤ 2 ^ 16) (hmax : CanLink D) : Core S D' V' fun _ => 0 := by
  cases hs with
  | same hV => exact { h with held := h.held.mono hV }
  | link _ hV htype hfile hdir hfree => exact h.link hmax hV htype hfile hdir hfree
  | create _ hV hdir htype hip hpos hlt hfree => exact h.create hmax hV hdir htype hip hpos (by omega) hfree
  | @unlink D₁ _ V₀ V₁ _ ip dp k name _ hV hdir hdp hdot hdotdot hfound hip hv hempty hd hd' =>
    obtain ⟨c, -, hl⟩ := h.linked
    obtain ⟨he, hne⟩ := hl.found hdir hdot hdotdot hfound hip hempty
    have hrem := Core.removeEnt { h with held := h.held.mono hV } hS he hdp
    have hdec := (hrem.drop hd).dec (hd.known ip (.inl hne) hv) (hS _ (hl.closed _ _ he))
    exact hdec.drop hd'

theorem alloc_congr (hs : ∀ j, (D j).Same (D' j) ∧ (D j).nlink = (D' j).nlink) : Alloc D' = Alloc D :=
  funext fun j => by rw [Alloc, Alloc, (hs j).1.1]

theorem Core.congr (h : Core S D V m) (hs : ∀ j, (D j).Same (D' j) ∧ (D j).nlink = (D' j).nlink) : Core S D' V m := by
  obtain ⟨⟨c, hc, hl⟩, hheld, hdd, hold⟩ := h
  have halloc := alloc_congr hs
  refine ⟨⟨c, by rwa [halloc], ?_⟩, fun j hj h0 => ?_, fun d hd => ?_, fun j hj h0 => ?_⟩
  · rw [halloc]
    exact hl.congr fun j _ => hs j
  · rw [halloc] at hj
    exact hheld j hj ((hs j).2.trans h0)
  · rw [halloc]
    rw [← (hs d).1.1] at hd
    unfold Node.target
    rw [← ((hs d).1.2 hd).2]
    exact hdd d hd
  · rw [halloc] at hj
    exact hold j hj ((hs j).2.trans h0)

theorem Core.effect (h : Core S D V fun _ => 0) (hS : ∀ i, Alloc D i → Alloc S i) (he : Effect N sc D V D' V')
    (hN : N ≤ 2 ^ 16) (hmax : CanLink D) :
    Core S D' V' fun _ => 0 := by
  cases he with
  | change hch htail =>
    have h₁ := h.settled hS (hch.settled h.held hmax) hN hmax
    cases htail with
    | none => exact h₁
    | put hd => exact h₁.drop hd
    | trunc htype => exact h₁.congr (trunc_same htype)
  | release hl hd =>
    obtain rfl := hl.eq h.held
    exact Core.drops { h with held := h.held.mono hl.known } hd

/-! ## What a call frees -/

/-- The call can lower the link count of `i`: it removes a name of it, or of a directory in it. -/
def Scope.low (sc : Scope) (D : Disk) (i : Nat) : Prop :=
  ∃ dp ip, sc.cut dp ip ∧ (i = ip ∨ i = dp ∧ (D ip).type = T_DIR)

theorem nlink_eq_one {x : BitVec 16} (h : x + -1 = 0) : x = 1 := by bv_omega

section

variable {c : Nat → Nat} {d : Nat}

theorem Settled.alloc (hs : Settled N sc D V D' V') (hi : Alloc D i) (hv : V i) : Alloc D' i := by
  cases hs with
  | same => exact hi
  | link => rwa [alloc_putEnt, alloc_addLink]
  | create _ _ _ htype =>
    rw [alloc_putEnt, alloc_newNode htype]
    exact .inl hi
  | @unlink D₁ _ V₀ V₁ _ ip dp k _ _ _ _ _ _ _ _ _ _ _ hd hd' =>
    rw [Alloc, hd'.frees.eq_of_mem hv, addLink_type, hd.frees.eq_of_mem hv]
    rwa [← alloc_removeEnt] at hi

section

variable (hl : Linked (Alloc D) D c)

include hl

theorem Settled.last (hh : Held D V) (hs : Settled N sc D V D' V')
    (hmax : CanLink D) (hi : Alloc D i) (hv : ¬ V i) (hlast : Alloc D' i → (D' i).nlink = 0) :
    sc.low D i ∧ (D i).nlink = 1 := by
  cases hs with
  | same => exact absurd (hh i hi (hlast hi)) hv
  | @link _ ip dp k name =>
    have hi' : Alloc (putEnt (addLink D ip 1) dp k ⟨BitVec.ofNat 16 ip, name.strncpy⟩) i := by
      rwa [alloc_putEnt, alloc_addLink]
    exact absurd ((hh.link (hmax ip)) i hi' (hlast hi')) hv
  | @create _ ip dp k name type major minor _ _ _ htype =>
    have hi' : Alloc (putEnt (newNode D dp ip type major minor) dp k
        ⟨BitVec.ofNat 16 ip, name.strncpy⟩) i := by
      rw [alloc_putEnt, alloc_newNode htype]
      exact .inl hi
    exact absurd ((hh.create htype (hmax dp)) i hi' (hlast hi')) hv
  | @unlink D₁ _ V₀ V₁ _ ip dp k name hcut _ hdir _ hdot hdotdot hfound hip _ hempty hd hd' =>
    obtain ⟨-, hne⟩ := hl.found hdir hdot hdotdot hfound hip hempty
    have hpos : (D i).nlink ≠ 0 := fun h0 => hv (hh i hi h0)
    by_cases hii : i = ip
    · subst hii
      have hD₁ : D₁ i = D i := (hd.eq_of_ne fun h => absurd h hne).trans (removeEnt_of_ne hne)
      have hnlink : (addLink D₁ i (-1) i).nlink = (D i).nlink + -1 := by rw [addLink_nlink, hD₁]
      refine ⟨⟨dp, i, hcut, .inl rfl⟩, nlink_eq_one ?_⟩
      by_contra h0
      have hD' : D' i = addLink D₁ i (-1) i := hd'.eq_of_ne fun _ => by rwa [hnlink]
      rw [Alloc, hD', hnlink, addLink_type, hD₁] at hlast
      exact h0 (hlast hi)
    · have hrest : D' i = D₁ i := (hd'.eq_of_ne fun h => absurd h hii).trans (addLink_of_ne hii)
      by_cases hid : i = dp
      · subst hid
        have h0 : (removeEnt D i k ip i).nlink = 0 := by
          by_contra h0
          have hD₁ : D₁ i = removeEnt D i k ip i := hd.eq_of_ne fun _ => h0
          rw [← alloc_removeEnt, Alloc, ← hD₁, ← hrest] at hi
          rw [← hD₁, ← hrest] at h0
          exact h0 (hlast hi)
        rw [removeEnt_nlink] at h0
        split_ifs at h0 with ht
        · exact ⟨⟨i, ip, hcut, .inr ⟨rfl, ht⟩⟩, nlink_eq_one h0⟩
        · exact absurd h0 hpos
      · have hD' : D' i = D i := (hrest.trans (hd.eq_of_ne fun h => absurd h hid)).trans (removeEnt_of_ne hid)
        rw [Alloc, hD'] at hlast
        exact absurd (hlast hi) hpos

theorem Effect.freed (hh : Held D V) (he : Effect N sc D V D' V')
    (hmax : CanLink D) (hi : Alloc D i) (hf : ¬ Alloc D' i) :
    (sc.low D i ∧ (D i).nlink = 1 ∧ ¬ V i) ∨ (D i).nlink = 0 ∧ ¬ sc.left i := by
  cases he with
  | @change D₁ _ V₁ _ hch htail =>
    have hs := hch.settled hh hmax
    have htail : D' i = D₁ i ∨ ¬ V i ∧ (D₁ i).nlink = 0 ∨ Alloc D' i := by
      cases htail with
      | none => exact .inl rfl
      | put hd => exact (hd.frees i).imp_right fun h => .inl ⟨h.1, h.2.2.1⟩
      | @trunc ip htype =>
        by_cases hii : i = ip
        · subst hii
          refine .inr (.inr ?_)
          rw [Alloc, update_self, Node.trunc, htype]
          decide
        · exact .inl (update_of_ne hii ..)
    have hv : ¬ V i := fun hv => by
      have hi₁ := hs.alloc hi hv
      rcases htail with h | h | h
      · exact hf (by rwa [Alloc, h])
      · exact h.1 hv
      · exact hf h
    have hlast := hs.last hl hh hmax hi hv fun hi₁ => by
      rcases htail with h | h | h
      · exact absurd (by rwa [Alloc, h]) hf
      · exact h.2
      · exact absurd h hf
    exact .inl ⟨hlast.1, hlast.2, hv⟩
  | release hlook hd =>
    obtain rfl := hlook.eq hh
    rcases hd.frees i with h | ⟨hleft, -, h0, -⟩
    · exact absurd (by rwa [Alloc, h]) hf
    · exact .inr ⟨h0, hleft⟩

theorem Settled.dir (hh : Held D V) (hs : Settled N sc D V D' V')
    (hmax : CanLink D) (hd : (D' d).type = T_DIR) :
    ((D d).type = T_DIR ∧ (D d).target 1 = (D' d).target 1) ∨ Held D' V ∧ Alloc D' ((D' d).target 1) := by
  cases hs with
  | same => exact .inl ⟨hd, rfl⟩
  | @link _ ip dp k name _ _ _ _ hdir hfree =>
    have hk : 2 ≤ k := hfree.two_le (hl.dots dp (alloc_of_dir hdir) hdir) (hl.range dp (alloc_of_dir hdir)).1
    rw [putEnt_type, addLink_type] at hd
    rw [target_putEnt hk, target_addLink]
    exact .inl ⟨hd, rfl⟩
  | @create _ ip dp k name type major minor _ _ hdir htype _ _ _ hfree =>
    have hk : 2 ≤ k := hfree.two_le (hl.dots dp (alloc_of_dir hdir) hdir) (hl.range dp (alloc_of_dir hdir)).1
    rw [putEnt_type] at hd
    rw [target_putEnt hk]
    by_cases hdi : d = ip
    · subst hdi
      refine .inr ⟨hh.create htype (hmax dp), ?_⟩
      rw [alloc_putEnt, alloc_newNode htype]
      rw [newNode_type] at hd
      rw [newNode, if_pos hd, update_self, newDir_target (hl.range dp (alloc_of_dir hdir)).2.1]
      exact .inl (alloc_of_dir hdir)
    · rw [(target_newNode hdi).2] at hd
      exact .inl ⟨hd, (target_newNode hdi).1.symm⟩
  | @unlink D₁ _ V₀ V₁ _ ip dp k name _ _ hdir _ hdot hdotdot hfound hip _ hempty hd₁ hd₂ =>
    obtain ⟨he, -⟩ := hl.found hdir hdot hdotdot hfound hip hempty
    have hne : ∀ {x : Node}, x.type = T_DIR → x.type ≠ 0 := fun h => by rw [h]; decide
    have hD' : D' d = addLink D₁ ip (-1) d := hd₂.frees.eq_of_type (hne hd)
    rw [hD', addLink_type] at hd
    have hD₁ : D₁ d = removeEnt D dp k ip d := hd₁.frees.eq_of_type (hne hd)
    obtain ⟨htype, htarget⟩ : (removeEnt D dp k ip d).type = (D d).type ∧
      (removeEnt D dp k ip d).target 1 = (D d).target 1 := target_removeEnt he.2.2.1.1 d
    rw [hD₁, htype] at hd
    refine .inl ⟨hd, ?_⟩
    rw [hD', target_addLink, hD₁, htarget]

theorem Effect.dir (hh : Held D V) (he : Effect N sc D V D' V')
    (hmax : CanLink D) (hd : (D' d).type = T_DIR) :
    ((D d).type = T_DIR ∧ (D d).target 1 = (D' d).target 1) ∨ Alloc D' ((D' d).target 1) := by
  have hne : (D' d).type ≠ 0 := by rw [hd]; decide
  cases he with
  | @change D₁ _ V₁ _ hch htail =>
    have hs := hch.settled hh hmax
    cases htail with
    | none => exact (hs.dir hl hh hmax hd).imp_right And.right
    | put hdrop =>
      have hsame : D' d = D₁ d := hdrop.frees.eq_of_type hne
      rw [hsame] at hd ⊢
      refine (hs.dir hl hh hmax hd).imp_right fun ⟨hheld, halloc⟩ => ?_
      rwa [hdrop.eq fun hi h0 => hheld _ hi h0]
    | @trunc ip htype =>
      have hdi : d ≠ ip := by
        rintro rfl
        rw [update_self, Node.trunc, htype] at hd
        exact absurd hd (by decide)
      rw [update_of_ne hdi] at hd ⊢
      rw [alloc_congr (trunc_same htype)]
      exact (hs.dir hl hh hmax hd).imp_right And.right
  | release hlook hdrops =>
    obtain rfl := hlook.eq hh
    rw [hdrops.frees.eq_of_type hne] at hd ⊢
    exact .inl ⟨hd, rfl⟩

theorem Settled.outside (hs : Settled N sc D V D' V') (hi : N ≤ i) (hfree : ¬ Alloc D i) : D' i = D i := by
  have hne : ∀ {d}, Alloc D d → i ≠ d := fun hd hid => hfree (hid ▸ hd)
  have hdir : ∀ {d}, (D d).type = T_DIR → i ≠ d := fun hd => hne (alloc_of_dir hd)
  cases hs with
  | same => rfl
  | link _ _ htype _ hdp => rw [putEnt_of_ne (hdir hdp), addLink_of_ne (hne htype)]
  | create _ _ hdp _ _ _ hlt =>
    rw [putEnt_of_ne (hdir hdp), newNode_of_ne (by omega), addLink_of_ne (hdir hdp), ite_self]
  | unlink _ _ hdp _ hdot hdotdot hfound hip _ hempty hd hd' =>
    obtain ⟨he, -⟩ := hl.found hdp hdot hdotdot hfound hip hempty
    have hip := hne (hl.closed _ _ he)
    rw [hd'.eq_of_ne fun h => absurd h hip, addLink_of_ne hip, hd.eq_of_ne fun h => absurd h (hdir hdp),
      removeEnt_of_ne (hdir hdp)]

theorem Effect.outside (hh : Held D V) (he : Effect N sc D V D' V')
    (hmax : CanLink D) (hi : N ≤ i) (hfree : ¬ Alloc D i) : D' i = D i := by
  cases he with
  | @change D₁ _ V₁ _ hch htail =>
    have hD₁ : D₁ i = D i := (hch.settled hh hmax).outside hl hi hfree
    have hfree₁ : ¬ Alloc D₁ i := by rwa [Alloc, hD₁]
    cases htail with
    | none => exact hD₁
    | put hd => exact ((hd.frees i).resolve_right fun h => hfree₁ h.2.1).trans hD₁
    | @trunc ip htype =>
      have hne : i ≠ ip := by
        rintro rfl
        exact hfree₁ (by rw [Alloc, htype]; decide)
      rw [update_of_ne hne, hD₁]
  | release hlook hd =>
    obtain rfl := hlook.eq hh
    exact (hd.frees i).resolve_right fun h => hfree h.2.1

end

end

/-! ## Runs -/

/-- Every entry in use of every directory names an allocated inode. -/
def NoDangling (D : Disk) : Prop :=
  ∀ d k, (D d).type = T_DIR → (D d).has k → ((D d).ents k).inum ≠ 0 → (D ((D d).target k)).type ≠ 0

/-- Link counts are not about to overflow. -/
def LinksBelow (D : Disk) : Prop := ∀ i, (D i).nlink.toNat < 2 ^ 15 - 1

theorem LinksBelow.canLink (h : LinksBelow D) : CanLink D := fun i => by
  have := h i
  omega

theorem Core.noDangling (h : Core D D V m) : NoDangling D := by
  intro d k hd hk h0
  obtain ⟨c, -, hl⟩ := h.linked
  have had := alloc_of_dir hd
  have hdots := hl.dots d had hd
  obtain rfl | rfl | hk2 : k = 0 ∨ k = 1 ∨ 2 ≤ k := by omega
  · rw [hdots.dot.1]
    exact had
  · exact (h.dotdot d hd).elim id id
  · exact hl.closed (d, k) _ ⟨had, hd, ⟨hk2, hk, h0⟩, rfl⟩

theorem Core.good (h : Core D D V m) (hi : Idle N D V s) :
    Good s.proc D fun j => 0 < holders s.proc s.ftable j := by
  obtain ⟨F, P, hf, hs⟩ := hi
  obtain ⟨c, -, hl⟩ := h.linked
  rw [hs.proc, hs.ftable]
  have hroot : (D ROOTINO).type ≠ 0 := hl.root.1
  refine ⟨hroot, fun p pr hp => ?_, h.noDangling, fun i hi h0 => by simpa using (hs.known i (h.held i hi h0)).1⟩
  have hpos : 0 < holders P F pr.cwd := Graph.count_pos (e := Sum.inl p) holds_finite ⟨pr, hp, rfl⟩
  rcases hs.read pr.cwd hpos with hv | hr
  · exact hs.live pr.cwd hv
  · rwa [hr]

/-- The inodes in memory that have been read. -/
def Loaded (s : State) (i : Nat) : Prop := 0 < holders s.proc s.ftable i ∧ s.valid i = true

theorem Idle.loaded (h : Idle N D V s) : Idle N D (Loaded s) s ∧ ∀ i, V i → Loaded s i := by
  obtain ⟨F, P, hf, hs⟩ := h
  have hV : ∀ i, Loaded s i → 0 < holders P F i + [].count i ∧ s.valid i = true := fun i hi => by
    rw [← hs.proc, ← hs.ftable]
    exact hi
  exact ⟨⟨F, P, hf, { hs with known := hV }⟩, fun i hi => by
    rw [Loaded, hs.proc, hs.ftable]
    exact hs.known i hi⟩

theorem Idle.loaded_of_held (h : Idle N D V s) (hi : 0 < holders s.proc s.ftable i) : Loaded s i ∨ i = ROOTINO := by
  obtain ⟨F, P, hf, hs⟩ := h
  refine (hs.read i ?_).imp_left fun hv => ⟨hi, hv⟩
  rwa [← hs.proc, ← hs.ftable]

/-- What holds between calls. -/
def Sound (s : State) : Prop :=
  s.ninodes ≤ 2 ^ 16 ∧ Idle s.ninodes s.inode (Loaded s) s ∧ Core s.inode s.inode (Loaded s) fun _ => 0

/-- The call can lower the link count of `i`: it removes a name of it, or of a directory in it. -/
def Call.Lowers (D : Disk) (cwd : Nat) (c : Call) (i : Nat) : Prop :=
  ∃ q ∈ c.cutFrom D cwd, i = q.2 ∨ i = q.1 ∧ (D q.2).type = T_DIR

/-- The inode has a link or a reference left after the call. -/
def Call.Keeps (s : State) (p : Fin NPROC) (c : Call) (i : Nat) : Prop :=
  (0 < (s.inode i).nlink.toNat ∧ ∀ pr ∈ s.proc p, c.Lowers s.inode pr.cwd i → 1 < (s.inode i).nlink.toNat) ∨
    c.Leaves s.proc s.ftable p i

/-- The calls of a run: link counts are not about to overflow, and what the `..` of another directory names keeps a
link or a reference. -/
def Allowed (s : State) (e : Fin NPROC × Call) : Prop :=
  e.2.Enabled s.proc e.1 ∧ LinksBelow s.inode ∧ ∀ d, (s.inode d).type = T_DIR → (s.inode d).target 1 ≠ d →
    e.2.Keeps s e.1 ((s.inode d).target 1)

theorem Sound.spares {t : State} {d : Nat} (h : Sound s) (he : Allowed s e) (ht : step s e = some t)
    (hd : (t.inode d).type = T_DIR) (hi : Alloc s.inode ((t.inode d).target 1)) :
    Alloc t.inode ((t.inode d).target 1) := by
  obtain ⟨hN, hidle, hcore⟩ := h
  obtain ⟨hen, hb, hkeeps⟩ := he
  have hmax := hb.canLink
  obtain ⟨pr, r, V', hp, heff, hidle', -⟩ := hidle.step hN hen ht
  obtain ⟨c, -, hl⟩ := hcore.linked
  obtain ⟨c', -, hl'⟩ := (hcore.effect (fun _ hi => hi) heff hN hmax).linked
  by_contra hfree
  obtain ⟨hdir, htarget⟩ := (heff.dir hl hcore.held hmax hd).resolve_right hfree
  generalize (t.inode d).target 1 = i at hi hfree htarget
  have hne : i ≠ d := by
    rintro rfl
    exact hfree (alloc_of_dir hd)
  have hkeep := hkeeps d hdir (by rwa [htarget])
  rw [htarget] at hkeep
  rcases heff.freed hl hcore.held hmax hi hfree with ⟨⟨dp, ip, hcut, hlow⟩, h1, hv⟩ | ⟨h0, hleft⟩
  · rcases hkeep with ⟨-, hmore⟩ | ⟨ref, -, href⟩
    · have := hmore pr hp ⟨(dp, ip), hcut, hlow⟩
      rw [h1] at this
      exact absurd this (by decide)
    · rcases hidle.loaded_of_held href.held with hload | rfl
      · exact hv hload
      · exact hfree hl'.root.1
  · rcases hkeep with ⟨hpos, -⟩ | hleaves
    · rw [h0] at hpos
      exact absurd hpos (by decide)
    · exact hleft hleaves

theorem Sound.of_step {t : State} (h : Sound s) (he : Allowed s e) (ht : step s e = some t) : Sound t := by
  have hspares := fun d hd hi => h.spares (d := d) he ht hd hi
  obtain ⟨hN, hidle, hcore⟩ := h
  obtain ⟨hen, hb, -⟩ := he
  obtain ⟨pr, r, V', -, heff, hidle', hnin⟩ := hidle.step hN hen ht
  have hcore' := hcore.effect (fun _ hi => hi) heff hN fun i => by have := hb i; omega
  rw [Sound, hnin]
  refine ⟨hN, hidle'.loaded.1, { hcore' with
    held := hcore'.held.mono hidle'.loaded.2, dotdot := fun d hd => .inl ?_, old := fun i hi _ => hi }⟩
  exact (hcore'.dotdot d hd).elim id (hspares d hd)

theorem sound_start {full : List Bool} (hN : N ≤ 2 ^ 16) (h : Consistent D) : Sound (start N D full) := by
  have hidle : Idle N D (fun _ => False) (start N D full) := idle_start
  refine ⟨hN, hidle.loaded.1, ⟨fun _ => 0, fun _ _ => Nat.le_refl _, ?_⟩, fun i hi h0 => ?_, fun d hd => ?_,
    fun i hi _ => hi⟩
  · change Linked (Alloc D) D _
    rw [h.alloc_eq]
    exact h.linked
  · obtain ⟨hroot, -, hnone, -⟩ := h.linked.unnamed (h.reach i hi) h0
    obtain ⟨e, he⟩ := (h.reach i hi).named hroot
    exact absurd he (hnone e)
  · have hr := h.reach d (by rw [Alloc]; exact hd ▸ (by decide : T_DIR ≠ 0))
    have hdots := h.dots d hr hd
    exact .inl (h.allocated d 1 hr hd hdots.two hdots.dotdot.1)

/-- In a run in which what the `..` of another directory names always keeps a link or a reference, no entry dangles
and no lookup meets a free inode. -/
theorem no_dangling_entries {full : List Bool} {es : List (Fin NPROC × Call)} {s : State} (hN : N ≤ 2 ^ 16)
    (hD : Consistent D) (hrun : Run step Allowed (start N D full) es s) :
    NoDangling s.inode ∧ ∀ p c t, Call.Enabled s.proc p c → c.run p s ≠ .error .ilockNoType t := by
  have hsound : Sound s :=
    hrun.inv (I := fun _ => Sound) (sound_start hN hD) fun _ _ _ _ _ hs he ht => hs.of_step he ht
  obtain ⟨hN', hidle, hcore⟩ := hsound
  refine ⟨hcore.noDangling, fun p c t hen herr => ?_⟩
  obtain ⟨pr, -, hout⟩ := hidle.call hN' hen
  rw [herr] at hout
  exact hout (hcore.good hidle) rfl

/-! ## The image of an empty file system -/

/-- A root directory and nothing else. -/
def emptyRoot : Disk := update (fun _ => {}) ROOTINO (newDir ROOTINO ROOTINO 0 0)

theorem consistent_emptyRoot : Consistent emptyRoot := by
  have hroot : emptyRoot ROOTINO = newDir ROOTINO ROOTINO 0 0 := update_self ..
  have hdots : Dots ROOTINO (newDir ROOTINO ROOTINO 0 0) := dots_newDir (by decide) (by decide) (by decide)
  have hwf : WellFormed emptyRoot := by
    refine (wellFormed_of_leaf ?_ ?_ ?_ ?_ ?_).1 <;> rw [hroot]
    · rfl
    · exact hdots
    · exact newDir_target (by decide)
    · exact newDir_leaf
    · rfl
  refine ⟨hwf, fun i hi => ?_⟩
  by_cases h : i = ROOTINO
  · rw [h]
    exact .refl
  · rw [Alloc, emptyRoot, update_of_ne h] at hi
    exact absurd rfl hi

theorem linksBelow_emptyRoot : LinksBelow emptyRoot := fun i => by
  by_cases h : i = ROOTINO
  · subst h
    decide
  · rw [emptyRoot, update_of_ne h]
    decide

/-- Inodes past the last one are as they were made. -/
def Blank (s : State) : Prop := ∀ i, s.ninodes ≤ i → s.inode i = {}

theorem blank_emptyRoot {full : List Bool} (hN : ROOTINO < N) : Blank (start N emptyRoot full) := fun i hi => by
  have hne : i ≠ ROOTINO := by
    rintro rfl
    exact absurd hi (Nat.not_le.mpr hN)
  change emptyRoot i = {}
  rw [emptyRoot, update_of_ne hne]

theorem Core.blank {t : State} (h : Core S s.inode V fun _ => 0) (hidle : Idle s.ninodes s.inode V s)
    (hN : s.ninodes ≤ 2 ^ 16) (hen : e.2.Enabled s.proc e.1) (hb : LinksBelow s.inode) (ht : step s e = some t)
    (hblank : Blank s) : Blank t := by
  obtain ⟨pr, r, V', -, heff, -, hnin⟩ := hidle.step hN hen ht
  obtain ⟨c, -, hl⟩ := h.linked
  intro i hi
  rw [hnin] at hi
  have hfree : ¬ Alloc s.inode i := by
    rw [Alloc, hblank i hi]
    simp
  rw [heff.outside hl h.held (fun i => by have := hb i; omega) hi hfree, hblank i hi]

theorem Blank.linksBelow (h : Blank s) (hb : ∀ i < s.ninodes, (s.inode i).nlink.toNat < 2 ^ 15 - 1) :
    LinksBelow s.inode :=
  fun i => by
    by_cases hi : i < s.ninodes
    · exact hb i hi
    · rw [h i (by omega)]
      decide

instance (D : Disk) (cwd : Nat) (c : Call) (i : Nat) : Decidable (c.Lowers D cwd i) :=
  inferInstanceAs (Decidable (∃ q ∈ _, _))

instance (s : State) (p : Fin NPROC) (c : Call) (i : Nat) : Decidable (c.Keeps s p i) :=
  inferInstanceAs (Decidable ((_ ∧ ∀ pr ∈ _, _ → _) ∨ ∃ _ : Ref, _ ∧ _))

/-- What `Allowed` asks, of the inodes that there are. -/
def AllowedBelow (s : State) (e : Fin NPROC × Call) : Prop :=
  e.2.Enabled s.proc e.1 ∧ (∀ i < s.ninodes, (s.inode i).nlink.toNat < 2 ^ 15 - 1) ∧
    ∀ d < s.ninodes, (s.inode d).type = T_DIR → (s.inode d).target 1 ≠ d → e.2.Keeps s e.1 ((s.inode d).target 1)

instance (s : State) (e : Fin NPROC × Call) : Decidable (AllowedBelow s e) := inferInstanceAs (Decidable (_ ∧ _ ∧ _))

theorem Blank.allowed (h : Blank s) (he : AllowedBelow s e) : Allowed s e := by
  obtain ⟨hen, hb, hkeeps⟩ := he
  refine ⟨hen, h.linksBelow hb, fun d hd => hkeeps d ?_ hd⟩
  by_contra hlt
  rw [h d (by omega)] at hd
  exact absurd hd (by decide)

/-- Two processes: `mkdir a; mkdir a/b`; one goes to `a` and the other to `a/b`; both directories are removed, and
then both processes leave, the one in `a/b` first. -/
def leaveInOrder : List (Fin NPROC × Call) :=
  [(0, .mkdir (some [97])), (0, .mkdir (some [97, 47, 98])), (0, .fork 1), (1, .chdir (some [97])),
    (0, .chdir (some [97, 47, 98])), (0, .unlink (some [47, 97, 47, 98])), (0, .unlink (some [47, 97])),
    (0, .chdir (some [SLASH])), (1, .chdir (some [SLASH]))]

theorem no_dangling_entries_leaveInOrder : ∃ s, Run step Allowed (start 4 emptyRoot []) leaveInOrder s ∧
    (s.inode 2).type = 0 ∧ (s.inode 3).type = 0 ∧ NoDangling s.inode ∧
      ∀ p c t, Call.Enabled s.proc p c → c.run p s ≠ .error .ilockNoType t := by
  obtain ⟨s, hs, hfree, hfree'⟩ : ∃ s, Run step AllowedBelow (start 4 emptyRoot []) leaveInOrder s ∧
      (s.inode 2).type = 0 ∧ (s.inode 3).type = 0 := by decide +kernel
  obtain ⟨hrun, -⟩ : Run step Allowed (start 4 emptyRoot []) leaveInOrder s ∧ Sound s ∧ Blank s :=
    hs.strengthen (I := fun s => Sound s ∧ Blank s)
      ⟨sound_start (by decide) consistent_emptyRoot, blank_emptyRoot (by decide)⟩ (fun t e hI he => hI.2.allowed he)
      fun t e u hI he ht => ⟨hI.1.of_step he ht, hI.1.2.2.blank hI.1.2.1 hI.1.1 he.1 he.2.1 ht hI.2⟩
  exact ⟨s, hrun, hfree, hfree', no_dangling_entries (by decide) consistent_emptyRoot hrun⟩

/-! ## A call that frees the parent of a directory that is still held -/

/-- `mkdir a; mkdir a/b; chdir a/b; unlink /a/b; unlink /a`. -/
def orphan : List (Fin NPROC × Call) :=
  [(0, .mkdir (some [97])), (0, .mkdir (some [97, 47, 98])), (0, .chdir (some [97, 47, 98])),
    (0, .unlink (some [47, 97, 47, 98])), (0, .unlink (some [47, 97]))]

def enabled (s : State) (e : Fin NPROC × Call) : Prop := e.2.Enabled s.proc e.1

instance (s : State) (e : Fin NPROC × Call) : Decidable (enabled s e) := inferInstanceAs (Decidable (Call.Enabled ..))

/-- Then `open("..", O_RDONLY)`. -/
def openDotdot : Call := .openPath (some [46, 46]) O_RDONLY

/-- Removing a directory whose former subdirectory is still held frees what its `..` names. -/
theorem dotdot_dangles : Consistent emptyRoot ∧ ∃ s, Run step enabled (start 200 emptyRoot []) orphan s ∧
    ¬ NoDangling s.inode ∧ openDotdot.Enabled s.proc 0 ∧ ∃ t, openDotdot.run 0 s = .error .ilockNoType t := by
  refine ⟨consistent_emptyRoot, ?_⟩
  obtain ⟨s, hs, hdir, hhas, hinum, hfree, hpanic⟩ : ∃ s, Run step enabled (start 200 emptyRoot []) orphan s ∧
      (s.inode 3).type = T_DIR ∧ (s.inode 3).has 1 ∧ ((s.inode 3).ents 1).inum = 2 ∧ (s.inode 2).type = 0 ∧
      openDotdot.Enabled s.proc 0 ∧ ∃ t, openDotdot.run 0 s = .error .ilockNoType t := by decide +kernel
  refine ⟨s, hs, fun h => ?_, hpanic⟩
  refine h 3 1 hdir hhas (by rw [hinum]; decide) ?_
  rw [Node.target, hinum]
  exact hfree

end Xv6.Sys

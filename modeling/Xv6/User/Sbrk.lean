import Xv6.User.Malloc

/-!
# What `morecore` asks for

`morecore` computes `nu * sizeof(Header)` with 64 bits, and `sbrk` takes an `int`. Here the conversion is
part of the program: a request of `2^31` bytes or more becomes a smaller or a negative one, while the block
gets the size `nu` all the same.

The loop also returns the numbers of units that `morecore` was called for. With requests below `2^31` bytes
the program is the one of the previous module, whose heap is sound.
-/

namespace Xv6.Malloc

open Extent

/-- The argument of `sbrk`: `nu * sizeof(Header)` as an `int`. -/
def sbrkArg (nu : Nat) : Int := (BitVec.ofNat 32 (HEADER * nu)).toInt

/-- What is left of some memory below `top`. -/
def below (top : Nat) (r : Extent) : Extent := ⟨r.addr, min r.len (top - r.addr)⟩

/-- `sbrk(n)` when it does not fail: memory is granted or, for a negative `n`, taken back. -/
def Heap.sbrk (h : Heap) (hp : Nat) (n : Int) : Heap :=
  if 0 ≤ n then { h with brk := hp + n.toNat, obtained := ⟨hp, n.toNat⟩ :: h.obtained }
  else { h with brk := hp - (-n).toNat, obtained := h.obtained.map (below (hp - (-n).toNat)) }

/-- `morecore`, with the number of units it asks for. -/
def morecoreInt (fuel : Nat) (sbrk : Option Nat) (h : Heap) (nu : Nat) : Nat × Option (Heap × Nat) :=
  let nu := if nu < 4096 then 4096 else nu
  match sbrk with
  | none => (nu, some (h, 0))
  | some skip =>
    let hp := h.brk + skip
    let h := (h.sbrk hp (sbrkArg nu)).setSize hp nu
    (nu, (free fuel h (hp + HEADER)).map fun h => (h, h.freep))

/-- The loop of `malloc`, with the number of units of each request. -/
def mallocLoopInt (sbrk : Option Nat) (nunits : Nat) : Nat → Heap → Nat → Nat → List Nat × Option (Heap × Nat)
  | 0, _, _, _ => ([], none)
  | fuel + 1, h, prevp, p =>
    if nunits ≤ (h.mem p).size then ([], some (h.carve nunits prevp p))
    else if p = h.freep then
      let m := morecoreInt fuel sbrk h nunits
      match m.2 with
      | none => ([m.1], none)
      | some r =>
        if r.2 = 0 then ([m.1], some (r.1, 0))
        else
          let rest := mallocLoopInt sbrk nunits fuel r.1 r.2 (r.1.mem r.2).ptr
          (m.1 :: rest.1, rest.2)
    else mallocLoopInt sbrk nunits fuel h p (h.mem p).ptr

/-- `malloc`. The number of units fits in a `uint`, as it is computed with 64 bits from a `uint`. -/
def mallocInt (base fuel : Nat) (sbrk : Option Nat) (h : Heap) (nbytes : Nat) : List Nat × Option (Heap × Nat) :=
  let h := if h.freep = 0 then { h.set base ⟨base, 0⟩ with freep := base } else h
  mallocLoopInt sbrk (unitsFor nbytes) fuel h h.freep (h.mem h.freep).ptr

/-- The events of the previous module, with any `uint` as the argument of `malloc`. -/
def stepInt (base : Nat) (s : State) : Event → Option State
  | .malloc nbytes sbrk =>
    if nbytes < 2 ^ 32 ∧ s.hung = false then
      match (mallocInt base (rounds s.heap) sbrk s.heap nbytes).2 with
      | none => some { s with hung := true }
      | some (h, ap) => some (s.after h ap)
    else none
  | .free ap => step base s (.free ap)
  | .write a x => step base s (.write a x)

/-- A block of the free list has room for `nbytes` bytes. -/
def HasRoom (base : Nat) (s : State) (nbytes : Nat) : Prop :=
  ∃ fl, Inv base s.heap s.live fl ∧ ∃ c ∈ fl, HEADER * unitsFor nbytes ≤ c.len

/-- There is room, or the request to `sbrk` is an `int`. -/
def Fits (base : Nat) (s : State) (nbytes : Nat) : Prop :=
  HasRoom base s nbytes ∨ HEADER * max (unitsFor nbytes) 4096 < 2 ^ 31

/-- What is asked of an event: less than `2^32` units are granted in all, and a call of `malloc` fits. -/
def Meets (base : Nat) (s : State) (e : Event) : Prop :=
  Within s e ∧ ∀ nbytes sbrk, e = .malloc nbytes sbrk → Fits base s nbytes

/-- `malloc(nbytes)` ends. It asks `sbrk` for no less than it needs, and what it returns is inside of what
`sbrk` has granted. -/
def Honest (base : Nat) (s : State) (nbytes : Nat) (sbrk : Option Nat) : Prop :=
  (∀ nu ∈ (mallocInt base (rounds s.heap) sbrk s.heap nbytes).1, 0 ≤ sbrkArg nu ∧ (HEADER * nu : Nat) ≤ sbrkArg nu) ∧
  ∃ h ap, (mallocInt base (rounds s.heap) sbrk s.heap nbytes).2 = some (h, ap) ∧
    (ap ≠ 0 → ∀ x, ap ≤ x → x < ap + nbytes → ∃ r ∈ h.obtained, r.addr ≤ x ∧ x < r.stop)

variable {base fuel nunits nu nbytes prevp p : Nat} {sbrk : Option Nat} {h h' : Heap} {s s' : State} {e : Event}

theorem sbrkArg_eq (hnu : HEADER * nu < 2 ^ 31) : sbrkArg nu = (HEADER * nu : Nat) := by
  rw [sbrkArg, BitVec.toInt_eq_toNat_of_lt, BitVec.toNat_ofNat, Nat.mod_eq_of_lt (by omega)]
  rw [BitVec.toNat_ofNat, Nat.mod_eq_of_lt (by omega)]
  omega

theorem sbrkArg_lt (hnu : 2 ^ 31 ≤ HEADER * nu) : sbrkArg nu < (HEADER * nu : Nat) := by
  have := BitVec.toInt_lt (x := BitVec.ofNat 32 (HEADER * nu))
  rw [sbrkArg]
  omega

theorem units_eq (nunits : Nat) : (if nunits < 4096 then 4096 else nunits) = max nunits 4096 := by
  split_ifs
  · omega
  · omega

theorem morecoreInt_units : (morecoreInt fuel sbrk h nunits).1 = max nunits 4096 := by
  cases sbrk with
  | none => exact units_eq nunits
  | some skip => exact units_eq nunits

theorem morecoreInt_eq (hnu : HEADER * max nunits 4096 < 2 ^ 31) :
    (morecoreInt fuel sbrk h nunits).2 = morecore fuel sbrk h nunits := by
  cases sbrk with
  | none => rfl
  | some skip =>
    rw [morecoreInt, morecore, units_eq, Heap.sbrk, sbrkArg_eq hnu, if_pos (Int.natCast_nonneg _)]
    rfl

theorem mallocLoopInt_eq (hnu : HEADER * max nunits 4096 < 2 ^ 31) :
    (mallocLoopInt sbrk nunits fuel h prevp p).2 = mallocLoop sbrk nunits fuel h prevp p ∧
      ∀ nu ∈ (mallocLoopInt sbrk nunits fuel h prevp p).1, nu = max nunits 4096 := by
  induction fuel generalizing h prevp p with
  | zero => exact ⟨rfl, fun nu hnu => absurd hnu List.not_mem_nil⟩
  | succ fuel ih =>
    rw [mallocLoopInt, mallocLoop]
    dsimp only
    rw [morecoreInt_eq hnu, morecoreInt_units]
    split_ifs
    · exact ⟨rfl, fun nu hnu => absurd hnu List.not_mem_nil⟩
    · cases morecore fuel sbrk h nunits with
      | none => exact ⟨rfl, fun nu hnu => List.mem_singleton.mp hnu⟩
      | some r =>
        rw [Option.bind_some]
        dsimp only
        split_ifs
        · exact ⟨rfl, fun nu hnu => List.mem_singleton.mp hnu⟩
        · exact ⟨ih.1, fun nu hnu => (List.mem_cons.mp hnu).elim id (ih.2 nu)⟩
    · exact ih

theorem carve_ne_zero (h : Heap) (nunits prevp p : Nat) : (h.carve nunits prevp p).2 ≠ 0 := by
  rw [Heap.carve]
  dsimp only
  split_ifs
  · exact Nat.succ_ne_zero _
  · exact Nat.succ_ne_zero _

theorem mallocLoopInt_search (sbrk : Option Nat) {ap : Nat}
    (hloop : mallocLoop none nunits fuel h prevp p = some (h', ap)) :
    (ap ≠ 0 → mallocLoopInt sbrk nunits fuel h prevp p = ([], some (h', ap))) ∧
      (ap = 0 → max nunits 4096 ∈ (mallocLoopInt sbrk nunits fuel h prevp p).1) := by
  induction fuel generalizing h prevp p with
  | zero => cases hloop
  | succ fuel ih =>
    rw [mallocLoop] at hloop
    rw [mallocLoopInt]
    split_ifs at hloop ⊢ with hsize hfreep
    · refine ⟨fun _ => by rw [hloop], fun h0 => absurd h0 ?_⟩
      have hcarve := carve_ne_zero h nunits prevp p
      rwa [Option.some.inj hloop] at hcarve
    · obtain ⟨rfl, rfl⟩ := Prod.mk.inj (Option.some.inj hloop)
      refine ⟨fun h0 => absurd rfl h0, fun _ => ?_⟩
      dsimp only
      rw [morecoreInt_units]
      cases (morecoreInt fuel sbrk h nunits).2 with
      | none => exact List.mem_cons_self
      | some r =>
        dsimp only
        split_ifs
        · exact List.mem_cons_self
        · exact List.mem_cons_self
    · exact ih hloop

theorem Good.search (hg : Good base s) (hbase : 0 < base) (nbytes : Nat) (sbrk : Option Nat) :
    HasRoom base s nbytes ∧ mallocInt base (rounds s.heap) sbrk s.heap nbytes =
        ([], Malloc.malloc base (rounds s.heap) none s.heap nbytes) ∨
      ¬HasRoom base s nbytes ∧ max (unitsFor nbytes) 4096 ∈ (mallocInt base (rounds s.heap) sbrk s.heap nbytes).1 := by
  obtain ⟨h₀, fl, hh₀, hobt, hi, hempty⟩ := hg.first hbase
  have hn : 0 < unitsFor nbytes := Nat.succ_pos _
  have hfuel : ∀ {fl'}, Inv base h₀ s.live fl' → fl'.length < rounds s.heap := by
    intro fl' hi'
    have hlen := hi'.length_le
    rw [rounds, ← hobt]
    omega
  simp only [mallocInt, Malloc.malloc, hh₀]
  rcases hi.list.search none hn (hfuel hi) with ⟨⟨c, hc, hclen⟩, h', fl', d, heq, -⟩ | ⟨hnone, heq⟩
  · have hfreep : s.heap.freep ≠ 0 := by
      intro h0
      rw [hempty h0] at hc
      exact absurd hc List.not_mem_nil
    rw [if_neg hfreep] at hh₀
    rw [Heap.next] at heq
    rw [heq, (mallocLoopInt_search sbrk heq).1 (by rw [HEADER]; omega)]
    exact .inl ⟨⟨fl, hh₀ ▸ hi, c, hc, hclen⟩, rfl⟩
  · have hnull : mallocLoop none (unitsFor nbytes) (rounds s.heap) h₀ h₀.freep (h₀.next h₀.freep) = some (h₀, 0) := heq
    rw [Heap.next] at hnull
    refine .inr ⟨?_, (mallocLoopInt_search sbrk hnull).2 rfl⟩
    rintro ⟨fl', hi', c, hc, hclen⟩
    rw [if_neg (hi'.freep_pos hbase)] at hh₀
    subst hh₀
    -- the search without `sbrk` has one result
    rcases hi'.list.search none hn (hfuel hi') with ⟨-, h', fl'', d, heq', -⟩ | ⟨hnone', -⟩
    · rw [Heap.next, hnull] at heq'
      have := (Prod.mk.inj (Option.some.inj heq')).2
      rw [HEADER] at this
      omega
    · exact absurd (hnone' c hc) (Nat.not_lt.mpr hclen)

theorem Good.mallocInt_eq (hg : Good base s) (hbase : 0 < base) (sbrk : Option Nat) (hfit : Fits base s nbytes) :
    ∃ sbrk', (sbrk' = none ∨ sbrk' = sbrk) ∧
      (mallocInt base (rounds s.heap) sbrk s.heap nbytes).2 = Malloc.malloc base (rounds s.heap) sbrk' s.heap nbytes ∧
      ∀ nu ∈ (mallocInt base (rounds s.heap) sbrk s.heap nbytes).1, 0 ≤ sbrkArg nu ∧ (HEADER * nu : Nat) ≤
      sbrkArg nu := by
  rcases hg.search hbase nbytes sbrk with ⟨-, heq⟩ | ⟨hroom, -⟩
  · rw [heq]
    exact ⟨none, .inl rfl, rfl, fun nu hmem => absurd hmem List.not_mem_nil⟩
  · have hnu := hfit.resolve_left hroom
    refine ⟨sbrk, .inr rfl, (mallocLoopInt_eq hnu).1, fun nu hmem => ?_⟩
    rw [(mallocLoopInt_eq hnu).2 nu hmem, sbrkArg_eq hnu]
    exact ⟨Int.natCast_nonneg _, le_refl _⟩

theorem within_none (hw : Within s (.malloc nbytes sbrk)) {sbrk' : Option Nat} (h : sbrk' = none ∨ sbrk' = sbrk) :
    Within s (.malloc nbytes sbrk') := by
  rcases h with rfl | rfl
  · trivial
  · exact hw

theorem Good.stepInt (hg : Good base s) (hbase : 0 < base) (hm : Meets base s e)
    (hs : stepInt base s e = some s') : Good base s' := by
  cases e with
  | malloc nbytes sbrk =>
    obtain ⟨sbrk', hsbrk, heq, -⟩ := hg.mallocInt_eq hbase sbrk (hm.2 nbytes sbrk rfl)
    obtain ⟨h', ap, hcall, hgood, -⟩ := hg.call hbase (within_none hm.1 hsbrk)
    rw [Malloc.stepInt] at hs
    split_ifs at hs
    rw [heq, hcall] at hs
    exact Option.some.inj hs ▸ hgood
  | free ap => exact hg.free hs
  | write a x => exact hg.write hs

/-- After a run whose calls fit, `malloc(nbytes)` asks `sbrk` for what it needs and returns memory that is
there, if and only if the call fits. -/
theorem malloc_honest_iff {mem : Nat → Header} {brk : Nat} {es : List Event} (hbase : 0 < base)
    (hbrk : base + HEADER ≤ brk)
    (hrun : Machine.Run (stepInt base) (Meets base) (boot mem brk) es s)
    (hw : Within s (.malloc nbytes sbrk)) : Honest base s nbytes sbrk ↔ Fits base s nbytes := by
  have hg : Good base s := hrun.inv (I := fun _ s => Good base s) (good_boot hbrk) fun _ _ _ _ _ ht hm hs =>
    ht.stepInt hbase hm hs
  constructor
  · intro hhonest
    rcases hg.search hbase nbytes sbrk with ⟨hroom, -⟩ | ⟨-, hasked⟩
    · exact .inl hroom
    · refine .inr (Nat.lt_of_not_le fun hlarge => ?_)
      exact absurd (hhonest.1 _ hasked).2 (Int.not_le.mpr (sbrkArg_lt hlarge))
  · intro hfit
    obtain ⟨sbrk', hsbrk, heq, hasked⟩ := hg.mallocInt_eq hbase sbrk hfit
    obtain ⟨h', ap, hcall, hgood, hret⟩ := hg.call hbase (within_none hw hsbrk)
    refine ⟨hasked, h', ap, heq.trans hcall, fun hap x h1 h2 => ?_⟩
    rcases hret with ⟨h0, -⟩ | ⟨d, rfl, hlive, hdlen⟩
    · exact absurd h0 hap
    · rcases hgood.heap with ⟨-, -, hnil, -⟩ | ⟨fl, hi⟩
      · simp [hlive] at hnil
      · refine (hi.sound.tiles x).mpr ⟨d, List.mem_append_right fl (hlive ▸ List.mem_cons_self), by omega, ?_⟩
        rw [stop]
        omega

/-- At the start of a program, `malloc(100)` fits. -/
theorem malloc_honest_iff_first : Honest 16 (boot (fun _ => ⟨0, 0⟩) 2048) 100 (some 0) :=
  (malloc_honest_iff (by decide) (by decide) .nil (by decide)).mpr (.inr (by decide))

/-- `malloc(2^32-1)` asks for 16 bytes, and returns a block with almost 4 GiB behind its pointer.
`malloc(2^31)` asks for a negative number of bytes. -/
theorem malloc_asks_for_less :
    ∃ h, mallocInt 16 (rounds (boot (fun _ => ⟨0, 0⟩) 2048).heap) (some 0) (boot (fun _ => ⟨0, 0⟩) 2048).heap
      (2 ^ 32 - 1) = ([2 ^ 28 + 1], some (h, 2064)) ∧ h.obtained = [⟨2048, 16⟩] ∧ sbrkArg (2 ^ 28 + 1) = 16 ∧
    (mallocInt 16 (rounds (boot (fun _ => ⟨0, 0⟩) 2048).heap) (some 0) (boot (fun _ => ⟨0, 0⟩) 2048).heap
    (2 ^ 31)).1 = [2 ^ 27 + 1] ∧
    sbrkArg (2 ^ 27 + 1) = 16 - 2 ^ 31 := by
  refine ⟨_, rfl, ?_⟩
  decide

end Xv6.Malloc

import Xv6.Lib.Run
import Xv6.Vm.PageTable

/-!
# The free list in the free pages

`kernel/kalloc.c` keeps its list in the free pages: the first eight bytes of each point to the next. The model of
`kernel/vm.c` has a list of addresses instead, and the two allocators give out the same pages.
-/

namespace Xv6.Vm

open Function (update update_of_ne update_self)

/-- Memory and `kmem.freelist`. -/
structure Kmem where
  ram : Ram
  freelist : Pa

def Kmem.kalloc (m : Kmem) : Option Pa × Kmem :=
  if m.freelist = 0 then (none, m)
  else (some m.freelist, ⟨update m.ram m.freelist fun _ => 5, (m.ram m.freelist).field 64 0⟩)

def Kmem.kfree (kend : Nat) (pa : Pa) (m : Kmem) : Option Kmem :=
  if pa.toNat % PGSIZE ≠ 0 ∨ pa.toNat < kend ∨ pa.toNat ≥ PHYSTOP then none
  else some ⟨update m.ram pa (Bytes.setField (fun _ => 1) 0 m.freelist), pa⟩

inductive Use
  | kalloc
  | kfree (pa : Pa)
  | store (pa : Pa) (pg : Bytes PGSIZE)

def after {α : Type} : EStateM.Result Panic State α → Option State
  | .ok _ s => some s
  | .error _ _ => none

/-- Both allocators side by side. A free page is not freed again, and nothing is stored in it. -/
def Use.step (kend : Nat) : Kmem × State → Use → Option (Kmem × State)
  | (m, s), .kalloc => (after (Vm.kalloc s)).map (m.kalloc.2, ·)
  | (m, s), .kfree pa =>
    if pa ∈ s.freelist then none
    else (m.kfree kend pa).bind fun m => (after (Vm.kfree kend pa s)).map (m, ·)
  | (m, s), .store pa pg =>
    if pa ∈ s.freelist then none else some ({ m with ram := update m.ram pa pg }, { s with ram := update s.ram pa pg })

/-- The pages on the list that starts at an address. -/
def Chain (ram : Ram) : Pa → List Pa → Prop
  | a, [] => a = 0
  | a, b :: l => a = b ∧ b ≠ 0 ∧ Chain ram ((ram b).field 64 0) l

structure Refines (m : Kmem) (s : State) : Prop where
  chain : Chain m.ram m.freelist s.freelist
  nodup : s.freelist.Nodup
  ram : ∀ a ∉ s.freelist, m.ram a = s.ram a

variable {kend : Nat} {ram : Ram} {a pa : Pa} {pg : Bytes PGSIZE} {l : List Pa} {m m' : Kmem} {s : State}

theorem Chain.store (h : Chain ram a l) (hpa : pa ∉ l) : Chain (update ram pa pg) a l := by
  induction l generalizing a with
  | nil => exact h
  | cons b l ih =>
    obtain ⟨hab, hb, hrest⟩ := h
    obtain ⟨hne, hpa⟩ : pa ≠ b ∧ pa ∉ l := by simpa using hpa
    exact ⟨hab, hb, update_of_ne hne.symm pg ram ▸ ih hrest hpa⟩

theorem Refines.kalloc (h : Refines m s) : ∃ t, Vm.kalloc s = .ok m.kalloc.1 t ∧ Refines m.kalloc.2 t := by
  obtain ⟨f, a⟩ := m
  obtain ⟨g, l⟩ := s
  obtain ⟨hchain, hnodup, hram⟩ := h
  cases l with
  | nil =>
    obtain rfl : a = 0 := hchain
    exact ⟨_, rfl, rfl, hnodup, hram⟩
  | cons b l =>
    obtain ⟨rfl, hb, hrest⟩ := hchain
    obtain ⟨hbl, hnodup⟩ := List.nodup_cons.mp hnodup
    rw [Kmem.kalloc, if_neg hb]
    refine ⟨_, rfl, hrest.store hbl, hnodup, fun c hc => ?_⟩
    simp only [Function.update_apply]
    split
    case isTrue => rfl
    case isFalse hne => exact hram c (by simp [hne, hc])

theorem Refines.kfree (hk : 0 < kend) (h : Refines m s) (hpa : pa ∉ s.freelist) (hm : m.kfree kend pa = some m') :
    ∃ t, Vm.kfree kend pa s = .ok () t ∧ Refines m' t := by
  simp only [Kmem.kfree, Option.ite_none_left_eq_some, Option.some.injEq] at hm
  obtain ⟨hok, rfl⟩ := hm
  refine ⟨_, if_neg hok, ⟨rfl, ?_, ?_⟩, List.nodup_cons.mpr ⟨hpa, h.nodup⟩, fun c hc => ?_⟩
  · rintro rfl
    exact hok (.inr (.inl hk))
  · simp only [update_self, Bytes.field_setField (show 8 ∣ 64 by decide) _ _ (show 0 + 64 / 8 ≤ PGSIZE by decide)]
    exact h.chain.store hpa
  · obtain ⟨hne, hc⟩ : c ≠ pa ∧ c ∉ s.freelist := by simpa using hc
    simp only [update_of_ne hne, h.ram c hc]

/-- However the two are used, `kalloc` returns the same from both, and the pages in use have the same bytes. -/
theorem kalloc_refines (hk : 0 < kend) {es : List Use}
    (h : Machine.Run (Use.step kend) Machine.any (⟨ram, 0⟩, ⟨ram, []⟩) es (m, s)) :
    (∃ t, Vm.kalloc s = .ok m.kalloc.1 t) ∧ ∀ a ∉ s.freelist, m.ram a = s.ram a := by
  have href : Refines m s := by
    refine h.inv (I := fun _ x => Refines x.1 x.2) (show Refines ⟨ram, 0⟩ ⟨ram, []⟩ from ⟨rfl, .nil, fun _ _ => rfl⟩) ?_
    rintro - ⟨m, s⟩ e ⟨m', s'⟩ - hi - hs
    cases e with
    | kalloc =>
      obtain ⟨t, ht, hr⟩ := hi.kalloc
      rw [Use.step, ht] at hs
      cases hs
      exact hr
    | kfree pa =>
      simp only [Use.step, Option.ite_none_left_eq_some, Option.bind_eq_some_iff] at hs
      obtain ⟨hpa, m₁, hm, hs⟩ := hs
      obtain ⟨t, ht, hr⟩ := hi.kfree hk hpa hm
      rw [ht] at hs
      cases hs
      exact hr
    | store pa pg =>
      simp only [Use.step, Option.ite_none_left_eq_some, Option.some.injEq, Prod.mk.injEq] at hs
      obtain ⟨hpa, rfl, rfl⟩ := hs
      refine ⟨hi.chain.store hpa, hi.nodup, fun c hc => ?_⟩
      simp only [Function.update_apply, show m.ram c = s.ram c from hi.ram c hc]
  obtain ⟨t, ht, -⟩ := href.kalloc
  exact ⟨⟨t, ht⟩, href.ram⟩

/-- One page is freed and allocated, written to and freed again. -/
def oneUse : List Use := [.kfree 0x80007000, .kalloc, .store 0x80007000 fun _ => 9, .kfree 0x80007000]

theorem kalloc_refines_one : ∃ (m : Kmem) (s : State),
    Machine.Run (Use.step 1) Machine.any (⟨fun _ _ => 0, 0⟩, ⟨fun _ _ => 0, []⟩) oneUse (m, s) ∧
    m.freelist = 0x80007000 ∧
      m.kalloc.1 = some 0x80007000 ∧ (∃ t, Vm.kalloc s = .ok m.kalloc.1 t) ∧ ∀ a ∉ s.freelist, m.ram a = s.ram a := by
  obtain ⟨⟨m, s⟩, hs, hfree, halloc⟩ : ∃ x : Kmem × State,
      Machine.Run (Use.step 1) Machine.any (⟨fun _ _ => 0, 0⟩, ⟨fun _ _ => 0, []⟩) oneUse x ∧
      x.1.freelist = 0x80007000 ∧ x.1.kalloc.1 = some 0x80007000 := by decide +kernel
  exact ⟨m, s, hs, hfree, halloc, kalloc_refines Nat.one_pos hs⟩

end Xv6.Vm

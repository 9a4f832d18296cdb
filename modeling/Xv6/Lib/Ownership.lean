import Mathlib.Logic.Function.Basic

/-!
# Resources in slots, and marks for the ones in use

An allocator marks resources, and slots hold them. `Owned` says that a resource is marked exactly when it
is reserved for good or in a slot, and is never in two slots. A slot that takes an unmarked resource, and
a slot that gives its resource back, keep this.
-/

namespace Ownership

variable {S B : Type} {reserved range : B → Prop} {refs refs' : S → Option B} {used used' : B → Prop} {s t : S}
  {b : B}

/-- `refs s` is what slot `s` holds. Only resources in `range` may be held; marks are known of these and of
the reserved ones. -/
structure Owned (reserved range : B → Prop) (refs : S → Option B) (used : B → Prop) : Prop where
  apart : ∀ b, range b → ¬ reserved b
  marked : ∀ b, reserved b → used b
  held : ∀ b, range b → (used b ↔ ∃ s, refs s = some b)
  inj : ∀ s t b, refs s = some b → refs t = some b → s = t
  mem : ∀ s b, refs s = some b → range b

section

variable (h : Owned reserved range refs used)

include h

theorem Owned.used_of_ref (hs : refs s = some b) : used b :=
  (h.held b (h.mem s b hs)).mpr ⟨s, hs⟩

theorem Owned.used_iff (hb : reserved b ∨ range b) :
    used b ↔ reserved b ∨ ∃ s, refs s = some b ∧ ∀ t, refs t = some b → t = s := by
  constructor
  · intro hu
    rcases hb with hb | hb
    · exact .inl hb
    · obtain ⟨s, hs⟩ := (h.held b hb).mp hu
      exact .inr ⟨s, hs, fun t ht => h.inj t s b ht hs⟩
  · rintro (hr | ⟨s, hs, -⟩)
    · exact h.marked b hr
    · exact h.used_of_ref hs

theorem Owned.not_ref (hu : ¬ used b) (s : S) : refs s ≠ some b :=
  fun hs => hu (h.used_of_ref hs)

theorem Owned.congr (hr : ∀ s, refs' s = refs s) (hu : ∀ b, reserved b ∨ range b → (used' b ↔ used b)) :
    Owned reserved range refs' used' := by
  obtain rfl : refs' = refs := funext hr
  exact {
    apart := h.apart
    marked := fun b hb => (hu b (.inl hb)).mpr (h.marked b hb)
    held := fun b hb => (hu b (.inr hb)).trans (h.held b hb)
    inj := h.inj
    mem := h.mem }

theorem Owned.take (hb : range b) (hu : ¬ used b) (hs : refs s = none) (hself : refs' s = some b)
    (hother : ∀ t, t ≠ s → refs' t = refs t) (hmark : ∀ c, reserved c ∨ range c → (used' c ↔ c = b ∨ used c)) :
    Owned reserved range refs' used' := by
  have hcases : ∀ t c, refs' t = some c → t = s ∧ c = b ∨ t ≠ s ∧ refs t = some c := by
    intro t c ht
    by_cases hts : t = s
    · rw [hts, hself] at ht
      exact .inl ⟨hts, (Option.some.inj ht).symm⟩
    · rw [hother t hts] at ht
      exact .inr ⟨hts, ht⟩
  refine ⟨h.apart, fun c hc => (hmark c (.inl hc)).mpr (.inr (h.marked c hc)), fun c hc => ?_,
    fun t u c ht hu' => ?_, fun t c ht => ?_⟩
  · rw [hmark c (.inr hc), h.held c hc]
    constructor
    · rintro (rfl | ⟨t, ht⟩)
      · exact ⟨s, hself⟩
      · refine ⟨t, (hother t ?_).trans ht⟩
        rintro rfl
        simp [hs] at ht
    · rintro ⟨t, ht⟩
      rcases hcases t c ht with ⟨-, rfl⟩ | ⟨-, ht⟩
      · exact .inl rfl
      · exact .inr ⟨t, ht⟩
  · rcases hcases t c ht with ⟨hts, hcb⟩ | ⟨-, ht⟩ <;> rcases hcases u c hu' with ⟨hus, hcb'⟩ | ⟨-, hu'⟩
    · rw [hts, hus]
    · exact absurd (hcb ▸ hu') (h.not_ref hu u)
    · exact absurd (hcb' ▸ ht) (h.not_ref hu t)
    · exact h.inj t u c ht hu'
  · rcases hcases t c ht with ⟨-, rfl⟩ | ⟨-, ht⟩
    · exact hb
    · exact h.mem t c ht

theorem Owned.give (hs : refs s = some b) (hself : refs' s = none) (hother : ∀ t, t ≠ s → refs' t = refs t)
    (hmark : ∀ c, reserved c ∨ range c → (used' c ↔ c ≠ b ∧ used c)) : Owned reserved range refs' used' := by
  have hold : ∀ t c, refs' t = some c → t ≠ s ∧ refs t = some c := by
    intro t c ht
    have hts : t ≠ s := by
      rintro rfl
      simp [hself] at ht
    exact ⟨hts, hother t hts ▸ ht⟩
  refine ⟨h.apart, fun c hc => (hmark c (.inl hc)).mpr ⟨?_, h.marked c hc⟩, fun c hc => ?_,
    fun t u c ht hu => h.inj t u c (hold t c ht).2 (hold u c hu).2, fun t c ht => h.mem t c (hold t c ht).2⟩
  · rintro rfl
    exact h.apart c (h.mem s c hs) hc
  · rw [hmark c (.inr hc), h.held c hc]
    constructor
    · rintro ⟨hne, t, ht⟩
      refine ⟨t, (hother t ?_).trans ht⟩
      rintro rfl
      exact hne (Option.some.inj (ht.symm.trans hs))
    · rintro ⟨t, ht⟩
      obtain ⟨hts, ht⟩ := hold t c ht
      refine ⟨?_, t, ht⟩
      rintro rfl
      exact hts (h.inj t s c ht hs)

end

end Ownership

import Mathlib.Logic.Function.Basic

/-!
# Objects and their owners

Objects that are allocated and freed, and pointers to them. `Owned` says that each pointer
is to an object that lives, that no two are to the same, and that no object lives without
one: nothing dangles, is freed twice or leaks.
-/

namespace Onvm.Lib

variable {κ π : Type} {own : κ → Option π} {live : π → Prop}

/-- The live objects are those that are owned, each by one owner. -/
structure Owned (own : κ → Option π) (live : π → Prop) : Prop where
  inj : ∀ k k' p, own k = some p → own k' = some p → k = k'
  live_iff : ∀ p, live p ↔ ∃ k, own k = some p

namespace Owned

theorem empty (ho : ∀ k, own k = none) (hl : ∀ p, ¬ live p) : Owned own live where
  inj k k' p hk := by
    rw [ho] at hk
    cases hk
  live_iff p := iff_of_false (hl p) fun ⟨k, hk⟩ => by
    rw [ho] at hk
    cases hk

/-- The object of an owner is freed, and it gets a new one. -/
theorem replace [DecidableEq κ] (h : Owned own live) (k : κ) {p : π} (hp : ¬ live p)
    {own' : κ → Option π} {live' : π → Prop}
    (hown : ∀ k', own' k' = if k' = k then some p else own k')
    (hlive : ∀ q, live' q ↔ q = p ∨ (live q ∧ own k ≠ some q)) : Owned own' live' := by
  have hfresh : ∀ k', own k' ≠ some p := fun k' hk' => hp ((h.live_iff p).mpr ⟨k', hk'⟩)
  constructor
  · intro k₁ k₂ q h₁ h₂
    rw [hown] at h₁ h₂
    split at h₁ <;> split at h₂
    · rename_i e₁ e₂
      rw [e₁, e₂]
    · cases h₁
      exact absurd h₂ (hfresh k₂)
    · cases h₂
      exact absurd h₁ (hfresh k₁)
    · exact h.inj k₁ k₂ q h₁ h₂
  · intro q
    rw [hlive, h.live_iff]
    constructor
    · rintro (rfl | ⟨⟨k', hk'⟩, hne⟩)
      · exact ⟨k, by rw [hown, if_pos rfl]⟩
      · have hkk : k' ≠ k := fun hkk => hne (hkk ▸ hk')
        exact ⟨k', by rw [hown, if_neg hkk, hk']⟩
    · rintro ⟨k', hk'⟩
      rw [hown] at hk'
      split at hk'
      · exact .inl (Option.some.inj hk').symm
      · rename_i hne
        exact .inr ⟨⟨k', hk'⟩, fun hk => hne (h.inj k' k q hk' hk)⟩

end Owned

end Onvm.Lib

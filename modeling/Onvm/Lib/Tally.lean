import Mathlib.Data.Nat.Count

/-!
# Counting the slots of a table

`Nat.count p n` is the number of slots below `n` that satisfy `p`. A table is
changed one slot at a time; these lemmas say what that does to the count.
-/

namespace Onvm.Lib

variable {p q : Nat → Prop} [DecidablePred p] [DecidablePred q] {n i : Nat}

theorem count_congr_below (h : ∀ j < n, (p j ↔ q j)) : Nat.count p n = Nat.count q n :=
  Nat.le_antisymm (Nat.count_mono_left fun j hj => (h j hj).mp)
    (Nat.count_mono_left fun j hj => (h j hj).mpr)

theorem count_congr (h : ∀ j, p j ↔ q j) : Nat.count p n = Nat.count q n :=
  count_congr_below fun j _ => h j

/-- Slot `i` starts to satisfy the predicate. -/
theorem count_enter (hi : i < n) (hp : ¬ p i) (hq : q i) (h : ∀ j, j ≠ i → (p j ↔ q j)) :
    Nat.count q n = Nat.count p n + 1 := by
  induction n with
  | zero => exact absurd hi (Nat.not_lt_zero i)
  | succ n ih =>
    rw [Nat.count_succ, Nat.count_succ]
    by_cases hin : i = n
    · subst hin
      have hbelow : Nat.count q i = Nat.count p i :=
        count_congr_below fun j hj => (h j (by omega)).symm
      rw [if_pos hq, if_neg hp, hbelow, Nat.add_zero]
    · rw [ih (by omega)]
      simp only [h n (Ne.symm hin)]
      omega

/-- Slot `i` stops satisfying the predicate. -/
theorem count_leave (hi : i < n) (hp : p i) (hq : ¬ q i) (h : ∀ j, j ≠ i → (p j ↔ q j)) :
    Nat.count q n + 1 = Nat.count p n :=
  (count_enter hi hq hp fun j hj => (h j hj).symm).symm

theorem count_pos (hi : i < n) (hp : p i) : 0 < Nat.count p n :=
  Nat.pos_of_ne_zero (Nat.count_ne_iff_exists.mpr ⟨i, hi, hp⟩)

theorem eq_of_count_eq_one {j : Nat} (h1 : Nat.count p n = 1) (hi : i < n) (hj : j < n)
    (hp : p i) (hp' : p j) : i = j := by
  by_contra hne
  have hleave : Nat.count (fun k => p k ∧ k ≠ i) n + 1 = Nat.count p n :=
    count_leave hi hp (by simp) (by intro k hk; simp [hk])
  have hpos : 0 < Nat.count (fun k => p k ∧ k ≠ i) n := count_pos hj ⟨hp', Ne.symm hne⟩
  omega

end Onvm.Lib

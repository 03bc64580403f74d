import Mathlib.Data.Nat.ModEq

/-!
# Round robin

A pointer that goes around `n` places. `dist` is how far it has to go to a place, and
`Before` says which of two places it comes to first. One step changes that only at the
places themselves, which is why a round robin serves two places in turn.
-/

namespace Onvm.Lib

variable {n c a b : Nat}

def dist (n c a : Nat) : Nat := (a + n - c) % n

theorem dist_self : dist n c c = 0 := by
  rw [dist, Nat.add_sub_cancel_left, Nat.mod_self]

theorem dist_lt (hn : 0 < n) : dist n c a < n := Nat.mod_lt _ hn

theorem dist_eq (hc : c < n) (ha : a < n) : dist n c a = if c ≤ a then a - c else a + n - c := by
  unfold dist
  split
  · rw [(by omega : a + n - c = a - c + n), Nat.add_mod_right, Nat.mod_eq_of_lt (by omega)]
  · rw [Nat.mod_eq_of_lt (by omega)]

theorem dist_eq_zero (hc : c < n) (ha : a < n) : dist n c a = 0 ↔ c = a := by
  rw [dist_eq hc ha]
  split <;> omega

theorem next_eq (hc : c < n) : (c + 1) % n = if c + 1 = n then 0 else c + 1 := by
  split
  · rename_i h
    rw [h, Nat.mod_self]
  · rw [Nat.mod_eq_of_lt (by omega)]

theorem next_lt (hc : c < n) : (c + 1) % n < n := Nat.mod_lt _ (Nat.zero_lt_of_lt hc)

/-- A step comes one closer, or leaves the place a whole round behind. -/
theorem dist_next (hc : c < n) (ha : a < n) :
    dist n ((c + 1) % n) a = if c = a then n - 1 else dist n c a - 1 := by
  have hnext := next_lt hc
  rw [dist_eq hnext ha, dist_eq hc ha, next_eq hc]
  grind

def Before (n c a b : Nat) : Prop := dist n c a < dist n c b

instance (n c a b : Nat) : Decidable (Before n c a b) := inferInstanceAs (Decidable (_ < _))

theorem before_self (hc : c < n) (hb : b < n) (hne : c ≠ b) : Before n c c b := by
  rw [Before, dist_self]
  exact Nat.pos_of_ne_zero fun h => hne ((dist_eq_zero hc hb).mp h)

theorem not_before_self : ¬ Before n c a c := by
  rw [Before, dist_self]
  exact Nat.not_lt_zero _

/-- Elsewhere a step leaves the order as it is. -/
theorem before_next (hc : c < n) (ha : a < n) (hb : b < n) (hca : c ≠ a) (hcb : c ≠ b) :
    Before n ((c + 1) % n) a b ↔ Before n c a b := by
  have hpa : dist n c a ≠ 0 := fun h => hca ((dist_eq_zero hc ha).mp h)
  have hpb : dist n c b ≠ 0 := fun h => hcb ((dist_eq_zero hc hb).mp h)
  rw [Before, Before, dist_next hc ha, dist_next hc hb, if_neg hca, if_neg hcb]
  omega

/-- A step off a place puts it last. -/
theorem before_next_self (ha : a < n) (hb : b < n) (hne : a ≠ b) :
    Before n ((b + 1) % n) a b ∧ ¬ Before n ((a + 1) % n) a b := by
  rw [Before, Before, dist_next hb ha, dist_next hb hb, dist_next ha ha, dist_next ha hb,
    if_pos rfl, if_pos rfl, if_neg hne, if_neg hne.symm]
  have h1 := dist_lt (c := b) (a := a) (Nat.zero_lt_of_lt ha)
  have h2 := dist_lt (c := a) (a := b) (Nat.zero_lt_of_lt ha)
  have h3 : dist n b a ≠ 0 := fun h => hne ((dist_eq_zero hb ha).mp h).symm
  omega

end Onvm.Lib

import Mathlib.Algebra.BigOperators.Group.Finset.Basic
import Mathlib.Algebra.Order.BigOperators.Group.Finset
import Mathlib.Data.Fintype.Basic

/-!
# Custody of tokens

Finitely many tokens `U`, each of which is always held at exactly one of
finitely many places. `Custody U held` says so by counting; handing one token
from a place to another keeps it (`Custody.move`).
-/

namespace Onvm.Lib

open Finset

variable {P T : Type} [Fintype P] [DecidableEq T]

/-- Over all places every token of `U` is held once, and nothing else is held. -/
def Custody (U : Finset T) (held : P → List T) : Prop :=
  ∀ t, ∑ p, (held p).count t = if t ∈ U then 1 else 0

namespace Custody

variable {U : Finset T} {held held' : P → List T}

theorem count_le (h : Custody U held) (p : P) (t : T) : (held p).count t ≤ 1 := by
  have h1 : (held p).count t ≤ ∑ p, (held p).count t :=
    single_le_sum (f := fun p => (held p).count t) (fun _ _ => Nat.zero_le _) (mem_univ p)
  have h2 := h t
  split at h2 <;> omega

theorem nodup (h : Custody U held) (p : P) : (held p).Nodup :=
  List.nodup_iff_count_le_one.mpr (h.count_le p)

theorem mem (h : Custody U held) {p : P} {t : T} (ht : t ∈ held p) : t ∈ U := by
  by_contra hU
  have h0 := h t
  rw [if_neg hU, sum_eq_zero_iff] at h0
  have := List.count_pos_iff.mpr ht
  have := h0 p (mem_univ p)
  omega

/-- Every token is at exactly one place. -/
theorem existsUnique [DecidableEq P] (h : Custody U held) {t : T} (ht : t ∈ U) : ∃! p, t ∈ held p := by
  have h1 := h t
  rw [if_pos ht] at h1
  obtain ⟨p, hp⟩ : ∃ p, t ∈ held p := by
    by_contra hno
    rw [sum_eq_zero] at h1
    · omega
    · exact fun p _ => List.count_eq_zero.mpr fun hm => hno ⟨p, hm⟩
  refine ⟨p, hp, ?_⟩
  intro q hq
  by_contra hne
  -- Two holders would already make a count of two.
  have h2 : (held p).count t + (held q).count t ≤ ∑ p, (held p).count t := by
    rw [← sum_pair (f := fun p => (held p).count t) (Ne.symm hne)]
    exact sum_le_sum_of_subset (subset_univ _)
  have := List.count_pos_iff.mpr hp
  have := List.count_pos_iff.mpr hq
  omega

/-- The places hold as many tokens as there are. -/
theorem sum_length (h : Custody U held) : ∑ p, (held p).length = U.card := by
  have hlen : ∀ p, (held p).length = ∑ t ∈ U, (held p).count t := by
    intro p
    have hsub : (held p).toFinset ⊆ U := fun t ht => h.mem (List.mem_toFinset.mp ht)
    rw [← List.sum_toFinset_count_eq_length]
    exact sum_subset hsub fun t _ ht =>
      List.count_eq_zero.mpr fun hm => ht (List.mem_toFinset.mpr hm)
  simp only [hlen]
  rw [sum_comm, card_eq_sum_ones]
  exact sum_congr rfl fun t ht => by rw [h t, if_pos ht]

theorem congr (h : Custody U held) (hp : ∀ p, (held' p).Perm (held p)) : Custody U held' := by
  intro t
  rw [← h t]
  exact sum_congr rfl fun p _ => (hp p).count_eq t

/-- **Handing over a token**: `p` gives `t` to `q` and nothing else moves. -/
theorem move [DecidableEq P] (h : Custody U held) {p q : P} {t : T} (hpq : p ≠ q)
    (hp : (held p).Perm (t :: held' p)) (hq : (held' q).Perm (t :: held q))
    (hr : ∀ r, r ≠ p → r ≠ q → (held' r).Perm (held r)) : Custody U held' := by
  intro u
  rw [← h u, ← add_sum_erase univ _ (mem_univ p), ← add_sum_erase univ (fun p => (held p).count u)
    (mem_univ p), ← add_sum_erase (univ.erase p) _ (mem_erase.mpr ⟨Ne.symm hpq, mem_univ q⟩),
    ← add_sum_erase (univ.erase p) (fun p => (held p).count u)
      (mem_erase.mpr ⟨Ne.symm hpq, mem_univ q⟩)]
  have h1 := hp.count_eq u
  have h2 := hq.count_eq u
  have h3 : ∑ r ∈ (univ.erase p).erase q, (held' r).count u =
      ∑ r ∈ (univ.erase p).erase q, (held r).count u :=
    sum_congr rfl fun r hm =>
      (hr r (ne_of_mem_erase (mem_of_mem_erase hm)) (ne_of_mem_erase hm)).count_eq u
  rw [List.count_cons] at h1 h2
  omega

end Custody

end Onvm.Lib

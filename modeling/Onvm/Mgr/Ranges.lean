import Mathlib.Algebra.Order.Floor.Semiring
import Mathlib.Data.Rat.Floor
import Onvm.Nflib.Common

/-!
# The NFs of each thread

`main` gives each TX thread, and in shared core mode each wakeup thread, a range of
instance IDs, from `first_nf` to `last_nf - 1`. Both shares are rounded up by `ceil`,
but only for the TX threads is there something to round: the share of a wakeup thread
is the quotient of two unsigned numbers.
-/

namespace Onvm.Mgr

open Onvm.Nflib

/-- `ceil((float)MAX_NFS / tx_lcores)` -/
def nfsPerTx (txLcores : Nat) : Nat := ⌈(maxNfs : ℚ) / txLcores⌉₊

/-- `ceil((unsigned)MAX_NFS / wakeup_lcores)` -/
def nfsPerWakeupThread (wakeupLcores : Nat) : Nat := maxNfs / wakeupLcores

/-- `first_nf` of thread `i`, in unsigned arithmetic -/
def firstNf (share i : Nat) : Nat := min ((i * share + 1) % 2 ^ 32) maxNfs

def lastNf (share i : Nat) : Nat := min (((i + 1) * share + 1) % 2 ^ 32) maxNfs

/-- Each ID is in the range of exactly one thread, and the ranges hold nothing else. -/
structure Partitioned (threads share : Nat) : Prop where
  once : ∀ id, 1 ≤ id → id < maxNfs →
    ∃! k, k < threads ∧ firstNf share k ≤ id ∧ id < lastNf share k
  inside : ∀ k < threads, ∀ id, firstNf share k ≤ id → id < lastNf share k →
    1 ≤ id ∧ id < maxNfs

variable {threads share k id : Nat}

/-- A range is a block, as far as there are IDs. The end of a block that begins below
`MAX_NFS` does not wrap. -/
theorem mem_range_iff (hshare : share ≤ maxNfs) (hfirst : k * share + 1 < 2 ^ 32) :
    firstNf share k ≤ id ∧ id < lastNf share k ↔
      k * share < id ∧ id ≤ (k + 1) * share ∧ id < maxNfs := by
  unfold firstNf lastNf
  rw [Nat.mod_eq_of_lt hfirst, Nat.add_mul, Nat.one_mul]
  simp only [maxNfs] at *
  constructor
  · rintro ⟨hle, hlt⟩
    have hnowrap : (k * share + share + 1) % 2 ^ 32 = k * share + share + 1 :=
      Nat.mod_eq_of_lt (by omega)
    omega
  · rintro ⟨hgt, hle, hid⟩
    have hnowrap : (k * share + share + 1) % 2 ^ 32 = k * share + share + 1 :=
      Nat.mod_eq_of_lt (by omega)
    omega

/-- The blocks have to reach the last ID. -/
theorem partitioned_iff (hshare : share ≤ maxNfs) (hfirst : ∀ k < threads, k * share + 1 < 2 ^ 32) :
    Partitioned threads share ↔ maxNfs ≤ threads * share + 1 := by
  constructor
  · intro h
    obtain ⟨k, ⟨hk, hmem⟩, -⟩ := h.once (maxNfs - 1) (by decide) (by decide)
    obtain ⟨-, hle, -⟩ := (mem_range_iff hshare (hfirst k hk)).mp hmem
    have hreach : (k + 1) * share ≤ threads * share := Nat.mul_le_mul_right share hk
    omega
  · intro hreach
    refine ⟨fun id hpos hid => ?_, fun k hk id hle hlt => ?_⟩
    · have hshare_pos : 0 < share := by
        rcases Nat.eq_zero_or_pos share with rfl | hpos
        · simp only [maxNfs] at hreach
          omega
        · exact hpos
      have hk : (id - 1) / share < threads := by
        apply Nat.div_lt_of_lt_mul
        rw [Nat.mul_comm]
        omega
      have hdiv := Nat.div_add_mod (id - 1) share
      have hmod := Nat.mod_lt (id - 1) hshare_pos
      refine ⟨(id - 1) / share, ⟨hk, (mem_range_iff hshare (hfirst _ hk)).mpr ⟨?_, ?_, hid⟩⟩, ?_⟩
      · rw [Nat.mul_comm]
        omega
      · rw [Nat.add_mul, Nat.one_mul, Nat.mul_comm]
        omega
      · rintro k ⟨hk', hmem⟩
        obtain ⟨hgt, hle, -⟩ := (mem_range_iff hshare (hfirst k hk')).mp hmem
        refine (Nat.div_eq_of_lt_le ?_ ?_).symm
        · omega
        · omega
    · obtain ⟨hgt, -, hid⟩ := (mem_range_iff hshare (hfirst k hk)).mp ⟨hle, hlt⟩
      omega

/-- The share is the least that is enough. -/
theorem nfsPerTx_bounds (hpos : 1 ≤ threads) :
    maxNfs ≤ threads * nfsPerTx threads ∧ threads * nfsPerTx threads < maxNfs + threads := by
  have hthreads : (0 : ℚ) < threads := by exact_mod_cast hpos
  have hle : (maxNfs : ℚ) / threads ≤ nfsPerTx threads := Nat.le_ceil _
  have hlt : (nfsPerTx threads : ℚ) < maxNfs / threads + 1 := Nat.ceil_lt_add_one (by positivity)
  constructor
  · rw [div_le_iff₀ hthreads, mul_comm] at hle
    exact_mod_cast hle
  · have hmul := mul_lt_mul_of_pos_left hlt hthreads
    rw [mul_add, mul_div_cancel₀ _ hthreads.ne', mul_one] at hmul
    exact_mod_cast hmul

theorem partitioned_tx (hpos : 1 ≤ threads) (hthreads : threads < 2 ^ 32) :
    Partitioned threads (nfsPerTx threads) := by
  obtain ⟨hreach, hleast⟩ := nfsPerTx_bounds hpos
  generalize nfsPerTx threads = share at hreach hleast
  simp only [maxNfs] at hreach hleast
  have hshare : share ≤ maxNfs := by
    simp only [maxNfs]
    by_contra hgt
    have hmul : threads * 129 ≤ threads * share := Nat.mul_le_mul_left threads (by omega)
    omega
  refine (partitioned_iff hshare fun k hk => ?_).mpr (by simp only [maxNfs]; omega)
  -- with 128 threads or more the share is 1
  rcases Nat.lt_or_ge threads maxNfs with hfew | hmany
  · have hmul : k * share ≤ maxNfs * maxNfs := Nat.mul_le_mul (by omega) hshare
    simp only [maxNfs] at hmul
    omega
  · have hone : share ≤ 1 := by
      simp only [maxNfs] at hmany
      by_contra hgt
      have hmul : threads * 2 ≤ threads * share := Nat.mul_le_mul_left threads (by omega)
      omega
    have hmul : k * share ≤ k * 1 := Nat.mul_le_mul_left k hone
    omega

theorem partitioned_wakeup_iff (threads : Nat) :
    Partitioned threads (nfsPerWakeupThread threads) ↔ maxNfs % threads ≤ 1 := by
  have hdiv := Nat.div_add_mod maxNfs threads
  have hle : nfsPerWakeupThread threads ≤ maxNfs := Nat.div_le_self _ _
  rw [partitioned_iff hle fun k hk => ?_]
  · unfold nfsPerWakeupThread
    omega
  · have hmul : k * nfsPerWakeupThread threads ≤ threads * (maxNfs / threads) :=
      Nat.mul_le_mul_right _ hk.le
    simp only [maxNfs] at *
    omega

/-- **Ranges.** The TX threads share the NFs out, however many there are. The wakeup
threads do exactly when at most one ID is left over, which is the reserved one. -/
theorem ranges_partition_iff (threads : Nat) (hpos : 1 ≤ threads) (hthreads : threads < 2 ^ 32) :
    Partitioned threads (nfsPerTx threads) ∧
      (Partitioned threads (nfsPerWakeupThread threads) ↔ maxNfs % threads ≤ 1) :=
  ⟨partitioned_tx hpos hthreads, partitioned_wakeup_iff threads⟩

theorem ranges_partition_four :
    Partitioned 4 (nfsPerTx 4) ∧ Partitioned 4 (nfsPerWakeupThread 4) := by
  obtain ⟨htx, hwakeup⟩ := ranges_partition_iff 4 (by decide) (by decide)
  exact ⟨htx, hwakeup.mpr (by decide)⟩

/-- With three wakeup threads, nobody wakes NF 127. -/
theorem wakeup_range_short : ¬ ∀ threads, 1 ≤ threads → threads < 2 ^ 32 →
    Partitioned threads (nfsPerTx threads) ∧
      Partitioned threads (nfsPerWakeupThread threads) := by
  intro h
  obtain ⟨k, ⟨hk, -, hlt⟩, -⟩ := (h 3 (by decide) (by decide)).2.once 127 (by decide) (by decide)
  revert hlt
  decide +revert

end Onvm.Mgr

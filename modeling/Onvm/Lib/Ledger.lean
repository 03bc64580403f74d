import Mathlib.Data.List.Perm.Basic
import Mathlib.Data.List.Count

/-!
# Acquire and release

A ledger records which resources a program acquired and released. Handles are
fresh numbers, so a release that names the wrong handle or the wrong kind shows
up as one. `Holds l held` says what is acquired and not yet released;
a ledger is balanced when that is nothing.
-/

namespace Onvm.Lib

/-- What was done with a resource of some kind. -/
inductive Use (R : Type) where
  | acquire (r : R) (h : Nat)
  | release (r : R) (h : Nat)
  deriving DecidableEq, Repr

structure Ledger (R : Type) where
  next : Nat := 0
  log : List (Use R) := []

namespace Ledger

variable {R : Type} [DecidableEq R] {l : Ledger R} {held rest : List (R × Nat)}

/-- Acquire a resource under a fresh handle. -/
def acquire (l : Ledger R) (r : R) : Nat × Ledger R :=
  (l.next, { next := l.next + 1, log := l.log ++ [.acquire r l.next] })

def release (l : Ledger R) (r : R) (h : Nat) : Ledger R :=
  { l with log := l.log ++ [.release r h] }

/-- Everything acquired was released exactly once and nothing else was released. -/
def Balanced (l : Ledger R) : Prop :=
  ∀ r h, l.log.count (.release r h) = l.log.count (.acquire r h) ∧
    l.log.count (.acquire r h) ≤ 1

/-- How many resources of the kinds in `p` were acquired. -/
def acquired (p : R → Bool) (l : Ledger R) : Nat :=
  l.log.countP fun
    | .acquire r _ => p r
    | .release _ _ => false

structure Holds (l : Ledger R) (held : List (R × Nat)) : Prop where
  count : ∀ r h, l.log.count (.acquire r h) = l.log.count (.release r h) + held.count (r, h)
  once : ∀ r h, l.log.count (.acquire r h) ≤ 1
  fresh : ∀ r h, l.next ≤ h → l.log.count (.acquire r h) = 0

theorem holds_empty : Holds ({} : Ledger R) [] :=
  ⟨fun _ _ => rfl, fun _ _ => Nat.zero_le _, fun _ _ _ => rfl⟩

theorem Holds.perm (h : Holds l held) (hp : held.Perm rest) : Holds l rest :=
  ⟨fun r x => by rw [h.count, hp.count_eq], h.once, h.fresh⟩

theorem Holds.acquire (h : Holds l held) (r : R) :
    Holds (l.acquire r).2 ((r, (l.acquire r).1) :: held) := by
  constructor
  · intro r' x
    have h1 := h.count r' x
    simp only [Ledger.acquire, List.count_append, List.count_cons, List.count_nil, beq_iff_eq,
      Use.acquire.injEq, reduceCtorEq, if_false, Prod.mk.injEq]
    omega
  · intro r' x
    have h1 := h.once r' x
    simp only [Ledger.acquire, List.count_append, List.count_singleton, beq_iff_eq,
      Use.acquire.injEq]
    split
    case isTrue he =>
      have := h.fresh r' x (by omega)
      omega
    case isFalse => omega
  · intro r' x hx
    simp only [Ledger.acquire] at hx
    have h1 := h.fresh r' x (by omega)
    simp only [Ledger.acquire, List.count_append, List.count_singleton, beq_iff_eq,
      Use.acquire.injEq, h1]
    rw [if_neg (by omega)]

theorem Holds.release {r : R} {x : Nat} (h : Holds l ((r, x) :: rest)) :
    Holds (l.release r x) rest := by
  refine ⟨fun r' y => ?_, fun r' y => ?_, fun r' y hy => ?_⟩
  · have h1 := h.count r' y
    simp only [Ledger.release, List.count_append, List.count_cons, List.count_nil, beq_iff_eq,
      Use.release.injEq, reduceCtorEq, if_false, Prod.mk.injEq] at h1 ⊢
    omega
  · have h1 := h.once r' y
    simp only [Ledger.release, List.count_append, List.count_singleton, beq_iff_eq, reduceCtorEq,
      if_false]
    omega
  · have h1 := h.fresh r' y hy
    simp only [Ledger.release, List.count_append, List.count_singleton, beq_iff_eq, reduceCtorEq,
      if_false]
    omega

/-- A ledger is balanced when nothing is held. -/
theorem Holds.balanced_iff (h : Holds l held) : l.Balanced ↔ held = [] := by
  constructor
  · intro hb
    rw [List.eq_nil_iff_forall_not_mem]
    rintro ⟨r, x⟩ hm
    have h1 := h.count r x
    have h2 := (hb r x).1
    have h3 := List.count_pos_iff.mpr hm
    omega
  · rintro rfl r x
    exact ⟨by simpa using (h.count r x).symm, h.once r x⟩

/-- Releasing what is not held is never made up for. -/
theorem not_balanced_of_count_lt {r : R} {x : Nat}
    (h : l.log.count (.acquire r x) < l.log.count (.release r x)) : ¬ l.Balanced := by
  intro hb
  have := (hb r x).1
  omega

omit [DecidableEq R] in
theorem acquired_acquire (p : R → Bool) (l : Ledger R) (r : R) :
    acquired p (l.acquire r).2 = acquired p l + if p r then 1 else 0 := by
  simp [acquired, Ledger.acquire, List.countP_append, List.countP_cons]

omit [DecidableEq R] in
theorem acquired_release (p : R → Bool) (l : Ledger R) (r : R) (h : Nat) :
    acquired p (l.release r h) = acquired p l := by
  simp [acquired, Ledger.release, List.countP_append]

end Ledger

end Onvm.Lib

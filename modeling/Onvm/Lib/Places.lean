import Mathlib.Data.List.Nodup
import Mathlib.Data.List.Perm.Basic
import Mathlib.Logic.Function.Basic

/-!
# Tokens at places

Tokens held in lists at arbitrarily many places. `AtOne` says of a token that it
is held once and at one place, `Nowhere` that it is not held. `Conserves` and
`Takes` are what handing tokens around and putting a new one down have in
common with respect to both; `conserves_move` and `takes_put` are the two
elementary ways.
-/

namespace Onvm.Lib

variable {P T : Type} {held held' held'' : P → List T} {t : T}

/-- The token is at exactly one place, and there once. -/
def AtOne [DecidableEq T] (held : P → List T) (t : T) : Prop :=
  ∃ p, (held p).count t = 1 ∧ ∀ q, q ≠ p → t ∉ held q

def Nowhere (held : P → List T) (t : T) : Prop := ∀ p, t ∉ held p

theorem AtOne.not_nowhere [DecidableEq T] (h : AtOne held t) : ¬ Nowhere held t := by
  obtain ⟨p, hp, -⟩ := h
  intro hno
  have hpos : 0 < (held p).count t := by omega
  exact hno p (List.count_pos_iff.mp hpos)

theorem AtOne.count_le [DecidableEq T] (h : AtOne held t) (p : P) : (held p).count t ≤ 1 := by
  obtain ⟨q, hq, hother⟩ := h
  by_cases hp : p = q
  · subst hp
    omega
  · have hzero := List.count_eq_zero.mpr (hother p hp)
    omega

theorem AtOne.unique [DecidableEq T] (h : AtOne held t) {p q : P} (hp : t ∈ held p)
    (hq : t ∈ held q) : p = q := by
  obtain ⟨r, -, hother⟩ := h
  have hpr : p = r := by
    by_contra hne
    exact hother p hne hp
  have hqr : q = r := by
    by_contra hne
    exact hother q hne hq
  rw [hpr, hqr]

/-- These tokens and no others are held, each at one place. -/
def Accounted [DecidableEq T] (held : P → List T) (ts : List T) : Prop :=
  (∀ t ∈ ts, AtOne held t) ∧ ∀ t, t ∉ ts → Nowhere held t

theorem Accounted.atOne [DecidableEq T] {ts : List T} (h : Accounted held ts) {p : P}
    (hp : t ∈ held p) : AtOne held t := by
  by_cases ht : t ∈ ts
  · exact h.1 t ht
  · exact absurd hp (h.2 t ht p)

/-- No token is lost, doubled or made up. -/
structure Conserves [DecidableEq T] (held held' : P → List T) : Prop where
  atOne : ∀ t, AtOne held t → AtOne held' t
  nowhere : ∀ t, Nowhere held t → Nowhere held' t

/-- The token `t` is put down, and the others are conserved. -/
structure Takes [DecidableEq T] (held held' : P → List T) (t : T) : Prop where
  here : Nowhere held t → AtOne held' t
  atOne : ∀ u, AtOne held u → u ≠ t → AtOne held' u
  nowhere : ∀ u, Nowhere held u → u ≠ t → Nowhere held' u

variable [DecidableEq T]

theorem Conserves.refl (held : P → List T) : Conserves held held := ⟨fun _ h => h, fun _ h => h⟩

theorem Conserves.trans (h : Conserves held held') (h' : Conserves held' held'') :
    Conserves held held'' :=
  ⟨fun t ht => h'.atOne t (h.atOne t ht), fun t ht => h'.nowhere t (h.nowhere t ht)⟩

theorem Conserves.accounted (h : Conserves held held') {ts : List T} (ha : Accounted held ts) :
    Accounted held' ts :=
  ⟨fun t ht => h.atOne t (ha.1 t ht), fun t ht => h.nowhere t (ha.2 t ht)⟩

theorem conserves_of_perm (h : ∀ p, (held' p).Perm (held p)) : Conserves held held' := by
  have hmem : ∀ t p, t ∈ held' p ↔ t ∈ held p := fun t p => (h p).mem_iff
  refine ⟨fun t ⟨p, hp, hother⟩ => ⟨p, ?_, fun q hq => ?_⟩, fun t ht p => ?_⟩
  · rwa [(h p).count_eq]
  · rw [hmem]
    exact hother q hq
  · rw [hmem]
    exact ht p

theorem accounted_initial {p : P} (hp : (held p).Nodup) (hr : ∀ q, q ≠ p → held q = []) :
    Accounted held (held p) := by
  refine ⟨fun t ht => ⟨p, List.count_eq_one_of_mem hp ht, fun q hq => ?_⟩, fun t ht q => ?_⟩
  · rw [hr q hq]
    exact List.not_mem_nil
  · by_cases hq : q = p
    · rw [hq]
      exact ht
    · rw [hr q hq]
      exact List.not_mem_nil

theorem Takes.trans (h : Takes held held' t) (h' : Conserves held' held'') :
    Takes held held'' t :=
  ⟨fun ht => h'.atOne t (h.here ht), fun u hu hne => h'.atOne u (h.atOne u hu hne),
    fun u hu hne => h'.nowhere u (h.nowhere u hu hne)⟩

/-- **Handing over**: place `a` gives the tokens `l` to place `b`. -/
theorem conserves_move {a b : P} {l : List T} (hab : a ≠ b) (ha : (held a).Perm (held' a ++ l))
    (hb : (held' b).Perm (held b ++ l)) (hr : ∀ q, q ≠ a → q ≠ b → held' q = held q) :
    Conserves held held' := by
  have hca : ∀ t, (held a).count t = (held' a).count t + l.count t := fun t => by
    rw [ha.count_eq, List.count_append]
  have hcb : ∀ t, (held' b).count t = (held b).count t + l.count t := fun t => by
    rw [hb.count_eq, List.count_append]
  constructor
  · rintro t ⟨p, hp, hother⟩
    have hzero : ∀ q, q ≠ p → (held q).count t = 0 := fun q hq =>
      List.count_eq_zero.mpr (hother q hq)
    by_cases hl : l.count t = 0
    · -- The token is not among those that move.
      refine ⟨p, ?_, fun q hq => List.count_eq_zero.mp ?_⟩
      · by_cases hpa : p = a
        · subst hpa
          have := hca t
          omega
        · by_cases hpb : p = b
          · subst hpb
            have := hcb t
            omega
          · rwa [hr p hpa hpb]
      · have hq0 := hzero q hq
        by_cases hqa : q = a
        · subst hqa
          have := hca t
          omega
        · by_cases hqb : q = b
          · subst hqb
            have := hcb t
            omega
          · rwa [hr q hqa hqb]
    · -- It moves, so it was at `a` and is at `b` now.
      have hpa : p = a := by
        by_contra hpa
        have := hca t
        have := hzero a (Ne.symm hpa)
        omega
      subst hpa
      have h1 := hca t
      have h2 := hcb t
      have h3 := hzero b (Ne.symm hab)
      refine ⟨b, by omega, fun q hq => List.count_eq_zero.mp ?_⟩
      by_cases hqp : q = p
      · subst hqp
        omega
      · rw [hr q hqp hq]
        exact hzero q hqp
  · intro t ht q
    have hl : t ∉ l := fun hm => ht a (ha.mem_iff.mpr (List.mem_append_right _ hm))
    by_cases hqa : q = a
    · subst hqa
      exact fun hm => ht q (ha.mem_iff.mpr (List.mem_append_left l hm))
    · by_cases hqb : q = b
      · subst hqb
        intro hm
        rcases List.mem_append.mp (hb.mem_iff.mp hm) with hm | hm
        · exact ht q hm
        · exact hl hm
      · rw [hr q hqa hqb]
        exact ht q

theorem conserves_handover [DecidableEq P] {a b : P} {xs ys l : List T} (hab : a ≠ b)
    (ha : (held a).Perm (xs ++ l)) (hb : ys.Perm (held b ++ l)) :
    Conserves held (Function.update (Function.update held a xs) b ys) := by
  refine conserves_move (a := a) (b := b) (l := l) hab ?_ ?_ fun q hqa hqb => ?_
  · rwa [Function.update_of_ne hab, Function.update_self]
  · rwa [Function.update_self]
  · rw [Function.update_of_ne hqb, Function.update_of_ne hqa]

/-- **Putting down**: the token `t` is put at place `b`. -/
theorem takes_put {b : P} (hb : (held' b).Perm (held b ++ [t]))
    (hr : ∀ q, q ≠ b → held' q = held q) : Takes held held' t := by
  have hcb : ∀ u, u ≠ t → (held' b).count u = (held b).count u := fun u hu => by
    rw [hb.count_eq, List.count_append, List.count_singleton]
    simp [Ne.symm hu]
  have hcount : ∀ u, u ≠ t → ∀ q, (held' q).count u = (held q).count u := fun u hu q => by
    by_cases hq : q = b
    · subst hq
      exact hcb u hu
    · rw [hr q hq]
  refine ⟨fun ht => ⟨b, ?_, fun q hq => ?_⟩, ?_, fun u hu hne q => ?_⟩
  · rw [hb.count_eq, List.count_append, List.count_eq_zero.mpr (ht b), List.count_singleton_self]
  · rw [hr q hq]
    exact ht q
  · rintro u ⟨p, hp, hother⟩ hne
    refine ⟨p, by rwa [hcount u hne], fun q hq => List.count_eq_zero.mp ?_⟩
    rw [hcount u hne]
    exact List.count_eq_zero.mpr (hother q hq)
  · apply List.count_eq_zero.mp
    rw [hcount u hne]
    exact List.count_eq_zero.mpr (hu q)

end Onvm.Lib

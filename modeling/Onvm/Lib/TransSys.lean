import Mathlib.Logic.Relation

/-!
# Transition systems

States, initial states and a step relation. `Reachable` is what a run can
reach; `Reachable.induct` is the invariant rule. `within P` keeps the runs all
of whose states satisfy `P`, which is how an assumption on whole runs is
stated. `Simulation` carries invariants of an abstract system over to a
concrete one.
-/

namespace Onvm.Lib

structure TransSys (σ : Type) where
  Init : σ → Prop
  Next : σ → σ → Prop

namespace TransSys

variable {σ τ : Type} {T : TransSys σ}

/-- The states some run reaches. -/
inductive Reachable (T : TransSys σ) : σ → Prop where
  | init {s : σ} : T.Init s → Reachable T s
  | step {s s' : σ} : Reachable T s → T.Next s s' → Reachable T s'

/-- **The invariant rule**: what holds initially and is kept by every step from
a reachable state holds of every reachable state. -/
theorem Reachable.induct {P : σ → Prop} (hi : ∀ s, T.Init s → P s)
    (hs : ∀ s s', T.Reachable s → P s → T.Next s s' → P s') {s : σ} (h : T.Reachable s) : P s := by
  induction h with
  | init h => exact hi _ h
  | step hr hn ih => exact hs _ _ hr ih hn

/-- The runs of `T` all of whose states satisfy `P`. -/
def within (T : TransSys σ) (P : σ → Prop) : TransSys σ where
  Init s := T.Init s ∧ P s
  Next s s' := T.Next s s' ∧ P s'

theorem Reachable.of_within {P : σ → Prop} {s : σ} (h : (T.within P).Reachable s) :
    T.Reachable s ∧ P s := by
  induction h with
  | init h => exact ⟨.init h.1, h.2⟩
  | step _ hn ih => exact ⟨ih.1.step hn.1, hn.2⟩

theorem Reachable.within_mono {P Q : σ → Prop} {s : σ} (h : (T.within P).Reachable s)
    (hPQ : ∀ s, T.Reachable s → P s → Q s) : (T.within Q).Reachable s := by
  induction h with
  | init h => exact .init ⟨h.1, hPQ _ (.init h.1) h.2⟩
  | step hr hn ih => exact ih.step ⟨hn.1, hPQ _ (hr.of_within.1.step hn.1) hn.2⟩

/-- A run stays within `P` when the state it reaches tells so of the states before. -/
theorem Reachable.within_of_back {P : σ → Prop} {s : σ} (h : T.Reachable s) (hs : P s)
    (hback : ∀ s s', T.Reachable s → T.Next s s' → P s' → P s) : (T.within P).Reachable s := by
  induction h with
  | init h => exact .init ⟨h, hs⟩
  | step hr hn ih => exact (ih (hback _ _ hr hn hs)).step ⟨hn, hs⟩

/-- `R` is a simulation of `C` by `A`: a step of `C` is a step of `A`, or
nothing that `A` can see. -/
structure Simulation (C : TransSys σ) (A : TransSys τ) (R : σ → τ → Prop) : Prop where
  init : ∀ s, C.Init s → ∃ a, A.Init a ∧ R s a
  step : ∀ s a s', R s a → C.Next s s' → ∃ a', (a' = a ∨ A.Next a a') ∧ R s' a'

theorem Simulation.reachable {C : TransSys σ} {A : TransSys τ} {R : σ → τ → Prop}
    (h : Simulation C A R) {s : σ} (hr : C.Reachable s) : ∃ a, A.Reachable a ∧ R s a := by
  induction hr with
  | init hi =>
    obtain ⟨a, ha, hR⟩ := h.init _ hi
    exact ⟨a, .init ha, hR⟩
  | step _ hn ih =>
    obtain ⟨a, ha, hR⟩ := ih
    obtain ⟨a', rfl | hn', hR'⟩ := h.step _ _ _ hR hn
    · exact ⟨_, ha, hR'⟩
    · exact ⟨a', ha.step hn', hR'⟩

/-- A simulation between the runs that stay within `P` and those that stay
within `Q`. -/
theorem Simulation.within {C : TransSys σ} {A : TransSys τ} {R : σ → τ → Prop}
    (h : Simulation C A R) {P : σ → Prop} {Q : τ → Prop} (hPQ : ∀ s a, R s a → P s → Q a) :
    Simulation (C.within P) (A.within Q) R where
  init s hs := by
    obtain ⟨a, ha, hR⟩ := h.init s hs.1
    exact ⟨a, ⟨ha, hPQ s a hR hs.2⟩, hR⟩
  step s a s' hR hn := by
    obtain ⟨a', ha, hR'⟩ := h.step s a s' hR hn.1
    exact ⟨a', ha.imp id fun hn' => ⟨hn', hPQ s' a' hR' hn.2⟩, hR'⟩

end TransSys

end Onvm.Lib

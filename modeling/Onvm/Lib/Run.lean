import Mathlib.Logic.Basic

/-!
# Runs on a list of events

A program that reacts to events is a function `step`; its run on a list of
events is the fold. `Along P` holds of a run when `P` holds of each of its
steps: the state before and the event. Assumptions on runs and properties of
whole runs are both stated with it, and `along_iff` is the rule that
exchanges them under an invariant.
-/

namespace Onvm.Lib

variable {σ ε : Type} {step : σ → ε → σ} {I : σ → Prop} {P C : σ → ε → Prop} {s : σ}
  {es : List ε}

def exec (step : σ → ε → σ) (s : σ) (es : List ε) : σ := es.foldl step s

theorem exec_append {es' : List ε} : exec step s (es ++ es') = exec step (exec step s es) es' :=
  List.foldl_append

def Along (step : σ → ε → σ) (P : σ → ε → Prop) : σ → List ε → Prop
  | _, [] => True
  | s, e :: es => P s e ∧ Along step P (step s e) es

instance (step : σ → ε → σ) (P : σ → ε → Prop) [∀ s e, Decidable (P s e)] :
    (s : σ) → (es : List ε) → Decidable (Along step P s es)
  | _, [] => isTrue trivial
  | s, e :: es =>
    have := instDecidableAlong step P (step s e) es
    inferInstanceAs (Decidable (_ ∧ _))

theorem along_append {es' : List ε} : Along step P s (es ++ es') ↔
    Along step P s es ∧ Along step P (exec step s es) es' := by
  induction es generalizing s with
  | nil => exact iff_of_eq (true_and _).symm
  | cons e es ih =>
    show P s e ∧ Along step P (step s e) (es ++ es') ↔ _
    rw [ih, ← and_assoc]
    rfl

/-- A property of all steps taken from a state with the invariant. -/
theorem exec_inv (hs : ∀ s e, I s → I (step s e)) (h : I s) (es : List ε) :
    I (exec step s es) := by
  induction es generalizing s with
  | nil => exact h
  | cons e es ih => exact ih (hs s e h)

/-- An invariant that the steps keep which satisfy `C`. -/
theorem Along.inv (hs : ∀ s e, I s → C s e → I (step s e)) (h : I s) (hc : Along step C s es) :
    I (exec step s es) := by
  induction es generalizing s with
  | nil => exact h
  | cons e es ih => exact ih (hs s e h hc.1) hc.2

/-- A property that the invariant gives to the steps which satisfy `C`. -/
theorem Along.of_inv (hs : ∀ s e, I s → C s e → I (step s e)) (hp : ∀ s e, I s → C s e → P s e)
    (h : I s) (hc : Along step C s es) : Along step P s es := by
  induction es generalizing s with
  | nil => trivial
  | cons e es ih => exact ⟨hp s e h hc.1, ih (hs s e h hc.1) hc.2⟩

theorem along_of_inv (hs : ∀ s e, I s → I (step s e)) (hp : ∀ s e, I s → P s e) (h : I s)
    (es : List ε) : Along step P s es := by
  induction es generalizing s with
  | nil => trivial
  | cons e es ih => exact ⟨hp s e h, ih (hs s e h)⟩

theorem Along.mono (hp : ∀ s e, C s e → P s e) (hc : Along step C s es) : Along step P s es :=
  hc.of_inv (I := fun _ => True) (fun _ _ h _ => h) (fun s e _ => hp s e) trivial

theorem Along.and (hp : Along step P s es) (hc : Along step C s es) :
    Along step (fun s e => P s e ∧ C s e) s es := by
  induction es generalizing s with
  | nil => trivial
  | cons e es ih => exact ⟨⟨hp.1, hc.1⟩, ih hp.2 hc.2⟩

/-- Where the invariant makes `P` and `C` the same, they hold along the same
runs, although only the steps that satisfy `C` keep the invariant. -/
theorem along_iff (hs : ∀ s e, I s → C s e → I (step s e)) (hPC : ∀ s e, I s → (P s e ↔ C s e))
    (h : I s) : Along step P s es ↔ Along step C s es := by
  induction es generalizing s with
  | nil => exact Iff.rfl
  | cons e es ih =>
    constructor
    · rintro ⟨hP, hrest⟩
      have hC : C s e := (hPC s e h).mp hP
      exact ⟨hC, (ih (hs s e h hC)).mp hrest⟩
    · rintro ⟨hC, hrest⟩
      exact ⟨(hPC s e h).mpr hC, (ih (hs s e h hC)).mpr hrest⟩

end Onvm.Lib

import Onvm.Lib.Prog

/-!
# Watching a run

A contract says what holds at each state and at each step. What a run as a whole
does to the state, from any point of it to any later one, is said by a relation
that every step keeps: it is what an observer relies on, one more thread beside
the others that never steps.
-/

namespace Onvm.Lib

variable {ι κ ε ℓ σ : Type} [DecidableEq ι]

namespace Threads

/-- The threads with an observer beside them. -/
def observed (t : Threads ι ℓ σ) : Threads (Option ι) ℓ σ :=
  ⟨t.shared, fun w => w.elim (.ret ()) t.code⟩

omit [DecidableEq ι] in
@[simp] theorem label_observed (t : Threads ι ℓ σ) (w : ι) : t.observed.label w = t.label w := rfl

theorem elim_update {γ : Type} (f : ι → γ) (w : ι) (none' : γ) (x : γ) :
    (fun v : Option ι => v.elim none' (Function.update f w x)) =
      Function.update (fun v => v.elim none' f) (some w) x := by
  funext v
  cases v with
  | none => simp
  | some v => by_cases hv : v = w <;> simp [hv]

theorem tick_observed (t : Threads ι ℓ σ) (w : ι) : (t.tick w).observed = t.observed.tick w := by
  have hcode : t.observed.code w = t.code w := rfl
  unfold tick
  rw [hcode]
  split
  · rfl
  · exact congrArg (Threads.mk _) (elim_update _ _ _ _)

theorem call_observed (t : Threads ι ℓ σ) (w : ι) (body : Prog ℓ σ Unit) :
    (t.call w body).observed = t.observed.call w body := by
  have hcode : t.observed.code w = t.code w := rfl
  unfold call
  rw [hcode]
  split
  · exact congrArg (Threads.mk _) (elim_update _ _ _ _)
  · rfl

/-- A call for a thread that is at work is lost. -/
theorem call_of_busy {t : Threads ι ℓ σ} {w : ι} (h : ¬ t.Idle w) (body : Prog ℓ σ Unit) :
    t.call w body = t := by
  unfold Idle label at h
  unfold call
  split
  · rename_i a ha
    rw [ha] at h
    exact absurd rfl h
  · rfl

/-- `P` of the call that a turn gives to a thread at rest. -/
def OnCall (P : ι → κ → σ → Prop) (t : Threads ι ℓ σ) : Turn ι κ ε → Prop
  | .call w c => t.Idle w → P w c t.shared
  | .env _ | .tick _ => True

/-- `E` of what the environment does, `P` of the call that a thread at rest is given, and `C`
of the step that a thread takes. -/
def OnTurn (E : ε → σ → Prop) (P : ι → κ → σ → Prop) (C : ι → ℓ → σ → Prop)
    (t : Threads ι ℓ σ) : Turn ι κ ε → Prop
  | .env e => E e t.shared
  | .call w c => t.Idle w → P w c t.shared
  | .tick w => ∀ l, t.label w = some l → C w l t.shared

end Threads

/-- **Runs under conditions.** Where the bodies of the calls that satisfy `P` keep the
contract, and what the environment does under `E`, the contract stays in force. -/
theorem Contract.InForce.run {C : Contract ι ℓ σ} {env : σ → ε → σ} {body : ι → κ → Prog ℓ σ Unit}
    {E : ε → σ → Prop} {P : ι → κ → σ → Prop} {t : Threads ι ℓ σ} {es : List (Turn ι κ ε)}
    (hbody : ∀ w c s, P w c s → C.Inv s → C.Rest w s → C.Holds w (fun _ => C.Rest w) (body w c) s)
    (henv : ∀ s e, E e s → C.Inv s → C.Inv (env s e) ∧ ∀ w, C.Rely w s (env s e))
    (h : C.InForce t) (hc : Along (Threads.turn env body) (Threads.OnTurn E P C.Cond) t es) :
    C.InForce (exec (Threads.turn env body) t es) := by
  refine hc.inv (fun t e ht hcond => ?_) h
  cases e with
  | env e =>
    obtain ⟨hi, hr⟩ := henv t.shared e hcond ht.inv
    exact ht.env hi hr
  | call w c =>
    show C.InForce (t.call w (body w c))
    by_cases hidle : t.Idle w
    · exact ht.call (hbody w c t.shared (hcond hidle))
    · rw [Threads.call_of_busy hidle]
      exact ht
  | tick w => exact (ht.tick hcond).2

namespace Contract

variable {C : Contract (Option ι) ℓ σ} {t : Threads ι ℓ σ} {w : ι}

/-- The observer relies on every step of a thread. -/
theorem InForce.seen (h : C.InForce t.observed)
    (hc : ∀ l, t.label w = some l → C.Cond w l t.shared) :
    C.Rely none t.shared (t.tick w).shared := by
  obtain ⟨s, hr, hold⟩ := h.thread w
  have hcode : t.observed.code w = t.code w := rfl
  rw [hcode] at hold
  unfold Threads.tick
  unfold Threads.label at hc
  split
  · exact C.refl _ _
  · rename_i l upd next hnext
    rw [hnext] at hold
    simp only [hnext, Option.some.injEq, forall_eq'] at hc
    obtain ⟨-, -, ho, -⟩ := hold t.shared hr h.inv hc
    exact ho none nofun

/-- **Observation.** Where the bodies of the calls that satisfy `P` keep the contract,
and the environment does, so does a run of such calls and of steps that satisfy `Cond`,
and the observer can rely on it from its first state to its last. -/
theorem observe {env : σ → ε → σ} {body : ι → κ → Prog ℓ σ Unit} {P : ι → κ → σ → Prop}
    {es : List (Turn ι κ ε)}
    (hbody : ∀ (w : ι) c s, P w c s → C.Inv s → C.Rest w s →
      C.Holds w (fun _ => C.Rest w) (body w c) s)
    (henv : ∀ s e, C.Inv s → C.Inv (env s e) ∧ ∀ w, C.Rely w s (env s e))
    (h : C.InForce t.observed) (hp : Along (Threads.turn env body) (Threads.OnCall P) t es)
    (hc : Along (Threads.turn env body) (Threads.OnTick fun w => C.Cond (some w)) t es) :
    C.InForce (exec (Threads.turn env body) t es).observed ∧
      C.Rely none t.shared (exec (Threads.turn env body) t es).shared := by
  induction es generalizing t with
  | nil => exact ⟨h, C.refl _ _⟩
  | cons e es ih =>
    obtain ⟨hpe, hpes⟩ := hp
    obtain ⟨hce, hces⟩ := hc
    have hstep : C.InForce (t.turn env body e).observed ∧
        C.Rely none t.shared (t.turn env body e).shared := by
      cases e with
      | env e =>
        obtain ⟨hi, hr⟩ := henv t.shared e h.inv
        exact ⟨h.env hi hr, hr none⟩
      | call w c =>
        show C.InForce (t.call w (body w c)).observed ∧
          C.Rely none t.shared (t.call w (body w c)).shared
        by_cases hidle : t.Idle w
        · have hcalled := h.call (hbody w c t.shared (hpe hidle))
          rw [← Threads.call_observed] at hcalled
          refine ⟨hcalled, ?_⟩
          unfold Threads.call
          split <;> exact C.refl _ _
        · rw [Threads.call_of_busy hidle]
          exact ⟨h, C.refl _ _⟩
      | tick w =>
        have hticked := (h.tick (w := some w) hce).2
        rw [← Threads.tick_observed] at hticked
        exact ⟨hticked, h.seen hce⟩
    obtain ⟨hf, hr⟩ := ih hstep.1 hpes hces
    exact ⟨hf, C.trans hstep.2 hr⟩

end Contract

end Onvm.Lib

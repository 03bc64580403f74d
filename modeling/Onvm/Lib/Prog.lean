import Mathlib.Logic.Function.Basic
import Onvm.Lib.Run

/-!
# Programs of atomic steps

`Prog ℓ σ α` is a program that takes atomic steps on a state `σ` and returns an
`α`. A step has a label, which names what it does; it changes the state and the
program goes on with what it found there. `run` is the run without
interference. `Threads` are several programs on one state, stepped in any order
beside an environment, and `Holds` is the rely-guarantee rule for them: what a
thread relies on is that the others keep `Rely`, and `threads_along` collects
the threads' specifications into one statement about whole runs.
-/

namespace Onvm.Lib

inductive Prog (ℓ σ α : Type) where
  | ret (a : α)
  | act (l : ℓ) (upd : σ → σ) (next : σ → Prog ℓ σ α)

namespace Prog

variable {ℓ σ α β γ : Type}

def bind : Prog ℓ σ α → (α → Prog ℓ σ β) → Prog ℓ σ β
  | ret a, k => k a
  | act l upd next, k => act l upd fun s => (next s).bind k

instance : Monad (Prog ℓ σ) where
  pure := ret
  bind := bind

/-- One step: change the state and return what was read before. -/
def access (l : ℓ) (get : σ → α) (upd : σ → σ) : Prog ℓ σ α := act l upd fun s => ret (get s)

def read (l : ℓ) (get : σ → α) : Prog ℓ σ α := access l get id

def write (l : ℓ) (upd : σ → σ) : Prog ℓ σ Unit := access l (fun _ => ()) upd

/-- The body for each element in turn. -/
def each (body : α → Prog ℓ σ Unit) : List α → Prog ℓ σ Unit
  | [] => ret ()
  | a :: as => (body a).bind fun _ => each body as

/-- The run on `s`, if nobody else steps: the value and the state it ends in. -/
def run : Prog ℓ σ α → σ → α × σ
  | ret a, s => (a, s)
  | act _ upd next, s => (next s).run (upd s)

def final (p : Prog ℓ σ α) (s : σ) : σ := (p.run s).2

theorem bind_eq (p : Prog ℓ σ α) (k : α → Prog ℓ σ β) : p >>= k = p.bind k := rfl

theorem pure_eq (a : α) : (pure a : Prog ℓ σ α) = ret a := rfl

theorem bind_assoc (p : Prog ℓ σ α) (k : α → Prog ℓ σ β) (k' : β → Prog ℓ σ γ) :
    (p.bind k).bind k' = p.bind fun a => (k a).bind k' := by
  induction p with
  | ret a => rfl
  | act l upd next ih => exact congrArg (act l upd) (funext fun s => ih s)

@[simp] theorem run_ret (a : α) (s : σ) : (ret a : Prog ℓ σ α).run s = (a, s) := rfl

@[simp] theorem run_access (l : ℓ) (get : σ → α) (upd : σ → σ) (s : σ) :
    (access l get upd).run s = (get s, upd s) := rfl

@[simp] theorem run_read (l : ℓ) (get : σ → α) (s : σ) : (read l get).run s = (get s, s) := rfl

@[simp] theorem run_write (l : ℓ) (upd : σ → σ) (s : σ) : (write l upd).run s = ((), upd s) := rfl

@[simp] theorem run_bind (p : Prog ℓ σ α) (k : α → Prog ℓ σ β) (s : σ) :
    (p.bind k).run s = (k (p.run s).1).run (p.run s).2 := by
  induction p generalizing s with
  | ret a => rfl
  | act l upd next ih => exact ih s (upd s)

@[simp] theorem final_ret (a : α) (s : σ) : (ret a : Prog ℓ σ α).final s = s := rfl

@[simp] theorem final_access (l : ℓ) (get : σ → α) (upd : σ → σ) (s : σ) :
    (access l get upd).final s = upd s := rfl

@[simp] theorem final_read (l : ℓ) (get : σ → α) (s : σ) : (read l get).final s = s := rfl

@[simp] theorem final_write (l : ℓ) (upd : σ → σ) (s : σ) : (write l upd).final s = upd s := rfl

@[simp] theorem final_bind (p : Prog ℓ σ α) (k : α → Prog ℓ σ β) (s : σ) :
    (p.bind k).final s = (k (p.run s).1).final (p.final s) := by
  unfold final
  rw [run_bind]

@[simp] theorem each_nil (body : α → Prog ℓ σ Unit) : each body [] = ret () := rfl

theorem final_each_cons (body : α → Prog ℓ σ Unit) (a : α) (as : List α) (s : σ) :
    (each body (a :: as)).final s = (each body as).final ((body a).final s) :=
  final_bind ..

/-- A loop keeps what each round keeps. -/
theorem each_inv {I : σ → Prop} {body : α → Prog ℓ σ Unit} {as : List α}
    (h : ∀ a ∈ as, ∀ s, I s → I ((body a).final s)) {s : σ} (hs : I s) :
    I ((each body as).final s) := by
  induction as generalizing s with
  | nil => exact hs
  | cons a as ih =>
    rw [final_each_cons]
    exact ih (fun b hb => h b (List.mem_cons_of_mem a hb)) (h a List.mem_cons_self s hs)

def Steps (S : ℓ → (σ → σ) → Prop) : Prog ℓ σ α → Prop
  | ret _ => True
  | act l upd next => S l upd ∧ ∀ s, (next s).Steps S

section Steps

variable {S : ℓ → (σ → σ) → Prop}

@[simp] theorem steps_ret (a : α) : (ret a : Prog ℓ σ α).Steps S := trivial

theorem steps_access {l : ℓ} {upd : σ → σ} (h : S l upd) (get : σ → α) :
    (access l get upd).Steps S :=
  ⟨h, fun _ => trivial⟩

theorem Steps.bind {p : Prog ℓ σ α} {k : α → Prog ℓ σ β} (hp : p.Steps S)
    (hk : ∀ a, (k a).Steps S) : (p.bind k).Steps S := by
  induction p with
  | ret a => exact hk a
  | act l upd next ih => exact ⟨hp.1, fun s => ih s (hp.2 s)⟩

theorem Steps.mono {S' : ℓ → (σ → σ) → Prop} {p : Prog ℓ σ α} (hp : p.Steps S)
    (h : ∀ l upd, S l upd → S' l upd) : p.Steps S' := by
  induction p with
  | ret a => trivial
  | act l upd next ih => exact ⟨h l upd hp.1, fun s => ih s (hp.2 s)⟩

theorem Steps.each {body : α → Prog ℓ σ Unit} (h : ∀ a, (body a).Steps S) (as : List α) :
    (each body as).Steps S := by
  induction as with
  | nil => trivial
  | cons a as ih => exact (h a).bind fun _ => ih

end Steps

/-- No step of the program changes what `f` sees of the state. -/
def Keeps (f : σ → γ) (p : Prog ℓ σ α) : Prop := p.Steps fun _ upd => ∀ s, f (upd s) = f s

section Keeps

variable {f : σ → γ}

@[simp] theorem keeps_ret (a : α) : (ret a : Prog ℓ σ α).Keeps f := trivial

theorem keeps_access {l : ℓ} {get : σ → α} {upd : σ → σ} (h : ∀ s, f (upd s) = f s) :
    (access l get upd).Keeps f :=
  steps_access h get

@[simp] theorem keeps_read (l : ℓ) (get : σ → α) : (read l get).Keeps f :=
  keeps_access fun _ => rfl

theorem keeps_write {l : ℓ} {upd : σ → σ} (h : ∀ s, f (upd s) = f s) :
    (write l upd : Prog ℓ σ Unit).Keeps f :=
  keeps_access h

theorem Keeps.bind {p : Prog ℓ σ α} {k : α → Prog ℓ σ β} (hp : p.Keeps f)
    (hk : ∀ a, (k a).Keeps f) : (p.bind k).Keeps f :=
  Steps.bind hp hk

theorem Keeps.each {body : α → Prog ℓ σ Unit} (h : ∀ a, (body a).Keeps f) (as : List α) :
    (each body as).Keeps f :=
  Steps.each h as

theorem Keeps.final {p : Prog ℓ σ α} (h : p.Keeps f) (s : σ) : f (p.final s) = f s := by
  induction p generalizing s with
  | ret a => rfl
  | act l upd next ih => exact (ih s (h.2 s) (upd s)).trans (h.1 s)

end Keeps

end Prog

/-! ## Threads -/

/-- Programs `code` on one shared state; `ret` is a thread at rest. -/
structure Threads (ι ℓ σ : Type) where
  shared : σ
  code : ι → Prog ℓ σ Unit

/-- The environment acts, a thread at rest is given a call, or a thread takes
its next step. -/
inductive Turn (ι κ ε : Type) where
  | env (e : ε)
  | call (w : ι) (c : κ)
  | tick (w : ι)

namespace Threads

variable {ι κ ε ℓ σ : Type} [DecidableEq ι]

/-- The label of the step thread `w` is about to take. -/
def label (t : Threads ι ℓ σ) (w : ι) : Option ℓ :=
  match t.code w with
  | .ret _ => none
  | .act l _ _ => some l

/-- No call of `w` is in progress. -/
def Idle (t : Threads ι ℓ σ) (w : ι) : Prop := t.label w = none

def tick (t : Threads ι ℓ σ) (w : ι) : Threads ι ℓ σ :=
  match t.code w with
  | .ret _ => t
  | .act _ upd next => ⟨upd t.shared, Function.update t.code w (next t.shared)⟩

def call (t : Threads ι ℓ σ) (w : ι) (body : Prog ℓ σ Unit) : Threads ι ℓ σ :=
  match t.code w with
  | .ret _ => { t with code := Function.update t.code w body }
  | .act .. => t

def turn (env : σ → ε → σ) (body : ι → κ → Prog ℓ σ Unit) (t : Threads ι ℓ σ) :
    Turn ι κ ε → Threads ι ℓ σ
  | .env e => { t with shared := env t.shared e }
  | .call w c => t.call w (body w c)
  | .tick w => t.tick w

/-- `P` of the step a turn takes, if it is the step of a thread. -/
def OnTick (P : ι → ℓ → σ → Prop) (t : Threads ι ℓ σ) : Turn ι κ ε → Prop
  | .tick w => ∀ l, t.label w = some l → P w l t.shared
  | .env _ | .call .. => True

omit [DecidableEq ι] in
theorem OnTick.mono {P Q : ι → ℓ → σ → Prop} {t : Threads ι ℓ σ} {e : Turn ι κ ε}
    (hpq : ∀ w l s, P w l s → Q w l s) (h : t.OnTick P e) : t.OnTick Q e := by
  cases e with
  | env | call => trivial
  | tick w => exact fun l hl => hpq w l t.shared (h l hl)

instance (P : ι → ℓ → σ → Prop) [∀ w l s, Decidable (P w l s)] (t : Threads ι ℓ σ)
    (e : Turn ι κ ε) : Decidable (t.OnTick P e) :=
  match e with
  | .tick w =>
    match h : t.label w with
    | none => isTrue fun l hl => by rw [h] at hl; cases hl
    | some l => decidable_of_iff (P w l t.shared) <| by simp [OnTick, h]
  | .env _ | .call .. => isTrue trivial

end Threads

/-! ## Rely and guarantee -/

/-- What threads promise each other: the state keeps `Inv`, under a thread it
only changes by its `Rely`, and a thread at rest satisfies `Rest`. Each step
taken when `Cond` holds satisfies `Goal`. -/
structure Contract (ι ℓ σ : Type) where
  Inv : σ → Prop
  Rely : ι → σ → σ → Prop
  Cond : ι → ℓ → σ → Prop
  Goal : ι → ℓ → σ → Prop
  Rest : ι → σ → Prop
  refl : ∀ w s, Rely w s s
  trans : ∀ {w s s' s''}, Rely w s s' → Rely w s' s'' → Rely w s s''
  stable : ∀ {w s s'}, Rely w s s' → Rest w s → Rest w s'

namespace Contract

variable {ι κ ε ℓ σ α β : Type} {C : Contract ι ℓ σ} {w : ι}

/-- Thread `w` runs the program from `s` by the contract and ends in `Q`,
whatever the others do before each of its steps. -/
def Holds (C : Contract ι ℓ σ) (w : ι) (Q : α → σ → Prop) : Prog ℓ σ α → σ → Prop
  | .ret a, s => Q a s
  | .act l upd next, s => ∀ s', C.Rely w s s' → C.Inv s' → C.Cond w l s' →
      C.Goal w l s' ∧ C.Inv (upd s') ∧ (∀ v, v ≠ w → C.Rely v s' (upd s')) ∧
        C.Holds w Q (next s') (upd s')

theorem Holds.mono {Q Q' : α → σ → Prop} {p : Prog ℓ σ α} {s : σ} (h : C.Holds w Q p s)
    (hq : ∀ a s, Q a s → Q' a s) : C.Holds w Q' p s := by
  induction p generalizing s with
  | ret a => exact hq a s h
  | act l upd next ih =>
    intro s' hr hi hc
    obtain ⟨hg, hi', ho, hn⟩ := h s' hr hi hc
    exact ⟨hg, hi', ho, ih s' hn⟩

theorem Holds.bind {Q : β → σ → Prop} {p : Prog ℓ σ α} {k : α → Prog ℓ σ β} {s : σ}
    (h : C.Holds w (fun a s => C.Holds w Q (k a) s) p s) : C.Holds w Q (p.bind k) s := by
  induction p generalizing s with
  | ret a => exact h
  | act l upd next ih =>
    intro s' hr hi hc
    obtain ⟨hg, hi', ho, hn⟩ := h s' hr hi hc
    exact ⟨hg, hi', ho, ih s' hn⟩

theorem holds_access {Q : α → σ → Prop} {l : ℓ} {get : σ → α} {upd : σ → σ} {s : σ}
    (h : ∀ s', C.Rely w s s' → C.Inv s' → C.Cond w l s' → C.Goal w l s' ∧ C.Inv (upd s') ∧
      (∀ v, v ≠ w → C.Rely v s' (upd s')) ∧ Q (get s') (upd s')) :
    C.Holds w Q (Prog.access l get upd) s := h

/-- Steps that every thread can live with, whoever takes them. -/
def Harmless (C : Contract ι ℓ σ) (w : ι) (l : ℓ) (upd : σ → σ) : Prop :=
  ∀ s, C.Inv s → C.Cond w l s → C.Goal w l s ∧ C.Inv (upd s) ∧ ∀ v, C.Rely v s (upd s)

/-- A program of harmless steps changes nothing that the thread relies on. -/
theorem holds_of_harmless {p : Prog ℓ σ α} (h : p.Steps (C.Harmless w)) (s : σ) :
    C.Holds w (fun _ s' => C.Rely w s s') p s := by
  induction p generalizing s with
  | ret a => exact C.refl w s
  | act l upd next ih =>
    intro s' hr hi hc
    obtain ⟨hg, hi', ho⟩ := h.1 s' hi hc
    refine ⟨hg, hi', fun v _ => ho v, (ih s' (h.2 s') (upd s')).mono fun a t ht => ?_⟩
    exact C.trans (C.trans hr (ho w)) ht

/-- The loop rule: `J` is kept by each round. -/
theorem Holds.each {J : List α → σ → Prop} {body : α → Prog ℓ σ Unit}
    (hbody : ∀ a as s, J (a :: as) s → C.Holds w (fun _ s => J as s) (body a) s) {as : List α}
    {s : σ} (h : J as s) : C.Holds w (fun _ s => J [] s) (Prog.each body as) s := by
  induction as generalizing s with
  | nil => exact h
  | cons a as ih =>
    apply Holds.bind
    exact (hbody a as s h).mono fun _ s hs => ih hs

/-- The threads are where their specifications say: each has run by the
contract up to a state from which only the others have moved. -/
structure InForce (C : Contract ι ℓ σ) (t : Threads ι ℓ σ) : Prop where
  inv : C.Inv t.shared
  thread : ∀ w, ∃ s, C.Rely w s t.shared ∧ C.Holds w (fun _ => C.Rest w) (t.code w) s

theorem InForce.rest {t : Threads ι ℓ σ} (h : C.InForce t) (hw : t.Idle w) : C.Rest w t.shared := by
  obtain ⟨s, hr, hs⟩ := h.thread w
  unfold Threads.Idle Threads.label at hw
  split at hw
  · rename_i a ha
    rw [ha] at hs
    exact C.stable hr hs
  · cases hw

theorem InForce.start {s : σ} (hi : C.Inv s) (hr : ∀ w, C.Rest w s) :
    C.InForce ⟨s, fun _ => .ret ()⟩ :=
  ⟨hi, fun w => ⟨s, C.refl w s, hr w⟩⟩

theorem InForce.env {t : Threads ι ℓ σ} (h : C.InForce t) {s : σ} (hi : C.Inv s)
    (hr : ∀ w, C.Rely w t.shared s) : C.InForce { t with shared := s } := by
  refine ⟨hi, fun w => ?_⟩
  obtain ⟨s₀, hs₀, hold⟩ := h.thread w
  exact ⟨s₀, C.trans hs₀ (hr w), hold⟩

variable [DecidableEq ι]

theorem InForce.call {t : Threads ι ℓ σ} (h : C.InForce t) {body : Prog ℓ σ Unit}
    (hb : C.Inv t.shared → C.Rest w t.shared → C.Holds w (fun _ => C.Rest w) body t.shared) :
    C.InForce (t.call w body) := by
  unfold Threads.call
  split
  · rename_i a ha
    refine ⟨h.inv, fun v => ?_⟩
    by_cases hv : v = w
    · subst hv
      refine ⟨t.shared, C.refl v _, ?_⟩
      simp only [Function.update_self]
      exact hb h.inv (h.rest (by simp [Threads.Idle, Threads.label, ha]))
    · simp only [Function.update_of_ne hv]
      exact h.thread v
  · exact h

theorem InForce.tick {t : Threads ι ℓ σ} (h : C.InForce t)
    (hc : ∀ l, t.label w = some l → C.Cond w l t.shared) :
    (∀ l, t.label w = some l → C.Goal w l t.shared) ∧ C.InForce (t.tick w) := by
  obtain ⟨s, hr, hold⟩ := h.thread w
  unfold Threads.tick
  unfold Threads.label at hc ⊢
  split
  · exact ⟨by simp, h⟩
  · rename_i l upd next hcode
    rw [hcode] at hold
    simp only [hcode, Option.some.injEq, forall_eq'] at hc ⊢
    obtain ⟨hg, hi, ho, hn⟩ := hold t.shared hr h.inv hc
    refine ⟨hg, hi, fun v => ?_⟩
    by_cases hv : v = w
    · subst hv
      exact ⟨_, C.refl v _, by simpa using hn⟩
    · obtain ⟨s₀, hs₀, hold₀⟩ := h.thread v
      exact ⟨s₀, C.trans hs₀ (ho v hv), by simpa [hv] using hold₀⟩

/-- **Soundness.** Where every body keeps the contract, and so does the
environment, a run all of whose steps satisfy `Cond` satisfies `Goal` at every
step and ends with the contract in force. -/
theorem threads_along {env : σ → ε → σ} {body : ι → κ → Prog ℓ σ Unit} {t : Threads ι ℓ σ}
    {es : List (Turn ι κ ε)}
    (hbody : ∀ w c s, C.Inv s → C.Rest w s → C.Holds w (fun _ => C.Rest w) (body w c) s)
    (henv : ∀ s e, C.Inv s → C.Inv (env s e) ∧ ∀ w, C.Rely w s (env s e)) (h : C.InForce t)
    (hc : Along (Threads.turn env body) (Threads.OnTick C.Cond) t es) :
    Along (Threads.turn env body) (Threads.OnTick C.Goal) t es ∧
      C.InForce (exec (Threads.turn env body) t es) := by
  induction es generalizing t with
  | nil => exact ⟨trivial, h⟩
  | cons e es ih =>
    obtain ⟨hce, hces⟩ := hc
    have hstep : Threads.OnTick C.Goal t e ∧ C.InForce (t.turn env body e) := by
      cases e with
      | env e =>
        obtain ⟨hi, hr⟩ := henv t.shared e h.inv
        exact ⟨trivial, h.env hi hr⟩
      | call w c => exact ⟨trivial, h.call (hbody w c t.shared)⟩
      | tick w => exact h.tick hce
    obtain ⟨hg, hf⟩ := ih hstep.2 hces
    exact ⟨⟨hstep.1, hg⟩, hf⟩

end Contract

end Onvm.Lib

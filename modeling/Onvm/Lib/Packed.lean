import Mathlib

/-!
# Packed arrays

A packed array holds the elements of a list from index 0 on and zeros after
them. Appending writes the first zero; removing looks the element up, blanks it
and shifts what follows down until it meets a zero.
-/

namespace Onvm.Lib

variable {α : Type} [Zero α] {a : Nat → α} {l : List α}

/-- `a` holds `l`, whose elements are not zero, and zeros after it. -/
structure Packed (a : Nat → α) (l : List α) : Prop where
  get : ∀ i, a i = l.getD i 0
  ne : (0 : α) ∉ l

theorem packed_nil : Packed (fun _ => (0 : α)) [] :=
  ⟨fun _ => rfl, List.not_mem_nil⟩

theorem Packed.push (h : Packed a l) {x : α} (hx : x ≠ 0) :
    Packed (Function.update a l.length x) (l ++ [x]) where
  get i := by
    rcases Nat.lt_trichotomy i l.length with hi | rfl | hi
    · rw [Function.update_of_ne (by omega), h.get, List.getD_append _ _ _ _ hi]
    · rw [Function.update_self, List.getD_append_right _ _ _ _ (Nat.le_refl _)]
      simp
    · rw [Function.update_of_ne (by omega), h.get, List.getD_eq_default _ _ (by omega),
        List.getD_eq_default _ _ (by simp; omega)]
  ne := by
    rw [List.mem_append, List.mem_singleton]
    rintro (h0 | h0)
    · exact h.ne h0
    · exact hx h0.symm

theorem Packed.map_range (h : Packed a l) : (List.range l.length).map a = l := by
  apply List.ext_getElem
  · simp
  · intro i hi hi'
    rw [List.getElem_map, List.getElem_range, h.get, List.getD_eq_getElem _ _ hi']

theorem Packed.tail (h : Packed a l) {i : Nat} (hi : l.length ≤ i) : a i = 0 := by
  rw [h.get, List.getD_eq_default _ _ hi]

variable [DecidableEq α]

def findIdx (a : Nat → α) (x : α) : Nat → Nat → Nat
  | 0, i => i
  | k + 1, i => if a i = x then i else findIdx a x k (i + 1)

/-- Shift down, at most `k` times from index `i` on, until a zero follows. -/
def closeGap : Nat → Nat → (Nat → α) → Nat → α
  | 0, _, a => a
  | k + 1, i, a =>
    if a (i + 1) = 0 then a
    else closeGap k (i + 1) (Function.update (Function.update a i (a (i + 1))) (i + 1) 0)

def removeShift (cap : Nat) (x : α) (a : Nat → α) : Nat → α :=
  let i := findIdx a x cap 0
  if i < cap then closeGap (cap - 1 - i) i (Function.update a i 0) else a

omit [Zero α] in
theorem findIdx_eq {x : α} {k i d : Nat} (hd : d < k) (hne : ∀ j, j < d → a (i + j) ≠ x)
    (hx : a (i + d) = x) : findIdx a x k i = i + d := by
  induction k generalizing i d with
  | zero => omega
  | succ k ih =>
    unfold findIdx
    cases d with
    | zero => exact if_pos hx
    | succ d =>
      have h0 : a i ≠ x := hne 0 (by omega)
      rw [if_neg h0, ih (i := i + 1) (d := d) (by omega)]
      · omega
      · intro j hj
        rw [show i + 1 + j = i + (j + 1) from by omega]
        exact hne (j + 1) (by omega)
      · rw [show i + 1 + d = i + (d + 1) from by omega]
        exact hx

theorem closeGap_getD {l₁ l₂ : List α} {k : Nat} (ha : ∀ i, a i = (l₁ ++ 0 :: l₂).getD i 0)
    (h0 : (0 : α) ∉ l₂) (hk : l₂.length ≤ k) (i : Nat) :
    closeGap k l₁.length a i = (l₁ ++ l₂).getD i 0 := by
  induction l₂ generalizing l₁ a k with
  | nil =>
    have hstop : closeGap k l₁.length a = a := by
      cases k with
      | zero => rfl
      | succ k =>
        unfold closeGap
        rw [if_pos]
        rw [ha, List.getD_eq_default _ _ (by simp)]
    rw [hstop, ha, List.append_nil]
    rcases Nat.lt_or_ge i l₁.length with hi | hi
    · rw [List.getD_append _ _ _ _ hi]
    · rw [List.getD_append_right _ _ _ _ hi, List.getD_eq_default l₁ _ hi]
      cases i - l₁.length <;> rfl
  | cons y l₂ ih =>
    cases k with
    | zero => simp at hk
    | succ k =>
      have hy : a (l₁.length + 1) = y := by
        rw [ha, List.getD_append_right _ _ _ _ (by omega), Nat.add_sub_cancel_left]
        rfl
      unfold closeGap
      rw [if_neg (by rw [hy]; exact fun h => h0 (by simp [h]))]
      have hlen : l₁.length + 1 = (l₁ ++ [y]).length := by simp
      rw [hlen, List.append_cons l₁ y l₂]
      refine ih ?_ (fun h => h0 (List.mem_cons_of_mem _ h)) (by simpa using hk)
      intro j
      rw [← hlen, hy]
      rcases Nat.lt_trichotomy j l₁.length with hj | rfl | hj
      · rw [Function.update_of_ne (by omega), Function.update_of_ne (by omega), ha,
          List.getD_append _ _ _ _ hj, List.append_assoc, List.getD_append _ _ _ _ hj]
      · rw [Function.update_of_ne (by omega), Function.update_self, List.append_assoc,
          List.getD_append_right _ _ _ _ (Nat.le_refl _), Nat.sub_self]
        rfl
      · rcases Nat.lt_or_ge j (l₁.length + 2) with hj' | hj'
        · obtain rfl : j = l₁.length + 1 := by omega
          rw [Function.update_self, hlen, List.getD_append_right _ _ _ _ (Nat.le_refl _),
            Nat.sub_self]
          rfl
        · obtain ⟨d, rfl⟩ := Nat.exists_eq_add_of_le hj'
          rw [Function.update_of_ne (by omega), Function.update_of_ne (by omega), ha,
            List.getD_append_right _ _ _ _ (by omega),
            List.getD_append_right _ _ _ _ (by simp; omega)]
          rw [show l₁.length + 2 + d - l₁.length = d + 1 + 1 from by omega,
            show l₁.length + 2 + d - (l₁ ++ [y]).length = d + 1 from by simp; omega]
          rfl

/-- Removing an element of a packed array erases it from the list. -/
theorem Packed.remove (h : Packed a l) {x : α} {cap : Nat} (hx : x ∈ l) (hcap : l.length ≤ cap) :
    Packed (removeShift cap x a) (l.erase x) := by
  obtain ⟨l₁, l₂, hx₁, rfl, herase⟩ := List.exists_erase_eq hx
  have hlen : l₁.length + l₂.length + 1 ≤ cap := by
    simp only [List.length_append, List.length_cons] at hcap
    omega
  have hfind : findIdx a x cap 0 = l₁.length := by
    rw [findIdx_eq (d := l₁.length) (by omega), Nat.zero_add]
    · intro j hj heq
      rw [Nat.zero_add, h.get, List.getD_append _ _ _ _ hj, List.getD_eq_getElem _ _ hj] at heq
      exact hx₁ (heq ▸ List.getElem_mem hj)
    · rw [Nat.zero_add, h.get, List.getD_append_right _ _ _ _ (Nat.le_refl _), Nat.sub_self]
      rfl
  refine ⟨?_, fun h0 => h.ne (List.mem_of_mem_erase h0)⟩
  intro i
  rw [herase, removeShift]
  simp only [hfind]
  rw [if_pos (by omega)]
  refine closeGap_getD ?_ ?_ (by omega) i
  · intro j
    rcases Nat.lt_trichotomy j l₁.length with hj | rfl | hj
    · rw [Function.update_of_ne (by omega), h.get, List.getD_append _ _ _ _ hj,
        List.getD_append _ _ _ _ hj]
    · rw [Function.update_self, List.getD_append_right _ _ _ _ (Nat.le_refl _), Nat.sub_self]
      rfl
    · obtain ⟨d, rfl⟩ := Nat.exists_eq_add_of_lt hj
      rw [Function.update_of_ne (by omega), h.get, List.getD_append_right _ _ _ _ (by omega),
        List.getD_append_right _ _ _ _ (by omega),
        show l₁.length + d + 1 - l₁.length = d + 1 from by omega]
      rfl
  · intro h0
    exact h.ne (List.mem_append_right _ (List.mem_cons_of_mem _ h0))

end Onvm.Lib

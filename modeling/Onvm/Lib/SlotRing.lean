import Mathlib.Logic.Function.Basic
import Mathlib.Data.List.Basic
import Mathlib.Data.Nat.ModEq

/-!
# A ring of slots

A queue in an array of `n` slots between a head and a tail that wrap around. An empty slot
says so itself, which is how a full ring is told from an empty one when the head and the
tail meet. `Holds` is what the ring holds.
-/

namespace Onvm.Lib

variable {α : Type} {n head tail : Nat} {slots : Nat → Option α} {l : List α} {x : α}

/-- The slots from the head on hold the list, the others are empty. -/
structure Holds (n head tail : Nat) (slots : Nat → Option α) (l : List α) : Prop where
  length_le : l.length ≤ n
  head_lt : head < n
  tail_eq : tail = (head + l.length) % n
  slot : ∀ i < n, slots ((head + i) % n) = l[i]?

def ringContents (n head : Nat) (slots : Nat → Option α) : List α :=
  (List.range n).filterMap fun i => slots ((head + i) % n)

namespace Holds

theorem contents (h : Holds n head tail slots l) : ringContents n head slots = l := by
  have hslots : ringContents n head slots = (List.range n).filterMap fun i => l[i]? :=
    List.filterMap_congr fun i hi => h.slot i (List.mem_range.mp hi)
  have hle := h.length_le
  rw [hslots]
  clear hslots h
  induction l generalizing n with
  | nil => simp
  | cons x l ih =>
    obtain ⟨n, rfl⟩ := Nat.exists_eq_succ_of_ne_zero (by rw [List.length_cons] at hle; omega : n ≠ 0)
    rw [List.range_succ_eq_map, List.filterMap_cons_some (by rfl), List.filterMap_map]
    congr 1
    exact ih (by rw [List.length_cons] at hle; omega)

theorem empty (hn : 0 < n) : Holds n 0 0 (fun _ => (none : Option α)) [] where
  length_le := Nat.zero_le n
  head_lt := hn
  tail_eq := (Nat.zero_mod n).symm
  slot _ _ := rfl

theorem head_slot (h : Holds n head tail slots l) : slots head = l.head? := by
  have hslot := h.slot 0 (Nat.zero_lt_of_lt h.head_lt)
  rwa [Nat.add_zero, Nat.mod_eq_of_lt h.head_lt, ← List.head?_eq_getElem?] at hslot

/-- Places less than a round apart are different. -/
theorem mod_inj {a i j : Nat} (hi : i < n) (hj : j < n) (h : (a + i) % n = (a + j) % n) : i = j :=
  Nat.ModEq.eq_of_lt_of_lt (Nat.ModEq.add_left_cancel' a h) hi hj

theorem full_iff (h : Holds n head tail slots l) :
    (head = tail ∧ slots head ≠ none) ↔ l.length = n := by
  have hpos := Nat.zero_lt_of_lt h.head_lt
  rw [h.head_slot, ne_eq, List.head?_eq_none_iff]
  constructor
  · rintro ⟨heq, hnil⟩
    have hlen := List.length_pos_iff.mpr hnil
    by_contra hne
    have hlt : l.length < n := Nat.lt_of_le_of_ne h.length_le hne
    have hzero : (head + 0) % n = (head + l.length) % n := by
      rw [Nat.add_zero, Nat.mod_eq_of_lt h.head_lt, ← h.tail_eq, ← heq]
    have := mod_inj hpos hlt hzero
    omega
  · intro hlen
    refine ⟨?_, List.length_pos_iff.mp (hlen ▸ hpos)⟩
    rw [h.tail_eq, hlen, Nat.add_mod_right, Nat.mod_eq_of_lt h.head_lt]

theorem push (h : Holds n head tail slots l) (hlen : l.length < n) (x : α) :
    Holds n head ((tail + 1) % n) (Function.update slots tail (some x)) (l ++ [x]) where
  length_le := by
    rw [List.length_append, List.length_singleton]
    omega
  head_lt := h.head_lt
  tail_eq := by
    rw [h.tail_eq, Nat.mod_add_mod, List.length_append, List.length_singleton, Nat.add_assoc]
  slot i hi := by
    by_cases hil : i = l.length
    · rw [hil, ← h.tail_eq, Function.update_self, List.getElem?_concat_length]
    · have hne : (head + i) % n ≠ tail := by
        rw [h.tail_eq]
        exact fun he => hil (mod_inj hi hlen he)
      rw [Function.update_of_ne hne, h.slot i hi]
      rcases Nat.lt_or_gt_of_ne hil with hlt | hgt
      · rw [List.getElem?_append_left hlt]
      · rw [List.getElem?_eq_none hgt.le, List.getElem?_eq_none]
        rw [List.length_append, List.length_singleton]
        omega

theorem pop (h : Holds n head tail slots (x :: l)) :
    Holds n ((head + 1) % n) tail (Function.update slots head none) l where
  length_le := by
    have hle := h.length_le
    rw [List.length_cons] at hle
    omega
  head_lt := Nat.mod_lt _ (Nat.zero_lt_of_lt h.head_lt)
  tail_eq := by
    rw [h.tail_eq, List.length_cons, Nat.mod_add_mod]
    congr 1
    omega
  slot i hi := by
    have hle := h.length_le
    rw [List.length_cons] at hle
    have hhead : (head + 0) % n = head := by rw [Nat.add_zero, Nat.mod_eq_of_lt h.head_lt]
    have hplace : ((head + 1) % n + i) % n = (head + (i + 1)) % n := by
      rw [Nat.mod_add_mod]
      congr 1
      omega
    rw [hplace]
    rcases Nat.lt_or_ge (i + 1) n with hlt | hge
    · have hne : (head + (i + 1)) % n ≠ head := by
        rw [← hhead]
        intro he
        rw [Nat.mod_add_mod] at he
        have := mod_inj hlt (Nat.zero_lt_of_lt hlt) he
        omega
      rw [Function.update_of_ne hne, h.slot _ hlt, List.getElem?_cons_succ]
    · have hwrap : (head + (i + 1)) % n = head := by
        rw [(by omega : i + 1 = n), Nat.add_mod_right, Nat.mod_eq_of_lt h.head_lt]
      rw [hwrap, Function.update_self, List.getElem?_eq_none (by omega)]

end Holds

end Onvm.Lib

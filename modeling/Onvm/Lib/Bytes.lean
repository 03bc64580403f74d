import Mathlib

/-!
# Words in byte strings

Loads and stores of words in a string of bytes, as a little-endian machine does them,
and the byte swaps that turn such a word into the big-endian number it stands for. A
load that is not inside the string has no value.
-/

namespace Onvm.Lib

abbrev Byte := BitVec 8

def load16 (b : List Byte) (i : Nat) : Option (BitVec 16) :=
  match b[i]?, b[i + 1]? with
  | some lo, some hi => some (hi ++ lo)
  | _, _ => none

def load32 (b : List Byte) (i : Nat) : Option (BitVec 32) :=
  match load16 b i, load16 b (i + 2) with
  | some lo, some hi => some (hi ++ lo)
  | _, _ => none

def store16 (b : List Byte) (i : Nat) (x : BitVec 16) : Option (List Byte) :=
  if i + 2 ≤ b.length then
    some ((b.set i (x.extractLsb' 0 8)).set (i + 1) (x.extractLsb' 8 8))
  else none

def bytesAt (b : List Byte) (i n : Nat) : List Byte := (b.drop i).take n

def readBytes (b : List Byte) (i n : Nat) : Option (List Byte) :=
  if i + n ≤ b.length then some (bytesAt b i n) else none

def bswap16 (x : BitVec 16) : BitVec 16 := x.extractLsb' 0 8 ++ x.extractLsb' 8 8

def bswap32 (x : BitVec 32) : BitVec 32 :=
  bswap16 (x.extractLsb' 0 16) ++ bswap16 (x.extractLsb' 16 16)

theorem bswap16_bswap16 (x : BitVec 16) : bswap16 (bswap16 x) = x := by
  apply BitVec.eq_of_getLsbD_eq
  intro i hi
  simp only [bswap16, BitVec.getLsbD_append, BitVec.getLsbD_extractLsb']
  grind

theorem bswap16_inj {x y : BitVec 16} : bswap16 x = bswap16 y ↔ x = y := by
  constructor
  · intro h
    rw [← bswap16_bswap16 x, h, bswap16_bswap16]
  · rintro rfl
    rfl

theorem byte_inside {b : List Byte} {i : Nat} (h : i < b.length) : ∃ x, b[i]? = some x :=
  ⟨b[i], List.getElem?_eq_getElem h⟩

theorem load16_inside {b : List Byte} {i : Nat} (h : i + 2 ≤ b.length) :
    ∃ x, load16 b i = some x := by
  rw [load16, List.getElem?_eq_getElem (by omega : i < b.length),
    List.getElem?_eq_getElem (by omega : i + 1 < b.length)]
  exact ⟨_, rfl⟩

theorem load16_congr {a b : List Byte} {i : Nat} (h0 : a[i]? = b[i]?) (h1 : a[i + 1]? = b[i + 1]?) :
    load16 a i = load16 b i := by
  unfold load16
  rw [h0, h1]

theorem load32_inside {b : List Byte} {i : Nat} (h : i + 4 ≤ b.length) :
    ∃ x, load32 b i = some x := by
  obtain ⟨lo, hlo⟩ := load16_inside (by omega : i + 2 ≤ b.length)
  obtain ⟨hi, hhi⟩ := load16_inside (by omega : i + 2 + 2 ≤ b.length)
  rw [load32, hlo, hhi]
  exact ⟨_, rfl⟩

theorem readBytes_inside {b : List Byte} {i n : Nat} (h : i + n ≤ b.length) :
    readBytes b i n = some (bytesAt b i n) := if_pos h

theorem readBytes_eq_some_iff {b r : List Byte} {i n : Nat} :
    readBytes b i n = some r ↔ i + n ≤ b.length ∧ r = bytesAt b i n := by
  unfold readBytes
  split
  · rename_i h
    rw [Option.some.injEq, eq_comm]
    exact ⟨fun hr => ⟨h, hr⟩, And.right⟩
  · rename_i h
    exact ⟨nofun, fun hr => absurd hr.1 h⟩

/-- What lies in the first part of a string is read from there. -/
theorem bytesAt_append {a b : List Byte} {i n : Nat} (h : i + n ≤ a.length) :
    bytesAt (a ++ b) i n = bytesAt a i n := by
  rw [bytesAt, List.drop_append_of_le_length (by omega),
    List.take_append_of_le_length (by rw [List.length_drop]; omega)]
  rfl

end Onvm.Lib

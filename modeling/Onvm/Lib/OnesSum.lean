import Onvm.Lib.Bytes

/-!
# Ones'-complement sums

The sum behind the Internet checksum. `ones n` is what is left of a sum `n` of
16-bit words once its carries are folded in: arithmetic modulo `0xffff` with
two zeros, of which only the empty sum is 0. `wordSum` adds the little-endian
words of a byte string, an odd last byte being padded with a zero. `put16` is
a store whose place is known to exist, and it moves the sum by its word.
-/

namespace Onvm.Lib

/-! ## Folded sums -/

/-- A sum with its carries folded in: 0 for 0, otherwise between 1 and `0xffff`. -/
def ones (n : Nat) : Nat := if n = 0 then 0 else (n - 1) % 0xffff + 1

@[simp] theorem ones_zero : ones 0 = 0 := rfl

theorem ones_lt (n : Nat) : ones n < 2 ^ 16 := by
  unfold ones
  split <;> omega

theorem ones_mod (n : Nat) : ones n % 0xffff = n % 0xffff := by
  unfold ones
  split <;> omega

theorem ones_eq_zero {n : Nat} : ones n = 0 ↔ n = 0 := by
  unfold ones
  split <;> omega

/-- The sums that verify are the nonzero multiples of `0xffff`. -/
theorem ones_eq_iff {n : Nat} : ones n = 0xffff ↔ n ≠ 0 ∧ n % 0xffff = 0 := by
  unfold ones
  split <;> omega

theorem ones_of_lt {n : Nat} (h : n < 2 ^ 16) : ones n = n := by
  unfold ones
  split <;> omega

/-- Folding once does not change what is left. -/
theorem ones_fold {n : Nat} (h : 2 ^ 16 ≤ n) : ones (n / 2 ^ 16 + n % 2 ^ 16) = ones n := by
  have h1 : (n / 2 ^ 16 + n % 2 ^ 16) % 0xffff = n % 0xffff := by omega
  unfold ones
  split <;> split <;> omega

theorem ones_ones_add (m n : Nat) : ones (ones m + ones n) = ones (m + n) := by
  have hm := ones_mod m
  have hn := ones_mod n
  have hm0 := @ones_eq_zero m
  have hn0 := @ones_eq_zero n
  have h1 : (ones m + ones n) % 0xffff = (m + n) % 0xffff := by omega
  have h2 : ones m + ones n = 0 ↔ m + n = 0 := by omega
  generalize ones m + ones n = k at h1 h2
  unfold ones
  split <;> split <;> omega

/-- The complement of a folded sum closes it. -/
theorem ones_add_compl (n : Nat) : ones (n + (0xffff - ones n)) = 0xffff := by
  have h1 := ones_lt n
  have h2 := ones_mod n
  have h3 := @ones_eq_zero n
  rw [ones_eq_iff]
  omega

theorem ones_add_self {n : Nat} (h : ones n = 0xffff) : ones (n + 0xffff) = 0xffff := by
  rw [ones_eq_iff] at h ⊢
  omega

theorem toNat_not (x : BitVec 16) : (~~~ x).toNat = 0xffff - x.toNat := by
  rw [BitVec.toNat_not]

/-! ## Sums of words -/

/-- The sum of the little-endian words of a byte string. -/
def wordSum : List Byte → Nat
  | [] => 0
  | [x] => x.toNat
  | lo :: hi :: t => lo.toNat + 256 * hi.toNat + wordSum t

theorem wordSum_append {a : List Byte} (b : List Byte) (h : a.length % 2 = 0) :
    wordSum (a ++ b) = wordSum a + wordSum b := by
  induction a using wordSum.induct with
  | case1 => simp [wordSum]
  | case2 x => simp at h
  | case3 lo hi t ih =>
    have ht : t.length % 2 = 0 := by
      simp only [List.length_cons] at h
      omega
    simp only [List.cons_append, wordSum, ih ht]
    omega

theorem wordSum_zeros (n : Nat) : wordSum (List.replicate n 0) = 0 := by
  induction n using Nat.twoStepInduction with
  | zero => rfl
  | one => rfl
  | more n ih _ =>
    rw [List.replicate_succ, List.replicate_succ, wordSum, ih]
    rfl

/-- The sum of the first `n` bytes, and of the others at their places. -/
theorem wordSum_take_add (b : List Byte) (n : Nat) :
    wordSum (b.take n) + wordSum (List.replicate n 0 ++ b.drop n) = wordSum b := by
  have h0 : (0 : Byte).toNat = 0 := rfl
  induction b using wordSum.induct generalizing n with
  | case1 =>
    rw [List.take_nil, List.drop_nil, List.append_nil, wordSum_zeros]
    rfl
  | case2 x =>
    cases n with
    | zero => simp [wordSum]
    | succ n => simp only [List.take_succ_cons, List.drop_succ_cons, List.take_nil, List.drop_nil,
        List.append_nil, wordSum_zeros, wordSum, Nat.add_zero]
  | case3 lo hi t ih =>
    rcases n with - | - | n
    · simp [wordSum]
    · simp only [List.take_succ_cons, List.take_zero, List.drop_succ_cons, List.drop_zero,
        List.replicate_succ, List.replicate_zero, List.cons_append, List.nil_append, wordSum, h0]
      omega
    · simp only [List.take_succ_cons, List.drop_succ_cons, List.replicate_succ, List.cons_append,
        wordSum, h0, ← ih n]
      omega

/-! ## Stores at a known place -/

/-- `*(uint16_t *)(b + i) = x` where both bytes exist. -/
def put16 (b : List Byte) (i : Nat) (x : BitVec 16) : List Byte :=
  (b.set i (x.extractLsb' 0 8)).set (i + 1) (x.extractLsb' 8 8)

theorem store16_eq_put16 {b : List Byte} {i : Nat} (x : BitVec 16) (h : i + 2 ≤ b.length) :
    store16 b i x = some (put16 b i x) := if_pos h

@[simp] theorem length_put16 (b : List Byte) (i : Nat) (x : BitVec 16) :
    (put16 b i x).length = b.length := by simp [put16]

theorem getElem?_put16_of_ne {b : List Byte} {i j : Nat} (x : BitVec 16) (h0 : j ≠ i)
    (h1 : j ≠ i + 1) : (put16 b i x)[j]? = b[j]? := by
  rw [put16, List.getElem?_set_ne h1.symm, List.getElem?_set_ne h0.symm]

theorem getElem?_put16_self {b : List Byte} {i : Nat} (x : BitVec 16) (h : i + 2 ≤ b.length) :
    (put16 b i x)[i]? = some (x.extractLsb' 0 8) ∧
      (put16 b i x)[i + 1]? = some (x.extractLsb' 8 8) := by
  rw [put16]
  constructor
  · rw [List.getElem?_set_ne (by omega), List.getElem?_set_self (by omega)]
  · rw [List.getElem?_set_self (by rw [List.length_set]; omega)]

@[simp] theorem put16_put16 (b : List Byte) (i : Nat) (x y : BitVec 16) :
    put16 (put16 b i x) i y = put16 b i y := by
  apply List.ext_getElem?
  intro j
  simp only [put16, List.getElem?_set, List.length_set]
  grind

theorem put16_outside {b : List Byte} {i : Nat} (x : BitVec 16) (h : b.length ≤ i) :
    put16 b i x = b := by
  rw [put16, List.set_eq_of_length_le (by rw [List.length_set]; omega),
    List.set_eq_of_length_le h]

/-- Stores to different words can be swapped. -/
theorem put16_comm {b : List Byte} {i j : Nat} (x y : BitVec 16) (h : i + 2 ≤ j) :
    put16 (put16 b i x) j y = put16 (put16 b j y) i x := by
  apply List.ext_getElem?
  intro k
  simp only [put16, List.getElem?_set, List.length_set]
  grind

theorem drop_put16_of_le {b : List Byte} {i k : Nat} (x : BitVec 16) (h : k ≤ i) :
    (put16 b i x).drop k = put16 (b.drop k) (i - k) x := by
  rw [put16, List.drop_set, List.drop_set, if_neg (by omega), if_neg (by omega), put16,
    show i + 1 - k = i - k + 1 by omega]

theorem drop_put16_of_ge {b : List Byte} {i k : Nat} (x : BitVec 16) (h : i + 2 ≤ k) :
    (put16 b i x).drop k = b.drop k := by
  rw [put16, List.drop_set, List.drop_set, if_pos (by omega), if_pos (by omega)]

theorem take_put16 {b : List Byte} {i n : Nat} (x : BitVec 16) :
    (put16 b i x).take n = put16 (b.take n) i x := by
  rw [put16, List.take_set, List.take_set, put16]

theorem getElem?_getD {b : List Byte} {i : Nat} (h : i < b.length) : b[i]? = some (b.getD i 0) := by
  rw [List.getD_eq_getElem?_getD, List.getElem?_eq_getElem h]
  rfl

theorem bytesAt_put16 {b : List Byte} {i k n : Nat} (x : BitVec 16) :
    bytesAt (put16 b (k + i) x) k n = put16 (bytesAt b k n) i x := by
  rw [bytesAt, drop_put16_of_le x (Nat.le_add_right k i), take_put16, Nat.add_sub_cancel_left]
  rfl

theorem length_bytesAt {b : List Byte} {i n : Nat} (h : i + n ≤ b.length) :
    (bytesAt b i n).length = n := by
  rw [bytesAt, List.length_take, List.length_drop]
  omega

theorem bytesAt_put16_of_ge {b : List Byte} {i k n : Nat} (x : BitVec 16) (h : i + 2 ≤ k) :
    bytesAt (put16 b i x) k n = bytesAt b k n := by
  rw [bytesAt, drop_put16_of_ge x h]
  rfl

theorem bytesAt_put16_of_le {b : List Byte} {i k n : Nat} (x : BitVec 16) (h : k + n ≤ i) :
    bytesAt (put16 b i x) k n = bytesAt b k n := by
  obtain ⟨j, rfl⟩ := Nat.exists_eq_add_of_le (Nat.le_trans (Nat.le_add_right k n) h)
  rw [bytesAt_put16, put16_outside]
  rw [bytesAt, List.length_take]
  omega

theorem load16_eq {b : List Byte} {i : Nat} (h : i + 2 ≤ b.length) :
    load16 b i = some (BitVec.ofNat 16 (256 * (b.getD (i + 1) 0).toNat + (b.getD i 0).toNat)) := by
  have h0 := (b.getD i 0).isLt
  have h1 := (b.getD (i + 1) 0).isLt
  unfold load16
  rw [getElem?_getD (by omega : i < b.length), getElem?_getD (by omega : i + 1 < b.length)]
  simp only [Option.some.injEq]
  apply BitVec.eq_of_toNat_eq
  rw [BitVec.toNat_append, BitVec.toNat_ofNat, Nat.shiftLeft_eq, Nat.mul_comm,
    ← Nat.two_pow_add_eq_or_of_lt h0]
  omega

theorem extract_toNat (x : BitVec 16) :
    (x.extractLsb' 0 8).toNat + 256 * (x.extractLsb' 8 8).toNat = x.toNat := by
  rw [BitVec.extractLsb'_toNat, BitVec.extractLsb'_toNat, Nat.shiftRight_zero,
    Nat.shiftRight_eq_div_pow]
  omega

/-- Storing what is there changes nothing. -/
theorem load16_eq_some_iff {b : List Byte} {i : Nat} {x : BitVec 16} (h : i + 2 ≤ b.length) :
    load16 b i = some x ↔ put16 b i x = b := by
  have hx := extract_toNat x
  have hlo := (x.extractLsb' 0 8).isLt
  have h0 := (b.getD i 0).isLt
  have h1 := (b.getD (i + 1) 0).isLt
  rw [load16_eq h, Option.some.injEq]
  constructor
  · rintro rfl
    rw [BitVec.toNat_ofNat, Nat.mod_eq_of_lt (by omega)] at hx
    have hl : (BitVec.ofNat 16 (256 * (b.getD (i + 1) 0).toNat + (b.getD i 0).toNat)).extractLsb' 0 8 =
        b.getD i 0 := BitVec.eq_of_toNat_eq (by omega)
    have hh : (BitVec.ofNat 16 (256 * (b.getD (i + 1) 0).toNat + (b.getD i 0).toNat)).extractLsb' 8 8 =
        b.getD (i + 1) 0 := BitVec.eq_of_toNat_eq (by omega)
    apply List.ext_getElem?
    intro j
    by_cases hj : j = i ∨ j = i + 1
    · have hself := getElem?_put16_self
        (BitVec.ofNat 16 (256 * (b.getD (i + 1) 0).toNat + (b.getD i 0).toNat)) h
      rw [hl, hh] at hself
      rcases hj with rfl | rfl
      · rw [hself.1, getElem?_getD (by omega)]
      · rw [hself.2, getElem?_getD (by omega)]
    · rw [getElem?_put16_of_ne _ (fun he => hj (.inl he)) fun he => hj (.inr he)]
  · intro hb
    have hself := getElem?_put16_self x h
    rw [hb, getElem?_getD (by omega), getElem?_getD (by omega), Option.some.injEq,
      Option.some.injEq] at hself
    apply BitVec.eq_of_toNat_eq
    rw [BitVec.toNat_ofNat, hself.1, hself.2]
    omega

/-- A string split around the word at `i`. -/
theorem put16_split {b : List Byte} {i : Nat} (x : BitVec 16) (h : i + 2 ≤ b.length) :
    put16 b i x =
      b.take i ++ (x.extractLsb' 0 8 :: x.extractLsb' 8 8 :: b.drop (i + 2)) := by
  apply List.ext_getElem?
  intro j
  have hlen : (b.take i).length = i := by rw [List.length_take]; omega
  rcases Nat.lt_trichotomy j i with hj | rfl | hj
  · rw [getElem?_put16_of_ne x (by omega) (by omega), List.getElem?_append_left (by omega),
      List.getElem?_take_of_lt hj]
  · rw [(getElem?_put16_self x h).1, List.getElem?_append_right (by omega), hlen, Nat.sub_self]
    rfl
  · rw [List.getElem?_append_right (by omega), hlen]
    rcases Nat.eq_or_lt_of_le hj with rfl | hj
    · rw [(getElem?_put16_self x h).2, show i.succ - i = 1 by omega]
      rfl
    · rw [getElem?_put16_of_ne x (by omega) (by omega), show j - i = j - (i + 2) + 2 by omega,
        List.getElem?_cons_succ, List.getElem?_cons_succ, List.getElem?_drop]
      congr 1
      omega

/-- A word stored at an even place moves the sum by its value. -/
theorem wordSum_put16 {b : List Byte} {i : Nat} (x : BitVec 16) (he : i % 2 = 0)
    (h : i + 2 ≤ b.length) : wordSum (put16 b i x) = wordSum (put16 b i 0) + x.toNat := by
  have hlen : (b.take i).length % 2 = 0 := by
    rw [List.length_take, Nat.min_eq_left (by omega)]
    exact he
  have hx := extract_toNat x
  have h0 : ((0 : BitVec 16).extractLsb' 0 8).toNat + 256 * ((0 : BitVec 16).extractLsb' 8 8).toNat =
      0 := extract_toNat 0
  rw [put16_split x h, put16_split 0 h, wordSum_append _ hlen, wordSum_append _ hlen, wordSum,
    wordSum]
  omega

end Onvm.Lib

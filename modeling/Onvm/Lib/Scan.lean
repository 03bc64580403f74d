import Mathlib.Data.List.Basic
import Mathlib.Data.List.TakeWhile

/-!
# Numbers in a text, as `scanf` reads them

A conversion skips white space and reads a sign, in base 16 also a `0x`, and then as many
digits as there are. `Number` is what a conversion can read, and `Scans` what a format can:
conversions with one separator between them. `scanNumbers` is the scanner, which reads
just that (`Scans.scan`, `exists_scans`), and there is only one way to read a text
(`Scans.unique`).
-/

namespace Onvm.Lib

inductive Radix where
  | dec
  | hex
  deriving DecidableEq

def isSpace (c : UInt8) : Bool := c == 32 || (9 ≤ c && c ≤ 13)

namespace Radix

def base : Radix → Nat
  | .dec => 10
  | .hex => 16

def isDigit (r : Radix) (c : UInt8) : Bool :=
  (48 ≤ c && c ≤ 57) || (r == .hex && (65 ≤ c && c ≤ 70 || 97 ≤ c && c ≤ 102))

def digitVal (c : UInt8) : Nat :=
  if c ≤ 57 then c.toNat - 48 else if c ≤ 70 then c.toNat - 55 else c.toNat - 87

def value (r : Radix) (digits : List UInt8) : Nat :=
  digits.foldl (fun n c => n * r.base + digitVal c) 0

end Radix

/-! ## The scanner -/

def skipSign : List UInt8 → Bool × List UInt8
  | 45 :: s => (true, s)
  | 43 :: s => (false, s)
  | s => (false, s)

/-- What is behind a `0x`, if there is one. -/
def skipMark (r : Radix) : List UInt8 → List UInt8
  | 48 :: c :: s => if r = .hex ∧ (c = 120 ∨ c = 88) then s else 48 :: c :: s
  | s => s

/-- A conversion: whether there is a minus, the number, and what is behind it. -/
def scanNumber (r : Radix) (s : List UInt8) : Option ((Bool × Nat) × List UInt8) :=
  let (neg, s) := skipSign (s.dropWhile isSpace)
  let s := skipMark r s
  let digits := s.takeWhile r.isDigit
  if digits = [] then none else some ((neg, r.value digits), s.dropWhile r.isDigit)

/-- A format of `k` conversions: what was read before the text did not match, or all. -/
def scanNumbers (r : Radix) (sep : UInt8) : Nat → List UInt8 → List (Bool × Nat)
  | 0, _ => []
  | k + 1, s =>
    match scanNumber r s with
    | none => []
    | some (v, []) => [v]
    | some (v, c :: s) => if c = sep then v :: scanNumbers r sep k s else [v]

/-! ## What it reads -/

structure Number (r : Radix) where
  spaces : List UInt8
  sign : List UInt8
  mark : List UInt8
  digits : List UInt8
  spaces_all : ∀ c ∈ spaces, isSpace c
  sign_mem : sign = [] ∨ sign = [43] ∨ sign = [45]
  mark_mem : mark = [] ∨ r = .hex ∧ (mark = [48, 120] ∨ mark = [48, 88])
  digits_ne : digits ≠ []
  digits_all : ∀ c ∈ digits, r.isDigit c

namespace Number

variable {r : Radix}

def text (n : Number r) : List UInt8 := n.spaces ++ (n.sign ++ (n.mark ++ n.digits))

def item (n : Number r) : Bool × Nat := (n.sign = [45], r.value n.digits)

/-- No conversion would read on into the rest. -/
structure EndsBefore (n : Number r) (rest : List UInt8) : Prop where
  digit : ∀ c ∈ rest.head?, r.isDigit c = false
  mark : r = .hex → n.mark = [] → n.digits = [48] → ∀ c ∈ rest.head?, c ≠ 120 ∧ c ≠ 88

end Number

/-- A text that starts with these numbers, with separators between them. -/
inductive Scans {r : Radix} (sep : UInt8) :
    List (Number r) → List UInt8 → List UInt8 → Prop where
  | last (n : Number r) (rest : List UInt8) : n.EndsBefore rest →
      Scans sep [n] (n.text ++ rest) rest
  | more (n : Number r) (ns : List (Number r)) (s rest : List UInt8) : n.EndsBefore (sep :: s) →
      Scans sep ns s rest → Scans sep (n :: ns) (n.text ++ sep :: s) rest

variable {r : Radix} {sep : UInt8}

/-! ## Characters -/

theorem isDigit_range {c : UInt8} (h : r.isDigit c) : 48 ≤ c.toNat ∧ c.toNat ≤ 102 := by
  unfold Radix.isDigit at h
  simp only [Bool.or_eq_true, Bool.and_eq_true, decide_eq_true_eq, UInt8.le_iff_toNat_le] at h
  have h1 : (48 : UInt8).toNat = 48 := rfl
  have h2 : (57 : UInt8).toNat = 57 := rfl
  have h3 : (65 : UInt8).toNat = 65 := rfl
  have h4 : (70 : UInt8).toNat = 70 := rfl
  have h5 : (97 : UInt8).toNat = 97 := rfl
  have h6 : (102 : UInt8).toNat = 102 := rfl
  omega

theorem isSpace_range {c : UInt8} (h : isSpace c) : c.toNat ≤ 32 := by
  unfold isSpace at h
  simp only [Bool.or_eq_true, Bool.and_eq_true, decide_eq_true_eq, beq_iff_eq,
    UInt8.le_iff_toNat_le] at h
  have h2 : (13 : UInt8).toNat = 13 := rfl
  rcases h with rfl | h
  · decide
  · omega

theorem not_isSpace_of_le {c : UInt8} (h : 33 ≤ c.toNat) : isSpace c = false := by
  cases hs : isSpace c with
  | false => rfl
  | true =>
    have := isSpace_range hs
    omega

/-! ## Heads of lists -/

theorem takeWhile_append_of_head {p : UInt8 → Bool} {l rest : List UInt8} (hl : ∀ c ∈ l, p c)
    (hr : ∀ c ∈ rest.head?, p c = false) : (l ++ rest).takeWhile p = l := by
  rw [List.takeWhile_append_of_pos hl]
  cases rest with
  | nil => simp
  | cons c rest => simp [hr c rfl]

theorem dropWhile_append_of_head {p : UInt8 → Bool} {l rest : List UInt8} (hl : ∀ c ∈ l, p c)
    (hr : ∀ c ∈ rest.head?, p c = false) : (l ++ rest).dropWhile p = rest := by
  rw [List.dropWhile_append_of_pos hl]
  cases rest with
  | nil => rfl
  | cons c rest => simp [hr c rfl]

theorem head_dropWhile {p : UInt8 → Bool} (l : List UInt8) :
    ∀ c ∈ (l.dropWhile p).head?, p c = false := by
  intro c hc
  have := List.head?_dropWhile_not p l
  cases h : (l.dropWhile p).head? with
  | none => simp [h] at hc
  | some d =>
    rw [h] at hc this
    cases hc
    simpa using this

/-! ## One number -/

theorem skipSign_of_digit {c : UInt8} {s : List UInt8} (h : r.isDigit c) :
    skipSign (c :: s) = (false, c :: s) := by
  have hc := isDigit_range h
  unfold skipSign
  split
  · rename_i heq
    cases heq
    exact absurd hc.1 (by decide)
  · rename_i heq
    cases heq
    exact absurd hc.1 (by decide)
  · rfl

namespace Number

variable {n n' : Number r} {rest rest' s : List UInt8}

theorem head_digit (n : Number r) :
    ∃ c s, n.mark ++ n.digits = c :: s ∧ r.isDigit c := by
  rcases n.mark_mem with h | ⟨hr, h | h⟩
  · obtain ⟨d, ds, hd⟩ := List.exists_cons_of_ne_nil n.digits_ne
    exact ⟨d, ds, by rw [h, hd]; rfl, n.digits_all d (hd ▸ List.mem_cons_self)⟩
  · exact ⟨48, 120 :: n.digits, by rw [h]; rfl, by simp [Radix.isDigit]⟩
  · exact ⟨48, 88 :: n.digits, by rw [h]; rfl, by simp [Radix.isDigit]⟩

theorem dropSpaces (n : Number r) (rest : List UInt8) :
    (n.text ++ rest).dropWhile isSpace = n.sign ++ (n.mark ++ n.digits) ++ rest := by
  obtain ⟨c, s, hcs, hc⟩ := n.head_digit
  have hhead : ∀ d ∈ (n.sign ++ (n.mark ++ n.digits) ++ rest).head?, isSpace d = false := by
    rw [hcs]
    rcases n.sign_mem with h | h | h
    · rw [h]
      rintro d ⟨⟩
      exact not_isSpace_of_le (Nat.le_trans (by decide) (isDigit_range hc).1)
    · rw [h]
      rintro d ⟨⟩
      decide
    · rw [h]
      rintro d ⟨⟩
      decide
  rw [text, List.append_assoc]
  exact dropWhile_append_of_head n.spaces_all hhead

theorem skipSign_text (n : Number r) (rest : List UInt8) :
    skipSign (n.sign ++ (n.mark ++ n.digits) ++ rest) =
      (decide (n.sign = [45]), n.mark ++ n.digits ++ rest) := by
  obtain ⟨c, s, hcs, hc⟩ := n.head_digit
  rcases n.sign_mem with h | h | h
  · rw [h, List.nil_append, hcs]
    exact skipSign_of_digit hc
  · rw [h]
    rfl
  · rw [h]
    rfl

theorem skipMark_text (h : n.EndsBefore rest) :
    skipMark r (n.mark ++ n.digits ++ rest) = n.digits ++ rest := by
  rcases n.mark_mem with hm | ⟨hr, hm | hm⟩
  · obtain ⟨d, ds, hd⟩ := List.exists_cons_of_ne_nil n.digits_ne
    rw [hm, List.nil_append]
    -- a `0` in front of an `x` would be a mark
    have hmark : ∀ c t, n.digits ++ rest = 48 :: c :: t → ¬ (r = .hex ∧ (c = 120 ∨ c = 88)) := by
      rintro c t heq ⟨hr, hc⟩
      rw [hd, List.cons_append, List.cons.injEq] at heq
      obtain ⟨rfl, heq⟩ := heq
      cases ds with
      | nil =>
        have hx := h.mark hr hm hd c (by rw [List.nil_append] at heq; rw [heq]; rfl)
        rcases hc with rfl | rfl
        · exact hx.1 rfl
        · exact hx.2 rfl
      | cons e ds =>
        have he : r.isDigit e := n.digits_all e (hd ▸ by simp)
        cases heq
        subst hr
        rcases hc with rfl | rfl
        · exact absurd he (by decide)
        · exact absurd he (by decide)
    generalize n.digits ++ rest = t at hmark
    unfold skipMark
    split
    · rw [if_neg (hmark _ _ rfl)]
    · rfl
  · rw [hm]
    simp [skipMark, hr]
  · rw [hm]
    simp [skipMark, hr]

theorem scan (h : n.EndsBefore rest) : scanNumber r (n.text ++ rest) = some (n.item, rest) := by
  unfold scanNumber
  rw [dropSpaces, skipSign_text]
  dsimp only
  rw [skipMark_text h, takeWhile_append_of_head n.digits_all h.digit,
    dropWhile_append_of_head n.digits_all h.digit, if_neg n.digits_ne]
  rfl

/-- A text can be read in one way. -/
theorem scan_unique (h : n.EndsBefore rest) (h' : n'.EndsBefore rest')
    (hs : n.text ++ rest = n'.text ++ rest') : n.item = n'.item ∧ n.text = n'.text ∧ rest = rest' := by
  have hscan := Option.some.inj ((scan h).symm.trans (hs ▸ scan h'))
  obtain ⟨hitem, rfl⟩ := Prod.mk.inj hscan
  exact ⟨hitem, List.append_cancel_right hs, rfl⟩

end Number

theorem exists_sign (s : List UInt8) : ∃ sign, (sign = [] ∨ sign = [43] ∨ sign = [45]) ∧
    s = sign ++ (skipSign s).2 ∧ (skipSign s).1 = decide (sign = [45]) := by
  unfold skipSign
  split
  · exact ⟨[45], .inr (.inr rfl), rfl, rfl⟩
  · exact ⟨[43], .inr (.inl rfl), rfl, rfl⟩
  · exact ⟨[], .inl rfl, rfl, rfl⟩

theorem exists_mark (r : Radix) (s : List UInt8) :
    ∃ mark, (mark = [] ∨ r = .hex ∧ (mark = [48, 120] ∨ mark = [48, 88])) ∧
      s = mark ++ skipMark r s ∧
      (r = .hex → mark = [] → ∀ c t, s = 48 :: c :: t → c ≠ 120 ∧ c ≠ 88) := by
  unfold skipMark
  split
  · rename_i c t
    by_cases hm : r = .hex ∧ (c = 120 ∨ c = 88)
    · rw [if_pos hm]
      refine ⟨[48, c], .inr ⟨hm.1, ?_⟩, rfl, nofun⟩
      rcases hm.2 with rfl | rfl
      · exact .inl rfl
      · exact .inr rfl
    · rw [if_neg hm]
      refine ⟨[], .inl rfl, rfl, fun hr _ c' t' heq => ?_⟩
      cases heq
      exact not_or.mp fun hc => hm ⟨hr, hc⟩
  · rename_i hne
    exact ⟨[], .inl rfl, rfl, fun _ _ c t heq => absurd heq (hne c t)⟩

theorem exists_number {s rest : List UInt8} {v : Bool × Nat}
    (h : scanNumber r s = some (v, rest)) :
    ∃ n : Number r, n.item = v ∧ s = n.text ++ rest ∧ n.EndsBefore rest := by
  obtain ⟨sign, hsign, hs1, hneg⟩ := exists_sign (s.dropWhile isSpace)
  obtain ⟨mark, hmark, hs2, hends⟩ := exists_mark r (skipSign (s.dropWhile isSpace)).2
  unfold scanNumber at h
  dsimp only at h
  generalize skipSign (s.dropWhile isSpace) = signed at hs1 hneg hs2 hends h
  obtain ⟨neg, s2⟩ := signed
  dsimp only at hs1 hneg hs2 hends h
  generalize skipMark r s2 = s3 at hs2 h
  split at h
  · cases h
  · rename_i hdigits
    obtain ⟨hv, rfl⟩ := Prod.mk.inj (Option.some.inj h)
    have hs3 : s3.takeWhile r.isDigit ++ s3.dropWhile r.isDigit = s3 :=
      List.takeWhile_append_dropWhile
    refine ⟨⟨s.takeWhile isSpace, sign, mark, s3.takeWhile r.isDigit,
      fun c hc => List.mem_takeWhile_imp hc, hsign, hmark, hdigits,
      fun c hc => List.mem_takeWhile_imp hc⟩, ?_, ?_, ?_, ?_⟩
    · rw [← hv, hneg]
      rfl
    · have hsplit : s = s.takeWhile isSpace ++ s.dropWhile isSpace :=
        List.takeWhile_append_dropWhile.symm
      show s = s.takeWhile isSpace ++ (sign ++ (mark ++ s3.takeWhile r.isDigit)) ++ _
      rw [List.append_assoc, List.append_assoc, List.append_assoc, hs3, ← hs2, ← hs1, ← hsplit]
    · exact head_dropWhile s3
    · intro hr hm hd c hc
      have hd' : s3.takeWhile r.isDigit = [48] := hd
      have hm' : mark = [] := hm
      cases ht : s3.dropWhile r.isDigit with
      | nil => simp [ht] at hc
      | cons d t =>
        rw [ht] at hc
        cases hc
        refine hends hr hm' c t ?_
        rw [hs2, hm', List.nil_append, ← hs3, hd', ht]
        rfl

/-! ## Several numbers -/

variable {ns ns' : List (Number r)} {s rest rest' : List UInt8}

theorem Scans.scan (h : Scans sep ns s rest) :
    scanNumbers r sep ns.length s = ns.map Number.item := by
  induction h with
  | last n rest hn =>
    simp only [List.length_singleton, scanNumbers, Number.scan hn, List.map_cons, List.map_nil]
    cases rest with
    | nil => rfl
    | cons c rest => simp
  | more n ns s rest hn _ ih =>
    simp only [List.length_cons, scanNumbers, Number.scan hn, if_true, ih, List.map_cons]

/-- When all `k` conversions are made, their numbers are what was read. -/
theorem exists_scans {k : Nat} (h : (scanNumbers r sep (k + 1) s).length = k + 1) :
    ∃ (ns : List (Number r)) (rest : List UInt8), ns.length = k + 1 ∧ Scans sep ns s rest := by
  induction k generalizing s with
  | zero =>
    unfold scanNumbers at h
    split at h
    · cases h
    all_goals
      rename_i hscan
      obtain ⟨n, -, rfl, hn⟩ := exists_number hscan
      exact ⟨[n], _, rfl, .last n _ hn⟩
  | succ k ih =>
    unfold scanNumbers at h
    split at h
    · cases h
    · simp at h
    · rename_i hscan
      split at h
      · rename_i hc
        subst hc
        obtain ⟨n, -, rfl, hn⟩ := exists_number hscan
        obtain ⟨ns, rest, hlen, hscans⟩ := ih (Nat.succ.inj h)
        exact ⟨n :: ns, rest, congrArg Nat.succ hlen, .more n ns _ rest hn hscans⟩
      · simp at h

theorem Scans.ne_nil (h : Scans sep ns s rest) : ns ≠ [] := by
  cases h with
  | last => exact nofun
  | more => exact nofun

theorem Scans.unique {s' : List UInt8} (h : Scans sep ns s rest) (h' : Scans sep ns' s' rest')
    (hs : s = s') (hlen : ns.length = ns'.length) :
    rest = rest' ∧ ∀ n ∈ ns, ∃ n' ∈ ns', n.item = n'.item ∧ n.text = n'.text := by
  induction h generalizing ns' s' rest' with
  | last n rest hn =>
    cases h' with
    | last n' rest' hn' =>
      obtain ⟨hitem, htext, hrest⟩ := Number.scan_unique hn hn' hs
      refine ⟨hrest, fun m hm => ⟨n', List.mem_singleton_self n', ?_⟩⟩
      rw [List.mem_singleton.mp hm]
      exact ⟨hitem, htext⟩
    | more n' ns' s' rest' _ hr =>
      exact absurd (List.eq_nil_of_length_eq_zero (Nat.succ.inj hlen).symm) hr.ne_nil
  | more n ns s rest hn hr ih =>
    cases h' with
    | last n' rest' _ =>
      exact absurd (List.eq_nil_of_length_eq_zero (Nat.succ.inj hlen)) hr.ne_nil
    | more n' ns' s' rest' hn' hr' =>
      obtain ⟨hitem, htext, hrest⟩ := Number.scan_unique hn hn' hs
      obtain ⟨hrest', hall⟩ := ih hr' (List.cons.inj hrest).2 (Nat.succ.inj hlen)
      refine ⟨hrest', List.forall_mem_cons.mpr
        ⟨⟨n', List.mem_cons_self, hitem, htext⟩, fun m hm => ?_⟩⟩
      obtain ⟨m', hm', hsame⟩ := hall m hm
      exact ⟨m', List.mem_cons_of_mem _ hm', hsame⟩

end Onvm.Lib

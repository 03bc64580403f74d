import Onvm.Nflib.Config

/-!
# Reading a configuration file

`onvm_config_parse_file` reads a file line by line into a buffer of 255 bytes and copies
each line behind the one before, into a block with room for the file and a terminator.
`fgets` is given the length of the file as the size of the buffer.
-/

namespace Onvm.Nflib

open Onvm.Afxdp (CString)

/-- What C leaves open: the bytes of a new block, and the `int` that a `long` beyond the
range of `int` becomes. -/
structure CImpl where
  mem : Nat → UInt8
  toInt : Nat → Int
  toInt_eq : ∀ n < 2 ^ 31, toInt n = n
  toInt_range : ∀ n, -2 ^ 31 ≤ toInt n ∧ toInt n < 2 ^ 31

def tempBufSize : Nat := 255

/-- `fgets` is told that `temp_buf` is larger than it is, a write leaves the block of
`json_str`, or `int` overflows. -/
inductive ReadFault where
  | tempBuf
  | jsonStr
  | overflow
  deriving DecidableEq

/-- At most `k` bytes, up to a newline, and the bytes behind them. -/
def takeLine : Nat → List UInt8 → List UInt8 × List UInt8
  | 0, s => ([], s)
  | _ + 1, [] => ([], [])
  | k + 1, b :: s =>
    if b = 10 then ([b], s)
    else (b :: (takeLine k s).1, (takeLine k s).2)

/-- `fgets(temp_buf, n, fp)`: the bytes it stores before the terminator, and the bytes of
the file that are left. -/
def fgets (n : Int) (file : List UInt8) : Option (List UInt8 × List UInt8) :=
  if n ≤ 0 then none
  else if n = 1 then some ([], file)
  else if file = [] then none
  else some (takeLine (n.toNat - 1) file)

def memcpy (b : Buf) (i : Nat) (v : List UInt8) : Option Buf :=
  if i + v.length ≤ b.length then some (b.take i ++ v ++ b.drop (i + v.length)) else none

/-- The bytes of the file that are left, the block and the offset of `tmp` in it. -/
structure Reading where
  file : List UInt8
  jsonStr : Buf
  tmp : Nat
  deriving DecidableEq

/-- The loop; `none` when it has not ended after as many calls of `fgets` as `fuel`. -/
def readLines (fileLength : Int) : Nat → Reading → Option (Except ReadFault Reading)
  | 0, _ => none
  | fuel + 1, r =>
    if tempBufSize < fileLength then some (.error .tempBuf)
    else
      match fgets fileLength r.file with
      | none => some (.ok r)
      | some (line, file) =>
        -- `strlen` ends at a NUL of the file as well
        let str := line.takeWhile (· ≠ 0)
        match memcpy r.jsonStr r.tmp str with
        | none => some (.error .jsonStr)
        | some jsonStr => readLines fileLength fuel ⟨file, jsonStr, r.tmp + str.length⟩

/-- From `malloc` on: what `cJSON_Parse` is given, or none when there is no block of that
size. -/
def readFile (mem : Nat → UInt8) (fuel : Nat) (fileLength : Int) (content : List UInt8) :
    Option (Except ReadFault (Option CString)) :=
  if fileLength + 1 = 2 ^ 31 then some (.error .overflow)
  else if fileLength + 1 < 0 then some (.ok none)
  else
    match readLines fileLength fuel ⟨content, malloc mem (fileLength + 1).toNat, 0⟩ with
    | none => none
    | some (.error fault) => some (.error fault)
    | some (.ok r) =>
      if fileLength < 0 then some (.error .jsonStr)
      else some (.ok (cString (r.jsonStr.set fileLength.toNat 0)))

/-- The length is what `ftell` returns, as an `int`. -/
def onvmConfigParseFile (impl : CImpl) (fopen : CString → Option (List UInt8)) (fuel : Nat)
    (filename : Option CString) : Option (Except ReadFault (Option CString)) :=
  match (filename.filter (· ≠ [])).bind fopen with
  | none => some (.ok none)
  | some content => readFile impl.mem fuel (impl.toInt content.length) content

/-- A file with this content is read: the loop ends, nothing goes wrong, and `cJSON_Parse`
is given the bytes up to the first NUL. -/
def ReadsRight (content : List UInt8) : Prop :=
  ∀ (impl : CImpl) (fopen : CString → Option (List UInt8)) (filename : CString),
    filename ≠ [] → fopen filename = some content →
    ∃ fuel, onvmConfigParseFile impl fopen fuel (some filename) =
      some (.ok (some (content.takeWhile (· ≠ 0))))

/-! ## Lines -/

theorem takeLine_append (k : Nat) (s : List UInt8) :
    (takeLine k s).1 ++ (takeLine k s).2 = s := by
  induction k generalizing s with
  | zero => rfl
  | succ k ih =>
    cases s with
    | nil => rfl
    | cons b s =>
      unfold takeLine
      split
      · rfl
      · rw [List.cons_append, ih]

/-- A call that is not at the end of the file reads something. -/
theorem takeLine_length {k : Nat} {s : List UInt8} (hs : s ≠ []) :
    (takeLine (k + 1) s).2.length < s.length := by
  cases s with
  | nil => exact absurd rfl hs
  | cons b s =>
    have hlen := congrArg List.length (takeLine_append k s)
    rw [List.length_append] at hlen
    unfold takeLine
    rw [List.length_cons]
    split
    · exact Nat.lt_succ_self _
    · dsimp only
      omega

theorem memcpy_append {d g v : List UInt8} (h : v.length ≤ g.length) :
    memcpy (d ++ g) d.length v = some (d ++ v ++ g.drop v.length) := by
  unfold memcpy
  rw [if_pos (by rw [List.length_append]; omega), List.take_left, List.drop_append,
    List.drop_eq_nil_of_le (by omega), Nat.add_sub_cancel_left, List.nil_append]

/-! ## The loop -/

/-- What the loop copies behind `d`: the whole file, or less when there is a NUL. -/
structure Copied (file s : List UInt8) : Prop where
  noNul : 0 ∉ s
  all : 0 ∉ file → s = file
  less : 0 ∈ file → s.length < file.length

theorem Copied.length_le {file s : List UInt8} (h : Copied file s) : s.length ≤ file.length := by
  by_cases h0 : 0 ∈ file
  · exact Nat.le_of_lt (h.less h0)
  · rw [h.all h0]

theorem copied_line (line : List UInt8) : Copied line (line.takeWhile (· ≠ 0)) where
  noNul h := by simpa using List.mem_takeWhile_imp h
  all h := by
    rw [List.takeWhile_eq_self_iff]
    rintro b hb
    simp only [decide_eq_true_eq]
    rintro rfl
    exact h hb
  less h := by
    refine Nat.lt_of_le_of_ne (List.takeWhile_sublist _).length_le fun heq => ?_
    have hself := (List.takeWhile_sublist (fun b : UInt8 => decide (b ≠ 0))).eq_of_length heq
    rw [List.takeWhile_eq_self_iff] at hself
    simpa using hself 0 h

theorem Copied.append {file₁ file₂ s₁ s₂ : List UInt8} (h₁ : Copied file₁ s₁)
    (h₂ : Copied file₂ s₂) : Copied (file₁ ++ file₂) (s₁ ++ s₂) where
  noNul h := (List.mem_append.mp h).elim h₁.noNul h₂.noNul
  all h := by
    rw [List.mem_append, not_or] at h
    rw [h₁.all h.1, h₂.all h.2]
  less h := by
    have := h₁.length_le
    have := h₂.length_le
    rw [List.length_append, List.length_append]
    rcases List.mem_append.mp h with h | h
    · have := h₁.less h
      omega
    · have := h₂.less h
      omega

/-- The loop ends, and copies the lines one behind the other. -/
theorem readLines_ends {n : Nat} (hn : 2 ≤ n) (hfits : n ≤ tempBufSize) (fuel : Nat)
    (d g file : List UInt8) (hfuel : file.length < fuel) (hroom : file.length ≤ g.length) :
    ∃ s, Copied file s ∧ readLines n fuel ⟨file, d ++ g, d.length⟩ =
      some (.ok ⟨[], d ++ s ++ g.drop s.length, (d ++ s).length⟩) := by
  induction fuel generalizing d g file with
  | zero => omega
  | succ fuel ih =>
    have hask : ¬ ((tempBufSize : Int) < n) := by omega
    have h0 : ¬ ((n : Int) ≤ 0) := by omega
    have h1 : ¬ ((n : Int) = 1) := by omega
    unfold readLines fgets
    rw [if_neg hask, if_neg h0, if_neg h1]
    dsimp only
    by_cases hfile : file = []
    · rw [if_pos hfile]
      exact ⟨[], ⟨by simp, fun _ => hfile.symm, by simp [hfile]⟩, by simp [hfile]⟩
    · obtain ⟨k, rfl⟩ : ∃ k, n = k + 2 := ⟨n - 2, by omega⟩
      have hk : ((k + 2 : Nat) : Int).toNat - 1 = k + 1 := by omega
      rw [if_neg hfile, hk]
      have hsplit := takeLine_append (k + 1) file
      have hless := takeLine_length (k := k) hfile
      generalize takeLine (k + 1) file = l at hsplit hless ⊢
      obtain ⟨line, rest⟩ := l
      dsimp only at hsplit hless ⊢
      have hlen := congrArg List.length hsplit
      rw [List.length_append] at hlen
      have hline := copied_line line
      have hle := hline.length_le
      rw [memcpy_append (by omega)]
      obtain ⟨s, hs, hrun⟩ := ih (d ++ line.takeWhile (· ≠ 0))
        (g.drop (line.takeWhile (· ≠ 0)).length) rest (by omega)
        (by rw [List.length_drop]; omega)
      refine ⟨line.takeWhile (· ≠ 0) ++ s, hsplit ▸ hline.append hs, ?_⟩
      rw [List.length_append] at hrun
      dsimp only
      rw [hrun]
      simp [List.append_assoc, List.drop_drop]

theorem readLines_mono {n : Int} {fuel : Nat} {r : Reading} {res : Except ReadFault Reading}
    (h : readLines n fuel r = some res) (k : Nat) : readLines n (fuel + k) r = some res := by
  induction fuel generalizing r with
  | zero => cases h
  | succ fuel ih =>
    rw [Nat.succ_add]
    unfold readLines at h ⊢
    by_cases hask : (tempBufSize : Int) < n
    · rw [if_pos hask] at h ⊢
      exact h
    · rw [if_neg hask] at h ⊢
      cases hread : fgets n r.file with
      | none => simpa only [hread] using h
      | some l =>
        simp only [hread] at h ⊢
        split at h
        · exact h
        · exact ih h

/-- With `n = 1` nothing is read, and the loop goes on. -/
theorem readLines_one (fuel : Nat) (file : List UInt8) (b : Buf) :
    readLines 1 fuel ⟨file, b, 0⟩ = none := by
  induction fuel with
  | zero => rfl
  | succ fuel ih =>
    have hread : fgets 1 file = some ([], file) := rfl
    have hcopy : memcpy b 0 [] = some b := memcpy_append (d := []) (Nat.zero_le _)
    unfold readLines
    rw [if_neg (by decide)]
    simp only [hread, List.takeWhile_nil, hcopy]
    exact ih

/-- The string in a block whose last byte becomes the terminator. -/
theorem cString_set {b : Buf} {n : Nat} (hlen : b.length = n + 1) (h0 : 0 ∉ b.take n) :
    cString (b.set n 0) = some (b.take n) := by
  have hset : b.set n 0 = b.take n ++ [0] := by
    rw [List.set_eq_take_append_cons_drop, if_pos (by omega), List.drop_eq_nil_of_le (by omega)]
  have hself : (b.take n).takeWhile (· ≠ 0) = b.take n := (copied_line _).all h0
  rw [cString, hset, if_pos (by simp), List.takeWhile_append, hself, if_pos rfl]
  simp

/-! ## The file -/

/-- What `cJSON_Parse` is given: what was copied, then what the block held before. -/
theorem readFile_ends (mem : Nat → UInt8) {content : List UInt8} (h2 : 2 ≤ content.length)
    (hfits : content.length ≤ tempBufSize) (hmem : 0 ∈ content → ∀ i, mem i ≠ 0) :
    ∃ s t, Copied content s ∧ s.length + t.length = content.length ∧
      readFile mem (content.length + 1) content.length content = some (.ok (some (s ++ t))) := by
  have hsize : tempBufSize = 255 := rfl
  have hnat : ((content.length : Int) + 1).toNat = content.length + 1 := by omega
  have hblock : (malloc mem (content.length + 1)).length = content.length + 1 := by simp [malloc]
  obtain ⟨s, hs, hrun⟩ := readLines_ends h2 hfits (content.length + 1) []
    (malloc mem (content.length + 1)) content (Nat.lt_succ_self _) (by omega)
  rw [List.nil_append, List.nil_append, List.length_nil] at hrun
  have hle := hs.length_le
  have htake : (s ++ (malloc mem (content.length + 1)).drop s.length).take content.length =
      s ++ ((malloc mem (content.length + 1)).drop s.length).take (content.length - s.length) := by
    rw [List.take_append, List.take_of_length_le hle]
  refine ⟨s, ((malloc mem (content.length + 1)).drop s.length).take (content.length - s.length),
    hs, ?_, ?_⟩
  · rw [List.length_take, List.length_drop, hblock]
    omega
  · unfold readFile
    rw [if_neg (by omega), if_neg (by omega), hnat, hrun]
    dsimp only
    rw [if_neg (by omega), Int.toNat_natCast, cString_set ?_ ?_, htake]
    · rw [List.length_append, List.length_drop, hblock]
      omega
    · rw [htake, List.mem_append, not_or]
      refine ⟨hs.noNul, fun h => ?_⟩
      by_cases h0 : 0 ∈ content
      · have hin := List.mem_of_mem_drop (List.mem_of_mem_take h)
        obtain ⟨i, -, hi⟩ := List.mem_map.mp hin
        exact hmem h0 i hi
      · simp [hs.all h0] at h

theorem readFile_mono {mem : Nat → UInt8} {fuel : Nat} {n : Int} {content : List UInt8}
    {res : Except ReadFault (Option CString)} (h : readFile mem fuel n content = some res)
    (k : Nat) : readFile mem (fuel + k) n content = some res := by
  unfold readFile at h ⊢
  by_cases hover : n + 1 = 2 ^ 31
  · rw [if_pos hover] at h ⊢
    exact h
  by_cases hneg : n + 1 < 0
  · rw [if_neg hover, if_pos hneg] at h ⊢
    exact h
  rw [if_neg hover, if_neg hneg] at h ⊢
  cases hrun : readLines n fuel ⟨content, malloc mem (n + 1).toNat, 0⟩ with
  | none => simp [hrun] at h
  | some r =>
    rw [readLines_mono hrun k]
    rw [hrun] at h
    exact h

theorem parseFile_found (impl : CImpl) (fopen : CString → Option (List UInt8)) {filename : CString}
    {content : List UInt8} (hname : filename ≠ []) (hopen : fopen filename = some content)
    (fuel : Nat) : onvmConfigParseFile impl fopen fuel (some filename) =
      readFile impl.mem fuel (impl.toInt content.length) content := by
  have hfilter : (some filename).filter (· ≠ []) = some filename := by simp [hname]
  unfold onvmConfigParseFile
  rw [hfilter, Option.bind_some, hopen]

/-- A block full of `x`, and a conversion that makes a length that is no `int` 256. -/
def hostile : CImpl where
  mem _ := 120
  toInt n := if n < 2 ^ 31 then n else 256
  toInt_eq n h := if_pos h
  toInt_range n := by split <;> omega

theorem ReadsRight.fits {content : List UInt8} (h : ReadsRight content) :
    content.length ≠ 1 ∧ content.length ≤ tempBufSize ∧ 0 ∉ content := by
  have hsize : tempBufSize = 255 := rfl
  have hname : ([120] : CString) ≠ [] := by decide
  obtain ⟨fuel, hfuel⟩ := h hostile (fun _ => some content) [120] hname rfl
  rw [parseFile_found hostile (fun _ => some content) hname rfl] at hfuel
  have hsmall : content.length ≤ tempBufSize := by
    by_contra hbig
    have hlarge : (tempBufSize : Int) < hostile.toInt content.length := by
      unfold hostile
      dsimp only
      split <;> omega
    unfold readFile at hfuel
    split at hfuel
    · cases hfuel
    · rw [if_neg (by omega)] at hfuel
      cases fuel with
      | zero => cases hfuel
      | succ fuel =>
        unfold readLines at hfuel
        rw [if_pos hlarge] at hfuel
        cases hfuel
  have hint : hostile.toInt content.length = content.length := hostile.toInt_eq _ (by omega)
  rw [hint] at hfuel
  have hone : content.length ≠ 1 := by
    intro h1
    rw [h1] at hfuel
    simp [readFile, readLines_one] at hfuel
  refine ⟨hone, hsmall, fun h0 => ?_⟩
  have hpos := List.length_pos_of_mem h0
  obtain ⟨s, t, -, hlen, hends⟩ := readFile_ends hostile.mem (by omega) hsmall
    fun _ i => (by decide : (120 : UInt8) ≠ 0)
  have hsame := (readFile_mono hfuel (content.length + 1)).symm.trans
    (Nat.add_comm fuel _ ▸ readFile_mono hends fuel)
  have hless := (copied_line content).less h0
  rw [Option.some.inj (Except.ok.inj (Option.some.inj hsame)), List.length_append] at hless
  omega

/-- **Reading a configuration file.** A file is read right exactly when it has not one byte
and no more than `temp_buf`, none of which is NUL. -/
theorem config_file_iff (content : List UInt8) :
    ReadsRight content ↔
      content.length ≠ 1 ∧ content.length ≤ tempBufSize ∧ 0 ∉ content := by
  refine ⟨ReadsRight.fits, fun ⟨hone, hfits, h0⟩ impl fopen filename hname hopen => ?_⟩
  have hsize : tempBufSize = 255 := rfl
  have hint : impl.toInt content.length = content.length := impl.toInt_eq _ (by omega)
  have hall : content.takeWhile (· ≠ 0) = content := (copied_line content).all h0
  refine ⟨content.length + 1, ?_⟩
  rw [parseFile_found impl fopen hname hopen, hint, hall]
  by_cases hempty : content = []
  · subst hempty
    rfl
  · have hpos := List.length_pos_of_ne_nil hempty
    obtain ⟨s, t, hs, hlen, hends⟩ := readFile_ends impl.mem (by omega) hfits
      fun h => absurd h h0
    rw [hs.all h0] at hlen hends
    have ht : t = [] := List.eq_nil_of_length_eq_zero (by omega)
    rw [hends, ht, List.append_nil]

/-- The loop does not end on a file of one byte; on 256 bytes `fgets` is told of a buffer of
256; and of two bytes, of which the second is NUL, one is followed by what the block held. -/
theorem config_file_misread :
    ¬ ReadsRight [49] ∧ ¬ ReadsRight (List.replicate 256 32) ∧ ¬ ReadsRight [49, 0] := by
  refine ⟨fun h => h.fits.1 (by decide), fun h => ?_, fun h => h.fits.2.2 (by decide)⟩
  have hle := h.fits.2.1
  rw [List.length_replicate] at hle
  exact absurd hle (by decide)

end Onvm.Nflib

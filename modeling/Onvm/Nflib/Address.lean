import Onvm.Lib.Bytes
import Onvm.Lib.Scan
import Onvm.Nflib.Config

/-!
# Addresses in text

`onvm_pkt_parse_ip` and `onvm_pkt_parse_mac` leave an address to `sscanf` and look at
nothing but the number of conversions: white space, signs, `0x`, numbers above 255 and
whatever is behind the last number go unnoticed.
-/

namespace Onvm.Nflib

open Onvm.Lib
open Onvm.Afxdp (CString)

/-! ## The functions -/

def dot : UInt8 := 46

def colon : UInt8 := 58

def rteEtherAddrLen : Nat := 6

def rteIpv4 (a b c d : BitVec 32) : BitVec 32 :=
  (a &&& 0xff) <<< 24 ||| (b &&& 0xff) <<< 16 ||| (c &&& 0xff) <<< 8 ||| (d &&& 0xff)

/-- What `%u` and `%x` store. C leaves open what becomes of a number that is no `unsigned`:
`wide`. -/
def stored (wide : Bool × Nat → BitVec 32) (v : Bool × Nat) : BitVec 32 :=
  if v.2 < 2 ^ 32 ∧ (v.1 = false ∨ v.2 = 0) then BitVec.ofNat 32 v.2 else wide v

/-- The return value and what is at `dest`. NULL is `none`. -/
def onvmPktParseIp (wide : Bool × Nat → BitVec 32) (ipStr : Option CString)
    (dest : Option (BitVec 32)) : Int × Option (BitVec 32) :=
  match ipStr, dest with
  | some s, some _ =>
    match (scanNumbers .dec dot 4 s).map (stored wide) with
    | [a, b, c, d] => (0, some (rteIpv4 a b c d))
    | _ => (-1, dest)
  | _, _ => (-1, dest)

def joined (sep : UInt8) : List CString → CString
  | [] => []
  | [s] => s
  | s :: t :: ss => s ++ sep :: joined sep (t :: ss)

/-- `snprintf(ip_dest, 16, "%u.%u.%u.%u", ..)` -/
def onvmPktParseCharIp (ipDest : Buf) (ipSrc : BitVec 32) : Buf :=
  let text := joined dot [decimal ((ipSrc >>> 24) &&& 0xff).toNat,
    decimal ((ipSrc >>> 16) &&& 0xff).toNat, decimal ((ipSrc >>> 8) &&& 0xff).toNat,
    decimal (ipSrc &&& 0xff).toNat]
  writeOver ipDest (text.take 15 ++ [0])

def onvmPktParseMac (wide : Bool × Nat → BitVec 32) (macStr : Option CString)
    (dest : Option (List Byte)) : Int × Option (List Byte) :=
  match macStr, dest with
  | some s, some d =>
    let mac := (scanNumbers .hex colon rteEtherAddrLen s).map (stored wide)
    if mac.length ≠ rteEtherAddrLen then (-1, dest)
    else (0, some (mac.map (·.setWidth 8) ++ d.drop rteEtherAddrLen))
  | _, _ => (-1, dest)

/-! ## Addresses -/

/-- A number from 0 to 255 in digits. -/
structure Numeral (r : Radix) (s : CString) (n : Nat) : Prop where
  ne_nil : s ≠ []
  digits : ∀ c ∈ s, r.isDigit c
  value : r.value s = n
  le : n ≤ 255

def Denotes (r : Radix) (sep : UInt8) (v : List Nat) (s : CString) : Prop :=
  ∃ ss, List.Forall₂ (Numeral r) ss v ∧ s = joined sep ss

/-- What `onvm_pkt_parse_ip` should do with a string: accept what is an address, then the
rendering of what it stores is that address, and store nothing else. -/
structure IpRight (wide : Bool × Nat → BitVec 32) (s : CString) : Prop where
  accepts : ∀ dest, (onvmPktParseIp wide (some s) (some dest)).1 = 0 ↔
    ∃ v, v.length = 4 ∧ Denotes .dec dot v s
  value : ∀ dest v, v.length = 4 → Denotes .dec dot v s →
    ∃ addr, (onvmPktParseIp wide (some s) (some dest)).2 = some addr ∧
      ∀ buf, ∃ t, cString (onvmPktParseCharIp buf addr) = some t ∧ Denotes .dec dot v t
  unchanged : ∀ dest, (onvmPktParseIp wide (some s) (some dest)).1 ≠ 0 →
    (onvmPktParseIp wide (some s) (some dest)).2 = some dest

/-- What `onvm_pkt_parse_mac` should do with a string. -/
structure MacRight (wide : Bool × Nat → BitVec 32) (s : CString) : Prop where
  accepts : ∀ dest, (onvmPktParseMac wide (some s) (some dest)).1 = 0 ↔
    ∃ v, v.length = rteEtherAddrLen ∧ Denotes .hex colon v s
  value : ∀ dest v, v.length = rteEtherAddrLen → Denotes .hex colon v s →
    (onvmPktParseMac wide (some s) (some dest)).2 =
      some (v.map (BitVec.ofNat 8) ++ dest.drop rteEtherAddrLen)
  unchanged : ∀ dest, (onvmPktParseMac wide (some s) (some dest)).1 ≠ 0 →
    (onvmPktParseMac wide (some s) (some dest)).2 = some dest

/-! ## What else is read -/

structure Plain {r : Radix} (n : Number r) : Prop where
  spaces : n.spaces = []
  sign : n.sign = []
  mark : n.mark = []
  value : r.value n.digits ≤ 255

/-- The string starts with `k` numbers as `sscanf` reads them, one of which has white space,
a sign or `0x` in front of it or is above 255, or something is behind them. -/
def Lax (r : Radix) (sep : UInt8) (k : Nat) (s : CString) : Prop :=
  ∃ (ns : List (Number r)) (rest : CString), ns.length = k ∧ Scans sep ns s rest ∧
    ((∃ n ∈ ns, ¬ Plain n) ∨ rest ≠ [])

variable {r : Radix} {sep : UInt8} {s : CString} {v : List Nat} {ns : List (Number r)}

structure Separates (r : Radix) (sep : UInt8) : Prop where
  digit : r.isDigit sep = false
  mark : sep ≠ 120 ∧ sep ≠ 88

theorem dot_separates : Separates .dec dot := ⟨by decide, by decide⟩

theorem colon_separates : Separates .hex colon := ⟨by decide, by decide⟩

theorem Plain.text {n : Number r} (h : Plain n) : n.text = n.digits := by
  rw [Number.text, h.spaces, h.sign, h.mark]
  rfl

theorem Plain.item {n : Number r} (h : Plain n) : n.item = (false, r.value n.digits) := by
  rw [Number.item, h.sign]
  rfl

theorem Plain.of_same {n n' : Number r} (h : Plain n') (hitem : n.item = n'.item)
    (htext : n.text = n'.text) : Plain n := by
  have hdigits : ∀ c ∈ n.text, r.isDigit c := by
    rw [htext, h.text]
    exact n'.digits_all
  have hvalue : r.value n.digits = r.value n'.digits := congrArg Prod.snd hitem
  refine ⟨?_, ?_, ?_, hvalue ▸ h.value⟩
  · refine List.eq_nil_iff_forall_not_mem.mpr fun c hc => ?_
    have hd := isDigit_range (hdigits c (List.mem_append_left _ hc))
    have hs := isSpace_range (n.spaces_all c hc)
    omega
  · have hsign : ∀ c ∈ n.sign, r.isDigit c := fun c hc =>
      hdigits c (List.mem_append_right _ (List.mem_append_left _ hc))
    rcases n.sign_mem with hn | hn | hn
    · exact hn
    · have := isDigit_range (hsign 43 (by simp [hn]))
      exact absurd this.1 (by decide)
    · have := isDigit_range (hsign 45 (by simp [hn]))
      exact absurd this.1 (by decide)
  · have hmark : ∀ c ∈ n.mark, r.isDigit c := fun c hc =>
      hdigits c (List.mem_append_right _ (List.mem_append_right _ (List.mem_append_left _ hc)))
    rcases n.mark_mem with hn | ⟨rfl, hn | hn⟩
    · exact hn
    · exact absurd (hmark 120 (by simp [hn])) (by decide)
    · exact absurd (hmark 88 (by simp [hn])) (by decide)

/-! ## Addresses are read -/

/-- A numeral is what a conversion can read. -/
def Numeral.number {t : CString} {n : Nat} (h : Numeral r t n) : Number r where
  spaces := []
  sign := []
  mark := []
  digits := t
  spaces_all := by simp
  sign_mem := .inl rfl
  mark_mem := .inl rfl
  digits_ne := h.ne_nil
  digits_all := h.digits

theorem Numeral.plain {t : CString} {n : Nat} (h : Numeral r t n) : Plain h.number :=
  ⟨rfl, rfl, rfl, h.value.symm ▸ h.le⟩

theorem endsBefore_nil (n : Number r) : n.EndsBefore [] := ⟨nofun, nofun⟩

theorem Separates.endsBefore (h : Separates r sep) (n : Number r) (t : CString) :
    n.EndsBefore (sep :: t) := by
  refine ⟨?_, fun _ _ _ => ?_⟩
  · rintro c ⟨⟩
    exact h.digit
  · rintro c ⟨⟩
    exact h.mark

theorem Denotes.scans (hsep : Separates r sep) (h : Denotes r sep v s) (hv : v ≠ []) :
    ∃ ns : List (Number r), ns.length = v.length ∧ Scans sep ns s [] ∧ (∀ n ∈ ns, Plain n) ∧
      ns.map Number.item = v.map fun n => (false, n) := by
  obtain ⟨ss, hss, rfl⟩ := h
  induction hss with
  | nil => exact absurd rfl hv
  | @cons t n ss v ht hss ih =>
    have hitem : ht.number.item = (false, n) :=
      ht.plain.item.trans (congrArg (Prod.mk false) ht.value)
    cases hss with
    | nil =>
      refine ⟨[ht.number], rfl, ?_, ?_, by rw [List.map_singleton, hitem]; rfl⟩
      · have hlast : Scans sep [ht.number] _ [] := Scans.last ht.number [] (endsBefore_nil _)
        rwa [List.append_nil, ht.plain.text] at hlast
      · rintro m hm
        rw [List.mem_singleton.mp hm]
        exact ht.plain
    | @cons t' n' ss v ht' hss =>
      obtain ⟨ns, hlen, hscans, hplain, hitems⟩ := ih nofun
      refine ⟨ht.number :: ns, congrArg Nat.succ hlen, ?_, ?_, ?_⟩
      · have hmore := Scans.more ht.number ns _ [] (hsep.endsBefore _ _) hscans
        rwa [ht.plain.text] at hmore
      · exact List.forall_mem_cons.mpr ⟨ht.plain, hplain⟩
      · rw [List.map_cons, hitems, hitem]
        rfl

theorem denotes_of_scans {rest : CString} (h : Scans sep ns s rest) (hrest : rest = [])
    (hplain : ∀ n ∈ ns, Plain n) : Denotes r sep (ns.map fun n => r.value n.digits) s := by
  have hnumeral : ∀ n : Number r, Plain n → Numeral r n.digits (r.value n.digits) :=
    fun n hn => ⟨n.digits_ne, n.digits_all, rfl, hn.value⟩
  induction h with
  | last n rest _ =>
    have hn := hplain n (List.mem_singleton_self n)
    subst hrest
    exact ⟨[n.digits], .cons (hnumeral n hn) .nil, by rw [List.append_nil, hn.text]; rfl⟩
  | more n ns s rest _ hscans ih =>
    have hn := hplain n List.mem_cons_self
    obtain ⟨ss, hss, rfl⟩ := ih hrest fun m hm => hplain m (List.mem_cons_of_mem _ hm)
    refine ⟨n.digits :: ss, .cons (hnumeral n hn) hss, ?_⟩
    cases ss with
    | nil =>
      have hnil := List.forall₂_nil_left_iff.mp hss
      exact absurd (List.map_eq_nil_iff.mp hnil) hscans.ne_nil
    | cons t ss => rw [hn.text]; rfl

theorem scan_of_denotes (hsep : Separates r sep) (h : Denotes r sep v s) (hv : v ≠ []) :
    scanNumbers r sep v.length s = v.map fun n => (false, n) := by
  obtain ⟨ns, hlen, hscans, -, hitems⟩ := h.scans hsep hv
  rw [← hlen, hscans.scan, hitems]

/-- All conversions are made just for addresses exactly when the string is not read for
something else. -/
theorem scan_iff (hsep : Separates r sep) {k : Nat} (hk : k ≠ 0) :
    ((scanNumbers r sep k s).length = k ↔ ∃ v, v.length = k ∧ Denotes r sep v s) ↔
      ¬ Lax r sep k s := by
  obtain ⟨k, rfl⟩ := Nat.exists_eq_succ_of_ne_zero hk
  constructor
  · rintro h ⟨ns, rest, hlen, hscans, hlax⟩
    have hscan : (scanNumbers r sep k.succ s).length = k.succ := by
      rw [← hlen, hscans.scan, List.length_map]
    obtain ⟨v, hvlen, hv⟩ := h.mp hscan
    obtain ⟨ns', hlen', hscans', hplain', -⟩ := hv.scans hsep (List.ne_nil_of_length_eq_add_one hvlen)
    obtain ⟨hrest, hsame⟩ := hscans.unique hscans' rfl (by omega)
    rcases hlax with ⟨n, hn, hnot⟩ | hne
    · obtain ⟨n', hn', hitem, htext⟩ := hsame n hn
      exact hnot ((hplain' n' hn').of_same hitem htext)
    · exact hne hrest
  · intro hlax
    constructor
    · intro hscan
      obtain ⟨ns, rest, hlen, hscans⟩ := exists_scans hscan
      have hplain : ∀ n ∈ ns, Plain n := fun n hn => by
        by_contra hnot
        exact hlax ⟨ns, rest, hlen, hscans, .inl ⟨n, hn, hnot⟩⟩
      have hrest : rest = [] := by
        by_contra hne
        exact hlax ⟨ns, rest, hlen, hscans, .inr hne⟩
      exact ⟨_, by rw [List.length_map, hlen], denotes_of_scans hscans hrest hplain⟩
    · rintro ⟨v, hlen, hv⟩
      have hscan := scan_of_denotes hsep hv (List.ne_nil_of_length_eq_add_one hlen)
      rw [← hlen, hscan, List.length_map]

/-! ## Rendering -/

theorem getLsbD_octet (x : BitVec 32) (l i : Nat) :
    ((x >>> l) &&& 0xff).getLsbD i = (x.getLsbD (l + i) && decide (i < 8)) := by
  have hff : (0xff : BitVec 32).getLsbD i = decide (i < 8) := by
    by_cases h : i < 32
    · revert i
      decide
    · rw [BitVec.getLsbD_of_ge _ _ (by omega)]
      exact (decide_eq_false (by omega)).symm
  rw [BitVec.getLsbD_and, BitVec.getLsbD_ushiftRight, hff]

/-- An octet that was shifted to bit `k` is the one that starts there. -/
theorem octet_shift (x : BitVec 32) {k l : Nat} (hk : k ≤ 24)
    (h : k = l ∨ k + 8 ≤ l ∨ l + 8 ≤ k) :
    (((x &&& 0xff) <<< k) >>> l) &&& 0xff = if k = l then x &&& 0xff else 0#32 := by
  refine BitVec.eq_of_getLsbD_eq fun i hi => ?_
  have hx := getLsbD_octet x 0
  simp only [BitVec.ushiftRight_zero, Nat.zero_add] at hx
  rw [getLsbD_octet, BitVec.getLsbD_shiftLeft, hx]
  rcases h with rfl | h | h
  · rw [if_pos rfl, hx, Nat.add_sub_cancel_left]
    by_cases h8 : i < 8
    · simp [h8, show k + i < 32 by omega]
    · simp [h8]
  · rw [if_neg (by omega), BitVec.getLsbD_zero, decide_eq_false (show ¬ l + i - k < 8 by omega)]
    simp
  · rw [if_neg (by omega), BitVec.getLsbD_zero]
    by_cases h8 : i < 8
    · simp [show l + i < k by omega]
    · simp [h8]

/-- The octets of an address are the numbers it was made of. -/
theorem octets_rteIpv4 (a b c d : BitVec 32) :
    (rteIpv4 a b c d >>> 24) &&& 0xff = a &&& 0xff ∧
      (rteIpv4 a b c d >>> 16) &&& 0xff = b &&& 0xff ∧
      (rteIpv4 a b c d >>> 8) &&& 0xff = c &&& 0xff ∧ rteIpv4 a b c d &&& 0xff = d &&& 0xff := by
  have hmade : ∀ l : Nat, (l = 24 ∨ l = 16 ∨ l = 8 ∨ l = 0) → (rteIpv4 a b c d >>> l) &&& 0xff =
      (if 24 = l then a &&& 0xff else 0#32) ||| (if 16 = l then b &&& 0xff else 0#32) |||
        (if 8 = l then c &&& 0xff else 0#32) ||| (if 0 = l then d &&& 0xff else 0#32) := by
    intro l hl
    have hlast := octet_shift d (k := 0) (l := l) (by omega) (by omega)
    rw [BitVec.shiftLeft_zero] at hlast
    unfold rteIpv4
    rw [BitVec.ushiftRight_or_distrib, BitVec.ushiftRight_or_distrib,
      BitVec.ushiftRight_or_distrib, BitVec.and_or_distrib_right, BitVec.and_or_distrib_right,
      BitVec.and_or_distrib_right, octet_shift a (k := 24) (by omega) (by omega),
      octet_shift b (k := 16) (by omega) (by omega), octet_shift c (k := 8) (by omega) (by omega), hlast]
  refine ⟨?_, ?_, ?_, ?_⟩
  · simpa using hmade 24 (by omega)
  · simpa using hmade 16 (by omega)
  · simpa using hmade 8 (by omega)
  · simpa using hmade 0 (by omega)

theorem eq_of_octets {x y : BitVec 32} (h24 : (x >>> 24) &&& 0xff = (y >>> 24) &&& 0xff)
    (h16 : (x >>> 16) &&& 0xff = (y >>> 16) &&& 0xff)
    (h8 : (x >>> 8) &&& 0xff = (y >>> 8) &&& 0xff) (h0 : x &&& 0xff = y &&& 0xff) : x = y := by
  have hbit : ∀ l : Nat, (x >>> l) &&& 0xff = (y >>> l) &&& 0xff →
      ∀ i, l ≤ i → i < l + 8 → x.getLsbD i = y.getLsbD i := by
    intro l h i hl hi
    have hi8 : decide (i - l < 8) = true := decide_eq_true (by omega)
    have hb := congrArg (BitVec.getLsbD · (i - l)) h
    rwa [getLsbD_octet, getLsbD_octet, hi8, Bool.and_true, Bool.and_true,
      Nat.add_sub_cancel' hl] at hb
  refine BitVec.eq_of_getLsbD_eq fun i hi => ?_
  rcases Nat.lt_or_ge i 8 with h | h
  · exact hbit 0 (by simpa using h0) i (by omega) (by omega)
  rcases Nat.lt_or_ge i 16 with h | h
  · exact hbit 8 h8 i (by omega) (by omega)
  rcases Nat.lt_or_ge i 24 with h | h
  · exact hbit 16 h16 i (by omega) (by omega)
  · exact hbit 24 h24 i (by omega) (by omega)

theorem rteIpv4_octets (addr : BitVec 32) :
    rteIpv4 ((addr >>> 24) &&& 0xff) ((addr >>> 16) &&& 0xff) ((addr >>> 8) &&& 0xff)
      (addr &&& 0xff) = addr := by
  have hself : ∀ x : BitVec 32, x &&& 0xff &&& 0xff = x &&& 0xff := fun x => by
    rw [BitVec.and_assoc, BitVec.and_self]
  obtain ⟨h24, h16, h8, h0⟩ := octets_rteIpv4 ((addr >>> 24) &&& 0xff) ((addr >>> 16) &&& 0xff)
    ((addr >>> 8) &&& 0xff) (addr &&& 0xff)
  rw [hself] at h24 h16 h8 h0
  exact eq_of_octets h24 h16 h8 h0

theorem digit_toUInt8 {c : Char} (h : c.isDigit) :
    Radix.dec.isDigit c.toUInt8 ∧ Radix.digitVal c.toUInt8 = c.toNat - '0'.toNat := by
  have hrange := Char.isDigit_iff_toNat.mp h
  have hmod : c.toUInt8.toNat = c.toNat % 256 := UInt32.toNat_toUInt8 _
  have h0 : '0'.toNat = 48 := rfl
  have h9 : '9'.toNat = 57 := rfl
  have hle : c.toUInt8 ≤ 57 := by
    rw [UInt8.le_iff_toNat_le, hmod, show (57 : UInt8).toNat = 57 from rfl]
    omega
  have hge : 48 ≤ c.toUInt8 := by
    rw [UInt8.le_iff_toNat_le, hmod, show (48 : UInt8).toNat = 48 from rfl]
    omega
  refine ⟨by simp [Radix.isDigit, hle, hge], ?_⟩
  rw [Radix.digitVal, if_pos hle, hmod]
  omega

theorem value_map {cs : List Char} (h : ∀ c ∈ cs, c.isDigit) (n : Nat) :
    (cs.map Char.toUInt8).foldl (fun n c => n * 10 + Radix.digitVal c) n =
      Nat.ofDigitChars 10 cs n := by
  induction cs generalizing n with
  | nil => rfl
  | cons c cs ih =>
    rw [List.map_cons, List.foldl_cons, Nat.ofDigitChars_cons,
      ih fun d hd => h d (List.mem_cons_of_mem _ hd), (digit_toUInt8 (h c List.mem_cons_self)).2,
      Nat.mul_comm]

theorem numeral_decimal {n : Nat} (h : n ≤ 255) : Numeral .dec (decimal n) n := by
  have hdigits : ∀ c ∈ Nat.toDigits 10 n, c.isDigit :=
    fun c hc => Nat.isDigit_of_mem_toDigits (by decide) (by decide) hc
  refine ⟨fun hnil => Nat.toDigits_ne_nil (List.map_eq_nil_iff.mp hnil), fun c hc => ?_, ?_, h⟩
  · obtain ⟨d, hd, rfl⟩ := List.mem_map.mp hc
    exact (digit_toUInt8 (hdigits d hd)).1
  · exact (value_map hdigits 0).trans Nat.ofDigitChars_ten_toDigits

theorem length_decimal {n : Nat} (h : n ≤ 255) : (decimal n).length ≤ 3 := by
  rw [decimal, List.length_map, Nat.length_toDigits_le_iff (by decide) (by decide)]
  omega

theorem octet_le (x : BitVec 32) : (x &&& 0xff).toNat ≤ 255 := by
  rw [BitVec.toNat_and]
  exact Nat.and_le_right

theorem Numeral.noNul {t : CString} {n : Nat} (h : Numeral r t n) : 0 ∉ t := fun h0 =>
  absurd (isDigit_range (h.digits 0 h0)).1 (by decide)

theorem cString_behind {t : CString} (h : 0 ∉ t) (b : Buf) : cString (t ++ [0] ++ b) = some t := by
  have hall : ∀ c ∈ t, decide (c ≠ 0) = true := fun c hc => decide_eq_true fun h0 => h (h0 ▸ hc)
  rw [cString, if_pos (by simp), List.append_assoc, List.takeWhile_append_of_pos hall]
  simp

theorem rendered (buf : Buf) (addr : BitVec 32) :
    ∃ t, cString (onvmPktParseCharIp buf addr) = some t ∧
      Denotes .dec dot [((addr >>> 24) &&& 0xff).toNat, ((addr >>> 16) &&& 0xff).toNat,
        ((addr >>> 8) &&& 0xff).toNat, (addr &&& 0xff).toNat] t := by
  have ha := octet_le (addr >>> 24)
  have hb := octet_le (addr >>> 16)
  have hc := octet_le (addr >>> 8)
  have hd := octet_le addr
  refine ⟨_, ?_, _, .cons (numeral_decimal ha) (.cons (numeral_decimal hb)
    (.cons (numeral_decimal hc) (.cons (numeral_decimal hd) .nil))), rfl⟩
  have hla := length_decimal ha
  have hlb := length_decimal hb
  have hlc := length_decimal hc
  have hld := length_decimal hd
  unfold onvmPktParseCharIp writeOver
  dsimp only
  rw [List.take_of_length_le, cString_behind]
  · simp only [joined, List.mem_append, List.mem_cons, not_or]
    exact ⟨(numeral_decimal ha).noNul, by decide, (numeral_decimal hb).noNul, by decide,
      (numeral_decimal hc).noNul, by decide, (numeral_decimal hd).noNul⟩
  · simp only [joined, List.length_append, List.length_cons]
    omega

/-! ## The parsers -/

theorem Denotes.le (h : Denotes r sep v s) : ∀ n ∈ v, n ≤ 255 := by
  obtain ⟨ss, hss, -⟩ := h
  induction hss with
  | nil => exact nofun
  | cons ht _ ih => exact List.forall_mem_cons.mpr ⟨ht.le, ih⟩

section
variable {wide : Bool × Nat → BitVec 32}

theorem stored_of_le {n : Nat} (h : n ≤ 255) : stored wide (false, n) = BitVec.ofNat 32 n :=
  if_pos ⟨by dsimp only; omega, .inl rfl⟩

theorem Denotes.stored (hsep : Separates r sep) (h : Denotes r sep v s) (hv : v ≠ []) :
    (scanNumbers r sep v.length s).map (stored wide) = v.map (BitVec.ofNat 32) := by
  rw [scan_of_denotes hsep h hv, List.map_map]
  exact List.map_congr_left fun n hn => stored_of_le (h.le n hn)

theorem parseIp_cases (wide : Bool × Nat → BitVec 32) (s : CString) (dest : BitVec 32) :
    (∃ a b c d, (scanNumbers .dec dot 4 s).map (Nflib.stored wide) = [a, b, c, d] ∧
      onvmPktParseIp wide (some s) (some dest) = (0, some (rteIpv4 a b c d))) ∨
    ((scanNumbers .dec dot 4 s).length ≠ 4 ∧
      onvmPktParseIp wide (some s) (some dest) = (-1, some dest)) := by
  have hlen : ((scanNumbers .dec dot 4 s).map (Nflib.stored wide)).length =
      (scanNumbers .dec dot 4 s).length := List.length_map _
  unfold onvmPktParseIp
  dsimp only
  split
  · rename_i a b c d h
    exact .inl ⟨a, b, c, d, h, rfl⟩
  · rename_i hne
    refine .inr ⟨fun h4 => ?_, rfl⟩
    obtain ⟨a, b, c, d, habcd⟩ := List.length_eq_four.mp (hlen.trans h4)
    exact hne a b c d habcd

theorem parseIp_accepts (wide : Bool × Nat → BitVec 32) (s : CString) (dest : BitVec 32) :
    (onvmPktParseIp wide (some s) (some dest)).1 = 0 ↔ (scanNumbers .dec dot 4 s).length = 4 := by
  rcases parseIp_cases wide s dest with ⟨a, b, c, d, hmap, hres⟩ | ⟨hlen, hres⟩
  · have hlen := congrArg List.length hmap
    rw [List.length_map] at hlen
    rw [hres]
    exact iff_of_true rfl hlen
  · rw [hres]
    exact iff_of_false (show (-1 : Int) ≠ 0 by decide) hlen

theorem parseIp_denotes (dest : BitVec 32) {a b c d : Nat} (h : Denotes .dec dot [a, b, c, d] s) :
    onvmPktParseIp wide (some s) (some dest) = (0, some
      (rteIpv4 (BitVec.ofNat 32 a) (BitVec.ofNat 32 b) (BitVec.ofNat 32 c) (BitVec.ofNat 32 d))) := by
  have hscan : (scanNumbers .dec dot 4 s).map (Nflib.stored wide) = _ :=
    h.stored dot_separates nofun
  unfold onvmPktParseIp
  dsimp only
  rw [hscan]
  rfl

theorem octet_ofNat {n : Nat} (h : n ≤ 255) : (BitVec.ofNat 32 n &&& 0xff).toNat = n := by
  rw [BitVec.toNat_and, BitVec.toNat_ofNat, Nat.mod_eq_of_lt (by omega)]
  exact (Nat.and_two_pow_sub_one_eq_mod n 8).trans (Nat.mod_eq_of_lt (by omega))

theorem ipRight_iff (wide : Bool × Nat → BitVec 32) (s : CString) :
    IpRight wide s ↔ ¬ Lax .dec dot 4 s := by
  rw [← scan_iff dot_separates (by decide)]
  constructor
  · intro h
    rw [← h.accepts 0, parseIp_accepts]
  · intro h
    refine ⟨fun dest => by rw [parseIp_accepts, h], fun dest v hlen hv => ?_, fun dest hne => ?_⟩
    · obtain ⟨a, b, c, d, rfl⟩ := List.length_eq_four.mp hlen
      have hle := hv.le
      simp only [List.mem_cons, List.not_mem_nil, or_false, forall_eq_or_imp, forall_eq] at hle
      refine ⟨_, congrArg Prod.snd (parseIp_denotes dest hv), fun buf => ?_⟩
      obtain ⟨t, ht, hden⟩ := rendered buf (rteIpv4 (BitVec.ofNat 32 a) (BitVec.ofNat 32 b)
        (BitVec.ofNat 32 c) (BitVec.ofNat 32 d))
      obtain ⟨h3, h2, h1, h0⟩ := octets_rteIpv4 (BitVec.ofNat 32 a) (BitVec.ofNat 32 b)
        (BitVec.ofNat 32 c) (BitVec.ofNat 32 d)
      rw [h3, h2, h1, h0, octet_ofNat hle.1, octet_ofNat hle.2.1, octet_ofNat hle.2.2.1,
        octet_ofNat hle.2.2.2] at hden
      exact ⟨t, ht, hden⟩
    · rcases parseIp_cases wide s dest with ⟨a, b, c, d, -, hres⟩ | ⟨-, hres⟩
      · exact absurd (congrArg Prod.fst hres) hne
      · exact congrArg Prod.snd hres

theorem macRight_iff (wide : Bool × Nat → BitVec 32) (s : CString) :
    MacRight wide s ↔ ¬ Lax .hex colon rteEtherAddrLen s := by
  rw [← scan_iff colon_separates (by decide)]
  have hcases : ∀ dest, onvmPktParseMac wide (some s) (some dest) =
      if (scanNumbers .hex colon rteEtherAddrLen s).length ≠ rteEtherAddrLen then (-1, some dest)
      else (0, some (((scanNumbers .hex colon rteEtherAddrLen s).map (Nflib.stored wide)).map
        (·.setWidth 8) ++ dest.drop rteEtherAddrLen)) := fun dest => by
    unfold onvmPktParseMac
    dsimp only
    rw [List.length_map]
  have haccepts : ∀ dest, (onvmPktParseMac wide (some s) (some dest)).1 = 0 ↔
      (scanNumbers .hex colon rteEtherAddrLen s).length = rteEtherAddrLen := fun dest => by
    rw [hcases]
    split
    · rename_i hlen
      exact iff_of_false (show (-1 : Int) ≠ 0 by decide) hlen
    · rename_i hlen
      exact iff_of_true rfl (not_ne_iff.mp hlen)
  constructor
  · intro h
    exact (haccepts []).symm.trans (h.accepts [])
  · intro h
    refine ⟨fun dest => (haccepts dest).trans h, fun dest v hlen hv => ?_, fun dest hne => ?_⟩
    · have hscan : (scanNumbers .hex colon v.length s).map (Nflib.stored wide) = _ :=
        hv.stored colon_separates (List.ne_nil_of_length_eq_add_one hlen)
      have hbyte : ∀ n : Nat, (BitVec.ofNat 32 n).setWidth 8 = BitVec.ofNat 8 n := fun n => by
        apply BitVec.eq_of_toNat_eq
        rw [BitVec.toNat_setWidth, BitVec.toNat_ofNat, BitVec.toNat_ofNat]
        omega
      rw [hlen] at hscan
      rw [hcases, if_neg (not_ne_iff.mpr (h.mpr ⟨v, hlen, hv⟩)), hscan, List.map_map]
      exact congrArg (fun l => some (l ++ _)) (List.map_congr_left fun n _ => hbyte n)
    · rw [hcases] at hne ⊢
      split
      · rfl
      · rename_i hlen
        rw [if_neg hlen] at hne
        exact absurd rfl hne

end

/-- **Addresses in text.** Each parser is right about a string exactly when the string does
not start with numbers as `sscanf` reads them that are no address, and a rendered IP address
is parsed to itself. -/
theorem address_parsers_iff (wide : Bool × Nat → BitVec 32) (s : CString) :
    (IpRight wide s ↔ ¬ Lax .dec dot 4 s) ∧
      (MacRight wide s ↔ ¬ Lax .hex colon rteEtherAddrLen s) ∧
      ∀ buf addr dest, ∃ t, cString (onvmPktParseCharIp buf addr) = some t ∧
        onvmPktParseIp wide (some t) (some dest) = (0, some addr) := by
  refine ⟨ipRight_iff wide s, macRight_iff wide s, fun buf addr dest => ?_⟩
  obtain ⟨t, ht, hden⟩ := rendered buf addr
  refine ⟨t, ht, (parseIp_denotes dest hden).trans ?_⟩
  simp only [BitVec.ofNat_toNat, BitVec.setWidth_eq, rteIpv4_octets]

/-- `256.0.0.1` is taken for `0.0.0.1`, and `100:0:0:0:0:1` for `0:0:0:0:0:1`. -/
theorem parsers_truncate :
    ¬ IpRight (fun _ => 0) (Afxdp.cstr "256.0.0.1") ∧
      ¬ MacRight (fun _ => 0) (Afxdp.cstr "100:0:0:0:0:1") := by
  constructor
  · intro h
    obtain ⟨v, hlen, hv⟩ := (h.accepts 0).mp (by decide +kernel)
    have hscan := scan_of_denotes dot_separates hv (List.ne_nil_of_length_eq_add_one hlen)
    have h256 : (false, 256) ∈ scanNumbers .dec dot v.length (Afxdp.cstr "256.0.0.1") := by
      rw [hlen]
      decide +kernel
    rw [hscan] at h256
    obtain ⟨n, hn, heq⟩ := List.mem_map.mp h256
    cases heq
    exact absurd (hv.le 256 hn) (by decide)
  · intro h
    obtain ⟨v, hlen, hv⟩ := (h.accepts []).mp (by decide +kernel)
    have hscan := scan_of_denotes colon_separates hv (List.ne_nil_of_length_eq_add_one hlen)
    have h256 : (false, 256) ∈ scanNumbers .hex colon v.length (Afxdp.cstr "100:0:0:0:0:1") := by
      rw [hlen]
      decide +kernel
    rw [hscan] at h256
    obtain ⟨n, hn, heq⟩ := List.mem_map.mp h256
    cases heq
    exact absurd (hv.le 256 hn) (by decide)

end Onvm.Nflib

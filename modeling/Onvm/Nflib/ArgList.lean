import Onvm.Nflib.Config

/-!
# When the arguments of an NF come out right

The merge looks at some positions of the command line: for the EAL part at the
odd ones before the first token with two dashes, for the NF_LIB part at the even
ones from there to the last such token. If the flags it finds there are the ones
that were given (`Matched`), the arguments come out right exactly when the values
fit the blocks of the configured texts, over which they are written without a
terminator (`argList_iff`).
-/

namespace Onvm.Nflib

open Onvm.Afxdp (CString cstr)

/-! ## The tokens that are looked at -/

/-- A token that the search takes for a separator. -/
def dashed (t : CString) : Bool := flagDash.isPrefixOf t

/-- The two parts of the command line whose flags are merged. -/
inductive Part where
  | eal
  | lib
  deriving DecidableEq, Repr

namespace CommandLine

def firstDash (l : CommandLine) : Nat := l.argv.findIdx dashed

def lastDash (l : CommandLine) : Nat := l.argv.length - 1 - l.argv.reverse.findIdx dashed

def Looked (l : CommandLine) : Part → Nat → Prop
  | .eal, j => 3 ≤ j ∧ j < l.firstDash ∧ j % 2 = 1
  | .lib, j => l.firstDash < j ∧ j ≤ l.lastDash ∧ j % 2 = 0

instance (l : CommandLine) (p : Part) (j : Nat) : Decidable (l.Looked p j) :=
  match p with
  | .eal => inferInstanceAs (Decidable (_ ∧ _ ∧ _))
  | .lib => inferInstanceAs (Decidable (_ ∧ _ ∧ _))

def found (l : CommandLine) (p : Part) (s : CString) : List Nat :=
  (List.range l.argv.length).filter fun j =>
    decide (l.Looked p j) && l.argv[j]?.any (s.isPrefixOf ·)

def copied (l : CommandLine) (p : Part) (s : CString) : List CString :=
  (l.found p s).filterMap (l.argv[· + 1]?)

end CommandLine

/-! ## The condition -/

def NfConfig.asked (c : NfConfig) (l : CommandLine) : Part → List CString
  | .eal => [(given flagL l.eal).getD c.corelist, (given flagN l.eal).getD (fmtD c.memoryChannels)]
  | .lib => (given flagR l.lib).getD (fmtD c.serviceId) :: (c.instanceArg l).toList

/-- Where the merge looks, each flag is followed last by the value that was given for it,
and is not found if none was given; and no token starts with one of the values. -/
structure Matched (c : NfConfig) (l : CommandLine) : Prop where
  corelist : c.corelist ≠ flagDash
  eal : ∀ f ∈ [flagL, flagN], (l.copied .eal f).getLast? = given f l.eal
  service : (l.copied .lib flagR).getLast? = given flagR l.lib
  instanceId : c.instanceId ≠ none → (l.copied .lib flagN).getLast? = given flagN l.lib
  values : ∀ p, ∀ s ∈ c.asked l p, l.found p s = []

/-- A configured text has `room` characters before its terminator, and zero bytes behind
that where `zero` says. It fits if it is asked for and is no longer; a value fits if it is
the longest that is copied and ends where a zero byte is. -/
def Fits (text : CString) (room : Nat) (zero : Nat → Prop) (asked : Option CString)
    (copied : List CString) : Prop :=
  match asked with
  | none => text.length ≤ room
  | some v => (∀ w ∈ copied, w.length ≤ v.length) ∧
      (v.length = min room text.length ∨ min room text.length < v.length ∧ zero v.length)

instance (text : CString) (room : Nat) (zero : Nat → Prop) [DecidablePred zero]
    (asked : Option CString) (copied : List CString) : Decidable (Fits text room zero asked copied) :=
  match asked with
  | none => inferInstanceAs (Decidable (_ ≤ _))
  | some _ => inferInstanceAs (Decidable (_ ∧ _))

/-- The channels are printed into three bytes and the IDs into five, which held `mem`. -/
structure ValuesFit (c : NfConfig) (mem : Bool → Nat → UInt8) (l : CommandLine) : Prop where
  instance_slot : given flagN l.lib ≠ none → c.instanceId ≠ none
  corelist : Fits c.corelist c.corelist.length (fun _ => False) (given flagL l.eal)
    (l.copied .eal flagL)
  channels : Fits (fmtD c.memoryChannels) 2 (fun _ => False) (given flagN l.eal)
    (l.copied .eal flagN)
  service : Fits (fmtD c.serviceId) 4 (fun n => n ≤ 4 ∧ mem false n = 0) (given flagR l.lib)
    (l.copied .lib flagR)
  instanceId : ∀ i ∈ c.instanceId, Fits (fmtD i) 4 (fun n => n ≤ 4 ∧ mem true n = 0)
    (given flagN l.lib) (l.copied .lib flagN)

/-! ## Blocks -/

theorem cString_eq_some_iff {b : Buf} {s : CString} :
    cString b = some s ↔ 0 ∉ s ∧ s ++ [0] <+: b := by
  unfold cString
  constructor
  · intro h
    split at h
    · rename_i hmem
      obtain rfl := Option.some.inj h
      refine ⟨fun h0 => absurd (List.mem_takeWhile_imp h0) (by decide), ?_⟩
      obtain ⟨x, t, ht⟩ : ∃ x t, b.dropWhile (· ≠ 0) = x :: t := List.exists_cons_of_ne_nil
        fun hnil => absurd (List.dropWhile_eq_nil_iff.mp hnil 0 hmem) (by decide)
      have hx : x = 0 := by
        have hhead := List.head?_dropWhile_not (fun x : UInt8 => decide (x ≠ 0)) b
        rw [ht] at hhead
        simpa using hhead
      have happ : b.takeWhile (· ≠ 0) ++ b.dropWhile (· ≠ 0) = b := List.takeWhile_append_dropWhile
      rw [ht, hx] at happ
      exact ⟨t, by rw [List.append_assoc, List.singleton_append, happ]⟩
    · cases h
  · rintro ⟨h0, t, rfl⟩
    have hmem : (0 : UInt8) ∈ s ++ [0] ++ t := by simp
    have hall : ∀ a ∈ s, decide (a ≠ 0) = true := fun a ha => decide_eq_true fun h => h0 (h ▸ ha)
    rw [if_pos hmem, List.append_assoc, List.takeWhile_append_of_pos hall]
    simp

theorem cString_append_iff {v : CString} (h : 0 ∉ v) {rest : Buf} :
    cString (v ++ rest) = some v ↔ rest.head? = some 0 := by
  rw [cString_eq_some_iff, and_iff_right h, List.prefix_append_right_inj]
  cases rest with
  | nil => simp
  | cons x xs => simp [eq_comm]

/-- A zero byte of the block shows where no value reaches. -/
theorem foldl_writeOver_zero {ws : List CString} (h : ∀ w ∈ ws, 0 ∉ w) {b : Buf} {n : Nat} :
    (ws.foldl writeOver b)[n]? = some 0 ↔ (∀ w ∈ ws, w.length ≤ n) ∧ b[n]? = some 0 := by
  induction ws generalizing b with
  | nil => simp
  | cons w ws ih =>
    rw [List.foldl_cons, ih fun v hv => h v (List.mem_cons_of_mem _ hv), List.forall_mem_cons]
    have h0 := h w (List.mem_cons_self ..)
    have hwrite : (writeOver b w)[n]? = some 0 ↔ w.length ≤ n ∧ b[n]? = some 0 := by
      unfold writeOver
      by_cases hn : n < w.length
      · rw [List.getElem?_append_left hn]
        exact iff_of_false (fun hw => h0 (List.mem_of_getElem? hw)) fun hw => by omega
      · have hle : w.length ≤ n := Nat.le_of_not_lt hn
        rw [List.getElem?_append_right hle, List.getElem?_drop, Nat.add_sub_cancel' hle]
        exact (and_iff_right hle).symm
    rw [hwrite]
    tauto

/-- **What the copies leave**: the last value, if it is the longest and ends at a zero byte. -/
theorem leaves_last_iff {ws : List CString} {v : CString} {b : Buf} (h : ∀ w ∈ ws, 0 ∉ w)
    (hv : ws.getLast? = some v) : Leaves b (ws.map some) v ↔
      (∀ w ∈ ws, w.length ≤ v.length) ∧ b[v.length]? = some 0 := by
  obtain ⟨ws, rfl⟩ := List.getLast?_eq_some_iff.mp hv
  have hv0 := h v (by simp)
  have hlast : cString ((ws ++ [v]).foldl writeOver b) = some v ↔
      (∀ w ∈ ws, w.length ≤ v.length) ∧ b[v.length]? = some 0 := by
    rw [List.foldl_append, List.foldl_cons, List.foldl_nil, writeOver, cString_append_iff hv0,
      List.head?_drop, foldl_writeOver_zero fun w hw => h w (List.mem_append_left _ hw)]
  have hsome : ((ws ++ [v]).map some).reduceOption = ws ++ [v] := by simp [List.reduceOption]
  unfold Leaves
  rw [hsome, hlast, List.forall_mem_append, List.forall_mem_singleton]
  constructor
  · rintro ⟨-, hle, hb⟩
    exact ⟨⟨hle, Nat.le_refl _⟩, hb⟩
  · rintro ⟨⟨hle, -⟩, hb⟩
    have hlt := (List.getElem?_eq_some_iff.mp hb).1
    refine ⟨fun x hx => ?_, hle, hb⟩
    obtain ⟨w, hw, rfl⟩ := List.mem_map.mp hx
    refine ⟨w, rfl, ?_⟩
    rcases List.mem_append.mp hw with hw | hw
    · exact Nat.le_trans (hle w hw) hlt.le
    · rw [List.mem_singleton.mp hw]
      exact hlt.le

structure Prints (b : Buf) (text : CString) (room : Nat) (zero : Nat → Prop) : Prop where
  noZero : 0 ∉ text
  start : text.take room ++ [0] <+: b
  zeros : ∀ n, b[n]? = some 0 ↔
    n = min room text.length ∨ min room text.length < n ∧ zero n

/-- A slot comes out as asked when the values fit. -/
theorem Prints.leaves_iff {b : Buf} {text : CString} {room : Nat} {zero : Nat → Prop}
    {ws : List CString} {asked : Option CString} (hb : Prints b text room zero)
    (h : ∀ w ∈ ws, 0 ∉ w) (hm : ws.getLast? = asked) :
    Leaves b (ws.map some) (asked.getD text) ↔ Fits text room zero asked ws := by
  cases asked with
  | none =>
    obtain rfl : ws = [] := List.getLast?_eq_none_iff.mp hm
    have htake : 0 ∉ text.take room := fun h0 => hb.noZero (List.mem_of_mem_take h0)
    have hread : cString b = some (text.take room) := cString_eq_some_iff.mpr ⟨htake, hb.start⟩
    simp only [List.map_nil, leaves_nil, Option.getD_none, Fits, hread, Option.some.injEq,
      List.take_eq_self_iff]
  | some v =>
    rw [Option.getD_some, leaves_last_iff h hm, hb.zeros, Fits]

theorem prints_terminated {text : CString} (h : 0 ∉ text) (room : Nat) :
    Prints (terminated (text.take room)) text room fun _ => False where
  noZero := h
  start := List.prefix_refl _
  zeros n := by
    have htake : 0 ∉ text.take room := fun h0 => h (List.mem_of_mem_take h0)
    rw [terminated, and_false, or_false, ← List.length_take]
    constructor
    · intro hn
      have hlt := (List.getElem?_eq_some_iff.mp hn).1
      rw [List.length_append, List.length_singleton] at hlt
      by_contra hne
      rw [List.getElem?_append_left (by omega)] at hn
      exact htake (List.mem_of_getElem? hn)
    · rintro rfl
      rw [List.getElem?_concat_length]

theorem prints_snprintf {text : CString} (h : 0 ∉ text) (mem : Nat → UInt8) :
    Prints (snprintf (malloc mem maxServiceIdSize) text) text 4 fun n => n ≤ 4 ∧ mem n = 0 where
  noZero := h
  start := List.prefix_append _ _
  zeros n := by
    have hlen : (malloc mem maxServiceIdSize).length = 5 := by
      rw [malloc, List.length_map, List.length_range]
      rfl
    have htake : 0 ∉ text.take 4 := fun h0 => h (List.mem_of_mem_take h0)
    have hmin : (text.take 4).length = min 4 text.length := List.length_take
    rw [snprintf, hlen, writeOver, show 5 - 1 = 4 from rfl]
    have hfull : (text.take 4 ++ [(0 : UInt8)]).length = min 4 text.length + 1 := by
      rw [List.length_append, hmin]
      rfl
    by_cases hn : n ≤ min 4 text.length
    · rw [List.getElem?_append_left (by omega)]
      constructor
      · intro h0
        refine .inl (Nat.le_antisymm hn (Nat.le_of_not_lt fun hlt => htake ?_))
        rw [List.getElem?_append_left (by omega)] at h0
        exact List.mem_of_getElem? h0
      · rintro (h0 | ⟨h0, -⟩)
        · rw [h0, ← hmin, List.getElem?_concat_length]
        · omega
    · rw [List.getElem?_append_right (by omega), List.getElem?_drop,
        Nat.add_sub_cancel' (by omega), malloc, List.getElem?_map]
      have hsplit : n = min 4 text.length ∨ min 4 text.length < n ∧ n ≤ 4 ∧ mem n = 0 ↔
          n ≤ 4 ∧ mem n = 0 := by
        rw [or_iff_right (by omega), and_iff_right (by omega)]
      rw [hsplit]
      by_cases h4 : n ≤ 4
      · rw [List.getElem?_range (show n < maxServiceIdSize by unfold maxServiceIdSize; omega)]
        simp [h4]
      · rw [List.getElem?_eq_none (by rw [List.length_range]; unfold maxServiceIdSize; omega)]
        simp [h4]

theorem zero_notMem_fmtD (i : Int) : 0 ∉ fmtD i := by
  have hdec : ∀ n, 0 ∉ decimal n := by
    intro n h0
    obtain ⟨ch, hch, h⟩ := List.mem_map.mp h0
    have hrange := Char.isDigit_iff_toNat.mp (Nat.isDigit_of_mem_toDigits (by decide) (by decide) hch)
    have hmod : ch.toUInt8.toNat = ch.toNat % 256 := UInt32.toNat_toUInt8 _
    have hnat : ch.toUInt8.toNat = 0 := by rw [h]; rfl
    have h0 : '0'.toNat = 48 := rfl
    have h9 : '9'.toNat = 57 := rfl
    omega
  cases i with
  | ofNat n => exact hdec n
  | negSucc n =>
    have hminus : (0 : UInt8) ∉ cstr "-" := by decide +kernel
    exact fun h0 => (List.mem_append.mp h0).elim hminus (hdec _)

/-! ## The two searches for the dashes -/

section
variable {α : Type} {d : α → Bool}

/-- Behind the first dash each further one moves the second index. -/
theorem foldl_dashStep (xs : List α) (k : Nat) {a : Nat} (b : Nat) (ha : a ≠ 0) :
    (xs.zipIdx k).foldl (dashStep d) (a, b) =
      (a, if xs.any d then k + (xs.length - xs.reverse.findIdx d) else b) := by
  induction xs using List.reverseRecOn with
  | nil => rfl
  | append_singleton xs x ih =>
    have hle : xs.reverse.findIdx d ≤ xs.length := by
      simpa using (List.findIdx_le_length : xs.reverse.findIdx d ≤ xs.reverse.length)
    rw [List.zipIdx_append, List.foldl_append, ih, List.zipIdx_singleton, List.foldl_cons,
      List.foldl_nil, dashStep, List.reverse_append, List.reverse_singleton,
      List.singleton_append, List.findIdx_cons, List.any_append, List.length_append,
      List.length_singleton]
    cases hx : d x with
    | true => simp [hx, ha]; omega
    | false => simp [hx]

theorem foldl_dashStep_none {xs : List α} (h : ∀ x ∈ xs, d x = false) (k : Nat)
    (acc : Nat × Nat) : (xs.zipIdx k).foldl (dashStep d) acc = acc := by
  induction xs generalizing k with
  | nil => rfl
  | cons x xs ih =>
    have hx := h x (List.mem_cons_self ..)
    rw [List.zipIdx_cons, List.foldl_cons, dashStep, if_neg (by rw [hx]; decide)]
    exact ih (fun y hy => h y (List.mem_cons_of_mem _ hy)) (k + 1)

/-- With two dashes the search finds the first and the last. -/
theorem dashIndices_eq {xs : List α} (h : 2 ≤ xs.countP d) :
    dashIndices d xs = (xs.findIdx d + 1, xs.length - 1 - xs.reverse.findIdx d + 1) := by
  obtain ⟨x, hfind⟩ : ∃ x, xs.find? d = some x :=
    Option.isSome_iff_exists.mp (List.find?_isSome.mpr (List.countP_pos_iff.mp (by omega)))
  obtain ⟨hx, pre, post, rfl, hpre⟩ := List.find?_eq_some_iff_append.mp hfind
  have hpre : ∀ y ∈ pre, d y = false := fun y hy => by simpa using hpre y hy
  have hpost : post.any d = true := by
    rw [List.countP_append, List.countP_cons_of_pos hx,
      List.countP_eq_zero.mpr fun y hy => by rw [hpre y hy]; decide] at h
    exact List.any_eq_true.mpr (List.countP_pos_iff.mp (by omega))
  have hfirst : (pre ++ x :: post).findIdx d = pre.length := by
    rw [List.findIdx_append, List.findIdx_eq_length.mpr hpre, if_neg (Nat.lt_irrefl _),
      List.findIdx_cons, hx]
    exact Nat.zero_add _
  have hlt : post.reverse.findIdx d < post.length := by
    obtain ⟨y, hy, hdy⟩ := List.any_eq_true.mp hpost
    rw [← List.length_reverse]
    exact List.findIdx_lt_length_of_exists ⟨y, List.mem_reverse.mpr hy, hdy⟩
  have hlast : (pre ++ x :: post).reverse.findIdx d = post.reverse.findIdx d := by
    rw [List.reverse_append, List.reverse_cons, List.append_assoc, List.findIdx_append,
      if_pos (by rw [List.length_reverse]; exact hlt)]
  have hfold : (pre ++ x :: post).zipIdx.foldl (dashStep d) (0, 0) =
      (pre.length + 1, pre.length + 1 + (post.length - post.reverse.findIdx d)) := by
    rw [List.zipIdx_append, List.foldl_append, foldl_dashStep_none hpre, List.zipIdx_cons,
      List.foldl_cons, dashStep, if_pos hx, if_pos rfl, Nat.zero_add,
      foldl_dashStep _ _ _ (Nat.succ_ne_zero _), if_pos hpost]
  unfold dashIndices
  rw [hfold, hfirst, hlast, List.length_append, List.length_cons]
  simp only [Prod.mk.injEq, true_and]
  rw [if_neg (by omega)]
  omega

end

theorem filter_span {a b n : Nat} (h : b ≤ n) (q : Nat → Bool) :
    (span a b).filter q = (List.range n).filter fun j => decide (a ≤ j ∧ j < b) && q j := by
  have hout : ∀ s m, (∀ j, s ≤ j → j < s + m → ¬ (a ≤ j ∧ j < b)) →
      (List.range' s m).filter (fun j => decide (a ≤ j ∧ j < b) && q j) = [] := by
    intro s m hj
    apply List.filter_eq_nil_iff.mpr
    intro j hmem
    rw [List.mem_range'_1] at hmem
    simp [hj j hmem.1 hmem.2]
  by_cases hab : a ≤ b
  · have hsplit : List.range n =
        List.range' 0 a ++ (List.range' a (b - a) ++ List.range' b (n - b)) := by
      have h1 : List.range' a (b - a) ++ List.range' b (n - b) = List.range' a (n - a) := by
        have hjoin := List.range'_append_1 (s := a) (m := b - a) (n := n - b)
        rw [Nat.add_sub_cancel' hab] at hjoin
        rw [hjoin]
        congr 1
        omega
      have h2 := List.range'_append_1 (s := 0) (m := a) (n := n - a)
      rw [Nat.zero_add, Nat.add_sub_cancel' (Nat.le_trans hab h)] at h2
      rw [h1, h2, List.range_eq_range']
    rw [hsplit, List.filter_append, List.filter_append, hout 0 a (by omega),
      hout b (n - b) (by omega), List.nil_append, List.append_nil]
    apply List.filter_congr
    intro j hj
    have hin : a ≤ j ∧ j < b := mem_span.mp hj
    simp [hin]
  · have hempty : span a b = [] := by
      rw [span, Nat.sub_eq_zero_of_le (by omega)]
      rfl
    rw [hempty, List.range_eq_range', hout 0 n (by omega)]
    rfl

/-! ## What reaches the slots -/

namespace CommandLine

theorem two_dashes (l : CommandLine) : 2 ≤ l.argv.countP dashed := by
  have hdash : [flagDash].countP dashed = 1 := by decide +kernel
  unfold argv
  simp only [List.countP_append, hdash]
  omega

theorem dashIndices_argv (l : CommandLine) :
    dashIndices (flagDash.isPrefixOf ·) l.argv = (l.firstDash + 1, l.lastDash + 1) :=
  dashIndices_eq l.two_dashes

theorem dash_lt (l : CommandLine) :
    l.firstDash < l.argv.length ∧ l.lastDash < l.argv.length ∧
      l.argv[l.lastDash]?.any dashed = true := by
  obtain ⟨t, ht, hd⟩ := List.countP_pos_iff.mp (Nat.lt_of_lt_of_le Nat.two_pos l.two_dashes)
  have hrev : l.argv.reverse.findIdx dashed < l.argv.reverse.length :=
    List.findIdx_lt_length_of_exists ⟨t, List.mem_reverse.mpr ht, hd⟩
  have hget := List.findIdx_getElem (w := hrev)
  rw [List.length_reverse] at hrev
  rw [List.getElem_reverse] at hget
  have hlast : l.lastDash < l.argv.length := by
    unfold lastDash
    omega
  refine ⟨List.findIdx_lt_length_of_exists ⟨t, ht, hd⟩, hlast, ?_⟩
  rw [List.getElem?_eq_getElem hlast, Option.any_some]
  exact hget

/-- A token that is looked at has another behind it, unless it is the last dash. -/
theorem looked_next (l : CommandLine) {p : Part} {j : Nat} (h : l.Looked p j)
    (hd : l.argv[j]?.any dashed = false) : j + 1 < l.argv.length := by
  obtain ⟨hfirst, hlast, hdash⟩ := l.dash_lt
  cases p with
  | eal => exact Nat.lt_of_le_of_lt h.2.1 hfirst
  | lib =>
    have hne : j ≠ l.lastDash := by
      rintro rfl
      rw [hd] at hdash
      cases hdash
    have := h.2.1
    omega

theorem not_dashed_of_flag {f t : CString} (hf : f.length = 2) (hne : f ≠ flagDash)
    (h : f.isPrefixOf t = true) : dashed t = false := by
  by_contra hd
  have hpre : f <+: t := List.isPrefixOf_iff_prefix.mp h
  have hdash : flagDash <+: t := List.isPrefixOf_iff_prefix.mp (by simpa [dashed] using hd)
  have hlen : flagDash.length = 2 := by decide +kernel
  exact hne ((List.prefix_iff_eq_take.mp hpre).trans
    (by rw [hf, ← hlen, ← List.prefix_iff_eq_take.mp hdash]))

theorem map_found (l : CommandLine) (p : Part) {f : CString} (hf : f.length = 2)
    (hne : f ≠ flagDash) : (l.found p f).map (l.argv[· + 1]?) = (l.copied p f).map some := by
  have hsome : ∀ j ∈ l.found p f, j + 1 < l.argv.length := by
    intro j hj
    have hmem := (List.mem_filter.mp hj).2
    rw [Bool.and_eq_true, decide_eq_true_eq, Option.any_eq_true] at hmem
    obtain ⟨hlook, t, ht, hpre⟩ := hmem
    exact l.looked_next hlook (by rw [ht, Option.any_some, not_dashed_of_flag hf hne hpre])
  unfold copied
  generalize l.found p f = js at hsome
  induction js with
  | nil => rfl
  | cons j js ih =>
    have hj := List.getElem?_eq_getElem (hsome j (List.mem_cons_self ..))
    rw [List.map_cons, List.filterMap_cons, hj, List.map_cons,
      ih fun i hi => hsome i (List.mem_cons_of_mem _ hi)]

theorem argv_noZero (l : CommandLine) {j : Nat} {w : CString} (h : l.argv[j]? = some w) :
    0 ∉ w := by
  have hmem := List.mem_of_getElem? h
  have hdash : (0 : UInt8) ∉ flagDash ∧ (0 : UInt8) ∉ cstr "-F" := by decide +kernel
  have htext := l.text
  simp only [argv, List.mem_append, List.mem_cons, List.not_mem_nil, or_false] at hmem htext
  grind

theorem copied_noZero (l : CommandLine) (p : Part) (f : CString) : ∀ w ∈ l.copied p f, 0 ∉ w := by
  intro w hw
  obtain ⟨j, -, hj⟩ := List.mem_filterMap.mp hw
  exact l.argv_noZero hj

end CommandLine

variable {c : NfConfig} {mem : Bool → Nat → UInt8} {l : CommandLine} {s : CString}

theorem valuesOf_eq {p : Part} {a b parity : Nat} (hb : b ≤ l.argv.length)
    (h : ∀ j, l.Looked p j ↔ a ≤ j ∧ j < b ∧ j % 2 = parity) (s : CString) :
    valuesOf l.argv parity (span a b) s = (l.found p s).map (l.argv[· + 1]?) := by
  rw [valuesOf, filter_span hb, CommandLine.found]
  congr 1
  apply List.filter_congr
  intro j hj
  rw [Bool.eq_iff_iff, Bool.and_eq_true, Bool.and_eq_true, decide_eq_true_iff, decide_eq_true_iff,
    decide_eq_true_iff, h]
  tauto

theorem copiesInto_eal (hc : c.corelist ≠ flagDash) {k : Nat} (hk : 2 ≤ k ∧ k < 7)
    (hs : (c.expected l)[k - 1]? = some s) :
    c.copiesInto l k = (l.found .eal s).map (l.argv[· + 1]?) := by
  have hat : c.onvmAt = 7 := if_neg hc
  unfold NfConfig.copiesInto
  simp only [hs, hat, if_pos hk, l.dashIndices_argv, Nat.add_sub_cancel]
  exact valuesOf_eq (Nat.le_of_lt l.dash_lt.1) (fun j => Iff.rfl) s

theorem copiesInto_lib (hc : c.corelist ≠ flagDash) {k : Nat} (hk : 7 < k ∧ k ≤ c.nfAt)
    (hs : (c.expected l)[k - 1]? = some s) :
    c.copiesInto l k = (l.found .lib s).map (l.argv[· + 1]?) := by
  have hat : c.onvmAt = 7 := if_neg hc
  unfold NfConfig.copiesInto
  simp only [hs, hat, if_neg (show ¬ (2 ≤ k ∧ k < 7) by omega), if_pos hk, l.dashIndices_argv]
  refine valuesOf_eq l.dash_lt.2.1 (fun j => ?_) s
  unfold CommandLine.Looked
  omega

theorem copiesInto_none (hc : c.corelist ≠ flagDash) {k : Nat} (hk : k < 2 ∨ k = 7) :
    c.copiesInto l k = [] := by
  have hat : c.onvmAt = 7 := if_neg hc
  unfold NfConfig.copiesInto
  simp only [hat, if_neg (show ¬ (2 ≤ k ∧ k < 7) by omega),
    if_neg (show ¬ (7 < k ∧ k ≤ c.nfAt) by omega)]
  split <;> rfl

/-- Nothing that is looked at in the EAL part starts with two dashes. -/
theorem found_procType : l.found .eal procTypeSecondary = [] := by
  apply List.filter_eq_nil_iff.mpr
  intro j hj
  rw [Bool.and_eq_true, decide_eq_true_eq, not_and]
  intro hlook hany
  rw [Option.any_eq_true] at hany
  obtain ⟨t, ht, hpre⟩ := hany
  have hproc : flagDash <+: procTypeSecondary := by decide +kernel
  have hdash : dashed t = true :=
    List.isPrefixOf_iff_prefix.mpr (hproc.trans (List.isPrefixOf_iff_prefix.mp hpre))
  obtain ⟨hlt, hget⟩ := List.getElem?_eq_some_iff.mp ht
  have hnot : dashed l.argv[j] = false := List.not_of_lt_findIdx hlook.2.1
  rw [hget, hdash] at hnot
  cases hnot

/-! ## The slots -/

theorem leaves_kept (h : 0 ∉ s) : Leaves (terminated s) [] s := leaves_nil.mpr (cString_terminated h)

theorem noZero_fixed : 0 ∉ flagL ∧ 0 ∉ flagN ∧ 0 ∉ flagR ∧ 0 ∉ procTypeSecondary ∧ 0 ∉ flagDash := by
  decide +kernel

theorem flag_lengths : flagL.length = 2 ∧ flagN.length = 2 ∧ flagR.length = 2 ∧
    flagL ≠ flagDash ∧ flagN ≠ flagDash ∧ flagR ≠ flagDash := by decide +kernel

section
variable (hm : Matched c l)
include hm

theorem Matched.leaves_eal {k room : Nat} {f text : CString} {b : Buf} {zero : Nat → Prop}
    (hk : 2 ≤ k ∧ k < 7) (hf : f ∈ [flagL, flagN]) (hs : (c.expected l)[k - 1]? = some f)
    (hb : Prints b text room zero) :
    Leaves b (c.copiesInto l k) ((given f l.eal).getD text) ↔
      Fits text room zero (given f l.eal) (l.copied .eal f) := by
  obtain ⟨hl, hn, -, hl', hn', -⟩ := flag_lengths
  have hflag : f.length = 2 ∧ f ≠ flagDash := by
    rcases List.mem_cons.mp hf with rfl | hf
    · exact ⟨hl, hl'⟩
    · rw [List.mem_singleton.mp hf]
      exact ⟨hn, hn'⟩
  rw [copiesInto_eal hm.corelist hk hs, l.map_found _ hflag.1 hflag.2]
  exact hb.leaves_iff (l.copied_noZero _ _) (hm.eal f hf)

theorem Matched.leaves_lib {k room : Nat} {f text : CString} {b : Buf} {zero : Nat → Prop}
    (hk : 7 < k ∧ k ≤ c.nfAt) (hf : f.length = 2 ∧ f ≠ flagDash)
    (hlast : (l.copied .lib f).getLast? = given f l.lib) (hs : (c.expected l)[k - 1]? = some f)
    (hb : Prints b text room zero) :
    Leaves b (c.copiesInto l k) ((given f l.lib).getD text) ↔
      Fits text room zero (given f l.lib) (l.copied .lib f) := by
  rw [copiesInto_lib hm.corelist hk hs, l.map_found _ hf.1 hf.2]
  exact hb.leaves_iff (l.copied_noZero _ _) hlast

theorem Matched.copiesInto_value {k : Nat} (p : Part)
    (hk : match p with | .eal => 2 ≤ k ∧ k < 7 | .lib => 7 < k ∧ k ≤ c.nfAt)
    (hs : (c.expected l)[k - 1]? = some s) (hv : s ∈ c.asked l p) : c.copiesInto l k = [] := by
  have hnone := hm.values p s hv
  cases p with
  | eal => rw [copiesInto_eal hm.corelist hk hs, hnone, List.map_nil]
  | lib => rw [copiesInto_lib hm.corelist hk hs, hnone, List.map_nil]

theorem Matched.leaves_iff :
    (Leaves (terminated c.corelist) (c.copiesInto l 2) ((given flagL l.eal).getD c.corelist) ↔
      Fits c.corelist c.corelist.length (fun _ => False) (given flagL l.eal)
        (l.copied .eal flagL)) ∧
    (Leaves (terminated ((fmtD c.memoryChannels).take 2)) (c.copiesInto l 4)
        ((given flagN l.eal).getD (fmtD c.memoryChannels)) ↔
      Fits (fmtD c.memoryChannels) 2 (fun _ => False) (given flagN l.eal)
        (l.copied .eal flagN)) ∧
    (Leaves (snprintf (malloc (mem false) maxServiceIdSize) (fmtD c.serviceId)) (c.copiesInto l 8)
        ((given flagR l.lib).getD (fmtD c.serviceId)) ↔
      Fits (fmtD c.serviceId) 4 (fun n => n ≤ 4 ∧ mem false n = 0) (given flagR l.lib)
        (l.copied .lib flagR)) := by
  have hcore := prints_terminated c.text c.corelist.length
  rw [List.take_length] at hcore
  have hnf : 8 ≤ c.nfAt := by
    unfold NfConfig.nfAt
    rw [if_neg hm.corelist]
    split <;> omega
  obtain ⟨-, -, hr, -, -, hr'⟩ := flag_lengths
  exact ⟨hm.leaves_eal (by decide) (by simp) rfl hcore,
    hm.leaves_eal (by decide) (by simp) rfl (prints_terminated (zero_notMem_fmtD _) 2),
    hm.leaves_lib ⟨by decide, hnf⟩ ⟨hr, hr'⟩ hm.service rfl
      (prints_snprintf (zero_notMem_fmtD _) _)⟩

theorem Matched.leaves_fixed : Leaves (terminated flagL) (c.copiesInto l 1) flagL ∧
    Leaves (terminated flagN) (c.copiesInto l 3) flagN ∧
    Leaves (terminated procTypeSecondary) (c.copiesInto l 5) procTypeSecondary ∧
    Leaves (terminated flagDash) (c.copiesInto l 6) flagDash ∧
    Leaves (terminated flagR) (c.copiesInto l 7) flagR := by
  obtain ⟨hl, hn, hr, hp, hd⟩ := noZero_fixed
  have h6 : c.copiesInto l 6 = [] := by
    rw [copiesInto_eal (s := procTypeSecondary) hm.corelist (by decide) rfl, found_procType,
      List.map_nil]
  rw [copiesInto_none hm.corelist (.inl (by decide)), copiesInto_none hm.corelist (.inr rfl), h6,
    hm.copiesInto_value (k := 3) .eal ⟨by decide, by decide⟩ rfl (List.mem_cons_self ..),
    hm.copiesInto_value (k := 5) .eal ⟨by decide, by decide⟩ rfl
      (List.mem_cons_of_mem _ (List.mem_cons_self ..))]
  exact ⟨leaves_kept hl, leaves_kept hn, leaves_kept hp, leaves_kept hd, leaves_kept hr⟩

theorem Matched.leaves_instance {i : Int} (hi : c.instanceId = some i) :
    Leaves (terminated flagN) (c.copiesInto l 9) flagN ∧
    (Leaves (snprintf (malloc (mem true) maxServiceIdSize) (fmtD i)) (c.copiesInto l 10)
        ((given flagN l.lib).getD (fmtD i)) ↔
      Fits (fmtD i) 4 (fun n => n ≤ 4 ∧ mem true n = 0) (given flagN l.lib)
        (l.copied .lib flagN)) ∧
    c.copiesInto l 11 = [] := by
  obtain ⟨-, hn, -, -, hn', -⟩ := flag_lengths
  have hnf : c.nfAt = 11 := by
    unfold NfConfig.nfAt
    rw [if_neg hm.corelist, hi, Option.isSome_some, if_pos rfl]
  have harg : c.instanceArg l = some ((given flagN l.lib).getD (fmtD i)) := by
    unfold NfConfig.instanceArg
    rw [hi]
    cases given flagN l.lib <;> rfl
  have h9 : (c.expected l)[9]? = some flagN := by
    unfold NfConfig.expected
    rw [harg]
    rfl
  have h10 : (c.expected l)[10]? = some ((given flagN l.lib).getD (fmtD i)) := by
    unfold NfConfig.expected
    rw [harg]
    rfl
  have hasked : (given flagN l.lib).getD (fmtD i) ∈ c.asked l .lib := by
    unfold NfConfig.asked
    rw [harg]
    exact List.mem_cons_of_mem _ (List.mem_singleton_self _)
  refine ⟨?_, hm.leaves_lib ⟨by decide, by omega⟩ ⟨hn, hn'⟩ (hm.instanceId (by rw [hi]; nofun)) h9
    (prints_snprintf (zero_notMem_fmtD _) _), ?_⟩
  · rw [hm.copiesInto_value (k := 9) .lib ⟨by decide, by omega⟩ rfl (List.mem_cons_self ..)]
    exact leaves_kept noZero_fixed.2.1
  · exact hm.copiesInto_value (k := 11) .lib ⟨by decide, by omega⟩ h10 hasked

/-- The slots that are there whether an instance ID is configured or not. -/
theorem Matched.slots_iff :
    (∀ k, 1 ≤ k → k < 9 → ∀ b ∈ (c.vector mem l.prog)[k]?, ∀ e ∈ (c.expected l)[k]?,
      Leaves b (c.copiesInto l k) e) ↔
    Fits c.corelist c.corelist.length (fun _ => False) (given flagL l.eal)
      (l.copied .eal flagL) ∧
    Fits (fmtD c.memoryChannels) 2 (fun _ => False) (given flagN l.eal) (l.copied .eal flagN) ∧
    Fits (fmtD c.serviceId) 4 (fun n => n ≤ 4 ∧ mem false n = 0) (given flagR l.lib)
      (l.copied .lib flagR) := by
  obtain ⟨hcore, hchan, hserv⟩ := @leaves_iff c mem l hm
  obtain ⟨h1, h3, h5, h6, h7⟩ := hm.leaves_fixed
  constructor
  · intro h
    exact ⟨hcore.mp (h 2 (by decide) (by decide) _ rfl _ rfl),
      hchan.mp (h 4 (by decide) (by decide) _ rfl _ rfl),
      hserv.mp (h 8 (by decide) (by decide) _ rfl _ rfl)⟩
  · rintro ⟨h2, h4, h8⟩ k hk hlt b hb e he
    match k, hk, hlt with
    | 1, _, _ => cases hb; cases he; exact h1
    | 2, _, _ => cases hb; cases he; exact hcore.mpr h2
    | 3, _, _ => cases hb; cases he; exact h3
    | 4, _, _ => cases hb; cases he; exact hchan.mpr h4
    | 5, _, _ => cases hb; cases he; exact h5
    | 6, _, _ => cases hb; cases he; exact h6
    | 7, _, _ => cases hb; cases he; exact h7
    | 8, _, _ => cases hb; cases he; exact hserv.mpr h8

/-- Slot by slot, what is copied fits. -/
theorem Matched.merges_iff : MergesRight c mem l ↔ ValuesFit c mem l := by
  have hslots := @slots_iff c mem l hm
  cases hi : c.instanceId with
  | none =>
    have hlen : (c.vector mem l.prog).length = 9 := by
      rw [NfConfig.vector, hi]
      rfl
    have hnf : c.nfAt = 9 := by
      unfold NfConfig.nfAt
      rw [if_neg hm.corelist, hi]
      rfl
    constructor
    · intro h
      obtain ⟨h2, h4, h8⟩ := hslots.mp fun k hk _ => h.slot k hk
      exact ⟨h.instance_slot, h2, h4, h8, fun i h => by rw [hi] at h; cases h⟩
    · intro h
      refine ⟨h.instance_slot, fun k hk b hb => ?_, ?_⟩
      · have hlt := (List.getElem?_eq_some_iff.mp hb).1
        exact hslots.mpr ⟨h.corelist, h.channels, h.service⟩ k hk (hlen ▸ hlt) b hb
      · rw [hlen]
        exact hm.copiesInto_value (k := 9) .lib ⟨by decide, by omega⟩ rfl (List.mem_cons_self ..)
  | some i =>
    obtain ⟨h9, h10, hbehind⟩ := @leaves_instance c mem l hm i hi
    have hlen : (c.vector mem l.prog).length = 11 := by
      rw [NfConfig.vector, hi]
      rfl
    have hexp : (c.expected l)[9]? = some flagN ∧
        (c.expected l)[10]? = some ((given flagN l.lib).getD (fmtD i)) := by
      unfold NfConfig.expected NfConfig.instanceArg
      rw [hi]
      cases given flagN l.lib <;> exact ⟨rfl, rfl⟩
    have hget : (c.vector mem l.prog)[9]? = some (terminated flagN) ∧
        (c.vector mem l.prog)[10]? =
          some (snprintf (malloc (mem true) maxServiceIdSize) (fmtD i)) := by
      rw [NfConfig.vector, hi]
      exact ⟨rfl, rfl⟩
    constructor
    · intro h
      obtain ⟨h2, h4, h8⟩ := hslots.mp fun k hk _ => h.slot k hk
      refine ⟨h.instance_slot, h2, h4, h8, fun i' hi' => ?_⟩
      obtain rfl : i' = i := Option.some.inj (hi'.symm.trans hi)
      exact h10.mp (h.slot 10 (by decide) _ hget.2 _ hexp.2)
    · intro h
      refine ⟨h.instance_slot, fun k hk b hb e he => ?_, hlen ▸ hbehind⟩
      have hlt := (List.getElem?_eq_some_iff.mp hb).1
      rw [hlen] at hlt
      by_cases hk9 : k < 9
      · exact hslots.mpr ⟨h.corelist, h.channels, h.service⟩ k hk hk9 b hb e he
      · obtain rfl | rfl : k = 9 ∨ k = 10 := by omega
        · obtain rfl := Option.some.inj (hget.1.symm.trans hb)
          obtain rfl := Option.some.inj (hexp.1.symm.trans he)
          exact h9
        · obtain rfl := Option.some.inj (hget.2.symm.trans hb)
          obtain rfl := Option.some.inj (hexp.2.symm.trans he)
          exact h10.mpr (h.instanceId i hi)

end

/-- **The arguments of an NF.** Where the flags stand so that the merge finds those that
were given and no others, the call gives the vector with the overrides exactly when an
instance ID that is given has a slot, and every value fits the text it is written over. -/
theorem argList_iff (hm : Matched c l) : Overridden c mem l ↔ ValuesFit c mem l :=
  (overridden_iff_merges c mem l).trans hm.merges_iff

/-- Anywhere else a slot comes out right by chance: what was copied into it last is the
start of the text asked for. -/
theorem Overridden.last_copied (h : Overridden c mem l) {k : Nat} (hk : 1 ≤ k) {b : Buf}
    (hb : (c.vector mem l.prog)[k]? = some b) {e w : CString} (he : (c.expected l)[k]? = some e)
    (hw : (c.copiesInto l k).reduceOption.getLast? = some w) : w <+: e := by
  obtain ⟨-, hread⟩ := ((overridden_iff_merges c mem l).mp h).slot k hk b hb e he
  obtain ⟨ws, hws⟩ := List.getLast?_eq_some_iff.mp hw
  have hw0 : 0 ∉ w := by
    have hmem : some w ∈ c.copiesInto l k :=
      List.reduceOption_mem_iff.mp (hws ▸ List.mem_append_right _ (List.mem_singleton_self w))
    simp only [NfConfig.copiesInto, l.dashIndices_argv] at hmem
    split at hmem
    · cases hmem
    · split at hmem
      · obtain ⟨j, -, hj⟩ := List.mem_map.mp hmem
        exact l.argv_noZero hj
      · split at hmem
        · obtain ⟨j, -, hj⟩ := List.mem_map.mp hmem
          exact l.argv_noZero hj
        · cases hmem
  rw [hws, List.foldl_append, List.foldl_cons, List.foldl_nil, writeOver] at hread
  obtain ⟨-, hpre⟩ := cString_eq_some_iff.mp hread
  -- of the value and the text with its terminator, one is the start of the other
  rcases List.prefix_or_prefix_of_prefix hpre (List.prefix_append w _) with hle | hle
  · exact absurd (hle.subset (by simp)) hw0
  · rcases List.prefix_concat_iff.mp hle with rfl | hle
    · exact absurd (by simp) hw0
    · exact hle

/-- Cores 4, 3 channels, service 1, instance 3. -/
def fourThreeOne : NfConfig where
  corelist := cstr "4"
  memoryChannels := 3
  serviceId := 1
  instanceId := some 3
  text := by decide +kernel

def plainLine : CommandLine where
  prog := cstr "prog"
  file := cstr "f"
  eal := [flagL, cstr "5", flagN, cstr "2"]
  lib := [flagR, cstr "2", flagN, cstr "7"]
  nf := []
  text := by decide +kernel
  named := by decide +kernel
  eal_dash := by decide +kernel
  lib_dash := by decide +kernel

theorem matched_plainLine : Matched fourThreeOne plainLine where
  corelist := by decide +kernel
  eal := by decide +kernel
  service := by decide +kernel
  instanceId _ := by decide +kernel
  values := fun p => match p with
    | .eal => by decide +kernel
    | .lib => by decide +kernel

theorem argList_iff_plainLine : Overridden fourThreeOne (fun _ _ => 0) plainLine :=
  (argList_iff matched_plainLine).mpr
    ⟨nofun, by decide +kernel, by decide +kernel, by decide +kernel, fun i hi => by
      obtain rfl := Option.some.inj hi
      decide +kernel⟩

def secondaryLine : CommandLine where
  prog := cstr "prog"
  file := cstr "f"
  eal := [cstr "-l", cstr "5", cstr "-n", cstr "2", procTypeSecondary]
  lib := [flagR, cstr "2"]
  nf := []
  text := by decide +kernel
  named := by decide +kernel
  eal_dash := by decide +kernel
  lib_dash := by decide +kernel

/-- `--proc-type=secondary` is the first dash, the NF_LIB part then begins with
the separator and its tokens stand at the wrong parity: the NF keeps service 1. -/
theorem secondary_keeps_service : ¬ Overridden fourThreeOne (fun _ _ => 0) secondaryLine := by
  rintro ⟨r, hr, hreads⟩
  have hrun : (onvmConfigCreateNfArgList fourThreeOne.json (fun _ _ => 0) secondaryLine.argv).map
      (·.map fun r => r.argv[8]?.bind cString) = some (some (some (cstr "1"))) := by
    decide +kernel
  have hlen : 8 < (fourThreeOne.expected secondaryLine).length := by decide +kernel
  have hwant : (fourThreeOne.expected secondaryLine)[8]? = some (cstr "2") := by decide +kernel
  rw [hr, Option.map_some, Option.map_some, Option.some.injEq, Option.some.injEq,
    hreads.2 8 (by decide) hlen, hwant, Option.some.injEq] at hrun
  exact absurd hrun (by decide +kernel)

end Onvm.Nflib

import Onvm.Afxdp.Args

/-!
# Arguments of an NF from its configuration

`onvm_config_create_nf_arg_list` writes the argument vector of an NF out of a
JSON configuration and then merges the command line into it: a token that
starts with the text of a slot has the token behind it copied into the next
slot, in place and without its terminator. The two halves of the command line
are found by the tokens that start with two dashes, of which
`--proc-type=secondary` is one, and the tokens of a half by the parity of their
position. The two nested loops are passes over increasing slots, each of which
writes one slot and reads the one before it, so the values asked for come out
when each slot comes out by itself (`overridden_iff_merges`).
-/

namespace Onvm.Nflib

open Onvm.Afxdp (CString cstr)

/-! ## Strings in memory -/

/-- An allocated block, as long as it was allocated. -/
abbrev Buf := List UInt8

/-- What the string functions read of a block; without a terminator they leave it. -/
def cString (b : Buf) : Option CString :=
  if 0 ∈ b then some (b.takeWhile (· ≠ 0)) else none

/-- A block of `strlenn(s)` bytes with the string and its terminator. -/
def terminated (s : CString) : Buf := s ++ [0]

def writeOver (b : Buf) (v : CString) : Buf := v ++ b.drop v.length

/-- `rte_memcpy(b, v, strlen(v))`, which must not leave the block. -/
def rteMemcpyStr (b : Buf) (v : CString) : Option Buf :=
  if v.length ≤ b.length then some (writeOver b v) else none

def snprintf (b : Buf) (s : CString) : Buf :=
  writeOver b (s.take (b.length - 1) ++ [0])

def decimal (n : Nat) : CString := (Nat.toDigits 10 n).map Char.toUInt8

def fmtD : Int → CString
  | .ofNat n => decimal n
  | .negSucc n => cstr "-" ++ decimal (n + 1)

/-- A new block: what `mem` happens to hold. -/
def malloc (mem : Nat → UInt8) (n : Nat) : Buf := (List.range n).map mem

def flagN : CString := cstr "-n"
def flagR : CString := cstr "-r"
def flagL : CString := cstr "-l"
def flagDash : CString := cstr "--"
def procTypeSecondary : CString := cstr "--proc-type=secondary"

def maxServiceIdSize : Nat := 5

/-! ## The configuration -/

structure DpdkConfig where
  corelist : Option CString
  memoryChannels : Option Int

structure OnvmConfig where
  serviceid : Option Int
  instanceid : Option Int

structure JsonConfig where
  dpdk : Option DpdkConfig
  onvm : Option OnvmConfig

/-- `onvm_config_create_dpdk_args`. `none` is the access to a missing corelist,
`some none` the return value -1. The channels are printed into three bytes. -/
def onvmConfigCreateDpdkArgs (d : DpdkConfig) : Option (Option (List Buf)) := do
  let core ← d.corelist
  match d.memoryChannels with
  | none => some none
  | some channels =>
    some (some [terminated flagL, terminated core, terminated flagN,
      terminated ((fmtD channels).take 2), terminated procTypeSecondary, terminated flagDash])

/-- `onvm_config_create_onvm_args`; `mem` is what the blocks of the two numbers
hold before they are printed. -/
def onvmConfigCreateOnvmArgs (o : OnvmConfig) (mem : Bool → Nat → UInt8) : Option (List Buf) := do
  let service ← o.serviceid
  let r := [terminated flagR, snprintf (malloc (mem false) maxServiceIdSize) (fmtD service)]
  match o.instanceid with
  | none => some r
  | some inst =>
    some (r ++ [terminated flagN, snprintf (malloc (mem true) maxServiceIdSize) (fmtD inst)])

/-! ## The merge -/

/-- One turn of the searches for the dashes: the position behind the first, then
the position behind every later one. -/
def dashStep {α : Type} (isDash : α → Bool) (acc : Nat × Nat) (x : α × Nat) : Nat × Nat :=
  if isDash x.1 then if acc.1 = 0 then (x.2 + 1, acc.2) else (acc.1, x.2 + 1) else acc

/-- The positions behind the first and behind the last of the tokens that
separate the parts; with less than two, the parts end with the vector. -/
def dashIndices {α : Type} (isDash : α → Bool) (argv : List α) : Nat × Nat :=
  let (first, last) := argv.zipIdx.foldl (dashStep isDash) (0, 0)
  (first, if last = 0 then argv.length else last)

def mergeArg (argv : List CString) (parity i : Nat) (new : List Buf) (j : Nat) :
    Option (List Buf) := do
  let flag ← new[i]?.bind cString
  let arg ← argv[j]?
  if flag.isPrefixOf arg ∧ j % 2 = parity then
    let value ← argv[j + 1]?
    let slot ← new[i + 1]?
    let slot ← rteMemcpyStr slot value
    some (new.set (i + 1) slot)
  else some new

/-- The indices of `for (i = a; i < b; ++i)`. -/
def span (a b : Nat) : List Nat := List.range' a (b - a)

def mergeArgs (argv : List CString) (new : List Buf) : Option (List Buf) := do
  let (onvmOld, nfOld) := dashIndices (flagDash.isPrefixOf ·) argv
  let (onvmNew, nfNew) := dashIndices (fun b => cString b = some flagDash) new
  let new ← (span 1 (onvmNew - 1)).foldlM
    (fun new i => (span 3 (onvmOld - 1)).foldlM (mergeArg argv 1 i) new) new
  (span onvmNew nfNew).foldlM
    (fun new i => (span onvmOld nfOld).foldlM (mergeArg argv 0 i) new) new

/-- The new vector, and the strings of the old one after it. -/
structure NfArgs where
  argv : List Buf
  old : List CString

/-- `onvm_config_create_nf_arg_list`. The first slot is the program name without
a terminator; allocations succeed. -/
def onvmConfigCreateNfArgList (config : JsonConfig) (mem : Bool → Nat → UInt8)
    (argv : List CString) : Option (Option NfArgs) := do
  match config.dpdk, config.onvm with
  | some d, some o =>
    match ← onvmConfigCreateDpdkArgs d, onvmConfigCreateOnvmArgs o mem with
    | some dpdkArgv, some onvmArgv => do
      let prog ← argv.head?
      let new ← mergeArgs argv (prog :: (dpdkArgv ++ onvmArgv))
      let nfOld := (dashIndices (flagDash.isPrefixOf ·) argv).2
      some (some ⟨new, (argv.take nfOld).map (fun _ => []) ++ argv.drop nfOld⟩)
    | _, _ => some none
  | _, _ => some none

/-! ## What is asked for -/

structure NfConfig where
  corelist : CString
  memoryChannels : Int
  serviceId : Int
  instanceId : Option Int
  text : 0 ∉ corelist

def NfConfig.json (c : NfConfig) : JsonConfig where
  dpdk := some ⟨some c.corelist, some c.memoryChannels⟩
  onvm := some ⟨some c.serviceId, c.instanceId⟩

/-- A command line `prog -F file [EAL args] -- [NF_LIB args] -- [NF args]`. -/
structure CommandLine where
  prog : CString
  file : CString
  eal : List CString
  lib : List CString
  nf : List CString
  text : ∀ t ∈ [prog, file] ++ eal ++ lib ++ nf, 0 ∉ t
  named : prog ≠ [] ∧ prog.head? ≠ flagDash.head?
  eal_dash : flagDash ∉ eal
  lib_dash : flagDash ∉ lib

def CommandLine.argv (l : CommandLine) : List CString :=
  [l.prog, cstr "-F", l.file] ++ l.eal ++ [flagDash] ++ l.lib ++ [flagDash] ++ l.nf

/-- The value of a flag within one part: the token behind its last occurrence. -/
def given (flag : CString) (part : List CString) : Option CString :=
  ((part.zip part.tail).filter fun p => decide (p.1 = flag)).getLast?.map (·.2)

def NfConfig.instanceArg (c : NfConfig) (l : CommandLine) : Option CString :=
  (given flagN l.lib).or (c.instanceId.map fmtD)

/-- The strings asked for: a flag given in a part overrides the configuration in
that part, and nothing else does. -/
def NfConfig.expected (c : NfConfig) (l : CommandLine) : List CString :=
  [l.prog, flagL, (given flagL l.eal).getD c.corelist,
    flagN, (given flagN l.eal).getD (fmtD c.memoryChannels), procTypeSecondary, flagDash,
    flagR, (given flagR l.lib).getD (fmtD c.serviceId)] ++
  match c.instanceArg l with
  | some v => [flagN, v]
  | none => []

/-- A vector holds the strings, up to the program name. -/
def Reads (new : List Buf) (strs : List CString) : Prop :=
  new.length = strs.length ∧ ∀ k, 1 ≤ k → k < strs.length → new[k]?.bind cString = strs[k]?

/-- The call returns 0 with the vector asked for. -/
def Overridden (c : NfConfig) (mem : Bool → Nat → UInt8) (l : CommandLine) : Prop :=
  ∃ r, onvmConfigCreateNfArgList c.json mem l.argv = some (some r) ∧ Reads r.argv (c.expected l)

/-! ## Writing into a slot -/

/-- What is left of a block when the values have been written over it in turn:
each fits into it, and up to the first terminator it reads `e`. -/
def Leaves (b : Buf) (values : List (Option CString)) (e : CString) : Prop :=
  (∀ v ∈ values, ∃ s ∈ v, s.length ≤ b.length) ∧
    cString (values.reduceOption.foldl writeOver b) = some e

theorem length_writeOver {b : Buf} {v : CString} (h : v.length ≤ b.length) :
    (writeOver b v).length = b.length := by
  rw [writeOver, List.length_append, List.length_drop]
  omega

/-- The copies into one slot, the first that does not fit ending it all. -/
def writeAll (b : Buf) (values : List (Option CString)) : Option Buf :=
  values.foldlM (fun b v => v.bind (rteMemcpyStr b)) b

theorem writeAll_eq_some {b b' : Buf} {values : List (Option CString)} :
    writeAll b values = some b' ↔
      (∀ v ∈ values, ∃ s ∈ v, s.length ≤ b.length) ∧
        b' = values.reduceOption.foldl writeOver b := by
  induction values generalizing b with
  | nil => simp [writeAll, eq_comm]
  | cons v values ih =>
    cases v with
    | none => simp [writeAll]
    | some s =>
      by_cases hs : s.length ≤ b.length
      · have hcons : writeAll b (some s :: values) = writeAll (writeOver b s) values := by
          simp [writeAll, rteMemcpyStr, hs]
        rw [hcons, ih, length_writeOver hs, List.reduceOption_cons_of_some, List.foldl_cons]
        simp [hs]
      · have hcons : writeAll b (some s :: values) = none := by
          simp [writeAll, rteMemcpyStr, hs]
        rw [hcons]
        simp [hs]

theorem leaves_iff {b : Buf} {values : List (Option CString)} {e : CString} :
    (∃ b', writeAll b values = some b' ∧ cString b' = some e) ↔ Leaves b values e := by
  constructor
  · rintro ⟨b', hw, hb'⟩
    obtain ⟨hfit, rfl⟩ := writeAll_eq_some.mp hw
    exact ⟨hfit, hb'⟩
  · rintro ⟨hfit, he⟩
    exact ⟨_, writeAll_eq_some.mpr ⟨hfit, rfl⟩, he⟩

theorem leaves_nil {b : Buf} {e : CString} : Leaves b [] e ↔ cString b = some e := by
  simp [Leaves]

/-! ## One pass and the passes in order -/

structure Pass where
  i : Nat
  parity : Nat
  js : List Nat

variable {argv : List CString} {new : List Buf} {p : Pass} {s : CString}

def Pass.run (p : Pass) (argv : List CString) (new : List Buf) : Option (List Buf) :=
  p.js.foldlM (mergeArg argv p.parity p.i) new

/-- The values behind the tokens that start with `s`, at the positions of the
parity. The vector may end before a value. -/
def valuesOf (argv : List CString) (parity : Nat) (js : List Nat) (s : CString) :
    List (Option CString) :=
  (js.filter fun j => decide (argv[j]?.any (s.isPrefixOf ·) ∧ j % 2 = parity)).map (argv[· + 1]?)

theorem valuesOf_cons {parity j : Nat} {js : List Nat} :
    valuesOf argv parity (j :: js) s =
      (if argv[j]?.any (s.isPrefixOf ·) ∧ j % 2 = parity then [argv[j + 1]?] else []) ++
        valuesOf argv parity js s := by
  unfold valuesOf
  rw [List.filter_cons]
  split <;> rename_i h
  · rw [if_pos (of_decide_eq_true h)]
    rfl
  · rw [if_neg (by simpa using h)]
    rfl

/-- A turn writes to the slot behind the one it reads and to no other. -/
theorem mergeArg_frame {parity i j k : Nat} {r : List Buf}
    (h : mergeArg argv parity i new j = some r) (hk : k ≠ i + 1) :
    r[k]? = new[k]? ∧ r.length = new.length := by
  simp only [mergeArg, Option.bind_eq_bind, Option.bind_eq_some_iff] at h
  obtain ⟨flag, -, arg, -, h⟩ := h
  split at h
  · simp only [Option.bind_eq_some_iff, Option.some.injEq] at h
    obtain ⟨value, -, slot, -, slot', -, rfl⟩ := h
    exact ⟨List.getElem?_set_ne (Ne.symm hk), List.length_set⟩
  · cases h
    exact ⟨rfl, rfl⟩

theorem Pass.run_frame {r : List Buf} {k : Nat} (h : p.run argv new = some r)
    (hk : k ≠ p.i + 1) : r[k]? = new[k]? ∧ r.length = new.length := by
  unfold Pass.run at h
  generalize p.js = js at h
  induction js generalizing new with
  | nil =>
    cases h
    exact ⟨rfl, rfl⟩
  | cons j js ih =>
    simp only [List.foldlM_cons, Option.bind_eq_bind, Option.bind_eq_some_iff] at h
    obtain ⟨new', hj, h⟩ := h
    obtain ⟨hslot, hlen⟩ := mergeArg_frame hj hk
    exact ⟨(ih h).1.trans hslot, (ih h).2.trans hlen⟩

/-- A turn on a slot that reads `s`. -/
theorem mergeArg_eq {parity i j : Nat} (hs : new[i]?.bind cString = some s)
    (hj : j < argv.length) : mergeArg argv parity i new j =
      if argv[j]?.any (s.isPrefixOf ·) ∧ j % 2 = parity then
        argv[j + 1]?.bind fun v => new[i + 1]?.bind fun b =>
          (rteMemcpyStr b v).map (new.set (i + 1) ·)
      else some new := by
  simp only [mergeArg, hs, List.getElem?_eq_getElem hj, Option.bind_eq_bind, Option.bind_some,
    Option.any_some, Option.map_eq_bind]
  rfl

/-- With a slot behind it, a pass writes the values over that slot. -/
theorem Pass.run_slot {b : Buf} (hs : new[p.i]?.bind cString = some s)
    (hb : new[p.i + 1]? = some b) (hjs : ∀ j ∈ p.js, j < argv.length) :
    p.run argv new =
      (writeAll b (valuesOf argv p.parity p.js s)).map (new.set (p.i + 1) ·) := by
  unfold Pass.run
  generalize p.js = js at hjs ⊢
  induction js generalizing new b with
  | nil =>
    obtain ⟨hlt, rfl⟩ := List.getElem?_eq_some_iff.mp hb
    simp [valuesOf, writeAll]
  | cons j js ih =>
    have hlt : p.i + 1 < new.length := (List.getElem?_eq_some_iff.mp hb).1
    rw [List.foldlM_cons, mergeArg_eq hs (hjs j (List.mem_cons_self ..)), valuesOf_cons]
    have hjs' : ∀ j ∈ js, j < argv.length := fun j hj => hjs j (List.mem_cons_of_mem _ hj)
    split
    · rw [hb]
      cases argv[j + 1]? with
      | none => simp [writeAll]
      | some v =>
        by_cases hfit : v.length ≤ b.length
        · have hs' : (new.set (p.i + 1) (writeOver b v))[p.i]?.bind cString = some s := by
            rw [List.getElem?_set_ne (by omega)]
            exact hs
          have hb' : (new.set (p.i + 1) (writeOver b v))[p.i + 1]? = some (writeOver b v) :=
            List.getElem?_set_self hlt
          have hrest := ih hs' hb' hjs'
          simp only [List.set_set] at hrest
          simp [rteMemcpyStr, hfit, hrest, writeAll]
        · simp [rteMemcpyStr, hfit, writeAll]
    · exact ih hs hb hjs'

/-- Behind the last slot there is nothing to write to. -/
theorem Pass.run_noSlot (hs : new[p.i]?.bind cString = some s) (hb : new[p.i + 1]? = none)
    (hjs : ∀ j ∈ p.js, j < argv.length) :
    p.run argv new = if valuesOf argv p.parity p.js s = [] then some new else none := by
  unfold Pass.run
  generalize p.js = js at hjs ⊢
  induction js with
  | nil => rfl
  | cons j js ih =>
    rw [List.foldlM_cons, mergeArg_eq hs (hjs j (List.mem_cons_self ..)), valuesOf_cons]
    split
    · rw [hb]
      cases argv[j + 1]? <;> rfl
    · exact ih fun j hj => hjs j (List.mem_cons_of_mem _ hj)

/-- What a pass has to find for the slot behind it to come out as in `strs`. -/
def Pass.Ok (argv : List CString) (new : List Buf) (strs : List CString) (p : Pass) : Prop :=
  ∀ s ∈ strs[p.i]?,
    (∀ b ∈ new[p.i + 1]?, ∀ e ∈ strs[p.i + 1]?,
      Leaves b (valuesOf argv p.parity p.js s) e) ∧
    (new[p.i + 1]? = none → valuesOf argv p.parity p.js s = [])

theorem Pass.ok_iff {strs : List CString} (hlen : new.length = strs.length)
    (hi : p.i < new.length) (hs : new[p.i]?.bind cString = strs[p.i]?)
    (hjs : ∀ j ∈ p.js, j < argv.length) :
    (∃ r, p.run argv new = some r ∧ r[p.i + 1]?.bind cString = strs[p.i + 1]?) ↔
      p.Ok argv new strs := by
  obtain ⟨s, he⟩ : ∃ s, strs[p.i]? = some s := ⟨_, List.getElem?_eq_getElem (hlen ▸ hi)⟩
  rw [he] at hs
  simp only [Pass.Ok, he, Option.mem_some_iff, forall_eq']
  by_cases hlast : p.i + 1 < new.length
  · have hb := List.getElem?_eq_getElem hlast
    have he' := List.getElem?_eq_getElem (hlen ▸ hlast)
    rw [Pass.run_slot hs hb hjs, hb, he']
    simp only [Option.mem_some_iff, forall_eq', reduceCtorEq, false_implies, and_true,
      Option.map_eq_some_iff]
    rw [← leaves_iff]
    constructor
    · rintro ⟨_, ⟨b', hb', rfl⟩, hread⟩
      rw [List.getElem?_set_self hlast, Option.bind_some] at hread
      exact ⟨b', hb', hread⟩
    · rintro ⟨b', hb', hread⟩
      refine ⟨_, ⟨b', hb', rfl⟩, ?_⟩
      rw [List.getElem?_set_self hlast, Option.bind_some]
      exact hread
  · have hb : new[p.i + 1]? = none := List.getElem?_eq_none (by omega)
    have he' : strs[p.i + 1]? = none := List.getElem?_eq_none (by omega)
    rw [Pass.run_noSlot hs hb hjs, hb, he']
    simp [hb]

def runPasses (ps : List Pass) (argv : List CString) (new : List Buf) : Option (List Buf) :=
  ps.foldlM (fun new p => p.run argv new) new

theorem runPasses_length {ps : List Pass} {r : List Buf} (h : runPasses ps argv new = some r) :
    r.length = new.length := by
  unfold runPasses at h
  induction ps generalizing new with
  | nil =>
    cases h
    rfl
  | cons p ps ih =>
    rw [List.foldlM_cons, Option.bind_eq_bind, Option.bind_eq_some_iff] at h
    obtain ⟨new', hp, h⟩ := h
    exact (ih h).trans (Pass.run_frame hp (Nat.ne_of_lt (Nat.lt_succ_self _))).2

/-- Passes over increasing slots: each finds its slot as the one before left it,
so that all come out right exactly when each does on the vector they start from. -/
theorem runPasses_iff {ps : List Pass} {strs : List CString} (hord : ps.Pairwise (·.i < ·.i))
    (hin : ∀ p ∈ ps, 1 ≤ p.i ∧ p.i < new.length) (hjs : ∀ p ∈ ps, ∀ j ∈ p.js, j < argv.length)
    (hlen : new.length = strs.length) :
    (∃ r, runPasses ps argv new = some r ∧ Reads r strs) ↔
      (∀ p ∈ ps, p.Ok argv new strs) ∧
        ∀ k, 1 ≤ k → (∀ p ∈ ps, k ≠ p.i + 1) → new[k]?.bind cString = strs[k]? := by
  induction ps generalizing new with
  | nil =>
    constructor
    · rintro ⟨_, ⟨⟩, -, hread⟩
      refine ⟨fun q hq => absurd hq List.not_mem_nil, fun k hk _ => ?_⟩
      by_cases hlt : k < strs.length
      · exact hread k hk hlt
      · rw [List.getElem?_eq_none (hlen ▸ Nat.le_of_not_lt hlt),
          List.getElem?_eq_none (Nat.le_of_not_lt hlt)]
        rfl
    · rintro ⟨-, hread⟩
      exact ⟨new, rfl, hlen, fun k hk _ => hread k hk fun q hq => absurd hq List.not_mem_nil⟩
  | cons p ps ih =>
    obtain ⟨hpos, hi⟩ := hin p (List.mem_cons_self ..)
    have hafter : ∀ q ∈ ps, p.i < q.i := (List.pairwise_cons.mp hord).1
    have hjp := hjs p (List.mem_cons_self ..)
    -- what the later passes need is the same before and after this one
    have hrest : ∀ r, p.run argv new = some r →
        ((∃ r', runPasses ps argv r = some r' ∧ Reads r' strs) ↔
          (∀ q ∈ ps, q.Ok argv r strs) ∧
            ∀ k, 1 ≤ k → (∀ q ∈ ps, k ≠ q.i + 1) → r[k]?.bind cString = strs[k]?) := by
      intro r hr
      have hlen' : r.length = new.length := (Pass.run_frame hr (Nat.ne_of_lt (Nat.lt_succ_self _))).2
      exact ih (List.pairwise_cons.mp hord).2
        (fun q hq => hlen' ▸ hin q (List.mem_cons_of_mem _ hq))
        (fun q hq => hjs q (List.mem_cons_of_mem _ hq)) (hlen'.trans hlen)
    have hok : ∀ r, p.run argv new = some r → ∀ q ∈ ps,
        (q.Ok argv r strs ↔ q.Ok argv new strs) := by
      intro r hr q hq
      have hne : q.i + 1 ≠ p.i + 1 := by
        have := hafter q hq
        omega
      rw [Pass.Ok, Pass.Ok, (Pass.run_frame hr hne).1]
    constructor
    · rintro ⟨r', hrun, hreads⟩
      rw [runPasses, List.foldlM_cons, Option.bind_eq_bind, Option.bind_eq_some_iff] at hrun
      obtain ⟨r, hr, hrun⟩ := hrun
      obtain ⟨hoks, hkept⟩ := (hrest r hr).mp ⟨r', hrun, hreads⟩
      have hslot : new[p.i]?.bind cString = strs[p.i]? := by
        rw [← (Pass.run_frame hr (Nat.ne_of_lt (Nat.lt_succ_self _))).1]
        exact hkept p.i hpos fun q hq => by
          have := hafter q hq
          omega
      have hnext : r[p.i + 1]?.bind cString = strs[p.i + 1]? :=
        hkept (p.i + 1) (by omega) fun q hq => by
          have := hafter q hq
          omega
      refine ⟨List.forall_mem_cons.mpr ⟨(Pass.ok_iff hlen hi hslot hjp).mp ⟨r, hr, hnext⟩,
        fun q hq => (hok r hr q hq).mp (hoks q hq)⟩, fun k hk hnot => ?_⟩
      rw [List.forall_mem_cons] at hnot
      rw [← (Pass.run_frame hr hnot.1).1]
      exact hkept k hk hnot.2
    · rintro ⟨hoks, hkept⟩
      rw [List.forall_mem_cons] at hoks
      have hslot : new[p.i]?.bind cString = strs[p.i]? :=
        hkept p.i hpos fun q hq => by
          rcases List.mem_cons.mp hq with rfl | hq
          · omega
          · have := hafter q hq
            omega
      obtain ⟨r, hr, hnext⟩ := (Pass.ok_iff hlen hi hslot hjp).mpr hoks.1
      obtain ⟨r', hrun, hreads⟩ := (hrest r hr).mpr
        ⟨fun q hq => (hok r hr q hq).mpr (hoks.2 q hq), fun k hk hnot => by
          by_cases hkp : k = p.i + 1
          · exact hkp ▸ hnext
          · rw [(Pass.run_frame hr hkp).1]
            exact hkept k hk (List.forall_mem_cons.mpr ⟨hkp, hnot⟩)⟩
      refine ⟨r', ?_, hreads⟩
      rw [runPasses, List.foldlM_cons, hr]
      exact hrun

/-! ## The two loops as passes -/

theorem dashStep_le {α : Type} {isDash : α → Bool} {n : Nat} {xs : List (α × Nat)}
    (hxs : ∀ x ∈ xs, x.2 < n) {acc : Nat × Nat} (hacc : acc.1 ≤ n ∧ acc.2 ≤ n) :
    (xs.foldl (dashStep isDash) acc).1 ≤ n ∧ (xs.foldl (dashStep isDash) acc).2 ≤ n := by
  induction xs generalizing acc with
  | nil => exact hacc
  | cons x xs ih =>
    have hx := hxs x (List.mem_cons_self ..)
    apply ih fun y hy => hxs y (List.mem_cons_of_mem _ hy)
    unfold dashStep
    split
    · split
      · exact ⟨hx, hacc.2⟩
      · exact ⟨hacc.1, hx⟩
    · exact hacc

theorem dashIndices_le {α : Type} (isDash : α → Bool) (xs : List α) :
    (dashIndices isDash xs).1 ≤ xs.length ∧ (dashIndices isDash xs).2 ≤ xs.length := by
  have hindex : ∀ x ∈ xs.zipIdx, x.2 < xs.length := by
    intro x hx
    have := (List.mem_zipIdx hx).2.1
    omega
  obtain ⟨hfirst, hlast⟩ := @dashStep_le _ isDash _ _ hindex (0, 0) ⟨Nat.zero_le _, Nat.zero_le _⟩
  refine ⟨hfirst, ?_⟩
  show (if (xs.zipIdx.foldl (dashStep isDash) (0, 0)).2 = 0 then xs.length else _) ≤ xs.length
  split
  · exact Nat.le_refl _
  · exact hlast

/-- The passes of the two loops: `first` and `last` are where the parts of the
new vector end. -/
def passes (argv : List CString) (first last : Nat) : List Pass :=
  let (onvmOld, nfOld) := dashIndices (flagDash.isPrefixOf ·) argv
  (span 1 (first - 1)).map (⟨·, 1, span 3 (onvmOld - 1)⟩) ++
    (span first last).map (⟨·, 0, span onvmOld nfOld⟩)

theorem mergeArgs_eq {first last : Nat}
    (hnew : dashIndices (fun b => cString b = some flagDash) new = (first, last)) :
    mergeArgs argv new = runPasses (passes argv first last) argv new := by
  unfold mergeArgs runPasses passes
  simp only [hnew, List.foldlM_append, List.foldlM_map]
  rfl

theorem mem_span {a b k : Nat} : k ∈ span a b ↔ a ≤ k ∧ k < b := by
  rw [span, List.mem_range'_1]
  omega

theorem mem_passes {first last : Nat} : p ∈ passes argv first last ↔
    (∃ i, p = ⟨i, 1, span 3 ((dashIndices (flagDash.isPrefixOf ·) argv).1 - 1)⟩ ∧
      1 ≤ i ∧ i + 1 < first) ∨
    (∃ i, p = ⟨i, 0, span (dashIndices (flagDash.isPrefixOf ·) argv).1
        (dashIndices (flagDash.isPrefixOf ·) argv).2⟩ ∧ first ≤ i ∧ i < last) := by
  simp only [passes, List.mem_append, List.mem_map, mem_span]
  constructor
  · rintro (⟨i, hi, rfl⟩ | ⟨i, hi, rfl⟩)
    · exact .inl ⟨i, rfl, by omega⟩
    · exact .inr ⟨i, rfl, hi⟩
  · rintro (⟨i, rfl, hi⟩ | ⟨i, rfl, hi⟩)
    · exact .inl ⟨i, by omega, rfl⟩
    · exact .inr ⟨i, hi, rfl⟩

theorem passes_ordered (argv : List CString) (first last : Nat) :
    (passes argv first last).Pairwise (·.i < ·.i) := by
  unfold passes
  simp only [List.pairwise_append, List.pairwise_map, List.mem_map, mem_span]
  refine ⟨List.pairwise_lt_range', List.pairwise_lt_range', ?_⟩
  rintro _ ⟨i, hi, rfl⟩ _ ⟨j, hj, rfl⟩
  show i < j
  omega

theorem passes_js {first last j : Nat} (hp : p ∈ passes argv first last) (hj : j ∈ p.js) :
    j < argv.length := by
  have hle := dashIndices_le (flagDash.isPrefixOf ·) argv
  rcases mem_passes.mp hp with ⟨i, rfl, -⟩ | ⟨i, rfl, -⟩
  · have := mem_span.mp hj
    omega
  · have := mem_span.mp hj
    omega

/-! ## The vector the configuration alone gives -/

/-- Neither a number nor what is printed of it is two dashes. -/
theorem fmtD_cases (i : Int) : ∃ d r, d ≠ 45 ∧ (fmtD i = d :: r ∨ fmtD i = 45 :: d :: r) := by
  have hdec : ∀ n, ∃ d r, d ≠ 45 ∧ decimal n = d :: r := by
    intro n
    cases hc : Nat.toDigits 10 n with
    | nil => exact absurd hc Nat.toDigits_ne_nil
    | cons c r =>
      refine ⟨c.toUInt8, r.map Char.toUInt8, ?_, by rw [decimal, hc, List.map_cons]⟩
      have hdigit := Nat.isDigit_of_mem_toDigits (by decide) (by decide)
        (hc ▸ List.mem_cons_self .. : c ∈ Nat.toDigits 10 n)
      have hrange := Char.isDigit_iff_toNat.mp hdigit
      intro h
      have hnat : c.toUInt8.toNat = 45 := by rw [h]; rfl
      have hmod : c.toUInt8.toNat = c.toNat % 256 := UInt32.toNat_toUInt8 _
      have h0 : '0'.toNat = 48 := rfl
      have h9 : '9'.toNat = 57 := rfl
      omega
  cases i with
  | ofNat n =>
    obtain ⟨d, r, hd, h⟩ := hdec n
    exact ⟨d, r, hd, .inl h⟩
  | negSucc n =>
    obtain ⟨d, r, hd, h⟩ := hdec (n + 1)
    have hminus : cstr "-" = [45] := by decide +kernel
    exact ⟨d, r, hd, .inr (by rw [fmtD, h, hminus]; rfl)⟩

theorem cString_prefix {b : Buf} {s : CString} (h : cString b = some s) : s <+: b := by
  unfold cString at h
  split at h
  · cases h
    exact List.takeWhile_prefix _
  · cases h

theorem cString_terminated {s : CString} (h : 0 ∉ s) : cString (terminated s) = some s := by
  have hmem : (0 : UInt8) ∈ s ++ [0] := List.mem_append_right _ (List.mem_singleton_self 0)
  have hall : ∀ a ∈ s, decide (a ≠ 0) = true := fun a ha => decide_eq_true fun h0 => h (h0 ▸ ha)
  rw [cString, terminated, if_pos hmem, List.takeWhile_append_of_pos hall]
  simp

theorem flagDash_eq : flagDash = [45, 45] := by decide +kernel

/-- What starts with a digit, or with a sign and a digit, does not read two dashes. -/
theorem number_ne_dash {b : Buf} {d : UInt8} (hd : d ≠ 45)
    (h : [d] <+: b ∨ [45, d] <+: b) : cString b ≠ some flagDash := by
  intro hb
  have hdash : [45, 45] <+: b := flagDash_eq ▸ cString_prefix hb
  obtain ⟨t, rfl⟩ := hdash
  rcases h with ⟨t', h⟩ | ⟨t', h⟩
  · exact hd (List.cons.inj h).1
  · exact hd (List.cons.inj (List.cons.inj h).2).1

theorem fmtD_take (i : Int) {n : Nat} (hn : 2 ≤ n) :
    ∃ d, d ≠ 45 ∧ ([d] <+: (fmtD i).take n ∨ [45, d] <+: (fmtD i).take n) := by
  obtain ⟨m, rfl⟩ := Nat.exists_eq_add_of_le' hn
  obtain ⟨d, r, hd, h | h⟩ := fmtD_cases i
  · exact ⟨d, hd, .inl ⟨r.take (m + 1), by rw [h]; rfl⟩⟩
  · exact ⟨d, hd, .inr ⟨r.take m, by rw [h]; rfl⟩⟩

theorem channels_ne_dash (i : Int) : cString (terminated ((fmtD i).take 2)) ≠ some flagDash := by
  obtain ⟨d, hd, h⟩ := fmtD_take i (Nat.le_refl 2)
  exact number_ne_dash hd (h.imp (·.trans (List.prefix_append ..)) (·.trans (List.prefix_append ..)))

theorem id_ne_dash (mem : Nat → UInt8) (i : Int) :
    cString (snprintf (malloc mem maxServiceIdSize) (fmtD i)) ≠ some flagDash := by
  have hlen : (malloc mem maxServiceIdSize).length - 1 = 4 := by
    rw [malloc, List.length_map, List.length_range]
    rfl
  obtain ⟨d, hd, h⟩ := fmtD_take i (show 2 ≤ 4 by decide)
  have hpre : (fmtD i).take 4 <+: snprintf (malloc mem maxServiceIdSize) (fmtD i) := by
    rw [snprintf, hlen, writeOver, List.append_assoc]
    exact List.prefix_append ..
  exact number_ne_dash hd (h.imp (·.trans hpre) (·.trans hpre))

def NfConfig.vector (c : NfConfig) (mem : Bool → Nat → UInt8) (prog : CString) : List Buf :=
  [prog, terminated flagL, terminated c.corelist, terminated flagN,
    terminated ((fmtD c.memoryChannels).take 2), terminated procTypeSecondary,
    terminated flagDash, terminated flagR,
    snprintf (malloc (mem false) maxServiceIdSize) (fmtD c.serviceId)] ++
  match c.instanceId with
  | some i => [terminated flagN, snprintf (malloc (mem true) maxServiceIdSize) (fmtD i)]
  | none => []

variable {c : NfConfig} {mem : Bool → Nat → UInt8} {l : CommandLine}

theorem argList_eq : onvmConfigCreateNfArgList c.json mem l.argv =
    (mergeArgs l.argv (c.vector mem l.prog)).bind fun new =>
      some (some ⟨new, (l.argv.take (dashIndices (flagDash.isPrefixOf ·) l.argv).2).map (fun _ => [])
        ++ l.argv.drop (dashIndices (flagDash.isPrefixOf ·) l.argv).2⟩) := by
  cases hi : c.instanceId <;>
    simp [onvmConfigCreateNfArgList, onvmConfigCreateDpdkArgs, onvmConfigCreateOnvmArgs,
      NfConfig.json, NfConfig.vector, hi, CommandLine.argv]

/-- Where the DPDK part of the vector ends: a core list may be taken for the end. -/
def NfConfig.onvmAt (c : NfConfig) : Nat := if c.corelist = flagDash then 3 else 7

/-- Where the ONVM part ends, by the second search. -/
def NfConfig.nfAt (c : NfConfig) : Nat :=
  if c.corelist = flagDash then 7 else if c.instanceId.isSome then 11 else 9

theorem vector_dashes : dashIndices (fun b => cString b = some flagDash) (c.vector mem l.prog) =
    (c.onvmAt, c.nfAt) := by
  have hprog : cString l.prog ≠ some flagDash := by
    intro h
    obtain ⟨t, ht⟩ := cString_prefix h
    apply l.named.2
    rw [← ht, flagDash_eq]
    rfl
  have hcore : (cString (terminated c.corelist) = some flagDash) = (c.corelist = flagDash) := by
    rw [cString_terminated c.text, Option.some.injEq]
  have hl : cString (terminated flagL) ≠ some flagDash := by decide +kernel
  have hn : cString (terminated flagN) ≠ some flagDash := by decide +kernel
  have hp : cString (terminated procTypeSecondary) ≠ some flagDash := by decide +kernel
  have hr : cString (terminated flagR) ≠ some flagDash := by decide +kernel
  have hd : cString (terminated flagDash) = some flagDash := by decide +kernel
  have hm := channels_ne_dash c.memoryChannels
  have hs := id_ne_dash (mem false) c.serviceId
  unfold dashIndices NfConfig.vector NfConfig.onvmAt NfConfig.nfAt
  by_cases hc : c.corelist = flagDash
  · cases hi : c.instanceId with
    | none => simp [dashStep, hprog, hl, hn, hp, hr, hd, hm, hs, hc]
    | some i =>
      have hinst := id_ne_dash (mem true) i
      simp [dashStep, hprog, hl, hn, hp, hr, hd, hm, hs, hc, hinst]
  · cases hi : c.instanceId with
    | none => simp [dashStep, hprog, hcore, hl, hn, hp, hr, hd, hm, hs, hc]
    | some i =>
      have hinst := id_ne_dash (mem true) i
      simp [dashStep, hprog, hcore, hl, hn, hp, hr, hd, hm, hs, hc, hinst]

/-! ## Slot by slot -/

/-- The values that reach slot `k`: those behind the tokens that start with the
text of the slot before it, at the odd positions before the first dash for the
DPDK part and at the even positions between the dashes for the other. -/
def NfConfig.copiesInto (c : NfConfig) (l : CommandLine) (k : Nat) : List (Option CString) :=
  let (onvmOld, nfOld) := dashIndices (flagDash.isPrefixOf ·) l.argv
  match (c.expected l)[k - 1]? with
  | none => []
  | some s =>
    if 2 ≤ k ∧ k < c.onvmAt then valuesOf l.argv 1 (span 3 (onvmOld - 1)) s
    else if c.onvmAt < k ∧ k ≤ c.nfAt then valuesOf l.argv 0 (span onvmOld nfOld) s
    else []

/-- An instance ID is configured if one is given, what reaches a slot leaves it with
the text asked for, and nothing is written behind the last. -/
structure MergesRight (c : NfConfig) (mem : Bool → Nat → UInt8) (l : CommandLine) : Prop where
  instance_slot : given flagN l.lib ≠ none → c.instanceId ≠ none
  slot : ∀ k, 1 ≤ k → ∀ b ∈ (c.vector mem l.prog)[k]?, ∀ e ∈ (c.expected l)[k]?,
    Leaves b (c.copiesInto l k) e
  behind : c.copiesInto l (c.vector mem l.prog).length = []

theorem length_expected : (c.vector mem l.prog).length = (c.expected l).length ↔
    (given flagN l.lib ≠ none → c.instanceId ≠ none) := by
  unfold NfConfig.vector NfConfig.expected NfConfig.instanceArg
  cases hg : given flagN l.lib <;> cases hi : c.instanceId <;> simp

theorem nfAt_le : c.nfAt ≤ (c.vector mem l.prog).length ∧ c.onvmAt ≤ c.nfAt ∧ 3 ≤ c.onvmAt := by
  unfold NfConfig.vector NfConfig.nfAt NfConfig.onvmAt
  cases hi : c.instanceId <;> by_cases hc : c.corelist = flagDash <;> simp [hc]

theorem passes_inside (hp : p ∈ passes l.argv c.onvmAt c.nfAt) :
    1 ≤ p.i ∧ p.i < (c.vector mem l.prog).length := by
  have hnf := @nfAt_le c mem l
  rcases mem_passes.mp hp with ⟨i, rfl, hi⟩ | ⟨i, rfl, hi⟩
  · show 1 ≤ i ∧ i < _
    omega
  · show 1 ≤ i ∧ i < _
    omega

theorem copiesInto_pass (hp : p ∈ passes l.argv c.onvmAt c.nfAt)
    (hs : (c.expected l)[p.i]? = some s) :
    c.copiesInto l (p.i + 1) = valuesOf l.argv p.parity p.js s := by
  simp only [NfConfig.copiesInto, Nat.add_sub_cancel, hs]
  rcases mem_passes.mp hp with ⟨i, rfl, hi⟩ | ⟨i, rfl, hi⟩
  · rw [if_pos ⟨Nat.succ_le_succ hi.1, hi.2⟩]
  · rw [if_neg fun h => absurd h.2 (Nat.not_lt.mpr (Nat.le_succ_of_le hi.1)),
      if_pos ⟨Nat.lt_succ_of_le hi.1, hi.2⟩]

theorem copiesInto_other {k : Nat} (hk : 1 ≤ k)
    (h : ∀ p ∈ passes l.argv c.onvmAt c.nfAt, k ≠ p.i + 1) : c.copiesInto l k = [] := by
  have hdpdk : ¬ (2 ≤ k ∧ k < c.onvmAt) := fun hk =>
    h _ (mem_passes.mpr (.inl ⟨k - 1, rfl, by omega⟩)) (show k = k - 1 + 1 by omega)
  have honvm : ¬ (c.onvmAt < k ∧ k ≤ c.nfAt) := fun hk =>
    h _ (mem_passes.mpr (.inr ⟨k - 1, rfl, by omega⟩)) (show k = k - 1 + 1 by omega)
  unfold NfConfig.copiesInto
  simp only [if_neg hdpdk, if_neg honvm]
  split <;> rfl

/-- The conditions on the passes, slot by slot. -/
theorem passes_ok_iff (hlen : (c.vector mem l.prog).length = (c.expected l).length) :
    ((∀ p ∈ passes l.argv c.onvmAt c.nfAt, p.Ok l.argv (c.vector mem l.prog) (c.expected l)) ∧
      ∀ k, 1 ≤ k → (∀ p ∈ passes l.argv c.onvmAt c.nfAt, k ≠ p.i + 1) →
        (c.vector mem l.prog)[k]?.bind cString = (c.expected l)[k]?) ↔
    (∀ k, 1 ≤ k → ∀ b ∈ (c.vector mem l.prog)[k]?, ∀ e ∈ (c.expected l)[k]?,
      Leaves b (c.copiesInto l k) e) ∧
    c.copiesInto l (c.vector mem l.prog).length = [] := by
  have hfinds : ∀ p ∈ passes l.argv c.onvmAt c.nfAt, ∃ s, (c.expected l)[p.i]? = some s :=
    fun p hp => ⟨_, List.getElem?_eq_getElem (hlen ▸ (@passes_inside p c mem l hp).2)⟩
  have hend : 1 ≤ (c.vector mem l.prog).length := by
    have := @nfAt_le c mem l
    omega
  constructor
  · rintro ⟨hok, hkept⟩
    constructor
    · intro k hk b hb e he
      by_cases h : ∃ p ∈ passes l.argv c.onvmAt c.nfAt, k = p.i + 1
      · obtain ⟨p, hp, rfl⟩ := h
        obtain ⟨s, hs⟩ := hfinds p hp
        rw [copiesInto_pass hp hs]
        exact (hok p hp s hs).1 b hb e he
      · have hnone : ∀ p ∈ passes l.argv c.onvmAt c.nfAt, k ≠ p.i + 1 :=
          fun p hp hkp => h ⟨p, hp, hkp⟩
        have hread := hkept k hk hnone
        rw [Option.mem_def.mp hb, Option.mem_def.mp he] at hread
        rw [copiesInto_other hk hnone, leaves_nil]
        exact hread
    · by_cases h : ∃ p ∈ passes l.argv c.onvmAt c.nfAt, (c.vector mem l.prog).length = p.i + 1
      · obtain ⟨p, hp, hlast⟩ := h
        obtain ⟨s, hs⟩ := hfinds p hp
        rw [hlast, copiesInto_pass hp hs]
        exact (hok p hp s hs).2 (List.getElem?_eq_none (Nat.le_of_eq hlast))
      · exact copiesInto_other hend fun p hp hkp => h ⟨p, hp, hkp⟩
  · rintro ⟨hslot, hbehind⟩
    constructor
    · intro p hp s hs
      rw [← copiesInto_pass hp hs]
      refine ⟨hslot (p.i + 1) (by omega), fun hnone => ?_⟩
      have hin := @passes_inside p c mem l hp
      have hlast : p.i + 1 = (c.vector mem l.prog).length :=
        Nat.le_antisymm hin.2 (List.getElem?_eq_none_iff.mp hnone)
      rw [hlast]
      exact hbehind
    · intro k hk hnone
      by_cases hlt : k < (c.vector mem l.prog).length
      · have hb := List.getElem?_eq_getElem hlt
        have he := List.getElem?_eq_getElem (hlen ▸ hlt)
        have hleaves := hslot k hk _ hb _ he
        rw [copiesInto_other hk hnone, leaves_nil] at hleaves
        rw [hb, he]
        exact hleaves
      · rw [List.getElem?_eq_none (Nat.le_of_not_lt hlt),
          List.getElem?_eq_none (hlen ▸ Nat.le_of_not_lt hlt)]
        rfl

/-- The vector comes out right when each slot does. -/
theorem overridden_iff_merges (c : NfConfig) (mem : Bool → Nat → UInt8) (l : CommandLine) :
    Overridden c mem l ↔ MergesRight c mem l := by
  have hin := fun p hp => @passes_inside p c mem l hp
  have hrun : Overridden c mem l ↔ ∃ r, runPasses (passes l.argv c.onvmAt c.nfAt) l.argv
      (c.vector mem l.prog) = some r ∧ Reads r (c.expected l) := by
    unfold Overridden
    rw [argList_eq, mergeArgs_eq vector_dashes]
    constructor
    · rintro ⟨r, h, hr⟩
      obtain ⟨new, hnew, h⟩ := Option.bind_eq_some_iff.mp h
      cases h
      exact ⟨new, hnew, hr⟩
    · rintro ⟨new, hnew, hr⟩
      exact ⟨_, by rw [hnew]; rfl, hr⟩
  rw [hrun]
  constructor
  · rintro ⟨r, hr, hreads⟩
    have hlen : (c.vector mem l.prog).length = (c.expected l).length :=
      (runPasses_length hr).symm.trans hreads.1
    obtain ⟨hslot, hbehind⟩ := (passes_ok_iff hlen).mp ((runPasses_iff (passes_ordered ..) hin
      (fun p hp j hj => passes_js hp hj) hlen).mp ⟨r, hr, hreads⟩)
    exact ⟨length_expected.mp hlen, hslot, hbehind⟩
  · intro h
    have hlen := (@length_expected c mem l).mpr h.instance_slot
    exact (runPasses_iff (passes_ordered ..) hin (fun p hp j hj => passes_js hp hj) hlen).mpr
      ((passes_ok_iff hlen).mpr ⟨h.slot, h.behind⟩)

end Onvm.Nflib

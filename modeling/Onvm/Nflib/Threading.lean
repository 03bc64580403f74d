import Onvm.Nflib.Common

/-!
# Choosing a core

`onvm_threading_get_core` and what it does to the core table: it fails and
changes nothing, or adds an NF to one core, which was not dedicated, and
dedicates that core when the NF does not share it and it was empty. When an NF
has stopped, `onvm_threading_find_nf_to_reassign_core` chooses one to move to its
core.
-/

namespace Onvm.Nflib

/-- `onvm_threading_get_num_cores()`. A core number fits a `uint16_t`. -/
structure NumCores where
  val : Nat
  le : val ≤ 2 ^ 16

theorem NumCores.one_le : 1 ≤ 2 ^ 16 := by decide

/-- The return value (`none` for 0), `*core_value` and the core table. -/
structure CoreResult where
  ret : Option NfStatus
  core : Nat
  cores : Nat → CoreStatus

/-- The loop over the cores: `min_nf_count` and `best_core` after core `n - 1`. -/
def bestCore (cores : Nat → CoreStatus) : Nat → Nat × Nat
  | 0 => (2 ^ 16 - 1, 0)
  | n + 1 =>
    let (minNfCount, best) := bestCore cores n
    if (cores n).enabled ∧ (cores n).isDedicatedCore = false ∧ (cores n).nfCount < minNfCount then
      ((cores n).nfCount, n)
    else (minNfCount, best)

def CoreStatus.dedicate (c : CoreStatus) : CoreStatus := { c with isDedicatedCore := true }

def CoreStatus.addNf (c : CoreStatus) : CoreStatus := { c with nfCount := inc16 c.nfCount }

/-- `nf_count--; is_dedicated_core = 0`, when an NF stops. -/
def CoreStatus.freed (c : CoreStatus) : CoreStatus :=
  { c with nfCount := dec16 c.nfCount, isDedicatedCore := false }

def onvmThreadingGetCore (coreValue flags maxCores : Nat) (cores : Nat → CoreStatus) :
    CoreResult :=
  if manualCore flags then
    -- the bound is tested with `>`, so entry `max_cores` is looked at too
    if maxCores < coreValue ∨ (cores coreValue).enabled = false then
      ⟨some .coreOutOfRange, coreValue, cores⟩
    else if (cores coreValue).isDedicatedCore then
      ⟨some .coreBusy, coreValue, cores⟩
    else if shareCore flags then
      ⟨none, coreValue, Function.update cores coreValue (cores coreValue).addNf⟩
    else if (cores coreValue).nfCount = 0 then
      ⟨none, coreValue, Function.update cores coreValue (cores coreValue).dedicate.addNf⟩
    else ⟨some .noDedicatedCores, coreValue, cores⟩
  else
    let (minNfCount, best) := bestCore cores maxCores
    if minNfCount = 2 ^ 16 - 1 then ⟨some .noCores, coreValue, cores⟩
    else if shareCore flags then
      ⟨none, u16 best, Function.update cores best (cores best).addNf⟩
    else if minNfCount = 0 then
      ⟨none, u16 best, Function.update cores best (cores best).dedicate.addNf⟩
    else ⟨some .noDedicatedCores, u16 best, cores⟩

/-- A core with one NF more, which has it for itself or not. -/
def CoreStatus.placed (c : CoreStatus) (dedicated : Bool) : CoreStatus :=
  { c with isDedicatedCore := dedicated, nfCount := inc16 c.nfCount }

theorem CoreStatus.addNf_eq {c : CoreStatus} (h : c.isDedicatedCore = false) :
    c.addNf = c.placed false := by
  unfold addNf placed
  rw [← h]

theorem CoreStatus.dedicate_addNf (c : CoreStatus) : c.dedicate.addNf = c.placed true := rfl

/-! ## Which core -/

def CoreStatus.Eligible (c : CoreStatus) : Prop := c.enabled = true ∧ c.isDedicatedCore = false

instance (c : CoreStatus) : Decidable c.Eligible :=
  inferInstanceAs (Decidable (c.enabled = true ∧ c.isDedicatedCore = false))

/-- The lowest-numbered core with the fewest NFs among the eligible ones below `n`. -/
structure Best (n : Nat) (cores : Nat → CoreStatus) (c : Nat) : Prop where
  lt : c < n
  eligible : (cores c).Eligible
  least : ∀ c' < n, (cores c').Eligible →
    (cores c).nfCount < (cores c').nfCount ∨ (cores c).nfCount = (cores c').nfCount ∧ c ≤ c'

section
variable {n : Nat} {cores : Nat → CoreStatus} {c c' : Nat}

theorem Best.unique (h : Best n cores c) (h' : Best n cores c') : c = c' := by
  have h1 := h.least c' h'.lt h'.eligible
  have h2 := h'.least c h.lt h.eligible
  omega

theorem Best.keep (h : Best n cores c)
    (hn : (cores n).Eligible → (cores c).nfCount ≤ (cores n).nfCount) :
    Best (n + 1) cores c where
  lt := Nat.lt_succ_of_lt h.lt
  eligible := h.eligible
  least d hd hel := by
    rcases Nat.lt_succ_iff_lt_or_eq.mp hd with hd | rfl
    · exact h.least d hd hel
    · have := hn hel
      have := h.lt
      omega

/-- Core `n` takes over if it is eligible and has fewer NFs than any before it. -/
theorem best_take (hel : (cores n).Eligible)
    (h : ∀ d < n, (cores d).Eligible → (cores n).nfCount < (cores d).nfCount) :
    Best (n + 1) cores n where
  lt := Nat.lt_succ_self n
  eligible := hel
  least d hd hd' := by
    rcases Nat.lt_succ_iff_lt_or_eq.mp hd with hd | rfl
    · exact .inl (h d hd hd')
    · exact .inr ⟨rfl, Nat.le_refl _⟩

theorem exists_best (h : ∃ c < n, (cores c).Eligible) : ∃ c, Best n cores c := by
  induction n with
  | zero =>
    obtain ⟨c, hc, -⟩ := h
    omega
  | succ n ih =>
    by_cases hb : ∃ c < n, (cores c).Eligible
    · obtain ⟨b, hb⟩ := ih hb
      by_cases hn : (cores n).Eligible ∧ (cores n).nfCount < (cores b).nfCount
      · refine ⟨n, best_take hn.1 fun d hd hel => ?_⟩
        have := hb.least d hd hel
        omega
      · exact ⟨b, hb.keep fun hel => Nat.le_of_not_lt fun hlt => hn ⟨hel, hlt⟩⟩
    · obtain ⟨c, hc, hel⟩ := h
      have hcn : c = n := by
        by_contra hne
        exact hb ⟨c, by omega, hel⟩
      subst hcn
      exact ⟨c, best_take hel fun d hd hel' => absurd ⟨d, hd, hel'⟩ hb⟩

/-- What the loop over the cores has found after `n` of them: nothing with a
count below the sentinel, or the best core. -/
theorem bestCore_cases (cores : Nat → CoreStatus) (n : Nat) :
    ((bestCore cores n).1 = 2 ^ 16 - 1 ∧
      ∀ c < n, (cores c).Eligible → 2 ^ 16 - 1 ≤ (cores c).nfCount) ∨
    (Best n cores (bestCore cores n).2 ∧
      (cores (bestCore cores n).2).nfCount = (bestCore cores n).1 ∧
      (bestCore cores n).1 < 2 ^ 16 - 1) := by
  induction n with
  | zero => exact .inl ⟨rfl, fun c hc => absurd hc (Nat.not_lt_zero c)⟩
  | succ n ih =>
    unfold bestCore
    dsimp only
    by_cases hn : (cores n).Eligible ∧ (cores n).nfCount < (bestCore cores n).1
    · rw [if_pos ⟨hn.1.1, hn.1.2, hn.2⟩]
      refine .inr ⟨best_take hn.1 fun d hd hel => ?_, rfl, ?_⟩
      · rcases ih with ⟨h1, h2⟩ | ⟨h1, h2, -⟩
        · have := h2 d hd hel
          omega
        · have := h1.least d hd hel
          omega
      · rcases ih with ⟨h1, -⟩ | ⟨-, -, h3⟩ <;> simp only <;> omega
    · rw [if_neg fun h => hn ⟨⟨h.1, h.2.1⟩, h.2.2⟩]
      have hle : (cores n).Eligible → (bestCore cores n).1 ≤ (cores n).nfCount :=
        fun hel => Nat.le_of_not_lt fun hlt => hn ⟨hel, hlt⟩
      rcases ih with ⟨h1, h2⟩ | ⟨h1, h2, h3⟩
      · refine .inl ⟨h1, fun d hd hel => ?_⟩
        rcases Nat.lt_succ_iff_lt_or_eq.mp hd with hd | rfl
        · exact h2 d hd hel
        · exact h1 ▸ hle hel
      · exact .inr ⟨h1.keep fun hel => h2 ▸ hle hel, h2, h3⟩

/-- The loop finds the best core if its count is below the sentinel. -/
theorem bestCore_eq (h : Best n cores c) (hlt : (cores c).nfCount < 2 ^ 16 - 1) :
    bestCore cores n = ((cores c).nfCount, c) := by
  rcases bestCore_cases cores n with ⟨-, h2⟩ | ⟨h1, h2, -⟩
  · have := h2 c h.lt h.eligible
    omega
  · obtain rfl := h.unique h1
    exact Prod.ext h2.symm rfl

theorem bestCore_sentinel (h : ∀ c < n, (cores c).Eligible → 2 ^ 16 - 1 ≤ (cores c).nfCount) :
    (bestCore cores n).1 = 2 ^ 16 - 1 := by
  rcases bestCore_cases cores n with ⟨h1, -⟩ | ⟨h1, h2, h3⟩
  · exact h1
  · have := h _ h1.lt h1.eligible
    omega

end

/-! ## What a request does -/

/-- When the loop found a core, it is in range and not dedicated, and its
count is the minimum. -/
theorem bestCore_spec (cores : Nat → CoreStatus) (n : Nat)
    (h : (bestCore cores n).1 ≠ 2 ^ 16 - 1) :
    (bestCore cores n).2 < n ∧ (cores (bestCore cores n).2).isDedicatedCore = false ∧
      (cores (bestCore cores n).2).nfCount = (bestCore cores n).1 := by
  rcases bestCore_cases cores n with ⟨h1, -⟩ | ⟨h1, h2, -⟩
  · exact absurd h1 h
  · exact ⟨h1.lt, h1.eligible.2, h2⟩

/-- A refused request leaves the core table as it was. -/
theorem getCore_fail {coreValue flags maxCores : Nat} {cores : Nat → CoreStatus}
    {e : NfStatus} (h : (onvmThreadingGetCore coreValue flags maxCores cores).ret = some e) :
    (onvmThreadingGetCore coreValue flags maxCores cores).cores = cores := by
  unfold onvmThreadingGetCore at h ⊢
  grind

/-- A granted request adds an NF to the core it returns, which was not
dedicated; without the share bit the core was empty and becomes dedicated. -/
theorem getCore_ok {coreValue flags : Nat} {maxCores : NumCores} {cores : Nat → CoreStatus}
    (h : (onvmThreadingGetCore coreValue flags maxCores.val cores).ret = none) :
    ∃ c, (onvmThreadingGetCore coreValue flags maxCores.val cores).core = c ∧
      (onvmThreadingGetCore coreValue flags maxCores.val cores).cores =
        Function.update cores c ((cores c).placed (!shareCore flags)) ∧
      (cores c).isDedicatedCore = false ∧ (shareCore flags = false → (cores c).nfCount = 0) := by
  have hbest := bestCore_spec cores maxCores.val
  have hfit : ∀ b, b < maxCores.val → u16 b = b := fun b hb =>
    Nat.mod_eq_of_lt (Nat.lt_of_lt_of_le hb maxCores.le)
  unfold onvmThreadingGetCore at h ⊢
  split at h
  · rename_i hm
    simp only [if_pos hm]
    grind [CoreStatus.addNf_eq, CoreStatus.dedicate_addNf]
  · rename_i hm
    simp only [if_neg hm]
    grind [CoreStatus.addNf_eq, CoreStatus.dedicate_addNf]

/-! ## When a request is handled right -/

/-- The entries of `cores` a request looks at; those it writes are among them. -/
def coreIndices (coreValue flags maxCores : Nat) : List Nat :=
  if manualCore flags then if maxCores < coreValue then [] else [coreValue]
  else List.range maxCores

theorem bestCore_congr {cores cores' : Nat → CoreStatus} {n : Nat}
    (h : ∀ i < n, cores i = cores' i) : bestCore cores n = bestCore cores' n := by
  induction n with
  | zero => rfl
  | succ n ih =>
    unfold bestCore
    rw [ih fun i hi => h i (Nat.lt_succ_of_lt hi), h n (Nat.lt_succ_self n)]

/-- Nothing but these entries decides what happens. -/
theorem getCore_congr {coreValue flags n : Nat} {cores cores' : Nat → CoreStatus}
    (h : ∀ i ∈ coreIndices coreValue flags n, cores i = cores' i) :
    (onvmThreadingGetCore coreValue flags n cores).ret =
        (onvmThreadingGetCore coreValue flags n cores').ret ∧
      (onvmThreadingGetCore coreValue flags n cores).core =
        (onvmThreadingGetCore coreValue flags n cores').core := by
  unfold coreIndices at h
  unfold onvmThreadingGetCore
  split at h
  · rename_i hm
    simp only [if_pos hm]
    split at h
    · rename_i hlt
      simp [hlt]
    · rw [h coreValue (List.mem_singleton.mpr rfl)]
      grind
  · rename_i hm
    simp only [if_neg hm, bestCore_congr fun i hi => h i (List.mem_range.mpr hi)]
    grind

def CoreStatus.joined (c : CoreStatus) (dedicated : Bool) : CoreStatus :=
  { c with isDedicatedCore := dedicated, nfCount := c.nfCount + 1 }

theorem CoreStatus.placed_eq_iff (c : CoreStatus) (dedicated : Bool) :
    c.placed dedicated = c.joined dedicated ↔ c.nfCount < 2 ^ 16 - 1 := by
  have hinc : inc16 c.nfCount = c.nfCount + 1 ↔ c.nfCount < 2 ^ 16 - 1 := by
    unfold inc16 u16
    omega
  rw [← hinc]
  constructor
  · intro h
    exact congrArg CoreStatus.nfCount h
  · intro h
    rw [CoreStatus.placed, CoreStatus.joined, h]

/-- What a request for a core should do to the first `n` entries, which are all
there is. -/
structure CoreRight (coreValue flags n : Nat) (cores : Nat → CoreStatus) (r : CoreResult) :
    Prop where
  bounds : ∀ i ∈ coreIndices coreValue flags n, i < n
  refused : r.ret ≠ none → r.cores = cores
  granted : r.ret = none → r.core < n ∧ (cores r.core).Eligible ∧
    r.cores = Function.update cores r.core ((cores r.core).joined (!shareCore flags))
  automatic : manualCore flags = false →
    (r.ret = none → Best n cores r.core) ∧
      (r.ret = some .noCores ↔ ¬ ∃ c < n, (cores c).Eligible) ∧
      (shareCore flags = false →
        (r.ret = none ↔ ∃ c < n, (cores c).Eligible ∧ (cores c).nfCount = 0))

/-- The requests it is right for: not for core `n` by number; no count at the
sentinel; and a choice that fits `*core_value`. -/
def CoreFits (coreValue flags n : Nat) (cores : Nat → CoreStatus) : Prop :=
  if manualCore flags then
    coreValue ≠ n ∧ (coreValue < n → (cores coreValue).Eligible → shareCore flags = true →
      (cores coreValue).nfCount < 2 ^ 16 - 1)
  else
    ∀ c, Best n cores c → (cores c).nfCount < 2 ^ 16 - 1 ∧
      (shareCore flags = true ∨ (cores c).nfCount = 0 → c < 2 ^ 16)

section
variable {coreValue flags n : Nat} {cores : Nat → CoreStatus}

/-- A refused request for a core by number is right if it looks inside the table. -/
theorem coreRight_manual_refused (hm : manualCore flags = true)
    (hb : ∀ i ∈ coreIndices coreValue flags n, i < n) (e : NfStatus) :
    CoreRight coreValue flags n cores ⟨some e, coreValue, cores⟩ where
  bounds := hb
  refused _ := rfl
  granted h := by cases h
  automatic ha := absurd (hm.symm.trans ha) (by decide)

/-- A core whose entry is written with `nf_count++` is right unless the count wraps. -/
theorem coreRight_manual_granted (hm : manualCore flags = true) (hlt : coreValue < n)
    (hel : (cores coreValue).Eligible) :
    CoreRight coreValue flags n cores ⟨none, coreValue,
        Function.update cores coreValue ((cores coreValue).placed (!shareCore flags))⟩ ↔
      (cores coreValue).nfCount < 2 ^ 16 - 1 := by
  rw [← CoreStatus.placed_eq_iff _ (!shareCore flags)]
  constructor
  · intro h
    have hupd := congrFun (h.granted rfl).2.2 coreValue
    simpa only [Function.update_self] using hupd
  · intro heq
    exact {
      bounds := by
        unfold coreIndices
        rw [if_pos hm, if_neg (Nat.lt_asymm hlt)]
        simpa using hlt
      refused := fun h => absurd rfl h
      granted := fun _ => ⟨hlt, hel, by rw [heq]⟩
      automatic := fun ha => absurd (hm.symm.trans ha) (by decide) }

theorem getCore_manual_iff (hm : manualCore flags = true) :
    CoreRight coreValue flags n cores (onvmThreadingGetCore coreValue flags n cores) ↔
      CoreFits coreValue flags n cores := by
  unfold CoreFits
  rw [if_pos hm]
  rcases Nat.lt_trichotomy coreValue n with hlt | heq | hgt
  · have hbounds : ∀ i ∈ coreIndices coreValue flags n, i < n := by
      unfold coreIndices
      rw [if_pos hm, if_neg (Nat.lt_asymm hlt)]
      simpa using hlt
    have hne : coreValue ≠ n := Nat.ne_of_lt hlt
    unfold onvmThreadingGetCore
    rw [if_pos hm]
    by_cases hel : (cores coreValue).Eligible
    · have hnot : ¬ (n < coreValue ∨ (cores coreValue).enabled = false) := by
        simp [hel.1, Nat.le_of_lt hlt]
      rw [if_neg hnot, if_neg (by simp [hel.2])]
      by_cases hs : shareCore flags = true
      · have hgranted := @coreRight_manual_granted coreValue flags n cores hm hlt hel
        rw [if_pos hs, CoreStatus.addNf_eq hel.2]
        rw [hs] at hgranted
        rw [Bool.not_true] at hgranted
        rw [hgranted]
        simp [hne, hlt, hel, hs]
      · have hgranted := @coreRight_manual_granted coreValue flags n cores hm hlt hel
        rw [if_neg hs]
        rw [Bool.not_eq_true] at hs
        rw [hs, Bool.not_false] at hgranted
        by_cases h0 : (cores coreValue).nfCount = 0
        · rw [if_pos h0, CoreStatus.dedicate_addNf, hgranted, h0]
          simp [hne, hs]
        · rw [if_neg h0]
          exact iff_of_true (coreRight_manual_refused hm hbounds _) ⟨hne, by simp [hs]⟩
    · refine iff_of_true ?_ ⟨hne, fun _ h => absurd h hel⟩
      split
      · exact coreRight_manual_refused hm hbounds _
      · split
        · exact coreRight_manual_refused hm hbounds _
        · rename_i h1 h2
          exact absurd ⟨by simpa using (not_or.mp h1).2, by simpa using h2⟩ hel
  · refine iff_of_false (fun h => ?_) fun h => h.1 heq
    have := h.bounds coreValue (by simp [coreIndices, hm, heq])
    omega
  · refine iff_of_true ?_ ⟨Nat.ne_of_gt hgt, fun h => absurd h (Nat.lt_asymm hgt)⟩
    unfold onvmThreadingGetCore
    rw [if_pos hm, if_pos (.inl hgt)]
    exact coreRight_manual_refused hm (by simp [coreIndices, hm, hgt]) _

theorem getCore_automatic {c : Nat} (hm : manualCore flags = false) (hc : Best n cores c)
    (hlt : (cores c).nfCount < 2 ^ 16 - 1) :
    onvmThreadingGetCore coreValue flags n cores =
      if shareCore flags = true ∨ (cores c).nfCount = 0 then
        ⟨none, u16 c, Function.update cores c ((cores c).placed (!shareCore flags))⟩
      else ⟨some .noDedicatedCores, u16 c, cores⟩ := by
  unfold onvmThreadingGetCore
  rw [if_neg (by simp [hm])]
  simp only [bestCore_eq hc hlt, if_neg (Nat.ne_of_lt hlt)]
  cases hs : shareCore flags with
  | true => simp [CoreStatus.addNf_eq hc.eligible.2]
  | false =>
    by_cases h0 : (cores c).nfCount = 0
    · simp [h0, CoreStatus.dedicate_addNf]
    · simp [h0]

theorem getCore_automatic_none (hm : manualCore flags = false)
    (h : ∀ c < n, (cores c).Eligible → 2 ^ 16 - 1 ≤ (cores c).nfCount) :
    onvmThreadingGetCore coreValue flags n cores = ⟨some .noCores, coreValue, cores⟩ := by
  unfold onvmThreadingGetCore
  rw [if_neg (by simp [hm])]
  simp only [bestCore_sentinel h, if_true]

theorem coreIndices_automatic (hm : manualCore flags = false) :
    ∀ i ∈ coreIndices coreValue flags n, i < n := by
  unfold coreIndices
  rw [if_neg (by simp [hm])]
  exact fun i => List.mem_range.mp

/-- A core is chosen: the request is right if the choice fits `*core_value`. -/
theorem coreRight_automatic {c : Nat} (hm : manualCore flags = false) (hc : Best n cores c)
    (hlt : (cores c).nfCount < 2 ^ 16 - 1) :
    CoreRight coreValue flags n cores (onvmThreadingGetCore coreValue flags n cores) ↔
      (shareCore flags = true ∨ (cores c).nfCount = 0 → c < 2 ^ 16) := by
  have hex : ∃ c < n, (cores c).Eligible := ⟨c, hc.lt, hc.eligible⟩
  rw [getCore_automatic hm hc hlt]
  by_cases hg : shareCore flags = true ∨ (cores c).nfCount = 0
  · rw [if_pos hg]
    constructor
    · intro h _
      have hbest := (h.automatic hm).1 rfl
      have heq : c = u16 c := hc.unique hbest
      unfold u16 at heq
      omega
    · intro hfit
      have hu : u16 c = c := Nat.mod_eq_of_lt (hfit hg)
      rw [hu]
      exact {
        bounds := coreIndices_automatic hm
        refused := fun h => absurd rfl h
        granted := fun _ => ⟨hc.lt, hc.eligible, by
          rw [(CoreStatus.placed_eq_iff (cores c) (!shareCore flags)).mpr hlt]⟩
        automatic := fun _ => ⟨fun _ => hc, iff_of_false (by simp) fun h => h hex, fun hs =>
          iff_of_true rfl ⟨c, hc.lt, hc.eligible, hg.resolve_left (by simp [hs])⟩⟩ }
  · rw [if_neg hg]
    refine iff_of_true ?_ fun h => absurd h hg
    exact {
      bounds := coreIndices_automatic hm
      refused := fun _ => rfl
      granted := fun h => by cases h
      automatic := fun _ => by
        refine ⟨fun h => (by cases h), iff_of_false (by simp) fun h => h hex, fun hs =>
          iff_of_false (by simp) ?_⟩
        rintro ⟨d, hd, hel, h0⟩
        have := hc.least d hd hel
        exact hg (.inr (by omega)) }

theorem getCore_automatic_iff (hm : manualCore flags = false) :
    CoreRight coreValue flags n cores (onvmThreadingGetCore coreValue flags n cores) ↔
      CoreFits coreValue flags n cores := by
  unfold CoreFits
  rw [if_neg (by simp [hm])]
  by_cases hex : ∃ c < n, (cores c).Eligible
  · obtain ⟨c, hc⟩ := exists_best hex
    have hbest : ∀ d, Best n cores d ↔ d = c := fun d =>
      ⟨fun h => h.unique hc, fun h => h ▸ hc⟩
    simp only [hbest, forall_eq]
    rcases Nat.lt_or_ge (cores c).nfCount (2 ^ 16 - 1) with hlt | hge
    · rw [coreRight_automatic hm hc hlt]
      exact (and_iff_right hlt).symm
    · refine iff_of_false (fun h => ?_) fun h => Nat.not_lt_of_le hge h.1
      -- every count is at the sentinel, and the loop takes the core for none
      have hall : ∀ d < n, (cores d).Eligible → 2 ^ 16 - 1 ≤ (cores d).nfCount := by
        intro d hd hel
        have := hc.least d hd hel
        omega
      rw [getCore_automatic_none hm hall] at h
      exact (h.automatic hm).2.1.mp rfl hex
  · have hall : ∀ d < n, (cores d).Eligible → 2 ^ 16 - 1 ≤ (cores d).nfCount :=
      fun d hd hel => absurd ⟨d, hd, hel⟩ hex
    rw [getCore_automatic_none hm hall]
    refine iff_of_true ?_ fun c hc => absurd ⟨c, hc.lt, hc.eligible⟩ hex
    exact {
      bounds := coreIndices_automatic hm
      refused := fun _ => rfl
      granted := fun h => by cases h
      automatic := fun _ => by
        refine ⟨fun h => (by cases h), iff_of_true rfl hex, fun _ => iff_of_false (by simp) ?_⟩
        rintro ⟨c, hc, hel, -⟩
        exact hex ⟨c, hc, hel⟩ }

end

/-- **A request for a core is handled right exactly when it does not name core
`n`, no count is at its limit and the choice fits `*core_value`.** -/
theorem getCore_right_iff (coreValue flags n : Nat) (cores : Nat → CoreStatus) :
    CoreRight coreValue flags n cores (onvmThreadingGetCore coreValue flags n cores) ↔
      CoreFits coreValue flags n cores := by
  cases hm : manualCore flags with
  | true => exact getCore_manual_iff hm
  | false => exact getCore_automatic_iff hm

/-- On a machine with one core, core 1 by number is looked up behind the table. -/
theorem getCore_past_end : ¬ ∀ (coreValue flags n : Nat) (cores : Nat → CoreStatus),
    CoreRight coreValue flags n cores (onvmThreadingGetCore coreValue flags n cores) := by
  intro h
  have := (h 1 1 1 fun _ => {}).bounds 1 (by decide)
  exact absurd this (by decide)

/-! ## Which NF to move -/

def CoreStatus.subNf (c : CoreStatus) : CoreStatus := { c with nfCount := dec16 c.nfCount }

/-- The loop over the cores: `max_nfs_per_core` and `most_used_core` after core `n - 1`. -/
def mostUsedCore (cores : Nat → CoreStatus) : Nat → Nat × Nat
  | 0 => (0, 0)
  | n + 1 =>
    let (maxNfsPerCore, most) := mostUsedCore cores n
    if maxNfsPerCore < (cores n).nfCount then ((cores n).nfCount, u16 n) else (maxNfsPerCore, most)

/-- The loop over the NFs: the ID of the first that runs on the core, or else 0. -/
def candidateNfId (nfs : Nat → OnvmNf) (core : Nat) : Nat :=
  ((List.range maxNfs).find? fun i => onvmNfIsValid (nfs i) && (nfs i).core == core).elim 0
    fun i => (nfs i).instanceId

/-- The return value, or the core that the `rte_exit` names. -/
def onvmThreadingFindNfToReassignCore (candidateCore : Nat) (cores : Nat → CoreStatus)
    (nfs : Nat → OnvmNf) (numCores : Nat) : Except Nat Nat :=
  let (maxNfsPerCore, most) := mostUsedCore cores numCores
  -- the counts are promoted to `int`, so the difference is -1 when nothing is on any core
  if maxNfsPerCore = 1 ∨ (maxNfsPerCore : Int) - 1 ≤ (cores candidateCore).nfCount then .ok 0
  else if candidateNfId nfs most = 0 then .error most
  else .ok (candidateNfId nfs most)

/-- The lowest-numbered core with the most NFs among those below `n`. -/
def MostUsed (n : Nat) (nfCount : Nat → Nat) (c : Nat) : Prop :=
  c < n ∧ ∀ c' < n, nfCount c' < nfCount c ∨ nfCount c' = nfCount c ∧ c ≤ c'

instance (n : Nat) (nfCount : Nat → Nat) : DecidablePred (MostUsed n nfCount) := fun c =>
  inferInstanceAs (Decidable
    (c < n ∧ ∀ c' < n, nfCount c' < nfCount c ∨ nfCount c' = nfCount c ∧ c ≤ c'))

/-- What the loop over the cores has found after `n` of them. -/
theorem mostUsedCore_cases (cores : Nat → CoreStatus) {n : Nat} (hn : n ≤ 2 ^ 16) :
    (mostUsedCore cores n = (0, 0) ∧ ∀ c < n, (cores c).nfCount = 0) ∨
      (MostUsed n (fun c => (cores c).nfCount) (mostUsedCore cores n).2 ∧
        (mostUsedCore cores n).1 = (cores (mostUsedCore cores n).2).nfCount) := by
  induction n with
  | zero => exact .inl ⟨rfl, fun c hc => absurd hc (Nat.not_lt_zero c)⟩
  | succ n ih =>
    have hfit : u16 n = n := Nat.mod_eq_of_lt (by omega)
    have hsucc : ∀ c, c < n + 1 → c < n ∨ c = n := fun c => Nat.lt_succ_iff_lt_or_eq.mp
    unfold mostUsedCore
    dsimp only
    rcases ih (by omega) with ⟨heq, hzero⟩ | ⟨⟨hlt, hmost⟩, heq⟩
    · rw [heq]
      by_cases hc : 0 < (cores n).nfCount
      · rw [if_pos hc, hfit]
        refine .inr ⟨⟨Nat.lt_succ_self n, fun c hcn => ?_⟩, rfl⟩
        rcases hsucc c hcn with h | rfl
        · have := hzero c h
          dsimp only
          omega
        · exact .inr ⟨rfl, Nat.le_refl _⟩
      · rw [if_neg hc]
        refine .inl ⟨rfl, fun c hcn => ?_⟩
        rcases hsucc c hcn with h | rfl
        · exact hzero c h
        · omega
    · by_cases hc : (mostUsedCore cores n).1 < (cores n).nfCount
      · rw [if_pos hc, hfit]
        refine .inr ⟨⟨Nat.lt_succ_self n, fun c hcn => ?_⟩, rfl⟩
        rcases hsucc c hcn with h | rfl
        · have := hmost c h
          dsimp only at this ⊢
          omega
        · exact .inr ⟨rfl, Nat.le_refl _⟩
      · rw [if_neg hc]
        refine .inr ⟨⟨Nat.lt_succ_of_lt hlt, fun c hcn => ?_⟩, heq⟩
        rcases hsucc c hcn with h | rfl
        · exact hmost c h
        · dsimp only
          omega

theorem candidateNfId_eq {nfs : Nat → OnvmNf} {core j : Nat} (hj : j < maxNfs)
    (hrun : (nfs j).status = .running ∧ (nfs j).core = core)
    (hfirst : ∀ k < j, ¬ ((nfs k).status = .running ∧ (nfs k).core = core)) :
    candidateNfId nfs core = (nfs j).instanceId := by
  have hfind : (List.range maxNfs).find? (fun i => onvmNfIsValid (nfs i) && (nfs i).core == core) =
      some j := by
    rw [List.find?_range_eq_some]
    refine ⟨by simp [onvmNfIsValid, hrun], List.mem_range.mpr hj, fun k hk => ?_⟩
    have := hfirst k hk
    simp only [onvmNfIsValid, Bool.not_eq_true', Bool.and_eq_false_iff, beq_eq_false_iff_ne]
    exact not_and_or.mp this
  rw [candidateNfId, hfind]
  rfl

/-- No NF is to be moved, or the search goes on with the most used core. -/
theorem findNf_cases (candidateCore : Nat) (cores : Nat → CoreStatus) (nfs : Nat → OnvmNf)
    (n : NumCores) :
    onvmThreadingFindNfToReassignCore candidateCore cores nfs n.val = .ok 0 ∨
      ∃ c, MostUsed n.val (fun c => (cores c).nfCount) c ∧
        (cores candidateCore).nfCount + 1 < (cores c).nfCount ∧
        onvmThreadingFindNfToReassignCore candidateCore cores nfs n.val =
          if candidateNfId nfs c = 0 then .error c else .ok (candidateNfId nfs c) := by
  unfold onvmThreadingFindNfToReassignCore
  dsimp only
  split
  · exact .inl rfl
  · rename_i hgo
    rcases mostUsedCore_cases cores n.le with ⟨heq, -⟩ | ⟨hmost, heq⟩
    · rw [heq] at hgo
      omega
    · exact .inr ⟨_, hmost, by omega, rfl⟩

end Onvm.Nflib

import Onvm.Mgr.Effect

/-!
# Core accounting

`onvm_threading_get_core` counts an NF onto its core and `onvm_nf_stop` counts
it off, and clears the dedicated flag whatever NF it is that stops. That is
right because a dedicated core has one NF, which asked for it. The flag does
not say who asked, so the runs here also carry the options each slot was
started with.
-/

namespace Onvm.Mgr

open Onvm.Lib Onvm.Nflib

/-- An NF that did not set the share bit asked for a core of its own. -/
def asksDedicated (initOptions : Nat) : Bool := !shareCore initOptions

/-- The tables with the options of the request that last filled each slot. -/
structure Asking where
  tables : Tables
  asked : Nat → Nat

namespace Asking

def boot (numCores : NumCores) (enabled : Nat → Bool) : Asking where
  tables := .boot numCores enabled
  asked _ := 0

def onEvent (a : Asking) (e : Tables.Event) : Asking where
  tables := a.tables.onEvent e
  asked :=
    match e with
    | .msg (.nfStarting (some cfg)) =>
      match a.tables.grantedId cfg with
      | some id => Function.update a.asked id cfg.initOptions
      | none => a.asked
    | _ => a.asked

end Asking

namespace View

def OnCore (v : View) (c i : Nat) : Prop := (v.slots i).status.Active ∧ (v.slots i).core = c

instance (v : View) (c : Nat) : DecidablePred (v.OnCore c) := fun i =>
  inferInstanceAs (Decidable ((v.slots i).status.Active ∧ (v.slots i).core = c))

def CountedOn (v : View) (on : Nat → Nat) : Prop :=
  ∀ c, (v.cores c).nfCount = Nat.count (fun i => (v.slots i).status.Active ∧ on i = c) maxNfs

/-- The counts are right, and the dedicated cores are those of the NFs that
asked for one, each with that NF only. -/
structure CoresRight (v : View) (asked : Nat → Nat) : Prop where
  count : ∀ c, (v.cores c).nfCount = Nat.count (v.OnCore c) maxNfs
  alone : ∀ c, (v.cores c).isDedicatedCore = true →
    (v.cores c).nfCount = 1 ∧ ∀ i, v.OnCore c i → asksDedicated (asked i)
  flagged : ∀ c i, v.OnCore c i → asksDedicated (asked i) →
    (v.cores c).isDedicatedCore = true

variable {v v' : View} {asked on : Nat → Nat}

theorem Tidy.lt_of_onCore (ht : v.Tidy) {c i : Nat} (h : v.OnCore c i) : i < maxNfs :=
  ((ht i).named h.1).2.1

/-! ## The counts -/

theorem CountedOn.of_same (h : v.CountedOn on) (hs : v'.slots = v.slots) (hc : v'.cores = v.cores) :
    v'.CountedOn on := by
  intro c
  rw [hs, hc]
  exact h c

/-- A slot that was free gets an NF. -/
theorem CountedOn.grant (h : v.CountedOn on) {id s core : Nat} {ded : Bool} (hid : id < maxNfs)
    (hidle : ¬ (v.slots id).status.Active) :
    (v.grant id s core ded).CountedOn (Function.update on id core) := by
  intro c
  have hoff : ¬ ((v.slots id).status.Active ∧ on id = c) := fun hc => hidle hc.1
  by_cases hc : c = core
  · subst hc
    rw [count_enter (p := fun i => (v.slots i).status.Active ∧ on i = c) hid hoff
      (by simp [View.grant, NfStatus.Active]) fun i hi => by simp [View.grant, hi]]
    show (Function.update v.cores c _ c).nfCount = _
    rw [Function.update_self, ← inc16_count, ← h c]
    rfl
  · show (Function.update v.cores core _ c).nfCount = _
    rw [Function.update_of_ne hc, h c]
    refine count_congr fun i => ?_
    by_cases hi : i = id
    · subst hi
      refine iff_of_false hoff fun hic => hc ?_
      rw [← hic.2, Function.update_self]
    · simp [View.grant, hi]

theorem CountedOn.ready (h : v.CountedOn on) {i : Nat} (hi : (v.slots i).status = .starting) :
    (v.ready i).CountedOn on := by
  intro c
  refine (h c).trans (count_congr fun j => ?_)
  by_cases hj : j = i
  · subst hj
    simp [View.ready, NfStatus.Active, hi]
  · simp [View.ready, hj]

theorem CountedOn.vacate (h : v.CountedOn on) {i : Nat} (hlt : i < maxNfs)
    (hi : (v.slots i).status.Active) (hon : (v.slots i).core = on i) : (v.vacate i).CountedOn on := by
  intro c
  have hoff : ¬ (((v.vacate i).slots i).status.Active ∧ on i = c) := by
    simp [View.vacate, NfStatus.Active]
  have hother : ∀ j, j ≠ i → ((v.slots j).status.Active ∧ on j = c ↔
      ((v.vacate i).slots j).status.Active ∧ on j = c) := fun j hj => by simp [View.vacate, hj]
  by_cases hc : c = on i
  · subst hc
    show (Function.update v.cores _ _ (on i)).nfCount = _
    rw [hon, Function.update_self]
    exact dec16_count ((count_leave hlt ⟨hi, rfl⟩ hoff hother).trans (h _).symm)
  · show (Function.update v.cores _ _ c).nfCount = _
    rw [hon, Function.update_of_ne hc, h c]
    refine count_congr fun j => ?_
    by_cases hj : j = i
    · subst hj
      exact iff_of_false (fun hjc => hc hjc.2.symm) hoff
    · exact hother j hj

/-! ## The dedicated cores -/

theorem onCore_grant {id s core c i : Nat} {ded : Bool} : (v.grant id s core ded).OnCore c i ↔
    if i = id then core = c else v.OnCore c i := by
  unfold OnCore grant
  by_cases h : i = id
  · subst h
    simp [NfStatus.Active]
  · simp [h]

/-- A slot that was free gets an NF on a core that was not dedicated. -/
theorem CoresRight.grant (h : v.CoresRight asked) (ht : v.Tidy) {id s core options : Nat}
    (hid : id < maxNfs) (hidle : ¬ (v.slots id).status.Active)
    (hded : (v.cores core).isDedicatedCore = false)
    (hzero : shareCore options = false → (v.cores core).nfCount = 0) :
    (v.grant id s core (!shareCore options)).CoresRight (Function.update asked id options) := by
  have hoff : ∀ c, ¬ v.OnCore c id := fun c hc => hidle hc.1
  have hon : ∀ c i, i ≠ id → ((v.grant id s core (!shareCore options)).OnCore c i ↔ v.OnCore c i) :=
    fun c i hi => by rw [onCore_grant, if_neg hi]
  have hself : ∀ c, (v.grant id s core (!shareCore options)).OnCore c id ↔ core = c :=
    fun c => by rw [onCore_grant, if_pos rfl]
  have hcore : (v.grant id s core (!shareCore options)).cores core =
      (v.cores core).placed (!shareCore options) := Function.update_self ..
  have hother : ∀ c, c ≠ core → (v.grant id s core (!shareCore options)).cores c = v.cores c :=
    fun c hc => Function.update_of_ne hc ..
  have hon' : (fun i => ((v.grant id s core (!shareCore options)).slots i).core) =
      Function.update (fun i => (v.slots i).core) id core := by
    funext i
    by_cases hi : i = id
    · subst hi
      simp [View.grant]
    · simp [View.grant, hi]
  refine ⟨?_, ?_, ?_⟩
  · have hcount : (v.grant id s core (!shareCore options)).CountedOn _ :=
      CountedOn.grant h.count hid hidle
    rw [← hon'] at hcount
    exact hcount
  · intro c hc
    by_cases hcc : c = core
    · subst hcc
      rw [hcore] at hc ⊢
      have hshare : shareCore options = false := by simpa [CoreStatus.placed] using hc
      have hnone := Nat.count_iff_forall_not.mp ((h.count c).symm.trans (hzero hshare))
      refine ⟨?_, fun i hi => ?_⟩
      · show inc16 (v.cores c).nfCount = 1
        rw [hzero hshare]
        decide
      · by_cases hii : i = id
        · subst hii
          simp [asksDedicated, hshare]
        · have hi' := (hon c i hii).mp hi
          exact absurd hi' (hnone i (ht.lt_of_onCore hi'))
    · rw [hother c hcc] at hc ⊢
      obtain ⟨h1, hask⟩ := h.alone c hc
      refine ⟨h1, fun i hi => ?_⟩
      have hii : i ≠ id := by
        rintro rfl
        exact hcc ((hself c).mp hi).symm
      rw [Function.update_of_ne hii]
      exact hask i ((hon c i hii).mp hi)
  · intro c i hi hask
    by_cases hii : i = id
    · subst hii
      obtain rfl := (hself c).mp hi
      rw [hcore]
      simpa [asksDedicated, CoreStatus.placed] using hask
    · rw [Function.update_of_ne hii] at hask
      have hflag := h.flagged c i ((hon c i hii).mp hi) hask
      rw [hother c fun hcc => by rw [hcc, hded] at hflag; cases hflag]
      exact hflag

theorem CoresRight.of_eq (h : v.CoresRight asked) (hs : v'.slots = v.slots)
    (hc : v'.cores = v.cores) : v'.CoresRight asked := by
  have hon : ∀ c i, v'.OnCore c i ↔ v.OnCore c i := by
    intro c i
    unfold OnCore
    rw [hs]
  refine ⟨fun c => ?_, fun c hd => ?_, fun c i hi hask => ?_⟩
  · rw [hc, count_congr (hon c)]
    exact h.count c
  · rw [hc] at hd ⊢
    exact ⟨(h.alone c hd).1, fun i hi => (h.alone c hd).2 i ((hon c i).mp hi)⟩
  · rw [hc]
    exact h.flagged c i ((hon c i).mp hi) hask

theorem CoresRight.ready (h : v.CoresRight asked) {i : Nat} (hi : (v.slots i).status = .starting) :
    (v.ready i).CoresRight asked := by
  have hon : ∀ c j, (v.ready i).OnCore c j ↔ v.OnCore c j := by
    intro c j
    unfold OnCore View.ready
    by_cases hj : j = i
    · subst hj
      simp [NfStatus.Active, hi]
    · simp [hj]
  refine ⟨fun c => ?_, fun c hc => ?_, fun c j hj hask => ?_⟩
  · rw [count_congr (hon c)]
    exact h.count c
  · exact ⟨(h.alone c hc).1, fun j hj => (h.alone c hc).2 j ((hon c j).mp hj)⟩
  · exact h.flagged c j ((hon c j).mp hj) hask

/-- An NF leaves its core. If the core was dedicated nobody else is on it. -/
theorem CoresRight.vacate (h : v.CoresRight asked) (ht : v.Tidy) {i : Nat}
    (hi : (v.slots i).status.Active) : (v.vacate i).CoresRight asked := by
  have hlt : i < maxNfs := ((ht i).named hi).2.1
  have hoff : ∀ c, ¬ (v.vacate i).OnCore c i := by
    intro c
    simp [OnCore, View.vacate, NfStatus.Active]
  have hon : ∀ c j, j ≠ i → (v.OnCore c j ↔ (v.vacate i).OnCore c j) := by
    intro c j hj
    simp [OnCore, View.vacate, hj]
  have hcore : (v.vacate i).cores (v.slots i).core = (v.cores (v.slots i).core).freed :=
    Function.update_self ..
  have hother : ∀ c, c ≠ (v.slots i).core → (v.vacate i).cores c = v.cores c :=
    fun c hc => Function.update_of_ne hc ..
  have hself : v.OnCore (v.slots i).core i := ⟨hi, rfl⟩
  refine ⟨fun c => ?_, fun c hc => ?_, fun c j hj hask => ?_⟩
  · refine (CountedOn.vacate h.count hlt hi rfl c).trans (count_congr fun j => ?_)
    by_cases hj : j = i
    · subst hj
      exact iff_of_false (by simp [View.vacate, NfStatus.Active]) (hoff c)
    · simp [OnCore, View.vacate, hj]
  · have hcc : c ≠ (v.slots i).core := by
      rintro rfl
      rw [hcore] at hc
      cases hc
    rw [hother c hcc] at hc ⊢
    refine ⟨(h.alone c hc).1, fun j hj => (h.alone c hc).2 j ((hon c j ?_).mpr hj)⟩
    rintro rfl
    exact hoff c hj
  · have hji : j ≠ i := by
      rintro rfl
      exact hoff c hj
    have hj' := (hon c j hji).mpr hj
    have hflag := h.flagged c j hj' hask
    have hcc : c ≠ (v.slots i).core := by
      rintro rfl
      have hone := (h.count _).symm.trans (h.alone _ hflag).1
      exact hji (eq_of_count_eq_one hone (ht.lt_of_onCore hj') hlt hj' hself)
    rw [hother c hcc]
    exact hflag

end View

namespace Asking

variable {a : Asking}

theorem asked_quiet {e : Tables.Event} (h : ¬ a.tables.Acts e) : (a.onEvent e).asked = a.asked := by
  unfold onEvent
  dsimp only
  split
  · rw [Tables.grantedId_refused h]
  · rfl

/-- One event keeps the accounts, unless the manager exits. -/
theorem onEvent_right (hs : a.tables.Sound)
    (h : a.tables.exit = none → a.tables.view.CoresRight a.asked) (e : Tables.Event)
    (hexit : (a.onEvent e).tables.exit = none) :
    (a.onEvent e).tables.view.CoresRight (a.onEvent e).asked := by
  have heff := Tables.effect hs e
  have hexit' : (a.tables.onEvent e).view.exit = none := hexit
  show (a.tables.onEvent e).view.CoresRight _
  generalize (a.tables.onEvent e).view = v at heff hexit'
  cases heff with
  | quiet e hq =>
    rw [asked_quiet (hq hexit')]
    exact h hexit'
  | granted cfg he hadm hfree hded hzero =>
    have hidle : ¬ (a.tables.view.slots (a.tables.targetId cfg)).status.Active := by
      intro hact
      have hlive := ((hs.tidy _).owned he hact).2.2.2 .rx
      simp [Tables.view, hfree .rx] at hlive
    have hasked : (a.onEvent (.msg (.nfStarting (some cfg)))).asked =
        Function.update a.asked (a.tables.targetId cfg) cfg.initOptions := by
      simp only [onEvent, Tables.grantedId_admitted hadm]
    rw [hasked]
    exact (h he).grant hs.tidy hadm.id hidle hded hzero
  | clashed cfg k slot v he hadm hlive hst hid hsvc hslots hnum hcnt htab hex =>
    exact absurd hexit' hex
  | readied i he hst => exact (h he).ready hst
  | aborted i he hst => exact (h he).vacate hs.tidy (.inl hst)
  | stopped i he hst =>
    exact ((h he).vacate hs.tidy (.inr (.inl hst))).of_eq rfl rfl

theorem boot_right (numCores : NumCores) (enabled : Nat → Bool) :
    (boot numCores enabled).tables.view.CoresRight (boot numCores enabled).asked := by
  have hoff : ∀ c i, ¬ (boot numCores enabled).tables.view.OnCore c i := by
    intro c i hi
    exact absurd hi.1 (by decide : ¬ NfStatus.Active .waitingForId)
  refine ⟨fun c => ?_, fun c hc => (by cases hc), fun c i hi => absurd hi (hoff c i)⟩
  exact (Nat.count_iff_forall_not.mpr fun i _ => hoff c i).symm

theorem run_right (numCores : NumCores) (enabled : Nat → Bool) (es : List Tables.Event) :
    (exec onEvent (boot numCores enabled) es).tables.Sound ∧
      ((exec onEvent (boot numCores enabled) es).tables.exit = none →
        (exec onEvent (boot numCores enabled) es).tables.view.CoresRight
          (exec onEvent (boot numCores enabled) es).asked) := by
  refine exec_inv (I := fun a : Asking => a.tables.Sound ∧
    (a.tables.exit = none → a.tables.view.CoresRight a.asked)) ?_ ?_ es
  · intro a e h
    exact ⟨Tables.onEvent_sound h.1 e, onEvent_right h.1 h.2 e⟩
  · exact ⟨Tables.boot_sound numCores enabled, fun _ => boot_right numCores enabled⟩

end Asking

/-- **Core accounting.** In every run in which the manager does not exit, for
every core: its count is the number of NFs on it, so none of them leaves a
count of 0; a dedicated core has one NF, which asked for it; and an NF that
asked for a core of its own shares it with nobody. -/
theorem core_accounting (numCores : NumCores) (enabled : Nat → Bool) (es : List Tables.Event)
    (a : Asking) (ha : a = exec Asking.onEvent (Asking.boot numCores enabled) es)
    (hexit : a.tables.exit = none) (c : Nat) :
    (a.tables.cores c).nfCount =
        Nat.count (fun i => (a.tables.nfs i).status.Active ∧ (a.tables.nfs i).core = c) maxNfs ∧
      (∀ i, (a.tables.nfs i).status.Active → (a.tables.nfs i).core = c →
        i < maxNfs ∧ 0 < (a.tables.cores c).nfCount) ∧
      ((a.tables.cores c).isDedicatedCore = true → (a.tables.cores c).nfCount = 1 ∧
        ∃ i, (a.tables.nfs i).status.Active ∧ (a.tables.nfs i).core = c ∧
          asksDedicated (a.asked i)) ∧
      (∀ i j, (a.tables.nfs i).status.Active → (a.tables.nfs i).core = c →
        asksDedicated (a.asked i) → (a.tables.nfs j).status.Active → (a.tables.nfs j).core = c →
        j = i) := by
  obtain ⟨hs, hright⟩ := Asking.run_right numCores enabled es
  rw [← ha] at hs hright
  have h := hright hexit
  have hcount := h.count c
  refine ⟨hcount, ?_, ?_, ?_⟩
  · intro i hact hcore
    have hlt := hs.tidy.lt_of_onCore ⟨hact, hcore⟩
    have hpos := count_pos (p := a.tables.view.OnCore c) hlt ⟨hact, hcore⟩
    exact ⟨hlt, hcount.symm ▸ hpos⟩
  · intro hded
    obtain ⟨hone, hask⟩ := h.alone c hded
    obtain ⟨i, -, hi⟩ := Nat.count_ne_iff_exists.mp
      (show Nat.count (a.tables.view.OnCore c) maxNfs ≠ 0 by rw [← hcount, hone]; decide)
    exact ⟨hone, i, hi.1, hi.2, hask i hi⟩
  · intro i j hi hic hask hj hjc
    have hone := hcount.symm.trans (h.alone c (h.flagged c i ⟨hi, hic⟩ hask)).1
    exact eq_of_count_eq_one hone (hs.tidy.lt_of_onCore ⟨hj, hjc⟩)
      (hs.tidy.lt_of_onCore ⟨hi, hic⟩) ⟨hj, hjc⟩ ⟨hi, hic⟩

def fourCores : NumCores := ⟨4, by decide⟩

/-- One NF asks for a core of its own and runs, another shares and is stopped. -/
def coreRun : List Tables.Event :=
  [.msg (.nfStarting (some { serviceId := 1 })),
    .msg (.nfStarting (some { serviceId := 1, initOptions := 2 })),
    .msg (.nfReady 1),
    .msg (.nfStopping (some 2))]

theorem core_accounting_coreRun :
    let a := exec Asking.onEvent (Asking.boot fourCores fun _ => true) coreRun
    (a.tables.cores 0).isDedicatedCore = true ∧ (a.tables.cores 0).nfCount = 1 ∧
      ∃ i, (a.tables.nfs i).status.Active ∧ (a.tables.nfs i).core = 0 ∧
        asksDedicated (a.asked i) := by
  intro a
  have hded : (a.tables.cores 0).isDedicatedCore = true := by decide
  obtain ⟨-, -, halone, -⟩ :=
    core_accounting fourCores (fun _ => true) coreRun a rfl (by decide) 0
  exact ⟨hded, halone hded⟩

end Onvm.Mgr

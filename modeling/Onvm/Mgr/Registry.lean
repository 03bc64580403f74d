import Onvm.Mgr.Effect

/-!
# Counters and service tables

Three structures say which NFs run: the statuses in the slots, the counters
`num_nfs` and `nf_per_service_count`, and the packed ID lists in `services`.
`Counted` ties the counters to the slots in every run. `Listed` ties the lists
to them too; it needs IDs other than 0, which ends a list, and services that fit
their table. `onvm_nf_start` tests the size of a service although
`onvm_nf_ready` takes the place, so NFs that start together can outgrow it.
-/

namespace Onvm.Mgr

open Onvm.Lib Onvm.Nflib

namespace View

def Runs (v : View) (s i : Nat) : Prop :=
  (v.slots i).status = .running ∧ (v.slots i).serviceId = s

instance (v : View) (s : Nat) : DecidablePred (v.Runs s) := fun i =>
  inferInstanceAs (Decidable ((v.slots i).status = .running ∧ (v.slots i).serviceId = s))

structure Counted (v : View) : Prop where
  total : v.numNfs = Nat.count (fun i => (v.slots i).status = .running) maxNfs
  each : ∀ s, v.nfPerServiceCount s = Nat.count (v.Runs s) maxNfs

/-- The table of each service lists its running NFs, and no NF has ID 0. -/
structure Listed (v : View) : Prop where
  nonzero : ∀ i, (v.slots i).status.Active → i ≠ 0
  table : ∀ s, ∃ l, Packed (v.services s) l ∧ l.Nodup ∧ l.length = v.nfPerServiceCount s ∧
    ∀ i, i ∈ l ↔ v.Runs s i

def Receives (v : View) : Prop :=
  ∀ i, (v.slots i).status = .running → (v.slots i).rxQ = some ⟨.rx, i⟩

variable {v v' : View}

/-! ## What the changes do to the running NFs -/

theorem Receives.update {i : Nat} {slot : Slot} (h : v.Receives)
    (hslots : v'.slots = Function.update v.slots i slot)
    (hslot : slot.status = .running → slot.rxQ = some ⟨.rx, i⟩) : v'.Receives := by
  intro j hj
  rw [hslots] at hj ⊢
  by_cases hji : j = i
  · subst hji
    rw [Function.update_self] at hj ⊢
    exact hslot hj
  · rw [Function.update_of_ne hji] at hj ⊢
    exact h j hj

/-- A slot is written in which no NF ran or runs. -/
theorem runs_update {i : Nat} {slot : Slot} (hslots : v'.slots = Function.update v.slots i slot)
    (hold : (v.slots i).status ≠ .running) (hnew : slot.status ≠ .running) (s j : Nat) :
    v'.Runs s j ↔ v.Runs s j := by
  unfold Runs
  rw [hslots]
  by_cases hj : j = i
  · subst hj
    simp [hold, hnew]
  · rw [Function.update_of_ne hj]

theorem running_iff (v : View) (i : Nat) : (v.slots i).status = .running ↔ ∃ s, v.Runs s i :=
  ⟨fun h => ⟨_, h, rfl⟩, fun ⟨_, h⟩ => h.1⟩

theorem runs_ready {i : Nat} (s j : Nat) :
    (v.ready i).Runs s j ↔ if j = i then (v.slots i).serviceId = s else v.Runs s j := by
  unfold Runs ready
  by_cases hj : j = i
  · subst hj
    simp
  · simp [hj]

theorem runs_retire {i : Nat} (s j : Nat) : (v.retire i).Runs s j ↔ v.Runs s j ∧ j ≠ i := by
  unfold Runs retire withdraw vacate
  by_cases hj : j = i
  · subst hj
    simp
  · simp [hj]

/-! ## The counters -/

theorem Counted.of_same (h : v.Counted) (hn : v'.numNfs = v.numNfs)
    (hc : v'.nfPerServiceCount = v.nfPerServiceCount) (hr : ∀ s i, v'.Runs s i ↔ v.Runs s i) :
    v'.Counted where
  total := by
    rw [hn, h.total]
    refine count_congr fun i => ?_
    rw [running_iff, running_iff]
    exact exists_congr fun s => (hr s i).symm
  each s := by
    rw [hc, h.each]
    exact count_congr fun i => (hr s i).symm

theorem Counted.ready (h : v.Counted) {i : Nat} (hi : i < maxNfs)
    (hst : (v.slots i).status = .starting) : (v.ready i).Counted where
  total := by
    show inc16 v.numNfs = _
    rw [h.total, inc16_count]
    refine (count_enter hi ?_ ?_ ?_).symm
    · rw [hst]
      decide
    · simp [View.ready]
    · intro j hj
      simp [View.ready, hj]
  each s := by
    have hoff : ¬ v.Runs s i := fun hr => by
      rw [Runs, hst] at hr
      exact absurd hr.1 (by decide)
    by_cases hs : s = (v.slots i).serviceId
    · subst hs
      show Function.update v.nfPerServiceCount _ _ _ = _
      rw [Function.update_self, h.each, inc16_count]
      refine (count_enter hi hoff ?_ ?_).symm
      · rw [runs_ready, if_pos rfl]
      · intro j hj
        rw [runs_ready, if_neg hj]
    · show Function.update v.nfPerServiceCount _ _ _ = _
      rw [Function.update_of_ne hs, h.each]
      refine count_congr fun j => ?_
      rw [runs_ready]
      split
      · rename_i hj
        subst hj
        exact iff_of_false hoff (Ne.symm hs)
      · exact Iff.rfl

theorem Counted.retire (h : v.Counted) {i : Nat} (hi : i < maxNfs)
    (hst : (v.slots i).status = .running) : (v.retire i).Counted where
  total := by
    show dec16 v.numNfs = _
    refine dec16_count ((count_leave hi hst ?_ ?_).trans h.total.symm)
    · simp [View.retire, withdraw, vacate]
    · intro j hj
      simp [View.retire, withdraw, vacate, hj]
  each s := by
    by_cases hs : s = (v.slots i).serviceId
    · subst hs
      show Function.update v.nfPerServiceCount _ _ _ = _
      rw [Function.update_self]
      refine dec16_count ((count_leave hi ⟨hst, rfl⟩ ?_ ?_).trans (h.each _).symm)
      · rw [runs_retire]
        exact fun hr => hr.2 rfl
      · intro j hj
        rw [runs_retire]
        exact (and_iff_left hj).symm
    · show Function.update v.nfPerServiceCount _ _ _ = _
      rw [Function.update_of_ne hs, h.each]
      refine count_congr fun j => ?_
      rw [runs_retire]
      refine ⟨fun hr => ⟨hr, ?_⟩, And.left⟩
      rintro rfl
      exact hs hr.2.symm

/-! ## The service tables -/

theorem Listed.update (h : v.Listed) {i : Nat} {slot : Slot}
    (hslots : v'.slots = Function.update v.slots i slot) (hold : (v.slots i).status ≠ .running)
    (hnew : slot.status ≠ .running) (hz : slot.status.Active → i ≠ 0)
    (hc : v'.nfPerServiceCount = v.nfPerServiceCount) (ht : v'.services = v.services) :
    v'.Listed := by
  refine ⟨fun j hj => ?_, fun s => ?_⟩
  · rw [hslots] at hj
    by_cases hji : j = i
    · subst hji
      rw [Function.update_self] at hj
      exact hz hj
    · rw [Function.update_of_ne hji] at hj
      exact h.nonzero j hj
  · obtain ⟨l, hp, hnd, hlen, hmem⟩ := h.table s
    rw [hc, ht]
    exact ⟨l, hp, hnd, hlen, fun j => (hmem j).trans (runs_update hslots hold hnew s j).symm⟩

theorem Listed.ready (h : v.Listed) (hc : v.Counted) (ht : v.Tidy) {i : Nat}
    (hst : (v.slots i).status = .starting) : (v.ready i).Listed := by
  have hact : (v.slots i).status.Active := .inl hst
  refine ⟨fun j hj => ?_, fun s => ?_⟩
  · by_cases hji : j = i
    · subst hji
      exact h.nonzero j hact
    · simp only [View.ready, Function.update_of_ne hji] at hj
      exact h.nonzero j hj
  obtain ⟨l, hp, hnd, hlen, hmem⟩ := h.table s
  have hoff : i ∉ l := fun hi => by
    have := ((hmem i).mp hi).1
    rw [hst] at this
    exact absurd this (by decide)
  by_cases hs : s = (v.slots i).serviceId
  · subst hs
    have hpush := hp.push (h.nonzero i hact)
    rw [hlen] at hpush
    refine ⟨l ++ [i], ?_, ?_, ?_, fun j => ?_⟩
    · show Packed (Function.update v.services _ _ _) _
      rw [Function.update_self, ((ht i).named hact).1]
      exact hpush
    · exact List.nodup_append.mpr ⟨hnd, List.nodup_singleton i, by
        rintro a ha b hb rfl
        exact hoff (List.mem_singleton.mp hb ▸ ha)⟩
    · show _ = Function.update v.nfPerServiceCount _ _ _
      rw [Function.update_self, hc.each, inc16_count, ← hc.each, ← hlen, List.length_append,
        List.length_singleton]
    · rw [runs_ready, List.mem_append, List.mem_singleton, hmem]
      split
      · rename_i hj
        simp [hj]
      · rename_i hj
        simp [hj]
  · refine ⟨l, ?_, hnd, ?_, fun j => ?_⟩
    · show Packed (Function.update v.services _ _ _) _
      rwa [Function.update_of_ne hs]
    · show _ = Function.update v.nfPerServiceCount _ _ _
      rwa [Function.update_of_ne hs]
    · rw [hmem, runs_ready]
      split
      · rename_i hj
        subst hj
        rw [← hmem]
        exact iff_of_false hoff (Ne.symm hs)
      · exact Iff.rfl

/-- The NF is taken out of its service, whose list fits the table. -/
theorem Listed.retire (h : v.Listed) (hc : v.Counted) {i : Nat}
    (hst : (v.slots i).status = .running)
    (hcap : v.nfPerServiceCount (v.slots i).serviceId ≤ maxNfsPerService) :
    (v.retire i).Listed := by
  refine ⟨fun j hj => ?_, fun s => ?_⟩
  · by_cases hji : j = i
    · subst hji
      exact h.nonzero j (.inr (.inl hst))
    · simp only [View.retire, withdraw, vacate, Function.update_of_ne hji] at hj
      exact h.nonzero j hj
  obtain ⟨l, hp, hnd, hlen, hmem⟩ := h.table s
  by_cases hs : s = (v.slots i).serviceId
  · subst hs
    have hil : i ∈ l := (hmem i).mpr ⟨hst, rfl⟩
    refine ⟨l.erase i, ?_, hnd.erase i, ?_, fun j => ?_⟩
    · show Packed (Function.update v.services _ _ _) _
      rw [Function.update_self]
      exact hp.remove hil (by rw [hlen]; exact hcap)
    · show _ = Function.update v.nfPerServiceCount _ _ _
      rw [Function.update_self, List.length_erase_of_mem hil]
      show _ = dec16 (v.nfPerServiceCount _)
      rw [← hlen]
      have hpos := List.length_pos_of_mem hil
      have hle : l.length ≤ maxNfs := by
        rw [hlen, hc.each]
        exact Nat.count_le _
      have hmax : maxNfs = 128 := rfl
      obtain ⟨n, hn⟩ : ∃ n, l.length = n + 1 := ⟨l.length - 1, by omega⟩
      rw [hn, dec16_succ (by omega), Nat.add_sub_cancel]
    · rw [runs_retire, hnd.mem_erase_iff, hmem]
      exact and_comm
  · refine ⟨l, ?_, hnd, ?_, fun j => ?_⟩
    · show Packed (Function.update v.services _ _ _) _
      rwa [Function.update_of_ne hs]
    · show _ = Function.update v.nfPerServiceCount _ _ _
      rwa [Function.update_of_ne hs]
    · rw [hmem, runs_retire]
      refine ⟨fun hr => ⟨hr, ?_⟩, And.left⟩
      rintro rfl
      exact hs hr.2.symm

end View

namespace Tables

variable {m : Tables}

/-- Each change keeps the counters right. -/
theorem Effect.counted {e : Event} {v : View} (h : Effect m e v) (hs : m.Sound)
    (hc : m.view.Counted) : v.Counted := by
  have hlt : ∀ i, (m.nfs i).status.Active → i < maxNfs := fun i hi => ((hs.tidy i).named hi).2.1
  cases h with
  | quiet => exact hc
  | granted cfg he hadm hfree hded hzero =>
    exact hc.of_same rfl rfl (View.runs_update rfl hadm.free (by simp))
  | clashed cfg k slot v he hadm hlive hst hid hsvc hslots hnum hcnt htab hexit =>
    exact hc.of_same hnum hcnt (View.runs_update hslots hadm.free (by simp [hst]))
  | readied i he hst => exact hc.ready (hlt i (.inl hst)) hst
  | aborted i he hst =>
    refine hc.of_same rfl rfl (View.runs_update rfl ?_ (by simp))
    rw [view_slots]
    simp [slotOf, hst]
  | stopped i he hst => exact hc.retire (hlt i (.inr (.inl hst))) hst

theorem boot_counted (numCores : NumCores) (enabled : Nat → Bool) :
    (boot numCores enabled).view.Counted where
  total := (Nat.count_iff_forall_not.mpr fun i _ h => by cases h).symm
  each s := (Nat.count_iff_forall_not.mpr fun i _ h => by cases h.1).symm

theorem counted_service (hc : m.view.Counted) (s : Nat) : m.nfPerServiceCount s =
    Nat.count (fun j => (m.nfs j).status = .running ∧ (m.nfs j).serviceId = s) maxNfs :=
  hc.each s

/-! ## Capacity -/

/-- The step leaves every service within its table, and `onvm_nf_ready` writes
inside it. -/
def CapacityKept (m : Tables) (e : Event) : Prop :=
  (∀ i k, e = .msg (.nfReady i) → m.exit = none → m.readyIndex i = some k →
      k < maxNfsPerService) ∧
    ∀ s, (m.onEvent e).nfPerServiceCount s ≤ maxNfsPerService

/-- An NF that becomes ready finds its service not yet full of running NFs. -/
def ReadyFits (m : Tables) (e : Event) : Prop :=
  ∀ i, e = .msg (.nfReady i) → m.exit = none → (m.nfs i).status = .starting →
    Nat.count (fun j => (m.nfs j).status = .running ∧
      (m.nfs j).serviceId = (m.nfs i).serviceId) maxNfs < maxNfsPerService

structure Fits (m : Tables) : Prop where
  sound : m.Sound
  counted : m.view.Counted
  cap : ∀ s, m.nfPerServiceCount s ≤ maxNfsPerService

theorem boot_fits (numCores : NumCores) (enabled : Nat → Bool) : (boot numCores enabled).Fits :=
  ⟨boot_sound numCores enabled, boot_counted numCores enabled, fun _ => Nat.zero_le _⟩

theorem Fits.onEvent (h : m.Fits) {e : Event} (hr : m.ReadyFits e) : (m.onEvent e).Fits := by
  have heff := effect h.sound e
  have hcounted := heff.counted h.sound h.counted
  refine ⟨onEvent_sound h.sound e, hcounted, fun s => ?_⟩
  show (m.onEvent e).view.nfPerServiceCount s ≤ _
  generalize (m.onEvent e).view = v at heff hcounted
  cases heff with
  | quiet => exact h.cap s
  | granted => exact h.cap s
  | clashed cfg k slot v he hadm hlive hst hid hsvc hslots hnum hcnt htab hexit =>
    rw [hcnt]
    exact h.cap s
  | readied i he hst =>
    by_cases hs : s = (m.nfs i).serviceId
    · subst hs
      have hlt := hr i rfl he hst
      rw [← counted_service h.counted] at hlt
      have hfew : m.nfPerServiceCount (m.nfs i).serviceId < 2 ^ 16 - 1 :=
        Nat.lt_trans hlt (by decide)
      refine le_of_eq_of_le (Function.update_self ..) ?_
      exact le_of_eq_of_le (inc16_eq hfew) hlt
    · exact le_of_eq_of_le (Function.update_of_ne hs ..) (h.cap s)
  | aborted => exact h.cap s
  | stopped i he hst =>
    rw [hcounted.each]
    have hcap := h.cap s
    rw [counted_service h.counted] at hcap
    refine Nat.le_trans (Nat.count_mono_left fun j _ hj => ?_) hcap
    exact ((View.runs_retire s j).mp hj).1

theorem capacity_step (h : m.Fits) (e : Event) : m.CapacityKept e ↔ m.ReadyFits e := by
  constructor
  · rintro ⟨hw, -⟩ i rfl he hst
    rw [← counted_service h.counted]
    exact hw i _ rfl he (if_pos hst)
  · intro hr
    refine ⟨?_, (h.onEvent hr).cap⟩
    rintro i k rfl he hk
    unfold readyIndex at hk
    split at hk
    · rename_i hst
      have hlt := hr i rfl he hst
      rw [← counted_service h.counted, Option.some.inj hk] at hlt
      exact hlt
    · cases hk

/-- **Capacity.** Along a run every service stays within its table, and
`onvm_nf_ready` inside it, exactly when no NF becomes ready while its service
already has `MAX_NFS_PER_SERVICE` running NFs. -/
theorem service_capacity_iff (numCores : NumCores) (enabled : Nat → Bool) (es : List Event) :
    Along onEvent CapacityKept (boot numCores enabled) es ↔
      Along onEvent ReadyFits (boot numCores enabled) es :=
  along_iff (I := Fits) (fun _ _ h hr => h.onEvent hr) (fun _ e h => capacity_step h e)
    (boot_fits numCores enabled)

/-- One core, shared by 33 NFs of a service that all start before any is ready. -/
def oneCore : NumCores := ⟨1, by decide⟩

def crowdStarts : List Event :=
  List.replicate 33 (.msg (.nfStarting (some { serviceId := 1, initOptions := 2 }))) ++
    (List.range 32).map fun i => .msg (.nfReady (i + 1))

theorem crowd_overflows :
    ¬ Along onEvent CapacityKept (boot oneCore fun _ => true)
        (crowdStarts ++ [.msg (.nfReady 33)]) ∧
      (exec onEvent (boot oneCore fun _ => true) crowdStarts).readyIndex 33 = some 32 ∧
      (exec onEvent (boot oneCore fun _ => true)
        (crowdStarts ++ [.msg (.nfReady 33)])).nfPerServiceCount 1 = 33 := by
  have hwrite : (exec onEvent (boot oneCore fun _ => true) crowdStarts).readyIndex 33 = some 32 := by
    decide +kernel
  refine ⟨fun h => ?_, hwrite, by decide +kernel⟩
  obtain ⟨-, ⟨hidx, -⟩, -⟩ := along_append.mp h
  have hlt := hidx 33 32 rfl (by decide +kernel) hwrite
  exact absurd hlt (by decide)

/-! ## Consistency -/

/-- The NF lets the manager choose its ID, and afterwards no service has more
NFs starting or running than its table holds. -/
def WithinLimits (m : Tables) (e : Event) : Prop :=
  (∀ cfg, e = .msg (.nfStarting (some cfg)) → cfg.instanceId = nfNoId) ∧
    ∀ s, Nat.count (fun i => ((m.onEvent e).nfs i).status.Active ∧
      ((m.onEvent e).nfs i).serviceId = s) maxNfs ≤ maxNfsPerService

/-- The invariant of the runs within the limits. -/
structure Consistent (m : Tables) : Prop where
  fits : m.Fits
  listed : m.view.Listed
  limit : ∀ s, Nat.count (fun i => (m.nfs i).status.Active ∧ (m.nfs i).serviceId = s) maxNfs ≤
    maxNfsPerService

/-- Counting those that start, a service has room for the one that becomes
ready. -/
theorem Consistent.readyFits (h : m.Consistent) (e : Event) : m.ReadyFits e := by
  rintro i rfl he hst
  have hlt : i < maxNfs := ((h.fits.sound.tidy i).named (.inl hst)).2.1
  have hleave := count_leave (p := fun j => (m.nfs j).status.Active ∧
    (m.nfs j).serviceId = (m.nfs i).serviceId)
    (q := fun j => ((m.nfs j).status.Active ∧ (m.nfs j).serviceId = (m.nfs i).serviceId) ∧ j ≠ i)
    hlt ⟨.inl hst, rfl⟩ (fun hq => hq.2 rfl) fun j hj => (and_iff_left hj).symm
  have hmono : Nat.count (fun j => (m.nfs j).status = .running ∧
      (m.nfs j).serviceId = (m.nfs i).serviceId) maxNfs ≤ Nat.count (fun j =>
      ((m.nfs j).status.Active ∧ (m.nfs j).serviceId = (m.nfs i).serviceId) ∧ j ≠ i) maxNfs := by
    refine Nat.count_mono_left fun j _ hj => ⟨⟨.inr (.inl hj.1), hj.2⟩, ?_⟩
    rintro rfl
    rw [hst] at hj
    cases hj.1
  have hlimit := h.limit (m.nfs i).serviceId
  omega

theorem boot_consistent (numCores : NumCores) (enabled : Nat → Bool) :
    (boot numCores enabled).Consistent where
  fits := boot_fits numCores enabled
  listed := by
    refine ⟨fun i hi => absurd hi (by decide : ¬ NfStatus.Active .waitingForId), fun s => ?_⟩
    refine ⟨[], packed_nil, List.nodup_nil, rfl, fun i => iff_of_false List.not_mem_nil ?_⟩
    exact fun h => by cases h.1
  limit s := by
    rw [Nat.count_iff_forall_not.mpr]
    · exact Nat.zero_le _
    · intro i _ h
      exact absurd h.1 (by decide : ¬ NfStatus.Active .waitingForId)

theorem Fits.listed_onEvent (h : m.Fits) (hl : m.view.Listed) {e : Event}
    (hid : ∀ cfg, e = .msg (.nfStarting (some cfg)) → m.Admits cfg → m.targetId cfg ≠ 0) :
    (m.onEvent e).view.Listed := by
  have heff := effect h.sound e
  generalize (m.onEvent e).view = v at heff
  cases heff with
  | quiet => exact hl
  | granted cfg he hadm hfree hded hzero =>
    exact hl.update rfl hadm.free (by simp) (fun _ => hid cfg rfl hadm) rfl rfl
  | clashed cfg k slot v he hadm hlive hst hid' hsvc hslots hnum hcnt htab hexit =>
    exact hl.update hslots hadm.free (by simp [hst]) (fun _ => hid cfg rfl hadm) hcnt htab
  | readied i he hst => exact hl.ready h.counted h.sound.tidy hst
  | aborted i he hst =>
    refine hl.update rfl ?_ (by simp) (fun hact => ?_) rfl rfl
    · rw [view_slots]
      simp [slotOf, hst]
    · exact absurd hact (by decide : ¬ NfStatus.Active .stopped)
  | stopped i he hst => exact hl.retire h.counted hst (h.cap _)

/-- **A running NF** stays in its slot and its service until it is stopped. -/
theorem Effect.runs {e : Event} {v : View} (h : Effect m e v) {s i : Nat} (hr : m.view.Runs s i)
    (hstop : e = .msg (.nfStopping (some i)) → m.exit ≠ none) : v.Runs s i := by
  cases h with
  | quiet => exact hr
  | granted cfg he hadm => exact (View.runs_update rfl hadm.free (by simp) s i).mpr hr
  | clashed cfg k slot v he hadm hlive hst hid hsvc hslots =>
    exact (View.runs_update hslots hadm.free (by simp [hst]) s i).mpr hr
  | readied j he hst =>
    have hij : i ≠ j := by
      rintro rfl
      exact absurd (hst.symm.trans hr.1) nofun
    rw [View.runs_ready, if_neg hij]
    exact hr
  | aborted j he hst =>
    exact (View.runs_update rfl (by simp [slotOf, hst]) (by simp) s i).mpr hr
  | stopped j he hst =>
    rw [View.runs_retire]
    refine ⟨hr, ?_⟩
    rintro rfl
    exact hstop rfl he

/-- A running NF receives on the ring of its ID. -/
theorem Effect.receives {e : Event} {v : View} (hs : m.Sound) (h : Effect m e v)
    (hq : m.view.Receives) : v.Receives := by
  cases h with
  | quiet => exact hq
  | granted => exact hq.update rfl (by simp)
  | clashed cfg k slot v he hadm hlive hst hid hsvc hslots => exact hq.update hslots (by simp [hst])
  | readied i he hst =>
    refine hq.update rfl fun _ => ?_
    exact ((hs.tidy i).owned he (.inl hst)).1
  | aborted => exact hq.update rfl (by simp)
  | stopped => exact hq.update rfl (by simp)

theorem Consistent.onEvent (h : m.Consistent) {e : Event} (hw : m.WithinLimits e) :
    (m.onEvent e).Consistent := by
  refine ⟨h.fits.onEvent (h.readyFits e), ?_, hw.2⟩
  refine h.fits.listed_onEvent h.listed fun cfg he hadm => ?_
  exact Nat.ne_of_gt (targetId_pos h.fits.sound.next (hw.1 cfg he) hadm.id)

theorem lookup_runs (hl : m.view.Listed) {s : Nat} {pkt : Option UInt32}
    (hne : onvmScServiceToNfMap m.nfPerServiceCount m.services s pkt ≠ 0) :
    m.view.Runs s (onvmScServiceToNfMap m.nfPerServiceCount m.services s pkt) := by
  obtain ⟨l, hp, -, hlen, hmem⟩ := hl.table s
  have hlen' : l.length = m.nfPerServiceCount s := hlen
  have hpos : 0 < m.nfPerServiceCount s := by
    by_contra hzero
    refine hne ?_
    unfold onvmScServiceToNfMap
    rw [if_pos (by omega)]
  obtain ⟨k, hk, hmap⟩ := serviceToNfMap_index m.services pkt hpos
  rw [hmap, ← hmem, ← hp.map_range]
  exact List.mem_map.mpr ⟨k, List.mem_range.mpr (hlen' ▸ hk), rfl⟩

theorem Consistent.service (h : m.Consistent) (s : Nat) : ∃ l,
    (List.range (m.nfPerServiceCount s)).map (m.services s) = l ∧ l.Nodup ∧ 0 ∉ l ∧
      l.length = m.nfPerServiceCount s ∧ (∀ k, l.length ≤ k → m.services s k = 0) ∧
      ∀ i, i ∈ l ↔ (m.nfs i).status = .running ∧ (m.nfs i).serviceId = s := by
  obtain ⟨l, hp, hnd, hlen, hmem⟩ := h.listed.table s
  have hlen' : l.length = m.nfPerServiceCount s := hlen
  refine ⟨l, ?_, hnd, hp.ne, hlen', fun k hk => hp.tail hk, hmem⟩
  rw [← hlen']
  exact hp.map_range

theorem Consistent.named (h : m.Consistent) {i : Nat} (hi : (m.nfs i).status = .running) :
    (m.nfs i).instanceId = i ∧ i < maxNfs := by
  obtain ⟨hid, hlt, -⟩ := (h.fits.sound.tidy i).named (.inr (.inl hi))
  exact ⟨hid, hlt⟩

theorem Consistent.lookup_running (h : m.Consistent) {s i : Nat}
    (hi : (m.nfs i).status = .running ∧ (m.nfs i).serviceId = s) (pkt : Option UInt32) :
    let id := onvmScServiceToNfMap m.nfPerServiceCount m.services s pkt
    id ≠ 0 ∧ (m.nfs id).instanceId = id ∧ (m.nfs id).status = .running ∧
      (m.nfs id).serviceId = s := by
  intro id
  obtain ⟨l, hl, -, hne, -, -, hmem⟩ := h.service s
  have hpos : 0 < m.nfPerServiceCount s := by
    rw [counted_service h.fits.counted]
    exact count_pos (p := m.view.Runs s) (h.named hi.1).2 hi
  obtain ⟨k, hk, hmap⟩ := serviceToNfMap_index m.services pkt hpos
  have hin : id ∈ l := by
    rw [← hl]
    exact List.mem_map.mpr ⟨k, List.mem_range.mpr hk, hmap.symm⟩
  obtain ⟨hrun, hsvc⟩ := (hmem id).mp hin
  exact ⟨fun h0 => hne (h0 ▸ hin), (h.named hrun).1, hrun, hsvc⟩

theorem Consistent.lookup_none (h : m.Consistent) {s : Nat}
    (hno : ¬ ∃ i < maxNfs, (m.nfs i).status = .running ∧ (m.nfs i).serviceId = s)
    (pkt : Option UInt32) : onvmScServiceToNfMap m.nfPerServiceCount m.services s pkt = 0 := by
  have hzero : m.nfPerServiceCount s = 0 := by
    rw [counted_service h.fits.counted]
    exact Nat.count_iff_forall_not.mpr fun i hi hr => hno ⟨i, hi, hr⟩
  unfold onvmScServiceToNfMap
  simp only [hzero, if_true]

/-- **Registry consistency.** After every message of a run in which the manager
chooses the IDs and no service outgrows its table: `num_nfs` and the counts per
service are those of the running NFs; the table of a service lists the IDs of
its running NFs, each once and none 0, and zeros after them; and the lookup by a
packet, or without one, finds a running NF of the service exactly when there is
one. -/
theorem registry_consistent (numCores : NumCores) (enabled : Nat → Bool) (es : List Event)
    (h : Along onEvent WithinLimits (boot numCores enabled) es)
    (m : Tables) (hm : m = exec onEvent (boot numCores enabled) es) :
    m.numNfs = Nat.count (fun i => (m.nfs i).status = .running) maxNfs ∧
    ∀ s, m.nfPerServiceCount s =
        Nat.count (fun i => (m.nfs i).status = .running ∧ (m.nfs i).serviceId = s) maxNfs ∧
      m.nfPerServiceCount s ≤ maxNfsPerService ∧
      ((List.range (m.nfPerServiceCount s)).map (m.services s)).Nodup ∧
      0 ∉ (List.range (m.nfPerServiceCount s)).map (m.services s) ∧
      (∀ id, id ∈ (List.range (m.nfPerServiceCount s)).map (m.services s) ↔
        ∃ i < maxNfs, (m.nfs i).status = .running ∧ (m.nfs i).serviceId = s ∧
          (m.nfs i).instanceId = id) ∧
      (∀ k, m.nfPerServiceCount s ≤ k → m.services s k = 0) ∧
      ∀ pkt, let id := onvmScServiceToNfMap m.nfPerServiceCount m.services s pkt
        ((∃ i < maxNfs, (m.nfs i).status = .running ∧ (m.nfs i).serviceId = s) →
          id ≠ 0 ∧ (m.nfs id).instanceId = id ∧ (m.nfs id).status = .running ∧
            (m.nfs id).serviceId = s) ∧
        ((¬ ∃ i < maxNfs, (m.nfs i).status = .running ∧ (m.nfs i).serviceId = s) → id = 0) := by
  have hc : m.Consistent := hm ▸
    Along.inv (I := Consistent) (fun _ _ h hw => h.onEvent hw) (boot_consistent numCores enabled) h
  refine ⟨hc.fits.counted.total, fun s => ?_⟩
  obtain ⟨l, hl, hnd, hne, hlen, htail, hmem⟩ := hc.service s
  rw [hl]
  refine ⟨counted_service hc.fits.counted s, hc.fits.cap s, hnd, hne, fun id => ?_, ?_,
    fun pkt => ⟨?_, fun hno => hc.lookup_none hno pkt⟩⟩
  · rw [hmem]
    constructor
    · rintro ⟨hr, hs⟩
      exact ⟨id, (hc.named hr).2, hr, hs, (hc.named hr).1⟩
    · rintro ⟨i, -, hr, hs, rfl⟩
      rw [(hc.named hr).1]
      exact ⟨hr, hs⟩
  · rw [← hlen]
    exact htail
  · rintro ⟨i, -, hr⟩
    exact hc.lookup_running hr pkt

theorem withinLimits_of_few {e : Event}
    (hid : ∀ cfg, e = .msg (.nfStarting (some cfg)) → cfg.instanceId = nfNoId)
    (hfew : Nat.count (fun i => ((m.onEvent e).nfs i).status.Active) maxNfs ≤ maxNfsPerService) :
    m.WithinLimits e :=
  ⟨hid, fun _ => Nat.le_trans (Nat.count_mono_left fun _ _ h => h.1) hfew⟩

/-- Two NFs of a service start and become ready; the first stops, and again. -/
def pairRun : List Event :=
  [.msg (.nfStarting (some { serviceId := 1, initOptions := 2 })),
    .msg (.nfStarting (some { serviceId := 1, initOptions := 2 })),
    .msg (.nfReady 1), .msg (.nfReady 2), .msg (.nfStopping (some 1)),
    .msg (.nfStopping (some 1))]

theorem registry_consistent_pairRun :
    let m := exec onEvent (boot oneCore fun _ => true) pairRun
    let id := onvmScServiceToNfMap m.nfPerServiceCount m.services 1 (some 5)
    id ≠ 0 ∧ (m.nfs id).instanceId = id ∧ (m.nfs id).status = .running ∧
      (m.nfs id).serviceId = 1 := by
  intro m id
  have hlimits : Along onEvent WithinLimits (boot oneCore fun _ => true) pairRun := by
    refine ⟨withinLimits_of_few ?_ ?_, withinLimits_of_few ?_ ?_, withinLimits_of_few ?_ ?_,
      withinLimits_of_few ?_ ?_, withinLimits_of_few ?_ ?_, withinLimits_of_few ?_ ?_, trivial⟩
    case refine_1 | refine_3 =>
      rintro cfg ⟨⟩
      rfl
    case refine_5 | refine_7 | refine_9 | refine_11 => rintro cfg ⟨⟩
    all_goals decide +kernel
  obtain ⟨-, hservice⟩ :=
    registry_consistent oneCore (fun _ => true) pairRun hlimits m rfl
  obtain ⟨-, -, -, -, -, -, hmap⟩ := hservice 1
  exact (hmap (some 5)).1 ⟨2, by decide, by decide +kernel⟩

end Tables

end Onvm.Mgr

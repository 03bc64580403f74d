import Onvm.Mgr.Effect

/-!
# The options a child inherits

What an NF was started with goes from its request through `onvm_nf_start` into its
slot, and from there through `onvm_nflib_inherit_parent_config` into the request of
its child. `flags.init_options` is read on the way back and never filled on the way
in: the child gets what an earlier owner of the slot left there, which is nothing.
-/

namespace Onvm.Mgr

open Onvm.Lib Onvm.Nflib

def tagSize : Nat := 15

def copyTag (tag : String) : String := String.ofList (tag.toList.take (tagSize - 1))

/-- A configuration from the pool, with the rest of the pool; `none` when there is none
left and the process exits. `service_id` is left as it was. -/
def onvmNflibInitNfInitCfg (pool : List OnvmNfInitCfg) (lcore : Nat) (tag : String) :
    Option (OnvmNfInitCfg × List OnvmNfInitCfg) :=
  match pool with
  | [] => none
  | cfg :: pool => some ({ cfg with
      instanceId := nfNoId
      core := lcore
      initOptions := 0
      status := .waitingForId
      tag := some (copyTag tag)
      timeToLive := 0
      pktLimit := 0 }, pool)

/-- `none` also when the parent's tag has been freed. -/
def onvmNflibInheritParentInitCfg (pool : List OnvmNfInitCfg) (lcore : Nat) (parent : OnvmNf) :
    Option (OnvmNfInitCfg × List OnvmNfInitCfg) := do
  let tag ← parent.tag
  let (cfg, pool) ← onvmNflibInitNfInitCfg pool lcore tag
  some ({ cfg with
    serviceId := parent.serviceId
    core := parent.core
    initOptions := parent.initOptions
    timeToLive := parent.timeToLive
    pktLimit := parent.pktLimit }, pool)

structure OnvmNfScaleInfo where
  nfInitCfg : OnvmNfInitCfg
  parent : Nat
  data : Option Nat

/-- For the NF of slot `i`. -/
def onvmNflibInheritParentConfig (pool : List OnvmNfInitCfg) (lcore : Nat) (nfs : Nat → OnvmNf)
    (i : Nat) (data : Option Nat) : Option (OnvmNfScaleInfo × List OnvmNfInitCfg) := do
  let (cfg, pool) ← onvmNflibInheritParentInitCfg pool lcore (nfs i)
  some (⟨cfg, i, data⟩, pool)

/-! ## Between the start and the copy -/

namespace Tables

/-- What happens to a slot besides: an NF that is told to changes its core. -/
inductive SlotEvent where
  | tables (e : Event)
  | changeCore (i core : Nat)

def onSlotEvent (m : Tables) : SlotEvent → Tables
  | .tables e => m.onEvent e
  | .changeCore i core => m.setNf i { m.nfs i with core := core }

/-- The slot goes to another NF. -/
def Refills (i : Nat) (m : Tables) : SlotEvent → Prop
  | .tables (.msg (.nfStarting (some cfg))) => m.Admits cfg ∧ m.targetId cfg = i
  | _ => False

/-- The core that the NF of slot `i` was given last, `core` at its start. -/
def givenCore (i core : Nat) (es : List SlotEvent) : Nat :=
  es.foldl (fun core e =>
    match e with
    | .changeCore j c => if j = i then c else core
    | .tables _ => core) core

/-- What is copied from a slot into the configuration of a child. -/
structure StartUp where
  serviceId : Nat
  core : Nat
  initOptions : Nat
  timeToLive : Nat
  pktLimit : Nat

def startUp (nf : OnvmNf) : StartUp :=
  ⟨nf.serviceId, nf.core, nf.initOptions, nf.timeToLive, nf.pktLimit⟩

/-- The slot still has what it was started with. -/
def SameStartUp (m m' : Tables) (i : Nat) : Prop := startUp (m'.nfs i) = startUp (m.nfs i)

variable {m : Tables} {i : Nat}

theorem SameStartUp.trans {a b c : Tables} (h : SameStartUp a b i) (h' : SameStartUp b c i) :
    SameStartUp a c i := Eq.trans h' h

theorem setNf_startUp {j : Nat} {nf : OnvmNf} (h : startUp nf = startUp (m.nfs j)) :
    SameStartUp m (m.setNf j nf) i :=
  congrFun (comp_setNf_eq startUp h) i

theorem initRings_startUp (m : Tables) (j : Nat) : SameStartUp m (m.onvmNfInitRings j) i :=
  congrFun (comp_initRings startUp (by intro nf k q; cases k <;> rfl) m j) i

theorem ready_startUp (m : Tables) (j : Nat) : SameStartUp m (m.onvmNfReady j).1 i := by
  unfold onvmNfReady
  split
  · rfl
  · exact setNf_startUp rfl

theorem tellParent_startUp (m : Tables) (j : Nat) : SameStartUp m (m.tellParent j) i := by
  unfold tellParent
  dsimp only
  split
  · apply setNf_startUp
    simp only [startUp]
  · rfl

theorem release_startUp (m : Tables) (j : Nat) : SameStartUp m (m.release j) i := by
  have hstopped : SameStartUp m (m.setStatus j .stopped) i := setNf_startUp rfl
  have hnamed : SameStartUp (m.setStatus j .stopped)
    ((m.setStatus j .stopped).setStatus (m.nfs j).instanceId .stopped) i := setNf_startUp rfl
  have htold := tellParent_startUp (i := i)
    ((m.setStatus j .stopped).setStatus (m.nfs j).instanceId .stopped) (m.nfs j).instanceId
  have hnfs : (m.release j).nfs = (((m.setStatus j .stopped).setStatus (m.nfs j).instanceId
      .stopped).tellParent (m.nfs j).instanceId).nfs := rfl
  rw [SameStartUp, hnfs]
  exact (hstopped.trans hnamed).trans htold

theorem stop_startUp (m : Tables) (j : Nat) : SameStartUp m (m.onvmNfStop j).1 i := by
  have htag : SameStartUp m (m.freeTag j) i := setNf_startUp rfl
  have hrelease := htag.trans (release_startUp (m.freeTag j) j)
  unfold onvmNfStop
  dsimp only
  split
  · exact htag
  split
  · exact hrelease
  split
  · exact hrelease
  · rw [SameStartUp, unregister_nfs]
    exact hrelease

/-! ## The start -/

/-- A request that is accepted fills all that a child inherits but the options. -/
theorem start_startUp {cfg : OnvmNfInitCfg} (h : m.Admits cfg) :
    startUp ((m.onvmNfStart cfg).1.nfs (m.targetId cfg)) =
      ⟨cfg.serviceId, (m.coreFor cfg).core, (m.nfs (m.targetId cfg)).initOptions,
        cfg.timeToLive, cfg.pktLimit⟩ := by
  have hrings : startUp (((m.occupied cfg).onvmNfInitRings (m.targetId cfg)).nfs (m.targetId cfg)) =
      startUp ((m.occupied cfg).nfs (m.targetId cfg)) := initRings_startUp _ _
  rw [(start_admitted h).1, hrings]
  simp [occupied, setNf, filled, startUp]

theorem start_other {cfg : OnvmNfInitCfg} (h : ¬ (m.Admits cfg ∧ m.targetId cfg = i)) :
    SameStartUp m (m.onvmNfStart cfg).1 i := by
  by_cases ha : m.Admits cfg
  · have hi : i ≠ m.targetId cfg := fun hi => h ⟨ha, hi.symm⟩
    have hocc : SameStartUp m (m.occupied cfg) i := by
      simp [SameStartUp, occupied, setNf, hi]
    rw [(start_admitted ha).1]
    exact hocc.trans (initRings_startUp _ _)
  · rcases (start_refused ha).1 with hm | hm <;> rw [hm] <;> rfl

/-- The NF reads its core from its own request. -/
theorem start_core {cfg : OnvmNfInitCfg} (h : m.Admits cfg) :
    (m.onvmNfStart cfg).2.1.core = (m.coreFor cfg).core := by
  have hv : onvmNfIsValid (m.nfs (m.targetId cfg)) = false := by
    simpa [onvmNfIsValid] using h.free
  have hid := Nat.not_le_of_lt h.id
  have hcore := h.core
  unfold onvmNfStart
  unfold targetId at hv hid
  unfold coreFor at hcore
  simp only [h.waiting, ne_eq, not_true_eq_false, if_false, hid, Nat.not_le_of_lt h.service,
    Nat.not_le_of_lt h.room, hv, Bool.false_eq_true, coreFor, hcore]
  split <;> rfl

/-! ## A run -/

theorem onSlotEvent_startUp {e : SlotEvent} (h : ¬ Refills i m e) :
    startUp ((m.onSlotEvent e).nfs i) =
      { startUp (m.nfs i) with core := givenCore i (m.nfs i).core [e] } := by
  cases e with
  | changeCore j core =>
    by_cases hij : j = i
    · subst hij
      simp [onSlotEvent, setNf, startUp, givenCore]
    · simp [onSlotEvent, setNf, startUp, givenCore, hij, Ne.symm hij]
  | tables e =>
    suffices hsame : SameStartUp m (m.onEvent e) i from hsame
    unfold onEvent
    split
    · rfl
    cases e with
    | family j parent childrenCnt => exact setNf_startUp rfl
    | traffic name queued => rfl
    | msg msg =>
      cases msg with
      | nfStarting cfg =>
        cases cfg with
        | none => rfl
        | some cfg => exact start_other h
      | nfReady j => exact ready_startUp m j
      | nfStopping j =>
        cases j with
        | none => rfl
        | some j => exact stop_startUp m j
      | requestLpmRegion => rfl
      | requestFt => rfl
      | other => rfl

theorem exec_startUp {es : List SlotEvent}
    (h : Along onSlotEvent (fun m e => ¬ Refills i m e) m es) :
    startUp ((exec onSlotEvent m es).nfs i) =
      { startUp (m.nfs i) with core := givenCore i (m.nfs i).core es } := by
  induction es generalizing m with
  | nil => rfl
  | cons e es ih =>
    have hstep := onSlotEvent_startUp h.1
    have hcore : ((m.onSlotEvent e).nfs i).core = givenCore i (m.nfs i).core [e] :=
      congrArg StartUp.core hstep
    have hrest := ih h.2
    rw [hstep, hcore] at hrest
    exact hrest

/-- Nothing fills the options of a slot, not even a start. -/
theorem onSlotEvent_initOptions (m : Tables) (e : SlotEvent) (i : Nat) :
    ((m.onSlotEvent e).nfs i).initOptions = (m.nfs i).initOptions := by
  by_cases h : Refills i m e
  · match e, h with
    | .tables (.msg (.nfStarting (some cfg))), ⟨hadmits, htarget⟩ =>
      have hslot := congrArg StartUp.initOptions (start_startUp hadmits)
      rw [htarget] at hslot
      show ((m.onEvent (.msg (.nfStarting (some cfg)))).nfs i).initOptions = _
      unfold onEvent
      split
      · rfl
      · exact hslot
  · exact congrArg StartUp.initOptions (onSlotEvent_startUp h)

theorem exec_initOptions (numCores : NumCores) (enabled : Nat → Bool) (es : List SlotEvent)
    (i : Nat) : ((exec onSlotEvent (boot numCores enabled) es).nfs i).initOptions = 0 := by
  apply exec_inv (I := fun m : Tables => (m.nfs i).initOptions = 0)
  · intro m e h
    exact (onSlotEvent_initOptions m e i).trans h
  · rfl

end Tables

/-! ## What the child gets -/

/-- The child's configuration has what the parent was started with and its core. -/
structure CarriesOver (cfg : OnvmNfInitCfg) (core : Nat) (child : OnvmNfInitCfg) : Prop where
  serviceId : child.serviceId = cfg.serviceId
  initOptions : child.initOptions = cfg.initOptions
  timeToLive : child.timeToLive = cfg.timeToLive
  pktLimit : child.pktLimit = cfg.pktLimit
  core : child.core = core

/-- The child's configuration is what the slot holds. -/
theorem inherit_startUp {pool pool' : List OnvmNfInitCfg} {lcore i : Nat} {nfs : Nat → OnvmNf}
    {data : Option Nat} {scale : OnvmNfScaleInfo}
    (h : onvmNflibInheritParentConfig pool lcore nfs i data = some (scale, pool')) :
    (⟨scale.nfInitCfg.serviceId, scale.nfInitCfg.core, scale.nfInitCfg.initOptions,
      scale.nfInitCfg.timeToLive, scale.nfInitCfg.pktLimit⟩ : Tables.StartUp) =
      Tables.startUp (nfs i) := by
  obtain ⟨r, hcfg, hscale⟩ := Option.bind_eq_some_iff.mp h
  obtain ⟨tag, htag, hrest⟩ := Option.bind_eq_some_iff.mp hcfg
  obtain ⟨base, hbase, hr⟩ := Option.bind_eq_some_iff.mp hrest
  cases hr
  cases hscale
  rfl

/-- In a run from the start of the manager a child never gets an option. -/
theorem inherit_initOptions {numCores : NumCores} {enabled : Nat → Bool}
    {es : List Tables.SlotEvent} {pool pool' : List OnvmNfInitCfg} {lcore i : Nat}
    {data : Option Nat} {scale : OnvmNfScaleInfo}
    (h : onvmNflibInheritParentConfig pool lcore
      (exec Tables.onSlotEvent (Tables.boot numCores enabled) es).nfs i data =
        some (scale, pool')) : scale.nfInitCfg.initOptions = 0 :=
  (congrArg Tables.StartUp.initOptions (inherit_startUp h)).trans
    (Tables.exec_initOptions numCores enabled es i)

/-- **What a child inherits** is what its parent was started with and the core it was
given, if and only if the slot held the parent's options before it was started. -/
theorem inherit_iff {m : Tables} {cfg : OnvmNfInitCfg} {es : List Tables.SlotEvent}
    {pool pool' : List OnvmNfInitCfg} {lcore : Nat} {data : Option Nat} {scale : OnvmNfScaleInfo}
    (hstart : (m.onvmNfStart cfg).2.2 = some 0)
    (hown : Along Tables.onSlotEvent (fun m' e => ¬ Tables.Refills (m.targetId cfg) m' e)
      (m.onvmNfStart cfg).1 es)
    (hbuilt : onvmNflibInheritParentConfig pool lcore
      (exec Tables.onSlotEvent (m.onvmNfStart cfg).1 es).nfs (m.targetId cfg) data =
        some (scale, pool')) :
    CarriesOver cfg (Tables.givenCore (m.targetId cfg) (m.onvmNfStart cfg).2.1.core es)
      scale.nfInitCfg ↔ (m.nfs (m.targetId cfg)).initOptions = cfg.initOptions := by
  have hadmits := Tables.admits_of_start hstart
  have hslot := Tables.start_startUp hadmits
  have hcore : ((m.onvmNfStart cfg).1.nfs (m.targetId cfg)).core =
      (m.onvmNfStart cfg).2.1.core :=
    (congrArg Tables.StartUp.core hslot).trans (Tables.start_core hadmits).symm
  have hchild := (inherit_startUp hbuilt).trans (Tables.exec_startUp hown)
  rw [hslot, hcore] at hchild
  simp only [Tables.StartUp.mk.injEq] at hchild
  obtain ⟨hs, hc, ho, ht, hp⟩ := hchild
  constructor
  · intro hcarries
    exact ho.symm.trans hcarries.initOptions
  · intro hopts
    exact ⟨hs, ho.trans hopts, ht, hp, hc⟩

/-- A request for service 1 on core 0, shared. -/
def sharedCfg : OnvmNfInitCfg :=
  { serviceId := 1, initOptions := 2, tag := some "scaling", timeToLive := 30, pktLimit := 7 }

/-- The same request on a machine where the slot was never used. -/
theorem inherit_fresh : ∃ scale pool', onvmNflibInheritParentConfig [{ serviceId := 9 }] 3
      (Tables.bootSingle.onvmNfStart sharedCfg).1.nfs 1 none = some (scale, pool') ∧
    (Tables.bootSingle.onvmNfStart sharedCfg).2.2 = some 0 ∧
    Tables.bootSingle.targetId sharedCfg = 1 ∧
    ¬ CarriesOver sharedCfg (Tables.bootSingle.onvmNfStart sharedCfg).2.1.core
      scale.nfInitCfg := by
  refine ⟨_, _, rfl, by decide +kernel, by decide +kernel, fun h => ?_⟩
  exact absurd h.initOptions (by decide +kernel)

/-- The same request without an option. -/
def plainCfg : OnvmNfInitCfg := { sharedCfg with initOptions := 0 }

theorem inherit_iff_plain : ∃ scale pool', onvmNflibInheritParentConfig [{ serviceId := 9 }] 3
      (exec Tables.onSlotEvent (Tables.bootSingle.onvmNfStart plainCfg).1
        [.tables (.msg (.nfReady 1)), .changeCore 1 2]).nfs
      (Tables.bootSingle.targetId plainCfg) none = some (scale, pool') ∧
    CarriesOver plainCfg 2 scale.nfInitCfg := by
  have hsome : (onvmNflibInheritParentConfig [{ serviceId := 9 }] 3
      (exec Tables.onSlotEvent (Tables.bootSingle.onvmNfStart plainCfg).1
        [.tables (.msg (.nfReady 1)), .changeCore 1 2]).nfs
      (Tables.bootSingle.targetId plainCfg) none).isSome := by decide +kernel
  obtain ⟨⟨scale, pool'⟩, hbuilt⟩ := Option.isSome_iff_exists.mp hsome
  have hown : Along Tables.onSlotEvent
      (fun m e => ¬ Tables.Refills (Tables.bootSingle.targetId plainCfg) m e)
      (Tables.bootSingle.onvmNfStart plainCfg).1
      [.tables (.msg (.nfReady 1)), .changeCore 1 2] := ⟨fun h => h, fun h => h, trivial⟩
  have hiff := inherit_iff (m := Tables.bootSingle) (by decide +kernel) hown hbuilt
  exact ⟨scale, pool', hbuilt, hiff.mpr (by decide +kernel)⟩

end Onvm.Mgr

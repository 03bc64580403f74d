import Onvm.Lib.Tally
import Onvm.Mgr.Nf

/-!
# What an event does to the registry

The registry is what the tables say about who is where: status, IDs, service,
core and rings of each slot, the counters and the service table. `effect` says
once what each event does to it: nothing, or one of five changes with the
condition under which it happens. It rests on `Sound`, which every run keeps.
-/

namespace Onvm.Nflib

/-- Starting, running or paused: the NF has its ID. -/
def NfStatus.Active (s : NfStatus) : Prop := s = .starting ∨ s = .running ∨ s = .paused

instance : DecidablePred NfStatus.Active := fun s =>
  inferInstanceAs (Decidable (s = .starting ∨ s = .running ∨ s = .paused))

/-! A count of slots is far from wrapping. -/

theorem inc16_count {p : Nat → Prop} [DecidablePred p] :
    inc16 (Nat.count p maxNfs) = Nat.count p maxNfs + 1 :=
  inc16_eq (Nat.lt_of_le_of_lt (Nat.count_le p) (by decide))

theorem dec16_count {p : Nat → Prop} [DecidablePred p] {n : Nat}
    (h : Nat.count p maxNfs + 1 = n) : dec16 n = Nat.count p maxNfs := by
  rw [← h]
  exact dec16_succ (Nat.lt_of_le_of_lt (Nat.count_le p) (by decide))

end Onvm.Nflib

namespace Onvm.Mgr

open Onvm.Lib Onvm.Nflib

structure Slot where
  status : NfStatus
  instanceId : Nat
  serviceId : Nat
  core : Nat
  rxQ : Option RingName
  txQ : Option RingName
  msgQ : Option RingName

def slotOf (nf : OnvmNf) : Slot :=
  ⟨nf.status, nf.instanceId, nf.serviceId, nf.core, nf.rxQ, nf.txQ, nf.msgQ⟩

/-- The tables without tags, family fields and what is queued on the rings. -/
@[ext]
structure View where
  slots : Nat → Slot
  numNfs : Nat
  nfPerServiceCount : Nat → Nat
  services : Nat → Nat → Nat
  cores : Nat → CoreStatus
  live : RingName → Bool
  exit : Option RteExit

/-- An NF in slot `i` goes by the number of the slot and has its rings, unless
the manager exited over them. -/
structure Slot.Tidy (live : RingName → Bool) (exit : Option RteExit) (i : Nat) (s : Slot) :
    Prop where
  named : s.status.Active → s.instanceId = i ∧ i < maxNfs ∧ s.serviceId < maxServices
  paused : s.status ≠ .paused
  owned : exit = none → s.status.Active → s.rxQ = some ⟨.rx, i⟩ ∧ s.txQ = some ⟨.tx, i⟩ ∧
    s.msgQ = some ⟨.msg, i⟩ ∧ ∀ k, live ⟨k, i⟩

def View.Tidy (v : View) : Prop := ∀ i, (v.slots i).Tidy v.live v.exit i

section Tidy

variable {live : RingName → Bool} {exit : Option RteExit} {i : Nat} {s : Slot}

theorem Slot.Tidy.mono {live' : RingName → Bool} (h : s.Tidy live exit i)
    (hl : ∀ k, live ⟨k, i⟩ → live' ⟨k, i⟩) : s.Tidy live' exit i := by
  refine ⟨h.named, h.paused, fun he ha => ?_⟩
  obtain ⟨h1, h2, h3, h4⟩ := h.owned he ha
  exact ⟨h1, h2, h3, fun k => hl k (h4 k)⟩

theorem tidy_stopped (h : s.status = .stopped) : s.Tidy live exit i := by
  have hidle : ¬ s.status.Active := by
    rw [h]
    decide
  refine ⟨fun ha => absurd ha hidle, ?_, fun _ ha => absurd ha hidle⟩
  rw [h]
  decide

theorem tidy_update {slots : Nat → Slot} (h : s.Tidy live exit i)
    (h' : ∀ j, j ≠ i → (slots j).Tidy live exit j) (j : Nat) :
    (Function.update slots i s j).Tidy live exit j :=
  (Function.forall_update_iff slots fun j s => Slot.Tidy live exit j s).mpr ⟨h, h'⟩ j

end Tidy

def Tables.view (m : Tables) : View where
  slots i := slotOf (m.nfs i)
  numNfs := m.numNfs
  nfPerServiceCount := m.nfPerServiceCount
  services := m.services
  cores := m.cores
  live r := (m.rings r).isSome
  exit := m.exit

namespace View

/-- Slot `id` goes to a new NF, which gets its three rings. -/
def grant (v : View) (id serviceId core : Nat) (dedicated : Bool) : View :=
  { v with
    slots := Function.update v.slots id
      ⟨.starting, id, serviceId, core, some ⟨.rx, id⟩, some ⟨.tx, id⟩, some ⟨.msg, id⟩⟩
    cores := Function.update v.cores core ((v.cores core).placed dedicated)
    live := fun r => v.live r || r.id == id }

def ready (v : View) (i : Nat) : View :=
  let s := (v.slots i).serviceId
  { v with
    slots := Function.update v.slots i { v.slots i with status := .running }
    nfPerServiceCount := Function.update v.nfPerServiceCount s (inc16 (v.nfPerServiceCount s))
    services := Function.update v.services s
      (Function.update (v.services s) (v.nfPerServiceCount s) (v.slots i).instanceId)
    numNfs := inc16 v.numNfs }

def vacate (v : View) (i : Nat) : View :=
  let c := (v.slots i).core
  { v with
    slots := Function.update v.slots i { v.slots i with status := .stopped }
    cores := Function.update v.cores c (v.cores c).freed }

def withdraw (v : View) (i s : Nat) : View :=
  { v with
    numNfs := dec16 v.numNfs
    nfPerServiceCount := Function.update v.nfPerServiceCount s (dec16 (v.nfPerServiceCount s))
    services := Function.update v.services s (removeShift maxNfsPerService i (v.services s))
    live := fun r => v.live r && r.id != i }

/-- The NF of slot `i`, which ran, leaves altogether. -/
def retire (v : View) (i : Nat) : View := (v.vacate i).withdraw i (v.slots i).serviceId

end View

namespace Tables

variable {m : Tables}

/-! ## The conditions -/

def targetId (m : Tables) (cfg : OnvmNfInitCfg) : Nat := (m.chooseId cfg).1

/-- The request passes the checks of `onvm_nf_start` with this instance ID. -/
structure Passes (m : Tables) (cfg : OnvmNfInitCfg) (nfId : Nat) : Prop where
  waiting : cfg.status = .waitingForId
  id : nfId < maxNfs
  service : cfg.serviceId < maxServices
  room : m.nfPerServiceCount cfg.serviceId < maxNfsPerService
  free : (m.nfs nfId).status ≠ .running
  core : (m.coreFor cfg).ret = none

def Admits (m : Tables) (cfg : OnvmNfInitCfg) : Prop := m.Passes cfg (m.targetId cfg)

/-- The event changes the registry. -/
def Acts (m : Tables) : Event → Prop
  | .msg (.nfStarting (some cfg)) => m.Admits cfg
  | .msg (.nfReady i) => (m.nfs i).status = .starting
  | .msg (.nfStopping (some i)) => (m.nfs i).status.Active
  | _ => False

structure Sound (m : Tables) : Prop where
  pool : m.nfInfoMp = true
  next : 0 < m.nextInstanceId
  tidy : m.view.Tidy

theorem boot_sound (numCores : NumCores) (enabled : Nat → Bool) :
    (boot numCores enabled).Sound := by
  have hidle : ¬ NfStatus.Active .waitingForId := by decide
  refine ⟨rfl, Nat.one_pos, fun i => ⟨fun h => absurd h hidle, ?_, fun _ h => absurd h hidle⟩⟩
  show NfStatus.waitingForId ≠ .paused
  decide

/-- The change an event makes. -/
inductive Effect (m : Tables) : Event → View → Prop where
  | quiet (e : Event) : (m.exit = none → ¬ m.Acts e) → Effect m e m.view
  | granted (cfg : OnvmNfInitCfg) : m.exit = none → m.Admits cfg →
      (∀ k, m.rings ⟨k, m.targetId cfg⟩ = none) →
      (m.cores (m.coreFor cfg).core).isDedicatedCore = false →
      (shareCore cfg.initOptions = false → (m.cores (m.coreFor cfg).core).nfCount = 0) →
      Effect m (.msg (.nfStarting (some cfg)))
        (m.view.grant (m.targetId cfg) cfg.serviceId (m.coreFor cfg).core
          (!shareCore cfg.initOptions))
  /-- A ring of the ID exists and the manager exits. -/
  | clashed (cfg : OnvmNfInitCfg) (k : RingKind) (slot : Slot) (v : View) : m.exit = none →
      m.Admits cfg → (m.rings ⟨k, m.targetId cfg⟩).isSome →
      slot.status = .starting → slot.instanceId = m.targetId cfg →
      slot.serviceId = cfg.serviceId →
      v.slots = Function.update m.view.slots (m.targetId cfg) slot →
      v.numNfs = m.numNfs → v.nfPerServiceCount = m.nfPerServiceCount →
      v.services = m.services → v.exit ≠ none →
      Effect m (.msg (.nfStarting (some cfg))) v
  | readied (i : Nat) : m.exit = none → (m.nfs i).status = .starting →
      Effect m (.msg (.nfReady i)) (m.view.ready i)
  /-- Stopped before it was ready: the rings stay. -/
  | aborted (i : Nat) : m.exit = none → (m.nfs i).status = .starting →
      Effect m (.msg (.nfStopping (some i))) (m.view.vacate i)
  | stopped (i : Nat) : m.exit = none → (m.nfs i).status = .running →
      Effect m (.msg (.nfStopping (some i))) (m.view.retire i)

/-! ## Slots and rings -/

@[simp] theorem view_slots (m : Tables) (i : Nat) : m.view.slots i = slotOf (m.nfs i) := rfl

theorem comp_setNf {α : Type} (f : OnvmNf → α) (m : Tables) (i : Nat) (nf : OnvmNf) :
    f ∘ (m.setNf i nf).nfs = Function.update (f ∘ m.nfs) i (f nf) :=
  Function.comp_update f m.nfs i nf

theorem comp_setNf_eq {α : Type} (f : OnvmNf → α) {i : Nat} {nf : OnvmNf}
    (h : f nf = f (m.nfs i)) : f ∘ (m.setNf i nf).nfs = f ∘ m.nfs := by
  rw [comp_setNf, h]
  exact Function.update_eq_self i (f ∘ m.nfs)

/-- Creating a ring changes nothing that can be read off but the rings. -/
theorem comp_createRing {α : Type} (f : OnvmNf → α) (hf : ∀ nf k q, f (setQ nf k q) = f nf)
    (m : Tables) (i : Nat) (k : RingKind) : f ∘ (m.createRing i k).nfs = f ∘ m.nfs := by
  unfold createRing
  split
  · rfl
  dsimp only
  split
  · exact comp_setNf_eq f (hf ..)
  · exact comp_setNf_eq f (hf ..)

theorem comp_initRings {α : Type} (f : OnvmNf → α) (hf : ∀ nf k q, f (setQ nf k q) = f nf)
    (m : Tables) (i : Nat) : f ∘ (m.onvmNfInitRings i).nfs = f ∘ m.nfs := by
  rw [onvmNfInitRings, comp_createRing f hf, comp_createRing f hf, comp_createRing f hf]

theorem slots_setNf (m : Tables) (i : Nat) (nf : OnvmNf) :
    (m.setNf i nf).view.slots = Function.update m.view.slots i (slotOf nf) :=
  comp_setNf slotOf m i nf

theorem live_drain (rings : RingName → Option (List Nat)) (q : Option RingName) (r : RingName) :
    (drain rings q r).isSome = (rings r).isSome := by
  unfold drain
  split <;> simp

/-- What creating rings for slot `i` leaves alone, whether it exits or not. -/
structure Keeps (m m' : Tables) (i : Nat) : Prop where
  other : ∀ j, j ≠ i → m'.nfs j = m.nfs j
  status : (m'.nfs i).status = (m.nfs i).status
  instanceId : (m'.nfs i).instanceId = (m.nfs i).instanceId
  serviceId : (m'.nfs i).serviceId = (m.nfs i).serviceId
  core : (m'.nfs i).core = (m.nfs i).core
  numNfs : m'.numNfs = m.numNfs
  counts : m'.nfPerServiceCount = m.nfPerServiceCount
  services : m'.services = m.services
  cores : m'.cores = m.cores
  pool : m'.nfInfoMp = m.nfInfoMp
  next : m'.nextInstanceId = m.nextInstanceId

theorem Keeps.trans {a b c : Tables} {i : Nat} (h : Keeps a b i) (h' : Keeps b c i) :
    Keeps a c i where
  other j hj := (h'.other j hj).trans (h.other j hj)
  status := h'.status.trans h.status
  instanceId := h'.instanceId.trans h.instanceId
  serviceId := h'.serviceId.trans h.serviceId
  core := h'.core.trans h.core
  numNfs := h'.numNfs.trans h.numNfs
  counts := h'.counts.trans h.counts
  services := h'.services.trans h.services
  cores := h'.cores.trans h.cores
  pool := h'.pool.trans h.pool
  next := h'.next.trans h.next

theorem createRing_keeps (m : Tables) (i : Nat) (k : RingKind) : Keeps m (m.createRing i k) i := by
  unfold createRing
  split
  · constructor <;> intros <;> rfl
  · dsimp only
    split <;> constructor <;> intros <;> cases k <;> simp_all [setNf, setQ]

theorem initRings_keeps (m : Tables) (i : Nat) : Keeps m (m.onvmNfInitRings i) i :=
  ((createRing_keeps m i .rx).trans (createRing_keeps _ i .tx)).trans (createRing_keeps _ i .msg)

theorem Keeps.slots {m' : Tables} {i : Nat} (h : Keeps m m' i) :
    m'.view.slots = Function.update m.view.slots i (slotOf (m'.nfs i)) := by
  funext j
  by_cases hj : j = i
  · subst hj
    rw [Function.update_self, view_slots]
  · rw [Function.update_of_ne hj, view_slots, view_slots, h.other j hj]

def withRing (m : Tables) (i id : Nat) (k : RingKind) : Tables :=
  { m.setNf i (setQ (m.nfs i) k (some ⟨k, id⟩)) with
    rings := Function.update m.rings ⟨k, id⟩ (some []) }

theorem createRing_free {i : Nat} (id : Nat) (k : RingKind) (he : m.exit = none)
    (hid : (m.nfs i).instanceId = id) (h : m.rings ⟨k, id⟩ = none) :
    m.createRing i k = m.withRing i id k := by
  unfold createRing rteRingCreate withRing
  simp [he, hid, h]

theorem createRing_taken {i id : Nat} {k : RingKind} (hid : (m.nfs i).instanceId = id)
    (h : (m.rings ⟨k, id⟩).isSome) : (m.createRing i k).exit ≠ none := by
  unfold createRing rteRingCreate
  split
  · rename_i he
    simp [he]
  · simp [hid, h]

theorem createRing_mono (m : Tables) (i : Nat) (k : RingKind) :
    (∀ r, (m.rings r).isSome → ((m.createRing i k).rings r).isSome) ∧
      (m.exit ≠ none → (m.createRing i k).exit ≠ none) := by
  unfold createRing rteRingCreate
  split
  · exact ⟨fun r hr => hr, fun he => he⟩
  · rename_i he
    dsimp only
    split
    · exact ⟨fun r hr => hr, fun h => absurd he h⟩
    · rename_i rings hrings
      simp only [Option.ite_none_left_eq_some, Option.some.injEq] at hrings
      refine ⟨fun r hr => ?_, fun h => absurd he h⟩
      rw [← hrings.2]
      by_cases hk : r = ⟨k, (m.nfs i).instanceId⟩ <;> simp [hk, hr]

/-- `onvm_nf_init_rings` when none of the names is taken. -/
theorem initRings_free {i id : Nat} (he : m.exit = none) (hid : (m.nfs i).instanceId = id)
    (h : ∀ k, m.rings ⟨k, id⟩ = none) :
    (m.onvmNfInitRings i).view =
      { m.view with
        slots := Function.update m.view.slots i { slotOf (m.nfs i) with
          rxQ := some ⟨.rx, id⟩, txQ := some ⟨.tx, id⟩, msgQ := some ⟨.msg, id⟩ }
        live := fun r => m.view.live r || r.id == id } := by
  have htx := createRing_free (m := m.withRing i id .rx) (i := i) id .tx he
    (by simp [withRing, setNf, setQ, hid]) (by simp [withRing, h .tx])
  have hmsg := createRing_free (m := (m.withRing i id .rx).withRing i id .tx) (i := i) id .msg he
    (by simp [withRing, setNf, setQ, hid]) (by simp [withRing, h .msg])
  unfold onvmNfInitRings
  rw [createRing_free id .rx he hid (h .rx), htx, hmsg]
  unfold withRing view
  congr 1
  · funext j
    by_cases hj : j = i
    · subst hj
      simp [setNf, setQ, slotOf]
    · simp [setNf, hj]
  · funext r
    obtain ⟨k, n⟩ := r
    by_cases hn : n = id
    · subst hn
      cases k <;> simp
    · simp [hn]

/-- `onvm_nf_init_rings` when one of the names is taken. -/
theorem initRings_taken {i id : Nat} {k : RingKind} (hid : (m.nfs i).instanceId = id)
    (h : (m.rings ⟨k, id⟩).isSome) : (m.onvmNfInitRings i).exit ≠ none := by
  have hrx := createRing_keeps m i .rx
  have htx := hrx.trans (createRing_keeps _ i .tx)
  unfold onvmNfInitRings
  cases k with
  | rx =>
    apply (createRing_mono _ i .msg).2
    apply (createRing_mono _ i .tx).2
    exact createRing_taken hid h
  | tx =>
    apply (createRing_mono _ i .msg).2
    exact createRing_taken (hrx.instanceId.trans hid) ((createRing_mono m i .rx).1 _ h)
  | msg =>
    refine createRing_taken (htx.instanceId.trans hid) ?_
    exact (createRing_mono _ i .tx).1 _ ((createRing_mono m i .rx).1 _ h)

/-! ## The handlers -/

theorem shareCore_mod (n : Nat) : shareCore (n % 2 ^ 8) = shareCore n := by
  unfold shareCore
  rw [Nat.testBit_mod_two_pow]
  simp

theorem coreFor_ok {cfg : OnvmNfInitCfg} (h : (m.coreFor cfg).ret = none) :
    (m.coreFor cfg).cores = Function.update m.cores (m.coreFor cfg).core
        ((m.cores (m.coreFor cfg).core).placed (!shareCore cfg.initOptions)) ∧
      (m.cores (m.coreFor cfg).core).isDedicatedCore = false ∧
      (shareCore cfg.initOptions = false → (m.cores (m.coreFor cfg).core).nfCount = 0) := by
  obtain ⟨c, hc, hcores, hded, hzero⟩ := getCore_ok h
  rw [shareCore_mod] at hcores hzero
  unfold coreFor
  rw [hc]
  exact ⟨hcores, hded, hzero⟩

/-- A request that fails a check is refused and changes `next_instance_id` at
most. -/
theorem start_refused {cfg : OnvmNfInitCfg} (h : ¬ m.Admits cfg) :
    ((m.onvmNfStart cfg).1 = m ∨
      (m.onvmNfStart cfg).1 = { m with nextInstanceId := (m.chooseId cfg).2 }) ∧
    (m.onvmNfStart cfg).2.2 = some 1 := by
  unfold onvmNfStart
  dsimp only
  split
  · exact ⟨.inl rfl, rfl⟩
  split
  · exact ⟨.inr rfl, rfl⟩
  split
  · exact ⟨.inr rfl, rfl⟩
  split
  · exact ⟨.inr rfl, rfl⟩
  split
  · exact ⟨.inr rfl, rfl⟩
  rename_i hw hid hs hr hv
  split
  · rename_i err hret
    have hcores : ({ m with nextInstanceId := (m.chooseId cfg).2 }.coreFor cfg).cores = m.cores :=
      getCore_fail hret
    rw [hcores]
    exact ⟨.inr rfl, rfl⟩
  · rename_i hret
    refine absurd ⟨not_not.mp hw, Nat.lt_of_not_le hid, Nat.lt_of_not_le hs, Nat.lt_of_not_le hr,
      ?_, hret⟩ h
    simpa [onvmNfIsValid, targetId] using hv

theorem admits_of_start {cfg : OnvmNfInitCfg} (h : (m.onvmNfStart cfg).2.2 = some 0) :
    m.Admits cfg := by
  by_contra ha
  have hret := (start_refused ha).2
  rw [h] at hret
  cases hret

theorem view_start_refused {cfg : OnvmNfInitCfg} (h : ¬ m.Admits cfg) :
    (m.onvmNfStart cfg).1.view = m.view := by
  rcases (start_refused h).1 with h | h
  · rw [h]
  · rw [h]
    rfl

/-- What `onvm_nf_start` has written when it comes to the rings. -/
def occupied (m : Tables) (cfg : OnvmNfInitCfg) : Tables :=
  { m with
    nextInstanceId := (m.chooseId cfg).2
    cores := (m.coreFor cfg).cores }.setNf (m.targetId cfg) (filled (m.nfs (m.targetId cfg))
      { cfg with instanceId := m.targetId cfg, core := (m.coreFor cfg).core })

theorem start_admitted {cfg : OnvmNfInitCfg} (h : m.Admits cfg) :
    (m.onvmNfStart cfg).1 = (m.occupied cfg).onvmNfInitRings (m.targetId cfg) ∧
      (m.onvmNfStart cfg).2.1.instanceId = m.targetId cfg ∧
      (m.onvmNfStart cfg).2.2 ≠ some 1 := by
  have hv : onvmNfIsValid (m.nfs (m.targetId cfg)) = false := by
    simpa [onvmNfIsValid] using h.free
  have hid := Nat.not_le_of_lt h.id
  have hcore := h.core
  unfold onvmNfStart
  unfold targetId at hv hid
  unfold coreFor at hcore
  simp only [h.waiting, ne_eq, not_true_eq_false, if_false, hid, Nat.not_le_of_lt h.service,
    Nat.not_le_of_lt h.room, hv, Bool.false_eq_true, coreFor, hcore]
  split <;> exact ⟨rfl, rfl, by simp⟩

/-- `onvm_nf_start` on a request that passes the checks. -/
theorem start_effect {cfg : OnvmNfInitCfg} (he : m.exit = none) (h : m.Admits cfg) :
    Effect m (.msg (.nfStarting (some cfg))) (m.onvmNfStart cfg).1.view := by
  obtain ⟨hcores, hded, hzero⟩ := coreFor_ok h.core
  have hnf : (m.occupied cfg).nfs (m.targetId cfg) = filled (m.nfs (m.targetId cfg))
      { cfg with instanceId := m.targetId cfg, core := (m.coreFor cfg).core } :=
    Function.update_self ..
  have hid : ((m.occupied cfg).nfs (m.targetId cfg)).instanceId = m.targetId cfg := by
    rw [hnf]
    rfl
  have hslots : (m.occupied cfg).view.slots = Function.update m.view.slots (m.targetId cfg)
      (slotOf ((m.occupied cfg).nfs (m.targetId cfg))) := by
    rw [hnf]
    exact slots_setNf ..
  rw [(start_admitted h).1]
  by_cases hfree : ∀ k, m.rings ⟨k, m.targetId cfg⟩ = none
  · have hview : ((m.occupied cfg).onvmNfInitRings (m.targetId cfg)).view =
        m.view.grant (m.targetId cfg) cfg.serviceId (m.coreFor cfg).core
          (!shareCore cfg.initOptions) := by
      rw [initRings_free (m := m.occupied cfg) he hid hfree, hslots, Function.update_idem, hnf]
      exact View.ext rfl rfl rfl rfl hcores rfl rfl
    rw [hview]
    exact .granted cfg he h hfree hded hzero
  · obtain ⟨k, hk⟩ := not_forall.mp hfree
    have hk' : (m.rings ⟨k, m.targetId cfg⟩).isSome := Option.isSome_iff_ne_none.mpr hk
    have hkeeps := initRings_keeps (m.occupied cfg) (m.targetId cfg)
    refine .clashed cfg k (slotOf (((m.occupied cfg).onvmNfInitRings (m.targetId cfg)).nfs
      (m.targetId cfg))) _ he h hk' ?_ ?_ ?_ ?_ hkeeps.numNfs hkeeps.counts hkeeps.services
      (initRings_taken hid hk')
    · exact hkeeps.status.trans (by rw [hnf]; rfl)
    · exact hkeeps.instanceId.trans hid
    · exact hkeeps.serviceId.trans (by rw [hnf]; rfl)
    · rw [hkeeps.slots, hslots, Function.update_idem]

theorem ready_effect {i : Nat} (he : m.exit = none) (h : (m.nfs i).status = .starting) :
    Effect m (.msg (.nfReady i)) (m.onvmNfReady i).1.view := by
  have hslots := slots_setNf m i { m.nfs i with status := .running }
  have hready : (m.onvmNfReady i).1.view = m.view.ready i := by
    unfold onvmNfReady readyIndex
    simp only [h, if_true]
    exact View.ext hslots rfl rfl rfl rfl rfl rfl
  rw [hready]
  exact .readied i he h

/-- The ID that `onvm_nf_start` gives out, unless it refuses. -/
def grantedId (m : Tables) (cfg : OnvmNfInitCfg) : Option Nat :=
  if (m.onvmNfStart cfg).2.2 = some 1 then none else some (m.onvmNfStart cfg).2.1.instanceId

theorem grantedId_admitted {cfg : OnvmNfInitCfg} (h : m.Admits cfg) :
    m.grantedId cfg = some (m.targetId cfg) := by
  obtain ⟨-, hid, hret⟩ := start_admitted h
  unfold grantedId
  rw [if_neg hret, hid]

theorem grantedId_refused {cfg : OnvmNfInitCfg} (h : ¬ m.Admits cfg) : m.grantedId cfg = none :=
  if_pos (start_refused h).2

/-! Steps of `onvm_nf_stop` -/

/-- A write that the slot does not show leaves the registry as it was. -/
theorem view_setNf_eq {i : Nat} {nf : OnvmNf} (h : slotOf nf = slotOf (m.nfs i)) :
    (m.setNf i nf).view = m.view := by
  have hslots : (m.setNf i nf).view.slots = m.view.slots := by
    rw [slots_setNf, h, ← view_slots, Function.update_eq_self]
  exact View.ext hslots rfl rfl rfl rfl rfl rfl

theorem view_freeTag (m : Tables) (i : Nat) : (m.freeTag i).view = m.view :=
  view_setNf_eq rfl

theorem view_tellParent (m : Tables) (nfId : Nat) : (m.tellParent nfId).view = m.view := by
  unfold tellParent
  dsimp only
  split
  · apply view_setNf_eq
    simp [slotOf]
  · rfl

theorem view_setStatus (m : Tables) (i : Nat) (status : NfStatus) :
    (m.setStatus i status).view = { m.view with
      slots := Function.update m.view.slots i { m.view.slots i with status := status } } := by
  exact View.ext (slots_setNf m i _) rfl rfl rfl rfl rfl rfl

theorem view_drainRings (m : Tables) (nfId : Nat) : (m.drainRings nfId).view = m.view := by
  have hlive : (m.drainRings nfId).view.live = m.view.live := by
    funext r
    show (drain (drain (drain _ _) _) _ r).isSome = _
    rw [live_drain, live_drain, live_drain]
    rfl
  exact View.ext rfl rfl rfl rfl rfl hlive rfl

theorem view_leaveCore (m : Tables) (core : Nat) : (m.leaveCore core).view =
    { m.view with cores := Function.update m.view.cores core (m.view.cores core).freed } := rfl

theorem release_view {i : Nat} (hid : (m.nfs i).instanceId = i) :
    (m.release i).view = m.view.vacate i := by
  have hslots : (((m.setStatus i .stopped).setStatus i .stopped).tellParent i).view =
      { m.view with
        slots := Function.update m.view.slots i { m.view.slots i with status := .stopped } } := by
    rw [view_tellParent, view_setStatus, view_setStatus]
    simp
  have hcore : ((((m.setStatus i .stopped).setStatus i .stopped).tellParent i).nfs i).core =
      (m.nfs i).core := by
    have := congrArg (fun v => (v.slots i).core) hslots
    simpa [slotOf] using this
  unfold release
  dsimp only
  rw [hid, view_drainRings, view_leaveCore, hcore, hslots]
  rfl

theorem unregister_nfs (m : Tables) (nfId serviceId : Nat) :
    (m.unregister nfId serviceId).nfs = m.nfs := by
  unfold unregister
  show (m.onvmNfClearRings nfId).nfs = m.nfs
  rfl

theorem view_unregister {i s : Nat} (hrx : (m.nfs i).rxQ = some ⟨.rx, i⟩)
    (htx : (m.nfs i).txQ = some ⟨.tx, i⟩) (hmsg : (m.nfs i).msgQ = some ⟨.msg, i⟩) :
    (m.unregister i s).view = m.view.withdraw i s := by
  have hlive : (m.unregister i s).view.live = fun r => m.view.live r && r.id != i := by
    funext r
    obtain ⟨k, n⟩ := r
    unfold view unregister onvmNfClearRings rteRingFree
    dsimp only
    rw [hrx, htx, hmsg]
    by_cases hn : n = i
    · subst hn
      cases k <;> simp
    · simp [hn, Ne.symm hn]
  exact View.ext rfl rfl rfl rfl rfl hlive rfl

theorem release_frame (m : Tables) (i : Nat) :
    (m.release i).nfInfoMp = m.nfInfoMp ∧ (m.release i).nextInstanceId = m.nextInstanceId := by
  unfold release tellParent
  dsimp only
  split <;> exact ⟨rfl, rfl⟩

/-- `onvm_nf_stop` on an NF that is starting or running. -/
theorem stop_effect {i : Nat} (hs : m.Sound) (he : m.exit = none) (h : (m.nfs i).status.Active) :
    Effect m (.msg (.nfStopping (some i))) (m.onvmNfStop i).1.view := by
  have hid : (m.nfs i).instanceId = i := ((hs.tidy i).named h).1
  obtain ⟨hrx, htx, hmsg, -⟩ := (hs.tidy i).owned he h
  have hrel : ((m.freeTag i).release i).view = m.view.vacate i := by
    rw [release_view, view_freeTag]
    simpa [freeTag, setNf] using hid
  have hpool : ((m.freeTag i).release i).nfInfoMp = true := (release_frame _ i).1.trans hs.pool
  rcases h with h | h | h
  · have hstop : (m.onvmNfStop i).1 = (m.freeTag i).release i := by
      unfold onvmNfStop
      simp [h, hpool]
    rw [hstop, hrel]
    exact .aborted i he h
  · have hstop : (m.onvmNfStop i).1 =
        ((m.freeTag i).release i).unregister i (m.nfs i).serviceId := by
      unfold onvmNfStop
      simp [h, hpool, hid]
    have hq := congrFun (congrArg View.slots hrel) i
    simp only [View.vacate, Function.update_self, view_slots] at hq
    rw [hstop, view_unregister ((congrArg Slot.rxQ hq).trans hrx)
      ((congrArg Slot.txQ hq).trans htx) ((congrArg Slot.msgQ hq).trans hmsg), hrel]
    exact .stopped i he h
  · exact absurd h (hs.tidy i).paused

theorem view_setFamily (m : Tables) (i parent childrenCnt : Nat) :
    (m.setFamily i parent childrenCnt).view = m.view :=
  view_setNf_eq rfl

theorem view_setQueued (m : Tables) (name : RingName) (queued : List Nat) :
    (m.setQueued name queued).view = m.view := by
  refine View.ext rfl rfl rfl rfl rfl ?_ rfl
  funext r
  by_cases hr : r = name
  · subst hr
    simp [view, setQueued]
  · simp [view, setQueued, hr]

/-- **What an event does to the registry.** -/
theorem effect (hs : m.Sound) (e : Event) : Effect m e (m.onEvent e).view := by
  unfold onEvent
  cases he : m.exit with
  | some x => exact .quiet e fun h => by simp [he] at h
  | none =>
    cases e with
    | family i parent childrenCnt =>
      dsimp only
      rw [view_setFamily]
      exact .quiet _ fun _ => id
    | traffic name queued =>
      dsimp only
      rw [view_setQueued]
      exact .quiet _ fun _ => id
    | msg msg =>
      dsimp only
      unfold onMsg
      split
      · rename_i cfg
        by_cases h : m.Admits cfg
        · exact start_effect he h
        · rw [view_start_refused h]
          exact .quiet _ fun _ => h
      · rename_i i
        by_cases h : (m.nfs i).status = .starting
        · exact ready_effect he h
        · have hready : (m.onvmNfReady i).1 = m := by
            unfold onvmNfReady readyIndex
            simp [h]
          rw [hready]
          exact .quiet _ fun _ => h
      · rename_i i
        by_cases h : (m.nfs i).status.Active
        · exact stop_effect hs he h
        · have hstop : (m.onvmNfStop i).1 = m.freeTag i := by
            unfold onvmNfStop
            simp only [NfStatus.Active, not_or] at h
            simp [h]
          rw [hstop, view_freeTag]
          exact .quiet _ fun _ => h
      all_goals exact .quiet _ fun _ => id

/-! ## Every run is sound -/

theorem searchId_next (nfs : Nat → OnvmNf) (k next : Nat) : next ≤ (searchId nfs k next).2 := by
  induction k generalizing next with
  | zero => exact Nat.le_refl _
  | succ k ih =>
    unfold searchId
    split
    · split
      · exact Nat.le_of_succ_le (ih (next + 1))
      · exact Nat.le_succ next
    · exact Nat.le_refl _

/-- What a pass of the search finds, if it is long enough. -/
theorem searchId_spec (nfs : Nat → OnvmNf) {k next : Nat} (hk : maxNfs ≤ next + k) :
    (∀ id, (searchId nfs k next).1 = some id → next ≤ id ∧ id < maxNfs ∧
      (nfs id).status ≠ .running ∧ ∀ j, next ≤ j → j < id → (nfs j).status = .running) ∧
    ((searchId nfs k next).1 = none → ∀ j, next ≤ j → j < maxNfs → (nfs j).status = .running) := by
  induction k generalizing next with
  | zero =>
    refine ⟨fun id h => (by cases h), fun _ j h1 h2 => ?_⟩
    omega
  | succ k ih =>
    unfold searchId
    split
    · rename_i hlt
      split
      · rename_i hv
        have hrun : (nfs next).status = .running := by simpa [onvmNfIsValid] using hv
        obtain ⟨hsome, hnone⟩ := @ih (next + 1) (by omega)
        refine ⟨fun id h => ?_, fun h j h1 h2 => ?_⟩
        · obtain ⟨g1, g2, g3, g4⟩ := hsome id h
          refine ⟨by omega, g2, g3, fun j h1 h2 => ?_⟩
          rcases Nat.eq_or_lt_of_le h1 with rfl | h1
          · exact hrun
          · exact g4 j h1 h2
        · rcases Nat.eq_or_lt_of_le h1 with rfl | h1
          · exact hrun
          · exact hnone h j h1 h2
      · rename_i hv
        refine ⟨?_, fun h => by cases h⟩
        rintro id ⟨⟩
        refine ⟨Nat.le_refl _, hlt, by simpa [onvmNfIsValid] using hv, fun j h1 h2 => ?_⟩
        omega
    · rename_i hlt
      refine ⟨fun id h => (by cases h), fun _ j h1 h2 => ?_⟩
      omega

/-- The ID is the first from `next_instance_id` on whose NF does not run, or
else the first from `starting_instance_id` on, or else there is none. -/
theorem nextInstanceId_cases (hnum : m.numNfs < maxNfs) {id : Nat}
    (hid : m.onvmNfNextInstanceId.1 = id) :
    (m.nextInstanceId ≤ id ∧ id < maxNfs ∧ (m.nfs id).status ≠ .running ∧
      ∀ j, m.nextInstanceId ≤ j → j < id → (m.nfs j).status = .running) ∨
    ((∀ j, m.nextInstanceId ≤ j → j < maxNfs → (m.nfs j).status = .running) ∧
      ((startingInstanceId ≤ id ∧ id < maxNfs ∧ (m.nfs id).status ≠ .running ∧
        ∀ j, startingInstanceId ≤ j → j < id → (m.nfs j).status = .running) ∨
      ((∀ j, startingInstanceId ≤ j → j < maxNfs → (m.nfs j).status = .running) ∧
        id = maxNfs))) := by
  obtain ⟨hsome, hnone⟩ := searchId_spec m.nfs (Nat.le_add_left maxNfs m.nextInstanceId)
  obtain ⟨hsome', hnone'⟩ := searchId_spec m.nfs (Nat.le_add_left maxNfs startingInstanceId)
  unfold onvmNfNextInstanceId at hid
  rw [if_neg (Nat.not_le_of_lt hnum)] at hid
  split at hid
  · rename_i x next hsearch
    obtain rfl : x = id := hid
    exact .inl (hsome x (by rw [hsearch]))
  · rename_i next hsearch
    refine .inr ⟨hnone (by rw [hsearch]), ?_⟩
    split at hid
    · rename_i x next' hsearch'
      obtain rfl : x = id := hid
      exact .inl (hsome' x (by rw [hsearch']))
    · rename_i next' hsearch'
      exact .inr ⟨hnone' (by rw [hsearch']), hid.symm⟩

/-- An ID is found only below `MAX_NFS` running NFs. -/
theorem numNfs_lt_of_next (h : m.onvmNfNextInstanceId.1 < maxNfs) : m.numNfs < maxNfs := by
  by_contra hge
  unfold onvmNfNextInstanceId at h
  rw [if_pos (Nat.le_of_not_lt hge)] at h
  exact absurd h (Nat.lt_irrefl _)

/-- The manager never chooses ID 0. -/
theorem targetId_pos (hn : 0 < m.nextInstanceId) {cfg : OnvmNfInitCfg}
    (hcfg : cfg.instanceId = nfNoId) (hlt : m.targetId cfg < maxNfs) : 0 < m.targetId cfg := by
  have htarget : m.onvmNfNextInstanceId.1 = m.targetId cfg := by
    unfold targetId chooseId
    rw [if_pos hcfg]
  have hnum : m.numNfs < maxNfs := numNfs_lt_of_next (htarget ▸ hlt)
  rcases nextInstanceId_cases hnum htarget with h | ⟨-, h | h⟩
  · exact Nat.lt_of_lt_of_le hn h.1
  · exact h.1
  · exact absurd h.2 (Nat.ne_of_lt hlt)

theorem chooseId_next (hn : 0 < m.nextInstanceId) (cfg : OnvmNfInitCfg) :
    0 < (m.chooseId cfg).2 := by
  have h1 := searchId_next m.nfs maxNfs m.nextInstanceId
  have h2 := searchId_next m.nfs maxNfs startingInstanceId
  have h3 : startingInstanceId = 1 := rfl
  unfold chooseId onvmNfNextInstanceId
  grind

theorem start_frame (hn : 0 < m.nextInstanceId) (cfg : OnvmNfInitCfg) :
    (m.onvmNfStart cfg).1.nfInfoMp = m.nfInfoMp ∧ 0 < (m.onvmNfStart cfg).1.nextInstanceId := by
  have hnext := chooseId_next hn cfg
  by_cases h : m.Admits cfg
  · have hkeeps := initRings_keeps (m.occupied cfg) (m.targetId cfg)
    rw [(start_admitted h).1, hkeeps.pool, hkeeps.next]
    exact ⟨rfl, hnext⟩
  · rcases (start_refused h).1 with h | h <;> rw [h]
    · exact ⟨rfl, hn⟩
    · exact ⟨rfl, hnext⟩

theorem ready_frame (m : Tables) (i : Nat) : (m.onvmNfReady i).1.nfInfoMp = m.nfInfoMp ∧
    (m.onvmNfReady i).1.nextInstanceId = m.nextInstanceId := by
  unfold onvmNfReady
  split <;> exact ⟨rfl, rfl⟩

theorem stop_frame (m : Tables) (i : Nat) : (m.onvmNfStop i).1.nfInfoMp = m.nfInfoMp ∧
    (m.onvmNfStop i).1.nextInstanceId = m.nextInstanceId := by
  have hrel := release_frame (m.freeTag i) i
  unfold onvmNfStop
  dsimp only
  split
  · exact ⟨rfl, rfl⟩
  split
  · exact hrel
  split
  · exact hrel
  · exact hrel

/-- The pool stays, and `next_instance_id` never gets to 0. -/
theorem onEvent_frame (hn : 0 < m.nextInstanceId) (e : Event) :
    (m.onEvent e).nfInfoMp = m.nfInfoMp ∧ 0 < (m.onEvent e).nextInstanceId := by
  unfold onEvent
  split
  · exact ⟨rfl, hn⟩
  split
  · unfold onMsg
    split
    · exact start_frame hn _
    · rename_i i
      exact ⟨(ready_frame m i).1, (ready_frame m i).2 ▸ hn⟩
    · rename_i i
      exact ⟨(stop_frame m i).1, (stop_frame m i).2 ▸ hn⟩
    all_goals exact ⟨rfl, hn⟩
  · exact ⟨rfl, hn⟩
  · exact ⟨rfl, hn⟩

theorem Effect.tidy {e : Event} {v : View} (h : Effect m e v) (ht : m.view.Tidy) : v.Tidy := by
  cases h with
  | quiet => exact ht
  | granted cfg he hadm hfree hded hzero =>
    refine tidy_update ?_ fun i _ => ?_
    · exact ⟨fun _ => ⟨rfl, hadm.id, hadm.service⟩, by simp,
        fun _ _ => ⟨rfl, rfl, rfl, by simp [View.grant]⟩⟩
    · exact (ht i).mono fun k hk => by simp [View.grant, hk]
  | clashed cfg k slot v he hadm hlive hst hid hsvc hslots hnum hcnt htab hexit =>
    unfold View.Tidy
    rw [hslots]
    refine tidy_update ?_ fun i _ => ?_
    · refine ⟨fun _ => ⟨hid, hadm.id, hsvc ▸ hadm.service⟩, ?_, fun h => absurd h hexit⟩
      rw [hst]
      decide
    · exact ⟨(ht i).named, (ht i).paused, fun h => absurd h hexit⟩
  | readied i he hst =>
    refine tidy_update ?_ fun j _ => ht j
    exact ⟨fun _ => (ht i).named (.inl hst), by simp, fun he _ => (ht i).owned he (.inl hst)⟩
  | aborted i he hst =>
    exact tidy_update (tidy_stopped rfl) fun j _ => ht j
  | stopped i he hst =>
    refine tidy_update (tidy_stopped rfl) fun j hj => ?_
    exact (ht j).mono fun k hk => by simp [View.retire, View.withdraw, View.vacate, hk, hj]

theorem onEvent_sound (hs : m.Sound) (e : Event) : (m.onEvent e).Sound := by
  obtain ⟨hpool, hnext⟩ := onEvent_frame hs.next e
  exact ⟨hpool.trans hs.pool, hnext, (effect hs e).tidy hs.tidy⟩

end Tables

end Onvm.Mgr

import Onvm.Mgr.Registry
import Onvm.Pkt.Receive

/-!
# Delivery to the service a packet was routed to

The local buffers are indexed by instance ID and outlive the NF they were filled
for: a flush finds the NF stopped and returns, and when the ID is given to an NF
of another service, the next flush delivers to that. The calls of the workers run
here between the messages of the manager. What is said of them needs every NF
that stops to leave no packets behind in a buffer, and the service tables to be
in order.
-/

namespace Onvm.Pkt

open Onvm.Lib Onvm.Nflib Onvm.Mgr

variable {ι : Type}

inductive NfCall where
  | enqueueNf (serviceId pkt : Nat) (sourceNf : Option Nat)
  | flushNfQueue (nfId : Nat) (sourceNf : Option Nat)
  | flushAllNfs (sourceNf : Option Nat)
  deriving DecidableEq, Repr

namespace NfCall

def toCall : NfCall → Call
  | enqueueNf serviceId pkt sourceNf => .enqueueNf serviceId pkt sourceNf
  | flushNfQueue nfId sourceNf => .flushNfQueue nfId sourceNf
  | flushAllNfs sourceNf => .flushAllNfs sourceNf

/-- The call flushes the buffer of NF `i`. -/
def Flushes (i : Nat) : NfCall → Prop
  | enqueueNf .. => False
  | flushNfQueue nfId _ => nfId = i
  | flushAllNfs _ => i < maxNfs

/-- The service a packet was last enqueued for. -/
def route (routed : Nat → Nat) : NfCall → Nat → Nat
  | enqueueNf serviceId pkt _ => Function.update routed pkt serviceId
  | flushNfQueue .. | flushAllNfs _ => routed

end NfCall

/-- The plane, and for each packet the service it was last enqueued for. -/
structure Routing (ι : Type) where
  plane : Plane ι
  routed : Nat → Nat

namespace Routing

/-- A worker makes a call, or the tables change: NFs start, become ready and
stop, and take packets from their rings. -/
inductive Event (ι : Type) where
  | call (w : ι) (c : NfCall)
  | mgr (e : Tables.Event)

def step [DecidableEq ι] (t : Routing ι) : Event ι → Routing ι
  | .call w c => ⟨(c.toCall.body w).final t.plane, c.route t.routed⟩
  | .mgr e => { t with plane := { t.plane with tables := t.plane.tables.onEvent e } }

/-- What a call puts on the ring of a running NF was enqueued for the service of
that NF, and no packet stays in a buffer that is flushed. -/
def Delivers [DecidableEq ι] (t : Routing ι) : Event ι → Prop
  | .call w c =>
    let t' := t.step (.call w c)
    (∀ i name, (t.plane.tables.nfs i).status = .running →
      (t.plane.tables.nfs i).rxQ = some name →
      ∃ moved, t'.plane.held (.ring name) = t.plane.held (.ring name) ++ moved ∧
        ∀ pkt ∈ moved, t'.routed pkt = (t.plane.tables.nfs i).serviceId) ∧
      ∀ i, c.Flushes i → (t'.plane.mgrs w).nfRxBufs i = []
  | .mgr _ => True

/-- A packet that is enqueued is not in a buffer already. An NF that stops
while it runs has no packets in the buffers of the workers, no NF is given ID 0,
and none becomes ready when its service is full. -/
def Orderly (t : Routing ι) : Event ι → Prop
  | .call _ (.enqueueNf _ pkt _) => ∀ v i, pkt ∉ (t.plane.mgrs v).nfRxBufs i
  | .call _ (.flushNfQueue ..) | .call _ (.flushAllNfs _) => True
  | .mgr e =>
    let m := t.plane.tables
    (∀ i, e = .msg (.nfStopping (some i)) → m.exit = none → (m.nfs i).status = .running →
      ∀ v, (t.plane.mgrs v).nfRxBufs i = []) ∧
    (∀ cfg, e = .msg (.nfStarting (some cfg)) → m.Admits cfg → m.targetId cfg ≠ 0) ∧
    m.ReadyFits e

end Routing

/-! ## Calls -/

namespace Plane

def RunsFor (s : Plane ι) (i serviceId : Nat) : Prop :=
  (s.tables.nfs i).status = .running ∧ (s.tables.nfs i).serviceId = serviceId

/-- Every packet in a buffer is there for a running NF of its service. -/
def Buffered (routed : Nat → Nat) (s : Plane ι) : Prop :=
  ∀ v i, ∀ pkt ∈ s.held (.buf v (.nfRx i)), s.RunsFor i (routed pkt)

/-- What the rings gain goes to running NFs of the packets' services. -/
structure Carries (routed : Nat → Nat) (s s' : Plane ι) : Prop where
  world : s'.world = s.world
  buffered : s'.Buffered routed
  rings : ∀ name, ∃ moved, s'.held (.ring name) = s.held (.ring name) ++ moved ∧
    ∀ pkt ∈ moved, ∃ i, (s.tables.nfs i).rxQ = some name ∧ s.RunsFor i (routed pkt)

theorem nfs_of_world {s s' : Plane ι} (h : s'.world = s.world) : s'.tables.nfs = s.tables.nfs :=
  congrArg World.nfs h

theorem runsFor_of_world {s s' : Plane ι} (h : s'.world = s.world) {i serviceId : Nat} :
    s'.RunsFor i serviceId ↔ s.RunsFor i serviceId := by
  unfold RunsFor
  rw [nfs_of_world h]

variable {routed : Nat → Nat} {s s' s'' : Plane ι}

theorem Carries.refl (h : s.Buffered routed) : Carries routed s s :=
  ⟨rfl, h, fun _ => ⟨[], (List.append_nil _).symm, fun _ h => by cases h⟩⟩

theorem Carries.trans (h : Carries routed s s') (h' : Carries routed s' s'') :
    Carries routed s s'' := by
  refine ⟨h'.world.trans h.world, h'.buffered, fun name => ?_⟩
  obtain ⟨moved, heq, hmoved⟩ := h.rings name
  obtain ⟨moved', heq', hmoved'⟩ := h'.rings name
  refine ⟨moved ++ moved', by rw [heq', heq, List.append_assoc], fun pkt hpkt => ?_⟩
  rcases List.mem_append.mp hpkt with hpkt | hpkt
  · exact hmoved pkt hpkt
  · obtain ⟨i, hq, hr⟩ := hmoved' pkt hpkt
    rw [nfs_of_world h.world] at hq
    exact ⟨i, hq, (runsFor_of_world h.world).mp hr⟩

theorem Carries.of_core (h : s.Buffered routed) (hcore : s'.core = s.core) [DecidableEq ι] :
    Carries routed s s' := by
  have hheld := held_of_core hcore
  have hworld : s'.world = s.world := by
    show s'.core.world = s.core.world
    rw [hcore]
  refine ⟨hworld, fun v i pkt hpkt => ?_, fun name => ⟨[], ?_, fun _ h => by cases h⟩⟩
  · rw [hheld] at hpkt
    exact (runsFor_of_world hworld).mpr (h v i pkt (by simpa using hpkt))
  · rw [hheld]
    simp

end Plane

variable [DecidableEq ι] {w : ι} {routed : Nat → Nat} {s : Plane ι}

omit [DecidableEq ι] in
theorem deposit_eq_ring {q : Option RingName} {pkts : List Nat} {name : RingName}
    (h : s.deposit q pkts = .ring name) : q = some name := by
  unfold Plane.deposit at h
  split at h
  · cases h
  · split at h
    · injection h with h
      rw [h]
    · cases h

/-- What was buffered for a running NF goes to its ring or is freed. -/
theorem flushNfQueue_carries (nfId : Nat) (sourceNf : Option Nat) (h : s.Buffered routed) :
    Plane.Carries routed s ((onvmPktFlushNfQueue w nfId sourceNf).final s) := by
  have hworld := ((ignores_world w).keeps_flushNfQueue nfId sourceNf).final s
  by_cases hidle : (s.mgrs w).nfRxBufs nfId = [] ∨ onvmNfIsValid (s.tables.nfs nfId) = false
  · rw [flushNfQueue_idle w sourceNf hidle]
    exact .refl h
  obtain ⟨hne, hvalid⟩ := not_or.mp hidle
  have hheld := flushNfQueue_held w sourceNf hne (Bool.not_eq_false _ ▸ hvalid)
  refine ⟨hworld, fun v i pkt hpkt => ?_, fun name => ?_⟩
  · rw [hheld, Function.update_of_ne (deposit_ne_buf _ _ _ _ _)] at hpkt
    by_cases hv : Place.buf v (.nfRx i) = .buf w (.nfRx nfId)
    · rw [hv, Function.update_self] at hpkt
      cases hpkt
    · rw [Function.update_of_ne hv] at hpkt
      exact (Plane.runsFor_of_world hworld).mpr (h v i pkt hpkt)
  · rw [hheld]
    by_cases hring : s.deposit (s.tables.nfs nfId).rxQ ((s.mgrs w).nfRxBufs nfId) = .ring name
    · refine ⟨(s.mgrs w).nfRxBufs nfId, ?_, fun pkt hpkt =>
        ⟨nfId, deposit_eq_ring hring, h w nfId pkt hpkt⟩⟩
      rw [hring, Function.update_self]
    · refine ⟨[], ?_, fun _ h => by cases h⟩
      rw [Function.update_of_ne (Ne.symm hring), Function.update_of_ne (by simp), List.append_nil]

theorem flushAllNfs_carries (sourceNf : Option Nat) (h : s.Buffered routed) :
    Plane.Carries routed s ((onvmPktFlushAllNfs w sourceNf).final s) :=
  Prog.each_inv (I := Plane.Carries routed s)
    (fun i _ _ hs' => hs'.trans (flushNfQueue_carries i sourceNf hs'.buffered)) (.refl h)

theorem append_carries {nfId pkt : Nat} (h : s.Buffered routed)
    (hr : s.RunsFor nfId (routed pkt)) :
    Plane.Carries routed s (s.append w (.nfRx nfId) pkt) := by
  have hworld := (ignores_world w).append s (.nfRx nfId) pkt trivial
  by_cases hroom : s.HasRoom w (.nfRx nfId)
  · have hheld := held_append hroom pkt
    refine ⟨hworld, fun v i pkt' hpkt => ?_, fun name => ⟨[], ?_, fun _ h => by cases h⟩⟩
    · rw [Plane.runsFor_of_world hworld]
      rw [hheld] at hpkt
      by_cases hv : Place.buf v (.nfRx i) = .buf w (.nfRx nfId)
      · obtain ⟨rfl, rfl⟩ : v = w ∧ i = nfId := by simpa using hv
        rw [Function.update_self, List.mem_append, List.mem_singleton] at hpkt
        rcases hpkt with hpkt | rfl
        · exact h v i pkt' hpkt
        · exact hr
      · rw [Function.update_of_ne hv] at hpkt
        exact h v i pkt' hpkt
    · rw [hheld]
      simp
  · have hheld := held_append_full hroom pkt
    refine ⟨hworld, fun v i pkt' hpkt => ?_, fun name => ⟨[], ?_, fun _ h => by cases h⟩⟩
    · rw [hheld] at hpkt
      exact (Plane.runsFor_of_world hworld).mpr (h v i pkt' hpkt)
    · rw [hheld, List.append_nil]

theorem enqueueNf_carries (serviceId pkt : Nat) (sourceNf : Option Nat) (h : s.Buffered routed)
    (hl : s.tables.view.Listed) (hr : routed pkt = serviceId) :
    Plane.Carries routed s ((onvmPktEnqueueNf w serviceId pkt sourceNf).final s) := by
  obtain ⟨hcore, -⟩ := refuse_final pkt sourceNf s
  by_cases hun : s.Unserved serviceId pkt
  · rw [enqueueNf_unserved w sourceNf hun]
    exact .of_core h hcore
  · rw [enqueueNf_served w sourceNf hun]
    have hruns : s.RunsFor (s.instanceFor serviceId pkt) (routed pkt) := by
      rw [hr]
      exact Tables.lookup_runs hl (not_or.mp hun).1
    have happend := append_carries (w := w) h hruns
    rw [appendOrFlush_final]
    split
    · exact happend.trans (flushNfQueue_carries _ sourceNf happend.buffered)
    · exact happend

theorem flushNfQueue_leaves_none {nfId : Nat} (sourceNf : Option Nat) (h : s.Buffered routed) :
    ((onvmPktFlushNfQueue w nfId sourceNf).final s).held (.buf w (.nfRx nfId)) = [] := by
  cases hbuf : (s.mgrs w).nfRxBufs nfId with
  | nil =>
    rw [flushNfQueue_idle w sourceNf (.inl hbuf)]
    exact hbuf
  | cons pkt pkts =>
    have hmem : pkt ∈ (s.mgrs w).nfRxBufs nfId := hbuf ▸ List.mem_cons_self
    have hruns := h w nfId pkt hmem
    exact flushNfQueue_empties w sourceNf (by simp [onvmNfIsValid, hruns.1])

theorem flushNfQueues_leave_none {i : Nat} (sourceNf : Option Nat) (is : List Nat)
    (h : s.Buffered routed) (hi : i ∈ is ∨ s.held (.buf w (.nfRx i)) = []) :
    ((Prog.each (fun i => onvmPktFlushNfQueue w i sourceNf) is).final s).held
      (.buf w (.nfRx i)) = [] := by
  induction is generalizing s with
  | nil => exact hi.resolve_left List.not_mem_nil
  | cons j js ih =>
    rw [Prog.final_each_cons]
    refine ih (flushNfQueue_carries j sourceNf h).buffered ?_
    by_cases hij : i = j
    · subst hij
      exact .inr (flushNfQueue_leaves_none sourceNf h)
    · rcases hi with hi | hi
      · exact .inl ((List.mem_cons.mp hi).resolve_left hij)
      · right
        rw [(flushNfQueue_flushed w j sourceNf s).other w (.nfRx i) (by simpa using hij), hi]

/-- **One call** delivers to the services, and leaves behind only packets that
wait for a running NF of theirs. -/
theorem nfCall_carries {c : NfCall} (h : s.Buffered (c.route routed))
    (hl : s.tables.view.Listed) :
    Plane.Carries (c.route routed) s ((c.toCall.body w).final s) := by
  cases c with
  | enqueueNf serviceId pkt sourceNf =>
    exact enqueueNf_carries serviceId pkt sourceNf h hl (Function.update_self ..)
  | flushNfQueue nfId sourceNf => exact flushNfQueue_carries nfId sourceNf h
  | flushAllNfs sourceNf => exact flushAllNfs_carries sourceNf h

theorem nfCall_leaves_none {c : NfCall} {i : Nat} (h : s.Buffered (c.route routed))
    (hc : c.Flushes i) : (((c.toCall.body w).final s).mgrs w).nfRxBufs i = [] := by
  cases c with
  | enqueueNf => exact hc.elim
  | flushNfQueue nfId sourceNf =>
    obtain rfl : nfId = i := hc
    exact flushNfQueue_leaves_none sourceNf h
  | flushAllNfs sourceNf =>
    exact flushNfQueues_leave_none sourceNf _ h (.inl (List.mem_range.mpr hc))

/-- What the registry is judged by; the packets on the rings are not part of it. -/
def Plane.registry (s : Plane ι) : View × Bool × Nat :=
  (s.tables.view, s.tables.nfInfoMp, s.tables.nextInstanceId)

theorem ignores_registry (w : ι) : Ignores Plane.registry w fun _ => True := by
  refine ignores_of_fault (fun _ _ _ => rfl) (fun _ _ _ => rfl) (fun _ _ => rfl) (fun s q pkts => ?_)
    (fun _ _ _ => rfl) (fun _ _ _ => rfl) (fun _ _ => rfl)
  unfold Plane.enqueueBulk
  split
  · refine Prod.ext ?_ rfl
    show Tables.view _ = Tables.view _
    unfold Tables.view
    congr 1
    funext name
    dsimp only
    split
    · exact Option.isSome_map
    · rfl
  · rfl

theorem nfCall_registry (w : ι) (c : NfCall) (s : Plane ι) :
    ((c.toCall.body w).final s).registry = s.registry := by
  have h := ignores_registry w
  cases c with
  | enqueueNf serviceId pkt sourceNf =>
    exact (h.keeps_enqueueNf (fun _ => trivial) serviceId pkt sourceNf).final s
  | flushNfQueue nfId sourceNf => exact (h.keeps_flushNfQueue nfId sourceNf).final s
  | flushAllNfs sourceNf => exact (h.keeps_flushAllNfs sourceNf).final s

omit [DecidableEq ι] in
theorem fits_of_registry {s' : Plane ι} (h : s'.registry = s.registry) (hf : s.tables.Fits) :
    s'.tables.Fits := by
  have hview : s'.tables.view = s.tables.view := congrArg Prod.fst h
  have hpool : s'.tables.nfInfoMp = s.tables.nfInfoMp := congrArg (·.2.1) h
  have hnext : s'.tables.nextInstanceId = s.tables.nextInstanceId := congrArg (·.2.2) h
  refine ⟨⟨hpool.trans hf.sound.pool, hnext ▸ hf.sound.next, ?_⟩, ?_, fun svc => ?_⟩
  · rw [hview]
    exact hf.sound.tidy
  · rw [hview]
    exact hf.counted
  · show s'.tables.view.nfPerServiceCount svc ≤ _
    rw [hview]
    exact hf.cap svc

/-! ## Runs -/

namespace Routing

/-- The invariant of the runs: the registry is in order, a running NF receives on
the ring of its ID, and packets wait for NFs of their service. -/
structure Settled (t : Routing ι) : Prop where
  fits : t.plane.tables.Fits
  listed : t.plane.tables.view.Listed
  owned : ∀ i, (t.plane.tables.nfs i).status = .running →
    (t.plane.tables.nfs i).rxQ = some ⟨.rx, i⟩
  buffered : t.plane.Buffered t.routed

variable {t : Routing ι}

omit [DecidableEq ι] in
/-- The packet that a call enqueues is in no buffer, so that the buffers are
right by its new service too. -/
theorem Settled.route (h : t.Settled) {w : ι} {c : NfCall} (ho : t.Orderly (.call w c)) :
    t.plane.Buffered (c.route t.routed) := by
  cases c with
  | enqueueNf serviceId pkt sourceNf =>
    intro v i pkt' hpkt
    have hne : pkt' ≠ pkt := fun heq => ho v i (heq ▸ hpkt)
    show t.plane.RunsFor i (Function.update t.routed pkt serviceId pkt')
    rw [Function.update_of_ne hne]
    exact h.buffered v i pkt' hpkt
  | flushNfQueue | flushAllNfs => exact h.buffered

theorem Settled.call (h : t.Settled) {w : ι} {c : NfCall} (ho : t.Orderly (.call w c)) :
    (t.step (.call w c)).Settled := by
  have hcarries := nfCall_carries (w := w) (h.route ho) h.listed
  have hregistry := nfCall_registry w c t.plane
  refine ⟨fits_of_registry hregistry h.fits, ?_, fun i => ?_, hcarries.buffered⟩
  · have hview : ((c.toCall.body w).final t.plane).tables.view = t.plane.tables.view :=
      congrArg Prod.fst hregistry
    show ((c.toCall.body w).final t.plane).tables.view.Listed
    rw [hview]
    exact h.listed
  · have hnfs : (t.step (.call w c)).plane.tables.nfs = t.plane.tables.nfs :=
      Plane.nfs_of_world hcarries.world
    rw [hnfs]
    exact h.owned i

theorem Settled.mgr (h : t.Settled) {e : Tables.Event} (ho : t.Orderly (.mgr e)) :
    (t.step (.mgr e)).Settled := by
  obtain ⟨hstop, hzero, hready⟩ := ho
  have heff := Tables.effect h.fits.sound e
  refine ⟨h.fits.onEvent hready, h.fits.listed_onEvent h.listed hzero,
    heff.receives h.fits.sound h.owned, fun w i pkt hpkt => ?_⟩
  have hruns := h.buffered w i pkt hpkt
  refine heff.runs hruns fun he hexit => ?_
  have hnil : t.plane.held (.buf w (.nfRx i)) = [] := hstop i he hexit hruns.1 w
  have hmem : pkt ∈ t.plane.held (.buf w (.nfRx i)) := hpkt
  rw [hnil] at hmem
  cases hmem

theorem Settled.step (h : t.Settled) {e : Event ι} (ho : t.Orderly e) : (t.step e).Settled := by
  cases e with
  | call w c => exact h.call ho
  | mgr e => exact h.mgr ho

theorem Settled.delivers (h : t.Settled) {e : Event ι} (ho : t.Orderly e) : t.Delivers e := by
  cases e with
  | mgr e => trivial
  | call w c =>
    refine ⟨fun i name hrun hq => ?_, fun i hc => nfCall_leaves_none (h.route ho) hc⟩
    obtain ⟨moved, heq, hmoved⟩ := (nfCall_carries (w := w) (h.route ho) h.listed).rings name
    refine ⟨moved, heq, fun pkt hpkt => ?_⟩
    obtain ⟨j, hqj, hruns⟩ := hmoved pkt hpkt
    -- Two running NFs do not share a ring.
    have hij : j = i := by
      rw [h.owned j hruns.1] at hqj
      rw [h.owned i hrun] at hq
      simpa using hqj.trans hq.symm
    subst hij
    exact hruns.2.symm

omit [DecidableEq ι] in
theorem settled_boot {numCores : NumCores} {enabled : Nat → Bool}
    (hm : t.plane.tables = Tables.boot numCores enabled)
    (he : ∀ v i, (t.plane.mgrs v).nfRxBufs i = []) : t.Settled := by
  have hc := Tables.boot_consistent numCores enabled
  refine ⟨hm ▸ hc.fits, hm ▸ hc.listed, fun i hi => ?_, fun v i pkt hpkt => ?_⟩
  · rw [hm] at hi
    cases hi
  · have hmem : pkt ∈ (t.plane.mgrs v).nfRxBufs i := hpkt
    rw [he v i] at hmem
    cases hmem

/-- **Delivery.** From boot on, with empty buffers: in a run in which no NF stops
with packets waiting for it in a buffer and the service tables stay in order,
every packet is delivered to the service it was enqueued for, and a flush leaves
none behind. -/
theorem delivered_to_service (t : Routing ι) (numCores : NumCores) (enabled : Nat → Bool)
    (es : List (Event ι)) (hm : t.plane.tables = Tables.boot numCores enabled)
    (he : ∀ v i, (t.plane.mgrs v).nfRxBufs i = []) (ho : Along Routing.step Orderly t es) :
    Along Routing.step Delivers t es :=
  Along.of_inv (I := Settled) (fun _ _ h ho => h.step ho) (fun _ _ h ho => h.delivers ho)
    (settled_boot hm he) ho

/-- One RX thread, before any NF has started. -/
def atBoot : Routing Unit :=
  ⟨Plane.fresh Tables.bootSingle fun _ => rxMgr, fun _ => 0⟩

/-- NF 1 of service 1 starts, and packet 5 is enqueued for it. -/
def oneWaits : List (Event Unit) :=
  [.mgr (.msg (.nfStarting (some { serviceId := 1 }))), .mgr (.msg (.nfReady 1)),
    .call () (.enqueueNf 1 5 none)]

/-- NF 1 stops, and an NF of service 2 takes its ID. -/
def takenOver : List (Event Unit) :=
  [.mgr (.msg (.nfStopping (some 1))),
    .mgr (.msg (.nfStarting (some { instanceId := 1, serviceId := 2 }))), .mgr (.msg (.nfReady 1))]

theorem delivered_to_service_flushed :
    Along Routing.step Delivers atBoot (oneWaits ++ .call () (.flushAllNfs none) :: takenOver) := by
  refine delivered_to_service atBoot ⟨1, by decide⟩ (fun _ => true) _ rfl (fun _ _ => rfl) ?_
  refine ⟨⟨?_, ?_, ?_⟩, ⟨?_, ?_, ?_⟩, fun _ _ => List.not_mem_nil, trivial, ⟨?_, ?_, ?_⟩,
    ⟨?_, ?_, ?_⟩, ⟨?_, ?_, ?_⟩, trivial⟩
  case refine_7 =>
    rintro i ⟨⟩ - - v
    decide +kernel +revert
  case refine_2 | refine_11 =>
    rintro cfg ⟨⟩ -
    decide +kernel
  case refine_6 | refine_15 =>
    rintro i ⟨⟩ - -
    decide +kernel
  all_goals rintro _ ⟨⟩

/-- Packet 5 is delivered to the NF of service 2. -/
theorem id_reused_misdelivers : ¬ Along Routing.step Delivers atBoot
    (oneWaits ++ takenOver ++ [.call () (.flushNfQueue 1 none)]) := by
  intro h
  obtain ⟨-, ⟨hrings, -⟩, -⟩ := along_append.mp h
  obtain ⟨moved, heq, hmoved⟩ := hrings 1 ⟨.rx, 1⟩ (by decide +kernel) (by decide +kernel)
  have hnow : moved = [5] := by
    rw [← List.nil_append moved]
    exact heq.symm.trans (by decide +kernel)
  have hservice := hmoved 5 (hnow ▸ List.mem_singleton_self 5)
  exact absurd hservice (by decide +kernel)

end Routing

end Onvm.Pkt

import Onvm.Pkt.Deliver
import Onvm.Pkt.Ownership

/-!
# Delivery between the steps

The calls that send packets to NFs once more, now step by step: between the lookup of
an NF and the write to its buffer, and between the check of a flush and the enqueue, the
manager stops NFs and gives their IDs to others, and packets that a worker has just put
on a ring, and still lists in its buffer, are already routed by the next. A worker sends
the packets that it has: it receives them or takes them off an RX ring, writes their
metadata, and frees some. What a packet on an RX ring is there for is read off its
metadata, which nobody but its owner writes.
-/

namespace Onvm.Pkt

open Onvm.Lib Onvm.Nflib Onvm.Mgr

variable {ι : Type}

/-! ## The workers and the manager -/

inductive Task where
  | receive (pkts : List Nat)
  | dequeue (nfId : Nat)
  | address (pkt : Nat) (f : OnvmPktMeta → OnvmPktMeta)
  | drop (pkt : Nat)
  | send (c : NfCall)

def Task.body [DecidableEq ι] (w : ι) : Task → PktProg ι Unit
  | .receive pkts => .write .tau (·.receive w pkts)
  | .dequeue nfId => do
    let _ ← rteRingDequeueBurst w fun s => (s.tables.nfs nfId).rxQ
  | .address pkt f => .write (.touch pkt) (·.setMeta pkt f)
  | .drop pkt => do
    let _ ← onvmPktDrop pkt
  | .send c => c.toCall.body w

namespace Plane

/-- The service that the packet is routed to. -/
def service (s : Plane ι) (pkt : Nat) : Nat := (s.pktMeta pkt).destination

def rxQueue (s : Plane ι) (i : Nat) : List Nat := s.tables.queued ⟨.rx, i⟩

/-- The worker has the packet, and does not list it in a buffer. -/
def Carried (s : Plane ι) (w : ι) (pkt : Nat) : Prop :=
  s.owner pkt = some w ∧ ∀ i, pkt ∉ (s.mgrs w).nfRxBufs i

end Plane

/-- A worker writes, frees and sends only packets in its hand, and sends them to the
service in their metadata. -/
def Task.Own (w : ι) (c : Task) (s : Plane ι) : Prop :=
  match c with
  | .address pkt _ | .drop pkt => s.Carried w pkt
  | .send (.enqueueNf serviceId pkt _) => s.Carried w pkt ∧ serviceId = s.service pkt
  | .send (.flushNfQueue ..) | .send (.flushAllNfs _) | .receive _ | .dequeue _ => True

def Manage.event : Manage → Tables.Event
  | .msg m => .msg m
  | .family i parent childrenCnt => .family i parent childrenCnt

/-- The conditions of `Routing.Orderly` on what the manager does. -/
def Manage.Orderly (e : Manage) (s : Plane ι) : Prop :=
  Routing.Orderly ⟨s, s.service⟩ (.mgr e.event)

/-- When a packet is put into the buffer of an NF, the NF that was looked up for it has not
been replaced. -/
def StillRuns (_ : ι) (a : Access) (s : Plane ι) : Prop :=
  match a with
  | .append (.nfRx i) pkt => s.RunsFor i (s.service pkt)
  | .append (.port _) _ | .append .toTx _ | .tau | .check _ | .touch _ | .lookup _ => True

instance (s : Plane ι) (i serviceId : Nat) : Decidable (s.RunsFor i serviceId) :=
  inferInstanceAs (Decidable ((s.tables.nfs i).status = .running ∧
    (s.tables.nfs i).serviceId = serviceId))

instance (w : ι) (a : Access) (s : Plane ι) : Decidable (StillRuns w a s) :=
  match a with
  | .append (.nfRx i) pkt => inferInstanceAs (Decidable (s.RunsFor i (s.service pkt)))
  | .append (.port _) _ | .append .toTx _ | .tau | .check _ | .touch _ | .lookup _ => isTrue trivial

/-! ## The contract -/

/-- What holds of the tables as long as the manager's steps are orderly. -/
structure Serving (m : Tables) : Prop where
  fits : m.Fits
  listed : m.view.Listed
  receives : m.view.Receives
  wired : AllWired m

namespace Plane

/-- A packet on an RX ring is on one, once, nobody has it, and the NF of the ring runs in
its service. -/
structure InService (s : Plane ι) : Prop where
  serving : Serving s.tables
  right : ∀ i, ∀ pkt ∈ s.rxQueue i,
    s.RunsFor i (s.service pkt) ∧ s.owner pkt = none ∧ s.seen pkt = true
  once : ∀ i, (s.rxQueue i).Nodup
  apart : ∀ {i j pkt}, pkt ∈ s.rxQueue i → pkt ∈ s.rxQueue j → i = j
  known : ∀ pkt, s.owner pkt ≠ none → s.seen pkt = true

/-- The worker lists each packet in one buffer, once. It has the packets it lists, and they wait
for running NFs of their services; nothing is said of those in buffer `b`, which is being
flushed. -/
structure Lists (s : Plane ι) (w : ι) (b : Option Nat) : Prop where
  right : ∀ i, b ≠ some i → ∀ pkt ∈ (s.mgrs w).nfRxBufs i,
    s.owner pkt = some w ∧ s.RunsFor i (s.service pkt)
  once : ∀ i, ((s.mgrs w).nfRxBufs i).Nodup
  apart : ∀ {i j pkt}, pkt ∈ (s.mgrs w).nfRxBufs i → pkt ∈ (s.mgrs w).nfRxBufs j → i = j

end Plane

/-- What a worker relies on: nobody else touches its buffers or the packets it has, and an
NF that it has packets for is not stopped. -/
structure ServiceRely (w : ι) (s s' : Plane ι) : Prop where
  mgrs : s'.mgrs w = s.mgrs w
  own : ∀ pkt, s.owner pkt = some w → s'.owner pkt = some w ∧ s'.pktMeta pkt = s.pktMeta pkt
  runs : ∀ i serviceId, (s.mgrs w).nfRxBufs i ≠ [] → s.RunsFor i serviceId →
    s'.RunsFor i serviceId

section Rely

variable {w : ι} {s s' s'' : Plane ι} {b : Option Nat}

theorem ServiceRely.trans (h : ServiceRely w s s') (h' : ServiceRely w s' s'') :
    ServiceRely w s s'' where
  mgrs := h'.mgrs.trans h.mgrs
  own pkt ho := by
    obtain ⟨ho', hm⟩ := h.own pkt ho
    obtain ⟨ho'', hm'⟩ := h'.own pkt ho'
    exact ⟨ho'', hm'.trans hm⟩
  runs i serviceId hne hr := h'.runs i serviceId (h.mgrs.symm ▸ hne) (h.runs i serviceId hne hr)

theorem ServiceRely.service {pkt : Nat} (h : ServiceRely w s s') (ho : s.owner pkt = some w) :
    s'.service pkt = s.service pkt :=
  congrArg OnvmPktMeta.destination (h.own pkt ho).2

theorem ServiceRely.carried {pkt : Nat} (h : ServiceRely w s s') (hs : s.Carried w pkt) :
    s'.Carried w pkt :=
  ⟨(h.own pkt hs.1).1, h.mgrs.symm ▸ hs.2⟩

theorem ServiceRely.lists (h : ServiceRely w s s') (hs : s.Lists w b) : s'.Lists w b where
  right i hi pkt hpkt := by
    rw [h.mgrs] at hpkt
    obtain ⟨ho, hr⟩ := hs.right i hi pkt hpkt
    refine ⟨(h.own pkt ho).1, ?_⟩
    rw [h.service ho]
    exact h.runs i _ (List.ne_nil_of_mem hpkt) hr
  once := h.mgrs.symm ▸ hs.once
  apart := h.mgrs.symm ▸ hs.apart

end Rely

def delivery (ι : Type) : Contract ι Access (Plane ι) where
  Inv s := s.InService
  Rely := ServiceRely
  Cond := StillRuns
  Goal _ _ _ := True
  Rest w s := s.Lists w none
  refl _ _ := ⟨rfl, fun _ ho => ⟨ho, rfl⟩, fun _ _ _ h => h⟩
  trans := ServiceRely.trans
  stable := ServiceRely.lists

variable {w v : ι} {s s' : Plane ι} {b : Option Nat} {i pkt : Nat} {nfBuf : List Nat} {α : Type}

/-! ## Steps -/

namespace Delivery

theorem relied (hm : s'.mgrs v = s.mgrs v) (hn : s'.tables.nfs = s.tables.nfs)
    (ho : ∀ pkt, s.owner pkt = some v →
      s'.owner pkt = some v ∧ s'.pktMeta pkt = s.pktMeta pkt) : ServiceRely v s s' := by
  refine ⟨hm, ho, fun i serviceId _ hr => ?_⟩
  unfold Plane.RunsFor
  rw [hn]
  exact hr

/-- A step that leaves the tables alone, and what is on the RX rings. -/
theorem inService_of_tables (hi : s.InService) (ht : s'.tables = s.tables)
    (hkeep : ∀ i, ∀ pkt ∈ s.rxQueue i,
      s'.owner pkt = none ∧ s'.seen pkt = true ∧ s'.pktMeta pkt = s.pktMeta pkt)
    (hknown : ∀ pkt, s'.owner pkt ≠ none → s'.seen pkt = true) : s'.InService := by
  have hqueue : s'.rxQueue = s.rxQueue := by
    unfold Plane.rxQueue
    rw [ht]
  refine ⟨ht.symm ▸ hi.serving, fun i pkt hpkt => ?_, hqueue.symm ▸ hi.once,
    hqueue.symm ▸ hi.apart, hknown⟩
  rw [hqueue] at hpkt
  obtain ⟨ho, hs, hm⟩ := hkeep i pkt hpkt
  obtain ⟨hr, -, -⟩ := hi.right i pkt hpkt
  refine ⟨?_, ho, hs⟩
  unfold Plane.RunsFor Plane.service
  rw [ht, hm]
  exact hr

theorem inService_of_same (hi : s.InService) (ht : s'.tables = s.tables)
    (ho : s'.owner = s.owner) (hs : s'.seen = s.seen) (hm : s'.pktMeta = s.pktMeta) :
    s'.InService := by
  refine inService_of_tables hi ht (fun i pkt hpkt => ?_) fun pkt => ?_
  · obtain ⟨-, hnone, hseen⟩ := hi.right i pkt hpkt
    exact ⟨ho ▸ hnone, hs ▸ hseen, congrFun hm pkt⟩
  · rw [ho, hs]
    exact hi.known pkt

/-- A step that nothing here is said of. -/
def Silent (_ : Access) (upd : Plane ι → Plane ι) : Prop :=
  ∀ s, (upd s).tables = s.tables ∧ (upd s).owner = s.owner ∧ (upd s).seen = s.seen ∧
    (upd s).pktMeta = s.pktMeta ∧ (upd s).mgrs = s.mgrs

theorem harmless_of_silent {a : Access} {upd : Plane ι → Plane ι} (h : Silent a upd) :
    (delivery ι).Harmless w a upd := by
  intro s hi _
  obtain ⟨ht, ho, hs, hm, hq⟩ := h s
  refine ⟨trivial, inService_of_same hi ht ho hs hm, fun v => ?_⟩
  exact relied (congrFun hq v) (congrArg Tables.nfs ht) fun pkt hpkt =>
    ⟨ho ▸ hpkt, congrFun hm pkt⟩

theorem silent_tally (nf : Nat) (f : NfStats → NfStats) :
    (tally nf f : PktProg ι Unit).Steps Silent :=
  Prog.steps_access (fun _ => ⟨rfl, rfl, rfl, rfl, rfl⟩) _

theorem silent_tallySource (sourceNf : Option Nat) (f : NfStats → NfStats) :
    (tallySource sourceNf f : PktProg ι Unit).Steps Silent := by
  cases sourceNf with
  | none => trivial
  | some nf => exact silent_tally nf f

theorem holds_silent {p : PktProg ι Unit} (hp : p.Steps Silent) (hs : s.Lists w b) :
    (delivery ι).Holds w (fun _ s' => s'.Lists w b) p s :=
  (Contract.holds_of_harmless (hp.mono fun _ _ => harmless_of_silent) s).mono
    fun _ _ hr => ServiceRely.lists hr hs

theorem holds_read {a : Access} {get : Plane ι → α} {Q : α → Plane ι → Prop}
    (h : ∀ s', ServiceRely w s s' → s'.InService → Q (get s') s') :
    (delivery ι).Holds w Q (.read a get) s :=
  Contract.holds_access fun s' hr hi _ =>
    ⟨trivial, hi, fun v _ => (delivery ι).refl v s', h s' hr hi⟩

/-! ### Freeing -/

theorem lists_free (hs : s.Lists w b)
    (hpkt : ∀ i, b ≠ some i → pkt ∉ (s.mgrs w).nfRxBufs i) : (s.free pkt).Lists w b := by
  refine ⟨fun i hi pkt' hpkt' => ?_, hs.once, hs.apart⟩
  obtain ⟨ho, hr⟩ := hs.right i hi pkt' hpkt'
  have hne : pkt ≠ pkt' := by
    rintro rfl
    exact hpkt i hi hpkt'
  exact ⟨(Unmoved.free hne s).owner.trans ho, hr⟩

theorem drop_holds {Q : Plane ι → Prop} (ho : s.owner pkt = some w)
    (h : ∀ s', ServiceRely w s s' → Q (s'.free pkt)) :
    (delivery ι).Holds w (fun _ => Q) (onvmPktDrop pkt) s := by
  refine Contract.holds_access fun s' hr hi _ => ⟨trivial, ?_, fun v hv => ?_, h s' hr⟩
  · refine inService_of_tables hi rfl (fun i pkt' hpkt' => ?_) fun pkt' hpkt' => ?_
    · obtain ⟨-, hnone, hseen⟩ := hi.right i pkt' hpkt'
      exact ⟨ite_eq_left_iff.mpr fun _ => hnone, hseen, rfl⟩
    · exact hi.known pkt' fun hnone => hpkt' (ite_eq_left_iff.mpr fun _ => hnone)
  · refine relied rfl rfl fun pkt' hpkt' => ⟨?_, rfl⟩
    have hne : pkt ≠ pkt' := by
      rintro rfl
      exact hv (Option.some.inj (hpkt'.symm.trans (hr.own pkt ho).1))
    exact (Unmoved.free hne s').owner.trans hpkt'

/-- The packets of the buffer that is being flushed are freed. -/
theorem dropAll_holds {pkts : List Nat} (hs : s.Lists w (some i)) (hnd : pkts.Nodup)
    (hpkts : ∀ pkt ∈ pkts, s.owner pkt = some w ∧ pkt ∈ (s.mgrs w).nfRxBufs i) :
    (delivery ι).Holds w (fun _ s' => s'.Lists w (some i)) (dropAll pkts) s := by
  refine (Contract.Holds.each (C := delivery ι) (J := fun pkts s => s.Lists w (some i) ∧
    pkts.Nodup ∧ ∀ pkt ∈ pkts, s.owner pkt = some w ∧ pkt ∈ (s.mgrs w).nfRxBufs i)
    (fun pkt pkts s ⟨hs, hnd, hpkts⟩ => ?_) ⟨hs, hnd, hpkts⟩).mono fun _ _ h => h.1
  obtain ⟨hnot, hnd⟩ := List.nodup_cons.mp hnd
  obtain ⟨ho, hmem⟩ := hpkts pkt List.mem_cons_self
  apply Contract.Holds.bind
  refine drop_holds ho fun s' hr => ⟨?_, hnd, fun pkt' hpkt' => ?_⟩
  · refine lists_free (hr.lists hs) fun j hj hpkt => hj ?_
    rw [hr.mgrs] at hpkt
    exact congrArg some (hs.apart hmem hpkt)
  · obtain ⟨ho', hmem'⟩ := hpkts pkt' (List.mem_cons_of_mem pkt hpkt')
    have hne : pkt ≠ pkt' := by
      rintro rfl
      exact hnot hpkt'
    exact ⟨(Unmoved.free hne s').owner.trans (hr.own pkt' ho').1, hr.mgrs.symm ▸ hmem'⟩

theorem refuse_holds (sourceNf : Option Nat) (hs : s.Lists w none)
    (hpkt : s.Carried w pkt) :
    (delivery ι).Holds w (fun _ s' => s'.Lists w none) (refuse pkt sourceNf) s := by
  apply Contract.Holds.bind
  refine drop_holds hpkt.1 fun s' hr => ?_
  exact holds_silent (silent_tallySource _ _)
    (lists_free (hr.lists hs) fun i _ => (hr.carried hpkt).2 i)

/-! ### Taking packets -/

/-- Packets that nobody has are taken. -/
theorem relied_of_taken (hm : s'.mgrs = s.mgrs) (hn : s'.tables.nfs = s.tables.nfs)
    (hmeta : s'.pktMeta = s.pktMeta)
    (ho : ∀ pkt, s.owner pkt ≠ none → s'.owner pkt = s.owner pkt) (v : ι) :
    ServiceRely v s s' := by
  refine relied (congrFun hm v) hn fun pkt hpkt => ⟨?_, congrFun hmeta pkt⟩
  rw [ho pkt (hpkt ▸ nofun), hpkt]

theorem receive_keeps (pkts : List Nat) (hi : s.InService) :
    (s.receive w pkts).InService ∧ ∀ v, ServiceRely v s (s.receive w pkts) := by
  have hnew : ∀ pkt ∈ s.arrivals pkts, s.seen pkt = false := by
    intro pkt hpkt
    have hfilter := List.of_mem_filter (List.mem_of_mem_take hpkt)
    simp only [Bool.and_eq_true, Bool.not_eq_true'] at hfilter
    exact hfilter.1.1
  have hold : ∀ pkt, s.seen pkt = true → pkt ∉ s.arrivals pkts := by
    intro pkt hseen hpkt
    rw [hnew pkt hpkt] at hseen
    cases hseen
  refine ⟨inService_of_tables hi rfl (fun i pkt hpkt => ?_) fun pkt hpkt => ?_,
    relied_of_taken rfl rfl rfl fun pkt hpkt => if_neg (hold pkt (hi.known pkt hpkt))⟩
  · obtain ⟨-, hnone, hseen⟩ := hi.right i pkt hpkt
    exact ⟨(if_neg (hold pkt hseen)).trans hnone, ite_eq_left_iff.mpr fun _ => hseen, rfl⟩
  · refine ite_eq_left_iff.mpr fun hmem => hi.known pkt fun hnone => hpkt ?_
    exact (if_neg hmem).trans hnone

theorem serving_congr (h : Serving s.tables) (hreg : s'.registry = s.registry)
    (hn : s'.tables.nfs = s.tables.nfs) : Serving s'.tables := by
  have hview : s'.tables.view = s.tables.view := congrArg Prod.fst hreg
  refine ⟨fits_of_registry hreg h.fits, hview ▸ h.listed, hview ▸ h.receives, ?_⟩
  unfold AllWired
  rw [hn]
  exact h.wired

theorem registry_dequeueBurst (s : Plane ι) (w : ι) (q : Option RingName) :
    (s.dequeueBurst w q).registry = s.registry := by
  refine Prod.ext ?_ rfl
  show Tables.view _ = Tables.view _
  unfold Plane.dequeueBurst Tables.view
  congr 1
  funext name
  dsimp only
  split
  · exact Option.isSome_map
  · rfl

theorem rxQueue_dequeueBurst (s : Plane ι) (w : ι) (q : Option RingName) (i : Nat) :
    (s.dequeueBurst w q).rxQueue i =
      if q = some ⟨.rx, i⟩ then (s.rxQueue i).drop packetReadSize else s.rxQueue i := by
  unfold Plane.rxQueue Tables.queued Plane.dequeueBurst
  dsimp only
  split
  · cases s.tables.rings ⟨.rx, i⟩ <;> rfl
  · rfl

theorem dequeueBurst_keeps {q : Option RingName} (hq : ∀ name ∈ q, name.kind = .rx)
    (hi : s.InService) :
    (s.dequeueBurst w q).InService ∧ ∀ v, ServiceRely v s (s.dequeueBurst w q) := by
  have hburst : ∀ pkt ∈ s.burst q, ∃ i, q = some ⟨.rx, i⟩ ∧
      pkt ∈ (s.rxQueue i).take packetReadSize := by
    intro pkt hpkt
    cases q with
    | none => cases hpkt
    | some name =>
      obtain ⟨kind, i⟩ := name
      obtain rfl : kind = .rx := hq _ rfl
      exact ⟨i, rfl, hpkt⟩
  have hsub : ∀ i, ((s.dequeueBurst w q).rxQueue i).Sublist (s.rxQueue i) := by
    intro i
    rw [rxQueue_dequeueBurst]
    split
    · exact List.drop_sublist _ _
    · exact List.Sublist.refl _
  -- What stays on a ring is not in the burst, as it was there once and on no other ring.
  have hstays : ∀ i, ∀ pkt ∈ (s.dequeueBurst w q).rxQueue i, pkt ∉ s.burst q := by
    intro i pkt hpkt hmem
    obtain ⟨j, rfl, htake⟩ := hburst pkt hmem
    obtain rfl : i = j := hi.apart ((hsub i).mem hpkt) (List.mem_of_mem_take htake)
    rw [rxQueue_dequeueBurst, if_pos rfl] at hpkt
    exact List.disjoint_take_drop (hi.once i) le_rfl htake hpkt
  have hfree : ∀ pkt, s.owner pkt ≠ none → pkt ∉ s.burst q := by
    intro pkt hpkt hmem
    obtain ⟨j, -, htake⟩ := hburst pkt hmem
    exact hpkt (hi.right j pkt (List.mem_of_mem_take htake)).2.1
  refine ⟨⟨serving_congr hi.serving (registry_dequeueBurst s w q) rfl, fun i pkt hpkt => ?_,
    fun i => (hi.once i).sublist (hsub i),
    fun hj hk => hi.apart ((hsub _).mem hj) ((hsub _).mem hk), fun pkt hpkt => ?_⟩,
    relied_of_taken rfl rfl rfl fun pkt hpkt => if_neg (hfree pkt hpkt)⟩
  · obtain ⟨hr, hnone, hseen⟩ := hi.right i pkt ((hsub i).mem hpkt)
    exact ⟨hr, (if_neg (hstays i pkt hpkt)).trans hnone, hseen⟩
  · by_cases hmem : pkt ∈ s.burst q
    · obtain ⟨j, -, htake⟩ := hburst pkt hmem
      exact (hi.right j pkt (List.mem_of_mem_take htake)).2.2
    · exact hi.known pkt fun hnone => hpkt ((if_neg hmem).trans hnone)

/-! ### Metadata -/

/-- Only the worker that has a packet writes its metadata, and then it waits nowhere. -/
theorem setMeta_holds (f : OnvmPktMeta → OnvmPktMeta) (hs : s.Lists w none)
    (hpkt : s.Carried w pkt) :
    (delivery ι).Holds w (fun _ s' => s'.Lists w none)
      (.write (.touch pkt) (·.setMeta pkt f)) s := by
  refine Contract.holds_access fun s' hr hi _ => ?_
  have hs' := hr.lists hs
  have hpkt' := hr.carried hpkt
  have hmeta : ∀ pkt' ≠ pkt, (s'.setMeta pkt f).pktMeta pkt' = s'.pktMeta pkt' :=
    fun pkt' hne => Function.update_of_ne hne _ _
  have hother : ∀ {v pkt'}, s'.owner pkt' = v → v ≠ some w → pkt' ≠ pkt := by
    rintro v pkt' ho hv rfl
    exact hv (ho.symm.trans hpkt'.1)
  refine ⟨trivial, inService_of_tables hi rfl (fun i pkt' hmem => ?_) hi.known,
    fun v hv => relied rfl rfl fun pkt' ho => ⟨ho, hmeta pkt' (hother ho (by simpa using hv))⟩,
    ⟨fun i hi pkt' hmem => ?_, hs'.once, hs'.apart⟩⟩
  · obtain ⟨-, hnone, hseen⟩ := hi.right i pkt' hmem
    exact ⟨hnone, hseen, hmeta pkt' (hother hnone nofun)⟩
  · have hne : pkt' ≠ pkt := by
      rintro rfl
      exact hpkt'.2 i hmem
    obtain ⟨ho, hruns⟩ := hs'.right i hi pkt' hmem
    refine ⟨ho, ?_⟩
    unfold Plane.RunsFor Plane.service
    rw [hmeta pkt' hne]
    exact hruns

/-! ### Enqueueing -/

theorem enqueueBulk_same (s : Plane ι) (q : Option RingName) (pkts : List Nat) :
    (s.enqueueBulk q pkts).tables.nfs = s.tables.nfs ∧ (s.enqueueBulk q pkts).mgrs = s.mgrs ∧
      (s.enqueueBulk q pkts).seen = s.seen ∧ (s.enqueueBulk q pkts).pktMeta = s.pktMeta := by
  unfold Plane.enqueueBulk
  split <;> exact ⟨rfl, rfl, rfl, rfl⟩

theorem rxQueue_enqueueBulk (htake : s.ringTakes (some ⟨.rx, i⟩) nfBuf.length) (j : Nat) :
    (s.enqueueBulk (some ⟨.rx, i⟩) nfBuf).rxQueue j =
      if j = i then s.rxQueue j ++ nfBuf else s.rxQueue j := by
  have h := Custody.shelved_enqueueBulk htake (.ring ⟨.rx, j⟩)
  by_cases hj : j = i
  · rw [if_pos hj, hj]
    rw [hj, if_pos rfl] at h
    exact h
  · rw [if_neg hj]
    rwa [if_neg (by simpa using hj)] at h

theorem owner_enqueueBulk (htake : s.ringTakes (some ⟨.rx, i⟩) nfBuf.length) (pkt : Nat) :
    (s.enqueueBulk (some ⟨.rx, i⟩) nfBuf).owner pkt =
      if pkt ∈ nfBuf then none else s.owner pkt := by
  unfold Plane.enqueueBulk
  rw [if_pos htake]
  rfl

theorem runs_enqueueBulk (s : Plane ι) (q : Option RingName) (pkts : List Nat) (j pkt : Nat) :
    (s.enqueueBulk q pkts).RunsFor j ((s.enqueueBulk q pkts).service pkt) ↔
      s.RunsFor j (s.service pkt) := by
  obtain ⟨hn, -, -, hm⟩ := enqueueBulk_same s q pkts
  unfold Plane.RunsFor Plane.service
  rw [hn, hm]

/-- The packets of the other buffers stay the worker's. -/
theorem lists_taken (hs : s.Lists w none) (hbuf : (s.mgrs w).nfRxBufs i = nfBuf)
    (htake : s.ringTakes (some ⟨.rx, i⟩) nfBuf.length) :
    (s.enqueueBulk (some ⟨.rx, i⟩) nfBuf).Lists w (some i) := by
  obtain ⟨-, hmgrs, -, -⟩ := enqueueBulk_same s (some ⟨.rx, i⟩) nfBuf
  refine ⟨fun j hj pkt hpkt => ?_, hmgrs.symm ▸ hs.once, hmgrs.symm ▸ hs.apart⟩
  rw [hmgrs] at hpkt
  rw [runs_enqueueBulk, owner_enqueueBulk htake, if_neg]
  · exact hs.right j nofun pkt hpkt
  · intro hmem
    exact hj (congrArg some (hs.apart (hbuf.symm ▸ hmem) hpkt))

/-- What the ring did not take is freed. -/
theorem settleNf_holds {enqueued : Nat} (sourceNf : Option Nat)
    (hs : s.Lists w (some i)) (hnd : nfBuf.Nodup)
    (hkept : enqueued = 0 → ∀ pkt ∈ nfBuf, s.owner pkt = some w ∧ pkt ∈ (s.mgrs w).nfRxBufs i) :
    (delivery ι).Holds w (fun _ s' => s'.Lists w (some i))
      (settleNf i sourceNf nfBuf enqueued) s := by
  unfold settleNf
  split
  · rename_i hzero
    apply Contract.Holds.bind
    refine (dropAll_holds hs hnd (hkept hzero)).mono fun _ s₁ h₁ => ?_
    exact holds_silent ((silent_tally _ _).bind fun _ => silent_tallySource _ _) h₁
  · exact holds_silent ((silent_tally _ _).bind fun _ => silent_tallySource _ _) hs

/-! ### The own buffers -/

theorem ownBuf_holds {a : Access} {upd : Plane ι → Plane ι} {Q : Plane ι → Prop}
    (hsame : ∀ s, (upd s).tables = s.tables ∧ (upd s).owner = s.owner ∧ (upd s).seen = s.seen ∧
      (upd s).pktMeta = s.pktMeta)
    (hother : ∀ s, ∀ v ≠ w, (upd s).mgrs v = s.mgrs v)
    (h : ∀ s', ServiceRely w s s' → StillRuns w a s' → Q (upd s')) :
    (delivery ι).Holds w (fun _ => Q) (.write a upd) s := by
  refine Contract.holds_access fun s' hr hi hc => ?_
  obtain ⟨ht, ho, hs, hm⟩ := hsame s'
  refine ⟨trivial, inService_of_same hi ht ho hs hm, fun v hv => ?_, h s' hr hc⟩
  exact relied (hother s' v hv) (congrArg Tables.nfs ht) fun pkt hpkt =>
    ⟨ho ▸ hpkt, congrFun hm pkt⟩

section Workers

variable [DecidableEq ι]

theorem nfRxBufs_clear (s : Plane ι) (w : ι) (i j : Nat) :
    ((s.setBuf w (.nfRx i) []).mgrs w).nfRxBufs j =
      if j = i then [] else (s.mgrs w).nfRxBufs j := by
  unfold Plane.setBuf QueueMgr.setBuf
  dsimp only
  rw [Function.update_self]
  exact Function.update_apply _ i [] j

/-- The buffer that was flushed is cleared, whatever it lists. -/
theorem clear_holds (hs : s.Lists w (some i)) :
    (delivery ι).Holds w (fun _ s' => s'.Lists w none) (clear w (.nfRx i)) s := by
  refine ownBuf_holds (fun _ => ⟨rfl, rfl, rfl, rfl⟩) (fun s v hv => Function.update_of_ne hv _ _)
    fun s' hr _ => ?_
  have hs' := hr.lists hs
  have hsub : ∀ j, ((s'.setBuf w (.nfRx i) []).mgrs w).nfRxBufs j ⊆ (s'.mgrs w).nfRxBufs j := by
    intro j
    rw [nfRxBufs_clear]
    split
    · exact List.nil_subset _
    · exact List.Subset.refl _
  refine ⟨fun j _ pkt hpkt => ?_, fun j => ?_, fun hj hk => hs'.apart (hsub _ hj) (hsub _ hk)⟩
  · have hji : some i ≠ some j := by
      rintro ⟨⟩
      rw [nfRxBufs_clear, if_pos rfl] at hpkt
      cases hpkt
    exact hs'.right j hji pkt (hsub j hpkt)
  · rw [nfRxBufs_clear]
    split
    · exact List.nodup_nil
    · exact hs'.once j

theorem append_same (s : Plane ι) (w : ι) (b : Buf) (pkt : Nat) :
    (s.append w b pkt).tables = s.tables ∧ (s.append w b pkt).owner = s.owner ∧
      (s.append w b pkt).seen = s.seen ∧ (s.append w b pkt).pktMeta = s.pktMeta := by
  unfold Plane.append
  split
  · exact ⟨rfl, rfl, rfl, rfl⟩
  · split <;> exact ⟨rfl, rfl, rfl, rfl⟩

/-- A packet in hand is put into the buffer of an NF of its service; if the buffer is full, it
is written past its end and stays in hand. -/
theorem lists_append (hs : s.Lists w none) (hpkt : s.Carried w pkt)
    (hr : s.RunsFor i (s.service pkt)) : (s.append w (.nfRx i) pkt).Lists w none := by
  obtain ⟨ht, ho, -, hm⟩ := append_same s w (.nfRx i) pkt
  have hruns : ∀ j pkt', (s.append w (.nfRx i) pkt).RunsFor j
      ((s.append w (.nfRx i) pkt).service pkt') ↔ s.RunsFor j (s.service pkt') := by
    intro j pkt'
    unfold Plane.RunsFor Plane.service
    rw [ht, hm]
  have hbufs : ∀ j, ((s.append w (.nfRx i) pkt).mgrs w).nfRxBufs j = (s.mgrs w).nfRxBufs j ∨
      j = i ∧ ((s.append w (.nfRx i) pkt).mgrs w).nfRxBufs j = (s.mgrs w).nfRxBufs j ++ [pkt] := by
    intro j
    by_cases hroom : s.HasRoom w (.nfRx i)
    · have hheld := congrFun (held_append hroom pkt) (.buf w (.nfRx j))
      by_cases hj : j = i
      · subst hj
        rw [Function.update_self] at hheld
        exact .inr ⟨rfl, hheld⟩
      · rw [Function.update_of_ne (by simpa using hj)] at hheld
        exact .inl hheld
    · exact .inl (congrFun (held_append_full hroom pkt) (.buf w (.nfRx j)))
  have hmem : ∀ {j pkt'}, pkt' ∈ ((s.append w (.nfRx i) pkt).mgrs w).nfRxBufs j →
      pkt' ∈ (s.mgrs w).nfRxBufs j ∨ j = i ∧ pkt' = pkt := by
    intro j pkt' h
    rcases hbufs j with hj | ⟨hji, hj⟩
    · exact .inl (hj ▸ h)
    · rw [hj, List.mem_append, List.mem_singleton] at h
      exact h.imp_right fun h => ⟨hji, h⟩
  refine ⟨fun j _ pkt' hpkt' => ?_, fun j => ?_, fun {j k pkt'} hj hk => ?_⟩
  · rw [hruns, ho]
    rcases hmem hpkt' with h | ⟨rfl, rfl⟩
    · exact hs.right j nofun pkt' h
    · exact ⟨hpkt.1, hr⟩
  · rcases hbufs j with hj | ⟨-, hj⟩
    · exact hj ▸ hs.once j
    · rw [hj]
      refine (List.nodup_append.mpr ⟨hs.once j, List.nodup_singleton pkt, fun a ha c hc => ?_⟩)
      rw [List.mem_singleton.mp hc]
      rintro rfl
      exact hpkt.2 j ha
  · rcases hmem hj with hj' | ⟨rfl, rfl⟩
    · rcases hmem hk with hk' | ⟨-, rfl⟩
      · exact hs.apart hj' hk'
      · exact absurd hj' (hpkt.2 j)
    · rcases hmem hk with hk' | ⟨rfl, -⟩
      · exact absurd hk' (hpkt.2 k)
      · rfl

/-! ### Sending -/

/-- The packets of the buffer are the worker's, so they were on no ring. -/
theorem inService_taken (hi : s.InService) (hs : s.Lists w none)
    (hbuf : (s.mgrs w).nfRxBufs i = nfBuf)
    (htake : s.ringTakes (some ⟨.rx, i⟩) nfBuf.length) :
    (s.enqueueBulk (some ⟨.rx, i⟩) nfBuf).InService := by
  obtain ⟨hn, -, hseen, -⟩ := enqueueBulk_same s (some ⟨.rx, i⟩) nfBuf
  have hown : ∀ pkt ∈ nfBuf, s.owner pkt = some w ∧ s.RunsFor i (s.service pkt) :=
    fun pkt hpkt => hs.right i nofun pkt (hbuf.symm ▸ hpkt)
  have hnew : ∀ {j pkt}, pkt ∈ nfBuf → pkt ∉ s.rxQueue j := by
    intro j pkt hpkt hmem
    have hnone := (hi.right j pkt hmem).2.1
    rw [(hown pkt hpkt).1] at hnone
    cases hnone
  have hmem : ∀ {j pkt}, pkt ∈ (s.enqueueBulk (some ⟨.rx, i⟩) nfBuf).rxQueue j →
      pkt ∈ s.rxQueue j ∨ j = i ∧ pkt ∈ nfBuf := by
    intro j pkt hpkt
    rw [rxQueue_enqueueBulk htake] at hpkt
    split at hpkt
    · rename_i hj
      exact (List.mem_append.mp hpkt).imp_right fun h => ⟨hj, h⟩
    · exact .inl hpkt
  refine ⟨serving_congr hi.serving ((ignores_registry w).enqueueBulk s _ _) hn,
    fun j pkt hpkt => ?_, fun j => ?_, fun {j k pkt} hj hk => ?_, fun pkt hpkt => ?_⟩
  · rw [runs_enqueueBulk, owner_enqueueBulk htake, hseen]
    rcases hmem hpkt with hold | ⟨rfl, hnew⟩
    · obtain ⟨hr, hnone, hold⟩ := hi.right j pkt hold
      exact ⟨hr, ite_eq_left_iff.mpr fun _ => hnone, hold⟩
    · obtain ⟨ho, hr⟩ := hown pkt hnew
      exact ⟨hr, if_pos hnew, hi.known pkt (ho ▸ nofun)⟩
  · rw [rxQueue_enqueueBulk htake]
    split
    · refine List.nodup_append.mpr ⟨hi.once j, hbuf ▸ hs.once i, fun a ha c hc => ?_⟩
      rintro rfl
      exact hnew hc ha
    · exact hi.once j
  · rcases hmem hj with hj' | ⟨rfl, hj'⟩
    · rcases hmem hk with hk' | ⟨-, hk'⟩
      · exact hi.apart hj' hk'
      · exact absurd hj' (hnew hk')
    · rcases hmem hk with hk' | ⟨rfl, -⟩
      · exact absurd hk' (hnew hj')
      · rfl
  · rw [owner_enqueueBulk htake] at hpkt
    rw [hseen]
    exact hi.known pkt fun hnone => hpkt (ite_eq_left_iff.mpr fun _ => hnone)

/-- **The enqueue of a flush.** The packets of the buffer go to the RX ring of their NF, or stay
the worker's. -/
theorem enqueueBulk_holds (hs : s.Lists w none) (hne : nfBuf ≠ [])
    (hbuf : (s.mgrs w).nfRxBufs i = nfBuf) :
    (delivery ι).Holds w (fun enqueued s' => s'.Lists w (some i) ∧
        (enqueued = 0 → ∀ pkt ∈ nfBuf, s'.owner pkt = some w ∧ pkt ∈ (s'.mgrs w).nfRxBufs i))
      (rteRingEnqueueBulk (fun s => (s.tables.nfs i).rxQ) nfBuf) s := by
  refine Contract.holds_access fun s' hr hi _ => ⟨trivial, ?_⟩
  have hs' := hr.lists hs
  have hbuf' : (s'.mgrs w).nfRxBufs i = nfBuf := hr.mgrs.symm ▸ hbuf
  obtain ⟨pkt₀, hpkt₀⟩ := List.exists_mem_of_ne_nil nfBuf hne
  have hq : (s'.tables.nfs i).rxQ = some ⟨.rx, i⟩ :=
    hi.serving.receives i (hs'.right i nofun pkt₀ (hbuf'.symm ▸ hpkt₀)).2.1
  simp only [hq]
  by_cases htake : s'.ringTakes (some ⟨.rx, i⟩) nfBuf.length
  · obtain ⟨hn, hmgrs, -, hm⟩ := enqueueBulk_same s' (some ⟨.rx, i⟩) nfBuf
    refine ⟨inService_taken hi hs' hbuf' htake, fun v hv => ?_, lists_taken hs' hbuf' htake, ?_⟩
    · refine relied (congrFun hmgrs v) hn fun pkt ho => ⟨?_, congrFun hm pkt⟩
      rw [owner_enqueueBulk htake, if_neg, ho]
      intro hmem
      have hown := (hs'.right i nofun pkt (hbuf'.symm ▸ hmem)).1
      exact hv (Option.some.inj (ho.symm.trans hown))
    · rw [if_pos htake]
      exact fun hzero => absurd (List.length_eq_zero_iff.mp hzero) hne
  · have hsame : s'.enqueueBulk (some ⟨.rx, i⟩) nfBuf = s' := if_neg htake
    rw [hsame]
    refine ⟨hi, fun v _ => (delivery ι).refl v s', ?_, fun _ pkt hpkt => ?_⟩
    · exact ⟨fun j _ => hs'.right j nofun, hs'.once, hs'.apart⟩
    · have hmem : pkt ∈ (s'.mgrs w).nfRxBufs i := hbuf'.symm ▸ hpkt
      exact ⟨(hs'.right i nofun pkt hmem).1, hmem⟩

theorem flushNfQueue_holds (i : Nat) (sourceNf : Option Nat) (hs : s.Lists w none) :
    (delivery ι).Holds w (fun _ s' => s'.Lists w none) (onvmPktFlushNfQueue w i sourceNf) s := by
  apply Contract.Holds.bind
  refine holds_read fun s₁ h₁ _ => ?_
  have hs₁ := h₁.lists hs
  split
  · exact hs₁
  · rename_i hne
    apply Contract.Holds.bind
    refine holds_read fun s₂ h₂ _ => ?_
    split
    · exact h₂.lists hs₁
    · apply Contract.Holds.bind
      have hbuf : (s₂.mgrs w).nfRxBufs i = (s₁.mgrs w).nfRxBufs i := by rw [h₂.mgrs]
      refine (enqueueBulk_holds (h₂.lists hs₁) hne hbuf).mono fun enqueued s₃ ⟨h₃, hkept⟩ => ?_
      apply Contract.Holds.bind
      refine (settleNf_holds sourceNf h₃ (hs₁.once i) hkept).mono fun _ s₄ h₄ => ?_
      exact clear_holds h₄

theorem flushAllNfs_holds (sourceNf : Option Nat) (hs : s.Lists w none) :
    (delivery ι).Holds w (fun _ s' => s'.Lists w none) (onvmPktFlushAllNfs w sourceNf) s :=
  Contract.Holds.each (J := fun _ (s : Plane ι) => s.Lists w none)
    (fun i _ _ h => flushNfQueue_holds i sourceNf h) hs

theorem enqueueNf_holds (sourceNf : Option Nat) (hs : s.Lists w none) (hpkt : s.Carried w pkt) :
    (delivery ι).Holds w (fun _ s' => s'.Lists w none)
      (onvmPktEnqueueNf w (s.service pkt) pkt sourceNf) s := by
  apply Contract.Holds.bind
  refine holds_read fun s₁ h₁ _ => ?_
  have hs₁ := h₁.lists hs
  have hpkt₁ := h₁.carried hpkt
  split
  · exact refuse_holds sourceNf hs₁ hpkt₁
  · apply Contract.Holds.bind
    refine holds_read fun s₂ h₂ _ => ?_
    have hs₂ := h₂.lists hs₁
    have hpkt₂ := h₂.carried hpkt₁
    split
    · exact refuse_holds sourceNf hs₂ hpkt₂
    · apply Contract.Holds.bind
      refine ownBuf_holds (fun s => append_same s w _ pkt)
        (fun s v hv => mgrs_append_ne s w _ pkt hv) fun s₃ h₃ hruns => ?_
      have hs₄ := lists_append (h₃.lists hs₂) (h₃.carried hpkt₂) hruns
      apply Contract.Holds.bind
      refine holds_read fun s₅ h₅ _ => ?_
      split
      · exact flushNfQueue_holds _ sourceNf (h₅.lists hs₄)
      · exact h₅.lists hs₄

/-! ### The calls -/

theorem task_holds (c : Task) (hc : c.Own w s) (hs : s.Lists w none) :
    (delivery ι).Holds w (fun _ s' => s'.Lists w none) (c.body w) s := by
  cases c with
  | receive pkts =>
    refine (Contract.holds_of_harmless (Prog.steps_access (fun s hi _ => ?_) _) s).mono
      fun _ _ hr => ServiceRely.lists hr hs
    exact ⟨trivial, receive_keeps pkts hi⟩
  | dequeue nfId =>
    apply Contract.Holds.bind
    refine (Contract.holds_of_harmless (Prog.steps_access (fun s hi _ => ?_) _) s).mono
      fun _ _ hr => ServiceRely.lists hr hs
    exact ⟨trivial, dequeueBurst_keeps (hi.serving.wired nfId).rx hi⟩
  | address pkt f => exact setMeta_holds f hs hc
  | drop pkt =>
    apply Contract.Holds.bind
    exact drop_holds hc.1 fun s' hr =>
      lists_free (hr.lists hs) fun i _ => (hr.carried hc).2 i
  | send c =>
    cases c with
    | enqueueNf serviceId pkt sourceNf =>
      obtain ⟨hpkt, rfl⟩ := hc
      exact enqueueNf_holds sourceNf hs hpkt
    | flushNfQueue i sourceNf => exact flushNfQueue_holds i sourceNf hs
    | flushAllNfs sourceNf => exact flushAllNfs_holds sourceNf hs

end Workers

/-! ### The manager -/

theorem tables_manage (s : Plane ι) (e : Manage) :
    (s.manage e).tables = s.tables.onEvent e.event := by
  cases e <;> rfl

theorem event_msg {e : Manage} {msg : Tables.Msg} (h : e.event = .msg msg) : e = .msg msg := by
  cases e with
  | msg msg' => exact congrArg Manage.msg (Tables.Event.msg.inj h)
  | family => cases h

/-- The ring of a running NF that stops is emptied. -/
theorem empties_of_stop (h : Serving s.tables) (hrun : (s.tables.nfs i).status = .running)
    (hexit : s.tables.exit = none) :
    Custody.Empties s (.msg (.nfStopping (some i))) ⟨.rx, i⟩ := by
  have hid : (s.tables.nfs i).instanceId = i :=
    ((h.fits.sound.tidy i).named (.inr (.inl hrun))).1
  have hdrained : s.tables.drained (.nfStopping (some i)) = some i := by
    simp [Tables.drained, hrun, hid]
  exact ⟨hexit, i, hdrained, .inl (h.receives i hrun)⟩

/-- **A step of the manager**: the NF that stops has no packets waiting, and its ring is emptied;
every other NF goes on. -/
theorem manage_keeps {e : Manage} (ho : e.Orderly s) (hi : s.InService) :
    (s.manage e).InService ∧ ∀ v, ServiceRely v s (s.manage e) := by
  obtain ⟨hstop, hzero, hready⟩ := ho
  have heff := Tables.effect hi.serving.fits.sound e.event
  rw [← tables_manage] at heff
  have hserving : Serving (s.manage e).tables := by
    rw [tables_manage]
    exact ⟨hi.serving.fits.onEvent hready, hi.serving.fits.listed_onEvent hi.serving.listed hzero,
      (Tables.effect hi.serving.fits.sound e.event).receives hi.serving.fits.sound
        hi.serving.receives, hi.serving.wired.onEvent _⟩
  have hkept : ∀ {i pkt}, pkt ∈ (s.manage e).rxQueue i →
      ¬ Custody.Empties s e ⟨.rx, i⟩ ∧ pkt ∈ s.rxQueue i := by
    intro i pkt hpkt
    obtain ⟨hempty, hsame⟩ := Custody.queued_manage s e ⟨.rx, i⟩
    by_cases he : Custody.Empties s e ⟨.rx, i⟩
    · rw [Plane.rxQueue, hempty he] at hpkt
      cases hpkt
    · rw [Plane.rxQueue, hsame he] at hpkt
      exact ⟨he, hpkt⟩
  refine ⟨⟨hserving, fun i pkt hpkt => ?_, fun i => ?_, fun hj hk => ?_, hi.known⟩, fun v => ?_⟩
  · obtain ⟨hnot, hpkt⟩ := hkept hpkt
    obtain ⟨hr, hown⟩ := hi.right i pkt hpkt
    refine ⟨heff.runs hr fun he hexit => hnot ?_, hown⟩
    rw [event_msg he]
    exact empties_of_stop hi.serving hr.1 hexit
  · obtain ⟨hempty, hsame⟩ := Custody.queued_manage s e ⟨.rx, i⟩
    unfold Plane.rxQueue
    by_cases he : Custody.Empties s e ⟨.rx, i⟩
    · rw [hempty he]
      exact List.nodup_nil
    · rw [hsame he]
      exact hi.once i
  · exact hi.apart (hkept hj).2 (hkept hk).2
  · refine ⟨rfl, fun _ ho => ⟨ho, rfl⟩, fun i serviceId hne hr => heff.runs hr fun he hexit => ?_⟩
    exact hne (hstop i he hexit hr.1 v)

end Delivery

/-! ## Runs -/

namespace Plane

variable [DecidableEq ι]

/-- The run of the workers and the manager in which these turns are taken, from workers at
rest. -/
def serve (s : Plane ι) (es : List (Turn ι Task Manage)) : Threads ι Access (Plane ι) :=
  exec (Threads.turn Plane.manage Task.body) ⟨s, fun _ => .ret ()⟩ es

def Orderly (s : Plane ι) (es : List (Turn ι Task Manage)) : Prop :=
  Along (Threads.turn Plane.manage Task.body)
    (Threads.OnTurn Manage.Orderly Task.Own StillRuns) ⟨s, fun _ => .ret ()⟩ es

end Plane

theorem delivery_boot {numCores : NumCores} {enabled : Nat → Bool}
    (hm : s.tables = Tables.boot numCores enabled) (he : ∀ v i, (s.mgrs v).nfRxBufs i = [])
    (ho : ∀ pkt, s.owner pkt = none) : (delivery ι).InForce ⟨s, fun _ => .ret ()⟩ := by
  have hc := Tables.boot_consistent numCores enabled
  have hqueue : ∀ i, s.rxQueue i = [] := by
    intro i
    unfold Plane.rxQueue
    rw [hm]
    rfl
  refine Contract.InForce.start ⟨?_, fun i pkt hpkt => ?_, fun i => ?_, fun {i j pkt} hpkt => ?_,
    fun pkt hpkt => absurd (ho pkt) hpkt⟩ fun w => ⟨fun i _ pkt hpkt => ?_, fun i => ?_,
      fun {i j pkt} hpkt => ?_⟩
  · rw [hm]
    exact ⟨hc.fits, hc.listed, nofun, allWired_boot numCores enabled⟩
  · rw [hqueue i] at hpkt
    cases hpkt
  · rw [hqueue i]
    exact List.nodup_nil
  · rw [hqueue i] at hpkt
    cases hpkt
  · rw [he w i] at hpkt
    cases hpkt
  · rw [he w i]
    exact List.nodup_nil
  · rw [he w i] at hpkt
    cases hpkt

/-- **Delivery between the steps.** From boot on, while the workers send packets to NFs and the
manager stops and starts NFs between any two of their steps: if no NF stops with packets
waiting for it in a buffer, the service tables stay in order, and no NF is replaced between
its lookup and the write to its buffer, then what is on the RX ring of an NF at any time is
there for the service that the NF runs. -/
theorem delivered_between_steps [DecidableEq ι] (s : Plane ι) (numCores : NumCores)
    (enabled : Nat → Bool) (es : List (Turn ι Task Manage))
    (hm : s.tables = Tables.boot numCores enabled) (he : ∀ v i, (s.mgrs v).nfRxBufs i = [])
    (ho : ∀ pkt, s.owner pkt = none) (hes : s.Orderly es) :
    let s' := (s.serve es).shared
    ∀ i, ∀ pkt ∈ s'.rxQueue i, s'.RunsFor i (s'.service pkt) := by
  have hforce := (delivery_boot hm he ho).run (fun w c s hc _ hs => Delivery.task_holds c hc hs)
    (fun s e he hi => Delivery.manage_keeps he hi) hes
  intro s' i pkt hpkt
  exact (hforce.inv.right i pkt hpkt).1

/-- NF 1 of service 1 starts, and a worker receives packet 5, addresses it to the service and
looks up the NF. -/
def lookedUp : List (Turn Unit Task Manage) :=
  [.env (.msg (.nfStarting (some { serviceId := 1 }))), .env (.msg (.nfReady 1)),
    .call () (.receive [5]), .tick (),
    .call () (.address 5 fun x => { x with destination := 1 }), .tick (),
    .call () (.send (.enqueueNf 1 5 none)), .tick (), .tick ()]

/-- It puts the packet into the buffer and flushes it. -/
def flushed : List (Turn Unit Task Manage) :=
  .tick () :: .tick () :: .call () (.send (.flushNfQueue 1 none)) :: List.replicate 5 (.tick ())

/-- NF 1 stops, and an NF of service 2 takes its ID. -/
def replaced : List (Turn Unit Task Manage) :=
  [.env (.msg (.nfStopping (some 1))),
    .env (.msg (.nfStarting (some { instanceId := 1, serviceId := 2 }))),
    .env (.msg (.nfReady 1))]

theorem delivered_between_steps_flushed :
    (Routing.atBoot.plane.serve (lookedUp ++ flushed)).shared.rxQueue 1 = [5] ∧
      (Routing.atBoot.plane.serve (lookedUp ++ flushed)).shared.RunsFor 1 1 := by
  have hqueue : (Routing.atBoot.plane.serve (lookedUp ++ flushed)).shared.rxQueue 1 = [5] := by
    decide +kernel
  have h := delivered_between_steps Routing.atBoot.plane ⟨1, by decide⟩ (fun _ => true)
    (lookedUp ++ flushed) rfl (fun _ _ => rfl) (fun _ => rfl) ?_
  · have hservice : (Routing.atBoot.plane.serve (lookedUp ++ flushed)).shared.service 5 = 1 := by
      decide +kernel
    exact ⟨hqueue, hservice ▸ h 1 5 (hqueue ▸ List.mem_singleton_self 5)⟩
  · refine ⟨⟨?_, ?_, ?_⟩, ⟨?_, ?_, ?_⟩, fun _ => trivial, ?_, fun _ => ⟨?_, fun _ => ?_⟩, ?_,
      fun _ => ⟨⟨?_, fun _ => ?_⟩, ?_⟩, ?_, ?_, ?_, ?_, fun _ => trivial, ?_, ?_, ?_, ?_, ?_,
      trivial⟩
    case refine_1 | refine_3 | refine_4 | refine_5 => rintro _ ⟨⟩
    case refine_2 =>
      rintro cfg ⟨⟩ -
      decide +kernel
    case refine_6 =>
      rintro i ⟨⟩ - -
      decide +kernel
    case refine_8 | refine_11 | refine_13 => decide +kernel
    case refine_9 | refine_12 => exact List.not_mem_nil
    all_goals
      show Threads.OnTick StillRuns _ (Turn.tick () : Turn Unit Task Manage)
      decide +kernel

/-- If the NF is replaced between the lookup and the write, packet 5, which is there for service
1, is given to an NF of service 2. -/
example :
    let s := (Routing.atBoot.plane.serve (lookedUp ++ replaced ++ flushed)).shared
    s.rxQueue 1 = [5] ∧ s.service 5 = 1 ∧ (s.tables.nfs 1).serviceId = 2 := by
  decide +kernel

end Onvm.Pkt

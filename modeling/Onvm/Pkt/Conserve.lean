import Onvm.Pkt.Calls

/-!
# Packet conservation

Every packet given to `onvm_pkt_process_tx_batch` should end in one place: freed,
in a local buffer, on a ring or with the NIC. A packet that is `Routable` does.
The others are lost: the chain entry it is sent by has no meaning, its port is
not initialised, or its buffer is not there or full. So is every packet behind
one with an invalid action, where the function returns.
-/

namespace Onvm.Pkt

open Onvm.Lib Onvm.Nflib Onvm.Mgr

variable {ι : Type}

namespace Plane

/-- The buffer is there and takes another packet. -/
def HasRoom (s : Plane ι) (w : ι) (b : Buf) : Prop :=
  ((s.mgrs w).buf b).isSome ∧ s.count w b < packetReadSize

/-- `onvm_pkt_enqueue_nf` finds no NF for the packet and frees it. -/
def Unserved (s : Plane ι) (serviceId pkt : Nat) : Prop :=
  s.instanceFor serviceId pkt = 0 ∨
    onvmNfIsValid (s.tables.nfs (s.instanceFor serviceId pkt)) = false

instance (s : Plane ι) (serviceId pkt : Nat) : Decidable (s.Unserved serviceId pkt) :=
  inferInstanceAs (Decidable (_ ∨ _))

/-- A packet for the service is freed for want of an NF, or fits in the buffer
of its NF. -/
def NfTakes (s : Plane ι) (w : ι) (serviceId pkt : Nat) : Prop :=
  s.instanceFor serviceId pkt = 0 ∨
    onvmNfIsValid (s.tables.nfs (s.instanceFor serviceId pkt)) = false ∨
    s.HasRoom w (.nfRx (s.instanceFor serviceId pkt))

def PortTakes (s : Plane ι) (w : ι) (port : Nat) : Prop :=
  s.portInit port = true ∧ s.HasRoom w (.port port)

/-- The chain entry has a meaning and can be followed. -/
def EntryTakes (s : Plane ι) (w : ι) (pkt : Nat) (e : ChainEntry) : Prop :=
  e.action = actionDrop ∨ e.action = actionTonf ∧ s.NfTakes w e.destination pkt ∨
    e.action = actionOut ∧ s.PortTakes w e.destination

/-- The packet can be sent where its metadata says. A packet without a valid
action is freed. -/
def Routable (s : Plane ι) (w : ι) (pkt : Nat) : Prop :=
  let m := s.pktMeta pkt
  (m.action = actionNext → s.EntryTakes w pkt ((s.chainOf pkt).next m.chainIndex)) ∧
    (m.action = actionTonf → s.NfTakes w m.destination pkt) ∧
    (m.action = actionOut → if (s.mgrs w).mgrType = .mgr then s.PortTakes w m.destination
      else s.HasRoom w .toTx)

def ValidAction (s : Plane ι) (pkt : Nat) : Prop := (s.pktMeta pkt).action ≤ actionOut

instance (s : Plane ι) (pkt : Nat) : Decidable (s.ValidAction pkt) :=
  inferInstanceAs (Decidable (_ ≤ _))

end Plane

/-- What routing a packet does: it is put somewhere if `ok`, and nowhere
otherwise; the other packets are conserved. Buffers below the limit stay below,
and no others change. -/
structure Routed (held held' : Place ι → List Nat) (pkt : Nat) (ok : Prop) : Prop where
  taken : ok → Takes held held' pkt
  lost : ¬ ok → Conserves held held'
  bounds : ok → ∀ w b, held' (.buf w b) = held (.buf w b) ∨
    (held (.buf w b)).length < packetReadSize ∧ (held' (.buf w b)).length < packetReadSize

theorem Routed.congr {held held' : Place ι → List Nat} {pkt : Nat} {ok ok' : Prop}
    (h : Routed held held' pkt ok) (hok : ok' ↔ ok) : Routed held held' pkt ok' :=
  ⟨fun ho => h.taken (hok.mp ho), fun ho => h.lost fun ho' => ho (hok.mpr ho'),
    fun ho => h.bounds (hok.mp ho)⟩

variable [DecidableEq ι]

theorem held_append {s : Plane ι} {w : ι} {b : Buf} (h : s.HasRoom w b) (pkt : Nat) :
    (s.append w b pkt).held =
      Function.update s.held (.buf w b) (s.held (.buf w b) ++ [pkt]) := by
  obtain ⟨pkts, hb⟩ := Option.isSome_iff_exists.mp h.1
  have hlt : pkts.length < packetReadSize := by
    have := h.2
    rwa [Plane.count, hb] at this
  have hheld : s.held (.buf w b) = pkts := by simp [Plane.held, hb]
  rw [hheld]
  unfold Plane.append
  simp only [hb, if_pos hlt]
  exact Plane.held_setBuf h.1 _

theorem count_append {s : Plane ι} {w : ι} {b : Buf} (h : s.HasRoom w b) (pkt : Nat) :
    (s.append w b pkt).count w b = s.count w b + 1 := by
  show ((s.append w b pkt).held (.buf w b)).length = _
  rw [held_append h, Function.update_self, List.length_append]
  rfl

theorem held_append_full {s : Plane ι} {w : ι} {b : Buf} (h : ¬ s.HasRoom w b) (pkt : Nat) :
    (s.append w b pkt).held = s.held := by
  unfold Plane.append
  split
  · rfl
  · rename_i pkts hb
    split
    · rename_i hlt
      exact absurd ⟨by simp [hb], by simpa [Plane.count, hb] using hlt⟩ h
    · rfl

theorem routed_freed {s : Plane ι} (s' : Plane ι) {pkt : Nat} (hcore : s'.core = s.core)
    (hfreed : s'.freed = s.freed ++ [pkt]) : Routed s.held s'.held pkt True := by
  have h : s'.held = Function.update s.held .freed (s.freed ++ [pkt]) := by
    rw [held_of_core hcore, hfreed]
  refine ⟨fun _ => takes_put (b := .freed) ?_ ?_, fun ho => absurd trivial ho, fun _ w b => .inl ?_⟩
  · rw [h, Function.update_self]
    rfl
  · intro q hq
    rw [h, Function.update_of_ne hq]
  · rw [h, Function.update_of_ne (by simp)]

theorem appendOrFlush_final (w : ι) (b : Buf) (pkt : Nat) (flush : PktProg ι Unit) (s : Plane ι) :
    (appendOrFlush w b pkt flush).final s =
      (if (s.append w b pkt).count w b = packetReadSize then flush else pure ()).final
        (s.append w b pkt) := rfl

theorem appendOrFlush_routed {w : ι} {b : Buf} {flush : PktProg ι Unit} (pkt : Nat) {s : Plane ι}
    (hflush : ∀ s, Flushed s (flush.final s) w b)
    (hempty : ∀ s', s'.world = s.world → ((s.mgrs w).buf b).isSome →
      (flush.final s').held (.buf w b) = []) :
    Routed s.held ((appendOrFlush w b pkt flush).final s).held pkt (s.HasRoom w b) := by
  have hfinal := appendOrFlush_final w b pkt flush s
  have hflushed : Flushed (s.append w b pkt) ((appendOrFlush w b pkt flush).final s) w b := by
    rw [hfinal]
    split
    · exact hflush _
    · exact Flushed.refl _ w b
  refine ⟨fun hok => ?_, fun hno => ?_, fun hok v b' => ?_⟩
  · have hput : Takes s.held (s.append w b pkt).held pkt := by
      rw [held_append hok]
      refine takes_put (b := .buf w b) ?_ ?_
      · rw [Function.update_self]
      · intro q hq
        rw [Function.update_of_ne hq]
    exact hput.trans hflushed.conserves
  · have h := hflushed.conserves
    rwa [held_append_full hno] at h
  · by_cases hv : Place.buf v b' = .buf w b
    · obtain ⟨rfl, rfl⟩ : v = w ∧ b' = b := by simpa using hv
      refine .inr ⟨hok.2, ?_⟩
      rw [hfinal]
      split
      · rw [hempty _ ((ignores_world v).append s b' pkt trivial) hok.1]
        exact Nat.zero_lt_succ _
      · rename_i hcount
        have hlen := count_append hok pkt
        have := hok.2
        show (s.append v b' pkt).count v b' < _
        omega
    · left
      rw [hflushed.other v b' hv, held_append hok, Function.update_of_ne hv]

/-! ## The functions -/

theorem enqueueNf_unserved (w : ι) {serviceId pkt : Nat} (sourceNf : Option Nat) {s : Plane ι}
    (h : s.Unserved serviceId pkt) : (onvmPktEnqueueNf w serviceId pkt sourceNf).final s =
      (refuse pkt sourceNf).final s := by
  by_cases hzero : s.instanceFor serviceId pkt = 0
  · simp [onvmPktEnqueueNf, Prog.bind_eq, hzero]
  · simp [onvmPktEnqueueNf, Prog.bind_eq, hzero, h.resolve_left hzero]

theorem enqueueNf_served (w : ι) {serviceId pkt : Nat} (sourceNf : Option Nat) {s : Plane ι}
    (h : ¬ s.Unserved serviceId pkt) : (onvmPktEnqueueNf w serviceId pkt sourceNf).final s =
      (appendOrFlush w (.nfRx (s.instanceFor serviceId pkt)) pkt
        (onvmPktFlushNfQueue w (s.instanceFor serviceId pkt) sourceNf)).final s := by
  obtain ⟨hzero, hvalid⟩ := not_or.mp h
  simp [onvmPktEnqueueNf, Prog.bind_eq, hzero, hvalid]

theorem enqueueNf_routed (w : ι) (serviceId pkt : Nat) (sourceNf : Option Nat) (s : Plane ι) :
    Routed s.held ((onvmPktEnqueueNf w serviceId pkt sourceNf).final s).held pkt
      (s.NfTakes w serviceId pkt) := by
  by_cases hun : s.Unserved serviceId pkt
  · obtain ⟨hcore, hfreed⟩ := refuse_final pkt sourceNf s
    rw [enqueueNf_unserved w sourceNf hun]
    exact (routed_freed _ hcore hfreed).congr (iff_true_intro (or_assoc.mp (.inl hun)))
  · obtain ⟨hzero, hvalid⟩ := not_or.mp hun
    rw [enqueueNf_served w sourceNf hun]
    refine (appendOrFlush_routed pkt (flushNfQueue_flushed w _ sourceNf) ?_).congr ?_
    · intro s' hw _
      have hnfs : s'.tables.nfs = s.tables.nfs := congrArg World.nfs hw
      exact flushNfQueue_empties w sourceNf (by simpa [hnfs] using hvalid)
    · exact (or_iff_right hzero).trans (or_iff_right hvalid)

theorem enqueuePort_routed (w : ι) (port pkt : Nat) (s : Plane ι) :
    Routed s.held ((onvmPktEnqueuePort w port pkt).final s).held pkt (s.PortTakes w port) := by
  by_cases hinit : s.portInit port = false
  · have h : (onvmPktEnqueuePort w port pkt).final s = s := by
      simp [onvmPktEnqueuePort, Prog.bind_eq, Prog.pure_eq, hinit]
    have hno : ¬ s.PortTakes w port := fun ht => by
      rw [ht.1] at hinit
      cases hinit
    rw [h]
    exact ⟨fun ht => absurd ht hno, fun _ => Conserves.refl _, fun ht => absurd ht hno⟩
  have h : (onvmPktEnqueuePort w port pkt).final s =
      (appendOrFlush w (.port port) pkt (onvmPktFlushPortQueue w port)).final s := by
    simp [onvmPktEnqueuePort, Prog.bind_eq, hinit]
  rw [h]
  refine (appendOrFlush_routed pkt (flushPortQueue_flushed w port) ?_).congr ?_
  · intro s' hw hb
    have hbuf := congrFun (congrFun (congrArg World.hasBuf hw) w) (.port port)
    exact flushPortQueue_empties w (hbuf.trans hb)
  · exact and_iff_right (by simpa using hinit)

theorem sendOut_routed (w : ι) (nf pkt : Nat) (s : Plane ι) :
    Routed s.held ((sendOut w nf pkt).final s).held pkt
      (if (s.mgrs w).mgrType = .mgr then s.PortTakes w (s.pktMeta pkt).destination
        else s.HasRoom w .toTx) := by
  by_cases hmgr : (s.mgrs w).mgrType = .mgr
  · have h : (sendOut w nf pkt).final s =
        (onvmPktEnqueuePort w (s.pktMeta pkt).destination pkt).final s := by
      simp [sendOut, Prog.bind_eq, hmgr]
    rw [h, if_pos hmgr]
    exact enqueuePort_routed w _ pkt s
  · have h : (sendOut w nf pkt).final s =
        (appendOrFlush w .toTx pkt (onvmPktEnqueueTxThread w nf)).final
          (s.tally nf fun st => { st with actOut := st.actOut + 1 }) := by
      simp [sendOut, Prog.bind_eq, hmgr, tally]
    rw [h, if_neg hmgr]
    refine appendOrFlush_routed (s := s.tally nf fun st => { st with actOut := st.actOut + 1 }) pkt
      (enqueueTxThread_flushed w nf) ?_
    intro s' hw hb
    have hbuf := congrFun (congrFun (congrArg World.hasBuf hw) w) .toTx
    exact enqueueTxThread_empties w nf (hbuf.trans hb)

theorem sendToNf_routed (w : ι) (pkt nf : Nat) (s : Plane ι) :
    Routed s.held ((sendToNf w pkt nf).final s).held pkt
      (s.NfTakes w (s.pktMeta pkt).destination pkt) :=
  enqueueNf_routed w (s.pktMeta pkt).destination pkt (some nf)
    (s.tally nf fun st => { st with actTonf := st.actTonf + 1 })

theorem routeNext_routed (w : ι) (pkt nf : Nat) (s : Plane ι) :
    Routed s.held ((routeNext w pkt nf (s.pktMeta pkt).action).final s).held pkt
      (s.EntryTakes w pkt ⟨(s.pktMeta pkt).action, (s.pktMeta pkt).destination⟩) := by
  unfold routeNext Plane.EntryTakes
  by_cases hdrop : (s.pktMeta pkt).action = actionDrop
  · rw [if_pos hdrop]
    have h : Routed s.held _ pkt True := routed_freed ((s.free pkt).tally nf fun st =>
      { st with actDrop := st.actDrop + notC 1 }) (by simp) (by simp)
    exact h.congr (iff_true_intro (Or.inl hdrop))
  rw [if_neg hdrop]
  by_cases htonf : (s.pktMeta pkt).action = actionTonf
  · rw [if_pos htonf]
    refine (sendToNf_routed w pkt nf s).congr ?_
    simp only [htonf, true_and, (by decide : actionTonf ≠ actionDrop),
      (by decide : actionTonf ≠ actionOut), false_or, false_and, or_false]
  rw [if_neg htonf]
  by_cases hout : (s.pktMeta pkt).action = actionOut
  · rw [if_pos hout]
    have h : Routed s.held _ pkt (s.PortTakes w (s.pktMeta pkt).destination) :=
      enqueuePort_routed w _ pkt (s.tally nf fun st => { st with actOut := st.actOut + 1 })
    simp only [Prog.bind_eq, Prog.final_bind, Prog.run_read, Prog.final_read, tally,
      Prog.final_write]
    refine h.congr ?_
    simp only [hout, true_and, (by decide : actionOut ≠ actionDrop),
      (by decide : actionOut ≠ actionTonf), false_or, false_and]
  · rw [if_neg hout]
    simp only [hdrop, htonf, hout, false_and, or_self]
    exact ⟨False.elim, fun _ => Conserves.refl _, False.elim⟩

omit [DecidableEq ι] in
theorem setNext_pktMeta (pkt : Nat) (sc : ServiceChain) (s : Plane ι) :
    ((setNext pkt sc).final s).pktMeta pkt =
      { s.pktMeta pkt with
        action := (sc.next (s.pktMeta pkt).chainIndex).action
        destination := (sc.next (s.pktMeta pkt).chainIndex).destination } := by
  simp [setNext, Prog.bind_eq, Plane.setMeta, ServiceChain.next]

omit [DecidableEq ι] in
theorem held_incChainIndex (pkt : Nat) (s : Plane ι) :
    ((incChainIndex pkt).final s).held = s.held := rfl

theorem processNextAction_routed (w : ι) (pkt nf : Nat) (s : Plane ι) :
    Routed s.held ((onvmPktProcessNextAction w pkt nf).final s).held pkt
      (s.EntryTakes w pkt ((s.chainOf pkt).next (s.pktMeta pkt).chainIndex)) := by
  have h := routeNext_routed w pkt nf ((setNext pkt (s.chainOf pkt)).final s)
  unfold onvmPktProcessNextAction
  simp only [Prog.bind_eq, Prog.final_bind, Prog.run_read, Prog.final_read, held_incChainIndex]
  refine h.congr ?_
  rw [setNext_pktMeta]
  rfl

theorem routeTx_routed (w : ι) (nf pkt : Nat) (s : Plane ι) :
    Routed s.held ((routeTx w nf pkt (s.pktMeta pkt).action).final s).held pkt
      (s.Routable w pkt) := by
  unfold routeTx Plane.Routable
  by_cases hdrop : (s.pktMeta pkt).action = actionDrop
  · rw [if_pos hdrop]
    have h : Routed s.held _ pkt True := routed_freed (s := s)
      (((s.tally nf fun st => { st with actDrop := st.actDrop + 1 }).free pkt).tally nf fun st =>
        { st with tx := st.tx + notC 1 }) (by simp) (by simp)
    refine h.congr (iff_true_intro ?_)
    simp [hdrop, actionDrop, actionNext, actionTonf, actionOut]
  rw [if_neg hdrop]
  by_cases hnext : (s.pktMeta pkt).action = actionNext
  · rw [if_pos hnext]
    have h : Routed s.held _ pkt
        (s.EntryTakes w pkt ((s.chainOf pkt).next (s.pktMeta pkt).chainIndex)) :=
      processNextAction_routed w pkt nf (s.tally nf fun st => { st with actNext := st.actNext + 1 })
    simp only [Prog.bind_eq, Prog.final_bind, Prog.pure_eq, Prog.final_ret, tally,
      Prog.final_write]
    refine h.congr ?_
    simp [hnext, actionNext, actionTonf, actionOut]
  rw [if_neg hnext]
  by_cases htonf : (s.pktMeta pkt).action = actionTonf
  · rw [if_pos htonf]
    simp only [Prog.bind_eq, Prog.final_bind, Prog.pure_eq, Prog.final_ret]
    refine (sendToNf_routed w pkt nf s).congr ?_
    simp [htonf, actionNext, actionTonf, actionOut]
  rw [if_neg htonf]
  by_cases hout : (s.pktMeta pkt).action = actionOut
  · rw [if_pos hout]
    simp only [Prog.bind_eq, Prog.final_bind, Prog.pure_eq, Prog.final_ret]
    refine (sendOut_routed w nf pkt s).congr ?_
    simp [hout, actionNext, actionTonf, actionOut]
  · rw [if_neg hout]
    have h : Routed s.held _ pkt True := routed_freed (s := s) (s.free pkt) (by simp) (by simp)
    refine h.congr (iff_true_intro ?_)
    exact ⟨fun h => absurd h hnext, fun h => absurd h htonf, fun h => absurd h hout⟩

theorem routeTx_goesOn (w : ι) (nf pkt action : Nat) (s : Plane ι) :
    ((routeTx w nf pkt action).run s).1 = decide (action ≤ actionOut) := by
  unfold routeTx
  have hout : actionOut = 3 := rfl
  split
  · simp [Prog.bind_eq, Prog.pure_eq, *, actionDrop]
  split
  · simp [Prog.bind_eq, Prog.pure_eq, *, actionNext]
  split
  · simp [Prog.bind_eq, Prog.pure_eq, *, actionTonf]
  split
  · simp [Prog.bind_eq, Prog.pure_eq, *]
  · rename_i h0 h1 h2 h3
    have hlt : ¬ action ≤ actionOut := by
      unfold actionDrop actionNext actionTonf actionOut at *
      omega
    simp [Prog.bind_eq, Prog.pure_eq, hlt]

def Plane.stamp (s : Plane ι) (nf pkt : Nat) : Plane ι :=
  s.setMeta pkt fun m => { m with src := (s.tables.nfs nf).instanceId }

omit [DecidableEq ι] in
theorem stamp_pktMeta (s : Plane ι) (nf pkt : Nat) : (s.stamp nf pkt).pktMeta pkt =
    { s.pktMeta pkt with src := (s.tables.nfs nf).instanceId } := by
  simp [Plane.stamp, Plane.setMeta]

omit [DecidableEq ι] in
theorem stamp_action (s : Plane ι) (nf pkt : Nat) :
    ((s.stamp nf pkt).pktMeta pkt).action = (s.pktMeta pkt).action := by
  rw [stamp_pktMeta]

theorem processTxPacket_run (w : ι) (nf pkt : Nat) (s : Plane ι) :
    (processTxPacket w nf pkt).run s =
      (routeTx w nf pkt (s.pktMeta pkt).action).run (s.stamp nf pkt) := by
  rw [← stamp_action s nf pkt]
  rfl

/-- **One packet**: where it goes, whether the loop goes on, and what stays. -/
theorem processTxPacket_spec (w : ι) (nf pkt : Nat) (s : Plane ι) :
    let s' := (processTxPacket w nf pkt).final s
    Routed s.held s'.held pkt (s.Routable w pkt) ∧
      ((processTxPacket w nf pkt).run s).1 = decide (s.ValidAction pkt) ∧
      s'.world = s.world ∧ ∀ q, q ≠ pkt → s'.pktMeta q = s.pktMeta q := by
  intro s'
  let s₁ := s.stamp nf pkt
  have hrun : (processTxPacket w nf pkt).run s = (routeTx w nf pkt (s.pktMeta pkt).action).run s₁ :=
    processTxPacket_run w nf pkt s
  refine ⟨?_, ?_, ?_, fun q hq => ?_⟩
  · have h : Routed s.held s'.held pkt (s₁.Routable w pkt) := by
      show Routed s.held ((processTxPacket w nf pkt).run s).2.held pkt _
      rw [hrun, ← stamp_action s nf pkt]
      exact routeTx_routed w nf pkt s₁
    refine h.congr ?_
    unfold Plane.Routable
    rw [stamp_pktMeta]
    rfl
  · rw [hrun, routeTx_goesOn]
    rfl
  · exact ((ignoresPkt_world w pkt).keeps_processTxPacket (fun _ => trivial) nf).final s
  · have hkeeps := (ignoresPkt_pktMeta w pkt).keeps_processTxPacket (fun _ => trivial) nf
    have h := congrFun (hkeeps.final s) q
    simpa [hq] using h

/-! ## Batches -/

section Alike

variable {s s' : Plane ι} {w : ι} {pkt : Nat}

omit [DecidableEq ι]

theorem entryTakes_congr (pkt : Nat) (hw : s'.world = s.world)
    (hr : ∀ b, s'.HasRoom w b ↔ s.HasRoom w b) :
    (∀ serviceId, s'.NfTakes w serviceId pkt ↔ s.NfTakes w serviceId pkt) ∧
      (∀ port, s'.PortTakes w port ↔ s.PortTakes w port) ∧
      ∀ e, s'.EntryTakes w pkt e ↔ s.EntryTakes w pkt e := by
  have hnfs : s'.tables.nfs = s.tables.nfs := congrArg World.nfs hw
  have hinst : ∀ serviceId, s'.instanceFor serviceId pkt = s.instanceFor serviceId pkt :=
    fun serviceId => congrArg (fun v : World ι => onvmScServiceToNfMap v.nfPerServiceCount
      v.services serviceId (some (v.rss pkt))) hw
  have hinit : s'.portInit = s.portInit := congrArg World.portInit hw
  have hnf : ∀ serviceId, s'.NfTakes w serviceId pkt ↔ s.NfTakes w serviceId pkt := by
    intro serviceId
    unfold Plane.NfTakes
    rw [hinst, hnfs, hr]
  have hport : ∀ port, s'.PortTakes w port ↔ s.PortTakes w port := by
    intro port
    unfold Plane.PortTakes
    rw [hinit, hr]
  refine ⟨hnf, hport, fun e => ?_⟩
  unfold Plane.EntryTakes
  rw [hnf, hport]

/-- Whether a packet can be routed depends on the world, its metadata and the
room in the buffers. -/
theorem routable_congr (hw : s'.world = s.world) (hr : ∀ b, s'.HasRoom w b ↔ s.HasRoom w b)
    (hm : s'.pktMeta pkt = s.pktMeta pkt) : s'.Routable w pkt ↔ s.Routable w pkt := by
  obtain ⟨hnf, hport, hentry⟩ := entryTakes_congr pkt hw hr
  have hchain : s'.chainOf pkt = s.chainOf pkt :=
    congrArg (fun v : World ι => (v.flow pkt).getD v.defaultChain) hw
  have htype : (s'.mgrs w).mgrType = (s.mgrs w).mgrType := congrFun (congrArg World.mgrType hw) w
  unfold Plane.Routable
  simp only [hm, hchain, htype, hnf, hport, hentry, hr]

theorem hasRoom_of_bounds {ok : Prop} (h : Routed s.held s'.held pkt ok) (hok : ok)
    (hw : s'.world = s.world) (b : Buf) : s'.HasRoom w b ↔ s.HasRoom w b := by
  have hbuf : ((s'.mgrs w).buf b).isSome = ((s.mgrs w).buf b).isSome :=
    congrFun (congrFun (congrArg World.hasBuf hw) w) b
  unfold Plane.HasRoom
  rw [hbuf]
  refine and_congr_right fun _ => ?_
  show (s'.held (.buf w b)).length < _ ↔ (s.held (.buf w b)).length < _
  rcases h.bounds hok w b with heq | ⟨hlt, hlt'⟩
  · rw [heq]
  · exact iff_of_true hlt' hlt

end Alike

theorem final_txBatch_cons (w : ι) (nf pkt : Nat) (pkts : List Nat) (s : Plane ι) :
    (onvmPktProcessTxBatch w nf (pkt :: pkts)).final s =
      if s.ValidAction pkt then
        (onvmPktProcessTxBatch w nf pkts).final ((processTxPacket w nf pkt).final s)
      else (processTxPacket w nf pkt).final s := by
  obtain ⟨-, hrun, -⟩ := processTxPacket_spec w nf pkt s
  rw [onvmPktProcessTxBatch, Prog.bind_eq, Prog.final_bind, hrun]
  by_cases h : s.ValidAction pkt <;> simp [h, Prog.pure_eq]

/-- A packet outside the batch that is in no place stays in none. -/
theorem txBatch_nowhere (w : ι) (nf : Nat) {pkts : List Nat} {s : Plane ι} {q : Nat}
    (hq : q ∉ pkts) (h : Nowhere s.held q) :
    Nowhere ((onvmPktProcessTxBatch w nf pkts).final s).held q := by
  induction pkts generalizing s with
  | nil => exact h
  | cons pkt pkts ih =>
    obtain ⟨hne, hq⟩ := not_or.mp (mt List.mem_cons.mpr hq)
    obtain ⟨hrouted, -⟩ := processTxPacket_spec w nf pkt s
    have h' : Nowhere ((processTxPacket w nf pkt).final s).held q := by
      by_cases hok : s.Routable w pkt
      · exact (hrouted.taken hok).nowhere q h hne
      · exact (hrouted.lost hok).nowhere q h
    rw [final_txBatch_cons]
    split
    · exact ih hq h'
    · exact h'

/-- Every packet of the batch can be routed, and only the last may have an
invalid action. -/
def Plane.Forwardable (s : Plane ι) (w : ι) (pkts : List Nat) : Prop :=
  (∀ pkt ∈ pkts, s.Routable w pkt) ∧ ∀ pkt ∈ pkts.dropLast, s.ValidAction pkt

/-- After a packet that was routed, the rest of the batch is as it was. -/
theorem forwardable_tail {w : ι} {nf pkt : Nat} {pkts : List Nat} {s : Plane ι}
    (hok : s.Routable w pkt) (hnd : pkt ∉ pkts) :
    ((processTxPacket w nf pkt).final s).Forwardable w pkts ↔ s.Forwardable w pkts := by
  obtain ⟨hrouted, -, hworld, hmeta⟩ := processTxPacket_spec w nf pkt s
  have hm : ∀ q ∈ pkts, ((processTxPacket w nf pkt).final s).pktMeta q = s.pktMeta q :=
    fun q hq => hmeta q fun h => hnd (h ▸ hq)
  refine and_congr (forall₂_congr fun q hq => ?_) (forall₂_congr fun q hq => ?_)
  · exact routable_congr hworld (hasRoom_of_bounds hrouted hok hworld) (hm q hq)
  · unfold Plane.ValidAction
    rw [hm q (List.mem_of_mem_dropLast hq)]

omit [DecidableEq ι] in
theorem forwardable_cons {w : ι} {pkt : Nat} {pkts : List Nat} {s : Plane ι} :
    s.Forwardable w (pkt :: pkts) ↔
      s.Routable w pkt ∧ (pkts = [] ∨ s.ValidAction pkt) ∧ s.Forwardable w pkts := by
  unfold Plane.Forwardable
  cases pkts with
  | nil => simp
  | cons q pkts =>
    simp only [List.dropLast_cons_cons, List.forall_mem_cons, reduceCtorEq, false_or]
    tauto

theorem txBatch_atOne (w : ι) (nf : Nat) {pkts : List Nat} {s : Plane ι} (hnd : pkts.Nodup)
    (hno : ∀ pkt ∈ pkts, Nowhere s.held pkt) (hok : s.Forwardable w pkts) {q : Nat}
    (hq : q ∈ pkts ∨ AtOne s.held q) :
    AtOne ((onvmPktProcessTxBatch w nf pkts).final s).held q := by
  induction pkts generalizing s with
  | nil => exact hq.resolve_left List.not_mem_nil
  | cons pkt pkts ih =>
    obtain ⟨hpkt, hnd⟩ := List.nodup_cons.mp hnd
    obtain ⟨hroutable, hvalid, hrest⟩ := forwardable_cons.mp hok
    have htakes := (processTxPacket_spec w nf pkt s).1.taken hroutable
    have hq' : q ∈ pkts ∨ AtOne ((processTxPacket w nf pkt).final s).held q := by
      by_cases hqp : q = pkt
      · subst hqp
        exact .inr (htakes.here (hno q List.mem_cons_self))
      · exact hq.imp (fun h => (List.mem_cons.mp h).resolve_left hqp) fun h => htakes.atOne q h hqp
    have hno' : ∀ p ∈ pkts, Nowhere ((processTxPacket w nf pkt).final s).held p := fun p hp =>
      htakes.nowhere p (hno p (List.mem_cons_of_mem pkt hp)) fun h => hpkt (h ▸ hp)
    rw [final_txBatch_cons]
    split
    · exact ih hnd hno' ((forwardable_tail hroutable hpkt).mpr hrest) hq'
    · rename_i hinvalid
      obtain rfl := hvalid.resolve_right hinvalid
      exact hq'.resolve_left List.not_mem_nil

theorem txBatch_lost (w : ι) (nf : Nat) {pkts : List Nat} {s : Plane ι} (hnd : pkts.Nodup)
    (hno : ∀ pkt ∈ pkts, Nowhere s.held pkt) (hbad : ¬ s.Forwardable w pkts) :
    ∃ q ∈ pkts, Nowhere ((onvmPktProcessTxBatch w nf pkts).final s).held q := by
  induction pkts generalizing s with
  | nil => exact absurd ⟨by simp, by simp⟩ hbad
  | cons pkt pkts ih =>
    obtain ⟨hpkt, hnd⟩ := List.nodup_cons.mp hnd
    have hrouted := (processTxPacket_spec w nf pkt s).1
    by_cases hroutable : s.Routable w pkt
    · have hno' : ∀ p ∈ pkts, Nowhere ((processTxPacket w nf pkt).final s).held p := fun p hp =>
        (hrouted.taken hroutable).nowhere p (hno p (List.mem_cons_of_mem pkt hp)) fun h =>
          hpkt (h ▸ hp)
      rw [final_txBatch_cons]
      split
      · rename_i hvalid
        have hbad' : ¬ ((processTxPacket w nf pkt).final s).Forwardable w pkts := fun h =>
          hbad (forwardable_cons.mpr
            ⟨hroutable, .inr hvalid, (forwardable_tail hroutable hpkt).mp h⟩)
        obtain ⟨q, hq, hlost⟩ := ih hnd hno' hbad'
        exact ⟨q, List.mem_cons_of_mem pkt hq, hlost⟩
      · -- The function returns here, and the packets behind stay in its hands.
        cases pkts with
        | nil => exact absurd (forwardable_cons.mpr ⟨hroutable, .inl rfl, by simp, by simp⟩) hbad
        | cons q pkts =>
          have hq : q ∈ q :: pkts := List.mem_cons_self
          exact ⟨q, List.mem_cons_of_mem pkt hq, hno' q hq⟩
    · have hlost := (hrouted.lost hroutable).nowhere pkt (hno pkt List.mem_cons_self)
      refine ⟨pkt, List.mem_cons_self, ?_⟩
      rw [final_txBatch_cons]
      split
      · exact txBatch_nowhere w nf hpkt hlost
      · exact hlost

/-- Distinct packets in the caller's hand. -/
structure Batch (s : Plane ι) where
  pkts : List Nat
  nodup : pkts.Nodup
  inHand : ∀ pkt ∈ pkts, Nowhere s.held pkt

/-- Each packet of the batch, and each that was somewhere before, is in exactly
one place afterwards. -/
def TxConserves (s : Plane ι) (w : ι) (nf : Nat) (batch : Batch s) : Prop :=
  ∀ pkt, pkt ∈ batch.pkts ∨ AtOne s.held pkt →
    AtOne ((onvmPktProcessTxBatch w nf batch.pkts).final s).held pkt

/-- **Packet conservation.** `onvm_pkt_process_tx_batch` conserves the packets
exactly when every packet of the batch can be routed and none but the last has
an invalid action. -/
theorem tx_batch_conserves_iff (s : Plane ι) (w : ι) (nf : Nat) (batch : Batch s) :
    TxConserves s w nf batch ↔ s.Forwardable w batch.pkts := by
  constructor
  · intro h
    by_contra hbad
    obtain ⟨q, hq, hlost⟩ := txBatch_lost w nf batch.nodup batch.inHand hbad
    exact (h q (.inl hq)).not_nowhere hlost
  · intro hok q hq
    exact txBatch_atOne w nf batch.nodup batch.inHand hok hq

/-- An NF returns two packets: the first with action 7, the second to be
dropped. -/
def strayAction : Plane Unit :=
  { Plane.fresh Tables.bootSingle fun _ => nfMgr with
    pktMeta := fun pkt => if pkt = 5 then { action := 7 } else { action := actionDrop } }

def strayBatch : Batch strayAction where
  pkts := [5, 6]
  nodup := by decide
  inHand pkt _ p := by
    rcases p with _ | ⟨w, i | port | _⟩ | name | port <;> exact List.not_mem_nil

/-- The second packet is neither freed nor anywhere else. -/
theorem stray_action_loses : ¬ TxConserves strayAction () 1 strayBatch := by
  intro h
  refine (h 6 (.inl (by decide))).not_nowhere fun p => ?_
  rcases p with _ | ⟨w, i | port | _⟩ | name | port
  · decide
  · exact List.not_mem_nil
  · exact List.not_mem_nil
  · exact List.not_mem_nil
  · exact List.not_mem_nil
  · exact List.not_mem_nil

end Onvm.Pkt

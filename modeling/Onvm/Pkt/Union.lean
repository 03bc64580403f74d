import Onvm.Pkt.Conserve

/-!
# The union in `queue_mgr`

An NF's manager holds `to_tx_buf` in the union, a TX thread's `tx_thread_info`,
and an RX thread's is NULL. Every access goes through the tag, except the one in
`onvm_pkt_enqueue_port`: an NF gets there with a packet that it returns with
`ONVM_NF_ACTION_NEXT` and whose chain says `ONVM_NF_ACTION_OUT`.
-/

namespace Onvm.Pkt

open Onvm.Lib Onvm.Nflib Onvm.Mgr

variable {ι : Type}

def Fault.isWild : Fault → Bool
  | .wild _ => true
  | .overrun _ => false

namespace Plane

/-- The accesses through a member that the union does not hold, or through
NULL. -/
def wilds (s : Plane ι) : List Fault := s.faults.filter Fault.isWild

/-- The view of `wilds`, if the buffers in `B` are there. -/
def tame (w : ι) (B : Buf → Prop) (s : Plane ι) (l : List Fault) : Prop :=
  (∀ b, B b → ((s.mgrs w).buf b).isSome) ∧ s.wilds = l

theorem wilds_wild (s : Plane ι) (b : Buf) : (s.fault (.wild b)).wilds = s.wilds ++ [.wild b] := by
  simp [wilds, fault, Fault.isWild]

theorem wilds_overrun (s : Plane ι) (b : Buf) : (s.fault (.overrun b)).wilds = s.wilds := by
  simp [wilds, fault, Fault.isWild]

/-- A packet for the port goes through a pointer that is not there. -/
def PortWild (s : Plane ι) (w : ι) (port : Nat) : Prop :=
  s.portInit port = true ∧ (s.mgrs w).buf (.port port) = none

/-- The packet takes `onvm_pkt_process_tx_batch` to such a port. -/
def PktWild (s : Plane ι) (w : ι) (pkt : Nat) : Prop :=
  let m := s.pktMeta pkt
  let e := (s.chainOf pkt).next m.chainIndex
  m.action = actionNext ∧ e.action = actionOut ∧ s.PortWild w e.destination ∨
    m.action = actionOut ∧ (s.mgrs w).mgrType = .mgr ∧ s.PortWild w m.destination

end Plane

/-- New wild accesses, exactly if `bad`. -/
def Grows (s s' : Plane ι) (bad : Prop) : Prop := ∃ l, s'.wilds = s.wilds ++ l ∧ (l = [] ↔ ¬ bad)

theorem Grows.same {s s' : Plane ι} {bad : Prop} (h : s'.wilds = s.wilds) (hb : ¬ bad) :
    Grows s s' bad :=
  ⟨[], by rw [h, List.append_nil], iff_of_true rfl hb⟩

theorem Grows.congr {s s' : Plane ι} {bad bad' : Prop} (h : Grows s s' bad) (hb : bad' ↔ bad) :
    Grows s s' bad' := by
  obtain ⟨l, hl, hiff⟩ := h
  exact ⟨l, hl, hiff.trans (not_congr hb.symm)⟩

theorem Grows.trans {s s' s'' : Plane ι} {bad bad' : Prop} (h : Grows s s' bad)
    (h' : Grows s' s'' bad') : Grows s s'' (bad ∨ bad') := by
  obtain ⟨l, hl, hiff⟩ := h
  obtain ⟨l', hl', hiff'⟩ := h'
  refine ⟨l ++ l', by rw [hl', hl, List.append_assoc], ?_⟩
  rw [List.append_eq_nil_iff, hiff, hiff', not_or]

/-- The count of wild accesses is the same afterwards exactly if there was none. -/
theorem Grows.iff {s s' : Plane ι} {bad : Prop} (h : Grows s s' bad) :
    s'.wilds = s.wilds ↔ ¬ bad := by
  obtain ⟨l, hl, hiff⟩ := h
  rw [← hiff, hl]
  simp

variable [DecidableEq ι]

omit [DecidableEq ι] in
theorem not_tame {w : ι} {B : Buf → Prop} {b : Buf} {s : Plane ι} (hb : B b)
    (h : (s.mgrs w).buf b = none) (l : List Fault) : ¬ Plane.tame w B s l := by
  intro ht
  have := ht.1 b hb
  rw [h] at this
  cases this

theorem ignores_tame (w : ι) (B : Buf → Prop) : Ignores (Plane.tame w B) w B where
  tally _ _ _ := rfl
  tallyPort _ _ _ := rfl
  free _ _ := rfl
  enqueueBulk s q pkts := by
    unfold Plane.enqueueBulk
    split <;> rfl
  txBurst _ _ _ := rfl
  setBuf s b pkts := by
    funext l
    unfold Plane.tame
    simp only [Plane.hasBuf_setBuf]
    rfl
  append s b pkt hb := by
    funext l
    unfold Plane.append
    split
    · rename_i hnone
      exact propext (iff_of_false (not_tame hb (s := s.fault _) hnone l) (not_tame hb hnone l))
    · rename_i pkts hsome
      unfold Plane.tame
      split
      · simp only [Plane.hasBuf_setBuf]
        rfl
      · rw [Plane.wilds_overrun]
        rfl
  deref s b hb := by
    split
    · rename_i hnone
      funext l
      exact propext (iff_of_false (not_tame hb (s := s.fault _) hnone l) (not_tame hb hnone l))
    · rfl

omit [DecidableEq ι] in
theorem wilds_of_keeps {w : ι} {B : Buf → Prop} {α : Type} {p : PktProg ι α} {s : Plane ι}
    (h : p.Keeps (Plane.tame w B)) (hb : ∀ b, B b → ((s.mgrs w).buf b).isSome) :
    (p.final s).wilds = s.wilds := by
  have hfinal := congrFun (h.final s) s.wilds
  exact (hfinal.mpr ⟨hb, rfl⟩).2

/-! ## The functions -/

theorem enqueueNf_wilds (w : ι) (serviceId pkt : Nat) (sourceNf : Option Nat) (s : Plane ι) :
    ((onvmPktEnqueueNf w serviceId pkt sourceNf).final s).wilds = s.wilds := by
  refine wilds_of_keeps (B := fun b => ∃ i, b = .nfRx i)
    ((ignores_tame w _).keeps_enqueueNf (fun i => ⟨i, rfl⟩) serviceId pkt sourceNf) ?_
  rintro b ⟨i, rfl⟩
  rfl

theorem enqueuePort_grows (w : ι) (port pkt : Nat) (s : Plane ι) :
    Grows s ((onvmPktEnqueuePort w port pkt).final s) (s.PortWild w port) := by
  by_cases hbuf : (s.mgrs w).buf (.port port) = none
  · by_cases hinit : s.portInit port = true
    · refine ⟨[.wild (.port port)], ?_, iff_of_false (by simp) (not_not.mpr ⟨hinit, hbuf⟩)⟩
      have happend : s.append w (.port port) pkt = s.fault (.wild (.port port)) := by
        simp [Plane.append, hbuf]
      have hcount : (s.fault (.wild (.port port))).count w (.port port) = 0 := by
        simp [Plane.count, Plane.fault, hbuf]
      have h : (onvmPktEnqueuePort w port pkt).final s = s.fault (.wild (.port port)) := by
        simp [onvmPktEnqueuePort, appendOrFlush, Prog.bind_eq, Prog.pure_eq, hinit, happend, hcount,
          packetReadSize]
      rw [h, Plane.wilds_wild]
    · have h : (onvmPktEnqueuePort w port pkt).final s = s := by
        simp [onvmPktEnqueuePort, Prog.bind_eq, Prog.pure_eq, hinit]
      rw [h]
      exact .same rfl fun hw => hinit hw.1
  · refine .same ?_ fun hw => hbuf hw.2
    have hignores := ignores_tame w fun b => b = .port port
    have hkeeps : (onvmPktEnqueuePort w port pkt).Keeps _ := hignores.keeps_enqueuePort rfl pkt
    refine wilds_of_keeps hkeeps ?_
    rintro b rfl
    exact Option.isSome_iff_ne_none.mpr hbuf

theorem sendOut_grows (w : ι) (nf pkt : Nat) (s : Plane ι) :
    Grows s ((sendOut w nf pkt).final s)
      ((s.mgrs w).mgrType = .mgr ∧ s.PortWild w (s.pktMeta pkt).destination) := by
  by_cases hmgr : (s.mgrs w).mgrType = .mgr
  · have h : (sendOut w nf pkt).final s =
        (onvmPktEnqueuePort w (s.pktMeta pkt).destination pkt).final s := by
      simp [sendOut, Prog.bind_eq, hmgr]
    rw [h]
    exact (enqueuePort_grows w _ pkt s).congr (and_iff_right hmgr)
  · have h : (sendOut w nf pkt).final s =
        (appendOrFlush w .toTx pkt (onvmPktEnqueueTxThread w nf)).final
          (s.tally nf fun st => { st with actOut := st.actOut + 1 }) := by
      simp [sendOut, Prog.bind_eq, hmgr, tally]
    rw [h]
    refine .same ?_ fun hw => hmgr hw.1
    have hignores := ignores_tame w fun b => b = .toTx
    refine wilds_of_keeps (s := s.tally nf fun st => { st with actOut := st.actOut + 1 })
      (hignores.keeps_appendOrFlush rfl pkt (hignores.keeps_enqueueTxThread rfl nf)) ?_
    rintro b rfl
    exact toTx_of_mgrType (q := s.mgrs w) hmgr

theorem routeNext_grows (w : ι) (pkt nf : Nat) (s : Plane ι) :
    Grows s ((routeNext w pkt nf (s.pktMeta pkt).action).final s)
      ((s.pktMeta pkt).action = actionOut ∧ s.PortWild w (s.pktMeta pkt).destination) := by
  unfold routeNext
  by_cases hdrop : (s.pktMeta pkt).action = actionDrop
  · rw [if_pos hdrop]
    refine .same rfl fun hw => ?_
    rw [hdrop] at hw
    exact absurd hw.1 (by decide)
  rw [if_neg hdrop]
  by_cases htonf : (s.pktMeta pkt).action = actionTonf
  · rw [if_pos htonf]
    refine .same ?_ fun hw => ?_
    · exact enqueueNf_wilds w _ pkt (some nf) (s.tally nf fun st =>
        { st with actTonf := st.actTonf + 1 })
    · rw [htonf] at hw
      exact absurd hw.1 (by decide)
  rw [if_neg htonf]
  by_cases hout : (s.pktMeta pkt).action = actionOut
  · rw [if_pos hout]
    have h : Grows s _ (s.PortWild w (s.pktMeta pkt).destination) :=
      enqueuePort_grows w (s.pktMeta pkt).destination pkt
        (s.tally nf fun st => { st with actOut := st.actOut + 1 })
    exact h.congr (and_iff_right hout)
  · rw [if_neg hout]
    exact .same rfl fun hw => hout hw.1

theorem processNextAction_grows (w : ι) (pkt nf : Nat) (s : Plane ι) :
    let e := (s.chainOf pkt).next (s.pktMeta pkt).chainIndex
    Grows s ((onvmPktProcessNextAction w pkt nf).final s)
      (e.action = actionOut ∧ s.PortWild w e.destination) := by
  intro e
  have h := routeNext_grows w pkt nf ((setNext pkt (s.chainOf pkt)).final s)
  rw [setNext_pktMeta] at h
  unfold onvmPktProcessNextAction
  simp only [Prog.bind_eq, Prog.final_bind, Prog.run_read, Prog.final_read, setNext_pktMeta]
  exact h

theorem processTxPacket_grows (w : ι) (nf pkt : Nat) (s : Plane ι) :
    Grows s ((processTxPacket w nf pkt).final s) (s.PktWild w pkt) := by
  let s₁ := s.stamp nf pkt
  have hmeta : s₁.pktMeta pkt = _ := stamp_pktMeta s nf pkt
  have hrun : (processTxPacket w nf pkt).final s =
      (routeTx w nf pkt (s.pktMeta pkt).action).final s₁ :=
    congrArg Prod.snd (processTxPacket_run w nf pkt s)
  rw [hrun]
  unfold routeTx
  by_cases hdrop : (s.pktMeta pkt).action = actionDrop
  · rw [if_pos hdrop]
    refine .same rfl fun hw => ?_
    unfold Plane.PktWild at hw
    simp [hdrop, actionDrop, actionNext, actionOut] at hw
  rw [if_neg hdrop]
  by_cases hnext : (s.pktMeta pkt).action = actionNext
  · rw [if_pos hnext]
    have h := processNextAction_grows w pkt nf
      (s₁.tally nf fun st => { st with actNext := st.actNext + 1 })
    simp only [Prog.bind_eq, Prog.final_bind, Prog.pure_eq, Prog.final_ret, tally,
      Prog.final_write]
    refine Grows.congr (s := s) h ?_
    unfold Plane.PktWild
    have hm : ((s₁.tally nf fun st => { st with actNext := st.actNext + 1 }).pktMeta pkt) =
      s₁.pktMeta pkt := rfl
    rw [hm, hmeta]
    simp [hnext, actionNext, actionOut]
    rfl
  rw [if_neg hnext]
  by_cases htonf : (s.pktMeta pkt).action = actionTonf
  · rw [if_pos htonf]
    simp only [Prog.bind_eq, Prog.final_bind, Prog.pure_eq, Prog.final_ret]
    refine .same ?_ fun hw => ?_
    · exact enqueueNf_wilds w _ pkt (some nf) (s₁.tally nf fun st =>
        { st with actTonf := st.actTonf + 1 })
    · unfold Plane.PktWild at hw
      simp [htonf, actionTonf, actionNext, actionOut] at hw
  rw [if_neg htonf]
  by_cases hout : (s.pktMeta pkt).action = actionOut
  · rw [if_pos hout]
    simp only [Prog.bind_eq, Prog.final_bind, Prog.pure_eq, Prog.final_ret]
    refine Grows.congr (s := s) (sendOut_grows w nf pkt s₁) ?_
    unfold Plane.PktWild
    rw [hmeta]
    simp [hout, actionNext, actionOut]
    rfl
  · rw [if_neg hout]
    refine .same rfl fun hw => ?_
    rcases hw with hw | hw
    · exact hnext hw.1
    · exact hout hw.1

/-! ## Calls -/

/-- A packet of the batch that the loop reaches: those before it have valid
actions. -/
def Plane.Reaches (s : Plane ι) (pkts : List Nat) (pkt : Nat) : Prop :=
  ∃ l l', pkts = l ++ pkt :: l' ∧ ∀ q ∈ l, s.ValidAction q

omit [DecidableEq ι] in
theorem reaches_cons {s : Plane ι} {pkt q : Nat} {pkts : List Nat} :
    s.Reaches (pkt :: pkts) q ↔ q = pkt ∨ s.ValidAction pkt ∧ s.Reaches pkts q := by
  constructor
  · rintro ⟨l, l', heq, hvalid⟩
    cases l with
    | nil =>
      obtain ⟨rfl, -⟩ := List.cons.inj heq
      exact .inl rfl
    | cons p l =>
      obtain ⟨hpp, htl⟩ := List.cons.inj heq
      subst hpp
      obtain ⟨hp, hvalid⟩ := List.forall_mem_cons.mp hvalid
      exact .inr ⟨hp, l, l', htl, hvalid⟩
  · rintro (rfl | ⟨hp, l, l', rfl, hvalid⟩)
    · exact ⟨[], pkts, rfl, by simp⟩
    · exact ⟨pkt :: l, l', rfl, List.forall_mem_cons.mpr ⟨hp, hvalid⟩⟩

omit [DecidableEq ι] in
theorem pktWild_congr {s s' : Plane ι} {w : ι} {pkt : Nat} (hw : s'.world = s.world)
    (hm : s'.pktMeta pkt = s.pktMeta pkt) : s'.PktWild w pkt ↔ s.PktWild w pkt := by
  have hport : ∀ port, s'.PortWild w port ↔ s.PortWild w port := by
    intro port
    have hbuf : ((s'.mgrs w).buf (.port port)).isSome = ((s.mgrs w).buf (.port port)).isSome :=
      congrFun (congrFun (congrArg World.hasBuf hw) w) _
    have hinit : s'.portInit = s.portInit := congrArg World.portInit hw
    unfold Plane.PortWild
    rw [hinit, ← Option.isNone_iff_eq_none, ← Option.isNone_iff_eq_none, ← Option.not_isSome,
      ← Option.not_isSome, hbuf]
  have hchain : s'.chainOf pkt = s.chainOf pkt :=
    congrArg (fun v : World ι => (v.flow pkt).getD v.defaultChain) hw
  have htype : (s'.mgrs w).mgrType = (s.mgrs w).mgrType := congrFun (congrArg World.mgrType hw) w
  unfold Plane.PktWild
  simp only [hm, hchain, htype, hport]

theorem txBatch_grows (w : ι) (nf : Nat) {pkts : List Nat} (hnd : pkts.Nodup) (s : Plane ι) :
    Grows s ((onvmPktProcessTxBatch w nf pkts).final s)
      (∃ pkt, s.Reaches pkts pkt ∧ s.PktWild w pkt) := by
  induction pkts generalizing s with
  | nil =>
    refine .same rfl ?_
    rintro ⟨pkt, ⟨l, l', heq, -⟩, -⟩
    cases l <;> cases heq
  | cons pkt pkts ih =>
    obtain ⟨hpkt, hnd⟩ := List.nodup_cons.mp hnd
    obtain ⟨-, -, hworld, hmeta⟩ := processTxPacket_spec w nf pkt s
    have hhead := processTxPacket_grows w nf pkt s
    have htail := ih hnd ((processTxPacket w nf pkt).final s)
    have hrest : (∃ q, ((processTxPacket w nf pkt).final s).Reaches pkts q ∧
        ((processTxPacket w nf pkt).final s).PktWild w q) ↔
          ∃ q, s.Reaches pkts q ∧ s.PktWild w q := by
      refine exists_congr fun q => ?_
      have hm : ∀ p ∈ pkts, ((processTxPacket w nf pkt).final s).pktMeta p = s.pktMeta p :=
        fun p hp => hmeta p fun h => hpkt (h ▸ hp)
      constructor
      · rintro ⟨⟨l, l', rfl, hv⟩, hq⟩
        refine ⟨⟨l, l', rfl, fun p hp => ?_⟩, (pktWild_congr hworld (hm q (by simp))).mp hq⟩
        have := hv p hp
        rwa [Plane.ValidAction, hm p (by simp [hp])] at this
      · rintro ⟨⟨l, l', rfl, hv⟩, hq⟩
        refine ⟨⟨l, l', rfl, fun p hp => ?_⟩, (pktWild_congr hworld (hm q (by simp))).mpr hq⟩
        rw [Plane.ValidAction, hm p (by simp [hp])]
        exact hv p hp
    rw [final_txBatch_cons]
    split
    · rename_i hvalid
      refine (hhead.trans htail).congr ?_
      rw [hrest]
      simp only [reaches_cons, hvalid, true_and]
      simp [or_and_right, exists_or]
    · rename_i hinvalid
      refine hhead.congr ?_
      simp [reaches_cons, hinvalid]

inductive Role where
  | nf
  | tx
  | rx
  deriving DecidableEq, Repr

def QueueMgr.role (q : QueueMgr) : Role :=
  match q.member with
  | .toTxBuf _ => .nf
  | .txThreadInfo (some _) => .tx
  | .txThreadInfo none => .rx

/-- The calls that `onvm_nflib_thread_main_loop`, `tx_thread_main` and
`rx_thread_main` make. The packets of a batch are distinct. -/
def Role.Makes : Role → Call → Prop
  | .nf, .txBatch _ pkts | .tx, .txBatch _ pkts | .rx, .rxBatch pkts => pkts.Nodup
  | .nf, .enqueueTxThread _ | .nf, .flushAllNfs _ | .tx, .flushAllPorts | .tx, .flushAllNfs _ => True
  | _, _ => False

/-- The call makes no access through a member that the union does not hold or
through a NULL `tx_thread_info`. -/
def UnionRespected (s : Plane ι) (w : ι) (c : Call) : Prop :=
  ((c.body w).final s).wilds = s.wilds

/-- The NF returns the packet with `ONVM_NF_ACTION_NEXT`, its chain says
`ONVM_NF_ACTION_OUT` and the port is initialised. -/
def Plane.NextOut (s : Plane ι) (pkt : Nat) : Prop :=
  let e := (s.chainOf pkt).next (s.pktMeta pkt).chainIndex
  (s.pktMeta pkt).action = actionNext ∧ e.action = actionOut ∧ s.portInit e.destination = true

omit [DecidableEq ι] in
theorem pktWild_nf {s : Plane ι} {w : ι} (h : (s.mgrs w).role = .nf) (pkt : Nat) :
    s.PktWild w pkt ↔ s.NextOut pkt := by
  have hmember : ∃ buf, (s.mgrs w).member = .toTxBuf buf := by
    unfold QueueMgr.role at h
    split at h
    · rename_i buf hm
      exact ⟨buf, hm⟩
    · cases h
    · cases h
  obtain ⟨buf, hm⟩ := hmember
  unfold Plane.PktWild Plane.NextOut Plane.PortWild QueueMgr.mgrType QueueMgr.buf
  simp [hm]

omit [DecidableEq ι] in
theorem hasPort_of_tx {s : Plane ι} {w : ι} (h : (s.mgrs w).role = .tx) (port : Nat) :
    ((s.mgrs w).buf (.port port)).isSome := by
  unfold QueueMgr.role at h
  unfold QueueMgr.buf
  split at h
  · cases h
  · rename_i bufs hm
    simp [hm]
  · cases h

omit [DecidableEq ι] in
theorem not_pktWild_tx {s : Plane ι} {w : ι} (h : (s.mgrs w).role = .tx) (pkt : Nat) :
    ¬ s.PktWild w pkt := by
  have hno : ∀ port, ¬ s.PortWild w port := fun port hw => by
    have := hasPort_of_tx h port
    rw [hw.2] at this
    cases this
  rintro (⟨-, -, hw⟩ | ⟨-, -, hw⟩)
  · exact hno _ hw
  · exact hno _ hw

omit [DecidableEq ι] in
theorem hasToTx_of_nf {s : Plane ι} {w : ι} (h : (s.mgrs w).role = .nf) :
    ((s.mgrs w).buf .toTx).isSome := by
  unfold QueueMgr.role at h
  unfold QueueMgr.buf
  split at h
  · rename_i buf hm
    simp [hm]
  · cases h
  · cases h

theorem flushAllNfs_wilds (w : ι) (sourceNf : Option Nat) (s : Plane ι) :
    ((onvmPktFlushAllNfs w sourceNf).final s).wilds = s.wilds :=
  wilds_of_keeps (B := fun _ => False) ((ignores_tame w _).keeps_flushAllNfs sourceNf) (by simp)

theorem rxBatch_wilds (w : ι) (pkts : List Nat) (s : Plane ι) :
    ((onvmPktProcessRxBatch w pkts).final s).wilds = s.wilds := by
  have hignores := ignores_tame w fun b => ∃ i, b = .nfRx i
  have hpkt : ∀ pkt, (processRxPacket w pkt).Keeps (Plane.tame w fun b => ∃ i, b = .nfRx i) :=
    fun _ => IgnoresPkt.keeps_processRxPacket
      { hignores with setMeta := fun _ _ => rfl, decisions := fun _ _ => rfl } fun i => ⟨i, rfl⟩
  refine wilds_of_keeps ((Prog.Keeps.each hpkt pkts).bind fun _ =>
    hignores.keeps_flushAllNfs none) ?_
  rintro b ⟨i, rfl⟩
  rfl

/-- **Union discipline.** A call that the program makes on one of its queue
managers respects the union exactly when it is not a batch of an NF with a
packet that the loop reaches and whose `ONVM_NF_ACTION_NEXT` resolves to
`ONVM_NF_ACTION_OUT` on an initialised port. -/
theorem union_discipline_iff (s : Plane ι) (w : ι) (c : Call) (hc : (s.mgrs w).role.Makes c) :
    UnionRespected s w c ↔ ∀ nf pkts, c = .txBatch nf pkts → (s.mgrs w).role = .nf →
      ∀ pkt, s.Reaches pkts pkt → ¬ s.NextOut pkt := by
  unfold UnionRespected
  cases c with
  | rxBatch pkts =>
    exact iff_of_true (rxBatch_wilds w pkts s) fun _ _ h => by cases h
  | flushAllNfs sourceNf =>
    exact iff_of_true (flushAllNfs_wilds w sourceNf s) fun _ _ h => by cases h
  | txBatch nf pkts =>
    cases hrole : (s.mgrs w).role with
    | rx =>
      rw [hrole] at hc
      exact hc.elim
    | nf =>
      rw [hrole] at hc
      refine (txBatch_grows w nf hc s).iff.trans ?_
      simp only [pktWild_nf hrole, not_exists, not_and]
      constructor
      · rintro h _ _ ⟨⟩ - pkt hr
        exact h pkt hr
      · exact fun h => h nf pkts rfl trivial
    | tx =>
      rw [hrole] at hc
      refine (txBatch_grows w nf hc s).iff.trans (iff_of_true ?_ ?_)
      · rintro ⟨pkt, -, hw⟩
        exact not_pktWild_tx hrole pkt hw
      · rintro _ _ _ ⟨⟩
  | flushAllPorts =>
    cases hrole : (s.mgrs w).role with
    | nf | rx =>
      rw [hrole] at hc
      exact hc.elim
    | tx =>
      have hignores := ignores_tame w fun b => ∃ port, b = .port port
      refine iff_of_true (wilds_of_keeps ((Prog.keeps_read _ _).bind fun ids =>
        Prog.Keeps.each (fun port => hignores.keeps_flushPortQueue ⟨port, rfl⟩) ids) ?_)
        fun _ _ h => by cases h
      rintro b ⟨port, rfl⟩
      exact hasPort_of_tx hrole port
  | enqueueTxThread nf =>
    cases hrole : (s.mgrs w).role with
    | tx | rx =>
      rw [hrole] at hc
      exact hc.elim
    | nf =>
      have hignores := ignores_tame w fun b => b = .toTx
      refine iff_of_true (wilds_of_keeps (hignores.keeps_enqueueTxThread rfl nf) ?_)
        fun _ _ h => by cases h
      rintro b rfl
      exact hasToTx_of_nf hrole
  | enqueueNf | flushNfQueue | flushPortQueue =>
    cases hrole : (s.mgrs w).role <;> rw [hrole] at hc <;> exact hc.elim

/-- An NF whose packets all have `ONVM_NF_ACTION_NEXT`, and one initialised
port. -/
def allNext : Plane Unit :=
  { Plane.fresh Tables.bootSingle fun _ => nfMgr with
    pktMeta := fun _ => { action := actionNext }
    portInit := fun port => port == 0 }

/-- The default chain sends the packet to an NF. -/
theorem union_discipline_allNext : UnionRespected allNext () (.txBatch 1 [5]) := by
  refine (union_discipline_iff allNext () (.txBatch 1 [5]) (List.nodup_singleton 5)).mpr ?_
  rintro nf pkts - - pkt - ⟨-, hout, -⟩
  exact absurd hout (by decide : actionTonf ≠ actionOut)

/-- The flow table has a chain that sends it out of port 0. -/
theorem next_out_on_nf : ¬ UnionRespected
    { allNext with flow := fun _ => some ⟨fun _ => ⟨actionOut, 0⟩, 1⟩ } () (.txBatch 1 [5]) := by
  unfold UnionRespected
  decide

end Onvm.Pkt

import Onvm.Pkt.Union

/-!
# One chain entry, two readings

A chain entry is followed in two places. `onvm_pkt_process_next_action` looks at
its action; `onvm_pkt_process_rx_batch` does not, and enqueues every packet from
the NIC for the service `destination`. The effect of a call is where the packets
are afterwards and which memory errors it made.
-/

namespace Onvm.Pkt

open Onvm.Lib Onvm.Nflib Onvm.Mgr

variable {ι : Type}

namespace Plane

/-- What a call does to the packets, without the counters and the metadata. -/
def outcome (s : Plane ι) : (Place ι → List Nat) × List Fault := (s.held, s.faults)

variable [DecidableEq ι]

def afterFree (s : Plane ι) (pkt : Nat) : (Place ι → List Nat) × List Fault :=
  (Function.update s.held .freed (s.freed ++ [pkt]), s.faults)

/-- The packet is appended to the buffer of NF `nfId`, which is flushed if that
filled it. -/
def afterAppend (s : Plane ι) (w : ι) (nfId pkt : Nat) : (Place ι → List Nat) × List Fault :=
  let s := s.append w (.nfRx nfId) pkt
  let pkts := (s.mgrs w).nfRxBufs nfId
  if s.count w (.nfRx nfId) = packetReadSize then
    let p := s.deposit (s.tables.nfs nfId).rxQ pkts
    (Function.update (Function.update s.held (.buf w (.nfRx nfId)) []) p (s.held p ++ pkts),
      s.faults)
  else s.outcome

def afterEnqueueNf (s : Plane ι) (w : ι) (serviceId pkt : Nat) :
    (Place ι → List Nat) × List Fault :=
  if s.Unserved serviceId pkt then s.afterFree pkt
  else s.afterAppend w (s.instanceFor serviceId pkt) pkt

end Plane

variable [DecidableEq ι]

theorem flushNfQueue_faults (w : ι) (nfId : Nat) (sourceNf : Option Nat) (s : Plane ι) :
    ((onvmPktFlushNfQueue w nfId sourceNf).final s).faults = s.faults := by
  have hignores : Ignores Plane.faults w (ι := ι) fun _ => False :=
    { tally := fun _ _ _ => rfl
      tallyPort := fun _ _ _ => rfl
      free := fun _ _ => rfl
      enqueueBulk := fun s q pkts => by
        unfold Plane.enqueueBulk
        split <;> rfl
      txBurst := fun _ _ _ => rfl
      setBuf := fun _ _ _ => rfl
      append := fun _ _ _ h => h.elim
      deref := fun _ _ h => h.elim }
  exact (hignores.keeps_flushNfQueue nfId sourceNf).final s

theorem enqueueNf_outcome (w : ι) (serviceId pkt : Nat) (sourceNf : Option Nat) (s : Plane ι) :
    ((onvmPktEnqueueNf w serviceId pkt sourceNf).final s).outcome =
      s.afterEnqueueNf w serviceId pkt := by
  unfold Plane.afterEnqueueNf
  by_cases hun : s.Unserved serviceId pkt
  · rw [if_pos hun, enqueueNf_unserved w sourceNf hun]
    obtain ⟨hcore, hfreed⟩ := refuse_final pkt sourceNf s
    have hfaults : ((refuse pkt sourceNf).final s).core.faults = s.core.faults :=
      congrArg Plane.faults hcore
    unfold Plane.outcome Plane.afterFree
    rw [held_of_core hcore, hfreed]
    exact Prod.ext rfl hfaults
  · rw [if_neg hun, enqueueNf_served w sourceNf hun]
    obtain ⟨hzero, hvalid⟩ := not_or.mp hun
    generalize s.instanceFor serviceId pkt = i at hzero hvalid ⊢
    rw [appendOrFlush_final]
    unfold Plane.afterAppend
    have hvalid' : onvmNfIsValid ((s.append w (.nfRx i) pkt).tables.nfs i) = true := by
      have hnfs : (s.append w (.nfRx i) pkt).tables.nfs = s.tables.nfs :=
        congrArg World.nfs ((ignores_world w).append s _ pkt trivial)
      simpa [hnfs] using hvalid
    generalize s.append w (.nfRx i) pkt = t at hvalid' ⊢
    by_cases hcount : t.count w (.nfRx i) = packetReadSize
    · have hne : (t.mgrs w).nfRxBufs i ≠ [] := by
        intro hnil
        rw [Plane.count, QueueMgr.buf, hnil] at hcount
        exact absurd hcount (by decide)
      simp only [if_pos hcount]
      exact Prod.ext (flushNfQueue_held w sourceNf hne hvalid') (flushNfQueue_faults w i sourceNf t)
    · simp only [if_neg hcount]
      rfl

/-! ## How the outcomes differ -/

/-- The packet overruns the buffer of the NF, or the buffer changes. -/
theorem afterAppend_deviates (s : Plane ι) (w : ι) (nfId pkt : Nat) :
    (s.afterAppend w nfId pkt).2 = s.faults ++ [.overrun (.nfRx nfId)] ∨
      (s.afterAppend w nfId pkt).2 = s.faults ∧
        (s.afterAppend w nfId pkt).1 (.buf w (.nfRx nfId)) ≠ s.held (.buf w (.nfRx nfId)) := by
  by_cases hroom : s.HasRoom w (.nfRx nfId)
  · right
    have hheld := held_append hroom pkt
    have hlen := hroom.2
    have happend : s.append w (.nfRx nfId) pkt =
        s.setBuf w (.nfRx nfId) ((s.mgrs w).nfRxBufs nfId ++ [pkt]) := by
      unfold Plane.append
      exact if_pos hlen
    have hfaults : (s.append w (.nfRx nfId) pkt).faults = s.faults := by
      rw [happend]
      rfl
    unfold Plane.afterAppend
    by_cases hcount : (s.append w (.nfRx nfId) pkt).count w (.nfRx nfId) = packetReadSize
    · rw [if_pos hcount]
      refine ⟨hfaults, ?_⟩
      dsimp only
      rw [Function.update_of_ne (deposit_ne_buf _ _ _ _ _), Function.update_self]
      -- It was filled by this packet, so it was not empty before.
      intro hnil
      have hzero : s.count w (.nfRx nfId) = 0 := congrArg List.length hnil.symm
      rw [count_append hroom, hzero] at hcount
      exact absurd hcount (by decide)
    · rw [if_neg hcount]
      refine ⟨hfaults, ?_⟩
      show (s.append w (.nfRx nfId) pkt).held (.buf w (.nfRx nfId)) ≠ _
      rw [hheld, Function.update_self]
      simp
  · left
    have hfull : ¬ ((s.mgrs w).nfRxBufs nfId).length < packetReadSize := fun h => hroom ⟨rfl, h⟩
    have happend : s.append w (.nfRx nfId) pkt = s.fault (.overrun (.nfRx nfId)) := by
      unfold Plane.append
      exact if_neg hfull
    unfold Plane.afterAppend
    rw [happend]
    dsimp only
    split <;> rfl

theorem flushPortQueue_faults (w : ι) {port : Nat} {s : Plane ι}
    (h : ((s.mgrs w).buf (.port port)).isSome) :
    ((onvmPktFlushPortQueue w port).final s).faults = s.faults := by
  obtain ⟨pkts, hbuf⟩ := Option.isSome_iff_exists.mp h
  by_cases hne : pkts = []
  · have hmgr := mgrType_of_port h
    have hfinal : (onvmPktFlushPortQueue w port).final s = s := by
      simp [onvmPktFlushPortQueue, Prog.bind_eq, Prog.pure_eq, hmgr, deref, hbuf, hne]
    rw [hfinal]
  · rw [flushPortQueue_final w hbuf hne]
    obtain ⟨hcore, -⟩ := dropUnsent_final port pkts (s.sends pkts) (s.txBurst port pkts)
    have hfaults : _ = (s.txBurst port pkts).core.faults := congrArg Plane.faults hcore
    exact hfaults

/-- A port makes a fault, takes nothing, or its buffer changes; the buffers of
the NFs stay. -/
theorem enqueuePort_deviates (s : Plane ι) (w : ι) (port pkt : Nat) :
    let o := ((onvmPktEnqueuePort w port pkt).final s).outcome
    o.2 = s.faults ++ [.wild (.port port)] ∨ o.2 = s.faults ++ [.overrun (.port port)] ∨
      o.2 = s.faults ∧ (∀ i, o.1 (.buf w (.nfRx i)) = s.held (.buf w (.nfRx i))) ∧
        (o.1 = s.held ∨ o.1 (.buf w (.port port)) ≠ s.held (.buf w (.port port))) := by
  by_cases hinit : s.portInit port = false
  · have h : (onvmPktEnqueuePort w port pkt).final s = s := by
      simp [onvmPktEnqueuePort, Prog.bind_eq, Prog.pure_eq, hinit]
    rw [h]
    exact .inr (.inr ⟨rfl, fun _ => rfl, .inl rfl⟩)
  have h : (onvmPktEnqueuePort w port pkt).final s =
      (if (s.append w (.port port) pkt).count w (.port port) = packetReadSize then
        onvmPktFlushPortQueue w port else pure ()).final (s.append w (.port port) pkt) := by
    simp [onvmPktEnqueuePort, appendOrFlush, Prog.bind_eq, hinit]
    rfl
  rw [h]
  cases hbuf : (s.mgrs w).buf (.port port) with
  | none =>
    left
    have happend : s.append w (.port port) pkt = s.fault (.wild (.port port)) := by
      simp [Plane.append, hbuf]
    have hcount : (s.fault (.wild (.port port))).count w (.port port) ≠ packetReadSize := by
      simp [Plane.count, Plane.fault, hbuf, packetReadSize]
    rw [happend, if_neg hcount]
    rfl
  | some pkts =>
    right
    have hsome : (((s.append w (.port port) pkt).mgrs w).buf (.port port)).isSome := by
      have hw := congrArg World.hasBuf ((ignores_world w).append s (.port port) pkt trivial)
      have := congrFun (congrFun hw w) (.port port)
      exact this.trans (by simp [Plane.world, hbuf])
    have hflushed : ∀ t : Plane ι, ((t.mgrs w).buf (.port port)).isSome →
        ((if t.count w (.port port) = packetReadSize then onvmPktFlushPortQueue w port
          else pure ()).final t).faults = t.faults := by
      intro t ht
      split
      · exact flushPortQueue_faults w ht
      · rfl
    by_cases hroom : s.HasRoom w (.port port)
    · right
      have hlt : pkts.length < packetReadSize := by simpa [Plane.count, hbuf] using hroom.2
      have hheld := held_append hroom pkt
      have hfaults : (s.append w (.port port) pkt).faults = s.faults := by
        simp [Plane.append, hbuf, hlt, Plane.setBuf]
      refine ⟨(hflushed _ hsome).trans hfaults, fun i => ?_, .inr ?_⟩
      · split
        · refine ((flushPortQueue_flushed w port _).other w (.nfRx i) (by simp)).trans ?_
          rw [hheld, Function.update_of_ne (by simp)]
        · show (s.append w (.port port) pkt).held (.buf w (.nfRx i)) = _
          rw [hheld, Function.update_of_ne (by simp)]
      · split
        · rename_i hcount
          refine ne_of_eq_of_ne (flushPortQueue_empties w hsome) fun hnil => ?_
          have hzero : s.count w (.port port) = 0 := congrArg List.length hnil.symm
          rw [count_append hroom, hzero] at hcount
          exact absurd hcount (by decide)
        · show (s.append w (.port port) pkt).held (.buf w (.port port)) ≠ _
          rw [hheld, Function.update_self]
          simp
    · left
      have hfull : ¬ pkts.length < packetReadSize := fun hlt =>
        hroom ⟨by simp [hbuf], by simpa [Plane.count, hbuf] using hlt⟩
      have hfaults : (s.append w (.port port) pkt).faults =
          s.faults ++ [.overrun (.port port)] := by
        simp [Plane.append, hbuf, hfull, Plane.fault]
      exact (hflushed _ hsome).trans hfaults

/-! ## The two paths -/

def Plane.firstEntry (s : Plane ι) (pkt : Nat) : ChainEntry := (s.chainOf pkt).next 0

/-! Counters and metadata make no difference. -/

theorem afterAppend_same (s : Plane ι) (pktMeta : Nat → OnvmPktMeta) (stats : Nat → NfStats)
    (decisions : Nat → List ChainEntry) (w : ι) (nfId pkt : Nat) :
    Plane.afterAppend { s with pktMeta := pktMeta, stats := stats, decisions := decisions } w
      nfId pkt = s.afterAppend w nfId pkt := by
  have happend : ∀ t : Plane ι, t.append w (.nfRx nfId) pkt =
      if ((t.mgrs w).nfRxBufs nfId).length < packetReadSize then
        t.setBuf w (.nfRx nfId) ((t.mgrs w).nfRxBufs nfId ++ [pkt])
      else t.fault (.overrun (.nfRx nfId)) :=
    fun _ => rfl
  unfold Plane.afterAppend
  simp only [happend]
  by_cases h : ((s.mgrs w).nfRxBufs nfId).length < packetReadSize
  · simp only [if_pos h]
    rfl
  · simp only [if_neg h]
    rfl

theorem afterEnqueueNf_same (s : Plane ι) (pktMeta : Nat → OnvmPktMeta) (stats : Nat → NfStats)
    (decisions : Nat → List ChainEntry) (w : ι) (serviceId pkt : Nat) :
    Plane.afterEnqueueNf { s with pktMeta := pktMeta, stats := stats, decisions := decisions } w
      serviceId pkt = s.afterEnqueueNf w serviceId pkt := by
  unfold Plane.afterEnqueueNf
  rw [afterAppend_same]
  rfl

theorem processRxPacket_outcome (w : ι) (pkt : Nat) (s : Plane ι) :
    ((processRxPacket w pkt).final s).outcome =
      s.afterEnqueueNf w (s.firstEntry pkt).destination pkt := by
  let s₁ := (setNext pkt (s.chainOf pkt)).final ((s.setMeta pkt fun m =>
    { m with src := 0 }).setMeta pkt fun m => { m with chainIndex := 0 })
  let s₂ := s₁.setMeta pkt fun m => { m with chainIndex := inc8 m.chainIndex }
  have hfinal : (processRxPacket w pkt).final s =
      (onvmPktEnqueueNf w (s₂.pktMeta pkt).destination pkt none).final s₂ := rfl
  have hdest : (s₂.pktMeta pkt).destination = (s.firstEntry pkt).destination := by
    have h := setNext_pktMeta pkt (s.chainOf pkt) ((s.setMeta pkt fun m =>
      { m with src := 0 }).setMeta pkt fun m => { m with chainIndex := 0 })
    have hs₂ : (s₂.pktMeta pkt).destination = (s₁.pktMeta pkt).destination := by
      simp [s₂, Plane.setMeta]
    rw [hs₂, h]
    simp [Plane.setMeta, Plane.firstEntry]
  rw [hfinal, enqueueNf_outcome, hdest]
  exact afterEnqueueNf_same s _ _ _ w _ pkt

/-- The packet as the RX path has it when it looks at the chain: from no NF, at
the start of the chain. -/
def Plane.atStart (s : Plane ι) (pkt : Nat) : Plane ι :=
  s.setMeta pkt fun m => { m with src := 0, chainIndex := 0 }

/-- The outcome of `onvm_pkt_process_next_action`, by the action of the entry. -/
theorem nextAction_outcome (w : ι) (pkt nf : Nat) (s : Plane ι) :
    let e := s.firstEntry pkt
    let o := ((onvmPktProcessNextAction w pkt nf).final (s.atStart pkt)).outcome
    (e.action = actionDrop → o = s.afterFree pkt) ∧
      (e.action = actionTonf → o = s.afterEnqueueNf w e.destination pkt) ∧
      (e.action = actionOut → ∃ t : Plane ι, t.outcome = s.outcome ∧
        o = ((onvmPktEnqueuePort w e.destination pkt).final t).outcome) ∧
      (e.action ≠ actionDrop → e.action ≠ actionTonf → e.action ≠ actionOut → o = s.outcome) := by
  intro e o
  let t := (setNext pkt (s.chainOf pkt)).final (s.atStart pkt)
  have hmeta : t.pktMeta pkt =
      { action := e.action, destination := e.destination, src := 0, chainIndex := 0 } := by
    have h := setNext_pktMeta pkt (s.chainOf pkt) (s.atStart pkt)
    have hstart : (s.atStart pkt).pktMeta pkt =
        { s.pktMeta pkt with src := 0, chainIndex := 0 } := by
      simp [Plane.atStart, Plane.setMeta]
    rw [hstart] at h
    exact h
  have ho : o = ((routeNext w pkt nf e.action).final t).outcome := by
    have h : (onvmPktProcessNextAction w pkt nf).final (s.atStart pkt) = (incChainIndex pkt).final
        ((routeNext w pkt nf (t.pktMeta pkt).action).final t) := by
      unfold onvmPktProcessNextAction
      simp only [Prog.bind_eq, Prog.final_bind, Prog.run_read, Prog.final_read]
      rfl
    rw [hmeta] at h
    exact (congrArg Plane.outcome h).trans rfl
  rw [ho]
  unfold routeNext
  refine ⟨fun h => ?_, fun h => ?_, fun h => ?_, fun h0 h2 h3 => ?_⟩
  · rw [if_pos h]
    exact Prod.ext (Plane.held_free s pkt) rfl
  · rw [if_neg (by rw [h]; decide), if_pos h]
    have hsend := enqueueNf_outcome w (t.pktMeta pkt).destination pkt (some nf)
      (t.tally nf fun st => { st with actTonf := st.actTonf + 1 })
    rw [hmeta] at hsend
    unfold sendToNf
    simp only [Prog.bind_eq, Prog.final_bind, Prog.run_read, Prog.final_read, tally,
      Prog.final_write]
    have hdest : ((t.tally nf fun st => { st with actTonf := st.actTonf + 1 }).pktMeta pkt) =
      t.pktMeta pkt := rfl
    rw [hdest, hmeta]
    exact hsend.trans (afterEnqueueNf_same s _ _ _ w _ pkt)
  · rw [if_neg (by rw [h]; decide), if_neg (by rw [h]; decide), if_pos h]
    refine ⟨t.tally nf fun st => { st with actOut := st.actOut + 1 }, rfl, ?_⟩
    simp only [Prog.bind_eq, Prog.final_bind, Prog.run_read, Prog.final_read, tally,
      Prog.final_write]
    have hdest : ((t.tally nf fun st => { st with actOut := st.actOut + 1 }).pktMeta pkt) =
      t.pktMeta pkt := rfl
    rw [hdest, hmeta]
  · rw [if_neg h0, if_neg h2, if_neg h3]
    rfl

/-- The RX path does to the packet what `onvm_pkt_process_next_action` does for
the same entry. -/
def SameEffect (s : Plane ι) (w : ι) (nf pkt : Nat) : Prop :=
  ((processRxPacket w pkt).final s).outcome =
    ((onvmPktProcessNextAction w pkt nf).final (s.atStart pkt)).outcome

theorem sameEffect_iff (s : Plane ι) (w : ι) (nf pkt : Nat) :
    SameEffect s w nf pkt ↔ (s.firstEntry pkt).action = actionTonf ∨
      (s.firstEntry pkt).action = actionDrop ∧ s.Unserved (s.firstEntry pkt).destination pkt := by
  unfold SameEffect
  rw [processRxPacket_outcome]
  obtain ⟨hdrop, htonf, hout, helse⟩ := nextAction_outcome w pkt nf s
  generalize ((onvmPktProcessNextAction w pkt nf).final (s.atStart pkt)).outcome = o at *
  generalize s.firstEntry pkt = e at *
  have hfreed : s.afterFree pkt ≠ s.outcome := fun h => by
    have := congrFun (congrArg Prod.fst h) .freed
    simp [Plane.afterFree, Plane.outcome, Plane.held] at this
  -- What the RX path does leaves traces in the buffer of the NF, or is a free.
  have hrx : ¬ s.Unserved e.destination pkt → ∀ o' : (Place ι → List Nat) × List Fault,
      o'.2 ≠ s.faults ++ [.overrun (.nfRx (s.instanceFor e.destination pkt))] →
      (o'.2 = s.faults → ∀ i, o'.1 (.buf w (.nfRx i)) = s.held (.buf w (.nfRx i))) →
      s.afterEnqueueNf w e.destination pkt ≠ o' := by
    rintro hserved o' hfault hsame rfl
    unfold Plane.afterEnqueueNf at hfault hsame
    rw [if_neg hserved] at hfault hsame
    rcases afterAppend_deviates s w (s.instanceFor e.destination pkt) pkt with h | ⟨h, hne⟩
    · exact hfault h
    · exact hne (hsame h _)
  have hfree : s.Unserved e.destination pkt →
      s.afterEnqueueNf w e.destination pkt = s.afterFree pkt := fun h => if_pos h
  by_cases h2 : e.action = actionTonf
  · exact iff_of_true (htonf h2).symm (.inl h2)
  by_cases h0 : e.action = actionDrop
  · rw [hdrop h0, or_iff_right h2, and_iff_right h0]
    refine ⟨fun h => ?_, hfree⟩
    by_contra hserved
    refine hrx hserved _ ?_ ?_ h
    · simp [Plane.afterFree]
    · intro _ i
      simp [Plane.afterFree]
  simp only [h2, h0, false_or, false_and, iff_false]
  by_cases h3 : e.action = actionOut
  · obtain ⟨t, ht, ho⟩ := hout h3
    have hheld : t.held = s.held := congrArg Prod.fst ht
    have hfaults : t.faults = s.faults := congrArg Prod.snd ht
    have hdev := enqueuePort_deviates t w e.destination pkt
    simp only [← ho, hheld, hfaults] at hdev
    by_cases hserved : s.Unserved e.destination pkt
    · rw [hfree hserved]
      rintro rfl
      rcases hdev with h | h | ⟨-, -, h | h⟩
      · simp [Plane.afterFree] at h
      · simp [Plane.afterFree] at h
      · exact hfreed (Prod.ext h rfl)
      · simp [Plane.afterFree] at h
    · refine hrx hserved o ?_ ?_
      · rcases hdev with h | h | ⟨h, -⟩ <;> simp [h]
      · intro h i
        rcases hdev with h' | h' | ⟨-, hnf, -⟩
        · simp [h'] at h
        · simp [h'] at h
        · exact hnf i
  · rw [helse h0 h2 h3]
    by_cases hserved : s.Unserved e.destination pkt
    · rw [hfree hserved]
      exact hfreed
    · refine hrx hserved _ ?_ fun _ i => rfl
      simp [Plane.outcome]

theorem rxPackets_world (w : ι) (pkts : List Nat) (s : Plane ι) :
    ((Prog.each (processRxPacket w) pkts).final s).world = s.world :=
  (Prog.Keeps.each (fun pkt =>
    (ignoresPkt_world w pkt).keeps_processRxPacket fun _ => trivial) pkts).final s

/-- **One chain, two paths.** `onvm_pkt_process_rx_batch` treats every packet of a
batch as `onvm_pkt_process_next_action` treats one with the same chain entry
exactly when each of them has a TONF entry, or a DROP entry whose destination is
a service without an NF for it. -/
theorem rx_next_same_effect_iff (s : Plane ι) (w : ι) (nf : Nat) (pkts : List Nat) :
    (∀ l pkt l', pkts = l ++ pkt :: l' →
        SameEffect ((Prog.each (processRxPacket w) l).final s) w nf pkt) ↔
      ∀ pkt ∈ pkts, (s.firstEntry pkt).action = actionTonf ∨
        (s.firstEntry pkt).action = actionDrop ∧
          s.Unserved (s.firstEntry pkt).destination pkt := by
  have hsame : ∀ l pkt, SameEffect ((Prog.each (processRxPacket w) l).final s) w nf pkt ↔
      (s.firstEntry pkt).action = actionTonf ∨ (s.firstEntry pkt).action = actionDrop ∧
        s.Unserved (s.firstEntry pkt).destination pkt := by
    intro l pkt
    rw [sameEffect_iff]
    exact iff_of_eq (congrArg (fun v : World ι =>
      let e := ((v.flow pkt).getD v.defaultChain).next 0
      let i := onvmScServiceToNfMap v.nfPerServiceCount v.services e.destination (some (v.rss pkt))
      e.action = actionTonf ∨ e.action = actionDrop ∧
        (i = 0 ∨ onvmNfIsValid (v.nfs i) = false)) (rxPackets_world w l s))
  constructor
  · intro h pkt hmem
    obtain ⟨l, l', rfl⟩ := List.append_of_mem hmem
    exact (hsame l pkt).mp (h l pkt l' rfl)
  · rintro h l pkt l' rfl
    exact (hsame l pkt).mpr (h pkt (by simp))

/-- A flow whose packets go out of port 0, and NF 1 of service 0. -/
def outFlow : Plane Unit :=
  let tables := Tables.bootSingle
  { Plane.fresh { tables with
      nfs := fun i => if i = 1 then { instanceId := 1, status := .running } else {}
      nfPerServiceCount := fun serviceId => if serviceId = 0 then 1 else 0
      services := fun _ _ => 1 } fun _ => rxMgr with
    flow := fun _ => some ⟨fun _ => ⟨actionOut, 0⟩, 1⟩
    portInit := fun port => port == 0 }

/-- The RX path gives the packet to the NF of service 0. -/
theorem out_entry_to_nf : ¬ (∀ l pkt l', [5] = l ++ pkt :: l' →
    SameEffect ((Prog.each (processRxPacket ()) l).final outFlow) () 1 pkt) := by
  intro h
  have hsame := h [] 5 [] rfl
  have hbuf := congrFun (congrArg Prod.fst hsame) (.buf () (.nfRx 1))
  exact absurd hbuf (by decide)

end Onvm.Pkt

import Onvm.Pkt.Union

/-!
# Action counters

What `onvm_pkt_process_tx_batch` of an NF adds to `act_next`, `act_tonf`, `act_out`
and `act_drop`. A packet that the NF returns with `ONVM_NF_ACTION_NEXT` counts for
the action of its chain as well, unless the chain has ended: `onvm_pkt_drop`
returns 1, and the branch adds `!1`.
-/

namespace Onvm.Pkt

open Onvm.Lib Onvm.Nflib Onvm.Mgr

variable {ι : Type}

@[ext] structure ActionCounts where
  next : Nat
  tonf : Nat
  out : Nat
  drop : Nat

def ActionCounts.add (a b : ActionCounts) : ActionCounts :=
  ⟨a.next + b.next, a.tonf + b.tonf, a.out + b.out, a.drop + b.drop⟩

theorem ActionCounts.add_assoc (a b c : ActionCounts) : (a.add b).add c = a.add (b.add c) := by
  simp only [add, Nat.add_assoc]

def NfStats.actions (st : NfStats) : ActionCounts :=
  ⟨st.actNext, st.actTonf, st.actOut, st.actDrop⟩

namespace Plane

def actions (s : Plane ι) (nf : Nat) : ActionCounts := (s.stats nf).actions

/-- The action the NF gave the packet, or the one its chain makes of
`ONVM_NF_ACTION_NEXT`. -/
def resolved (s : Plane ι) (pkt : Nat) : Nat :=
  if (s.pktMeta pkt).action = actionNext then
    onvmNextAction (s.chainOf pkt) (s.pktMeta pkt).chainIndex
  else (s.pktMeta pkt).action

/-- What the code counts for a batch. -/
def counted (s : Plane ι) (pkts : List Nat) : ActionCounts where
  next := pkts.countP fun pkt => (s.pktMeta pkt).action = actionNext
  tonf := pkts.countP fun pkt => s.resolved pkt = actionTonf
  out := pkts.countP fun pkt => (s.pktMeta pkt).action = actionOut
  drop := pkts.countP fun pkt => (s.pktMeta pkt).action = actionDrop

/-- The entries of the flow table's chains and of the default chain are for NFs. -/
def ChainsToNfs (s : Plane ι) : Prop :=
  ∀ pkt, ∀ k < (s.chainOf pkt).chainLength, ((s.chainOf pkt).sc (k + 1)).action = actionTonf

end Plane

/-! ## What does not count -/

section Keeps

variable {n : Nat}

theorem keeps_actions_tally (nf : Nat) {g : NfStats → NfStats}
    (hg : ∀ st, (g st).actions = st.actions) :
    (tally nf g : PktProg ι Unit).Keeps (Plane.actions · n) := by
  refine Prog.keeps_write fun s => ?_
  unfold Plane.actions Plane.tally
  by_cases hn : n = nf
  · subst hn
    simp [hg]
  · simp [hn]

theorem keeps_actions_tallySource (sourceNf : Option Nat) {g : NfStats → NfStats}
    (hg : ∀ st, (g st).actions = st.actions) :
    (tallySource sourceNf g : PktProg ι Unit).Keeps (Plane.actions · n) := by
  cases sourceNf with
  | none => trivial
  | some nf => exact keeps_actions_tally nf hg

theorem keeps_actions_dropAll (pkts : List Nat) :
    (dropAll pkts : PktProg ι Unit).Keeps (Plane.actions · n) := by
  refine Prog.Keeps.each (fun pkt => ?_) pkts
  exact .bind (Prog.keeps_access fun _ => rfl) fun _ => Prog.keeps_ret _

theorem keeps_actions_enqueueBulk (q : Plane ι → Option RingName) (pkts : List Nat) :
    (rteRingEnqueueBulk q pkts).Keeps (Plane.actions · n) := by
  refine Prog.keeps_access fun s => ?_
  unfold Plane.enqueueBulk
  split
  · rfl
  · rfl

theorem keeps_actions_settleNf (nfId : Nat) (sourceNf : Option Nat) (pkts : List Nat)
    (enqueued : Nat) :
    (settleNf nfId sourceNf pkts enqueued : PktProg ι Unit).Keeps (Plane.actions · n) := by
  unfold settleNf
  split
  · refine (keeps_actions_dropAll pkts).bind fun _ => .bind ?_ fun _ => ?_
    · exact keeps_actions_tally nfId fun _ => rfl
    · exact keeps_actions_tallySource sourceNf fun _ => rfl
  · refine .bind ?_ fun _ => ?_
    · exact keeps_actions_tally nfId fun _ => rfl
    · exact keeps_actions_tallySource sourceNf fun _ => rfl

theorem keeps_actions_settleTx (nf : Nat) (pkts : List Nat) (enqueued : Nat) :
    (settleTx nf pkts enqueued : PktProg ι Unit).Keeps (Plane.actions · n) := by
  unfold settleTx
  split
  · refine .bind ?_ fun _ => keeps_actions_dropAll pkts
    exact keeps_actions_tally nf fun _ => rfl
  · exact keeps_actions_tally nf fun _ => rfl

variable [DecidableEq ι]

theorem keeps_actions_clear (w : ι) (b : Buf) : (clear w b).Keeps (Plane.actions · n) :=
  Prog.keeps_write fun _ => rfl

theorem keeps_actions_flushNfQueue (w : ι) (nfId : Nat) (sourceNf : Option Nat) :
    (onvmPktFlushNfQueue w nfId sourceNf).Keeps (Plane.actions · n) := by
  refine (Prog.keeps_read _ _).bind fun pkts => ?_
  split
  · trivial
  refine (Prog.keeps_read _ _).bind fun valid => ?_
  split
  · trivial
  exact (keeps_actions_enqueueBulk _ pkts).bind fun enqueued =>
    (keeps_actions_settleNf nfId sourceNf pkts enqueued).bind fun _ => keeps_actions_clear w _

theorem keeps_actions_enqueueTxThread (w : ι) (nf : Nat) :
    (onvmPktEnqueueTxThread w nf).Keeps (Plane.actions · n) := by
  have hderef : (deref w .toTx).Keeps (Plane.actions · n) := by
    refine Prog.keeps_access fun s => ?_
    split
    · rfl
    · rfl
  refine hderef.bind fun pktBuf => ?_
  split
  · trivial
  split
  · trivial
  exact (keeps_actions_enqueueBulk _ _).bind fun enqueued =>
    (keeps_actions_settleTx nf _ enqueued).bind fun _ => keeps_actions_clear w _

theorem keeps_actions_appendOrFlush (w : ι) (b : Buf) (pkt : Nat) {flush : PktProg ι Unit}
    (hflush : flush.Keeps (Plane.actions · n)) :
    (appendOrFlush w b pkt flush).Keeps (Plane.actions · n) := by
  have happend : (Prog.write (.append b pkt) (·.append w b pkt) : PktProg ι Unit).Keeps
      (Plane.actions · n) := by
    refine Prog.keeps_write fun s => ?_
    unfold Plane.append
    split
    · rfl
    split
    · rfl
    · rfl
  refine happend.bind fun _ => (Prog.keeps_read _ _).bind fun count => ?_
  split
  · exact hflush
  · trivial

theorem keeps_actions_enqueueNf (w : ι) (serviceId pkt : Nat) (sourceNf : Option Nat) :
    (onvmPktEnqueueNf w serviceId pkt sourceNf).Keeps (Plane.actions · n) := by
  have hrefuse : (refuse pkt sourceNf : PktProg ι Unit).Keeps (Plane.actions · n) := by
    refine .bind (Prog.keeps_access fun _ => rfl) fun _ => ?_
    exact keeps_actions_tallySource sourceNf fun _ => rfl
  refine (Prog.keeps_read _ _).bind fun i => ?_
  split
  · exact hrefuse
  refine (Prog.keeps_read _ _).bind fun valid => ?_
  split
  · exact hrefuse
  · exact keeps_actions_appendOrFlush w _ pkt (keeps_actions_flushNfQueue w i sourceNf)

end Keeps

/-! ## What counts -/

section Counts

variable [DecidableEq ι] {w : ι} {nf pkt : Nat} {s : Plane ι}

omit [DecidableEq ι] in
theorem actions_tally (s : Plane ι) (nf : Nat) (g : NfStats → NfStats) :
    (s.tally nf g).actions nf = (g (s.stats nf)).actions := by
  simp [Plane.actions, Plane.tally]

theorem sendToNf_actions (w : ι) (pkt nf : Nat) (s : Plane ι) :
    ((sendToNf w pkt nf).final s).actions nf =
      { s.actions nf with tonf := (s.actions nf).tonf + 1 } := by
  let s₁ := s.tally nf fun st => { st with actTonf := st.actTonf + 1 }
  have hkeeps := keeps_actions_enqueueNf (n := nf) w (s.pktMeta pkt).destination pkt (some nf)
  calc ((sendToNf w pkt nf).final s).actions nf
      = s₁.actions nf := hkeeps.final s₁
    _ = { s.actions nf with tonf := (s.actions nf).tonf + 1 } := actions_tally s nf _

theorem sendOut_actions (pkt nf : Nat) (h : (s.mgrs w).mgrType = .nf) :
    ((sendOut w nf pkt).final s).actions nf =
      { s.actions nf with out := (s.actions nf).out + 1 } := by
  let s₁ := s.tally nf fun st => { st with actOut := st.actOut + 1 }
  have hrun : (sendOut w nf pkt).final s =
      (appendOrFlush w .toTx pkt (onvmPktEnqueueTxThread w nf)).final s₁ := by
    simp [sendOut, Prog.bind_eq, h, tally, s₁]
  have hkeeps := keeps_actions_appendOrFlush (n := nf) w .toTx pkt
    (keeps_actions_enqueueTxThread w nf)
  rw [hrun, hkeeps.final s₁]
  exact actions_tally s nf _

/-- The branch for the end of the chain counts nothing. -/
theorem processNextAction_actions
    (htonf : ∀ k < (s.chainOf pkt).chainLength, ((s.chainOf pkt).sc (k + 1)).action = actionTonf) :
    ((onvmPktProcessNextAction w pkt nf).final s).actions nf =
      if (s.pktMeta pkt).chainIndex < (s.chainOf pkt).chainLength then
        { s.actions nf with tonf := (s.actions nf).tonf + 1 } else s.actions nf := by
  let s₁ := (setNext pkt (s.chainOf pkt)).final s
  have hrun : (onvmPktProcessNextAction w pkt nf).final s = (incChainIndex pkt).final
      ((routeNext w pkt nf (s₁.pktMeta pkt).action).final s₁) := by
    simp only [onvmPktProcessNextAction, Prog.bind_eq, Prog.final_bind, Prog.run_read,
      Prog.final_read]
    rfl
  have hroute : ((onvmPktProcessNextAction w pkt nf).final s).actions nf =
      ((routeNext w pkt nf (s₁.pktMeta pkt).action).final s₁).actions nf := by
    rw [hrun]
    rfl
  have haction : (s₁.pktMeta pkt).action =
      onvmNextAction (s.chainOf pkt) (s.pktMeta pkt).chainIndex := by
    rw [setNext_pktMeta]
    rfl
  rw [hroute, haction]
  unfold onvmNextAction
  by_cases hend : (s.chainOf pkt).chainLength ≤ (s.pktMeta pkt).chainIndex
  · rw [if_pos hend, if_neg (Nat.not_lt.mpr hend)]
    exact actions_tally (s₁.free pkt) nf fun st => { st with actDrop := st.actDrop + notC 1 }
  · have hlt : (s.pktMeta pkt).chainIndex < (s.chainOf pkt).chainLength := by omega
    rw [if_neg hend, if_pos hlt, htonf _ hlt]
    exact sendToNf_actions w pkt nf s₁

theorem processTxPacket_actions (hchains : s.ChainsToNfs) (hmgr : (s.mgrs w).mgrType = .nf)
    (hvalid : s.ValidAction pkt) :
    ((processTxPacket w nf pkt).final s).actions nf =
      (s.actions nf).add (s.counted [pkt]) := by
  let s₁ := s.stamp nf pkt
  have hmeta : s₁.pktMeta pkt = _ := stamp_pktMeta s nf pkt
  have hrun : (processTxPacket w nf pkt).final s =
      (routeTx w nf pkt (s.pktMeta pkt).action).final s₁ :=
    congrArg Prod.snd (processTxPacket_run w nf pkt s)
  have hcases : (s.pktMeta pkt).action = actionDrop ∨ (s.pktMeta pkt).action = actionNext ∨
      (s.pktMeta pkt).action = actionTonf ∨ (s.pktMeta pkt).action = actionOut := by
    unfold Plane.ValidAction at hvalid
    simp only [actionDrop, actionNext, actionTonf, actionOut] at hvalid ⊢
    omega
  have hcounted : ∀ a, (s.pktMeta pkt).action = a → a ≠ actionNext → s.counted [pkt] =
      ⟨0, if a = actionTonf then 1 else 0, if a = actionOut then 1 else 0,
        if a = actionDrop then 1 else 0⟩ := by
    rintro a rfl ha
    simp [Plane.counted, Plane.resolved, ha, List.countP_cons]
  rw [hrun]
  rcases hcases with h | h | h | h <;> rw [h]
  · rw [hcounted _ h (by decide)]
    calc (((s₁.tally nf fun st => { st with actDrop := st.actDrop + 1 }).free pkt).tally nf
          fun st => { st with tx := st.tx + notC 1 }).actions nf
        = (s₁.tally nf fun st => { st with actDrop := st.actDrop + 1 }).actions nf :=
          actions_tally _ nf _
      _ = { s.actions nf with drop := (s.actions nf).drop + 1 } := actions_tally s₁ nf _
  · let s₂ := s₁.tally nf fun st => { st with actNext := st.actNext + 1 }
    have hs₂ : s₂.actions nf = { s.actions nf with next := (s.actions nf).next + 1 } :=
      actions_tally s₁ nf _
    have hindex : (s₂.pktMeta pkt).chainIndex = (s.pktMeta pkt).chainIndex := by
      show (s₁.pktMeta pkt).chainIndex = _
      rw [hmeta]
    have hstep : ((onvmPktProcessNextAction w pkt nf).final s₂).actions nf = _ :=
      processNextAction_actions (hchains pkt)
    have hroute : (routeTx w nf pkt actionNext).final s₁ =
        (onvmPktProcessNextAction w pkt nf).final s₂ := by
      simp [routeTx, Prog.bind_eq, Prog.pure_eq, tally, s₂, actionDrop, actionNext]
    rw [hroute, hstep, hindex, hs₂]
    show (if (s.pktMeta pkt).chainIndex < (s.chainOf pkt).chainLength then _ else _) = _
    unfold Plane.counted Plane.resolved onvmNextAction
    by_cases hlt : (s.pktMeta pkt).chainIndex < (s.chainOf pkt).chainLength
    · have htonf := hchains pkt _ hlt
      simp [ActionCounts.add, h, hlt, Nat.not_le.mpr hlt, htonf, actionDrop, actionNext, actionOut]
    · simp [ActionCounts.add, h, hlt, Nat.not_lt.mp hlt, actionDrop, actionNext, actionTonf,
        actionOut]
  · rw [hcounted _ h (by decide)]
    have hroute : (routeTx w nf pkt actionTonf).final s₁ = (sendToNf w pkt nf).final s₁ := by
      simp [routeTx, Prog.bind_eq, Prog.pure_eq, actionDrop, actionNext, actionTonf]
    rw [hroute]
    exact sendToNf_actions w pkt nf s₁
  · rw [hcounted _ h (by decide)]
    have hroute : (routeTx w nf pkt actionOut).final s₁ = (sendOut w nf pkt).final s₁ := by
      simp [routeTx, Prog.bind_eq, Prog.pure_eq, actionDrop, actionNext, actionTonf, actionOut]
    rw [hroute]
    exact sendOut_actions (s := s₁) pkt nf hmgr

omit [DecidableEq ι] in
theorem counted_cons (s : Plane ι) (pkt : Nat) (pkts : List Nat) :
    s.counted (pkt :: pkts) = (s.counted [pkt]).add (s.counted pkts) := by
  simp only [Plane.counted, ActionCounts.add, List.countP_cons, List.countP_nil, Nat.zero_add,
    Nat.add_comm]

omit [DecidableEq ι] in
theorem counted_congr {s s' : Plane ι} {pkts : List Nat} (hw : s'.world = s.world)
    (hm : ∀ pkt ∈ pkts, s'.pktMeta pkt = s.pktMeta pkt) : s'.counted pkts = s.counted pkts := by
  have hchain : ∀ pkt, s'.chainOf pkt = s.chainOf pkt := fun pkt =>
    congrArg (fun v : World ι => (v.flow pkt).getD v.defaultChain) hw
  unfold Plane.counted Plane.resolved
  congr 1
  all_goals
    refine List.countP_congr fun pkt hpkt => ?_
    simp only [hm pkt hpkt, hchain]

/-- What a batch adds. -/
theorem txBatch_actions (nf : Nat) {pkts : List Nat} (hnd : pkts.Nodup) (hchains : s.ChainsToNfs)
    (hmgr : (s.mgrs w).mgrType = .nf) (hvalid : ∀ pkt ∈ pkts, s.ValidAction pkt) :
    ((onvmPktProcessTxBatch w nf pkts).final s).actions nf =
      (s.actions nf).add (s.counted pkts) := by
  induction pkts generalizing s with
  | nil => rfl
  | cons pkt pkts ih =>
    obtain ⟨hpkt, hnd⟩ := List.nodup_cons.mp hnd
    obtain ⟨hhead, htail⟩ := List.forall_mem_cons.mp hvalid
    obtain ⟨-, -, hworld, hmeta⟩ := processTxPacket_spec w nf pkt s
    have hm : ∀ q ∈ pkts, ((processTxPacket w nf pkt).final s).pktMeta q = s.pktMeta q :=
      fun q hq => hmeta q fun h => hpkt (h ▸ hq)
    have hchain : ∀ q, ((processTxPacket w nf pkt).final s).chainOf q = s.chainOf q := fun q =>
      congrArg (fun v : World ι => (v.flow q).getD v.defaultChain) hworld
    have hchains' : ((processTxPacket w nf pkt).final s).ChainsToNfs := fun q k hk => by
      rw [hchain] at hk ⊢
      exact hchains q k hk
    have hvalid' : ∀ q ∈ pkts, ((processTxPacket w nf pkt).final s).ValidAction q := fun q hq => by
      unfold Plane.ValidAction
      rw [hm q hq]
      exact htail q hq
    have hrest := ih hnd hchains' ((congrFun (congrArg World.mgrType hworld) w).trans hmgr) hvalid'
    rw [final_txBatch_cons, if_pos hhead, hrest, processTxPacket_actions hchains hmgr hhead,
      counted_congr hworld hm, ActionCounts.add_assoc, ← counted_cons]

/-- The counters of the NF show what became of the packets of a batch. -/
structure ActionsCounted (s s' : Plane ι) (nf : Nat) (pkts : List Nat) : Prop where
  next : (s'.stats nf).actNext =
    (s.stats nf).actNext + pkts.countP fun pkt => (s.pktMeta pkt).action = actionNext
  tonf : (s'.stats nf).actTonf =
    (s.stats nf).actTonf + pkts.countP fun pkt => s.resolved pkt = actionTonf
  out : (s'.stats nf).actOut =
    (s.stats nf).actOut + pkts.countP fun pkt => (s.pktMeta pkt).action = actionOut
  drop : (s'.stats nf).actDrop =
    (s.stats nf).actDrop + pkts.countP fun pkt => s.resolved pkt = actionDrop

omit [DecidableEq ι] in
/-- The packets dropped are those the NF dropped exactly when no chain has ended. -/
theorem countP_resolved_drop (hchains : s.ChainsToNfs) (pkts : List Nat) :
    pkts.countP (fun pkt => (s.pktMeta pkt).action = actionDrop) =
        pkts.countP (fun pkt => s.resolved pkt = actionDrop) ↔
      ∀ pkt ∈ pkts, (s.pktMeta pkt).action = actionNext →
        (s.pktMeta pkt).chainIndex < (s.chainOf pkt).chainLength := by
  let ended pkt := (s.pktMeta pkt).action = actionNext ∧
    (s.chainOf pkt).chainLength ≤ (s.pktMeta pkt).chainIndex
  have hpkt : ∀ pkt, s.resolved pkt = actionDrop ↔
      (s.pktMeta pkt).action = actionDrop ∨ ended pkt := by
    intro pkt
    unfold Plane.resolved onvmNextAction
    by_cases hnext : (s.pktMeta pkt).action = actionNext
    · by_cases hend : (s.chainOf pkt).chainLength ≤ (s.pktMeta pkt).chainIndex
      · simp [ended, hnext, hend]
      · have htonf := hchains pkt _ (Nat.not_le.mp hend)
        simp [ended, hnext, hend, htonf, actionDrop, actionNext, actionTonf]
    · simp [ended, hnext]
  have hsum : pkts.countP (fun pkt => s.resolved pkt = actionDrop) =
      pkts.countP (fun pkt => (s.pktMeta pkt).action = actionDrop) + pkts.countP (ended ·) := by
    induction pkts with
    | nil => rfl
    | cons pkt pkts ih =>
      have hdisjoint : ¬ ((s.pktMeta pkt).action = actionDrop ∧ ended pkt) := by
        rintro ⟨hdrop, hnext, -⟩
        rw [hdrop] at hnext
        cases hnext
      rw [List.countP_cons, List.countP_cons, List.countP_cons, ih]
      simp only [hpkt, decide_eq_true_eq]
      split <;> split <;> split <;> omega
  have hnone : pkts.countP (ended ·) = 0 ↔ ∀ pkt ∈ pkts, (s.pktMeta pkt).action = actionNext →
      (s.pktMeta pkt).chainIndex < (s.chainOf pkt).chainLength := by
    simp [List.countP_eq_zero, ended]
  rw [hsum, ← hnone]
  omega

/-- **Action counters.** A batch is counted exactly when no packet of it is returned with
`ONVM_NF_ACTION_NEXT` at the end of its chain. -/
theorem actions_counted_iff (s : Plane ι) (w : ι) (nf : Nat) (pkts : List Nat) (hnd : pkts.Nodup)
    (hmgr : (s.mgrs w).mgrType = .nf) (hvalid : ∀ pkt ∈ pkts, s.ValidAction pkt)
    (hchains : s.ChainsToNfs) :
    ActionsCounted s ((onvmPktProcessTxBatch w nf pkts).final s) nf pkts ↔
      ∀ pkt ∈ pkts, (s.pktMeta pkt).action = actionNext →
        (s.pktMeta pkt).chainIndex < (s.chainOf pkt).chainLength := by
  have hbatch := txBatch_actions nf hnd hchains hmgr hvalid
  obtain ⟨hnext, htonf, hout, hdrop⟩ := ActionCounts.ext_iff.mp hbatch
  rw [← countP_resolved_drop hchains]
  constructor
  · intro h
    have := hdrop.symm.trans h.drop
    exact Nat.add_left_cancel this
  · intro h
    exact ⟨hnext, htonf, hout, hdrop.trans (congrArg _ h)⟩

/-- The NF sends the packet on. -/
theorem actions_counted_allNext :
    ActionsCounted allNext ((onvmPktProcessTxBatch () 1 [5]).final allNext) 1 [5] := by
  refine (actions_counted_iff allNext () 1 [5] (List.nodup_singleton 5) rfl ?_ ?_).mpr ?_
  · decide
  · exact fun _ _ _ => rfl
  · decide

/-- Its chain has ended, and the drop is not counted. -/
theorem chain_drop_uncounted : ¬ ∀ (s : Plane Unit) (w : Unit) (nf : Nat) (pkts : List Nat),
    pkts.Nodup → (s.mgrs w).mgrType = .nf → (∀ pkt ∈ pkts, s.ValidAction pkt) → s.ChainsToNfs →
      ActionsCounted s ((onvmPktProcessTxBatch w nf pkts).final s) nf pkts := by
  intro h
  have hcounted := h { allNext with pktMeta := fun _ => { action := actionNext, chainIndex := 1 } }
    () 1 [5] (List.nodup_singleton 5) rfl (by decide) fun _ _ _ => rfl
  exact absurd hcounted.drop (by decide +kernel)

end Counts

end Onvm.Pkt

import Onvm.Pkt.Receive

/-!
# The main loop of an NF

One round of `onvm_nflib_thread_main_loop` as far as packets go: a burst is taken
from `rx_q`, the packet handler sees each packet, and the burst goes to
`onvm_pkt_process_tx_batch`. A handler returns 0 for a packet that it gives back
and another value for one that it keeps.
-/

namespace Onvm.Pkt

open Onvm.Lib Onvm.Nflib Onvm.Mgr

def onvmNfHandleTx : Bool := true

/-- A packet handler: what it writes to the metadata of a packet, and what it
returns for it. -/
structure PktHandler where
  act : Nat → OnvmPktMeta → OnvmPktMeta
  ret : Nat → Int

variable {ι : Type}

namespace Plane

def burst (s : Plane ι) (q : Option RingName) : List Nat :=
  ((q.bind s.tables.rings).getD []).take packetReadSize

def dequeueBurst (s : Plane ι) (w : ι) (q : Option RingName) : Plane ι :=
  { s with
    tables := { s.tables with
      rings := fun name => if q = some name then (s.tables.rings name).map (·.drop packetReadSize)
        else s.tables.rings name }
    owner := fun pkt => if pkt ∈ s.burst q then some w else s.owner pkt }

end Plane

def rteRingDequeueBurst (w : ι) (q : Plane ι → Option RingName) : PktProg ι (List Nat) :=
  .access .tau (fun s => s.burst (q s)) (fun s => s.dequeueBurst w (q s))

def handlePackets (nf : Nat) (handler : PktHandler) : List Nat → PktProg ι (List Nat)
  | [] => pure []
  | pkt :: pkts => do
    .write (.touch pkt) (·.setMeta pkt (handler.act pkt))
    if handler.ret pkt = 0 then
      let txBuf ← handlePackets nf handler pkts
      pure (pkt :: txBuf)
    else
      tally nf fun st => { st with txBuffer := st.txBuffer + 1 }
      handlePackets nf handler pkts

/-- `onvm_pkt_enqueue_tx_thread` on a buffer on the stack. -/
def enqueueTxBuf (nf : Nat) (txBuf : List Nat) : PktProg ι Unit :=
  if txBuf = [] then pure ()
  else do
    let enqueued ← rteRingEnqueueBulk (fun s => (s.tables.nfs nf).txQ) txBuf
    settleTx nf txBuf enqueued

/-- The packets in `pkts[0]` up to the returned count. -/
def onvmNflibDequeuePackets (w : ι) (nf : Nat) (handler : PktHandler) : PktProg ι (List Nat) := do
  let pkts ← rteRingDequeueBurst w fun s => (s.tables.nfs nf).rxQ
  if pkts = [] then pure []
  else
    let txBuf ← handlePackets nf handler pkts
    if onvmNfHandleTx then pure pkts
    else
      enqueueTxBuf nf txBuf
      pure []

variable [DecidableEq ι]

/-- One round of `onvm_nflib_thread_main_loop`, without messages and limits. -/
def mainLoopRound (w : ι) (nf : Nat) (handler : PktHandler) : PktProg ι Unit := do
  let pkts ← onvmNflibDequeuePackets w nf handler
  onvmPktProcessTxBatch w nf pkts
  onvmPktEnqueueTxThread w nf
  onvmPktFlushAllNfs w (some nf)

def eNobufs : Int := 105

def onvmNflibReturnPktBulk (nf : Nat) (pkts : List Nat) : PktProg ι Int :=
  if pkts = [] then pure (-1)
  else do
    let enqueued ← rteRingEnqueueBulk (fun s => (s.tables.nfs nf).txQ) pkts
    if enqueued = 0 then
      tally nf fun st => { st with txDrop := st.txDrop + pkts.length }
      dropAll pkts
      pure (-eNobufs)
    else
      tally nf fun st => { st with txReturned := st.txReturned + pkts.length }
      pure 0

def onvmNflibReturnPkt (nf pkt : Nat) : PktProg ι Int := onvmNflibReturnPktBulk nf [pkt]

/-! ## Packets that an NF keeps -/

omit [DecidableEq ι] in
/-- What `onvm_pkt_process_tx_batch` is given: the whole burst. -/
theorem dequeuePackets_value (w : ι) (nf : Nat) (handler : PktHandler) (s : Plane ι) :
    ((onvmNflibDequeuePackets w nf handler).run s).1 = s.burst (s.tables.nfs nf).rxQ := by
  unfold onvmNflibDequeuePackets
  by_cases h : s.burst (s.tables.nfs nf).rxQ = []
  · simp [Prog.bind_eq, Prog.pure_eq, rteRingDequeueBurst, h]
  · simp [Prog.bind_eq, Prog.pure_eq, rteRingDequeueBurst, h, onvmNfHandleTx]

/-- The library routes the packets that the handler gave back, in order, and
does nothing with those that it kept. -/
structure LeavesKept (s : Plane ι) (w : ι) (nf : Nat) (handler : PktHandler) : Prop where
  routed : ((onvmNflibDequeuePackets w nf handler).run s).1 =
    (s.burst (s.tables.nfs nf).rxQ).filter (handler.ret · = 0)
  kept : ∀ pkt ∈ s.burst (s.tables.nfs nf).rxQ, handler.ret pkt ≠ 0 →
    Nowhere ((mainLoopRound w nf handler).final s).held pkt

/-- **Kept packets.** A round of the main loop leaves the packets alone that the
handler keeps exactly when it keeps none of the burst. -/
theorem leaves_kept_iff (s : Plane ι) (w : ι) (nf : Nat) (handler : PktHandler) :
    LeavesKept s w nf handler ↔ ∀ pkt ∈ s.burst (s.tables.nfs nf).rxQ, handler.ret pkt = 0 := by
  constructor
  · intro h
    have hrouted := h.routed
    rw [dequeuePackets_value] at hrouted
    simpa using List.filter_eq_self.mp hrouted.symm
  · intro h
    refine ⟨?_, fun pkt hmem hne => absurd (h pkt hmem) hne⟩
    rw [dequeuePackets_value]
    exact (List.filter_eq_self.mpr (by simpa using h)).symm

/-- NF 1 has packet 5 on its ring. -/
def oneQueued : Plane Unit :=
  let tables := Tables.bootSingle
  Plane.fresh { tables with
    nfs := fun i => if i = 1 then
      { instanceId := 1, status := .running, rxQ := some ⟨.rx, 1⟩ } else {}
    rings := fun name => if name = ⟨.rx, 1⟩ then some [5] else none } fun _ => nfMgr

/-- It sets the action to DROP and keeps the packet. -/
def keeper : PktHandler := ⟨fun _ m => { m with action := actionDrop }, fun _ => 1⟩

/-- The packet is freed although the NF has it. -/
theorem kept_packet_freed : ¬ LeavesKept oneQueued () 1 keeper ∧
    5 ∈ ((mainLoopRound () 1 keeper).final oneQueued).freed := by
  refine ⟨fun h => ?_, by decide +kernel⟩
  have hrouted := h.routed
  exact absurd hrouted (by decide)

end Onvm.Pkt

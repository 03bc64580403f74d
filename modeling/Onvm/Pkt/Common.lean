import Onvm.Pkt.Plane

/-!
# The packet functions

`onvm_pkt_common.c`, which the manager's threads and the NFs run on their own
`queue_mgr`, and `onvm_pkt.c`, which only the manager runs, as programs of atomic
steps. Every access to memory that another worker can see is a step of its own.
An NF is its slot in `nfs`; NULL for a `source_nf` is `none`.
-/

namespace Onvm.Pkt

open Onvm.Lib Onvm.Nflib Onvm.Mgr

/-- What a step does, as far as anything is said about it: the check in
`onvm_pkt_flush_nf_queue` that the NF runs, `buffer[count++] = pkt`, an access to
the metadata of a packet, and the lookup of its chain. -/
inductive Access where
  | tau
  | check (nfId : Nat)
  | append (b : Buf) (pkt : Nat)
  | touch (pkt : Nat)
  | lookup (pkt : Nat)
  deriving DecidableEq, Repr

variable {ι : Type}

abbrev PktProg (ι α : Type) := Prog Access (Plane ι) α

def tally (nf : Nat) (f : NfStats → NfStats) : PktProg ι Unit :=
  .write .tau (·.tally nf f)

/-- Count for the source NF, unless it is NULL. -/
def tallySource (sourceNf : Option Nat) (f : NfStats → NfStats) : PktProg ι Unit :=
  match sourceNf with
  | none => pure ()
  | some nf => tally nf f

/-- Returns 1 for every packet that is not NULL. -/
def onvmPktDrop (pkt : Nat) : PktProg ι Nat := .access .tau (fun _ => 1) (·.free pkt)

def notC (ret : Nat) : Nat := if ret = 0 then 1 else 0

def dropAll (pkts : List Nat) : PktProg ι Unit :=
  .each (fun pkt => do let _ ← onvmPktDrop pkt) pkts

/-- Returns the number of packets enqueued. -/
def rteRingEnqueueBulk (q : Plane ι → Option RingName) (pkts : List Nat) : PktProg ι Nat :=
  .access .tau (fun s => if s.ringTakes (q s) pkts.length then pkts.length else 0)
    (fun s => s.enqueueBulk (q s) pkts)

variable [DecidableEq ι]

def clear (w : ι) (b : Buf) : PktProg ι Unit := .write .tau (·.setBuf w b [])

/-- Count what the ring of an NF took, or drop and count it. -/
def settleNf (nfId : Nat) (sourceNf : Option Nat) (nfBuf : List Nat) (enqueued : Nat) :
    PktProg ι Unit :=
  if enqueued = 0 then do
    dropAll nfBuf
    tally nfId fun st => { st with rxDrop := st.rxDrop + nfBuf.length }
    tallySource sourceNf fun st => { st with txDrop := st.txDrop + nfBuf.length }
  else do
    tally nfId fun st => { st with rx := st.rx + nfBuf.length }
    tallySource sourceNf fun st => { st with tx := st.tx + nfBuf.length }

def onvmPktFlushNfQueue (w : ι) (nfId : Nat) (sourceNf : Option Nat) : PktProg ι Unit := do
  let nfBuf ← .read .tau fun s => (s.mgrs w).nfRxBufs nfId
  if nfBuf = [] then pure ()
  else
    let valid ← .read (.check nfId) fun s => onvmNfIsValid (s.tables.nfs nfId)
    if valid = false then pure ()
    else
      let enqueued ← rteRingEnqueueBulk (fun s => (s.tables.nfs nfId).rxQ) nfBuf
      settleNf nfId sourceNf nfBuf enqueued
      clear w (.nfRx nfId)

def onvmPktFlushAllNfs (w : ι) (sourceNf : Option Nat) : PktProg ι Unit :=
  .each (fun i => onvmPktFlushNfQueue w i sourceNf) (List.range maxNfs)

def appendOrFlush (w : ι) (b : Buf) (pkt : Nat) (flush : PktProg ι Unit) : PktProg ι Unit := do
  .write (.append b pkt) (·.append w b pkt)
  let count ← .read .tau fun s => s.count w b
  if count = packetReadSize then flush else pure ()

/-- Free a packet that has nowhere to go. -/
def refuse (pkt : Nat) (sourceNf : Option Nat) : PktProg ι Unit := do
  let _ ← onvmPktDrop pkt
  tallySource sourceNf fun st => { st with txDrop := st.txDrop + 1 }

def onvmPktEnqueueNf (w : ι) (dstServiceId pkt : Nat) (sourceNf : Option Nat) :
    PktProg ι Unit := do
  let dstInstanceId ← .read .tau fun s => s.instanceFor dstServiceId pkt
  if dstInstanceId = 0 then refuse pkt sourceNf
  else
    let valid ← .read .tau fun s => onvmNfIsValid (s.tables.nfs dstInstanceId)
    if valid = false then refuse pkt sourceNf
    else
      appendOrFlush w (.nfRx dstInstanceId) pkt (onvmPktFlushNfQueue w dstInstanceId sourceNf)

/-- Drop and count what the NIC did not take. -/
def dropUnsent (port : Nat) (portBuf : List Nat) (sent : Nat) : PktProg ι Unit :=
  if sent < portBuf.length then do
    dropAll (portBuf.drop sent)
    .write .tau (·.tallyPort port fun st =>
      { st with txDrop := st.txDrop + (portBuf.length - sent) })
  else pure ()

/-- `tx_mgr->tx_thread_info->port_tx_bufs[port]` and `tx_mgr->to_tx_buf`: the
buffer, if it is there. -/
def deref (w : ι) (b : Buf) : PktProg ι (Option (List Nat)) :=
  .access .tau (fun s => (s.mgrs w).buf b)
    (fun s => if (s.mgrs w).buf b = none then s.fault (.wild b) else s)

def onvmPktFlushPortQueue (w : ι) (port : Nat) : PktProg ι Unit := do
  let mgrType ← .read .tau fun s => (s.mgrs w).mgrType
  if mgrType ≠ .mgr then pure ()
  else
    match ← deref w (.port port) with
    | none => pure ()
    | some portBuf =>
      if portBuf = [] then pure ()
      else
        let sent ← .access .tau (·.sends portBuf) (·.txBurst port portBuf)
        dropUnsent port portBuf sent
        .write .tau (·.tallyPort port fun st => { st with tx := st.tx + sent })
        clear w (.port port)

/-- Count what the TX ring of an NF took, or drop and count it. -/
def settleTx (nf : Nat) (pktBuf : List Nat) (enqueued : Nat) : PktProg ι Unit :=
  if enqueued = 0 then do
    tally nf fun st => { st with txDrop := st.txDrop + pktBuf.length }
    dropAll pktBuf
  else tally nf fun st => { st with tx := st.tx + pktBuf.length }

/-- The buffer is the `to_tx_buf` of the worker. -/
def onvmPktEnqueueTxThread (w : ι) (nf : Nat) : PktProg ι Unit := do
  match ← deref w .toTx with
  | none => pure ()
  | some pktBuf =>
    if pktBuf = [] then pure ()
    else
      let enqueued ← rteRingEnqueueBulk (fun s => (s.tables.nfs nf).txQ) pktBuf
      settleTx nf pktBuf enqueued
      clear w .toTx

/-- A port that is not initialised takes nothing, and the packet is not freed. -/
def onvmPktEnqueuePort (w : ι) (port buf : Nat) : PktProg ι Unit := do
  let init ← .read .tau fun s => s.portInit port
  if init = false then pure ()
  else
    appendOrFlush w (.port port) buf (onvmPktFlushPortQueue w port)

def incChainIndex (pkt : Nat) : PktProg ι Unit :=
  .write (.touch pkt) (·.setMeta pkt fun m => { m with chainIndex := inc8 m.chainIndex })

/-- `meta->action` and `meta->destination` from the chain. With the second the
decision is made. -/
def setNext (pkt : Nat) (sc : ServiceChain) : PktProg ι Unit := do
  .write (.touch pkt) (·.setMeta pkt fun m => { m with action := onvmNextAction sc m.chainIndex })
  .write (.touch pkt) (fun s =>
    let s := s.setMeta pkt fun m => { m with destination := onvmNextDestination sc m.chainIndex }
    { s with decisions := Function.update s.decisions pkt (s.decisions pkt ++
      [⟨(s.pktMeta pkt).action, (s.pktMeta pkt).destination⟩]) })

def sendToNf (w : ι) (pkt nf : Nat) : PktProg ι Unit := do
  tally nf fun st => { st with actTonf := st.actTonf + 1 }
  let destination ← .read (.touch pkt) fun s => (s.pktMeta pkt).destination
  onvmPktEnqueueNf w destination pkt (some nf)

/-- The switch of `onvm_pkt_process_next_action`. -/
def routeNext (w : ι) (pkt nf action : Nat) : PktProg ι Unit :=
  if action = actionDrop then do
    let ret ← onvmPktDrop pkt
    tally nf fun st => { st with actDrop := st.actDrop + notC ret }
  else if action = actionTonf then sendToNf w pkt nf
  else if action = actionOut then do
    tally nf fun st => { st with actOut := st.actOut + 1 }
    let destination ← .read (.touch pkt) fun s => (s.pktMeta pkt).destination
    onvmPktEnqueuePort w destination pkt
  else pure ()

def onvmPktProcessNextAction (w : ι) (pkt nf : Nat) : PktProg ι Unit := do
  let sc ← .read (.lookup pkt) (·.chainOf pkt)
  setNext pkt sc
  let action ← .read (.touch pkt) fun s => (s.pktMeta pkt).action
  routeNext w pkt nf action
  incChainIndex pkt

/-- The packet leaves through a port: over the TX thread, if this is an NF. -/
def sendOut (w : ι) (nf pkt : Nat) : PktProg ι Unit := do
  let mgrType ← .read .tau fun s => (s.mgrs w).mgrType
  if mgrType ≠ .mgr then
    tally nf fun st => { st with actOut := st.actOut + 1 }
    appendOrFlush w .toTx pkt (onvmPktEnqueueTxThread w nf)
  else
    let destination ← .read (.touch pkt) fun s => (s.pktMeta pkt).destination
    onvmPktEnqueuePort w destination pkt

/-- The branches of `onvm_pkt_process_tx_batch`; false where it returns. -/
def routeTx (w : ι) (nf pkt action : Nat) : PktProg ι Bool :=
  if action = actionDrop then do
    tally nf fun st => { st with actDrop := st.actDrop + 1 }
    let ret ← onvmPktDrop pkt
    tally nf fun st => { st with tx := st.tx + notC ret }
    pure true
  else if action = actionNext then do
    tally nf fun st => { st with actNext := st.actNext + 1 }
    onvmPktProcessNextAction w pkt nf
    pure true
  else if action = actionTonf then do
    sendToNf w pkt nf
    pure true
  else if action = actionOut then do
    sendOut w nf pkt
    pure true
  else do
    let _ ← onvmPktDrop pkt
    pure false

def processTxPacket (w : ι) (nf pkt : Nat) : PktProg ι Bool := do
  .write (.touch pkt) fun s => s.setMeta pkt fun m => { m with src := (s.tables.nfs nf).instanceId }
  let action ← .read (.touch pkt) fun s => (s.pktMeta pkt).action
  routeTx w nf pkt action

def onvmPktProcessTxBatch (w : ι) (nf : Nat) : List Nat → PktProg ι Unit
  | [] => pure ()
  | pkt :: pkts => do
    if ← processTxPacket w nf pkt then onvmPktProcessTxBatch w nf pkts else pure ()

/-! ## The manager's own -/

def classify (pkt : Nat) : PktProg ι Unit := do
  .write (.touch pkt) (·.setMeta pkt fun m => { m with src := 0 })
  .write (.touch pkt) (·.setMeta pkt fun m => { m with chainIndex := 0 })
  let sc ← .read (.lookup pkt) (·.chainOf pkt)
  setNext pkt sc

def processRxPacket (w : ι) (pkt : Nat) : PktProg ι Unit := do
  classify pkt
  incChainIndex pkt
  let destination ← .read (.touch pkt) fun s => (s.pktMeta pkt).destination
  onvmPktEnqueueNf w destination pkt none

def onvmPktProcessRxBatch (w : ι) (pkts : List Nat) : PktProg ι Unit := do
  .each (processRxPacket w) pkts
  onvmPktFlushAllNfs w none

def onvmPktFlushAllPorts (w : ι) : PktProg ι Unit := do
  let ids ← .read .tau (·.portIds)
  .each (onvmPktFlushPortQueue w) ids

/-! ## Calls -/

inductive Call where
  | rxBatch (pkts : List Nat)
  | txBatch (nf : Nat) (pkts : List Nat)
  | enqueueNf (serviceId pkt : Nat) (sourceNf : Option Nat)
  | flushNfQueue (nfId : Nat) (sourceNf : Option Nat)
  | flushAllNfs (sourceNf : Option Nat)
  | flushPortQueue (port : Nat)
  | flushAllPorts
  | enqueueTxThread (nf : Nat)
  deriving DecidableEq, Repr

def Call.body (w : ι) : Call → PktProg ι Unit
  | .rxBatch pkts => onvmPktProcessRxBatch w pkts
  | .txBatch nf pkts => onvmPktProcessTxBatch w nf pkts
  | .enqueueNf serviceId pkt sourceNf => onvmPktEnqueueNf w serviceId pkt sourceNf
  | .flushNfQueue nfId sourceNf => onvmPktFlushNfQueue w nfId sourceNf
  | .flushAllNfs sourceNf => onvmPktFlushAllNfs w sourceNf
  | .flushPortQueue port => onvmPktFlushPortQueue w port
  | .flushAllPorts => onvmPktFlushAllPorts w
  | .enqueueTxThread nf => onvmPktEnqueueTxThread w nf

end Onvm.Pkt

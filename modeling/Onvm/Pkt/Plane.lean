import Onvm.Lib.Prog
import Onvm.Mgr.Nf

/-!
# The state of the packet path

What the RX threads, the TX threads and the NFs work on: the tables and rings of
the manager, the metadata in the mbufs, service chains and flow table, the ports,
and the `queue_mgr` of each worker `w : ι` with its local buffers. An mbuf is a
number. A local buffer is the list of its packets; what does not fit in memory
is a `Fault`. `seen`, `owner` and `decisions` are history variables: no function of the
program reads them.
-/

namespace Onvm.Pkt

open Onvm.Lib Onvm.Nflib Onvm.Mgr

def packetReadSize : Nat := 32

/-- What a ring of `NF_QUEUE_RINGSIZE` slots holds. -/
def ringCapacity : Nat := 16384 - 1

/-! The values of `action` that mean something. -/

def actionDrop : Nat := 0

def actionNext : Nat := 1

def actionTonf : Nat := 2

def actionOut : Nat := 3

def inc8 (n : Nat) : Nat := (n + 1) % 2 ^ 8

structure OnvmPktMeta where
  action : Nat := 0
  destination : Nat := 0
  src : Nat := 0
  chainIndex : Nat := 0
  deriving DecidableEq, Repr

structure ChainEntry where
  action : Nat
  destination : Nat
  deriving DecidableEq, Repr

structure ServiceChain where
  sc : Nat → ChainEntry
  chainLength : Nat

def onvmNextAction (chain : ServiceChain) (curNf : Nat) : Nat :=
  if chain.chainLength ≤ curNf then actionDrop else (chain.sc (curNf + 1)).action

def onvmNextDestination (chain : ServiceChain) (curNf : Nat) : Nat :=
  if chain.chainLength ≤ curNf then 0 else (chain.sc (curNf + 1)).destination

/-- What the two lookups say together. -/
def ServiceChain.next (chain : ServiceChain) (curNf : Nat) : ChainEntry :=
  ⟨onvmNextAction chain curNf, onvmNextDestination chain curNf⟩

structure NfStats where
  rx : Nat := 0
  rxDrop : Nat := 0
  tx : Nat := 0
  txDrop : Nat := 0
  txBuffer : Nat := 0
  txReturned : Nat := 0
  actOut : Nat := 0
  actTonf : Nat := 0
  actDrop : Nat := 0
  actNext : Nat := 0
  deriving DecidableEq, Repr

structure TxStats where
  tx : Nat := 0
  txDrop : Nat := 0
  deriving DecidableEq, Repr

/-! ## Queue managers -/

inductive MgrType where
  | nf
  | mgr
  deriving DecidableEq, Repr

/-- The union in `struct queue_mgr`. The `port_tx_bufs` of a `tx_thread_info`;
an RX thread has a NULL `tx_thread_info`. -/
inductive Member where
  | toTxBuf (buf : List Nat)
  | txThreadInfo (portTxBufs : Option (Nat → List Nat))

structure QueueMgr where
  member : Member
  nfRxBufs : Nat → List Nat

/-- The tag that every manager is built with: `onvm_nflib_nf_tx_mgr_init` sets
`NF` and `to_tx_buf`, the manager's `main` sets `MGR` and `tx_thread_info`. -/
def QueueMgr.mgrType (q : QueueMgr) : MgrType :=
  match q.member with
  | .toTxBuf _ => .nf
  | .txThreadInfo _ => .mgr

/-- A local buffer of a worker, by the pointer it is reached through:
`nf_rx_bufs[i]`, `tx_thread_info->port_tx_bufs[p]` or `to_tx_buf`. -/
inductive Buf where
  | nfRx (nfId : Nat)
  | port (port : Nat)
  | toTx
  deriving DecidableEq, Repr

/-! The managers of an NF, a TX thread and an RX thread, with empty buffers. -/

def nfMgr : QueueMgr := ⟨.toTxBuf [], fun _ => []⟩

def txMgr : QueueMgr := ⟨.txThreadInfo (some fun _ => []), fun _ => []⟩

def rxMgr : QueueMgr := ⟨.txThreadInfo none, fun _ => []⟩

namespace QueueMgr

/-- The buffer behind the pointer, if the union holds that pointer. -/
def buf (q : QueueMgr) : Buf → Option (List Nat)
  | .nfRx i => some (q.nfRxBufs i)
  | .port p =>
    match q.member with
    | .txThreadInfo (some bufs) => some (bufs p)
    | .txThreadInfo none | .toTxBuf _ => none
  | .toTx =>
    match q.member with
    | .toTxBuf buf => some buf
    | .txThreadInfo _ => none

def setBuf (q : QueueMgr) (b : Buf) (pkts : List Nat) : QueueMgr :=
  match b with
  | .nfRx i => { q with nfRxBufs := Function.update q.nfRxBufs i pkts }
  | .port p =>
    match q.member with
    | .txThreadInfo (some bufs) =>
      { q with member := .txThreadInfo (some (Function.update bufs p pkts)) }
    | .txThreadInfo none | .toTxBuf _ => q
  | .toTx =>
    match q.member with
    | .toTxBuf _ => { q with member := .toTxBuf pkts }
    | .txThreadInfo _ => q

theorem buf_setBuf (q : QueueMgr) {b : Buf} {l : List Nat} (h : q.buf b = some l)
    (pkts : List Nat) (b' : Buf) :
    (q.setBuf b pkts).buf b' = if b' = b then some pkts else q.buf b' := by
  obtain ⟨member, nfRxBufs⟩ := q
  cases b with
  | nfRx i =>
    cases b' with
    | nfRx j => by_cases hj : j = i <;> simp [buf, setBuf, hj]
    | port p => simp [buf, setBuf]
    | toTx => simp [buf, setBuf]
  | port p =>
    rcases member with buf | _ | bufs
    · cases h
    · cases h
    · cases b' with
      | nfRx j => simp [QueueMgr.buf, setBuf]
      | port p' => by_cases hp : p' = p <;> simp [QueueMgr.buf, setBuf, hp]
      | toTx => simp [QueueMgr.buf, setBuf]
  | toTx =>
    rcases member with buf | _ | bufs
    · cases b' <;> simp [QueueMgr.buf, setBuf]
    · cases h
    · cases h

theorem setBuf_of_none (q : QueueMgr) {b : Buf} (h : q.buf b = none) (pkts : List Nat) :
    q.setBuf b pkts = q := by
  obtain ⟨member, nfRxBufs⟩ := q
  rcases b with i | p | _ <;> rcases member with buf | _ | bufs <;> first | rfl | cases h

@[simp] theorem mgrType_setBuf (q : QueueMgr) (b : Buf) (pkts : List Nat) :
    (q.setBuf b pkts).mgrType = q.mgrType := by
  obtain ⟨member, nfRxBufs⟩ := q
  rcases b with i | p | _ <;> rcases member with buf | _ | bufs <;> rfl

end QueueMgr

/-- Memory errors: an access through the member that the union does not hold, or
through NULL, and a write past the end of a buffer. -/
inductive Fault where
  | wild (b : Buf)
  | overrun (b : Buf)
  deriving DecidableEq, Repr

/-! ## The plane -/

structure Plane (ι : Type) where
  tables : Tables
  pktMeta : Nat → OnvmPktMeta
  /-- `hash.rss` of an mbuf -/
  rss : Nat → UInt32
  /-- The `sc` of the flow entry of a packet, if `onvm_flow_dir_get_pkt` finds one. -/
  flow : Nat → Option ServiceChain
  defaultChain : ServiceChain
  /-- `ports->init` -/
  portInit : Nat → Bool
  /-- `ports->id`, of length `num_ports` -/
  portIds : List Nat
  mgrs : ι → QueueMgr
  /-- The mbufs freed so far, in order. -/
  freed : List Nat
  /-- What `rte_eth_tx_burst` took for each port. -/
  nic : Nat → List Nat
  /-- How many packets the NIC takes at most in its next bursts. -/
  room : Nat → Nat
  stats : Nat → NfStats
  txStats : Nat → TxStats
  faults : List Fault
  /-- Whether a packet has come into the program, from the NIC or from an NF. -/
  seen : Nat → Bool
  /-- Who has a packet: the worker that received or dequeued it, until the packet
  is freed or put on a ring. -/
  owner : Nat → Option ι
  /-- The chain entries a packet was routed by since it was received. -/
  decisions : Nat → List ChainEntry

namespace Plane

variable {ι : Type}

/-- No packet is anywhere, no port is initialised, the flow table is empty and
the default chain sends everything to service 1. -/
def fresh (tables : Tables) (mgrs : ι → QueueMgr) : Plane ι where
  tables := tables
  pktMeta _ := {}
  rss _ := 0
  flow _ := none
  defaultChain := ⟨fun _ => ⟨actionTonf, 1⟩, 1⟩
  portInit _ := false
  portIds := []
  mgrs := mgrs
  freed := []
  nic _ := []
  room _ := 0
  stats _ := {}
  txStats _ := {}
  faults := []
  seen _ := false
  owner _ := none
  decisions _ := []

def chainOf (s : Plane ι) (pkt : Nat) : ServiceChain := (s.flow pkt).getD s.defaultChain

/-- The instance a packet for a service goes to. -/
def instanceFor (s : Plane ι) (serviceId pkt : Nat) : Nat :=
  onvmScServiceToNfMap s.tables.nfPerServiceCount s.tables.services serviceId (some (s.rss pkt))

def setMeta (s : Plane ι) (pkt : Nat) (f : OnvmPktMeta → OnvmPktMeta) : Plane ι :=
  { s with pktMeta := Function.update s.pktMeta pkt (f (s.pktMeta pkt)) }

def tally (s : Plane ι) (nf : Nat) (f : NfStats → NfStats) : Plane ι :=
  { s with stats := Function.update s.stats nf (f (s.stats nf)) }

def tallyPort (s : Plane ι) (port : Nat) (f : TxStats → TxStats) : Plane ι :=
  { s with txStats := Function.update s.txStats port (f (s.txStats port)) }

def fault (s : Plane ι) (f : Fault) : Plane ι := { s with faults := s.faults ++ [f] }

def disown (s : Plane ι) (pkts : List Nat) : Plane ι :=
  { s with owner := fun pkt => if pkt ∈ pkts then none else s.owner pkt }

def free (s : Plane ι) (pkt : Nat) : Plane ι :=
  { s.disown [pkt] with freed := s.freed ++ [pkt] }

/-- Whether a ring takes `n` more packets. NULL and a ring that was freed take
none. -/
def ringTakes (s : Plane ι) (q : Option RingName) (n : Nat) : Bool :=
  match q.bind s.tables.rings with
  | none => false
  | some queued => queued.length + n ≤ ringCapacity

/-- `rte_ring_enqueue_bulk`: all the packets or none. -/
def enqueueBulk (s : Plane ι) (q : Option RingName) (pkts : List Nat) : Plane ι :=
  if s.ringTakes q pkts.length then
    { s.disown pkts with
      tables := { s.tables with
        rings := fun name => if q = some name then (s.tables.rings name).map (· ++ pkts)
          else s.tables.rings name } }
  else s

/-- How many of the packets the NIC takes next. -/
def sends (s : Plane ι) (pkts : List Nat) : Nat := min (s.room 0) pkts.length

def txBurst (s : Plane ι) (port : Nat) (pkts : List Nat) : Plane ι :=
  let sent := pkts.take (s.sends pkts)
  { s.disown sent with
    nic := Function.update s.nic port (s.nic port ++ sent)
    room := fun n => s.room (n + 1) }

section Worker

variable [DecidableEq ι]

def setBuf (s : Plane ι) (w : ι) (b : Buf) (pkts : List Nat) : Plane ι :=
  { s with mgrs := Function.update s.mgrs w ((s.mgrs w).setBuf b pkts) }

def count (s : Plane ι) (w : ι) (b : Buf) : Nat := (((s.mgrs w).buf b).getD []).length

def append (s : Plane ι) (w : ι) (b : Buf) (pkt : Nat) : Plane ι :=
  match (s.mgrs w).buf b with
  | none => s.fault (.wild b)
  | some pkts =>
    if pkts.length < packetReadSize then s.setBuf w b (pkts ++ [pkt]) else s.fault (.overrun b)

end Worker

end Plane

end Onvm.Pkt

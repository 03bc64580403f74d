import Onvm.Lib.TransSys
import Onvm.Pkt.FlowSlots
import Onvm.Sdn.Actions

/-!
# The SDN switch

The flow-table NF with its connection to a controller: `flow_table.c`, `sdn.c` and
`sdn_pkt_list.h`. The packet handler looks packets up in the flow directory and puts those
of unknown flows on a ring. The thread of the connection takes them from there into a list
for each flow and asks the controller; a FLOW_MOD makes a flow rule and releases the list
its buffer number names. The two threads share the ring and the directory. `step` is one
operation of either; a process that exits, aborts or touches memory that is not its own has
no next state. The controller may send anything.
-/

namespace Onvm.Sdn

open Onvm.Lib Onvm.Nflib Onvm.Pkt

/-! ## Packets and lists -/

/-- A packet with its metadata, and the memory behind the frame, as far as it is read. -/
structure SdnPkt where
  mbuf : RteMbuf
  pktMeta : OnvmPktMeta
  room : List Byte
  header_fits : ofpDefaultMissSendLen ≤ (mbuf.data ++ room).length

namespace SdnPkt

def getHeader (pkt : SdnPkt) : List Byte := (pkt.mbuf.data ++ pkt.room).take ofpDefaultMissSendLen

theorem length_getHeader (pkt : SdnPkt) : pkt.getHeader.length = ofpDefaultMissSendLen :=
  List.length_take_of_le pkt.header_fits

def withAction (pkt : SdnPkt) (action destination : Nat) : SdnPkt :=
  { pkt with pktMeta := { pkt.pktMeta with action := action, destination := destination } }

/-- From here on the packet follows the service chain of its flow. -/
def released (pkt : SdnPkt) : SdnPkt :=
  { pkt with pktMeta := { pkt.pktMeta with action := actionNext, chainIndex := 0 } }

end SdnPkt

structure SdnPktList where
  pkts : List SdnPkt := []
  flag : Nat := 0
  counter : Nat := 0

namespace SdnPktList

def sdnPktListAdd (list : SdnPktList) (pkt : SdnPkt) : SdnPktList :=
  { list with pkts := list.pkts ++ [pkt], counter := list.counter + 1 }

def sdnPktListSetFlag (list : SdnPktList) : SdnPktList := { list with flag := 1 }

end SdnPktList

/-! ## The state -/

inductive HandshakeStatus where
  | start
  | readyToSend
  deriving DecidableEq, Repr

/-- Where the thread of the connection is in its loop: before `poll`, in the loop over the
messages that were read, with `POLLOUT` still to be looked at, or before
`datapath_handle_write`. -/
inductive IoPc where
  | poll
  | reading (pollOut : Bool)
  | writing
  deriving DecidableEq, Repr

structure Trace where
  /-- Packets given to the packet handler, those it gave back, those it put on the ring. -/
  arrived : List SdnPkt := []
  passed : List SdnPkt := []
  missed : List SdnPkt := []
  /-- Packets given to `onvm_nflib_return_pkt`. -/
  returned : List SdnPkt := []
  /-- What came from the controller, and the messages that it was taken for. -/
  received : List Byte := []
  handled : List (List Byte) := []
  /-- The answers to them, all messages for the controller, and what went out. -/
  answers : List (List Byte) := []
  made : List (List Byte) := []
  sent : List Byte := []
  /-- The buffer numbers of the PACKET_INs, and those of lists that were released. -/
  asked : List Nat := []
  answered : List Nat := []
  /-- The chain the last FLOW_MOD for a flow asked for. -/
  rules : HashKey → Option OnvmServiceChain := fun _ => none

structure Switch (η : Type) where
  id : BitVec 32
  inbuf : Msgbuf
  outbuf : Msgbuf
  xid : BitVec 32
  switchStatus : HandshakeStatus
  switchConfig : List Byte
  pktBufFt : η
  lists : Nat → SdnPktList
  ringToSdn : List SdnPkt
  dir : FlowDir η
  defDestination : Nat
  io : IoPc
  /-- The packet for which the packet handler has found no flow. -/
  hand : Option SdnPkt
  trace : Trace

/-- `SDN_RING_SIZE`, less the slot that stays free. -/
def sdnRingCapacity : Nat := 65535

def pktBufEntries : Nat := 1024

namespace Switch

variable {η : Type} (t : RteHash η) (rss : RteThash) (junk : Nat → Byte)

/-! ## The packet handler -/

/-- `packet_handler` up to the ring. -/
def look (s : Switch η) (pkt : SdnPkt) : Option (Switch η) := do
  if s.hand.isSome then none
  else
    let s := { s with trace := { s.trace with arrived := s.trace.arrived ++ [pkt] } }
    let pass (pkt : SdnPkt) : Switch η :=
      { s with trace := { s.trace with passed := s.trace.passed ++ [pkt] } }
    if ← pkt.mbuf.onvmPktIsIpv4 then
      match ← s.dir.onvmFlowDirGet t rss (.pkt pkt.mbuf) with
      -- `flow_table_hit`
      | .ok _ => some (pass (pkt.released.withAction actionNext 0))
      | .error err => if err = -eNoent then some { s with hand := some pkt } else none
    else some (pass (pkt.withAction actionTonf s.defDestination))

def miss (s : Switch η) : Option (Switch η) := do
  let pkt ← s.hand
  if s.ringToSdn.length < sdnRingCapacity then some { s with
    hand := none
    ringToSdn := s.ringToSdn ++ [pkt]
    trace := { s.trace with missed := s.trace.missed ++ [pkt] } }
  else some { s with
    hand := none
    trace := { s.trace with passed := s.trace.passed ++ [pkt.withAction actionDrop 0] } }

/-! ## Messages from the controller -/

def push (s : Switch η) (msg : List Byte) : Option (Switch η) := do
  some { s with
    outbuf := ← s.outbuf.msgbufPush junk msg
    trace := { s.trace with made := s.trace.made ++ [msg] } }

/-- What a reaction means for the connection. -/
def configure (s : Switch η) (r : Reaction) : Switch η :=
  { s with
    switchStatus := if r.ready then .readyToSend else s.switchStatus
    switchConfig := r.switchConfig }

def answer (s : Switch η) (answer : List Byte) : Option (Switch η) :=
  ({ s with trace := { s.trace with answers := s.trace.answers ++ [answer] } } : Switch η).push junk
    answer

def apply (s : Switch η) (r : Reaction) : Option (Switch η) :=
  match r.answer with
  | none => some (s.configure r)
  | some answer => (s.configure r).answer junk answer

def sdnPktListFlush (s : Switch η) (i : Nat) : Switch η :=
  { s with
    lists := Function.update s.lists i {}
    trace := { s.trace with
      returned := s.trace.returned ++ (s.lists i).pkts.map SdnPkt.released
      answered := s.trace.answered ++ if (s.lists i).pkts = [] then [] else [i] } }

def takeEntry (dir : FlowDir η) (fk : OnvmFtIpv4_5tuple) : Option (Nat × FlowDir η) := do
  match ← dir.onvmFlowDirGet t rss (.key fk) with
  | .ok i =>
    let dir ← dir.freeKey (dir.data i).key
    some (i, ← dir.freeChain (dir.data i).sc)
  | .error err =>
    -- with an error of its own it exits, and without space there is no entry to clear
    if err = -eNoent then
      match ← dir.onvmFlowDirAdd t rss (.key fk) with
      | (.ok i, dir) => some (i, dir)
      | (.error _, _) => none
    else none

/-- The entry points to a new key and a new chain. -/
def setEntry (dir : FlowDir η) (i key sc : Nat) (chain : OnvmServiceChain) : FlowDir η :=
  { dir with
    data := Function.update dir.data i ⟨some key, some sc⟩
    chains := Function.update dir.chains sc (some chain)
    keys := Function.update dir.keys key true }

/-- OFPT_FLOW_MOD. The key and the chain are allocated as `key` and `sc`. -/
def flowMod (s : Switch η) (mem : List Byte) (key sc : Nat) : Option (Switch η) := do
  let bufferId ← ntohl mem 64
  if bufferId = -1 then some s
  -- what is allocated was free
  else if s.dir.keys key ∨ (s.dir.chains sc).isSome then none
  else
    let fk ← flowKeyExtract mem
    let length ← ntohs mem 2
    let chain ← (flowActionExtract mem sizeofOfpFlowMod (actionsLen length)).toOption
    let (i, dir) ← takeEntry t rss s.dir fk
    let s := { s with
      dir := setEntry dir i key sc chain
      trace := { s.trace with
        rules := Function.update s.trace.rules ⟨fk, fk.onvmSoftrss rss⟩ (some chain) } }
    -- another number is behind the data of the table
    if bufferId.toNat < pktBufEntries then some (s.sdnPktListFlush bufferId.toNat) else none

def handle (s : Switch η) (mem : List Byte) (key sc : Nat) : Option (Switch η) := do
  let s ← s.apply junk (← react s.id s.switchConfig mem)
  if mem[1]?.bind OfpType.ofCode = some .flowMod then s.flowMod t rss mem key sc else some s

/-- The read at the beginning of `datapath_handle_read`; the process exits when there is
nothing to read. -/
def read (s : Switch η) (data : Option (List Byte)) (pollOut : Bool) : Option (Switch η) := do
  if s.io = .poll then
    let (count, inbuf) ← s.inbuf.msgbufRead junk data
    if count ≤ 0 then none
    else some { s with
      inbuf := inbuf
      io := .reading pollOut
      trace := { s.trace with received := s.trace.received ++ s.inbuf.got data } }
  else none

/-- The loop over the messages is left. -/
def leave (s : Switch η) (pollOut : Bool) : Switch η :=
  { s with io := if pollOut then .writing else .poll }

def pull (s : Switch η) (length : Nat) : Switch η :=
  { s with
    inbuf := (s.inbuf.msgbufPull length).2.2
    trace := { s.trace with handled := s.trace.handled ++ [s.inbuf.peeked.take length] } }

/-- One round of the loop over the messages. -/
def parse (s : Switch η) (key sc : Nat) : Option (Switch η) := do
  match s.io with
  | .reading pollOut =>
    if sizeofOfpHeader ≤ s.inbuf.countBuffered then
      let length ← ntohs s.inbuf.peeked 2
      if s.inbuf.countBuffered < length.toNat then some (s.leave pollOut)
      else (s.pull length.toNat).handle t rss junk s.inbuf.peeked key sc
    else some (s.leave pollOut)
  | _ => none

/-! ## Messages to the controller -/

/-- `pkt_buf_ft` has a list for the flow, perhaps a new one. -/
def findList (s : Switch η) (pkt : SdnPkt) : Option (Nat × Switch η) := do
  match ← FlowDir.hashKey rss (.pkt pkt.mbuf) with
  | .error _ => none
  | .ok k =>
    match t.lookup s.pktBufFt k with
    | some i => some (i, s)
    | none =>
      let (i, pktBufFt) := t.add s.pktBufFt k
      -- without space it exits
      some (← i, { s with pktBufFt := pktBufFt })

/-- A packet from the ring is put on its list, and the controller is asked unless it has
been. -/
def buffer (s : Switch η) (pkt : SdnPkt) : Option (Switch η) := do
  let (i, s) ← s.findList t rss pkt
  let list := (s.lists i).sdnPktListAdd pkt
  if list.flag = 0 then
    let msg := makePacketIn s.xid (BitVec.ofNat 32 i) (BitVec.ofNat 16 pkt.pktMeta.src) pkt.getHeader
    ({ s with
      lists := Function.update s.lists i list.sdnPktListSetFlag
      xid := s.xid + 1
      trace := { s.trace with asked := s.trace.asked ++ [i] } } : Switch η).push junk msg
  else some { s with lists := Function.update s.lists i list }

def dequeue (s : Switch η) : Option (Switch η) :=
  match s.switchStatus, s.ringToSdn with
  | .readyToSend, pkt :: pkts => ({ s with ringToSdn := pkts } : Switch η).buffer t rss junk pkt
  | _, _ => some s

/-- `msgbuf_write`, where `write` fails or takes at most `accepted` bytes. -/
def flush (s : Switch η) (accepted : Option Nat) : Switch η :=
  if 0 < s.outbuf.countBuffered then { s with
    outbuf := (s.outbuf.msgbufWrite 0 accepted).2.2
    trace := { s.trace with sent := s.trace.sent ++ (s.outbuf.msgbufWrite 0 accepted).2.1 } }
  else s

def write (s : Switch η) (accepted : Option Nat) : Option (Switch η) := do
  if s.io = .writing then
    some { (← s.dequeue t rss junk).flush accepted with io := .poll }
  else none

/-! ## Runs -/

inductive Event where
  | look (pkt : SdnPkt)
  | miss
  | read (data : Option (List Byte)) (pollOut : Bool)
  | parse (key sc : Nat)
  /-- `poll` reports no `POLLIN`. -/
  | pollOut
  | write (accepted : Option Nat)

def step (s : Switch η) : Event → Option (Switch η)
  | .look pkt => s.look t rss pkt
  | .miss => s.miss
  | .read data pollOut => s.read junk data pollOut
  | .parse key sc => s.parse t rss junk key sc
  | .pollOut => if s.io = .poll then some { s with io := .writing } else none
  | .write accepted => s.write t rss junk accepted

/-- The switch at the beginning: HELLO is in `outbuf`, all lists and tables are empty. It is the
only `datapath` of its process, which has the identifier 1. -/
structure Init (s : Switch η) : Prop where
  id : s.id = 1
  inbuf : s.inbuf.bytes = []
  outbuf : s.outbuf.bytes = helloMsg
  switchStatus : s.switchStatus = .start
  switchConfig : s.switchConfig = switchConfigInit
  pktBufFt : ∀ k, t.lookup s.pktBufFt k = none
  lists : ∀ i, s.lists i = {}
  ringToSdn : s.ringToSdn = []
  dir : (∀ k, t.lookup s.dir.hash k = none) ∧ (∀ i, s.dir.data i = {}) ∧
    (∀ c, s.dir.chains c = none) ∧ ∀ p, s.dir.keys p = false
  io : s.io = .poll
  hand : s.hand = none
  trace : s.trace = { made := [helloMsg] }

end Switch

/-- The switch with its two threads and any controller. -/
def switch {η : Type} (t : RteHash η) (rss : RteThash) (junk : Nat → Byte) :
    TransSys (Switch η) where
  Init := Switch.Init t
  Next s s' := ∃ e, s.step t rss junk e = some s'

variable {η : Type} {t : RteHash η} {rss : RteThash} {junk : Nat → Byte}

/-- The operations one after the other, as long as the process lives. -/
def Switch.run (t : RteHash η) (rss : RteThash) (junk : Nat → Byte) (s : Switch η)
    (es : List Switch.Event) : Option (Switch η) :=
  es.foldlM (Switch.step t rss junk) s

theorem Switch.run_reachable {s s' : Switch η} {es : List Switch.Event}
    (hs : (switch t rss junk).Reachable s) (h : s.run t rss junk es = some s') :
    (switch t rss junk).Reachable s' := by
  induction es generalizing s with
  | nil =>
    cases h
    exact hs
  | cons e es ih =>
    obtain ⟨s₁, hs₁, h⟩ := Option.bind_eq_some_iff.mp h
    exact ih (hs.step ⟨e, hs₁⟩) h

/-! ## A switch that has just connected -/

def newBuf (bufsize : Nat) (h : 8 ≤ bufsize ∧ bufsize < 2 ^ 31) : Msgbuf :=
  Msgbuf.msgbufNew (List.replicate bufsize 0)
    ((by omega : 0 < bufsize).trans_eq (List.length_replicate ..).symm)
    ((List.length_replicate ..).trans_lt h.2)

theorem hello_fits (bufsize : Nat) (h : 8 ≤ bufsize ∧ bufsize < 2 ^ 31) :
    (newBuf bufsize h).stop + helloMsg.length ≤ (newBuf bufsize h).len := by
  have hlen : (newBuf bufsize h).len = bufsize := List.length_replicate ..
  have hhello : (newBuf bufsize h).stop + helloMsg.length = 8 := rfl
  omega

/-- The switch after `datapath_init`, with the identifier 1. -/
def Switch.boot (hash : η) (bufsize : Nat) (h : 8 ≤ bufsize ∧ bufsize < 2 ^ 31) : Switch η where
  id := 1
  inbuf := newBuf bufsize h
  outbuf := (newBuf bufsize h).store helloMsg (hello_fits bufsize h)
  xid := 1
  switchStatus := .start
  switchConfig := switchConfigInit
  pktBufFt := hash
  lists _ := {}
  ringToSdn := []
  dir := FlowDir.empty hash (fun _ => none) fun _ => false
  defDestination := 2
  io := .poll
  hand := none
  trace := { made := [helloMsg] }

theorem Switch.boot_init {hash : η} (bufsize : Nat) (h : 8 ≤ bufsize ∧ bufsize < 2 ^ 31)
    (hnew : ∀ k, t.lookup hash k = none) : (Switch.boot hash bufsize h).Init t where
  id := rfl
  inbuf := rfl
  outbuf := Msgbuf.bytes_store (newBuf bufsize h) helloMsg (hello_fits bufsize h)
  switchStatus := rfl
  switchConfig := rfl
  pktBufFt := hnew
  lists _ := rfl
  ringToSdn := rfl
  dir := ⟨hnew, fun _ => rfl, fun _ => rfl, fun _ => rfl⟩
  io := rfl
  hand := rfl
  trace := rfl

/-- A table that keeps its keys in a list, and buffers of 256 bytes. -/
def Switch.connected : Switch (List (Option HashKey)) := Switch.boot [] 256 (by decide)

/-- What happens to it, with memory that is cleared. -/
def Switch.after (es : List Switch.Event) : Option (Switch (List (Option HashKey))) :=
  Switch.connected.run FlowDir.slotHash FlowDir.constThash (fun _ => 0) es

theorem Switch.after_reachable {s : Switch (List (Option HashKey))} {es : List Switch.Event}
    (h : Switch.after es = some s) :
    (switch FlowDir.slotHash FlowDir.constThash fun _ => 0).Reachable s :=
  Switch.run_reachable (.init (Switch.boot_init 256 (by decide) fun _ => rfl)) h

def helloEcho : List Byte := helloMsg ++ headerReply .echoRequest [0, 0, 0, 9]

/-- An Ethernet frame with an IPv4 header of 20 bytes, for UDP, and zeros else. -/
def datagram : SdnPkt where
  mbuf := { data := List.replicate 12 0 ++ [0x08, 0, 0x45] ++ List.replicate 8 0 ++ [17] ++
    List.replicate 106 0 }
  pktMeta := {}
  room := []
  header_fits := by decide +kernel

end Onvm.Sdn

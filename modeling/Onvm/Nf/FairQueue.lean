import Onvm.Lib.SlotRing
import Onvm.Lib.TransSys
import Onvm.Nflib.FlowTable
import Onvm.Pkt.Plane

/-!
# The fair queue

The NF of `fair_queue.c` and `fair_queue_helper.h`: one thread puts packets into queues by
their flows, another takes them out of the queues in turn. Each queue is a ring of slots with
a spinlock, and the second thread looks at the slots before it takes the lock. `step` is what
one thread does between two points where the other can see it. A packet that finds its queue
full is dropped, and the lock is not given back.
-/

namespace Onvm.Nf

open Onvm.Lib Onvm.Nflib Onvm.Pkt

structure NfPkt where
  mbuf : RteMbuf
  pktMeta : OnvmPktMeta := {}

def NfPkt.withAction (pkt : NfPkt) (action destination : Nat) : NfPkt :=
  { pkt with pktMeta := { pkt.pktMeta with action := action, destination := destination } }

def queueSize : Nat := 16384

def pktReadSize : Nat := 32

/-- `struct fairqueue_queue`, without what the display keeps. -/
structure FairqueueQueue where
  head : Nat := 0
  tail : Nat := 0
  pkts : Nat → Option NfPkt := fun _ => none
  lock : Bool := false
  rx : Nat := 0
  tx : Nat := 0
  rxDrop : Nat := 0

/-- Where the thread of `rx_loop` is: it has no packet, waits for the lock of a queue, has the
lock, or has stored its packet. -/
inductive RxPc where
  | idle
  | want (q : Nat) (pkt : NfPkt)
  | locked (q : Nat) (pkt : NfPkt)
  | stored (q : Nat)

/-- Where the thread of `tx_loop` is: outside of `fairqueue_dequeue`, in the loop of
`get_dequeue_qid`, or waiting for the lock of a queue. -/
inductive TxPc where
  | idle
  | scan (start : Nat)
  | want (q : Nat)

structure FqTrace where
  /-- The packets that were given to `fairqueue_enqueue`. -/
  arrived : List NfPkt := []
  /-- Those that were taken out of a queue. -/
  forwarded : List (Nat × NfPkt) := []
  /-- Those that were refused, with the queue that was full. -/
  dropped : List (Option Nat × NfPkt) := []
  /-- The packets in batches for the tx ring, and whether it had room for them. -/
  txDone : List (NfPkt × Bool) := []
  rxDone : List (NfPkt × Bool) := []

structure FairQueue where
  fq : Nat → FairqueueQueue
  /-- The `qid` of `get_dequeue_qid`, which is static. -/
  qid : Nat
  rxPc : RxPc
  txPc : TxPc
  pktsDrop : List NfPkt
  pktsTX : List NfPkt
  trace : FqTrace

namespace FairQueue

-- `rte_hash_crc_4byte`, the number of queues and the destination
variable (crc : BitVec 32 → BitVec 32 → BitVec 32) (numQueues destination : Nat)

/-- `get_enqueue_qid`: no result without queues, and no queue for other than IPv4. -/
def getEnqueueQid (pkt : RteMbuf) : Option (Option Nat) := do
  match ← pkt.onvmFtFillKey with
  | .error _ => some none
  | .ok key =>
    let hash := crc (key.proto.setWidth 32) (BitVec.ofNat 32 numQueues)
    let hash := crc key.srcAddr hash
    let hash := crc key.dstAddr hash
    let hash := crc (key.srcPort.setWidth 32) hash
    let hash := crc (key.dstPort.setWidth 32) hash
    if numQueues = 0 then none else some (some (hash.toNat % numQueues))

def setQueue (s : FairQueue) (q : Nat) (queue : FairqueueQueue) : FairQueue :=
  { s with fq := Function.update s.fq q queue }

/-! ## The thread that fills the queues -/

/-- A packet that was refused goes into the batch, and a full batch to the tx ring. -/
def drop (s : FairQueue) (q : Option Nat) (pkt : NfPkt) (room : Bool) : FairQueue :=
  let pkt := pkt.withAction actionDrop destination
  let batch := s.pktsDrop ++ [pkt]
  let full := batch.length = 32
  { s with
    pktsDrop := if full then [] else batch
    trace := { s.trace with
      dropped := s.trace.dropped ++ [(q, pkt)]
      rxDone := s.trace.rxDone ++ if full then batch.map (·, room) else [] } }

def arrive (s : FairQueue) (pkt : NfPkt) : FairQueue :=
  { s with trace := { s.trace with arrived := s.trace.arrived ++ [pkt] } }

def recv (s : FairQueue) (pkt : NfPkt) (room : Bool) : Option FairQueue :=
  match s.rxPc, getEnqueueQid crc numQueues pkt.mbuf with
  | .idle, some none => some ((s.arrive pkt).drop destination none pkt room)
  | .idle, some (some q) => some { s.arrive pkt with rxPc := .want q pkt }
  | _, _ => none

/-- `rte_spinlock_lock` in `fairqueue_enqueue`. -/
def rxLock (s : FairQueue) : Option FairQueue :=
  match s.rxPc with
  | .want q pkt =>
    if (s.fq q).lock then none
    else some { s.setQueue q { s.fq q with lock := true } with rxPc := .locked q pkt }
  | _ => none

/-- The test for a full queue. The lock is not given back when it succeeds. -/
def rxStore (s : FairQueue) (room : Bool) : Option FairQueue :=
  match s.rxPc with
  | .locked q pkt =>
    let f := s.fq q
    if f.head = f.tail ∧ (f.pkts f.head).isSome then
      some (({ s.setQueue q { f with rxDrop := f.rxDrop + 1 } with rxPc := .idle } : FairQueue).drop
        destination (some q) pkt room)
    else
      some { s.setQueue q { f with pkts := Function.update f.pkts f.tail (some pkt) } with
        rxPc := .stored q }
  | _ => none

def rxUnlock (s : FairQueue) : Option FairQueue :=
  match s.rxPc with
  | .stored q =>
    let f := s.fq q
    some { s.setQueue q { f with
        tail := (f.tail + 1) % queueSize, lock := false, rx := f.rx + 1 } with
      rxPc := .idle }
  | _ => none

/-! ## The thread that empties them -/

def txStart (s : FairQueue) : Option FairQueue :=
  match s.txPc with
  | .idle => some { s with txPc := .scan s.qid }
  | _ => none

def txLook (s : FairQueue) : Option FairQueue :=
  match s.txPc with
  | .scan start =>
    if numQueues = 0 then none
    else
      let f := s.fq s.qid
      let next := (s.qid + 1) % numQueues
      if (f.pkts f.head).isSome then some { s with qid := next, txPc := .want s.qid }
      else some { s with qid := next, txPc := if next = start then .idle else .scan start }
  | _ => none

def forward (s : FairQueue) (q : Nat) (pkt : NfPkt) (room : Bool) : FairQueue :=
  let pkt := pkt.withAction actionTonf destination
  let batch := s.pktsTX ++ [pkt]
  let full := batch.length = pktReadSize
  { s with
    pktsTX := if full then [] else batch
    trace := { s.trace with
      forwarded := s.trace.forwarded ++ [(q, pkt)]
      txDone := s.trace.txDone ++ if full then batch.map (·, room) else [] } }

/-- The rest of `fairqueue_dequeue`, and of the round of `tx_loop`. -/
def txDequeue (s : FairQueue) (room : Bool) : Option FairQueue :=
  match s.txPc with
  | .want q =>
    let f := s.fq q
    if f.lock then none
    else
      let s' : FairQueue := { s.setQueue q { f with
          pkts := Function.update f.pkts f.head none
          head := (f.head + 1) % queueSize
          tx := f.tx + 1 } with
        txPc := .idle }
      match f.pkts f.head with
      | none => some s'
      | some pkt => some (s'.forward destination q pkt room)
  | _ => none

/-! ## Runs -/

/-- One operation of one of the threads; `room` says whether the tx ring has room for a
batch. -/
inductive Event where
  | recv (pkt : NfPkt) (room : Bool)
  | rxLock
  | rxStore (room : Bool)
  | rxUnlock
  | txStart
  | txLook
  | txDequeue (room : Bool)

def step (s : FairQueue) : Event → Option FairQueue
  | .recv pkt room => s.recv crc numQueues destination pkt room
  | .rxLock => s.rxLock
  | .rxStore room => s.rxStore destination room
  | .rxUnlock => s.rxUnlock
  | .txStart => s.txStart
  | .txLook => s.txLook numQueues
  | .txDequeue room => s.txDequeue destination room

/-- After `setup_fairqueue`. The slots are taken to be NULL, as the code does, which does not
clear what `rte_malloc` gives it. -/
def setupFairqueue : FairQueue where
  fq _ := {}
  qid := 0
  rxPc := .idle
  txPc := .idle
  pktsDrop := []
  pktsTX := []
  trace := {}

end FairQueue

def fairQueue (crc : BitVec 32 → BitVec 32 → BitVec 32) (numQueues destination : Nat) :
    TransSys FairQueue where
  Init s := s = .setupFairqueue
  Next s s' := ∃ e, s.step crc numQueues destination e = some s'

namespace FairQueue

variable {crc : BitVec 32 → BitVec 32 → BitVec 32} {numQueues destination : Nat}
  {test : FairQueue → Bool} {s s' : FairQueue} {es : List Event}

/-- The operations one after the other, as long as the test succeeds before each. -/
def run (crc : BitVec 32 → BitVec 32 → BitVec 32) (numQueues destination : Nat)
    (test : FairQueue → Bool) (s : FairQueue) (es : List Event) : Option FairQueue :=
  es.foldlM (fun s e => if test s then s.step crc numQueues destination e else none) s

theorem run_steps (h : s.run crc numQueues destination test es = some s') :
    Relation.ReflTransGen (fun s s' => (fairQueue crc numQueues destination).Next s s' ∧
      test s = true) s s' := by
  induction es generalizing s with
  | nil =>
    cases h
    exact .refl
  | cons e es ih =>
    obtain ⟨s₁, hs₁, h⟩ := Option.bind_eq_some_iff.mp h
    simp only at hs₁
    split at hs₁
    · rename_i htest
      exact .head ⟨⟨e, hs₁⟩, htest⟩ (ih h)
    · cases hs₁

theorem run_reachable (hs : (fairQueue crc numQueues destination).Reachable s)
    (h : s.run crc numQueues destination test es = some s') :
    (fairQueue crc numQueues destination).Reachable s' := by
  have hsteps := run_steps h
  clear h
  induction hsteps with
  | refl => exact hs
  | tail _ hnext ih => exact ih.step hnext.1

def put (pkt : NfPkt) : List Event := [.recv pkt true, .rxLock, .rxStore true, .rxUnlock]

/-- A packet is taken out of the queue whose turn it is. -/
def take : List Event := [.txStart, .txLook, .txDequeue true]

end FairQueue

end Onvm.Nf

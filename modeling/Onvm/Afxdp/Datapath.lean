import Onvm.Afxdp.Umem
import Onvm.Lib.TransSys

/-!
# The AF_XDP datapath, one ring operation at a time

`afxdp_handle_receive` and the `afxdp_complete_tx` it calls run against a
kernel that moves on its own. The model is a transition system: `Pc` names the
ring operation the receive thread performs next, `Locals` holds the C
variables of the two functions, and `ustep` performs one operation. `KStep` is
everything the kernel may do to the four rings, and it may do it between any
two operations of the thread.

What the kernel does is assumed: it consumes the Fill and TX rings in order,
never over-fills the RX and Completion rings, drops Fill addresses outside the
UMEM, publishes a frame it took from the Fill ring at most once on RX with an
address inside that frame, and completes a TX descriptor it took at most once.
It may hold frames on either side for as long as it likes and finish them in
any order.

`calls` is a history variable: what each call read, submitted, freed and
reclaimed, as found in the ring slots themselves. No step reads it.
-/

namespace Onvm.Afxdp

open Onvm.Lib

/-- The ring operation the receive thread performs next. -/
inductive Pc where
  /-- Between two calls of `afxdp_handle_receive`. -/
  | idle
  | peekCq
  | reclaim
  | releaseCq
  | peekRx
  | fillNbFree
  | fillReserve
  | fillWrite
  | fillSubmit
  | txNbFree
  | txReserve
  | txReadAddr
  | txReadLen
  | txWriteAddr
  | txWriteLen
  | txSubmit
  | dropReadAddr
  | dropReadLen
  | releaseRx
  /-- The `assert` of `afxdp_free_umem_frame` failed. -/
  | abort
  deriving DecidableEq, Repr

/-- The local variables of `afxdp_handle_receive` and `afxdp_complete_tx`. -/
structure Locals where
  rcvd : Nat := 0
  stockFrames : Nat := 0
  i : Nat := 0
  idxRx : BitVec 32 := 0
  idxFq : BitVec 32 := 0
  idxTx : BitVec 32 := 0
  toTx : Nat := 0
  addr : Nat := 0
  len : Nat := 0
  completed : Nat := 0
  idxCq : BitVec 32 := 0

/-- What one call of `afxdp_handle_receive` did. -/
structure CallRecord where
  /-- The Completion-ring entries it released. -/
  reclaimed : List Nat := []
  /-- The RX descriptors it released. -/
  batch : List XdpDesc := []
  /-- The free TX slots when it asked for them. -/
  txFree : Nat := 0
  /-- The descriptors it published on the TX ring. -/
  submitted : List XdpDesc := []
  /-- The addresses it freed instead. -/
  freed : List Nat := []
  deriving DecidableEq, Repr

/-- The frames the kernel holds: addresses taken from the Fill ring and not yet
published on RX, addresses taken from the TX ring and not yet completed. -/
structure Kernel where
  rxHeld : List Nat := []
  txHeld : List Nat := []

/-- An address from the Fill ring; one outside the UMEM is dropped. -/
def Kernel.takeFill (k : Kernel) (addr : Nat) : Kernel :=
  if InUmem addr then { k with rxHeld := addr :: k.rxHeld } else k

structure Datapath where
  fq : Ring Nat afxdpFillRingSize
  cq : Ring Nat afxdpCompRingSize
  rx : Ring XdpDesc afxdpRxRingSize
  tx : Ring XdpDesc afxdpTxRingSize
  xsk : AfxdpSocketInfo
  kern : Kernel
  pc : Pc
  loc : Locals
  cur : CallRecord
  calls : List CallRecord

/-! ## Socket set-up -/

def fillFrames : Nat → BitVec 32 → Ring Nat afxdpFillRingSize → AfxdpSocketInfo →
    Ring Nat afxdpFillRingSize × AfxdpSocketInfo
  | 0, _, fq, xsk => (fq, xsk)
  | n + 1, idx, fq, xsk =>
    let a := afxdpAllocUmemFrame xsk
    fillFrames n (idx + 1) (fq.set idx a.1) a.2

def afxdpInitFreeList : AfxdpSocketInfo where
  umemFrameAddr i := i * afxdpFrameSize
  umemFrameFree := afxdpNumFrames
  outstandingTx := 0
  stats := ⟨0, 0, 0, 0⟩

/-- `afxdp_configure_socket` from the free-list set-up on: every frame is free,
then the Fill ring is populated. `none` when its slots cannot be reserved. -/
def afxdpConfigureSocket (fq : Ring Nat afxdpFillRingSize) :
    Option (Ring Nat afxdpFillRingSize × AfxdpSocketInfo) :=
  let r := fq.reserve afxdpFillRingSize 0
  if r.1 ≠ afxdpFillRingSize then none
  else
    let f := fillFrames afxdpFillRingSize r.2.1 r.2.2 afxdpInitFreeList
    some (f.1.submit afxdpFillRingSize, f.2)

def FreshProd {α : Type} {n : Nat} (r : Ring α n) : Prop :=
  r.producer = r.consumer ∧ r.cachedProd = r.producer ∧
    r.cachedCons = r.consumer + BitVec.ofNat 32 n

/-- A consumer ring as the library hands it out: empty, at any index. -/
def FreshCons {α : Type} {n : Nat} (r : Ring α n) : Prop :=
  r.producer = r.consumer ∧ r.cachedProd = r.consumer ∧ r.cachedCons = r.consumer

/-- The state at the end of `afxdp_configure_socket`. -/
def Datapath.Init (s : Datapath) : Prop :=
  (∃ fq, FreshProd fq ∧ afxdpConfigureSocket fq = some (s.fq, s.xsk)) ∧
    FreshCons s.cq ∧ FreshCons s.rx ∧ FreshProd s.tx ∧
    s.kern = {} ∧ s.pc = .idle ∧ s.calls = []

/-! ## The receive thread -/

namespace Datapath

def ret (s : Datapath) : Datapath := { s with pc := .idle, calls := s.calls ++ [s.cur] }

/-- Step 5 once no packet of the batch is left, else the drop loop. -/
def dropOrRelease (s : Datapath) : Datapath :=
  { s with pc := if s.loc.i < s.loc.rcvd then .dropReadAddr else .releaseRx }

/-- `xsk->outstanding_tx -= (completed < outstanding_tx) ? completed : outstanding_tx` -/
def subOutstanding (outstanding : BitVec 32) (completed : Nat) : BitVec 32 :=
  outstanding - (if completed < outstanding.toNat then BitVec.ofNat 32 completed else outstanding)

/-- One operation of the receive thread; `none` once it has aborted. -/
def ustep (s : Datapath) : Option Datapath :=
  match s.pc with
  -- Step 1 is `afxdp_complete_tx`, which returns at once with nothing outstanding.
  | .idle => some { s with
      pc := if s.xsk.outstandingTx = 0 then .peekRx else .peekCq
      loc := {}
      cur := {} }
  | .peekCq =>
    let p := s.cq.peek afxdpCompRingSize s.loc.idxCq
    some { s with
      cq := p.2.2
      loc := { s.loc with completed := p.1, idxCq := p.2.1, i := 0 }
      pc := if 0 < p.1 then .reclaim else .peekRx }
  | .reclaim =>
    match afxdpFreeUmemFrame s.xsk (s.cq.get s.loc.idxCq) with
    | none => some { s with pc := .abort }
    | some xsk => some { s with
        xsk := xsk
        loc := { s.loc with idxCq := s.loc.idxCq + 1, i := s.loc.i + 1 }
        pc := if s.loc.i + 1 < s.loc.completed then .reclaim else .releaseCq }
  | .releaseCq => some { s with
      cq := s.cq.release s.loc.completed
      xsk := { s.xsk with outstandingTx := subOutstanding s.xsk.outstandingTx s.loc.completed }
      cur := { s.cur with reclaimed := s.cq.seg s.cq.consumer s.loc.completed }
      pc := .peekRx }
  -- Step 2.
  | .peekRx =>
    let p := s.rx.peek afxdpRxBatchSize s.loc.idxRx
    let s' := { s with rx := p.2.2, loc := { s.loc with rcvd := p.1, idxRx := p.2.1 } }
    some (if 0 < p.1 then { s' with pc := .fillNbFree } else s'.ret)
  -- Step 3: refill the Fill ring.
  | .fillNbFree =>
    let f := s.fq.nbFree (afxdpUmemFreeFrames s.xsk)
    some { s with
      fq := f.2
      loc := { s.loc with stockFrames := f.1 }
      pc := if 0 < f.1 then .fillReserve else .txNbFree }
  | .fillReserve =>
    let r := s.fq.reserve s.loc.stockFrames s.loc.idxFq
    some { s with
      fq := r.2.2
      loc := { s.loc with idxFq := r.2.1, i := 0 }
      pc := if r.1 = s.loc.stockFrames then .fillWrite else .fillReserve }
  | .fillWrite =>
    let a := afxdpAllocUmemFrame s.xsk
    some { s with
      fq := s.fq.set s.loc.idxFq a.1
      xsk := a.2
      loc := { s.loc with idxFq := s.loc.idxFq + 1, i := s.loc.i + 1 }
      pc := if s.loc.i + 1 < s.loc.stockFrames then .fillWrite else .fillSubmit }
  | .fillSubmit => some { s with fq := s.fq.submit s.loc.stockFrames, pc := .txNbFree }
  -- Step 4: batch TX.
  | .txNbFree =>
    let f := s.tx.nbFree s.loc.rcvd
    let toTx := if f.1 < s.loc.rcvd then f.1 else s.loc.rcvd
    let s' := { s with
      tx := f.2
      loc := { s.loc with toTx := toTx, i := 0 }
      cur := { s.cur with txFree := afxdpTxRingSize - s.tx.entries.length } }
    some (if 0 < toTx then { s' with pc := .txReserve } else s'.dropOrRelease)
  | .txReserve =>
    let r := s.tx.reserve s.loc.toTx s.loc.idxTx
    some { s with tx := r.2.2, loc := { s.loc with idxTx := r.2.1, i := 0 }, pc := .txReadAddr }
  | .txReadAddr => some { s with
      loc := { s.loc with addr := (s.rx.get s.loc.idxRx).addr }
      pc := .txReadLen }
  | .txReadLen => some { s with
      loc := { s.loc with len := (s.rx.get s.loc.idxRx).len, idxRx := s.loc.idxRx + 1 }
      pc := .txWriteAddr }
  | .txWriteAddr => some { s with
      tx := s.tx.set s.loc.idxTx { s.tx.get s.loc.idxTx with addr := s.loc.addr }
      pc := .txWriteLen }
  | .txWriteLen =>
    let st := s.xsk.stats
    some { s with
      tx := s.tx.set s.loc.idxTx { s.tx.get s.loc.idxTx with len := s.loc.len }
      xsk := { s.xsk with stats := { st with
        rxBytes := st.rxBytes + BitVec.ofNat 64 s.loc.len
        txBytes := st.txBytes + BitVec.ofNat 64 s.loc.len
        txPackets := st.txPackets + 1 } }
      loc := { s.loc with idxTx := s.loc.idxTx + 1, i := s.loc.i + 1 }
      pc := if s.loc.i + 1 < s.loc.toTx then .txReadAddr else .txSubmit }
  | .txSubmit =>
    some { s with
      tx := s.tx.submit s.loc.toTx
      xsk := { s.xsk with outstandingTx := s.xsk.outstandingTx + BitVec.ofNat 32 s.loc.toTx }
      loc := { s.loc with i := s.loc.toTx }
      cur := { s.cur with submitted := s.tx.seg s.tx.producer s.loc.toTx } }.dropOrRelease
  -- The packets that found no TX slot.
  | .dropReadAddr => some { s with
      loc := { s.loc with addr := (s.rx.get s.loc.idxRx).addr }
      pc := .dropReadLen }
  | .dropReadLen =>
    match afxdpFreeUmemFrame s.xsk s.loc.addr with
    | none => some { s with pc := .abort }
    | some xsk =>
      let len := (s.rx.get s.loc.idxRx).len
      some { s with
        xsk := { xsk with stats := { xsk.stats with
          rxBytes := xsk.stats.rxBytes + BitVec.ofNat 64 len } }
        loc := { s.loc with len := len, idxRx := s.loc.idxRx + 1, i := s.loc.i + 1 }
        cur := { s.cur with freed := s.cur.freed ++ [s.loc.addr] } }.dropOrRelease
  -- Step 5.
  | .releaseRx =>
    let st := s.xsk.stats
    some { s with
      rx := s.rx.release s.loc.rcvd
      xsk := { s.xsk with stats := { st with
        rxPackets := st.rxPackets + BitVec.ofNat 64 s.loc.rcvd } }
      cur := { s.cur with batch := s.rx.seg s.rx.consumer s.loc.rcvd } }.ret
  | .abort => none

end Datapath

/-! ## The kernel -/

inductive KStep : Datapath → Datapath → Prop where
  /-- Take the oldest Fill entry. -/
  | takeFill {s : Datapath} : s.fq.entries ≠ [] →
      KStep s { s with
        fq := s.fq.otherConsume
        kern := s.kern.takeFill (s.fq.get s.fq.consumer) }
  /-- Publish a held frame on RX, at any address inside it. -/
  | publishRx {s : Datapath} {l l' : List Nat} {a : Nat} {d : XdpDesc} :
      s.kern.rxHeld = l ++ a :: l' → frameOf d.addr = frameOf a →
      s.rx.entries.length < afxdpRxRingSize →
      KStep s { s with
        rx := s.rx.otherProduce d
        kern := { s.kern with rxHeld := l ++ l' } }
  /-- Take the oldest TX descriptor. -/
  | takeTx {s : Datapath} : s.tx.entries ≠ [] →
      KStep s { s with
        tx := s.tx.otherConsume
        kern := { s.kern with txHeld := (s.tx.get s.tx.consumer).addr :: s.kern.txHeld } }
  /-- Complete a held descriptor. -/
  | completeTx {s : Datapath} {l l' : List Nat} {a : Nat} :
      s.kern.txHeld = l ++ a :: l' → s.cq.entries.length < afxdpCompRingSize →
      KStep s { s with
        cq := s.cq.otherProduce a
        kern := { s.kern with txHeld := l ++ l' } }

def datapath : TransSys Datapath where
  Init := Datapath.Init
  Next s s' := s.ustep = some s' ∨ KStep s s'

/-- The kernel reserves a Completion slot for every descriptor it holds. -/
def CompBound (s : Datapath) : Prop :=
  s.kern.txHeld.length + s.cq.entries.length ≤ afxdpCompRingSize

end Onvm.Afxdp

import Onvm.Afxdp.Datapath

/-!
# The datapath as lists

`Flow` is the datapath without indices, slots and local variables: every ring
is the list of its entries, split where the running call has got to. Its steps
say all a step of the datapath can do; the invariants of the datapath are
proved here and carried over in `Refine`.
-/

namespace Onvm.Afxdp

open Onvm.Lib

structure Flow where
  pc : Pc
  /-- The free list, top of the stack first. -/
  free : List Nat
  /-- Fill ring: published, written but not submitted, slots reserved, slots known free. -/
  fillPub : List Nat
  fillWr : List Nat
  fillRes : Nat
  fillFree : Nat
  rxHeld : List Nat
  /-- RX ring: peeked and dealt with, peeked and still to do, published behind them. -/
  rxDone : List XdpDesc
  rxTodo : List XdpDesc
  rxAv : List XdpDesc
  /-- TX ring, split as the Fill ring is. -/
  txPub : List XdpDesc
  txWr : List XdpDesc
  txRes : Nat
  txFree : Nat
  txHeld : List Nat
  /-- Completion ring, split as the RX ring is. -/
  cqDone : List Nat
  cqTodo : List Nat
  cqAv : List Nat
  toTx : Nat
  outstandingTx : BitVec 32
  stats : AfxdpStatsRecord
  cur : CallRecord
  calls : List CallRecord

namespace Flow

/-- What `xsk_prod_nb_free` answers on a ring of `size` slots. -/
def nbFree (size pub free nb : Nat) : Nat := if nb ≤ free then free else size - pub

/-- The drop loop, or the end of the call once the batch is done. -/
def dropPc (todo : List XdpDesc) : Pc := if todo = [] then .releaseRx else .dropReadAddr

def bounceStats (st : AfxdpStatsRecord) (len : Nat) : AfxdpStatsRecord :=
  { st with
    rxBytes := st.rxBytes + BitVec.ofNat 64 len
    txBytes := st.txBytes + BitVec.ofNat 64 len
    txPackets := st.txPackets + 1 }

inductive Thread : Flow → Flow → Prop where
  | enter {a : Flow} : a.pc = .idle →
      Thread a { a with pc := if a.outstandingTx = 0 then .peekRx else .peekCq, cur := {} }
  | peekCq {a : Flow} (n : Nat) : a.pc = .peekCq → n ≤ a.cqAv.length →
      (n = 0 → a.cqAv = []) →
      Thread a { a with
        cqTodo := a.cqAv.take n
        cqAv := a.cqAv.drop n
        pc := if 0 < n then .reclaim else .peekRx }
  | reclaim {a : Flow} (x : Nat) (l : List Nat) : a.pc = .reclaim → a.cqTodo = x :: l →
      a.free.length < afxdpNumFrames →
      Thread a { a with
        free := x :: a.free
        cqDone := a.cqDone ++ [x]
        cqTodo := l
        pc := if l = [] then .releaseCq else .reclaim }
  | reclaimAbort {a : Flow} : a.pc = .reclaim → a.cqTodo ≠ [] →
      ¬ a.free.length < afxdpNumFrames → Thread a { a with pc := .abort }
  | releaseCq {a : Flow} : a.pc = .releaseCq →
      Thread a { a with
        cqDone := []
        outstandingTx := Datapath.subOutstanding a.outstandingTx a.cqDone.length
        cur := { a.cur with reclaimed := a.cqDone }
        pc := .peekRx }
  | peekRxNone {a : Flow} : a.pc = .peekRx → a.rxAv = [] →
      Thread a { a with pc := .idle, calls := a.calls ++ [a.cur] }
  | peekRx {a : Flow} (n : Nat) : a.pc = .peekRx → 0 < n → n ≤ a.rxAv.length →
      n ≤ afxdpRxBatchSize →
      Thread a { a with
        rxTodo := a.rxAv.take n
        rxAv := a.rxAv.drop n
        pc := .fillNbFree }
  | fillNbFree {a : Flow} (n : Nat) : a.pc = .fillNbFree →
      n = nbFree afxdpFillRingSize a.fillPub.length a.fillFree a.free.length →
      Thread a { a with fillFree := n, pc := if 0 < n then .fillReserve else .txNbFree }
  | fillReserve {a : Flow} : a.pc = .fillReserve →
      Thread a { a with fillRes := a.fillFree, fillFree := 0, pc := .fillWrite }
  | fillWrite {a : Flow} (x : Nat) (l : List Nat) : a.pc = .fillWrite → a.free = x :: l →
      Thread a { a with
        free := l
        fillWr := a.fillWr ++ [x]
        pc := if a.fillWr.length + 1 < a.fillRes then .fillWrite else .fillSubmit }
  | fillSentinel {a : Flow} : a.pc = .fillWrite → a.free = [] →
      Thread a { a with
        fillWr := a.fillWr ++ [afxdpInvalidUmemFrame]
        pc := if a.fillWr.length + 1 < a.fillRes then .fillWrite else .fillSubmit }
  | fillSubmit {a : Flow} : a.pc = .fillSubmit →
      Thread a { a with
        fillPub := a.fillPub ++ a.fillWr
        fillWr := []
        fillRes := 0
        pc := .txNbFree }
  | txNbFree {a : Flow} (n : Nat) : a.pc = .txNbFree →
      n = nbFree afxdpTxRingSize a.txPub.length a.txFree a.rxTodo.length →
      Thread a { a with
        txFree := n
        toTx := min n a.rxTodo.length
        cur := { a.cur with txFree := afxdpTxRingSize - a.txPub.length }
        pc := if 0 < min n a.rxTodo.length then .txReserve else .dropReadAddr }
  | txReserve {a : Flow} : a.pc = .txReserve →
      Thread a { a with txRes := a.toTx, txFree := a.txFree - a.toTx, pc := .txReadAddr }
  | txReadAddr {a : Flow} : a.pc = .txReadAddr → Thread a { a with pc := .txReadLen }
  | txReadLen {a : Flow} : a.pc = .txReadLen → Thread a { a with pc := .txWriteAddr }
  | txWriteAddr {a : Flow} : a.pc = .txWriteAddr → Thread a { a with pc := .txWriteLen }
  | txWriteLen {a : Flow} (d : XdpDesc) (l : List XdpDesc) : a.pc = .txWriteLen →
      a.rxTodo = d :: l →
      Thread a { a with
        txWr := a.txWr ++ [d]
        rxDone := a.rxDone ++ [d]
        rxTodo := l
        stats := bounceStats a.stats d.len
        pc := if a.txWr.length + 1 < a.txRes then .txReadAddr else .txSubmit }
  | txSubmit {a : Flow} : a.pc = .txSubmit →
      Thread a { a with
        txPub := a.txPub ++ a.txWr
        txWr := []
        txRes := 0
        outstandingTx := a.outstandingTx + BitVec.ofNat 32 a.txWr.length
        cur := { a.cur with submitted := a.txWr }
        pc := dropPc a.rxTodo }
  | dropReadAddr {a : Flow} : a.pc = .dropReadAddr → Thread a { a with pc := .dropReadLen }
  | drop {a : Flow} (d : XdpDesc) (l : List XdpDesc) : a.pc = .dropReadLen → a.rxTodo = d :: l →
      a.free.length < afxdpNumFrames →
      Thread a { a with
        free := d.addr :: a.free
        rxDone := a.rxDone ++ [d]
        rxTodo := l
        stats := { a.stats with rxBytes := a.stats.rxBytes + BitVec.ofNat 64 d.len }
        cur := { a.cur with freed := a.cur.freed ++ [d.addr] }
        pc := dropPc l }
  | dropAbort {a : Flow} : a.pc = .dropReadLen → a.rxTodo ≠ [] →
      ¬ a.free.length < afxdpNumFrames → Thread a { a with pc := .abort }
  | releaseRx {a : Flow} : a.pc = .releaseRx →
      Thread a { a with
        rxDone := []
        stats := { a.stats with
          rxPackets := a.stats.rxPackets + BitVec.ofNat 64 a.rxDone.length }
        cur := { a.cur with batch := a.rxDone }
        calls := a.calls ++ [{ a.cur with batch := a.rxDone }]
        pc := .idle }

inductive Kernel : Flow → Flow → Prop where
  | takeFill {a : Flow} (x : Nat) (l : List Nat) : a.fillPub = x :: l → InUmem x →
      Kernel a { a with fillPub := l, rxHeld := x :: a.rxHeld }
  | dropFill {a : Flow} (x : Nat) (l : List Nat) : a.fillPub = x :: l → ¬ InUmem x →
      Kernel a { a with fillPub := l }
  | publishRx {a : Flow} (l l' : List Nat) (x : Nat) (d : XdpDesc) : a.rxHeld = l ++ x :: l' →
      frameOf d.addr = frameOf x →
      Kernel a { a with rxAv := a.rxAv ++ [d], rxHeld := l ++ l' }
  | takeTx {a : Flow} (d : XdpDesc) (l : List XdpDesc) : a.txPub = d :: l →
      Kernel a { a with txPub := l, txHeld := d.addr :: a.txHeld }
  | completeTx {a : Flow} (l l' : List Nat) (x : Nat) : a.txHeld = l ++ x :: l' →
      Kernel a { a with cqAv := a.cqAv ++ [x], txHeld := l ++ l' }

def Step (a a' : Flow) : Prop := Thread a a' ∨ Kernel a a'

/-! ## The phases of a call -/

def QuietFill (a : Flow) : Prop := a.fillWr = [] ∧ a.fillRes = 0 ∧ a.fillFree = 0

def QuietTx (a : Flow) : Prop := a.txWr = [] ∧ a.txRes = 0

def QuietCq (a : Flow) : Prop := a.cqDone = [] ∧ a.cqTodo = []

def Received (a : Flow) : Prop := a.rxDone = [] ∧ a.rxTodo ≠ [] ∧ a.rxTodo.length ≤ afxdpRxBatchSize

/-- Inside the bounce loop: what is written is what is done. -/
def Bouncing (a : Flow) : Prop :=
  a.txRes = a.toTx ∧ a.txWr = a.rxDone ∧ a.txWr.length < a.txRes ∧
    a.toTx ≤ a.rxDone.length + a.rxTodo.length

/-- How the lists are split at each point of a call. -/
def Shape (a : Flow) : Prop :=
  match a.pc with
  | .idle | .peekCq | .peekRx =>
    a.QuietCq ∧ a.QuietFill ∧ a.QuietTx ∧ a.rxDone = [] ∧ a.rxTodo = []
  | .reclaim => a.cqTodo ≠ [] ∧ a.QuietFill ∧ a.QuietTx ∧ a.rxDone = [] ∧ a.rxTodo = []
  | .releaseCq => a.cqTodo = [] ∧ a.QuietFill ∧ a.QuietTx ∧ a.rxDone = [] ∧ a.rxTodo = []
  | .fillNbFree | .txNbFree => a.QuietCq ∧ a.QuietFill ∧ a.QuietTx ∧ a.Received
  | .fillReserve =>
    a.QuietCq ∧ (a.fillWr = [] ∧ a.fillRes = 0 ∧ 0 < a.fillFree) ∧ a.QuietTx ∧ a.Received
  | .fillWrite =>
    a.QuietCq ∧ (a.fillWr.length < a.fillRes ∧ a.fillFree = 0) ∧ a.QuietTx ∧ a.Received
  | .fillSubmit =>
    a.QuietCq ∧ (a.fillWr.length = a.fillRes ∧ a.fillWr ≠ [] ∧ a.fillFree = 0) ∧ a.QuietTx ∧
      a.Received
  | .txReserve =>
    a.QuietCq ∧ a.QuietFill ∧ a.QuietTx ∧ a.Received ∧ 0 < a.toTx ∧ a.toTx ≤ a.txFree ∧
      a.toTx ≤ a.rxTodo.length
  | .txReadAddr | .txReadLen | .txWriteAddr | .txWriteLen => a.QuietCq ∧ a.QuietFill ∧ a.Bouncing
  | .txSubmit =>
    a.QuietCq ∧ a.QuietFill ∧ a.txRes = a.toTx ∧ a.txWr = a.rxDone ∧ a.txWr.length = a.txRes
  | .dropReadAddr | .dropReadLen => a.QuietCq ∧ a.QuietFill ∧ a.QuietTx ∧ a.rxTodo ≠ []
  | .releaseRx => a.QuietCq ∧ a.QuietFill ∧ a.QuietTx ∧ a.rxTodo = []
  | .abort => True

/-- The producer rings hold no more than their slots. -/
def Room (a : Flow) : Prop :=
  a.fillPub.length + a.fillRes + a.fillFree ≤ afxdpFillRingSize ∧
    a.txPub.length + a.txRes + a.txFree ≤ afxdpTxRingSize

def frames (l : List Nat) : List Nat := l.map frameOf

/-- The end of `afxdp_configure_socket`: the Fill ring is full, the other frames
are free, everything else is empty. -/
structure Init (a : Flow) : Prop where
  pc : a.pc = .idle
  fill : a.fillPub.length = afxdpFillRingSize
  frames : (frames (a.free ++ a.fillPub)).Perm (List.range afxdpNumFrames)
  rxHeld : a.rxHeld = []
  rxAv : a.rxAv = []
  txPub : a.txPub = []
  txFree : a.txFree ≤ afxdpTxRingSize
  txHeld : a.txHeld = []
  cqAv : a.cqAv = []
  outstandingTx : a.outstandingTx = 0
  stats : a.stats = ⟨0, 0, 0, 0⟩
  calls : a.calls = []
  shape : a.Shape

theorem Thread.shape {a a' : Flow} (h : Thread a a') (hs : a.Shape) : a'.Shape := by
  cases h with
  | enter hpc =>
    simp only [Shape, hpc] at hs
    by_cases h0 : a.outstandingTx = 0 <;> simp only [Shape, h0, if_true, if_false] <;> exact hs
  | peekCq n hpc hn h0 =>
    simp only [Shape, hpc] at hs
    obtain ⟨⟨hd, -⟩, hf, ht, hr⟩ := hs
    by_cases h0 : 0 < n
    · simp only [Shape, if_pos h0]
      refine ⟨?_, hf, ht, hr⟩
      intro he
      have := congrArg List.length he
      simp only [List.length_take, List.length_nil] at this
      omega
    · simp only [Shape, if_neg h0]
      have hz : n = 0 := by omega
      exact ⟨⟨hd, by simp [hz]⟩, hf, ht, hr⟩
  | reclaim x l hpc htodo hfree =>
    simp only [Shape, hpc] at hs
    by_cases h0 : l = [] <;> simp only [Shape, h0, if_true, if_false]
    · exact ⟨trivial, hs.2⟩
    · exact ⟨h0, hs.2⟩
  | reclaimAbort => trivial
  | releaseCq hpc =>
    simp only [Shape, hpc] at hs
    exact ⟨⟨rfl, hs.1⟩, hs.2⟩
  | peekRxNone hpc =>
    simp only [Shape, hpc] at hs
    exact hs
  | peekRx n hpc h0 hn hb =>
    simp only [Shape, hpc] at hs
    obtain ⟨hc, hf, ht, hd, -⟩ := hs
    have hlen : (a.rxAv.take n).length = n := by rw [List.length_take]; omega
    refine ⟨hc, hf, ht, hd, ?_, by simpa only [hlen] using hb⟩
    intro he
    simp only at he
    rw [he, List.length_nil] at hlen
    omega
  | fillNbFree n hpc hn =>
    simp only [Shape, hpc] at hs
    obtain ⟨hc, ⟨hw, hres, -⟩, ht, hr⟩ := hs
    by_cases h0 : 0 < n
    · simp only [Shape, if_pos h0]
      exact ⟨hc, ⟨hw, hres, h0⟩, ht, hr⟩
    · simp only [Shape, if_neg h0]
      exact ⟨hc, ⟨hw, hres, by simpa using h0⟩, ht, hr⟩
  | fillReserve hpc =>
    simp only [Shape, hpc] at hs
    obtain ⟨hc, ⟨hw, -, h0⟩, ht, hr⟩ := hs
    exact ⟨hc, ⟨by simpa only [hw, List.length_nil] using h0, rfl⟩, ht, hr⟩
  | fillWrite x l hpc | fillSentinel hpc =>
    simp only [Shape, hpc] at hs
    obtain ⟨hc, ⟨hw, h0⟩, ht, hr⟩ := hs
    by_cases hl : a.fillWr.length + 1 < a.fillRes
    · simp only [Shape, if_pos hl]
      exact ⟨hc, ⟨by simpa using hl, h0⟩, ht, hr⟩
    · simp only [Shape, if_neg hl]
      exact ⟨hc, ⟨by simp; omega, by simp, h0⟩, ht, hr⟩
  | fillSubmit hpc =>
    simp only [Shape, hpc] at hs
    obtain ⟨hc, ⟨-, -, h0⟩, ht, hr⟩ := hs
    exact ⟨hc, ⟨rfl, rfl, h0⟩, ht, hr⟩
  | txNbFree n hpc hn =>
    simp only [Shape, hpc] at hs
    obtain ⟨hc, hf, ht, hr⟩ := hs
    by_cases h0 : 0 < min n a.rxTodo.length
    · simp only [Shape, if_pos h0]
      exact ⟨hc, hf, ht, hr, h0, Nat.min_le_left _ _, Nat.min_le_right _ _⟩
    · simp only [Shape, if_neg h0]
      exact ⟨hc, hf, ht, hr.2.1⟩
  | txReserve hpc =>
    simp only [Shape, hpc] at hs
    obtain ⟨hc, hf, ht, hr, h0, h1, h2⟩ := hs
    refine ⟨hc, hf, rfl, ?_, ?_, ?_⟩
    · rw [ht.1, hr.1]
    · simpa only [ht.1, List.length_nil] using h0
    · simpa only [hr.1, List.length_nil, Nat.zero_add] using h2
  | txReadAddr hpc => simp only [Shape, hpc] at hs; exact hs
  | txReadLen hpc => simp only [Shape, hpc] at hs; exact hs
  | txWriteAddr hpc => simp only [Shape, hpc] at hs; exact hs
  | txWriteLen d l hpc htodo =>
    simp only [Shape, hpc] at hs
    obtain ⟨hc, hf, h1, h2, h3, h4⟩ := hs
    rw [htodo, List.length_cons] at h4
    by_cases hl : a.txWr.length + 1 < a.txRes
    · simp only [Shape, if_pos hl]
      exact ⟨hc, hf, h1, by simp only [h2], by simpa using hl, by simp; omega⟩
    · simp only [Shape, if_neg hl]
      exact ⟨hc, hf, h1, by simp only [h2], by simp; omega⟩
  | txSubmit hpc =>
    simp only [Shape, hpc] at hs
    obtain ⟨hc, hf, -⟩ := hs
    unfold dropPc
    by_cases h0 : a.rxTodo = [] <;> simp only [Shape, h0, if_true, if_false]
    · exact ⟨hc, hf, ⟨rfl, rfl⟩, trivial⟩
    · exact ⟨hc, hf, ⟨rfl, rfl⟩, h0⟩
  | dropReadAddr hpc => simp only [Shape, hpc] at hs; exact hs
  | drop d l hpc htodo hfree =>
    simp only [Shape, hpc] at hs
    obtain ⟨hc, hf, ht, -⟩ := hs
    unfold dropPc
    by_cases h0 : l = [] <;> simp only [Shape, h0, if_true, if_false]
    · exact ⟨hc, hf, ht, trivial⟩
    · exact ⟨hc, hf, ht, h0⟩
  | dropAbort => trivial
  | releaseRx hpc =>
    simp only [Shape, hpc] at hs
    obtain ⟨hc, hf, ht, h0⟩ := hs
    exact ⟨hc, hf, ht, rfl, h0⟩

/-- The kernel touches none of the lists the shape is about. -/
theorem Kernel.shape {a a' : Flow} (h : Kernel a a') (hs : a.Shape) : a'.Shape := by
  cases h <;> exact hs

theorem Step.shape {a a' : Flow} (h : Step a a') (hs : a.Shape) : a'.Shape :=
  h.elim (·.shape hs) (·.shape hs)

theorem Init.room {a : Flow} (h : a.Init) : a.Room := by
  have hs := h.shape
  simp only [Shape, h.pc] at hs
  obtain ⟨-, ⟨-, hfr, hff⟩, ⟨-, htr⟩, -⟩ := hs
  have h1 := h.fill
  have h2 := h.txFree
  refine ⟨by omega, ?_⟩
  rw [h.txPub, List.length_nil]
  omega

theorem nbFree_le {size pub free : Nat} (nb : Nat) (h : pub + free ≤ size) :
    pub + nbFree size pub free nb ≤ size := by
  unfold nbFree
  split <;> omega

theorem Thread.room {a a' : Flow} (h : Thread a a') (hs : a.Shape) (hr : a.Room) : a'.Room := by
  obtain ⟨hf, ht⟩ := hr
  cases h with
  | fillNbFree n hpc hn =>
    simp only [Shape, hpc] at hs
    have hres := hs.2.1.2.1
    have hle : a.fillPub.length + a.fillFree ≤ afxdpFillRingSize := by omega
    have := nbFree_le a.free.length hle
    exact ⟨by simp only; omega, ht⟩
  | fillReserve hpc =>
    simp only [Shape, hpc] at hs
    have hres := hs.2.1.2.1
    exact ⟨by simp only; omega, ht⟩
  | fillSubmit hpc =>
    simp only [Shape, hpc] at hs
    have hwr := hs.2.1.1
    exact ⟨by simp only [List.length_append]; omega, ht⟩
  | txNbFree n hpc hn =>
    simp only [Shape, hpc] at hs
    have hres := hs.2.2.1.2
    have hle : a.txPub.length + a.txFree ≤ afxdpTxRingSize := by omega
    have := nbFree_le a.rxTodo.length hle
    exact ⟨hf, by simp only; omega⟩
  | txReserve hpc =>
    simp only [Shape, hpc] at hs
    have hres := hs.2.2.1.2
    have hle := hs.2.2.2.2.2.1
    exact ⟨hf, by simp only; omega⟩
  | txSubmit hpc =>
    simp only [Shape, hpc] at hs
    have hwr := hs.2.2.2.2
    exact ⟨hf, by simp only [List.length_append]; omega⟩
  | _ => exact ⟨hf, ht⟩

theorem Kernel.room {a a' : Flow} (h : Kernel a a') (hr : a.Room) : a'.Room := by
  obtain ⟨hf, ht⟩ := hr
  cases h with
  | takeFill x l hpub | dropFill x l hpub =>
    rw [hpub, List.length_cons] at hf
    exact ⟨by simp only; omega, ht⟩
  | takeTx d l hpub =>
    rw [hpub, List.length_cons] at ht
    exact ⟨hf, by simp only; omega⟩
  | publishRx | completeTx => exact ⟨hf, ht⟩

theorem Step.room {a a' : Flow} (h : Step a a') (hs : a.Shape) (hr : a.Room) : a'.Room :=
  h.elim (·.room hs hr) (·.room hr)

end Flow

/-- The list model as a transition system. -/
def flow : TransSys Flow where
  Init := Flow.Init
  Next := Flow.Step

theorem flow_shape {a : Flow} (h : flow.Reachable a) : a.Shape :=
  h.induct (P := Flow.Shape) (fun _ hi => Flow.Init.shape hi)
    fun _ _ _ hs hn => Flow.Step.shape hn hs

theorem flow_room {a : Flow} (h : flow.Reachable a) : a.Room :=
  h.induct (P := Flow.Room) (fun _ hi => Flow.Init.room hi)
    fun _ _ hr hs hn => Flow.Step.room hn (flow_shape hr) hs

end Onvm.Afxdp

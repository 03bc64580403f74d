import Onvm.Nf.FairQueue

/-!
# The order in a queue

One queue of the fair queue as the two threads use it: `View` is the part of the state about
it, and `View.Next` says all that an operation can do to it. What is forwarded from a queue
are the packets that came for it, in order (`kept_in_order`); a queue that has once been full
is never used again, and stops the threads that wait for it (`full_queue_stops`).
-/

namespace Onvm.Nf

open Onvm.Lib Onvm.Nflib Onvm.Pkt

/-! ## One queue -/

inductive RxStage where
  | idle
  | want (pkt : NfPkt)
  | locked (pkt : NfPkt)
  | stored

namespace RxStage

def hand : RxStage → List NfPkt
  | want pkt | locked pkt => [pkt]
  | idle | stored => []

/-- A packet that is in the queue and that `rx` does not count yet. -/
def uncounted : RxStage → Nat
  | stored => 1
  | idle | want _ | locked _ => 0

def Inside : RxStage → Prop
  | locked _ | stored => True
  | idle | want _ => False

end RxStage

structure View where
  queue : FairqueueQueue
  rx : RxStage
  /-- The other thread waits for the lock. -/
  tx : Bool
  arrived : List NfPkt
  forwarded : List NfPkt
  dropped : List NfPkt

namespace FairQueue

def rxStage (s : FairQueue) (q : Nat) : RxStage :=
  match s.rxPc with
  | .idle => .idle
  | .want q' pkt => if q' = q then .want pkt else .idle
  | .locked q' pkt => if q' = q then .locked pkt else .idle
  | .stored q' => if q' = q then .stored else .idle

def chosen (s : FairQueue) (q : Nat) : Bool :=
  match s.txPc with
  | .want q' => q' = q
  | _ => false

variable (crc : BitVec 32 → BitVec 32 → BitVec 32) (numQueues : Nat)

/-- The packets that came for queue `q`, were forwarded from it or refused by it. -/
def arrivedFor (s : FairQueue) (q : Option Nat) : List NfPkt :=
  s.trace.arrived.filter fun pkt => getEnqueueQid crc numQueues pkt.mbuf = some q

def forwardedFrom (s : FairQueue) (q : Nat) : List NfPkt :=
  (s.trace.forwarded.filter (·.1 = q)).map (·.2)

def droppedBy (s : FairQueue) (q : Option Nat) : List NfPkt :=
  (s.trace.dropped.filter (·.1 = q)).map (·.2)

def contents (s : FairQueue) (q : Nat) : List NfPkt :=
  ringContents queueSize (s.fq q).head (s.fq q).pkts

def view (s : FairQueue) (q : Nat) : View where
  queue := s.fq q
  rx := s.rxStage q
  tx := s.chosen q
  arrived := s.arrivedFor crc numQueues (some q)
  forwarded := s.forwardedFrom q
  dropped := s.droppedBy (some q)

end FairQueue

namespace View

def Full (f : FairqueueQueue) : Prop := f.head = f.tail ∧ (f.pkts f.head).isSome

def dequeued (destination : Nat) (v : View) : View :=
  { v with
    tx := false
    queue := { v.queue with
      pkts := Function.update v.queue.pkts v.queue.head none
      head := (v.queue.head + 1) % queueSize
      tx := v.queue.tx + 1 }
    forwarded := v.forwarded ++
      ((v.queue.pkts v.queue.head).map (·.withAction actionTonf destination)).toList }

inductive Next (destination : Nat) : View → View → Prop where
  | none {v : View} : Next destination v v
  | arrive {v : View} (pkt : NfPkt) : v.rx = .idle →
      Next destination v { v with rx := .want pkt, arrived := v.arrived ++ [pkt] }
  | lock {v : View} (pkt : NfPkt) : v.rx = .want pkt → v.queue.lock = false →
      Next destination v { v with rx := .locked pkt, queue := { v.queue with lock := true } }
  | full {v : View} (pkt : NfPkt) : v.rx = .locked pkt → Full v.queue →
      Next destination v { v with
        rx := .idle
        queue := { v.queue with rxDrop := v.queue.rxDrop + 1 }
        dropped := v.dropped ++ [pkt.withAction actionDrop destination] }
  | store {v : View} (pkt : NfPkt) : v.rx = .locked pkt → ¬ Full v.queue →
      Next destination v { v with
        rx := .stored
        queue := { v.queue with pkts := Function.update v.queue.pkts v.queue.tail (some pkt) } }
  | unlock {v : View} : v.rx = .stored →
      Next destination v { v with
        rx := .idle
        queue := { v.queue with
          tail := (v.queue.tail + 1) % queueSize, lock := false, rx := v.queue.rx + 1 } }
  | choose {v : View} : (v.queue.pkts v.queue.head).isSome →
      Next destination v { v with tx := true }
  | dequeue {v : View} : v.tx = true → v.queue.lock = false →
      Next destination v (v.dequeued destination)

end View

/-! ## What the operations do -/

namespace FairQueue

variable {crc : BitVec 32 → BitVec 32 → BitVec 32} {numQueues destination : Nat}
  {s s' : FairQueue} {q : Nat}

theorem view_arrive (s : FairQueue) (pkt : NfPkt) :
    (s.arrive pkt).view crc numQueues q = { s.view crc numQueues q with
      arrived := s.arrivedFor crc numQueues (some q) ++
        if getEnqueueQid crc numQueues pkt.mbuf = some (some q) then [pkt] else [] } := by
  simp only [view, arrivedFor, arrive, List.filter_append, List.filter_cons, List.filter_nil,
    decide_eq_true_eq]
  rfl

theorem view_drop (s : FairQueue) (q' : Option Nat) (pkt : NfPkt) (room : Bool) :
    (s.drop destination q' pkt room).view crc numQueues q = { s.view crc numQueues q with
      dropped := s.droppedBy (some q) ++
        if q' = some q then [pkt.withAction actionDrop destination] else [] } := by
  have hdrop : (s.drop destination q' pkt room).droppedBy (some q) = s.droppedBy (some q) ++
      if q' = some q then [pkt.withAction actionDrop destination] else [] := by
    simp only [droppedBy, drop, List.filter_append, List.filter_cons, List.filter_nil,
      decide_eq_true_eq, List.map_append]
    split <;> rfl
  simp only [view, hdrop]
  rfl

theorem view_forward (s : FairQueue) (q' : Nat) (pkt : NfPkt) (room : Bool) :
    (s.forward destination q' pkt room).view crc numQueues q = { s.view crc numQueues q with
      forwarded := s.forwardedFrom q ++
        if q' = q then [pkt.withAction actionTonf destination] else [] } := by
  have hforward : (s.forward destination q' pkt room).forwardedFrom q = s.forwardedFrom q ++
      if q' = q then [pkt.withAction actionTonf destination] else [] := by
    simp only [forwardedFrom, forward, List.filter_append, List.filter_cons, List.filter_nil,
      decide_eq_true_eq, List.map_append]
    split <;> rfl
  simp only [view, hforward]
  rfl

theorem setQueue_self (s : FairQueue) (f : FairqueueQueue) : (s.setQueue q f).fq q = f :=
  Function.update_self ..

theorem setQueue_other (s : FairQueue) {q' : Nat} (h : q' ≠ q) (f : FairqueueQueue) :
    (s.setQueue q' f).fq q = s.fq q :=
  Function.update_of_ne (Ne.symm h) ..

theorem recv_view {pkt : NfPkt} {room : Bool}
    (h : s.recv crc numQueues destination pkt room = some s') :
    View.Next destination (s.view crc numQueues q) (s'.view crc numQueues q) := by
  unfold recv at h
  split at h
  · rename_i hidle hqid
    cases h
    rw [view_drop, if_neg nofun, List.append_nil]
    show View.Next destination _ ((s.arrive pkt).view crc numQueues q)
    rw [view_arrive, hqid, if_neg nofun, List.append_nil]
    exact .none
  · rename_i q' hidle hqid
    cases h
    have harr : (s.arrive pkt).view crc numQueues q = _ := view_arrive s pkt
    rw [hqid] at harr
    have hrx : s.rxStage q = .idle := by rw [rxStage, hidle]
    have hview : ({ s.arrive pkt with rxPc := .want q' pkt } : FairQueue).view crc numQueues q =
        { (s.arrive pkt).view crc numQueues q with
          rx := if q' = q then .want pkt else .idle } := rfl
    rw [hview, harr]
    by_cases hq : q' = q
    · rw [if_pos hq, if_pos (congrArg (fun q => some (some q)) hq)]
      exact .arrive pkt hrx
    · rw [if_neg hq, if_neg fun he => hq (Option.some.inj (Option.some.inj he)), List.append_nil,
        ← hrx]
      exact .none
  · cases h

theorem rxLock_view (h : s.rxLock = some s') :
    View.Next destination (s.view crc numQueues q) (s'.view crc numQueues q) := by
  unfold rxLock at h
  split at h
  · rename_i q' pkt hpc
    split at h
    · cases h
    · rename_i hfree
      cases h
      by_cases hq : q' = q
      · subst hq
        have hrx : s.rxStage q' = .want pkt := by rw [rxStage, hpc]; exact if_pos rfl
        have hnext : View.Next destination (s.view crc numQueues q') _ :=
          .lock pkt hrx (Bool.eq_false_iff.mpr hfree)
        convert hnext using 1
        simp only [view, setQueue_self, rxStage, if_true]
        rfl
      · have hsame : ({ s.setQueue q' { s.fq q' with lock := true } with
            rxPc := .locked q' pkt } : FairQueue).view crc numQueues q = s.view crc numQueues q := by
          simp only [view, setQueue_other s hq, rxStage, if_neg hq, hpc]
          rfl
        rw [hsame]
        exact .none
  · cases h

theorem rxStore_view {room : Bool} (h : s.rxStore destination room = some s') :
    View.Next destination (s.view crc numQueues q) (s'.view crc numQueues q) := by
  unfold rxStore at h
  split at h
  · rename_i q' pkt hpc
    simp only at h
    split at h
    · rename_i hfull
      cases h
      rw [view_drop]
      by_cases hq : q' = q
      · subst hq
        have hrx : s.rxStage q' = .locked pkt := by rw [rxStage, hpc]; exact if_pos rfl
        rw [if_pos rfl]
        have hnext : View.Next destination (s.view crc numQueues q') _ := .full pkt hrx hfull
        convert hnext using 1
        simp only [view, setQueue_self, rxStage]
        rfl
      · have hne : (some q' : Option Nat) ≠ some q := fun he => hq (Option.some.inj he)
        have hsame : ({ s.setQueue q' { s.fq q' with rxDrop := (s.fq q').rxDrop + 1 } with
            rxPc := .idle } : FairQueue).view crc numQueues q = s.view crc numQueues q := by
          simp only [view, setQueue_other s hq, rxStage, if_neg hq, hpc]
          rfl
        rw [if_neg hne, List.append_nil, hsame]
        exact .none
    · rename_i hroom
      cases h
      by_cases hq : q' = q
      · subst hq
        have hrx : s.rxStage q' = .locked pkt := by rw [rxStage, hpc]; exact if_pos rfl
        have hnext : View.Next destination (s.view crc numQueues q') _ := .store pkt hrx hroom
        convert hnext using 1
        simp only [view, setQueue_self, rxStage, if_true]
        rfl
      · have hsame : ({ s.setQueue q' { s.fq q' with
              pkts := Function.update (s.fq q').pkts (s.fq q').tail (some pkt) } with
            rxPc := .stored q' } : FairQueue).view crc numQueues q = s.view crc numQueues q := by
          simp only [view, setQueue_other s hq, rxStage, if_neg hq, hpc]
          rfl
        rw [hsame]
        exact .none
  · cases h

theorem rxUnlock_view (h : s.rxUnlock = some s') :
    View.Next destination (s.view crc numQueues q) (s'.view crc numQueues q) := by
  unfold rxUnlock at h
  split at h
  · rename_i q' hpc
    cases h
    by_cases hq : q' = q
    · subst hq
      have hrx : s.rxStage q' = .stored := by rw [rxStage, hpc]; exact if_pos rfl
      have hnext : View.Next destination (s.view crc numQueues q') _ := .unlock hrx
      convert hnext using 1
      simp only [view, setQueue_self, rxStage]
      rfl
    · have hsame : ({ s.setQueue q' { s.fq q' with
            tail := ((s.fq q').tail + 1) % queueSize, lock := false, rx := (s.fq q').rx + 1 } with
          rxPc := .idle } : FairQueue).view crc numQueues q = s.view crc numQueues q := by
        simp only [view, setQueue_other s hq, rxStage, if_neg hq, hpc]
        rfl
      rw [hsame]
      exact .none
  · cases h

theorem txStart_view (h : s.txStart = some s') :
    s'.view crc numQueues q = s.view crc numQueues q := by
  unfold txStart at h
  split at h
  · rename_i hpc
    cases h
    simp only [view, chosen, hpc]
    rfl
  · cases h

theorem txLook_view (h : s.txLook numQueues = some s') :
    View.Next destination (s.view crc numQueues q) (s'.view crc numQueues q) := by
  unfold txLook at h
  split at h
  · rename_i start hpc
    split at h
    · cases h
    · simp only at h
      have hno : s.chosen q = false := by rw [chosen, hpc]
      split at h
      · rename_i hsome
        cases h
        by_cases hq : s.qid = q
        · have hnext : View.Next destination (s.view crc numQueues q) _ :=
            .choose (hq ▸ hsome)
          convert hnext using 1
          simp only [view, chosen, hq, decide_true]
          rfl
        · have hsame : ({ s with qid := (s.qid + 1) % numQueues, txPc := .want s.qid } :
              FairQueue).view crc numQueues q = s.view crc numQueues q := by
            simp only [view, chosen, hpc, decide_eq_false hq]
            rfl
          rw [hsame]
          exact .none
      · cases h
        have hsame : ({ s with
            qid := (s.qid + 1) % numQueues
            txPc := if (s.qid + 1) % numQueues = start then .idle else .scan start } :
              FairQueue).view crc numQueues q = s.view crc numQueues q := by
          simp only [view, chosen, hpc]
          split <;> rfl
        rw [hsame]
        exact .none
  · cases h

theorem txDequeue_view {room : Bool} (h : s.txDequeue destination room = some s') :
    View.Next destination (s.view crc numQueues q) (s'.view crc numQueues q) := by
  unfold txDequeue at h
  split at h
  · rename_i q' hpc
    simp only at h
    split at h
    · cases h
    · rename_i hfree
      have hlock : (s.fq q').lock = false := Bool.eq_false_iff.mpr hfree
      by_cases hq : q' = q
      · subst hq
        have hchosen : s.chosen q' = true := by rw [chosen, hpc]; exact decide_eq_true rfl
        have hnext : View.Next destination (s.view crc numQueues q') _ := .dequeue hchosen hlock
        split at h
        · rename_i hnull
          cases h
          convert hnext using 1
          simp only [View.dequeued, view, setQueue_self, chosen, hnull, Option.map_none,
            Option.toList_none, List.append_nil]
          rfl
        · rename_i pkt hpkt
          cases h
          rw [view_forward, if_pos rfl]
          convert hnext using 1
          simp only [View.dequeued, view, setQueue_self, chosen, hpkt, Option.map_some,
            Option.toList_some]
          rfl
      · have hsame : ∀ f, ({ s.setQueue q' f with txPc := .idle } : FairQueue).view crc numQueues q =
            s.view crc numQueues q := fun f => by
          simp only [view, setQueue_other s hq, chosen, hpc, decide_eq_false hq]
          rfl
        split at h
        · cases h
          rw [hsame]
          exact .none
        · cases h
          rw [view_forward, if_neg hq, List.append_nil, ← hsame]
          exact .none
  · cases h

/-- **All that an operation does to a queue.** -/
theorem step_view {e : Event} (h : s.step crc numQueues destination e = some s') (q : Nat) :
    View.Next destination (s.view crc numQueues q) (s'.view crc numQueues q) := by
  cases e with
  | recv pkt room => exact recv_view h
  | rxLock => exact rxLock_view h
  | rxStore room => exact rxStore_view h
  | rxUnlock => exact rxUnlock_view h
  | txStart => exact txStart_view (q := q) h ▸ .none
  | txLook => exact txLook_view h
  | txDequeue room => exact txDequeue_view h

end FairQueue

/-! ## The queue in order -/

namespace View

/-- The tail, when the packet that has been stored counts. -/
def lastTail (v : View) : Nat :=
  match v.rx with
  | .stored => (v.queue.tail + 1) % queueSize
  | _ => v.queue.tail

structure SoundAt (v : View) (l : List NfPkt) : Prop where
  holds : Holds queueSize v.queue.head v.lastTail v.queue.pkts l
  order : v.arrived.map NfPkt.mbuf = (v.forwarded ++ l ++ v.dropped ++ v.rx.hand).map NfPkt.mbuf
  lock : v.queue.lock = true ↔ v.rx.Inside ∨ v.dropped ≠ []
  full : v.dropped ≠ [] → l.length = queueSize ∧ v.dropped.length = 1 ∧ ¬ v.rx.Inside
  chosen : v.tx = true → l ≠ []
  rx : v.queue.rx + v.rx.uncounted = v.forwarded.length + l.length
  tx : v.queue.tx = v.forwarded.length
  rxDrop : v.queue.rxDrop = v.dropped.length

def Sound (v : View) : Prop := ∃ l, v.SoundAt l

variable {destination : Nat} {v v' : View} {l : List NfPkt}

/-- Whoever finds the lock free finds no packet dropped. -/
theorem SoundAt.free (h : v.SoundAt l) (hlock : v.queue.lock = false) :
    ¬ v.rx.Inside ∧ v.dropped = [] := by
  have hnot : ¬ (v.rx.Inside ∨ v.dropped ≠ []) := fun hor => by
    rw [h.lock.mpr hor] at hlock
    cases hlock
  exact ⟨fun hin => hnot (.inl hin), not_not.mp fun hne => hnot (.inr hne)⟩

theorem SoundAt.inside (h : v.SoundAt l) (hin : v.rx.Inside) : v.dropped = [] :=
  not_not.mp fun hne => (h.full hne).2.2 hin

theorem SoundAt.arrive (h : v.SoundAt l) (pkt : NfPkt) (hrx : v.rx = .idle) :
    SoundAt { v with rx := .want pkt, arrived := v.arrived ++ [pkt] } l := by
  have hholds := h.holds
  have horder := h.order
  have hlock := h.lock
  have hcount := h.rx
  rw [lastTail, hrx] at hholds
  rw [hrx] at horder hlock
  rw [hrx] at hcount
  refine ⟨hholds, ?_, hlock, fun hne => ⟨(h.full hne).1, (h.full hne).2.1, id⟩, h.chosen, hcount,
    h.tx, h.rxDrop⟩
  simp only [RxStage.hand, List.append_nil] at horder
  simp only [RxStage.hand, List.map_append, horder]

theorem SoundAt.locked (h : v.SoundAt l) (pkt : NfPkt) (hrx : v.rx = .want pkt)
    (hlock : v.queue.lock = false) :
    SoundAt { v with rx := .locked pkt, queue := { v.queue with lock := true } } l := by
  obtain ⟨-, hnil⟩ := h.free hlock
  have hholds := h.holds
  have horder := h.order
  have hcount := h.rx
  rw [lastTail, hrx] at hholds
  rw [hrx] at horder
  rw [hrx] at hcount
  exact ⟨hholds, horder, iff_of_true rfl (.inl trivial), fun hne => absurd hnil hne, h.chosen,
    hcount, h.tx, h.rxDrop⟩

theorem SoundAt.refuse (h : v.SoundAt l) (pkt : NfPkt) (hrx : v.rx = .locked pkt)
    (hfull : Full v.queue) :
    SoundAt { v with
      rx := .idle
      queue := { v.queue with rxDrop := v.queue.rxDrop + 1 }
      dropped := v.dropped ++ [pkt.withAction actionDrop destination] } l := by
  have hnil := h.inside (by rw [hrx]; trivial)
  have hholds := h.holds
  have horder := h.order
  have hcount := h.rx
  have hdrop := h.rxDrop
  rw [lastTail, hrx] at hholds
  rw [hrx, hnil] at horder
  rw [hrx] at hcount
  have hlen := hholds.full_iff.mp ⟨hfull.1, Option.isSome_iff_ne_none.mp hfull.2⟩
  have hlock : v.queue.lock = true := h.lock.mpr (.inl (by rw [hrx]; trivial))
  refine ⟨hholds, ?_, iff_of_true hlock (.inr (by simp)), fun _ => ⟨hlen, ?_, id⟩, h.chosen, hcount,
    h.tx, ?_⟩
  · simp only [RxStage.hand, List.map_append, List.append_nil] at horder ⊢
    rw [horder, hnil]
    rfl
  · simp only [hnil, List.nil_append, List.length_singleton]
  · simp only [hdrop, List.length_append, List.length_singleton]

theorem SoundAt.store (h : v.SoundAt l) (pkt : NfPkt) (hrx : v.rx = .locked pkt)
    (hroom : ¬ Full v.queue) :
    SoundAt { v with
      rx := .stored
      queue := { v.queue with
        pkts := Function.update v.queue.pkts v.queue.tail (some pkt) } } (l ++ [pkt]) := by
  have hnil := h.inside (by rw [hrx]; trivial)
  have hholds := h.holds
  have horder := h.order
  have hcount := h.rx
  rw [lastTail, hrx] at hholds
  rw [hrx, hnil] at horder
  rw [hrx] at hcount
  have hlt : l.length < queueSize := by
    refine Nat.lt_of_le_of_ne hholds.length_le fun hlen => hroom ?_
    have hfull := hholds.full_iff.mpr hlen
    exact ⟨hfull.1, Option.isSome_iff_ne_none.mpr hfull.2⟩
  refine ⟨hholds.push hlt pkt, ?_, iff_of_true (h.lock.mpr (.inl (by rw [hrx]; trivial)))
    (.inl trivial), fun hne => absurd hnil hne, fun _ => by simp, ?_, h.tx, h.rxDrop⟩
  · simp only [RxStage.hand, List.map_append, List.append_nil] at horder ⊢
    rw [horder, hnil]
    simp
  · simp only [RxStage.uncounted, List.length_append, List.length_singleton] at hcount ⊢
    omega

theorem SoundAt.unlock (h : v.SoundAt l) (hrx : v.rx = .stored) :
    SoundAt { v with
      rx := .idle
      queue := { v.queue with
        tail := (v.queue.tail + 1) % queueSize, lock := false, rx := v.queue.rx + 1 } } l := by
  have hnil := h.inside (by rw [hrx]; trivial)
  have hholds := h.holds
  have horder := h.order
  have hcount := h.rx
  rw [lastTail, hrx] at hholds
  rw [hrx] at horder
  rw [hrx] at hcount
  exact ⟨hholds, horder, iff_of_false nofun fun hor => hor.elim id fun hne => hne hnil,
    fun hne => absurd hnil hne, h.chosen, hcount, h.tx, h.rxDrop⟩

/-- What the thread that looked at the slot found there is still there. -/
theorem SoundAt.dequeue (h : v.SoundAt l) (htx : v.tx = true) (hlock : v.queue.lock = false) :
    (v.dequeued destination).Sound := by
  obtain ⟨hout, hnil⟩ := h.free hlock
  have hholds := h.holds
  have horder := h.order
  have hcount := h.rx
  have htxCount := h.tx
  cases l with
  | nil => exact absurd rfl (h.chosen htx)
  | cons pkt l =>
    have hpkt : v.queue.pkts v.queue.head = some pkt := hholds.head_slot
    refine ⟨l, hholds.pop, ?_, ?_, fun hne => absurd hnil hne, nofun, ?_, ?_, h.rxDrop⟩
    · simp only [dequeued, hpkt, Option.map_some, Option.toList_some, horder, List.map_append,
        List.map_cons, List.append_assoc, List.cons_append, List.nil_append]
      rfl
    · exact iff_of_false (by rw [dequeued, hlock]; nofun) fun hor =>
        hor.elim hout fun hne => hne hnil
    · simp only [dequeued, hpkt, Option.map_some, Option.toList_some, List.length_append,
        List.length_cons, List.length_nil] at hcount ⊢
      omega
    · simp only [dequeued, hpkt, Option.map_some, Option.toList_some, List.length_append,
        List.length_singleton, htxCount]

/-- **One operation** keeps it. -/
theorem Next.sound (hn : Next destination v v') (h : v.Sound) : v'.Sound := by
  obtain ⟨l, hl⟩ := h
  cases hn with
  | none => exact ⟨l, hl⟩
  | arrive pkt hrx => exact ⟨l, hl.arrive pkt hrx⟩
  | lock pkt hrx hlock => exact ⟨l, hl.locked pkt hrx hlock⟩
  | full pkt hrx hfull => exact ⟨l, hl.refuse pkt hrx hfull⟩
  | store pkt hrx hroom => exact ⟨l ++ [pkt], hl.store pkt hrx hroom⟩
  | unlock hrx => exact ⟨l, hl.unlock hrx⟩
  | choose hsome =>
    refine ⟨l, hl.holds, hl.order, hl.lock, hl.full, fun _ hnil => ?_, hl.rx, hl.tx, hl.rxDrop⟩
    rw [hl.holds.head_slot, hnil] at hsome
    cases hsome
  | dequeue htx hlock => exact hl.dequeue htx hlock

end View

/-! ## Batches -/

/-- The packets went out in full batches, but for those that wait for the next. -/
structure Batch (size : Nat) (all : List NfPkt) (done : List (NfPkt × Bool)) (batch : List NfPkt) :
    Prop where
  eq : all = done.map Prod.fst ++ batch
  lt : batch.length < size
  dvd : done.length % size = 0

theorem Batch.add {size : Nat} {all batch : List NfPkt} {done : List (NfPkt × Bool)}
    (h : Batch size all done batch) (pkt : NfPkt) (room : Bool) :
    Batch size (all ++ [pkt])
      (done ++ if (batch ++ [pkt]).length = size then (batch ++ [pkt]).map (·, room) else [])
      (if (batch ++ [pkt]).length = size then [] else batch ++ [pkt]) := by
  have hlt := h.lt
  split
  · rename_i hfull
    refine ⟨?_, Nat.zero_lt_of_lt hlt, ?_⟩
    · rw [h.eq, List.map_append, List.map_map, List.append_nil, List.append_assoc]
      congr 1
      exact (List.map_id _).symm
    · rw [List.length_append, List.length_map, hfull, Nat.add_mod_right, h.dvd]
  · rename_i hpart
    refine ⟨?_, ?_, ?_⟩
    · rw [h.eq, List.append_nil, List.append_assoc]
    · simp only [List.length_append, List.length_singleton] at hpart ⊢
      omega
    · rw [List.append_nil, h.dvd]

namespace FairQueue

variable {crc : BitVec 32 → BitVec 32 → BitVec 32} {numQueues destination : Nat}
  {s s' : FairQueue}

/-- What was taken out of the queues, refused by them or refused at once went out in
batches. -/
structure Batched (crc : BitVec 32 → BitVec 32 → BitVec 32) (numQueues : Nat) (s : FairQueue) :
    Prop where
  tx : Batch pktReadSize (s.trace.forwarded.map (·.2)) s.trace.txDone s.pktsTX
  rx : Batch 32 (s.trace.dropped.map (·.2)) s.trace.rxDone s.pktsDrop
  refused : (s.arrivedFor crc numQueues none).map NfPkt.mbuf = (s.droppedBy none).map NfPkt.mbuf

theorem Batched.of_eq (h : s.Batched crc numQueues) (htrace : s'.trace = s.trace)
    (htx : s'.pktsTX = s.pktsTX) (hdrop : s'.pktsDrop = s.pktsDrop) : s'.Batched crc numQueues := by
  refine ⟨?_, ?_, ?_⟩
  · rw [htrace, htx]
    exact h.tx
  · rw [htrace, hdrop]
    exact h.rx
  · rw [arrivedFor, droppedBy, htrace]
    exact h.refused

theorem Batched.arrive (h : s.Batched crc numQueues) {pkt : NfPkt} {q : Nat}
    (hq : getEnqueueQid crc numQueues pkt.mbuf = some (some q)) :
    (s.arrive pkt).Batched crc numQueues where
  tx := h.tx
  rx := h.rx
  refused := by
    have harr : (s.arrive pkt).arrivedFor crc numQueues none = s.arrivedFor crc numQueues none := by
      simp [arrivedFor, FairQueue.arrive, hq]
    rw [harr]
    exact h.refused

/-- A packet is dropped for which there is no queue, or a full one. -/
theorem Batched.drop (h : s.Batched crc numQueues) (q : Nat) (pkt : NfPkt) (room : Bool) :
    (s.drop destination (some q) pkt room).Batched crc numQueues where
  tx := h.tx
  rx := by
    have hadd := h.rx.add (pkt.withAction actionDrop destination) room
    simpa only [FairQueue.drop, List.map_append, List.map_cons, List.map_nil] using hadd
  refused := by
    have hdrop : (s.drop destination (some q) pkt room).droppedBy none = s.droppedBy none := by
      simp [droppedBy, FairQueue.drop]
    rw [hdrop]
    exact h.refused

theorem Batched.refuse (h : s.Batched crc numQueues) {pkt : NfPkt} (room : Bool)
    (hq : getEnqueueQid crc numQueues pkt.mbuf = some none) :
    ((s.arrive pkt).drop destination none pkt room).Batched crc numQueues where
  tx := h.tx
  rx := by
    have hadd := h.rx.add (pkt.withAction actionDrop destination) room
    have hmap : ((s.arrive pkt).drop destination none pkt room).trace.dropped.map (·.2) =
        s.trace.dropped.map (·.2) ++ [pkt.withAction actionDrop destination] :=
      List.map_append ..
    rw [hmap]
    exact hadd
  refused := by
    have harr : ((s.arrive pkt).drop destination none pkt room).arrivedFor crc numQueues none =
        s.arrivedFor crc numQueues none ++ [pkt] := by
      simp [arrivedFor, FairQueue.drop, FairQueue.arrive, hq]
    have hdrop : ((s.arrive pkt).drop destination none pkt room).droppedBy none =
        s.droppedBy none ++ [pkt.withAction actionDrop destination] := by
      simp [droppedBy, FairQueue.drop, FairQueue.arrive]
    rw [harr, hdrop, List.map_append, List.map_append, h.refused]
    rfl

theorem Batched.forward (h : s.Batched crc numQueues) (q : Nat) (pkt : NfPkt) (room : Bool) :
    (s.forward destination q pkt room).Batched crc numQueues where
  tx := by
    have hadd := h.tx.add (pkt.withAction actionTonf destination) room
    simpa only [FairQueue.forward, List.map_append, List.map_cons, List.map_nil] using hadd
  rx := h.rx
  refused := h.refused

/-- **One operation** keeps it. -/
theorem step_batched {e : Event} (h : s.Batched crc numQueues)
    (hstep : s.step crc numQueues destination e = some s') : s'.Batched crc numQueues := by
  cases e with
  | recv pkt room =>
    simp only [step, recv] at hstep
    split at hstep
    · rename_i hq
      cases hstep
      exact h.refuse room hq
    · rename_i hq
      cases hstep
      exact (h.arrive hq).of_eq rfl rfl rfl
    · cases hstep
  | rxLock =>
    simp only [step, rxLock] at hstep
    split at hstep
    · split at hstep
      · cases hstep
      · cases hstep
        exact h.of_eq rfl rfl rfl
    · cases hstep
  | rxStore room =>
    simp only [step, rxStore] at hstep
    split at hstep
    · split at hstep
      · cases hstep
        exact Batched.drop (s := { s.setQueue _ _ with rxPc := .idle }) (h.of_eq rfl rfl rfl)
          _ _ room
      · cases hstep
        exact h.of_eq rfl rfl rfl
    · cases hstep
  | rxUnlock =>
    simp only [step, rxUnlock] at hstep
    split at hstep
    · cases hstep
      exact h.of_eq rfl rfl rfl
    · cases hstep
  | txStart =>
    simp only [step, txStart] at hstep
    split at hstep
    · cases hstep
      exact h.of_eq rfl rfl rfl
    · cases hstep
  | txLook =>
    simp only [step, txLook] at hstep
    split at hstep
    · split at hstep
      · cases hstep
      · split at hstep
        · cases hstep
          exact h.of_eq rfl rfl rfl
        · cases hstep
          exact h.of_eq rfl rfl rfl
    · cases hstep
  | txDequeue room =>
    simp only [step, txDequeue] at hstep
    split at hstep
    · split at hstep
      · cases hstep
      · split at hstep
        · cases hstep
          exact h.of_eq rfl rfl rfl
        · cases hstep
          exact Batched.forward (s := { s.setQueue _ _ with txPc := .idle }) (h.of_eq rfl rfl rfl)
            _ _ room
    · cases hstep

end FairQueue

/-! ## All runs -/

variable {crc : BitVec 32 → BitVec 32 → BitVec 32} {numQueues destination q : Nat}
  {s s' : FairQueue}

theorem View.sound_setup :
    (FairQueue.setupFairqueue.view crc numQueues q).Sound :=
  ⟨[], .empty (by decide), rfl, iff_of_false nofun (fun hor => hor.elim id fun hne => hne rfl),
    fun hne => absurd rfl hne, nofun, rfl, rfl, rfl⟩

theorem FairQueue.batched_setup : FairQueue.setupFairqueue.Batched crc numQueues :=
  ⟨⟨rfl, by decide, rfl⟩, ⟨rfl, by decide, rfl⟩, rfl⟩

theorem reachable_sound_view (h : (fairQueue crc numQueues destination).Reachable s) (q : Nat) :
    (s.view crc numQueues q).Sound :=
  h.induct (P := fun s => (s.view crc numQueues q).Sound)
    (fun s hs => by rw [hs]; exact View.sound_setup)
    fun _ _ _ hs ⟨_, hstep⟩ => (FairQueue.step_view hstep q).sound hs

theorem reachable_batched (h : (fairQueue crc numQueues destination).Reachable s) :
    s.Batched crc numQueues :=
  h.induct (P := fun s => s.Batched crc numQueues)
    (fun s hs => by rw [hs]; exact FairQueue.batched_setup)
    fun _ _ _ hs ⟨_, hstep⟩ => FairQueue.step_batched hs hstep

/-- The packets that came for queue `q` are, in this order, those that were forwarded from it,
those in it, the one it refused and the one in hand. It refuses no more than one, and that when
it is full, and its statistics count what happened. -/
structure FairQueue.KeepsOrder (crc : BitVec 32 → BitVec 32 → BitVec 32) (numQueues : Nat)
    (s : FairQueue) (q : Nat) : Prop where
  order : (s.arrivedFor crc numQueues (some q)).map NfPkt.mbuf =
    (s.forwardedFrom q ++ s.contents q ++ s.droppedBy (some q) ++ (s.rxStage q).hand).map NfPkt.mbuf
  length_le : (s.contents q).length ≤ queueSize
  full : s.droppedBy (some q) ≠ [] →
    (s.contents q).length = queueSize ∧ (s.droppedBy (some q)).length = 1
  rx : (s.fq q).rx + (s.rxStage q).uncounted = (s.forwardedFrom q).length + (s.contents q).length
  tx : (s.fq q).tx = (s.forwardedFrom q).length
  rxDrop : (s.fq q).rxDrop = (s.droppedBy (some q)).length

theorem queue_in_order (h : (fairQueue crc numQueues destination).Reachable s) (q : Nat) :
    s.KeepsOrder crc numQueues q := by
  obtain ⟨l, hl⟩ := reachable_sound_view h q
  have hcontents : s.contents q = l := hl.holds.contents
  refine ⟨?_, ?_, fun hne => ?_, ?_, hl.tx, hl.rxDrop⟩
  · rw [hcontents]
    exact hl.order
  · rw [hcontents]
    exact hl.holds.length_le
  · rw [hcontents]
    exact ⟨(hl.full hne).1, (hl.full hne).2.1⟩
  · rw [hcontents]
    exact hl.rx

/-! ## A run that fills a queue -/

/-- One more packet comes for a queue that has refused none. -/
theorem one_more {pkt : NfPkt}
    (hq : FairQueue.getEnqueueQid crc numQueues pkt.mbuf = some (some q))
    (h : (fairQueue crc numQueues destination).Reachable s) (hidle : s.rxPc = .idle)
    (hnone : s.droppedBy (some q) = []) :
    ∃ s', (fairQueue crc numQueues destination).Reachable s' ∧ s'.rxPc = .idle ∧
      s'.trace.arrived = s.trace.arrived ++ [pkt] ∧ s'.trace.forwarded = s.trace.forwarded ∧
      (View.Full (s.fq q) → s'.droppedBy (some q) ≠ []) ∧
      (¬ View.Full (s.fq q) → s'.droppedBy (some q) = []) := by
  obtain ⟨l, hl⟩ := reachable_sound_view h q
  have hstage : s.rxStage q = .idle := by rw [FairQueue.rxStage, hidle]
  have hlock : (s.fq q).lock = false := by
    refine Bool.eq_false_iff.mpr fun hlock => ?_
    rcases hl.lock.mp hlock with hin | hne
    · exact (hstage ▸ hin : RxStage.idle.Inside)
    · exact hne hnone
  let s₁ : FairQueue := { s.arrive pkt with rxPc := .want q pkt }
  let s₂ : FairQueue := { s₁.setQueue q { s₁.fq q with lock := true } with rxPc := .locked q pkt }
  have hrecv : s.step crc numQueues destination (.recv pkt true) = some s₁ := by
    simp only [FairQueue.step, FairQueue.recv, hidle, hq]
    rfl
  have hget : s₁.step crc numQueues destination .rxLock = some s₂ := by
    have hfree : ¬ (s₁.fq q).lock = true := Bool.eq_false_iff.mp hlock
    exact if_neg hfree
  have hfq : s₂.fq q = { s.fq q with lock := true } := FairQueue.setQueue_self ..
  have hreach : (fairQueue crc numQueues destination).Reachable s₂ :=
    (h.step ⟨_, hrecv⟩).step ⟨_, hget⟩
  by_cases hfull : View.Full (s.fq q)
  · have hstore : ∃ s', s₂.step crc numQueues destination (.rxStore true) = some s' ∧
        s'.rxPc = .idle ∧ s'.trace.arrived = s₂.trace.arrived ∧
        s'.trace.forwarded = s₂.trace.forwarded ∧ s'.droppedBy (some q) ≠ [] := by
      have htest : (s₂.fq q).head = (s₂.fq q).tail ∧ ((s₂.fq q).pkts (s₂.fq q).head).isSome := by
        rw [hfq]
        exact hfull
      refine ⟨_, if_pos htest, rfl, rfl, rfl, ?_⟩
      simp [FairQueue.droppedBy, FairQueue.drop]
    obtain ⟨s', hs', hpc, harr, hforw, hdrop⟩ := hstore
    exact ⟨s', hreach.step ⟨_, hs'⟩, hpc, harr, hforw, fun _ => hdrop, fun hn => absurd hfull hn⟩
  · have htest : ¬ ((s₂.fq q).head = (s₂.fq q).tail ∧ ((s₂.fq q).pkts (s₂.fq q).head).isSome) := by
      rw [hfq]
      exact hfull
    have hstore : s₂.step crc numQueues destination (.rxStore true) = some _ := if_neg htest
    exact ⟨_, (hreach.step ⟨_, hstore⟩).step ⟨.rxUnlock, rfl⟩, rfl, rfl, rfl,
      fun hf => absurd hf hfull, fun _ => hnone⟩

/-- The test for a full queue is right when nothing is being put into it. -/
theorem full_iff_length (h : (fairQueue crc numQueues destination).Reachable s)
    (hidle : s.rxPc = .idle) : View.Full (s.fq q) ↔ (s.contents q).length = queueSize := by
  obtain ⟨l, hl⟩ := reachable_sound_view h q
  have hcontents : s.contents q = l := hl.holds.contents
  have hstage : (s.view crc numQueues q).rx = .idle := by
    show s.rxStage q = _
    rw [FairQueue.rxStage, hidle]
  have hholds := hl.holds
  rw [View.lastTail, hstage] at hholds
  rw [hcontents, ← hholds.full_iff, View.Full, Option.isSome_iff_ne_none]
  rfl

theorem fill {pkt : NfPkt}
    (hq : FairQueue.getEnqueueQid crc numQueues pkt.mbuf = some (some q)) {k : Nat}
    (hk : k ≤ queueSize) :
    ∃ s, (fairQueue crc numQueues destination).Reachable s ∧ s.rxPc = .idle ∧
      (s.contents q).length = k ∧ s.forwardedFrom q = [] ∧ s.droppedBy (some q) = [] := by
  induction k with
  | zero =>
    have hnil : FairQueue.setupFairqueue.contents q = [] := (Holds.empty (by decide)).contents
    exact ⟨.setupFairqueue, .init rfl, rfl, hnil ▸ List.length_nil, rfl, rfl⟩
  | succ k ih =>
    obtain ⟨s, hs, hidle, hlen, hforw, hdrop⟩ := ih (by omega)
    obtain ⟨s', hs', hidle', harr, hforw', -, hdrop'⟩ := one_more hq hs hidle hdrop
    have hfull : ¬ View.Full (s.fq q) := fun hfull => by
      have hsize := (full_iff_length hs hidle).mp hfull
      omega
    have hnone := hdrop' hfull
    have hforw'' : s'.forwardedFrom q = [] := by rw [← hforw, FairQueue.forwardedFrom, hforw']; rfl
    refine ⟨s', hs', hidle', ?_, hforw'', hnone⟩
    have hhand : (s.rxStage q).hand = [] := by rw [FairQueue.rxStage, hidle]; rfl
    have hhand' : (s'.rxStage q).hand = [] := by rw [FairQueue.rxStage, hidle']; rfl
    have horder := congrArg List.length (queue_in_order hs q).order
    have horder' := congrArg List.length (queue_in_order hs' q).order
    have harr' : s'.arrivedFor crc numQueues (some q) =
        s.arrivedFor crc numQueues (some q) ++ [pkt] := by
      simp [FairQueue.arrivedFor, harr, hq]
    simp only [hforw, hforw'', hdrop, hnone, hhand, hhand', harr', List.length_map,
      List.length_append, List.length_nil, List.length_singleton] at horder horder'
    omega

/-- An Ethernet frame with an IPv4 header of 20 bytes, for UDP, to this port. -/
def datagram (port : Byte) : NfPkt where
  mbuf := { data := List.replicate 12 0 ++ [0x08, 0, 0x45] ++ List.replicate 8 0 ++ [17] ++
    List.replicate 12 0 ++ [port] ++ List.replicate 23 0 }

/-- It comes for the only queue there is. -/
theorem datagram_queue :
    FairQueue.getEnqueueQid (fun _ _ => 0) 1 (datagram 0).mbuf = some (some 0) := by
  decide +kernel

theorem fill_datagrams {k : Nat} (hk : k ≤ queueSize) :
    ∃ s, (fairQueue (fun _ _ => 0) 1 5).Reachable s ∧ s.rxPc = .idle ∧
      (s.contents 0).length = k ∧ s.forwardedFrom 0 = [] ∧ s.droppedBy (some 0) = [] :=
  fill datagram_queue hk

/-! ## What is kept -/

/-- **Main**: in every run of the two threads every queue keeps the order of its packets, and
all that is forwarded or dropped goes out in full batches. -/
theorem kept_in_order (h : (fairQueue crc numQueues destination).Reachable s) :
    (∀ q, s.KeepsOrder crc numQueues q) ∧ s.Batched crc numQueues :=
  ⟨fun q => queue_in_order h q, reachable_batched h⟩

/-- Two packets come, and the first of them is forwarded. -/
def oneOfTwo : List FairQueue.Event :=
  FairQueue.put (datagram 0) ++ FairQueue.put (datagram 1) ++ FairQueue.take

theorem kept_in_order_two :
    ∃ s, FairQueue.setupFairqueue.run (fun _ _ => 0) 1 5 (fun _ => true) oneOfTwo = some s ∧
      (s.forwardedFrom 0).length = 1 ∧ (s.contents 0).length = 1 := by
  obtain ⟨s, hs, hcounts⟩ := Option.map_eq_some_iff.mp (by decide +kernel :
    (FairQueue.setupFairqueue.run (fun _ _ => 0) 1 5 (fun _ => true) oneOfTwo).map (fun s =>
      ((s.fq 0).rx + (s.rxStage 0).uncounted, (s.fq 0).tx)) = some (2, 1))
  obtain ⟨hrx, htx⟩ := Prod.mk.inj hcounts
  have hkept := (kept_in_order (FairQueue.run_reachable (.init rfl) hs)).1 0
  have hforwarded : (s.forwardedFrom 0).length = 1 := hkept.tx.symm.trans htx
  have hstored := hkept.rx.symm.trans hrx
  exact ⟨s, hs, hforwarded, by omega⟩

/-! ## A full queue -/

/-- A queue that has refused a packet is not touched any more. -/
theorem View.Next.stopped {v v' : View} (hn : Next destination v v') (h : v.Sound)
    (hfull : v.dropped ≠ []) :
    v'.queue = v.queue ∧ v'.forwarded = v.forwarded ∧ v'.dropped = v.dropped := by
  obtain ⟨l, hl⟩ := h
  have hlock : v.queue.lock = true := hl.lock.mpr (.inr hfull)
  have hout := (hl.full hfull).2.2
  cases hn with
  | none | arrive | choose => exact ⟨rfl, rfl, rfl⟩
  | lock pkt hrx hfree => exact absurd (hlock.symm.trans hfree) nofun
  | full pkt hrx => exact absurd (by rw [hrx]; trivial) hout
  | store pkt hrx => exact absurd (by rw [hrx]; trivial) hout
  | unlock hrx => exact absurd (by rw [hrx]; trivial) hout
  | dequeue htx hfree => exact absurd (hlock.symm.trans hfree) nofun

namespace FairQueue

theorem tx_waits {e : Event} (h : s.step crc numQueues destination e = some s')
    (hpc : s.txPc = .want q) (hlock : (s.fq q).lock = true) :
    s'.txPc = .want q ∧ s'.trace.forwarded = s.trace.forwarded := by
  cases e with
  | recv pkt room =>
    simp only [step, recv] at h
    split at h
    · cases h
      exact ⟨hpc, rfl⟩
    · cases h
      exact ⟨hpc, rfl⟩
    · cases h
  | rxLock =>
    simp only [step, rxLock] at h
    split at h
    · split at h
      · cases h
      · cases h
        exact ⟨hpc, rfl⟩
    · cases h
  | rxStore room =>
    simp only [step, rxStore] at h
    split at h
    · split at h
      · cases h
        exact ⟨hpc, rfl⟩
      · cases h
        exact ⟨hpc, rfl⟩
    · cases h
  | rxUnlock =>
    simp only [step, rxUnlock] at h
    split at h
    · cases h
      exact ⟨hpc, rfl⟩
    · cases h
  | txStart =>
    simp only [step, txStart, hpc] at h
    cases h
  | txLook =>
    simp only [step, txLook, hpc] at h
    cases h
  | txDequeue room =>
    simp only [step, txDequeue, hpc, hlock, if_true] at h
    cases h

theorem rx_waits {e : Event} {pkt : NfPkt} (h : s.step crc numQueues destination e = some s')
    (hpc : s.rxPc = .want q pkt) (hlock : (s.fq q).lock = true) :
    s'.rxPc = .want q pkt ∧ s'.trace.arrived = s.trace.arrived := by
  cases e with
  | recv pkt room =>
    simp only [step, recv, hpc] at h
    cases h
  | rxLock =>
    simp only [step, rxLock, hpc, hlock, if_true] at h
    cases h
  | rxStore room =>
    simp only [step, rxStore, hpc] at h
    cases h
  | rxUnlock =>
    simp only [step, rxUnlock, hpc] at h
    cases h
  | txStart =>
    simp only [step, txStart] at h
    split at h
    · cases h
      exact ⟨hpc, rfl⟩
    · cases h
  | txLook =>
    simp only [step, txLook] at h
    split at h
    · split at h
      · cases h
      · split at h
        · cases h
          exact ⟨hpc, rfl⟩
        · cases h
          exact ⟨hpc, rfl⟩
    · cases h
  | txDequeue room =>
    simp only [step, txDequeue] at h
    split at h
    · split at h
      · cases h
      · split at h
        · cases h
          exact ⟨hpc, rfl⟩
        · cases h
          exact ⟨hpc, rfl⟩
    · cases h

end FairQueue

theorem stopped_run (h : (fairQueue crc numQueues destination).Reachable s)
    (hfull : s.droppedBy (some q) ≠ [])
    (hrun : Relation.ReflTransGen (fairQueue crc numQueues destination).Next s s') :
    (fairQueue crc numQueues destination).Reachable s' ∧ s'.fq q = s.fq q ∧
      s'.forwardedFrom q = s.forwardedFrom q ∧ s'.droppedBy (some q) = s.droppedBy (some q) := by
  induction hrun with
  | refl => exact ⟨h, rfl, rfl, rfl⟩
  | tail hrun hnext ih =>
    obtain ⟨hreach, hqueue, hforwarded, hdropped⟩ := ih
    obtain ⟨e, hstep⟩ := hnext
    have hsound := reachable_sound_view hreach q
    have hne : (FairQueue.view crc numQueues _ q).dropped ≠ [] := hdropped.symm ▸ hfull
    obtain ⟨hq, hf, hd⟩ := (FairQueue.step_view hstep q).stopped hsound hne
    exact ⟨hreach.step ⟨e, hstep⟩, hq.trans hqueue, hf.trans hforwarded, hd.trans hdropped⟩

/-- **Main**: a queue that was once found full is never used again: whatever the threads do
from then on, its lock is held and nothing is put into it or forwarded from it. A thread that
comes to it waits there for ever, and the NF forwards, or takes in, nothing more. -/
theorem full_queue_stops (h : (fairQueue crc numQueues destination).Reachable s)
    (hfull : s.droppedBy (some q) ≠ [])
    (hrun : Relation.ReflTransGen (fairQueue crc numQueues destination).Next s s') :
    s'.fq q = s.fq q ∧ (s'.fq q).lock = true ∧ s'.forwardedFrom q = s.forwardedFrom q ∧
    (s.txPc = .want q → s'.txPc = .want q ∧ s'.trace.forwarded = s.trace.forwarded) ∧
    ∀ pkt, s.rxPc = .want q pkt → s'.rxPc = .want q pkt ∧ s'.trace.arrived = s.trace.arrived := by
  obtain ⟨-, hqueue, hforwarded, -⟩ := stopped_run h hfull hrun
  obtain ⟨l, hl⟩ := reachable_sound_view h q
  have hlock : (s.fq q).lock = true := hl.lock.mpr (.inr hfull)
  refine ⟨hqueue, hqueue ▸ hlock, hforwarded, fun hpc => ?_, fun pkt hpc => ?_⟩
  · clear hqueue hforwarded
    induction hrun with
    | refl => exact ⟨hpc, rfl⟩
    | tail hrun hnext ih =>
      obtain ⟨-, hqueue, -⟩ := stopped_run h hfull hrun
      obtain ⟨e, hstep⟩ := hnext
      obtain ⟨hpc', hsame⟩ := FairQueue.tx_waits hstep ih.1 (hqueue ▸ hlock)
      exact ⟨hpc', hsame.trans ih.2⟩
  · clear hqueue hforwarded
    induction hrun with
    | refl => exact ⟨hpc, rfl⟩
    | tail hrun hnext ih =>
      obtain ⟨-, hqueue, -⟩ := stopped_run h hfull hrun
      obtain ⟨e, hstep⟩ := hnext
      obtain ⟨hpc', hsame⟩ := FairQueue.rx_waits hstep ih.1 (hqueue ▸ hlock)
      exact ⟨hpc', hsame.trans ih.2⟩

/-- One packet more than the queue takes. -/
theorem full_queue_stops_datagrams :
    ∃ s, (fairQueue (fun _ _ => 0) 1 5).Reachable s ∧ s.droppedBy (some 0) ≠ [] ∧
      ∀ s', Relation.ReflTransGen (fairQueue (fun _ _ => 0) 1 5).Next s s' →
        s'.forwardedFrom 0 = s.forwardedFrom 0 := by
  obtain ⟨s₀, hs₀, hidle, hlen, -, hnone⟩ := fill_datagrams (Nat.le_refl queueSize)
  obtain ⟨s, hs, -, -, -, hfull, -⟩ := one_more datagram_queue hs₀ hidle hnone
  have hdrop := hfull ((full_iff_length hs₀ hidle).mpr hlen)
  exact ⟨s, hs, hdrop, fun s' hrun => (full_queue_stops hs hdrop hrun).2.2.1⟩

end Onvm.Nf

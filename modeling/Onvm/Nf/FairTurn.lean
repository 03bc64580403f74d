import Mathlib.Algebra.Order.Group.Abs
import Mathlib.Algebra.Order.Ring.Int
import Onvm.Lib.RoundRobin
import Onvm.Nf.FairOrder

/-!
# Queues are served in turn

The round robin of `get_dequeue_qid`, while the other thread fills the queues. `Turns` is the
part of the state that decides whose turn it is, and `Turns.Next` says all that an operation
can do to it. As long as two queues have packets, they are served by turns
(`served_in_turn`).
-/

namespace Onvm.Nf

open Onvm.Lib Onvm.Pkt

/-- Where the thread that empties the queues is in its round, which queues it has served, and
which have a packet at their head. -/
structure Turns where
  qid : Nat
  txPc : TxPc
  served : List Nat
  waiting : Nat → Bool

namespace FairQueue

def waiting (s : FairQueue) (q : Nat) : Bool := ((s.fq q).pkts (s.fq q).head).isSome

def turns (s : FairQueue) : Turns where
  qid := s.qid
  txPc := s.txPc
  served := s.trace.forwarded.map Prod.fst
  waiting := s.waiting

end FairQueue

namespace Turns

inductive Next (n : Nat) (p p' : Turns) : Prop where
  | same : p'.qid = p.qid → p'.txPc = p.txPc → p'.served = p.served → Next n p p'
  | start : p.txPc = .idle → p'.qid = p.qid → p'.txPc = .scan p.qid → p'.served = p.served →
      Next n p p'
  | pass (start : Nat) : p.txPc = .scan start → p.waiting p.qid = false →
      p'.qid = (p.qid + 1) % n → (p'.txPc = .idle ∨ p'.txPc = .scan start) →
      p'.served = p.served → Next n p p'
  | choose (start : Nat) : p.txPc = .scan start → p'.qid = (p.qid + 1) % n →
      p'.txPc = .want p.qid → p'.served = p.served → Next n p p'
  | serve (q : Nat) : p.txPc = .want q → p'.qid = p.qid → p'.txPc = .idle →
      p'.served = p.served ++ [q] → Next n p p'
  | nothing (q : Nat) : p.txPc = .want q → p.waiting q = false → p'.qid = p.qid →
      p'.txPc = .idle → p'.served = p.served → Next n p p'

end Turns

/-! ## What the operations do -/

namespace FairQueue

variable {crc : BitVec 32 → BitVec 32 → BitVec 32} {numQueues destination : Nat}
  {s s' : FairQueue}

theorem rx_turns {e : Event} (h : s.step crc numQueues destination e = some s')
    (he : (∃ pkt room, e = .recv pkt room) ∨ e = .rxLock ∨ (∃ room, e = .rxStore room) ∨
      e = .rxUnlock) : s'.qid = s.qid ∧ s'.txPc = s.txPc ∧
        s'.trace.forwarded = s.trace.forwarded := by
  rcases he with ⟨pkt, room, rfl⟩ | rfl | ⟨room, rfl⟩ | rfl
  · simp only [step, recv] at h
    split at h <;> cases h <;> exact ⟨rfl, rfl, rfl⟩
  · simp only [step, rxLock] at h
    split at h
    · split at h <;> cases h
      exact ⟨rfl, rfl, rfl⟩
    · cases h
  · simp only [step, rxStore] at h
    split at h
    · split at h <;> cases h <;> exact ⟨rfl, rfl, rfl⟩
    · cases h
  · simp only [step, rxUnlock] at h
    split at h <;> cases h
    exact ⟨rfl, rfl, rfl⟩

/-- **All that an operation does to the round.** -/
theorem step_turns {e : Event} (h : s.step crc numQueues destination e = some s') :
    Turns.Next numQueues s.turns s'.turns := by
  have hsame : s'.qid = s.qid ∧ s'.txPc = s.txPc ∧ s'.trace.forwarded = s.trace.forwarded →
      Turns.Next numQueues s.turns s'.turns := fun ⟨hqid, hpc, hforw⟩ =>
    .same hqid hpc (congrArg (List.map Prod.fst) hforw)
  cases e with
  | recv pkt room => exact hsame (rx_turns h (.inl ⟨pkt, room, rfl⟩))
  | rxLock => exact hsame (rx_turns h (.inr (.inl rfl)))
  | rxStore room => exact hsame (rx_turns h (.inr (.inr (.inl ⟨room, rfl⟩))))
  | rxUnlock => exact hsame (rx_turns h (.inr (.inr (.inr rfl))))
  | txStart =>
    simp only [step, txStart] at h
    split at h
    · rename_i hpc
      cases h
      exact .start hpc rfl rfl rfl
    · cases h
  | txLook =>
    simp only [step, txLook] at h
    split at h
    · rename_i start hpc
      split at h
      · cases h
      · split at h
        · cases h
          exact .choose start hpc rfl rfl rfl
        · rename_i hempty
          cases h
          refine .pass start hpc (Bool.eq_false_iff.mpr hempty) rfl ?_ rfl
          show (if _ then TxPc.idle else TxPc.scan start) = _ ∨ (if _ then _ else _) = _
          split
          · exact .inl rfl
          · exact .inr rfl
    · cases h
  | txDequeue room =>
    simp only [step, txDequeue] at h
    split at h
    · rename_i q hpc
      split at h
      · cases h
      · split at h
        · rename_i hnull
          cases h
          have hwaiting : s.waiting q = false := by rw [waiting, hnull]; rfl
          exact .nothing q hpc hwaiting rfl rfl rfl
        · rename_i pkt hpkt
          cases h
          exact .serve q hpc rfl rfl (List.map_append ..)
    · cases h

end FairQueue

/-! ## The order of turns -/

namespace Turns

variable {n a b : Nat} {p p' : Turns}

/-- A queue that was chosen is the one before the pointer. -/
structure InTurn (n : Nat) (p : Turns) : Prop where
  qid_lt : p.qid < n
  chosen : ∀ q, p.txPc = .want q → q < n ∧ p.qid = (q + 1) % n

theorem Next.inTurn (hn : Next n p p') (h : p.InTurn n) : p'.InTurn n := by
  cases hn with
  | same hqid hpc _ => exact ⟨hqid ▸ h.qid_lt, fun q hq => hqid ▸ h.chosen q (hpc ▸ hq)⟩
  | start _ hqid hpc _ =>
    refine ⟨hqid ▸ h.qid_lt, fun q hq => ?_⟩
    rw [hpc] at hq
    cases hq
  | pass start _ _ hqid hpc _ =>
    refine ⟨hqid ▸ next_lt h.qid_lt, fun q hq => ?_⟩
    rcases hpc with hpc | hpc <;>
    · rw [hpc] at hq
      cases hq
  | choose start _ hqid hpc _ =>
    refine ⟨hqid ▸ next_lt h.qid_lt, fun q hq => ?_⟩
    rw [hpc] at hq
    cases hq
    exact ⟨h.qid_lt, hqid⟩
  | serve q _ hqid hpc _ | nothing q _ _ hqid hpc _ =>
    refine ⟨hqid ▸ h.qid_lt, fun q hq => ?_⟩
    rw [hpc] at hq
    cases hq

def pending (p : Turns) (q : Nat) : Int :=
  match p.txPc with
  | .want q' => if q' = q then 1 else 0
  | _ => 0

def choices (p : Turns) (q : Nat) : Int := p.served.count q + p.pending q

/-- Queue `b` has its turn before `a`. -/
def behind (n : Nat) (p : Turns) (a b : Nat) : Int := if Before n p.qid b a then 1 else 0

/-- By how much `a` is ahead of `b`, when all turns that are due have been taken. -/
def lead (n : Nat) (p : Turns) (a b : Nat) : Int := p.choices a - p.choices b - p.behind n a b

theorem pending_idle (h : p.txPc = .idle) (q : Nat) : p.pending q = 0 := by rw [pending, h]

theorem pending_scan {start : Nat} (h : p.txPc = .scan start) (q : Nat) : p.pending q = 0 := by
  rw [pending, h]

theorem pending_want {q' : Nat} (h : p.txPc = .want q') (q : Nat) :
    p.pending q = if q' = q then 1 else 0 := by
  rw [pending, h]

/-- **One operation** leaves the lead as it is while both queues have packets. -/
theorem Next.lead (hn : Next n p p') (h : p.InTurn n) (ha : a < n) (hb : b < n) (hne : a ≠ b)
    (hwa : p.waiting a = true) (hwb : p.waiting b = true) : p'.lead n a b = p.lead n a b := by
  cases hn with
  | same hqid hpc hserved => simp only [Turns.lead, choices, pending, behind, hqid, hpc, hserved]
  | start hpc hqid hpc' hserved =>
    simp only [Turns.lead, choices, pending_idle hpc, pending_scan hpc', behind, hqid, hserved]
  | pass start hpc hempty hqid hpc' hserved =>
    have hpend : ∀ q, p'.pending q = 0 := fun q => by
      rcases hpc' with hpc' | hpc'
      · exact pending_idle hpc' q
      · exact pending_scan hpc' q
    have hqa : p.qid ≠ a := fun he => by
      rw [he, hwa] at hempty
      cases hempty
    have hqb : p.qid ≠ b := fun he => by
      rw [he, hwb] at hempty
      cases hempty
    simp only [Turns.lead, choices, hpend, pending_scan hpc, behind, hqid, hserved,
      before_next h.qid_lt hb ha hqb hqa]
  | choose start hpc hqid hpc' hserved =>
    simp only [Turns.lead, choices, pending_want hpc', pending_scan hpc, behind, hqid, hserved]
    obtain ⟨hfirst, hlast⟩ := before_next_self ha hb hne
    obtain ⟨hfirst', hlast'⟩ := before_next_self hb ha hne.symm
    by_cases hqa : p.qid = a
    · rw [hqa, if_pos rfl, if_neg hne, if_pos hfirst', if_neg not_before_self]
      omega
    · by_cases hqb : p.qid = b
      · rw [hqb, if_neg hne.symm, if_pos rfl, if_neg hlast',
          if_pos (before_self hb ha hne.symm)]
        omega
      · rw [if_neg hqa, if_neg hqb]
        simp only [before_next h.qid_lt hb ha hqb hqa]
  | serve q hpc hqid hpc' hserved =>
    simp only [Turns.lead, choices, pending_want hpc, pending_idle hpc', behind, hqid, hserved,
      List.count_append, List.count_singleton]
    by_cases hqa : q = a
    · have hqb : q ≠ b := fun he => hne (hqa.symm.trans he)
      simp [hqa, hne]
    · by_cases hqb : q = b
      · simp [hqb, hne.symm]
      · simp [hqa, hqb]
  | nothing q hpc hempty hqid hpc' hserved =>
    have hqa : q ≠ a := fun he => by
      rw [he, hwa] at hempty
      cases hempty
    have hqb : q ≠ b := fun he => by
      rw [he, hwb] at hempty
      cases hempty
    simp only [Turns.lead, choices, pending_want hpc, pending_idle hpc', behind, hqid, hserved,
      if_neg hqa, if_neg hqb]

/-- A turn that is due counts once, whether it has been taken or not. -/
theorem slack (h : p.InTurn n) (ha : a < n) (hb : b < n) (hne : a ≠ b) :
    0 ≤ p.behind n a b - (p.pending a - p.pending b) ∧
      p.behind n a b - (p.pending a - p.pending b) ≤ 1 := by
  have hbehind : 0 ≤ p.behind n a b ∧ p.behind n a b ≤ 1 := by
    unfold behind
    split <;> omega
  cases hpc : p.txPc with
  | idle =>
    rw [pending_idle hpc, pending_idle hpc]
    omega
  | scan start =>
    rw [pending_scan hpc, pending_scan hpc]
    omega
  | want q =>
    rw [pending_want hpc, pending_want hpc]
    obtain ⟨-, hqid⟩ := h.chosen q hpc
    by_cases hqa : q = a
    · have hfirst : p.behind n a b = 1 := by
        rw [behind, hqid, hqa, if_pos (before_next_self hb ha hne.symm).1]
      rw [hfirst, if_pos hqa, if_neg fun he => hne (hqa.symm.trans he)]
      omega
    · by_cases hqb : q = b
      · have hlast : p.behind n a b = 0 := by
          rw [behind, hqid, hqb, if_neg (before_next_self hb ha hne.symm).2]
        rw [hlast, if_neg hqa, if_pos hqb]
        omega
      · rw [if_neg hqa, if_neg hqb]
        omega

end Turns

/-! ## All runs -/

variable {crc : BitVec 32 → BitVec 32 → BitVec 32} {numQueues destination a b : Nat}
  {s s' : FairQueue}

theorem reachable_inTurn (hn : 0 < numQueues)
    (h : (fairQueue crc numQueues destination).Reachable s) : s.turns.InTurn numQueues :=
  h.induct (P := fun s => s.turns.InTurn numQueues)
    (fun s hs => by
      rw [hs]
      exact ⟨hn, fun q hq => by cases hq⟩)
    fun _ _ _ hs ⟨_, hstep⟩ => (FairQueue.step_turns hstep).inTurn hs

theorem served_count (s : FairQueue) (q : Nat) :
    s.turns.served.count q = (s.forwardedFrom q).length := by
  rw [FairQueue.forwardedFrom, List.length_map, FairQueue.turns, List.count, List.countP_map,
    List.countP_eq_length_filter]
  rfl

/-- What the lead says about the packets that were forwarded. -/
theorem lead_forwarded (s : FairQueue) :
    ((s.forwardedFrom a).length : Int) - (s.forwardedFrom b).length =
      s.turns.lead numQueues a b +
        (s.turns.behind numQueues a b - (s.turns.pending a - s.turns.pending b)) := by
  rw [Turns.lead, Turns.choices, Turns.choices, served_count, served_count]
  omega

/-- **Main**: while two queues have packets, each time one of them is served the other is
served before it comes again, whatever the other thread does: from any state on, the packets
that were forwarded from one are at most one more than those from the other. -/
theorem served_in_turn (h : (fairQueue crc numQueues destination).Reachable s)
    (ha : a < numQueues) (hb : b < numQueues) (hne : a ≠ b)
    (hrun : Relation.ReflTransGen (fun s s' => (fairQueue crc numQueues destination).Next s s' ∧
      s.waiting a = true ∧ s.waiting b = true) s s') :
    |((s'.forwardedFrom a).length - (s.forwardedFrom a).length : Int) -
      ((s'.forwardedFrom b).length - (s.forwardedFrom b).length)| ≤ 1 := by
  have hrest : (fairQueue crc numQueues destination).Reachable s' ∧
      s'.turns.lead numQueues a b = s.turns.lead numQueues a b := by
    induction hrun with
    | refl => exact ⟨h, rfl⟩
    | tail _ hnext ih =>
      obtain ⟨hreach, hlead⟩ := ih
      obtain ⟨⟨e, hstep⟩, hwa, hwb⟩ := hnext
      have hturn := reachable_inTurn (Nat.zero_lt_of_lt ha) hreach
      have hsame := (FairQueue.step_turns hstep).lead hturn ha hb hne hwa hwb
      exact ⟨hreach.step ⟨e, hstep⟩, hsame.trans hlead⟩
  obtain ⟨hreach, hlead⟩ := hrest
  have hfst : _ = s.turns.lead numQueues a b + _ := lead_forwarded s
  have hsnd : _ = s'.turns.lead numQueues a b + _ := lead_forwarded s'
  have hslack := Turns.slack (reachable_inTurn (Nat.zero_lt_of_lt ha) h) ha hb hne
  have hslack' := Turns.slack (reachable_inTurn (Nat.zero_lt_of_lt ha) hreach) ha hb hne
  rw [abs_le]
  omega

/-- Four packets for two queues, and then two that are forwarded. -/
theorem served_in_turn_two :
    ∃ s s' : FairQueue, (fairQueue (· + ·) 2 5).Reachable s ∧ s'.trace.forwarded.length = 2 ∧
      |((s'.forwardedFrom 0).length - (s.forwardedFrom 0).length : Int) -
        ((s'.forwardedFrom 1).length - (s.forwardedFrom 1).length)| ≤ 1 := by
  obtain ⟨s', hs', hlen⟩ := Option.map_eq_some_iff.mp (by decide +kernel :
    ((FairQueue.setupFairqueue.run (· + ·) 2 5 (fun _ => true)
        ([datagram 0, datagram 1, datagram 0, datagram 1].flatMap FairQueue.put)).bind
      fun s => s.run (· + ·) 2 5 (fun s => s.waiting 0 && s.waiting 1)
        (FairQueue.take ++ FairQueue.take)).map (fun s => s.trace.forwarded.length) = some 2)
  obtain ⟨s, hs, hrun⟩ := Option.bind_eq_some_iff.mp hs'
  have hreach := FairQueue.run_reachable (.init rfl) hs
  have hsteps := FairQueue.run_steps hrun
  simp only [Bool.and_eq_true] at hsteps
  exact ⟨s, s', hreach, hlen, served_in_turn hreach (by decide) (by decide) (by decide) hsteps⟩

end Onvm.Nf

import Onvm.Afxdp.Progress

/-!
# Reservations that cannot fail

`afxdp_handle_receive` asks `xsk_prod_nb_free` how many slots a ring has and
reserves no more. Between the two the kernel may consume, which only adds
slots, so the first `xsk_ring_prod__reserve` gets all of them, at any value of
the four wrapping indices. The retry loop on the Fill ring is left at once, and
a call takes a bounded number of the thread's own operations whatever the
kernel does meanwhile.
-/

namespace Onvm.Afxdp

open Onvm.Lib

namespace Flow

/-- A bound on the steps from the TX part of a call to its return; 0 elsewhere. -/
def rank (a : Flow) : Nat :=
  match a.pc with
  | .txNbFree => 8 * a.rxTodo.length + 9
  | .txReserve => 8 * a.rxTodo.length + 8
  | .txReadAddr => 8 * a.rxTodo.length + 7
  | .txReadLen => 8 * a.rxTodo.length + 6
  | .txWriteAddr => 8 * a.rxTodo.length + 5
  | .txWriteLen => 8 * a.rxTodo.length + 4
  | .txSubmit => 3 * a.rxTodo.length + 3
  | .dropReadAddr => 3 * a.rxTodo.length + 2
  | .dropReadLen => 3 * a.rxTodo.length + 1
  | .releaseRx => 1
  | _ => 0

theorem rank_dropPc {a : Flow} (h : a.pc = dropPc a.rxTodo) :
    0 < a.rank ∧ a.rank ≤ 3 * a.rxTodo.length + 2 := by
  unfold dropPc at h
  split at h <;> simp only [rank, h] <;> omega

/-- The rest of a call gets closer to its end with every step. -/
theorem Thread.rank_lt {a a' : Flow} (h : Thread a a') (hc : a.Conserved) (h0 : 0 < a.rank) :
    a'.rank < a.rank ∧ (a'.rank = 0 → a'.pc = .idle) := by
  have hna := h.pc_ne_abort hc
  have hdrop := rank_dropPc (a := a')
  cases h with
  | txNbFree n hpc =>
    by_cases hb : 0 < min n a.rxTodo.length
    · simp [rank, hpc, hb]
    · simp [rank, hpc, hb]
      omega
  | txWriteLen d l hpc htodo =>
    by_cases hb : a.txWr.length + 1 < a.txRes <;> simp [rank, hpc, hb, htodo] <;> omega
  | txSubmit hpc =>
    have hr : a.rank = 3 * a.rxTodo.length + 3 := by simp only [rank, hpc]
    obtain ⟨h1, h2⟩ := hdrop rfl
    rw [hr]
    exact ⟨Nat.lt_succ_of_le h2, fun hz => absurd hz (Nat.ne_of_gt h1)⟩
  | drop d l hpc htodo =>
    have hr : a.rank = 3 * l.length + 4 := by
      simp only [rank, hpc, htodo, List.length_cons]; omega
    obtain ⟨h1, h2⟩ := hdrop rfl
    rw [hr]
    exact ⟨by simp only at h2 ⊢; omega, fun hz => absurd hz (Nat.ne_of_gt h1)⟩
  | releaseRx hpc => simp [rank, hpc]
  | dropAbort => exact absurd rfl hna
  | txReserve hpc | txReadAddr hpc | txReadLen hpc | txWriteAddr hpc | dropReadAddr hpc =>
    simp [rank, hpc]
  | _ => simp_all [rank]

/-- A bound on the operations from the TX part of a call to its return. -/
def leftTx (a : Flow) : Nat := 8 * a.rxTodo.length + 9

/-- The same from `xsk_ring_cons__peek` on the RX ring. -/
def leftRx : Nat := 8 * afxdpRxBatchSize + 9 + afxdpFillRingSize + 4

/-- A bound on the operations the running call has still to perform. -/
def left (a : Flow) : Nat :=
  match a.pc with
  | .idle | .abort => 0
  | .peekCq => leftRx + afxdpCompRingSize + 2
  | .reclaim => leftRx + a.cqTodo.length + 1
  | .releaseCq => leftRx + 1
  | .peekRx => leftRx
  | .fillNbFree => a.leftTx + afxdpFillRingSize + 3
  | .fillReserve => a.leftTx + a.fillFree + 2
  | .fillWrite => a.leftTx + (a.fillRes - a.fillWr.length) + 1
  | .fillSubmit => a.leftTx + 1
  | .txNbFree | .txReserve | .txReadAddr | .txReadLen | .txWriteAddr | .txWriteLen | .txSubmit |
    .dropReadAddr | .dropReadLen | .releaseRx => a.rank

/-- No call takes more operations than this. -/
def leftMax : Nat := leftRx + afxdpCompRingSize + 2

theorem rank_le_leftTx (a : Flow) : a.rank ≤ a.leftTx := by
  unfold rank leftTx
  split <;> omega

theorem left_of_rank {a : Flow} (h : 0 < a.rank) : a.left = a.rank := by
  unfold left
  split <;> simp_all [rank]

theorem Kernel.left_eq {a a' : Flow} (h : Kernel a a') : a'.left = a.left := by
  cases h <;> rfl

/-- Every operation of a call brings its return closer. -/
theorem Thread.left_lt {a a' : Flow} (h : Thread a a') (hs : a.Shape) (hr : a.Room)
    (hc : a.Conserved) (hcq : a'.cqTodo.length ≤ afxdpCompRingSize) (hpc : a.pc ≠ .idle) :
    a'.left < a.left := by
  have hr' := h.room hs hr
  rcases Nat.eq_zero_or_pos a.rank with h0 | h0
  · cases h with
    | enter hp => exact absurd hp hpc
    | peekCq n hp hn =>
      by_cases hb : 0 < n
      · simp only [left, hp, if_pos hb]
        simp only at hcq
        omega
      · simp only [left, hp, if_neg hb]
        omega
    | reclaim x l hp htodo =>
      by_cases hb : l = [] <;>
        simp only [left, hp, hb, htodo, if_true, if_false, List.length_cons, List.length_nil] <;>
        omega
    | reclaimAbort hp => simp only [left, hp]; omega
    | releaseCq hp => simp only [left, hp]; omega
    | peekRxNone hp => simp only [left, hp, leftRx]; omega
    | peekRx n hp hn hle hb =>
      simp only [left, hp, leftTx, leftRx, List.length_take]
      omega
    | fillNbFree n hp hn =>
      have hle : n ≤ afxdpFillRingSize := by
        have := hr'.1
        simp only at this
        omega
      have htx := rank_le_leftTx { a with fillFree := n, pc := .txNbFree }
      by_cases hb : 0 < n
      · simp only [left, hp, if_pos hb, leftTx]
        omega
      · simp only [left, hp, if_neg hb, leftTx, rank]
        omega
    | fillReserve hp =>
      simp only [Shape, hp] at hs
      have hw : a.fillWr = [] := hs.2.1.1
      simp only [left, hp, leftTx, hw, List.length_nil]
      omega
    | fillWrite x l hp | fillSentinel hp =>
      simp only [Shape, hp] at hs
      have hw : a.fillWr.length < a.fillRes := hs.2.1.1
      by_cases hb : a.fillWr.length + 1 < a.fillRes <;>
        simp only [left, hp, leftTx, hb, if_true, if_false, List.length_append, List.length_cons,
          List.length_nil] <;>
        omega
    | fillSubmit hp => simp only [left, hp, leftTx, rank]; omega
    | _ => simp_all [rank]
  · obtain ⟨hlt, -⟩ := h.rank_lt hc h0
    rw [left_of_rank h0]
    rcases Nat.eq_zero_or_pos a'.rank with h1 | h1
    · have : a'.left = 0 := by
        have hidle := (h.rank_lt hc h0).2 h1
        simp only [left, hidle]
      omega
    · rw [left_of_rank h1]
      exact hlt

theorem Thread.left_of_enter {a a' : Flow} (h : Thread a a') (hpc : a.pc = .idle) :
    a'.left ≤ leftMax := by
  cases h with
  | enter =>
    by_cases h0 : a.outstandingTx = 0 <;> simp only [left, h0, if_true, if_false, leftMax] <;> omega
  | _ => simp_all only [reduceCtorEq]

end Flow

/-! ## A call, interleaved with the kernel -/

/-- One call of `afxdp_handle_receive` entered at the first state: after `k`
operations of the thread, and any number of the kernel's, the call is at the
last state or has just returned there. -/
inductive InCall : Datapath → Nat → Datapath → Prop where
  | enter {s s' : Datapath} : s.pc = .idle → s.ustep = some s' → InCall s 1 s'
  | thread {s s' s'' : Datapath} {k : Nat} : InCall s k s' → s'.pc ≠ .idle →
      s'.ustep = some s'' → InCall s (k + 1) s''
  | kernel {s s' s'' : Datapath} {k : Nat} : InCall s k s' → KStep s' s'' → InCall s k s''

theorem InCall.reachable {s s' : Datapath} {k : Nat} (h : InCall s k s')
    (hr : datapath.Reachable s) : datapath.Reachable s' := by
  induction h with
  | enter _ hu => exact hr.step (.inl hu)
  | thread _ _ hu ih => exact ih.step (.inl hu)
  | kernel _ hk ih => exact ih.step (.inr hk)

theorem InCall.left {s s' : Datapath} {k : Nat} (h : InCall s k s') {a : Flow}
    (hr : flow.Reachable a) (hR : Rep s a) :
    ∃ a', flow.Reachable a' ∧ Rep s' a' ∧ k + a'.left ≤ Flow.leftMax + 1 := by
  induction h with
  | enter hpc hu =>
    obtain ⟨a', ht, hR'⟩ := sim_ustep hR (flow_shape hr) hu
    have := ht.left_of_enter (hR.pc.symm.trans hpc)
    exact ⟨a', hr.step (.inl ht), hR', by omega⟩
  | thread _ hpc hu ih =>
    obtain ⟨b, hb, hRb, hle⟩ := ih
    obtain ⟨a', ht, hR'⟩ := sim_ustep hRb (flow_shape hb) hu
    have hcq : a'.cqTodo.length ≤ afxdpCompRingSize := by
      have := hR'.cq.fits
      simp only [List.length_append] at this
      omega
    have := ht.left_lt (flow_shape hb) (flow_room hb) (flow_conserved hb) hcq (hRb.pc ▸ hpc)
    exact ⟨a', hb.step (.inl ht), hR', by omega⟩
  | kernel _ hk ih =>
    obtain ⟨b, hb, hRb, hle⟩ := ih
    obtain ⟨a', ht, hR'⟩ := sim_kstep hRb hk
    exact ⟨a', hb.step (.inr ht), hR', by rw [ht.left_eq]; exact hle⟩

/-! ## The reservations -/

/-- The operations one call of `afxdp_handle_receive` takes at most. -/
def callSteps : Nat := Flow.leftMax + 1

/-- **Reservations sized by `xsk_prod_nb_free` get every slot they ask for**:
the first one on either ring returns the requested count, so the retry loop is
never entered; a TX descriptor is written in a slot reserved for this batch and
shared with no entry the kernel still owns; the call cannot get stuck and
returns after a bounded number of its own operations. -/
theorem reserve_exact {s : Datapath} (h : datapath.Reachable s) :
    (s.pc = .fillReserve →
      (s.fq.reserve s.loc.stockFrames s.loc.idxFq).1 = s.loc.stockFrames ∧
        ∀ s', s.ustep = some s' → s'.pc = .fillWrite) ∧
    (s.pc = .txReserve → (s.tx.reserve s.loc.toTx s.loc.idxTx).1 = s.loc.toTx) ∧
    (s.pc = .txWriteAddr ∨ s.pc = .txWriteLen →
      s.loc.idxTx = s.tx.producer + BitVec.ofNat 32 s.loc.i ∧ s.loc.i < s.loc.toTx ∧
        s.tx.Reserved s.loc.idxTx ∧
        ∀ idx, s.tx.Published idx →
          s.loc.idxTx.toNat % afxdpTxRingSize ≠ idx.toNat % afxdpTxRingSize) ∧
    (∀ k s', InCall s k s' →
      k ≤ callSteps ∧ (s'.pc = .idle ∨ ∃ s'', InCall s (k + 1) s'')) := by
  obtain ⟨a, ha, hR⟩ := reachable_rep h
  have hs := flow_shape ha
  have hloc := hR.locals
  refine ⟨fun hpc => ?_, fun hpc => ?_, fun hpc => ?_, fun k s' hc => ⟨?_, ?_⟩⟩
  · have hpa := hR.pc.symm.trans hpc
    simp only [Flow.Shape, hpa] at hs
    simp only [LocalsRep, hpa] at hloc
    have hfq := hR.fq
    rw [hs.2.1.1, hs.2.1.2.1] at hfq
    have hret := (hfq.reserve fillSize (Nat.le_of_eq hloc.2) s.loc.idxFq).1
    refine ⟨hret, fun s' hu => ?_⟩
    simp only [Datapath.ustep, hpc, hret, if_true, Option.some.injEq] at hu
    rw [← hu]
  · have hpa := hR.pc.symm.trans hpc
    simp only [Flow.Shape, hpa] at hs
    simp only [LocalsRep, hpa] at hloc
    have htx := hR.tx
    rw [hs.2.2.1.1, hs.2.2.1.2] at htx
    exact (htx.reserve txSize (by rw [hloc.2]; exact hs.2.2.2.2.2.1) s.loc.idxTx).1
  · have hb : a.Bouncing ∧ TxRep s.loc s.tx.producer a := by
      rcases hpc with hpc | hpc
      all_goals
        have hpa := hR.pc.symm.trans hpc
        simp only [Flow.Shape, hpa] at hs
        simp only [LocalsRep, hpa] at hloc
        exact ⟨hs.2.2, hloc.2.1⟩
    obtain ⟨⟨hres, -, hlt, -⟩, hto, hi, hidx⟩ := hb
    have hreserved : s.tx.Reserved s.loc.idxTx := by
      rw [hidx]
      exact hR.tx.reserved txSize hlt
    exact ⟨by rw [hidx, hi], by omega, hreserved, fun idx hp => hR.tx.cell_ne txSize hreserved hp⟩
  · obtain ⟨a', -, -, hle⟩ := hc.left ha hR
    exact Nat.le_trans (Nat.le_add_right _ _) hle
  · by_cases hpc : s'.pc = .idle
    · exact .inl hpc
    · obtain ⟨a', ha', hR'⟩ := reachable_rep (hc.reachable h)
      obtain ⟨s'', hu⟩ := ustep_total (s := s') (by rw [hR'.pc]; exact flow_pc_ne_abort ha')
      exact .inr ⟨s'', hc.thread hpc hu⟩

/-- A call that has received a packet and is to refill the Fill ring, and the calls
that follow when it has returned. -/
theorem reserve_exact_round :
    (∃ s, datapath.Reachable s ∧ s.pc = .fillReserve ∧ 0 < s.loc.stockFrames ∧
      (s.fq.reserve s.loc.stockFrames s.loc.idxFq).1 = s.loc.stockFrames) ∧
    ∃ s, datapath.Reachable s ∧ s.calls.length = 1 ∧
      ∀ k s', InCall s k s' → k ≤ callSteps ∧ (s'.pc = .idle ∨ ∃ s'', InCall s (k + 1) s'') := by
  constructor
  · obtain ⟨a, x, ha, hpc, hfree, hfill⟩ := firstReceived
    obtain ⟨b, ht, hb⟩ := ha.next
    cases ht with
    | fillNbFree n _ hn =>
      have hamount := Flow.refill_amount (flow_shape ha.reach) hpc
      rw [if_neg (List.ne_nil_of_length_pos (by rw [hfree]; decide))] at hamount
      have hpos : 0 < n := by
        rw [hn, hamount]
        omega
      rw [if_pos hpos] at hb
      obtain ⟨s, hr, hR⟩ := hb.run
      have hloc := hR.locals
      simp only [LocalsRep] at hloc
      exact ⟨s, hr.of_within.1, hR.pc, hloc.2 ▸ hpos,
        ((reserve_exact hr.of_within.1).1 hR.pc).1⟩
    | _ => simp_all only [reduceCtorEq]
  · obtain ⟨a, x, h⟩ := firstRound
    obtain ⟨s, hr, hR⟩ := h.attained.run
    exact ⟨s, hr.of_within.1, by rw [hR.calls, h.calls]; rfl,
      (reserve_exact hr.of_within.1).2.2.2⟩

end Onvm.Afxdp

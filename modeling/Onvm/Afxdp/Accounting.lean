import Onvm.Afxdp.Conservation

/-!
# Bouncing and accounting

What each call did with its batch and what the counters of the socket add up
to, over whole runs. The history of finished calls is compared with the
counters; while a call runs the difference is in the lists it has not finished
with.
-/

namespace Onvm.Afxdp

open Onvm.Lib

/-- The call submitted the first packets of its batch, as many as had a TX
slot, and freed the others; no frame is in the batch twice. -/
def CallRecord.Bounced (c : CallRecord) : Prop :=
  c.submitted = c.batch.take (min c.batch.length c.txFree) ∧
    c.freed = (c.batch.drop (min c.batch.length c.txFree)).map XdpDesc.addr ∧
    (Flow.frames (c.batch.map XdpDesc.addr)).Nodup

/-- Nothing was received yet. -/
def CallRecord.Fresh (c : CallRecord) : Prop := c.batch = [] ∧ c.submitted = [] ∧ c.freed = []

def batches (cs : List CallRecord) : List XdpDesc := cs.flatMap CallRecord.batch

def submissions (cs : List CallRecord) : List XdpDesc := cs.flatMap CallRecord.submitted

def reclaims (cs : List CallRecord) : List Nat := cs.flatMap CallRecord.reclaimed

/-- The total length of some descriptors. -/
def bytes (l : List XdpDesc) : Nat := (l.map XdpDesc.len).sum

@[simp] theorem batches_snoc (cs : List CallRecord) (c : CallRecord) :
    batches (cs ++ [c]) = batches cs ++ c.batch := by simp [batches]

@[simp] theorem submissions_snoc (cs : List CallRecord) (c : CallRecord) :
    submissions (cs ++ [c]) = submissions cs ++ c.submitted := by simp [submissions]

@[simp] theorem reclaims_snoc (cs : List CallRecord) (c : CallRecord) :
    reclaims (cs ++ [c]) = reclaims cs ++ c.reclaimed := by simp [reclaims]

@[simp] theorem bytes_nil : bytes [] = 0 := rfl

@[simp] theorem bytes_append (l m : List XdpDesc) : bytes (l ++ m) = bytes l + bytes m := by
  simp [bytes]

@[simp] theorem bytes_cons (d : XdpDesc) (l : List XdpDesc) :
    bytes (d :: l) = d.len + bytes l := by simp [bytes]

/-- Calls that bounced their batches submitted a subsequence of what they consumed. -/
theorem submissions_sublist {cs : List CallRecord} (h : ∀ c ∈ cs, c.Bounced) :
    (submissions cs).Sublist (batches cs) := by
  induction cs with
  | nil => exact .slnil
  | cons c cs ih =>
    have hc := (h c List.mem_cons_self).1
    have ht := ih fun c' hc' => h c' (List.mem_cons_of_mem _ hc')
    simp only [submissions, batches, List.flatMap_cons]
    rw [hc]
    exact (List.take_sublist _ _).append ht

namespace Flow

/-! ## What a call does with its batch -/

def CallShape (a : Flow) : Prop :=
  match a.pc with
  | .idle | .abort => True
  | .peekCq | .reclaim | .releaseCq => a.cur.reclaimed = [] ∧ a.cur.Fresh
  | .peekRx | .fillNbFree | .fillReserve | .fillWrite | .fillSubmit | .txNbFree => a.cur.Fresh
  | .txReserve | .txReadAddr | .txReadLen | .txWriteAddr | .txWriteLen | .txSubmit =>
    a.cur.Fresh ∧ a.toTx = min (a.rxDone.length + a.rxTodo.length) a.cur.txFree
  | .dropReadAddr | .dropReadLen | .releaseRx =>
    (∃ dropped, a.rxDone = a.cur.submitted ++ dropped ∧
      a.cur.freed = dropped.map XdpDesc.addr) ∧
      a.cur.submitted.length = min (a.rxDone.length + a.rxTodo.length) a.cur.txFree

/-- Asking with a stale free count or with the true one gives the same batch. -/
theorem min_nbFree {size pub free : Nat} (nb : Nat) (h : pub + free ≤ size) :
    min (nbFree size pub free nb) nb = min nb (size - pub) := by
  unfold nbFree
  split <;> omega

theorem callShape_dropPc {a : Flow} {l : List XdpDesc} (hpc : a.pc = dropPc l)
    (h : (∃ dropped, a.rxDone = a.cur.submitted ++ dropped ∧
      a.cur.freed = dropped.map XdpDesc.addr) ∧
      a.cur.submitted.length = min (a.rxDone.length + a.rxTodo.length) a.cur.txFree) :
    a.CallShape := by
  unfold dropPc at hpc
  split at hpc <;> simp only [CallShape, hpc] <;> exact h

theorem Thread.callShape {a a' : Flow} (h : Thread a a') (hs : a.Shape) (hr : a.Room)
    (hc : a.CallShape) : a'.CallShape := by
  cases h with
  | enter hpc =>
    by_cases h0 : a.outstandingTx = 0 <;> simp only [CallShape, h0, if_true, if_false]
    · exact ⟨rfl, rfl, rfl⟩
    · exact ⟨trivial, rfl, rfl, rfl⟩
  | peekCq n hpc =>
    simp only [CallShape, hpc] at hc
    by_cases h0 : 0 < n <;> simp only [CallShape, h0, if_true, if_false]
    · exact hc
    · exact hc.2
  | reclaim x l hpc =>
    simp only [CallShape, hpc] at hc
    by_cases h0 : l = [] <;> simp only [CallShape, h0, if_true, if_false] <;> exact hc
  | releaseCq hpc =>
    simp only [CallShape, hpc] at hc
    exact hc.2
  | peekRxNone | reclaimAbort | dropAbort | releaseRx => trivial
  | fillNbFree n hpc =>
    simp only [CallShape, hpc] at hc
    by_cases h0 : 0 < n <;> simp only [CallShape, h0, if_true, if_false] <;> exact hc
  | fillWrite x l hpc | fillSentinel hpc =>
    simp only [CallShape, hpc] at hc
    by_cases h0 : a.fillWr.length + 1 < a.fillRes <;>
      simp only [CallShape, h0, if_true, if_false] <;> exact hc
  | txNbFree n hpc hn =>
    simp only [CallShape, hpc] at hc
    simp only [Shape, hpc] at hs
    obtain ⟨-, -, ⟨-, hres⟩, hdone, -⟩ := hs
    have hroom : a.txPub.length + a.txFree ≤ afxdpTxRingSize := by have := hr.2; omega
    have hmin := min_nbFree a.rxTodo.length hroom
    rw [← hn] at hmin
    by_cases h0 : 0 < min n a.rxTodo.length
    · simp only [CallShape, if_pos h0]
      exact ⟨hc, by rw [hmin, hdone, List.length_nil, Nat.zero_add]⟩
    · simp only [CallShape, if_neg h0]
      refine ⟨⟨[], by simp [hdone, hc.2.1], by simp [hc.2.2]⟩, ?_⟩
      rw [hc.2.1, hdone, List.length_nil, Nat.zero_add]
      omega
  | txWriteLen d l hpc htodo =>
    simp only [CallShape, hpc] at hc
    rw [htodo, List.length_cons] at hc
    by_cases h0 : a.txWr.length + 1 < a.txRes <;>
      simp only [CallShape, h0, if_true, if_false, List.length_append, List.length_singleton] <;>
      exact ⟨hc.1, by rw [hc.2]; congr 1; omega⟩
  | txSubmit hpc =>
    simp only [CallShape, hpc] at hc
    simp only [Shape, hpc] at hs
    obtain ⟨-, -, h1, h2, h3⟩ := hs
    refine callShape_dropPc rfl ⟨⟨[], by simp [h2], by simp [hc.1.2.2]⟩, ?_⟩
    rw [← hc.2, ← h1, ← h3]
  | drop d l hpc htodo =>
    simp only [CallShape, hpc] at hc
    obtain ⟨⟨dropped, hd, hf⟩, hlen⟩ := hc
    refine callShape_dropPc rfl ⟨⟨dropped ++ [d], ?_, ?_⟩, ?_⟩
    · simp only [hd, List.append_assoc]
    · simp only [hf, List.map_append, List.map_cons, List.map_nil]
    · simp only [hlen, htodo, List.length_append, List.length_cons, List.length_nil]
      congr 1
      omega
  | peekRx n hpc | fillReserve hpc | fillSubmit hpc | txReserve hpc | txReadAddr hpc
  | txReadLen hpc | txWriteAddr hpc | dropReadAddr hpc =>
    simp only [CallShape, hpc] at hc
    exact hc

theorem Step.callShape {a a' : Flow} (h : Step a a') (hs : a.Shape) (hr : a.Room)
    (hc : a.CallShape) : a'.CallShape :=
  h.elim (·.callShape hs hr hc) fun hk => by cases hk <;> exact hc

/-- No frame is in the batch of the running call twice. -/
def Distinct (a : Flow) : Prop := (frames ((a.rxDone ++ a.rxTodo).map XdpDesc.addr)).Nodup

/-- The batch was on the RX ring all at once, and from then on stays as it is. -/
theorem Thread.distinct {a a' : Flow} (h : Thread a a') (hs : a.Shape) (hc : a.Conserved)
    (hd : a.Distinct) : a'.Distinct := by
  cases h with
  | peekRx n hpc =>
    simp only [Shape, hpc] at hs
    have hring : (frames ((a.rxTodo ++ a.rxAv).map XdpDesc.addr)).Nodup := hc.nodup .rxRing
    rw [hs.2.2.2.2, List.nil_append] at hring
    simp only [Distinct, hs.2.2.2.1, List.nil_append]
    exact hring.sublist (((List.take_sublist n a.rxAv).map _).map _)
  | txWriteLen d l hpc htodo | drop d l hpc htodo =>
    simpa only [Distinct, htodo, List.append_assoc, List.singleton_append] using hd
  | releaseRx hpc =>
    simp only [Shape, hpc] at hs
    simp [Distinct, hs.2.2.2, frames]
  | _ => exact hd

theorem Step.distinct {a a' : Flow} (h : Step a a') (hs : a.Shape) (hc : a.Conserved)
    (hd : a.Distinct) : a'.Distinct :=
  h.elim (·.distinct hs hc hd) fun hk => by cases hk <;> exact hd

/-- Every finished call has bounced its batch. -/
theorem Thread.bounced {a a' : Flow} (h : Thread a a') (hs : a.Shape) (hc : a.CallShape)
    (hd : a.Distinct) (hb : ∀ c ∈ a.calls, c.Bounced) : ∀ c ∈ a'.calls, c.Bounced := by
  have hsnoc : ∀ {c : CallRecord}, c.Bounced → ∀ c' ∈ a.calls ++ [c], c'.Bounced := by
    intro c hc' c' hm
    rcases List.mem_append.mp hm with hm | hm
    · exact hb c' hm
    · rw [List.mem_singleton.mp hm]; exact hc'
  cases h with
  | peekRxNone hpc =>
    simp only [CallShape, hpc] at hc
    exact hsnoc (by simp [CallRecord.Bounced, hc.1, hc.2.1, hc.2.2, frames])
  | releaseRx hpc =>
    simp only [CallShape, hpc] at hc
    simp only [Shape, hpc] at hs
    obtain ⟨⟨dropped, hdone, hf⟩, hlen⟩ := hc
    rw [hs.2.2.2, List.length_nil, Nat.add_zero] at hlen
    refine hsnoc ⟨?_, ?_, ?_⟩ <;> simp only [← hlen]
    · rw [hdone, List.take_left]
    · rw [hdone, List.drop_left, hf]
    · simpa only [Distinct, hs.2.2.2, List.append_nil] using hd
  | _ => exact hb

theorem Step.bounced {a a' : Flow} (h : Step a a') (hs : a.Shape) (hc : a.CallShape)
    (hd : a.Distinct) (hb : ∀ c ∈ a.calls, c.Bounced) : ∀ c ∈ a'.calls, c.Bounced :=
  h.elim (·.bounced hs hc hd hb) fun hk => by cases hk <;> exact hb

/-! ## The counters -/

/-- What the counters add up to at any point of a run, `c` being the record of
the running call. -/
structure TallyWith (a : Flow) (c : CallRecord) : Prop where
  rxPackets : a.stats.rxPackets = BitVec.ofNat 64 (batches a.calls).length
  rxBytes : a.stats.rxBytes = BitVec.ofNat 64 (bytes (batches a.calls) + bytes a.rxDone)
  txPackets : a.stats.txPackets = BitVec.ofNat 64
    ((submissions a.calls).length + c.submitted.length + a.txWr.length)
  txBytes : a.stats.txBytes = BitVec.ofNat 64
    (bytes (submissions a.calls) + bytes c.submitted + bytes a.txWr)
  inFlight : a.outstandingTx.toNat = a.txPub.length + a.txHeld.length +
    (a.cqDone.length + a.cqTodo.length + a.cqAv.length)
  outstanding : a.outstandingTx.toNat + (reclaims a.calls).length + c.reclaimed.length =
    (submissions a.calls).length + c.submitted.length

/-- Between calls no record is running. -/
def Tally (a : Flow) : Prop := a.TallyWith (if a.pc = .idle then {} else a.cur)

theorem tally_idle {a : Flow} (h : a.pc = .idle) : a.Tally ↔ a.TallyWith {} := by
  rw [Tally, if_pos h]

theorem tally_inside {a : Flow} (h : a.pc ≠ .idle) : a.Tally ↔ a.TallyWith a.cur := by
  rw [Tally, if_neg h]

/-- The clamp is not taken when no more is reclaimed than is outstanding. -/
theorem subOutstanding_toNat {o : BitVec 32} {n : Nat} (h : n ≤ o.toNat) :
    (Datapath.subOutstanding o n).toNat = o.toNat - n := by
  unfold Datapath.subOutstanding
  split
  case isTrue hlt =>
    have := o.isLt
    rw [BitVec.toNat_sub_of_le (by rw [BitVec.le_def, BitVec.toNat_ofNat]; omega),
      BitVec.toNat_ofNat, Nat.mod_eq_of_lt (by omega)]
  case isFalse hge => simp; omega

theorem TallyWith.frame {a a' : Flow} {c c' : CallRecord} (h : a.TallyWith c)
    (hsub : c'.submitted = c.submitted) (hrec : c'.reclaimed = c.reclaimed)
    (hst : a'.stats = a.stats) (hcalls : a'.calls = a.calls) (hdone : a'.rxDone = a.rxDone)
    (hwr : a'.txWr = a.txWr) (ho : a'.outstandingTx = a.outstandingTx)
    (hfl : a'.txPub.length + a'.txHeld.length +
        (a'.cqDone.length + a'.cqTodo.length + a'.cqAv.length) =
      a.txPub.length + a.txHeld.length +
        (a.cqDone.length + a.cqTodo.length + a.cqAv.length)) : a'.TallyWith c' where
  rxPackets := by rw [hst, hcalls]; exact h.rxPackets
  rxBytes := by rw [hst, hcalls, hdone]; exact h.rxBytes
  txPackets := by rw [hst, hcalls, hsub, hwr]; exact h.txPackets
  txBytes := by rw [hst, hcalls, hsub, hwr]; exact h.txBytes
  inFlight := by rw [ho, hfl]; exact h.inFlight
  outstanding := by rw [ho, hcalls, hsub, hrec]; exact h.outstanding

theorem dropPc_ne_idle (l : List XdpDesc) : dropPc l ≠ .idle := by
  unfold dropPc; split <;> simp

theorem ite_ne_idle {c : Prop} [Decidable c] {p q : Pc} (hp : p ≠ .idle) (hq : q ≠ .idle) :
    (if c then p else q) ≠ .idle := by
  split
  · exact hp
  · exact hq

/-- **One step** keeps the books. -/
theorem Thread.tally {a a' : Flow} (h : Thread a a') (hs : a.Shape) (hcs : a.CallShape)
    (hc : a.Conserved) (ht : a.Tally) : a'.Tally := by
  cases h with
  | enter hpc =>
    have ht := (tally_idle hpc).mp ht
    exact (tally_inside (ite_ne_idle (by simp) (by simp))).mpr
      (ht.frame rfl rfl rfl rfl rfl rfl rfl rfl)
  | peekCq n hpc hn =>
    simp only [Shape, hpc] at hs
    have ht := (tally_inside (by simp [hpc])).mp ht
    refine (tally_inside (ite_ne_idle (by simp) (by simp))).mpr
      (ht.frame rfl rfl rfl rfl rfl rfl rfl ?_)
    simp only [hs.1.2, List.length_take, List.length_drop, List.length_nil]
    omega
  | reclaim x l hpc htodo =>
    have ht := (tally_inside (by simp [hpc])).mp ht
    refine (tally_inside (ite_ne_idle (by simp) (by simp))).mpr
      (ht.frame rfl rfl rfl rfl rfl rfl rfl ?_)
    simp only [htodo, List.length_append, List.length_cons, List.length_nil]
    omega
  | releaseCq hpc =>
    simp only [CallShape, hpc] at hcs
    have ht := (tally_inside (by simp [hpc])).mp ht
    have h1 := ht.inFlight
    have h2 := ht.outstanding
    have hle : a.cqDone.length ≤ a.outstandingTx.toNat := by omega
    rw [hcs.1, List.length_nil] at h2
    exact (tally_inside (by simp)).mpr { ht with
      inFlight := by simp only [subOutstanding_toNat hle, List.length_nil]; omega
      outstanding := by simp only [subOutstanding_toNat hle]; omega }
  | peekRxNone hpc =>
    simp only [CallShape, hpc] at hcs
    obtain ⟨hb, hsub, -⟩ := hcs
    have ht := (tally_inside (by simp [hpc])).mp ht
    have h2 := ht.outstanding
    exact (tally_idle rfl).mpr {
      rxPackets := by simpa [hb] using ht.rxPackets
      rxBytes := by simpa [hb] using ht.rxBytes
      txPackets := by simpa [hsub] using ht.txPackets
      txBytes := by simpa [hsub] using ht.txBytes
      inFlight := ht.inFlight
      outstanding := by simp [hsub] at h2 ⊢; omega }
  | txWriteLen d l hpc htodo =>
    have ht := (tally_inside (by simp [hpc])).mp ht
    exact (tally_inside (ite_ne_idle (by simp) (by simp))).mpr {
      rxPackets := ht.rxPackets
      rxBytes := by
        simp only [bounceStats, ht.rxBytes, bytes_append, bytes_cons, bytes_nil,
          ← BitVec.ofNat_add, Nat.add_zero, Nat.add_assoc]
      txPackets := by
        simp only [bounceStats, ht.txPackets, List.length_append, List.length_singleton,
          BitVec.ofNat_add, BitVec.add_assoc]
        rfl
      txBytes := by
        simp only [bounceStats, ht.txBytes, bytes_append, bytes_cons, bytes_nil,
          ← BitVec.ofNat_add, Nat.add_zero, Nat.add_assoc]
      inFlight := ht.inFlight
      outstanding := ht.outstanding }
  | txSubmit hpc =>
    simp only [Shape, hpc] at hs
    simp only [CallShape, hpc] at hcs
    obtain ⟨⟨hcd, -⟩, -⟩ := hs
    have ht := (tally_inside (by simp [hpc])).mp ht
    have h1 := ht.inFlight
    have h2 := ht.outstanding
    have h3 := ht.txPackets
    have h4 := ht.txBytes
    rw [hcs.1.2.1] at h2 h3 h4
    -- All frames together are far fewer than `2 ^ 32`.
    have hsum : (a.outstandingTx + BitVec.ofNat 32 a.txWr.length).toNat =
        a.outstandingTx.toNat + a.txWr.length := by
      have htotal := hc.total
      have hN : afxdpNumFrames = 32768 := rfl
      rw [hcd, List.length_nil] at h1
      rw [BitVec.toNat_add, BitVec.toNat_ofNat]
      omega
    exact (tally_inside (dropPc_ne_idle _)).mpr {
      rxPackets := ht.rxPackets
      rxBytes := ht.rxBytes
      txPackets := by simpa using h3
      txBytes := by simpa using h4
      inFlight := by simp only [hsum, List.length_append]; omega
      outstanding := by simp only [hsum, List.length_nil] at h2 ⊢; omega }
  | drop d l hpc htodo =>
    have ht := (tally_inside (by simp [hpc])).mp ht
    exact (tally_inside (dropPc_ne_idle _)).mpr { ht with
      rxBytes := by
        simp only [ht.rxBytes, bytes_append, bytes_cons, bytes_nil, ← BitVec.ofNat_add,
          Nat.add_zero, Nat.add_assoc] }
  | releaseRx hpc =>
    have ht := (tally_inside (by simp [hpc])).mp ht
    have h2 := ht.outstanding
    exact (tally_idle rfl).mpr {
      rxPackets := by simp [ht.rxPackets, BitVec.ofNat_add]
      rxBytes := by simpa using ht.rxBytes
      txPackets := by simpa using ht.txPackets
      txBytes := by simpa using ht.txBytes
      inFlight := ht.inFlight
      outstanding := by simp at h2 ⊢; omega }
  | reclaimAbort hpc | dropAbort hpc | peekRx n hpc | fillReserve hpc | fillSubmit hpc
  | txReserve hpc | txReadAddr hpc | txReadLen hpc | txWriteAddr hpc | dropReadAddr hpc =>
    have ht := (tally_inside (by simp [hpc])).mp ht
    exact (tally_inside (by simp)).mpr (ht.frame rfl rfl rfl rfl rfl rfl rfl rfl)
  | fillNbFree n hpc | fillWrite x l hpc | fillSentinel hpc | txNbFree n hpc =>
    have ht := (tally_inside (by simp [hpc])).mp ht
    exact (tally_inside (ite_ne_idle (by simp) (by simp))).mpr
      (ht.frame rfl rfl rfl rfl rfl rfl rfl rfl)

theorem Kernel.tally {a a' : Flow} (h : Kernel a a') (ht : a.Tally) : a'.Tally := by
  cases h with
  | takeFill | dropFill | publishRx => exact TallyWith.frame ht rfl rfl rfl rfl rfl rfl rfl rfl
  | takeTx d l hpub =>
    refine TallyWith.frame ht rfl rfl rfl rfl rfl rfl rfl ?_
    simp only [hpub, List.length_cons]
    omega
  | completeTx l l' x hheld =>
    refine TallyWith.frame ht rfl rfl rfl rfl rfl rfl rfl ?_
    simp only [hheld, List.length_append, List.length_cons, List.length_nil]
    omega

theorem Step.tally {a a' : Flow} (h : Step a a') (hs : a.Shape) (hcs : a.CallShape)
    (hc : a.Conserved) (ht : a.Tally) : a'.Tally :=
  h.elim (·.tally hs hcs hc ht) (·.tally ht)

theorem Init.tally {a : Flow} (h : a.Init) : a.Tally := by
  have hs := h.shape
  simp only [Shape, h.pc] at hs
  obtain ⟨⟨h1, h2⟩, -, ⟨h3, -⟩, h4, -⟩ := hs
  refine (tally_idle h.pc).mpr ?_
  constructor <;> simp [h.stats, h.calls, h.outstandingTx, h.txPub, h.txHeld, h.cqAv, h1, h2, h3,
    h4, batches, submissions, reclaims]

end Flow

theorem flow_callShape {a : Flow} (h : flow.Reachable a) : a.CallShape :=
  h.induct (P := Flow.CallShape) (fun a hi => by simp [Flow.CallShape, Flow.Init.pc hi])
    fun _ _ hr hc hn => Flow.Step.callShape hn (flow_shape hr) (flow_room hr) hc

theorem flow_distinct {a : Flow} (h : flow.Reachable a) : a.Distinct := by
  refine h.induct (P := Flow.Distinct) (fun a hi => ?_)
    fun _ _ hr hd hn => Flow.Step.distinct hn (flow_shape hr) (flow_conserved hr) hd
  have hs := hi.shape
  simp only [Flow.Shape, hi.pc] at hs
  simp [Flow.Distinct, hs.2.2.2.1, hs.2.2.2.2, Flow.frames]

theorem flow_bounced {a : Flow} (h : flow.Reachable a) : ∀ c ∈ a.calls, c.Bounced :=
  h.induct (P := fun a => ∀ c ∈ a.calls, c.Bounced)
    (fun a hi => by simp [Flow.Init.calls hi])
    fun _ _ hr hb hn =>
      Flow.Step.bounced hn (flow_shape hr) (flow_callShape hr) (flow_distinct hr) hb

theorem flow_tally {a : Flow} (h : flow.Reachable a) : a.Tally :=
  h.induct (P := Flow.Tally) (fun _ hi => Flow.Init.tally hi)
    fun _ _ hr ht hn =>
      Flow.Step.tally hn (flow_shape hr) (flow_callShape hr) (flow_conserved hr) ht

/-! ## The datapath -/

/-- The counters at a call boundary, modulo `2 ^ 64`. -/
def exactStats (calls : List CallRecord) : AfxdpStatsRecord where
  rxPackets := BitVec.ofNat 64 (batches calls).length
  rxBytes := BitVec.ofNat 64 (bytes (batches calls))
  txPackets := BitVec.ofNat 64 (submissions calls).length
  txBytes := BitVec.ofNat 64 (bytes (submissions calls))

/-- **Bounce and accounting.** Every finished call submitted the first
min(received, free TX slots) packets of its batch, all in different frames, and
freed the others, so what was submitted is a subsequence of what was consumed
with nothing submitted twice. Between calls the counters
and `outstanding_tx` are exact, and with nothing outstanding nothing is left on
the Completion ring; within a call no more is reclaimed than is outstanding. -/
theorem bounce_accounting {s : Datapath} (h : datapath.Reachable s) :
    (∀ c ∈ s.calls, c.Bounced) ∧ (submissions s.calls).Sublist (batches s.calls) ∧
      (s.pc = .idle → s.xsk.stats = exactStats s.calls ∧
        s.xsk.outstandingTx.toNat + (reclaims s.calls).length = (submissions s.calls).length ∧
        (s.xsk.outstandingTx = 0 →
          s.cq.entries = [] ∧ s.kern.txHeld = [] ∧ s.tx.entries = [])) ∧
      (s.pc = .releaseCq → s.loc.completed ≤ s.xsk.outstandingTx.toNat) := by
  obtain ⟨a, ha, hR⟩ := reachable_rep h
  have hs := flow_shape ha
  have hb := flow_bounced ha
  have ht := flow_tally ha
  rw [← hR.calls] at hb
  refine ⟨hb, submissions_sublist hb, ?_, ?_⟩
  · intro hpc
    rw [hR.pc] at hpc
    simp only [Flow.Shape, hpc] at hs
    obtain ⟨⟨hcd, hct⟩, -, ⟨hwr, -⟩, hrd, -⟩ := hs
    have ht := (Flow.tally_idle hpc).mp ht
    refine ⟨?_, ?_, ?_⟩
    · rw [hR.stats, hR.calls, exactStats, ← ht.rxPackets]
      have h1 := ht.rxBytes
      have h2 := ht.txPackets
      have h3 := ht.txBytes
      simp only [hrd, hwr, List.length_nil, bytes_nil, Nat.add_zero] at h1 h2 h3
      rw [← h1, ← h2, ← h3]
    · rw [hR.outstandingTx, hR.calls]
      simpa using ht.outstanding
    · intro h0
      have h1 := ht.inFlight
      rw [← hR.outstandingTx, h0] at h1
      rw [hR.cq.entries compSize, hR.tx.entries txSize, hR.txHeld, hcd, hct]
      have h2 : (0 : BitVec 32).toNat = 0 := rfl
      refine ⟨?_, ?_, ?_⟩ <;> apply List.length_eq_zero_iff.mp
      · simp only [List.append_nil, List.nil_append]; omega
      · omega
      · omega
  · intro hpc
    rw [hR.pc] at hpc
    have hloc := hR.locals
    simp only [LocalsRep, hpc] at hloc
    have ht := (Flow.tally_inside (by simp [hpc])).mp ht
    have h1 := ht.inFlight
    rw [hloc.1, hR.outstandingTx]
    omega

/-- A packet was received and bounced, and the Fill ring refilled. -/
theorem bounce_accounting_round : ∃ s c d, datapath.Reachable s ∧ s.calls = [c] ∧
    c.batch = [d] ∧ c.submitted = [d] ∧ c.Bounced ∧ s.xsk.stats = exactStats s.calls ∧
      s.xsk.outstandingTx.toNat = 1 := by
  obtain ⟨a, x, h⟩ := firstRound
  obtain ⟨s, hr, hR⟩ := h.attained.run
  have hcalls := hR.calls.trans h.calls
  obtain ⟨hbounced, -, hidle, -⟩ := bounce_accounting hr.of_within.1
  obtain ⟨hstats, hout, -⟩ := hidle (hR.pc.trans h.pc)
  refine ⟨s, _, _, hr.of_within.1, hcalls, rfl, rfl, hbounced _ (by simp [hcalls]), hstats, ?_⟩
  simpa [hcalls, reclaims, submissions] using hout

end Onvm.Afxdp

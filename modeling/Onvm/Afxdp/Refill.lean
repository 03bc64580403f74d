import Onvm.Afxdp.Conservation

/-!
# Refilling the Fill ring

The refill asks `xsk_prod_nb_free` for at least `umem_frame_free` slots and
takes whatever it answers, which is zero or every free slot of the ring. With
frames enough on the free list no sentinel is written; and since a refill that
happens at all starts with a frame, the receive side is never left without
one, although nothing is refilled in a call that receives nothing.
-/

namespace Onvm.Afxdp

open Onvm.Lib

namespace Flow

/-! ## No sentinel -/

/-- The frames that are neither free nor on the Fill ring. -/
def outside (a : Flow) : Nat :=
  a.rxHeld.length + (a.rxDone.length + a.rxTodo.length + a.rxAv.length) + a.txPub.length +
    a.txHeld.length + (a.cqDone.length + a.cqTodo.length + a.cqAv.length)

/-- About to refill, with nothing to give or with enough to fill the ring. -/
def RefillFits (a : Flow) : Prop :=
  a.pc = .fillNbFree → a.free = [] ∨ a.outside ≤ afxdpNumFrames - afxdpFillRingSize

/-- The slots taken and not yet written have a frame each. -/
def Covered (a : Flow) : Prop :=
  (a.pc = .fillReserve → a.fillFree ≤ a.free.length) ∧
    (a.pc = .fillWrite → a.fillRes ≤ a.fillWr.length + a.free.length)

def NoSentinel (a : Flow) : Prop := ∀ x ∈ a.fillPub ++ a.fillWr, InUmem x

/-- With only frames on the Fill ring, what the refill asks for is there
exactly when few enough frames are elsewhere. -/
theorem refillFits_iff {a : Flow} (hs : a.Shape) (hc : a.Conserved) (hn : a.NoSentinel)
    (hpc : a.pc = .fillNbFree) :
    nbFree afxdpFillRingSize a.fillPub.length a.fillFree a.free.length ≤ a.free.length ↔
      a.free = [] ∨ a.outside ≤ afxdpNumFrames - afxdpFillRingSize := by
  rw [refill_amount hs hpc]
  have htotal := hc.total
  rw [List.filter_eq_self.mpr fun x hx => by simpa using hn x hx, List.length_append] at htotal
  simp only [Shape, hpc] at hs
  obtain ⟨⟨hcd, hct⟩, ⟨hfw, -⟩, ⟨htw, -⟩, hrd, -⟩ := hs
  have h1 : afxdpNumFrames = 32768 := rfl
  have h2 : afxdpFillRingSize = 8192 := rfl
  simp only [outside, hcd, hct, hfw, htw, hrd, List.length_nil] at htotal ⊢
  by_cases h0 : a.free = []
  · simp [h0]
  · rw [if_neg h0]
    simp only [h0, false_or]
    omega

theorem covered_of_ne {a : Flow} (h1 : a.pc ≠ .fillReserve) (h2 : a.pc ≠ .fillWrite) :
    a.Covered :=
  ⟨fun h => absurd h h1, fun h => absurd h h2⟩

theorem covered_of_dropPc {a : Flow} {l : List XdpDesc} (h : a.pc = dropPc l) : a.Covered := by
  unfold dropPc at h
  split at h <;> exact covered_of_ne (by simp [h]) (by simp [h])

theorem covered_of_ite {a : Flow} {c : Prop} [Decidable c] {p q : Pc}
    (h : a.pc = if c then p else q) (hp : p ≠ .fillReserve ∧ p ≠ .fillWrite)
    (hq : q ≠ .fillReserve ∧ q ≠ .fillWrite) : a.Covered := by
  split at h
  · exact covered_of_ne (h ▸ hp.1) (h ▸ hp.2)
  · exact covered_of_ne (h ▸ hq.1) (h ▸ hq.2)

theorem Thread.noSentinel {a a' : Flow} (h : Thread a a') (hs : a.Shape) (hc : a.Conserved)
    (hfit : a.RefillFits) (hcov : a.Covered) (hn : a.NoSentinel) :
    a'.Covered ∧ a'.NoSentinel := by
  cases h with
  | fillNbFree n hpc hamount =>
    have hle := (refillFits_iff hs hc hn hpc).mpr (hfit hpc)
    rw [← hamount] at hle
    refine ⟨⟨fun _ => hle, ?_⟩, hn⟩
    intro hpc'
    simp only at hpc'
    split at hpc' <;> simp at hpc'
  | fillReserve hpc =>
    simp only [Shape, hpc] at hs
    refine ⟨⟨by simp, fun _ => ?_⟩, hn⟩
    simp only [hs.2.1.1, List.length_nil, Nat.zero_add]
    exact hcov.1 hpc
  | fillWrite x l hpc hfree =>
    have hle := hcov.2 hpc
    rw [hfree, List.length_cons] at hle
    have hx : InUmem x := hc.inUmem_free (by rw [hfree]; exact List.mem_cons_self)
    refine ⟨⟨?_, fun _ => ?_⟩, ?_⟩
    · intro hpc'
      simp only at hpc'
      split at hpc' <;> simp at hpc'
    · simp only [List.length_append, List.length_singleton]
      omega
    · intro y hy
      simp only [← List.append_assoc] at hy
      rcases List.mem_append.mp hy with hy | hy
      · exact hn y hy
      · rw [List.mem_singleton.mp hy]; exact hx
  | fillSentinel hpc hfree =>
    have hle := hcov.2 hpc
    rw [hfree, List.length_nil] at hle
    simp only [Shape, hpc] at hs
    omega
  | fillSubmit hpc =>
    refine ⟨covered_of_ne (by simp) (by simp), fun y hy => hn y ?_⟩
    simpa using hy
  | txSubmit | drop => exact ⟨covered_of_dropPc rfl, hn⟩
  | enter | peekCq | reclaim | txNbFree | txWriteLen =>
    exact ⟨covered_of_ite rfl (by simp) (by simp), hn⟩
  | _ => exact ⟨covered_of_ne (by simp) (by simp), hn⟩

theorem Kernel.noSentinel {a a' : Flow} (h : Kernel a a') (hcov : a.Covered) (hn : a.NoSentinel) :
    a'.Covered ∧ a'.NoSentinel := by
  cases h with
  | takeFill x l hpub | dropFill x l hpub =>
    refine ⟨hcov, fun y hy => hn y ?_⟩
    rw [hpub]
    exact List.mem_cons_of_mem _ hy
  | publishRx | takeTx | completeTx => exact ⟨hcov, hn⟩

theorem Init.noSentinel {a : Flow} (h : a.Init) : a.Covered ∧ a.NoSentinel := by
  have hs := h.shape
  simp only [Shape, h.pc] at hs
  refine ⟨covered_of_ne (by simp [h.pc]) (by simp [h.pc]), fun x hx => ?_⟩
  rw [hs.2.1.1, List.append_nil] at hx
  exact h.inUmem_fill hx

end Flow

theorem flow_noSentinel {a : Flow} (h : (flow.within Flow.RefillFits).Reachable a) :
    a.Covered ∧ a.NoSentinel := by
  refine h.induct (P := fun a => a.Covered ∧ a.NoSentinel) ?_ ?_
  · rintro a ⟨hi, -⟩
    exact Flow.Init.noSentinel hi
  intro a a' hr hn hstep
  obtain ⟨hreach, hfit⟩ := hr.of_within
  rcases hstep.1 with ht | hk
  · exact ht.noSentinel (flow_shape hreach) (flow_conserved hreach) hfit hn.1 hn.2
  · exact hk.noSentinel hn.1 hn.2

namespace Datapath

def outside (s : Datapath) : Nat :=
  s.kern.rxHeld.length + s.rx.entries.length + s.tx.entries.length + s.kern.txHeld.length +
    s.cq.entries.length

/-- A call that gets to its refill finds the free list empty, or at most
`AFXDP_NUM_FRAMES - AFXDP_FILL_RING_SIZE` frames outside it and the Fill ring. -/
def RefillFits (s : Datapath) : Prop :=
  s.pc = .fillNbFree →
    s.xsk.umemFrameFree = 0 ∨ s.outside ≤ afxdpNumFrames - afxdpFillRingSize

end Datapath

theorem outside_rep {s : Datapath} {a : Flow} (h : Rep s a) : s.outside = a.outside := by
  rw [Datapath.outside, Flow.outside, h.rx.entries rxSize, h.tx.entries txSize,
    h.cq.entries compSize, h.rxHeld, h.txHeld]
  simp only [List.length_append]

theorem refillFits_rep {s : Datapath} {a : Flow} (h : Rep s a) :
    s.RefillFits ↔ a.RefillFits := by
  have hf : s.xsk.umemFrameFree = a.free.length := umemFreeFrames_eq h
  rw [Datapath.RefillFits, Flow.RefillFits, h.pc, outside_rep h, hf, List.length_eq_zero_iff]

theorem held_fillRing {s : Datapath} {a : Flow} (h : Rep s a) (ha : flow.Reachable a) :
    s.held .fillRing = a.fillPub ++ a.fillWr := by
  simp only [Datapath.held, fillEnd_rep h (flow_shape ha) (flow_pc_ne_abort ha),
    h.fq.between_written fillSize]

/-- **No sentinel** is written to the Fill ring in a run all of whose refills
fit, and a refill asks for no more than the free list has exactly when it
fits. -/
theorem fill_no_sentinel (s : Datapath) :
    ((datapath.within Datapath.RefillFits).Reachable s →
      (∀ x ∈ s.held .fillRing, InUmem x ∧ x ≠ afxdpInvalidUmemFrame) ∧
        (s.pc = .fillReserve → s.loc.stockFrames ≤ s.xsk.umemFrameFree)) ∧
    (datapath.Reachable s → s.pc = .fillNbFree → (∀ x ∈ s.held .fillRing, InUmem x) →
      ((s.fq.nbFree (afxdpUmemFreeFrames s.xsk)).1 ≤ s.xsk.umemFrameFree ↔
        s.RefillFits)) := by
  constructor
  · intro h
    obtain ⟨a, ha, hR, -⟩ :=
      (refines.within fun _ _ hR => (refillFits_rep hR.1).mp).reachable h
    obtain ⟨hcov, hn⟩ := flow_noSentinel ha
    have hreach := ha.of_within.1
    rw [held_fillRing hR hreach]
    refine ⟨fun x hx => ⟨hn x hx, fun he => not_inUmem_invalid (he ▸ hn x hx)⟩, ?_⟩
    intro hpc
    rw [hR.pc] at hpc
    have hloc := hR.locals
    simp only [LocalsRep, hpc] at hloc
    rw [hloc.2]
    exact (hcov.1 hpc).trans_eq (umemFreeFrames_eq hR).symm
  · intro h hpc hin
    obtain ⟨a, ha, hR⟩ := reachable_rep h
    rw [held_fillRing hR ha] at hin
    have hpc' := hR.pc.symm.trans hpc
    have hiff := Flow.refillFits_iff (flow_shape ha) (flow_conserved ha) hin hpc'
    have hs := flow_shape ha
    simp only [Flow.Shape, hpc'] at hs
    have hfq := hR.fq
    rw [hs.2.1.1, hs.2.1.2.1] at hfq
    have hf : s.xsk.umemFrameFree = a.free.length := umemFreeFrames_eq hR
    rw [refillFits_rep hR, umemFreeFrames_eq hR, (hfq.nbFree fillSize _).1, hf, Flow.RefillFits]
    simp only [hpc', true_implies]
    exact hiff

/-! ## A run without sentinels -/

namespace Flow

/-- Until its first refill the socket has the frames it was configured with. -/
def Fresh (a : Flow) : Prop :=
  a.calls = [] → match a.pc with
    | .idle | .peekRx | .fillNbFree =>
      a.outstandingTx = 0 ∧ a.free.length = afxdpNumFrames - afxdpFillRingSize
    | .peekCq | .reclaim | .releaseCq => False
    | _ => True

theorem fresh_of_later {a : Flow} (h : a.calls ≠ []) : a.Fresh := fun hc => absurd hc h

theorem fresh_of_dropPc {a : Flow} {l : List XdpDesc} (h : a.pc = dropPc l) : a.Fresh := by
  intro
  unfold dropPc at h
  split at h <;> rw [h] <;> trivial

theorem Thread.fresh {a a' : Flow} (h : Thread a a') (hf : a.Fresh) : a'.Fresh := by
  cases h with
  | enter hpc =>
    intro hc
    have hf := hf hc
    simp only [hpc] at hf
    simpa only [if_pos hf.1] using hf
  | peekCq n hpc | reclaim x l hpc | reclaimAbort hpc | releaseCq hpc =>
    refine fresh_of_later fun hc => ?_
    have hf := hf hc
    simp only [hpc] at hf
  | peekRxNone | releaseRx => exact fresh_of_later (by simp)
  | peekRx n hpc =>
    intro hc
    have hf := hf hc
    simp only [hpc] at hf
    exact hf
  | txSubmit | drop => exact fresh_of_dropPc rfl
  | fillNbFree n => intro; by_cases hn : 0 < n <;> simp only [hn, if_true, if_false]
  | fillWrite | fillSentinel =>
    intro
    by_cases hn : a.fillWr.length + 1 < a.fillRes <;> simp only [hn, if_true, if_false]
  | txNbFree n =>
    intro
    by_cases hn : 0 < min n a.rxTodo.length <;> simp only [hn, if_true, if_false]
  | txWriteLen =>
    intro
    by_cases hn : a.txWr.length + 1 < a.txRes <;> simp only [hn, if_true, if_false]
  | _ => exact fun _ => trivial

theorem Kernel.fresh {a a' : Flow} (h : Kernel a a') (hf : a.Fresh) : a'.Fresh := by
  cases h <;> exact hf

theorem Thread.calls {a a' : Flow} (h : Thread a a') :
    (a'.calls = a.calls ∧ a'.pc ≠ .idle) ∨ ∃ c, a'.calls = a.calls ++ [c] := by
  cases h with
  | peekRxNone | releaseRx => exact .inr ⟨_, rfl⟩
  | txSubmit | drop => exact .inl ⟨rfl, by simp only [dropPc]; split <;> simp⟩
  | enter | peekCq | reclaim | fillNbFree | fillWrite | fillSentinel | txNbFree | txWriteLen =>
    exact .inl ⟨rfl, by simp only; split <;> simp⟩
  | _ => exact .inl ⟨rfl, by simp⟩

/-- In the first call, or just returned from it. -/
def Early (pc : Pc) (calls : List CallRecord) : Prop :=
  calls = [] ∨ pc = .idle ∧ calls.length ≤ 1

theorem Step.early {a a' : Flow} (h : Step a a') (he : Early a'.pc a'.calls) :
    Early a.pc a.calls := by
  rcases h with h | h
  · left
    rcases h.calls with ⟨hsame, hpc⟩ | ⟨c, hc⟩
    · rw [← hsame]
      exact he.resolve_right fun hi => hpc hi.1
    · have hlast : a'.pc = .idle ∧ a.calls = [] := by simpa [Early, hc] using he
      exact hlast.2
  · cases h <;> exact he

theorem Init.fresh {a : Flow} (h : a.Init) : a.Fresh := fun _ => by
  simp only [h.pc]
  exact ⟨h.outstandingTx, h.free_length⟩

end Flow

theorem flow_fresh {a : Flow} (h : flow.Reachable a) : a.Fresh :=
  h.induct (P := Flow.Fresh) (fun _ hi => Flow.Init.fresh hi)
    fun _ _ _ hf hn => Or.elim hn (·.fresh hf) (·.fresh hf)

theorem first_refillFits {s : Datapath} (h : datapath.Reachable s) (hc : s.calls = []) :
    s.RefillFits := by
  obtain ⟨a, ha, hR⟩ := reachable_rep h
  refine (refillFits_rep hR).mpr fun hpc => .inr ?_
  have hfresh := flow_fresh ha (hR.calls ▸ hc)
  have hs := flow_shape ha
  simp only [hpc] at hfresh
  simp only [Flow.Shape, hpc] at hs
  have htotal := (flow_conserved ha).total
  have h1 : afxdpNumFrames = 32768 := rfl
  have h2 : afxdpFillRingSize = 8192 := rfl
  simp only [Flow.outside, hs.1.1, hs.2.2.2.1, hs.1.2, List.length_nil] at htotal ⊢
  omega

theorem early_within {s : Datapath} (h : datapath.Reachable s) (he : Flow.Early s.pc s.calls) :
    (datapath.within Datapath.RefillFits).Reachable s := by
  refine (h.within_of_back (P := fun s => Flow.Early s.pc s.calls) he ?_).within_mono ?_
  · intro s s' hr hn he'
    obtain ⟨a, ha, hR⟩ := reachable_rep hr
    obtain ⟨a', rfl | hstep, hR', -⟩ := refines.step s a s' ⟨hR, flow_shape ha⟩ hn
    · rwa [hR'.pc, hR'.calls, ← hR.pc, ← hR.calls] at he'
    · rw [hR'.pc, hR'.calls] at he'
      rw [hR.pc, hR.calls]
      exact hstep.early he'
  · rintro s hr (hc | ⟨hpc, -⟩)
    · exact first_refillFits hr hc
    · exact fun hpc' => absurd (hpc.symm.trans hpc') (by decide)

/-- The Fill ring was refilled without a sentinel, and a call has returned. -/
theorem fill_no_sentinel_round : ∃ s, (datapath.within Datapath.RefillFits).Reachable s ∧
    s.calls.length = 1 ∧ s.fq.entries.length = afxdpFillRingSize ∧
      ∀ x ∈ s.held .fillRing, InUmem x ∧ x ≠ afxdpInvalidUmemFrame := by
  obtain ⟨a, x, h⟩ := firstRound
  obtain ⟨s, hr, hR⟩ := h.attained.run
  have hcalls : s.calls.length = 1 := by rw [hR.calls, h.calls]; rfl
  have hwithin := early_within hr.of_within.1 (.inr ⟨hR.pc.trans h.pc, hcalls.le⟩)
  exact ⟨s, hwithin, hcalls, by rw [hR.fq.entries fillSize, h.fill],
    ((fill_no_sentinel s).1 hwithin).1⟩

/-! ## A run that hands out sentinels

Each round the kernel takes all but one entry of the Fill ring and receives one
packet. Three rounds leave 3 frames on the free list; the fourth refill writes
8191 entries.
-/

/-- After `n` such rounds. -/
structure Primed (a : Flow) (n : Nat) : Prop where
  attained : Attained a
  pc : a.pc = .idle
  fill : a.fillPub.length = afxdpFillRingSize
  inUmem : ∀ x ∈ a.fillPub, InUmem x
  rxAv : a.rxAv = []
  free : a.free.length + 8191 * n = afxdpNumFrames - afxdpFillRingSize
  txPub : a.txPub.length = n

/-- What the kernel takes of a full Fill ring, and the entry it leaves. -/
theorem Primed.split {a : Flow} {n : Nat} (h : Primed a n) :
    ∃ l x y, a.fillPub = l ++ x :: [y] ∧ l.length = 8190 ∧ InUmem y ∧
      ∀ z ∈ l ++ [x], InUmem z := by
  obtain ⟨m, y, hm⟩ : ∃ m y, a.fillPub = m ++ [y] :=
    ⟨_, _, (List.dropLast_append_getLast (List.ne_nil_of_length_pos (by rw [h.fill]; decide))).symm⟩
  have hlen := h.fill
  rw [hm, List.length_append] at hlen
  have hmlen : m.length = 8191 := by simpa [afxdpFillRingSize] using hlen
  obtain ⟨l, x, rfl⟩ : ∃ l x, m = l ++ [x] :=
    ⟨_, _, (List.dropLast_append_getLast (List.ne_nil_of_length_pos (by omega))).symm⟩
  refine ⟨l, x, y, by simp [hm], by simpa using hmlen, ?_, fun z hz => ?_⟩
  · exact h.inUmem y (by simp [hm])
  · exact h.inUmem z (by rw [hm]; exact List.mem_append_left _ hz)

/-- A round costs the free list 8191 frames. -/
theorem Primed.round {a : Flow} {n : Nat} (h : Primed a n) (hn : n < 3) :
    ∃ a', Primed a' (n + 1) := by
  obtain ⟨l, x, y, hl, hlen, hy, hin⟩ := h.split
  have hfree := h.free
  have h1 : afxdpNumFrames = 32768 := rfl
  have h2 : afxdpFillRingSize = 8192 := rfl
  have h3 : afxdpTxRingSize = 8192 := rfl
  obtain ⟨a', g0, g1, g2, g3, g4, g5, -⟩ := h.attained.round h.pc h.rxAv hl h.fill hin
    (by omega) (by rw [h.txPub]; omega)
  refine ⟨a', g0, g1, ?_, ?_, g2, ?_, by rw [g5, List.length_append, h.txPub]; rfl⟩
  · rw [g4, List.length_append, List.length_take, List.length_singleton]
    omega
  · intro z hz
    rw [g4] at hz
    rcases List.mem_append.mp hz with hz | hz
    · rw [List.mem_singleton.mp hz]
      exact hy
    · exact (flow_conserved h.attained.reach).inUmem_free (List.mem_of_mem_take hz)
  · rw [g3, List.length_drop]
    omega

/-- The kernel keeping its side, a sentinel is published on the Fill ring. -/
theorem fill_sentinel_published : ∃ s, (datapath.within CompBound).Reachable s ∧
    afxdpInvalidUmemFrame ∈ s.fq.entries := by
  obtain ⟨a, ha, hat⟩ := Attained.boot
  have h0 : Primed a 0 := {
    attained := hat, pc := ha.pc, fill := ha.fill, rxAv := ha.rxAv, free := ha.free_length
    inUmem := fun x hx => ha.inUmem_fill hx, txPub := by rw [ha.txPub]; rfl }
  obtain ⟨a1, h1⟩ := h0.round (by omega)
  obtain ⟨a2, h2⟩ := h1.round (by omega)
  obtain ⟨a3, h3⟩ := h2.round (by omega)
  obtain ⟨l, x, y, hl, -, -, hin⟩ := h3.split
  have hfree : a3.free.length = 3 := by
    have := h3.free
    simp only [afxdpNumFrames, afxdpFillRingSize] at this
    omega
  have hb := h3.attained.fed h3.pc h3.rxAv hl hin
  have hc := hb.refill (n := 8191) rfl (List.ne_nil_of_length_pos (by simp [hfree])) (by decide)
    (by simp [afxdpFillRingSize])
  obtain ⟨s, hr, hR⟩ := hc.run
  refine ⟨s, hr.within_mono fun _ _ hq => hq.compBound, ?_⟩
  rw [hR.fq.entries fillSize]
  refine List.mem_append_right _ (List.mem_append_right _ (List.mem_replicate.mpr ⟨?_, rfl⟩))
  simp [hfree]

end Onvm.Afxdp

import Onvm.Afxdp.Progress

/-!
# Conservation of UMEM frames

The seven places a frame can be at, read off the rings and local variables of the
datapath: in every reachable state every frame is at exactly one of them.
-/

namespace Onvm.Afxdp

open Onvm.Lib

namespace Datapath

def fillEnd (s : Datapath) : BitVec 32 :=
  match s.pc with
  | .fillWrite | .fillSubmit => s.loc.idxFq
  | _ => s.fq.producer

/-- The first RX entry not yet copied on or freed; while a packet is being
written to the TX ring `idx_rx` is already past it. -/
def rxStart (s : Datapath) : BitVec 32 :=
  match s.pc with
  | .idle | .peekCq | .reclaim | .releaseCq | .peekRx | .abort => s.rx.consumer
  | .txWriteAddr | .txWriteLen => s.loc.idxRx - 1
  | _ => s.loc.idxRx

def txEnd (s : Datapath) : BitVec 32 :=
  match s.pc with
  | .txReadAddr | .txReadLen | .txWriteAddr | .txWriteLen | .txSubmit => s.loc.idxTx
  | _ => s.tx.producer

/-- The first Completion entry not yet freed. -/
def cqStart (s : Datapath) : BitVec 32 :=
  match s.pc with
  | .reclaim | .releaseCq => s.loc.idxCq
  | _ => s.cq.consumer

def held (s : Datapath) : Place → List Nat
  | .freeList => s.xsk.freeList
  | .fillRing => s.fq.between s.fq.consumer s.fillEnd
  | .kernelRx => s.kern.rxHeld
  | .rxRing => (s.rx.between s.rxStart s.rx.producer).map XdpDesc.addr
  | .txRing => (s.tx.between s.tx.consumer s.txEnd).map XdpDesc.addr
  | .kernelTx => s.kern.txHeld
  | .compRing => s.cq.between s.cqStart s.cq.producer

end Datapath

section
variable {s : Datapath} {a : Flow}

theorem fillEnd_rep (h : Rep s a) (hs : a.Shape) (ha : a.pc ≠ .abort) :
    s.fillEnd = s.fq.producer + BitVec.ofNat 32 a.fillWr.length := by
  have hloc := h.locals
  unfold Datapath.fillEnd
  rw [h.pc]
  split
  case h_1 hpc => simp only [LocalsRep, hpc] at hloc; exact hloc.2.2.2
  case h_2 hpc => simp only [LocalsRep, hpc] at hloc; exact hloc.2.2
  case h_3 h1 h2 =>
    have hw : a.fillWr = [] := by
      cases hpc : a.pc <;> simp_all [Flow.Shape, Flow.QuietFill]
    rw [hw]; simp

theorem txEnd_rep (h : Rep s a) (hs : a.Shape) (ha : a.pc ≠ .abort) :
    s.txEnd = s.tx.producer + BitVec.ofNat 32 a.txWr.length := by
  have hloc := h.locals
  unfold Datapath.txEnd
  rw [h.pc]
  split
  case h_6 =>
    have hw : a.txWr = [] := by
      cases hpc : a.pc <;> simp_all [Flow.Shape, Flow.QuietTx]
    rw [hw]; simp
  all_goals
    next hpc =>
    simp only [LocalsRep, hpc, TxRep] at hloc
    first | exact hloc.2.2.2 | exact hloc.2.1.2.2

theorem cqStart_rep (h : Rep s a) (hs : a.Shape) (ha : a.pc ≠ .abort) :
    s.cqStart = s.cq.consumer + BitVec.ofNat 32 a.cqDone.length := by
  have hloc := h.locals
  unfold Datapath.cqStart
  rw [h.pc]
  split
  case h_1 hpc => simp only [LocalsRep, hpc] at hloc; exact hloc.2.2
  case h_2 hpc => simp only [LocalsRep, hpc] at hloc; exact hloc.2
  case h_3 h1 h2 =>
    have hw : a.cqDone = [] := by
      cases hpc : a.pc <;> simp_all [Flow.Shape, Flow.QuietCq]
    rw [hw]; simp

theorem rxStart_rep (h : Rep s a) (hs : a.Shape) (ha : a.pc ≠ .abort) :
    s.rxStart = s.rx.consumer + BitVec.ofNat 32 a.rxDone.length := by
  have hloc := h.locals
  unfold Datapath.rxStart
  rw [h.pc]
  cases hpc : a.pc with
  | idle | peekCq | reclaim | releaseCq | peekRx =>
    simp only [Flow.Shape, hpc] at hs
    simp only [hs.2.2.2.1]; simp
  | abort => exact absurd hpc ha
  | txWriteAddr | txWriteLen =>
    simp only [LocalsRep, hpc] at hloc
    simp only [hloc.1.2, ← idx_succ]
    exact BitVec.add_sub_cancel _ _
  | fillNbFree | txNbFree | releaseRx =>
    simp only [LocalsRep, hpc] at hloc
    exact hloc.2
  | _ =>
    simp only [LocalsRep, hpc] at hloc
    exact hloc.1.2

/-- What is at a place, as the list model has it; there sentinels are left out. -/
theorem count_held (h : Rep s a) (hs : a.Shape) (ha : a.pc ≠ .abort) (p : Place) {k : Nat}
    (hk : k ∈ allFrames) : (Flow.frames (s.held p)).count k = (a.held p).count k := by
  cases p with
  | freeList =>
    simp only [Datapath.held, Flow.held, h.free]
    exact ((List.reverse_perm _).map _).count_eq k
  | fillRing =>
    simp only [Datapath.held, Flow.held, fillEnd_rep h hs ha, h.fq.between_written fillSize]
    exact Flow.count_frames_filter hk _
  | kernelRx => simp only [Datapath.held, Flow.held, h.rxHeld]
  | rxRing =>
    simp only [Datapath.held, Flow.held, rxStart_rep h hs ha]
    rw [h.rx.between_drop rxSize (by simp; omega), List.append_assoc, List.drop_left]
  | txRing =>
    simp only [Datapath.held, Flow.held, txEnd_rep h hs ha, h.tx.between_written txSize]
  | kernelTx => simp only [Datapath.held, Flow.held, h.txHeld]
  | compRing =>
    simp only [Datapath.held, Flow.held, cqStart_rep h hs ha]
    rw [h.cq.between_drop compSize (by simp; omega), List.append_assoc, List.drop_left]

end

/-- **Conservation.** In every reachable state every frame of the UMEM is at
exactly one place and there once; the `assert` of `afxdp_free_umem_frame` has
not failed and no frame is on the free list twice. -/
theorem frame_conservation {s : Datapath} (h : datapath.Reachable s) :
    (∀ k < afxdpNumFrames, ∃! p, k ∈ Flow.frames (s.held p)) ∧
      (∀ p, ∀ k < afxdpNumFrames, (Flow.frames (s.held p)).count k ≤ 1) ∧
      s.pc ≠ .abort ∧ (Flow.frames s.xsk.freeList).Nodup := by
  obtain ⟨a, ha, hR⟩ := reachable_rep h
  have hs := flow_shape ha
  have hc := flow_conserved ha
  have hna := flow_pc_ne_abort ha
  have hcount : ∀ p, ∀ k < afxdpNumFrames,
      (Flow.frames (s.held p)).count k = (a.held p).count k :=
    fun p k hk => count_held hR hs hna p (Finset.mem_range.mpr hk)
  refine ⟨?_, ?_, ?_, ?_⟩
  · intro k hk
    have hmem : ∀ p, k ∈ Flow.frames (s.held p) ↔ k ∈ a.held p := by
      intro p
      rw [← List.count_pos_iff, hcount p k hk, List.count_pos_iff]
    simpa only [hmem] using hc.existsUnique (Finset.mem_range.mpr hk)
  · intro p k hk
    rw [hcount p k hk]
    exact hc.count_le p k
  · rw [hR.pc]; exact hna
  · rw [hR.free]
    exact ((List.reverse_perm a.free).map frameOf).nodup_iff.mpr (hc.nodup .freeList)

/-- A packet was received and bounced, and the Fill ring refilled. -/
theorem frame_conservation_round : ∃ s k, datapath.Reachable s ∧ s.calls.length = 1 ∧
    k ∈ Flow.frames (s.held .txRing) ∧ (∃! p, k ∈ Flow.frames (s.held p)) ∧ s.pc ≠ .abort := by
  obtain ⟨a, x, h⟩ := firstRound
  obtain ⟨s, hr, hR⟩ := h.attained.run
  have hs := flow_shape h.attained.reach
  have hk : frameOf x ∈ allFrames := Flow.mem_allFrames.mpr h.inUmem
  obtain ⟨hunique, -, habort, -⟩ := frame_conservation hr.of_within.1
  refine ⟨s, frameOf x, hr.of_within.1, by rw [hR.calls, h.calls]; rfl, ?_,
    hunique _ (Finset.mem_range.mp hk), habort⟩
  rw [← List.count_pos_iff, count_held hR hs (by rw [h.pc]; simp) .txRing hk]
  simp [Flow.held, h.txPub, Flow.frames, Attained.frameOf_packetIn]

end Onvm.Afxdp

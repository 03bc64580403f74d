import Onvm.Afxdp.Refill

/-!
# The receive side is never starved

Only a call that receives something refills the Fill ring, so the receive side
must never run out of frames altogether. Before its refill a call may have
taken the last packet; by then the free list has frames to give, or the Fill
ring is full, or the frames missing from it cannot all be on the TX side.
-/

namespace Onvm.Afxdp

open Onvm.Lib

/-- Inside Step 3 of a call. -/
def Pc.Refilling : Pc → Prop
  | .fillNbFree | .fillReserve | .fillWrite | .fillSubmit => True
  | _ => False

namespace Flow

/-- A frame can still come in, or has: it is on the Fill ring, with the kernel
or waiting to be received. -/
def RxAlive (a : Flow) : Prop := (∃ x ∈ a.fillPub, InUmem x) ∨ a.rxHeld ≠ [] ∨ a.rxAv ≠ []

/-- The receive side has a frame, except inside a refill that is about to give
it one. -/
structure Fed (a : Flow) : Prop where
  alive : ¬ a.pc.Refilling → a.RxAlive
  reserve : a.pc = .fillReserve → a.free ≠ []
  write : a.pc = .fillWrite → (a.fillWr = [] ∧ a.free ≠ []) ∨ ∃ x ∈ a.fillWr, InUmem x
  submit : a.pc = .fillSubmit → ∃ x ∈ a.fillWr, InUmem x
  full : a.fillPub.length = afxdpFillRingSize → ∃ x ∈ a.fillPub, InUmem x

/-- The kernel reserves a Completion slot for every descriptor it holds. -/
def CompBound (a : Flow) : Prop :=
  a.txHeld.length + (a.cqDone.length + a.cqTodo.length + a.cqAv.length) ≤ afxdpCompRingSize

theorem fed_of_alive {a : Flow} (hpc : ¬ a.pc.Refilling) (h : a.RxAlive)
    (hf : a.fillPub.length = afxdpFillRingSize → ∃ x ∈ a.fillPub, InUmem x) : a.Fed where
  alive _ := h
  reserve he := absurd (by rw [he]; trivial) hpc
  write he := absurd (by rw [he]; trivial) hpc
  submit he := absurd (by rw [he]; trivial) hpc
  full := hf

theorem not_refilling_ite {c : Prop} [Decidable c] {p q : Pc} (hp : ¬ p.Refilling)
    (hq : ¬ q.Refilling) : ¬ (if c then p else q).Refilling := by
  split
  · exact hp
  · exact hq

/-- **The count.** With the free list empty and a batch in hand, the TX side
cannot hold all other frames. -/
theorem rxAlive_of_free_nil {a : Flow} (hs : a.Shape) (hr : a.Room) (hc : a.Conserved)
    (hb : a.CompBound) (hpc : a.pc = .fillNbFree) (hfree : a.free = []) : a.RxAlive := by
  by_contra hno
  simp only [RxAlive, not_or, not_exists, not_and, not_not] at hno
  obtain ⟨hfill, hheld, hav⟩ := hno
  have htotal := hc.total
  simp only [Shape, hpc] at hs
  obtain ⟨⟨hcd, -⟩, ⟨hfw, -⟩, ⟨htw, htr⟩, -, -, hbatch⟩ := hs
  have hnone : a.fillPub.filter (InUmem ·) = [] :=
    List.filter_eq_nil_iff.mpr fun x hx => by simpa using hfill x hx
  have htx := hr.2
  rw [CompBound, hcd] at hb
  rw [hfree, hfw, List.append_nil, hnone, hheld, hav, htw] at htotal
  have h1 : afxdpNumFrames = 32768 := rfl
  have h2 : afxdpTxRingSize = 8192 := rfl
  have h3 : afxdpCompRingSize = 8192 := rfl
  have h4 : afxdpRxBatchSize = 64 := rfl
  simp only [List.length_nil] at htotal hb
  omega

theorem Thread.fed {a a' : Flow} (h : Thread a a') (hs : a.Shape) (hr : a.Room) (hc : a.Conserved)
    (hb : a.CompBound) (hf : a.Fed) : a'.Fed := by
  cases h with
  | peekRx n hpc =>
    exact ⟨fun hno => absurd trivial hno, by simp, by simp, by simp, hf.full⟩
  | fillNbFree n hpc hn =>
    rw [refill_amount hs hpc] at hn
    by_cases h0 : 0 < n
    · rw [if_pos h0]
      refine ⟨fun hno => absurd trivial hno, fun _ hfree => ?_, by simp, by simp, hf.full⟩
      simp only at hfree
      rw [if_pos hfree] at hn
      omega
    · rw [if_neg h0]
      have hal : a.RxAlive := by
        by_cases hfree : a.free = []
        · exact rxAlive_of_free_nil hs hr hc hb hpc hfree
        · rw [if_neg hfree] at hn
          exact .inl (hf.full (by have := hr.1; omega))
      exact fed_of_alive (by simp [Pc.Refilling]) hal hf.full
  | fillReserve hpc =>
    simp only [Shape, hpc] at hs
    exact ⟨fun hno => absurd trivial hno, by simp, fun _ => .inl ⟨hs.2.1.1, hf.reserve hpc⟩,
      by simp, hf.full⟩
  | fillWrite x l hpc hfree =>
    have hx : InUmem x := hc.inUmem_free (by rw [hfree]; exact List.mem_cons_self)
    have hin : ∃ y ∈ a.fillWr ++ [x], InUmem y := ⟨x, by simp, hx⟩
    refine ⟨fun hno => ?_, fun he => ?_, fun _ => .inr hin, fun _ => hin, hf.full⟩
    · exact absurd (by simp only; split <;> trivial) hno
    · simp only at he; split at he <;> simp at he
  | fillSentinel hpc hfree =>
    obtain ⟨x, hx, hxin⟩ : ∃ x ∈ a.fillWr, InUmem x := by
      rcases hf.write hpc with ⟨-, hne⟩ | h
      · exact absurd hfree hne
      · exact h
    have hin : ∃ y ∈ a.fillWr ++ [afxdpInvalidUmemFrame], InUmem y :=
      ⟨x, List.mem_append_left _ hx, hxin⟩
    refine ⟨fun hno => ?_, fun he => ?_, fun _ => .inr hin, fun _ => hin, hf.full⟩
    · exact absurd (by simp only; split <;> trivial) hno
    · simp only at he; split at he <;> simp at he
  | fillSubmit hpc =>
    obtain ⟨x, hx, hxin⟩ := hf.submit hpc
    have hin : ∃ y ∈ a.fillPub ++ a.fillWr, InUmem y := ⟨x, List.mem_append_right _ hx, hxin⟩
    exact fed_of_alive (by simp [Pc.Refilling]) (.inl hin) fun _ => hin
  | txSubmit hpc | drop d l hpc =>
    have hal : a.RxAlive := hf.alive (by simp [hpc, Pc.Refilling])
    refine fed_of_alive ?_ hal hf.full
    exact not_refilling_ite (by simp [Pc.Refilling]) (by simp [Pc.Refilling])
  | enter hpc | peekCq n hpc | reclaim x l hpc | txNbFree n hpc | txWriteLen d l hpc =>
    have hal : a.RxAlive := hf.alive (by simp [hpc, Pc.Refilling])
    exact fed_of_alive (not_refilling_ite (by simp [Pc.Refilling]) (by simp [Pc.Refilling])) hal
      hf.full
  | reclaimAbort hpc | releaseCq hpc | peekRxNone hpc | txReserve hpc | txReadAddr hpc
  | txReadLen hpc | txWriteAddr hpc | dropReadAddr hpc | dropAbort hpc | releaseRx hpc =>
    have hal : a.RxAlive := hf.alive (by simp [hpc, Pc.Refilling])
    exact fed_of_alive (by simp [Pc.Refilling]) hal hf.full

theorem Kernel.rxAlive {a a' : Flow} (h : Kernel a a') (ha : a.RxAlive) : a'.RxAlive := by
  cases h with
  | takeFill x l hpub => exact .inr (.inl (by simp))
  | dropFill x l hpub hx =>
    rcases ha with ⟨y, hy, hyin⟩ | ha
    · rw [hpub] at hy
      rcases List.mem_cons.mp hy with rfl | hy
      · exact absurd hyin hx
      · exact .inl ⟨y, hy, hyin⟩
    · exact .inr ha
  | publishRx => exact .inr (.inr (by simp))
  | takeTx | completeTx => exact ha

theorem Kernel.fed {a a' : Flow} (h : Kernel a a') (hr : a.Room) (hf : a.Fed) : a'.Fed := by
  have hal : ¬ a.pc.Refilling → a'.RxAlive := fun hpc => h.rxAlive (hf.alive hpc)
  cases h with
  | takeFill x l hpub | dropFill x l hpub =>
    -- One entry fewer than the ring can hold: no longer full.
    refine ⟨hal, hf.reserve, hf.write, hf.submit, fun hfull => ?_⟩
    have := hr.1
    rw [hpub, List.length_cons] at this
    simp only at hfull
    omega
  | publishRx | takeTx | completeTx => exact ⟨hal, hf.reserve, hf.write, hf.submit, hf.full⟩

theorem Init.fed {a : Flow} (h : a.Init) : a.Fed := by
  have hin : ∃ x ∈ a.fillPub, InUmem x := by
    obtain ⟨x, l, hl⟩ : ∃ x l, a.fillPub = x :: l :=
      List.exists_cons_of_ne_nil (List.ne_nil_of_length_pos (by rw [h.fill]; decide))
    have hx : x ∈ a.fillPub := by rw [hl]; exact List.mem_cons_self
    exact ⟨x, hx, h.inUmem_fill hx⟩
  exact fed_of_alive (by simp [h.pc, Pc.Refilling]) (.inl hin) fun _ => hin

end Flow

theorem flow_fed {a : Flow} (h : (flow.within Flow.CompBound).Reachable a) : a.Fed := by
  refine h.induct (P := Flow.Fed) ?_ ?_
  · rintro a ⟨hi, -⟩
    exact Flow.Init.fed hi
  intro a a' hr hf hstep
  obtain ⟨hreach, hb⟩ := hr.of_within
  rcases hstep.1 with ht | hk
  · exact ht.fed (flow_shape hreach) (flow_room hreach) (flow_conserved hreach) hb hf
  · exact hk.fed (flow_room hreach) hf

theorem compBound_rep {s : Datapath} {a : Flow} (h : Rep s a) (hb : CompBound s) :
    a.CompBound := by
  rw [CompBound, h.txHeld, h.cq.entries compSize] at hb
  simpa only [Flow.CompBound, List.length_append] using hb

/-- **No starvation.** Between calls some frame of the UMEM is on the Fill
ring, held by the kernel for RX, or on the RX ring. -/
theorem rx_never_starved {s : Datapath} (h : (datapath.within CompBound).Reachable s)
    (hpc : s.pc = .idle) :
    ∃ x, InUmem x ∧
      (x ∈ s.fq.entries ∨ x ∈ s.kern.rxHeld ∨ x ∈ s.rx.entries.map XdpDesc.addr) := by
  obtain ⟨a, ha, hR, -⟩ := (refines.within fun _ _ hR => compBound_rep hR.1).reachable h
  have hc := flow_conserved ha.of_within.1
  have hal := (flow_fed ha).alive (by rw [← hR.pc, hpc]; simp [Pc.Refilling])
  have hs := flow_shape ha.of_within.1
  rw [hR.pc] at hpc
  simp only [Flow.Shape, hpc] at hs
  rw [hR.fq.entries fillSize, hR.rx.entries rxSize, hR.rxHeld, hs.2.2.2.1, hs.2.2.2.2]
  rcases hal with ⟨x, hx, hin⟩ | hheld | hav
  · exact ⟨x, hin, .inl hx⟩
  · obtain ⟨x, hx⟩ := List.exists_mem_of_ne_nil _ hheld
    exact ⟨x, Flow.mem_allFrames.mp (hc.mem (p := .kernelRx) (List.mem_map_of_mem hx)),
      .inr (.inl hx)⟩
  · obtain ⟨d, hd⟩ := List.exists_mem_of_ne_nil _ hav
    have hm : d.addr ∈ (a.rxTodo ++ a.rxAv).map XdpDesc.addr :=
      List.mem_map_of_mem (List.mem_append_right _ hd)
    exact ⟨d.addr, Flow.mem_allFrames.mp (hc.mem (p := .rxRing) (List.mem_map_of_mem hm)),
      .inr (.inr (List.mem_map_of_mem hd))⟩

/-- A packet was received and bounced, and the Fill ring refilled. -/
theorem rx_never_starved_round : ∃ s, (datapath.within CompBound).Reachable s ∧ s.pc = .idle ∧
    s.calls.length = 1 ∧ ∃ x, InUmem x ∧
      (x ∈ s.fq.entries ∨ x ∈ s.kern.rxHeld ∨ x ∈ s.rx.entries.map XdpDesc.addr) := by
  obtain ⟨a, x, h⟩ := firstRound
  obtain ⟨s, hr, hR⟩ := h.attained.run
  have hwithin := hr.within_mono fun _ _ hq => hq.compBound
  have hpc := hR.pc.trans h.pc
  exact ⟨s, hwithin, hpc, by rw [hR.calls, h.calls]; rfl, rx_never_starved hwithin hpc⟩

end Onvm.Afxdp

import Onvm.Afxdp.Frames

/-!
# Runs that exist

The simulation says what every run looks like; this module builds runs. The
receive thread can always take its next step and the kernel can always take
what is on the Fill ring. `Attained a` is what the list model sees of a state
some run reaches while the kernel leaves the TX side alone; `Attained.round` is
a whole call, with its refill and its batch bounced.
-/

namespace Onvm.Afxdp

open Onvm.Lib

/-- The receive thread stops only at a failed `assert`. -/
theorem ustep_total {s : Datapath} (h : s.pc ≠ .abort) : ∃ s', s.ustep = some s' := by
  unfold Datapath.ustep
  split
  case h_3 => split <;> exact ⟨_, rfl⟩
  case h_18 => split <;> exact ⟨_, rfl⟩
  case h_20 hpc => exact absurd hpc h
  all_goals exact ⟨_, rfl⟩

namespace Flow

/-- Nothing is on its way through the kernel's TX side, and every packet received
lies in one frame. -/
structure Still (a : Flow) : Prop where
  txHeld : a.txHeld = []
  cqDone : a.cqDone = []
  cqTodo : a.cqTodo = []
  cqAv : a.cqAv = []
  inFrame : ∀ d ∈ a.rxDone ++ a.rxTodo ++ a.rxAv, d.InFrame

theorem Thread.still {a a' : Flow} (h : Thread a a') (hs : a.Shape) (hq : a.Still) : a'.Still := by
  obtain ⟨h1, h2, h3, h4, h5⟩ := hq
  cases h with
  | peekCq n => exact ⟨h1, h2, by simp [h4], by simp [h4], h5⟩
  | reclaim x l hpc htodo => rw [h3] at htodo; simp at htodo
  | releaseCq => exact ⟨h1, rfl, h3, h4, h5⟩
  | peekRx n hpc =>
    simp only [Shape, hpc] at hs
    refine ⟨h1, h2, h3, h4, ?_⟩
    rw [List.append_assoc, List.take_append_drop, hs.2.2.2.1, List.nil_append]
    exact fun d hd => h5 d (List.mem_append_right _ hd)
  | txWriteLen d l hpc htodo | drop d l hpc htodo =>
    rw [htodo] at h5
    exact ⟨h1, h2, h3, h4, by simpa using h5⟩
  | releaseRx =>
    refine ⟨h1, h2, h3, h4, fun d hd => h5 d ?_⟩
    rw [List.append_assoc]
    exact List.mem_append_right _ hd
  | _ => exact ⟨h1, h2, h3, h4, h5⟩

/-- The refill takes every free slot, or none when the free list is empty. -/
theorem refill_amount {a : Flow} (hs : a.Shape) (hpc : a.pc = .fillNbFree) :
    nbFree afxdpFillRingSize a.fillPub.length a.fillFree a.free.length =
      if a.free = [] then 0 else afxdpFillRingSize - a.fillPub.length := by
  simp only [Shape, hpc] at hs
  rw [hs.2.1.2.2, nbFree]
  by_cases h0 : a.free = []
  · rw [if_pos h0, h0, List.length_nil, if_pos (Nat.le_refl _)]
  · have := List.length_pos_iff.mpr h0
    rw [if_neg h0, if_neg (by omega)]

end Flow

/-- What the kernel keeps to in the runs that are built here. -/
def Quiet (s : Datapath) : Prop :=
  s.kern.txHeld = [] ∧ s.cq.entries = [] ∧ ∀ d ∈ s.rx.entries, d.InFrame

theorem quiet_of_still {s : Datapath} {a : Flow} (h : Rep s a) (hs : a.Still) : Quiet s := by
  refine ⟨h.txHeld.trans hs.txHeld, ?_, ?_⟩
  · rw [h.cq.entries compSize, hs.cqDone, hs.cqTodo, hs.cqAv]
    rfl
  · rw [h.rx.entries rxSize]
    exact hs.inFrame

theorem Quiet.compBound {s : Datapath} (h : Quiet s) : CompBound s := by
  rw [CompBound, h.1, h.2.1]
  decide

/-- Some run reaches a state that `a` describes, the kernel leaving the TX side alone. -/
structure Attained (a : Flow) : Prop where
  run : ∃ s, (datapath.within Quiet).Reachable s ∧ Rep s a
  reach : flow.Reachable a
  still : a.Still

namespace Attained

variable {a : Flow}

theorem boot : ∃ a, a.Init ∧ Attained a := by
  obtain ⟨a, ha, hR⟩ := init_rep boot_init
  have hs := ha.shape
  simp only [Flow.Shape, ha.pc] at hs
  have hstill : a.Still := ⟨ha.txHeld, hs.1.1, hs.1.2, ha.cqAv, by
    simp [hs.2.2.2.1, hs.2.2.2.2, ha.rxAv]⟩
  exact ⟨a, ha, ⟨_, .init ⟨boot_init, quiet_of_still hR hstill⟩, hR⟩, .init ha, hstill⟩

theorem next (h : Attained a) : ∃ a', Flow.Thread a a' ∧ Attained a' := by
  obtain ⟨s, hr, hR⟩ := h.run
  obtain ⟨s', hu⟩ := ustep_total (by rw [hR.pc]; exact flow_pc_ne_abort h.reach)
  obtain ⟨a', ht, hR'⟩ := sim_ustep hR (flow_shape h.reach) hu
  have hstill := ht.still (flow_shape h.reach) h.still
  exact ⟨a', ht, ⟨s', hr.step ⟨.inl hu, quiet_of_still hR' hstill⟩, hR'⟩,
    h.reach.step (.inl ht), hstill⟩

theorem takeFill (h : Attained a) {x : Nat} {l : List Nat} (hl : a.fillPub = x :: l)
    (hx : InUmem x) : Attained { a with fillPub := l, rxHeld := x :: a.rxHeld } := by
  obtain ⟨s, hr, hR⟩ := h.run
  have hR' := rep_takeFill hR hl hx
  have hne : s.fq.entries ≠ [] := by rw [hR.fq.entries fillSize, hl]; simp
  have hstill : Flow.Still { a with fillPub := l, rxHeld := x :: a.rxHeld } := { h.still with }
  exact ⟨⟨_, hr.step ⟨.inr (.takeFill hne), quiet_of_still hR' hstill⟩, hR'⟩,
    h.reach.step (.inr (.takeFill x l hl hx)), hstill⟩

/-- The kernel takes a whole prefix of the Fill ring. -/
theorem takeFills {l m : List Nat} (h : Attained a) (hl : a.fillPub = l ++ m)
    (hx : ∀ x ∈ l, InUmem x) :
    Attained { a with fillPub := m, rxHeld := l.reverse ++ a.rxHeld } := by
  induction l generalizing a with
  | nil =>
    obtain rfl : a.fillPub = m := hl
    exact h
  | cons x l ih =>
    have h1 := h.takeFill hl (hx x List.mem_cons_self)
    have h2 := ih h1 rfl fun y hy => hx y (List.mem_cons_of_mem _ hy)
    simpa using h2

theorem publishRx (h : Attained a) {x : Nat} {l : List Nat} (hl : a.rxHeld = x :: l) {d : XdpDesc}
    (hfr : frameOf d.addr = frameOf x) (hd : d.InFrame)
    (hroom : (a.rxDone ++ a.rxTodo ++ a.rxAv).length < afxdpRxRingSize) :
    Attained { a with rxAv := a.rxAv ++ [d], rxHeld := l } := by
  obtain ⟨s, hr, hR⟩ := h.run
  rw [← hR.rx.entries rxSize] at hroom
  have hR' := rep_publishRx hR l d hroom
  have hk := KStep.publishRx (l := []) (a := x) (d := d) (hR.rxHeld.trans hl) hfr hroom
  have hstill : Flow.Still { a with rxAv := a.rxAv ++ [d], rxHeld := l } := { h.still with
    inFrame := fun d' hd' => by
      rw [← List.append_assoc] at hd'
      rcases List.mem_append.mp hd' with hd' | hd'
      · exact h.still.inFrame d' hd'
      · rw [List.mem_singleton.mp hd']
        exact hd }
  exact ⟨⟨_, hr.step ⟨.inr hk, quiet_of_still hR' hstill⟩, hR'⟩,
    h.reach.step (.inr (.publishRx [] l x d hl hfr)), hstill⟩

/-! ## One call -/

theorem received_of_peekRx (h : Attained a) (hpc : a.pc = .peekRx) (hav : a.rxAv ≠ []) :
    ∃ l m, l ≠ [] ∧ l ++ m = a.rxAv ∧
      Attained { a with pc := .fillNbFree, rxTodo := l, rxAv := m } := by
  obtain ⟨a', ht, ha'⟩ := h.next
  cases ht with
  | peekRx n _ hn hle =>
    refine ⟨_, _, ?_, List.take_append_drop n _, ha'⟩
    exact List.ne_nil_of_length_pos (by rw [List.length_take]; omega)
  | peekRxNone _ hno => exact absurd hno hav
  | _ => simp_all only [reduceCtorEq]

/-- A call with something to receive gets to its refill. -/
theorem received (h : Attained a) (hpc : a.pc = .idle) (hav : a.rxAv ≠ []) :
    ∃ l m, l ≠ [] ∧ l ++ m = a.rxAv ∧
      Attained { a with pc := .fillNbFree, rxTodo := l, rxAv := m, cur := {} } := by
  obtain ⟨b, ht, hb⟩ := h.next
  cases ht with
  | enter =>
    by_cases h0 : a.outstandingTx = 0
    · rw [if_pos h0] at hb
      exact hb.received_of_peekRx rfl hav
    · rw [if_neg h0] at hb
      obtain ⟨c, ht, hc⟩ := hb.next
      cases ht with
      | peekCq n _ hn =>
        obtain rfl : n = 0 := by
          simp only [h.still.cqAv, List.length_nil] at hn
          omega
        have hc := hc.received_of_peekRx rfl hav
        simpa only [List.take_zero, List.drop_zero, ← h.still.cqTodo] using hc
      | _ => simp_all only [reduceCtorEq]
  | _ => simp_all only [reduceCtorEq]

theorem fillLoop (n : Nat) : ∀ {a : Flow}, Attained a → a.pc = .fillWrite →
    a.fillRes = a.fillWr.length + (n + 1) →
    Attained { a with
      pc := .fillSubmit
      free := a.free.drop (n + 1)
      fillWr := a.fillWr ++ (a.free.take (n + 1) ++
        List.replicate (n + 1 - a.free.length) afxdpInvalidUmemFrame) } := by
  induction n with
  | zero =>
    intro a h hpc hres
    obtain ⟨b, ht, hb⟩ := h.next
    have hend : ¬ a.fillWr.length + 1 < a.fillRes := by omega
    cases ht with
    | fillWrite x l _ hfree | fillSentinel _ hfree =>
      rw [if_neg hend] at hb
      simpa [hfree] using hb
    | _ => simp_all only [reduceCtorEq]
  | succ n ih =>
    intro a h hpc hres
    obtain ⟨b, ht, hb⟩ := h.next
    have hmore : a.fillWr.length + 1 < a.fillRes := by omega
    cases ht with
    | fillWrite x l _ hfree =>
      rw [if_pos hmore] at hb
      have hrest := ih hb rfl (by simp; omega)
      simpa [hfree] using hrest
    | fillSentinel _ hfree =>
      rw [if_pos hmore] at hb
      have hrest := ih hb rfl (by simp; omega)
      simpa [hfree, List.replicate_succ] using hrest
    | _ => simp_all only [reduceCtorEq]

theorem refill {n : Nat} (h : Attained a) (hpc : a.pc = .fillNbFree) (hfree : a.free ≠ [])
    (hn : 0 < n) (hroom : a.fillPub.length + n = afxdpFillRingSize) :
    Attained { a with
      pc := .txNbFree
      free := a.free.drop n
      fillPub := a.fillPub ++ (a.free.take n ++
        List.replicate (n - a.free.length) afxdpInvalidUmemFrame) } := by
  obtain ⟨n, rfl⟩ := Nat.exists_eq_succ_of_ne_zero (Nat.ne_of_gt hn)
  have hamount := Flow.refill_amount (flow_shape h.reach) hpc
  rw [if_neg hfree] at hamount
  have hs := flow_shape h.reach
  simp only [Flow.Shape, hpc] at hs
  obtain ⟨-, ⟨hwr, hres, hff⟩, -⟩ := hs
  obtain ⟨b, ht, hb⟩ := h.next
  cases ht with
  | fillNbFree m _ hm =>
    obtain rfl : m = n + 1 := by rw [hm, hamount]; omega
    rw [if_pos hn] at hb
    obtain ⟨c, ht, hc⟩ := hb.next
    cases ht with
    | fillReserve =>
      have hd := fillLoop n hc rfl (by simp [hwr])
      obtain ⟨e, ht, he⟩ := hd.next
      cases ht with
      | fillSubmit => simpa only [hwr, hres, hff, List.nil_append] using he
      | _ => simp_all only [reduceCtorEq]
    | _ => simp_all only [reduceCtorEq]
  | _ => simp_all only [reduceCtorEq]

theorem bounceOne (h : Attained a) {d : XdpDesc} {l : List XdpDesc} (hpc : a.pc = .txReadAddr)
    (htodo : a.rxTodo = d :: l) :
    Attained { a with
      txWr := a.txWr ++ [d]
      rxDone := a.rxDone ++ [d]
      rxTodo := l
      stats := Flow.bounceStats a.stats d.len
      pc := if a.txWr.length + 1 < a.txRes then .txReadAddr else .txSubmit } := by
  obtain ⟨b, ht, hb⟩ := h.next
  cases ht with
  | txReadAddr =>
    obtain ⟨c, ht, hc⟩ := hb.next
    cases ht with
    | txReadLen =>
      obtain ⟨e, ht, he⟩ := hc.next
      cases ht with
      | txWriteAddr =>
        obtain ⟨f, ht, hf⟩ := he.next
        cases ht with
        | txWriteLen d' l' _ htodo' =>
          obtain ⟨rfl, rfl⟩ := List.cons.inj (htodo.symm.trans htodo')
          exact hf
        | _ => simp_all only [reduceCtorEq]
      | _ => simp_all only [reduceCtorEq]
    | _ => simp_all only [reduceCtorEq]
  | _ => simp_all only [reduceCtorEq]

theorem bounceLoop (l : List XdpDesc) : ∀ {a : Flow} {d : XdpDesc}, Attained a →
    a.pc = .txReadAddr → a.rxTodo = d :: l → a.txRes = a.txWr.length + (l.length + 1) →
    Attained { a with
      pc := .txSubmit
      txWr := a.txWr ++ d :: l
      rxDone := a.rxDone ++ d :: l
      rxTodo := []
      stats := (d :: l).foldl (fun st d => Flow.bounceStats st d.len) a.stats } := by
  induction l with
  | nil =>
    intro a d h hpc htodo hres
    have hb := h.bounceOne hpc htodo
    rwa [if_neg (by rw [hres]; simp)] at hb
  | cons e l ih =>
    intro a d h hpc htodo hres
    have hb := h.bounceOne hpc htodo
    rw [if_pos (by rw [hres]; simp)] at hb
    have hrest := ih hb rfl rfl (by simp [hres]; omega)
    simpa only [List.append_assoc, List.singleton_append, List.foldl_cons] using hrest

/-- A call past its refill returns, all of its batch on the TX ring when that has room. -/
theorem bounces (h : Attained a) (hpc : a.pc = .txNbFree)
    (hroom : a.txPub.length + a.rxTodo.length ≤ afxdpTxRingSize) :
    ∃ a', Attained a' ∧ a'.pc = .idle ∧ a'.free = a.free ∧ a'.fillPub = a.fillPub ∧
      a'.rxAv = a.rxAv ∧ a'.txPub = a.txPub ++ a.rxTodo ∧
      a'.calls = a.calls ++ [{ a.cur with
        txFree := afxdpTxRingSize - a.txPub.length
        submitted := a.rxTodo
        batch := a.rxTodo }] := by
  have hs := flow_shape h.reach
  simp only [Flow.Shape, hpc] at hs
  obtain ⟨-, -, ⟨hwr, -⟩, hdone, hne, -⟩ := hs
  obtain ⟨d, l, hl⟩ := List.exists_cons_of_ne_nil hne
  obtain ⟨b, ht, hb⟩ := h.next
  cases ht with
  | txNbFree n _ hn =>
    have hall : min n a.rxTodo.length = a.rxTodo.length := by
      refine Nat.min_eq_right ?_
      rw [hn, Flow.nbFree]
      split <;> omega
    rw [hall, if_pos (List.length_pos_iff.mpr hne)] at hb
    obtain ⟨c, ht, hc⟩ := hb.next
    cases ht with
    | txReserve =>
      have he := bounceLoop l hc rfl hl (by simp [hwr, hl])
      obtain ⟨f, ht, hf⟩ := he.next
      cases ht with
      | txSubmit =>
        obtain ⟨g, ht, hg⟩ := hf.next
        cases ht with
        | releaseRx =>
          exact ⟨_, hg, rfl, rfl, rfl, rfl, by simp only [hwr, hl, List.nil_append],
            by simp only [hwr, hdone, hl, List.nil_append]⟩
        | _ => simp_all [Flow.dropPc]
      | _ => simp_all only [reduceCtorEq]
    | _ => simp_all only [reduceCtorEq]
  | _ => simp_all only [reduceCtorEq]

/-- A packet of 60 bytes in the frame of `x`, behind the headroom. -/
def packetIn (x : Nat) : XdpDesc := ⟨frameOf x * afxdpFrameSize + 256, 60⟩

theorem frameOf_packetIn (x : Nat) : frameOf (packetIn x).addr = frameOf x := by
  simp only [packetIn, frameOf, afxdpFrameSize]
  omega

theorem packetIn_inFrame (x : Nat) : (packetIn x).InFrame := by
  simp only [XdpDesc.InFrame, packetIn, afxdpFrameSize]
  omega

/-- The kernel takes some of the Fill ring and receives one packet; the next call
gets to its refill. -/
theorem fed (h : Attained a) (hpc : a.pc = .idle) (hav : a.rxAv = []) {l m : List Nat} {x : Nat}
    (hl : a.fillPub = l ++ x :: m) (hin : ∀ y ∈ l ++ [x], InUmem y) :
    Attained { a with
      pc := .fillNbFree
      fillPub := m
      rxHeld := l.reverse ++ a.rxHeld
      rxTodo := [packetIn x]
      cur := {} } := by
  have hs := flow_shape h.reach
  simp only [Flow.Shape, hpc] at hs
  have h1 := h.takeFills (l := l ++ [x]) (m := m) (by simp [hl]) hin
  have h2 := h1.publishRx (x := x) (l := l.reverse ++ a.rxHeld) (by simp) (frameOf_packetIn x)
    (packetIn_inFrame x) (by rw [hs.2.2.2.1, hs.2.2.2.2, hav]; decide)
  obtain ⟨p, q, hne, hpq, h3⟩ := h2.received hpc (by simp)
  obtain ⟨rfl, rfl⟩ : p = [packetIn x] ∧ q = [] := by
    simp only [hav, List.nil_append] at hpq
    exact (List.append_eq_singleton_iff.mp hpq).resolve_left fun hp => hne hp.1
  simpa only [hav] using h3

/-- **A round**: of a full Fill ring the kernel takes `l` and `x` and receives one
packet, and the call refills the ring and bounces the packet. -/
theorem round (h : Attained a) (hpc : a.pc = .idle) (hav : a.rxAv = []) {l m : List Nat} {x : Nat}
    (hl : a.fillPub = l ++ x :: m) (hfull : a.fillPub.length = afxdpFillRingSize)
    (hin : ∀ y ∈ l ++ [x], InUmem y) (hfree : l.length < a.free.length)
    (hroom : a.txPub.length < afxdpTxRingSize) :
    ∃ a', Attained a' ∧ a'.pc = .idle ∧ a'.rxAv = [] ∧ a'.free = a.free.drop (l.length + 1) ∧
      a'.fillPub = m ++ a.free.take (l.length + 1) ∧ a'.txPub = a.txPub ++ [packetIn x] ∧
      a'.calls = a.calls ++ [{
        txFree := afxdpTxRingSize - a.txPub.length
        submitted := [packetIn x]
        batch := [packetIn x] }] := by
  have hlen : m.length + (l.length + 1) = afxdpFillRingSize := by
    rw [← hfull, hl]
    simp
    omega
  have h1 := h.fed hpc hav hl hin
  have h2 := h1.refill rfl (List.ne_nil_of_length_pos (by simp only; omega)) (Nat.succ_pos _) hlen
  obtain ⟨a', h3, g1, g2, g3, g4, g5, g6⟩ := h2.bounces rfl (by simp; omega)
  refine ⟨a', h3, g1, g4.trans hav, g2, ?_, g5, g6⟩
  rw [g3, Nat.sub_eq_zero_of_le (by simp only; omega)]
  simp only [List.replicate_zero, List.append_nil]

end Attained

theorem Flow.Init.free_length {a : Flow} (h : a.Init) :
    a.free.length = afxdpNumFrames - afxdpFillRingSize := by
  have := h.frames.length_eq
  simp only [Flow.frames, List.length_map, List.length_append, h.fill, List.length_range] at this
  omega

theorem Flow.Init.fill_cons {a : Flow} (h : a.Init) :
    ∃ x m, a.fillPub = x :: m ∧ InUmem x ∧ m.length + 1 = afxdpFillRingSize := by
  obtain ⟨x, m, hl⟩ : ∃ x m, a.fillPub = x :: m :=
    List.exists_cons_of_ne_nil (List.ne_nil_of_length_pos (by rw [h.fill]; decide))
  have hlen := h.fill
  rw [hl, List.length_cons] at hlen
  exact ⟨x, m, hl, h.inUmem_fill (by rw [hl]; exact List.mem_cons_self), hlen⟩

theorem firstReceived : ∃ a x, Attained a ∧ a.pc = .fillNbFree ∧
    a.free.length = afxdpNumFrames - afxdpFillRingSize ∧
    a.fillPub.length + 1 = afxdpFillRingSize ∧ a.rxTodo = [Attained.packetIn x] := by
  obtain ⟨a, ha, hat⟩ := Attained.boot
  obtain ⟨x, m, hl, hx, hm⟩ := ha.fill_cons
  have h := hat.fed (l := []) ha.pc ha.rxAv hl (by simpa using hx)
  exact ⟨_, x, h, rfl, ha.free_length, hm, rfl⟩

/-- The first packet was received, the Fill ring refilled and the packet bounced. -/
structure FirstRound (a : Flow) (x : Nat) : Prop where
  attained : Attained a
  inUmem : InUmem x
  pc : a.pc = .idle
  fill : a.fillPub.length = afxdpFillRingSize
  txPub : a.txPub = [Attained.packetIn x]
  calls : a.calls = [{
    txFree := afxdpTxRingSize
    submitted := [Attained.packetIn x]
    batch := [Attained.packetIn x] }]

theorem firstRound : ∃ a x, FirstRound a x := by
  obtain ⟨a, ha, hat⟩ := Attained.boot
  obtain ⟨x, m, hl, hx, hm⟩ := ha.fill_cons
  have hfree : 1 ≤ a.free.length := by rw [ha.free_length]; decide
  obtain ⟨a', h1, g1, -, -, g2, g3, g4⟩ := hat.round (l := []) ha.pc ha.rxAv hl ha.fill
    (by simpa using hx) hfree (by rw [ha.txPub]; decide)
  refine ⟨a', x, h1, hx, g1, ?_, by rw [g3, ha.txPub]; rfl, by rw [g4, ha.calls, ha.txPub]; rfl⟩
  rw [g2, List.length_append, List.length_take, List.length_nil, Nat.min_eq_left hfree]
  exact hm

end Onvm.Afxdp

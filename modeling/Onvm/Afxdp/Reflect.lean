import Onvm.Afxdp.Accounting

/-!
# What goes out is what came in

The datapath with the bytes in the UMEM. The receive thread never touches a packet;
the NIC writes the frames that the kernel holds for reception and reads a frame only
when it transmits it, some time after the descriptor was taken from the TX ring. In
between the frame must not be given away. That every frame is at one place makes it
so: `reflects` says that the packets sent are packets received, unaltered, in order
and each at most once.
-/

namespace Onvm.Afxdp

open Onvm.Lib

def contents (umem : Nat → UInt8) (d : XdpDesc) : List UInt8 :=
  (List.range d.len).map fun i => umem (d.addr + i)

/-- The datapath, the packet memory and what passed over the wire. -/
structure Wire where
  dp : Datapath
  umem : Nat → UInt8
  /-- Taken from the TX ring and not transmitted yet, oldest first. -/
  pending : List XdpDesc
  received : List (List UInt8)
  sent : List (List UInt8)
  /-- How many pending packets the kernel gave up. -/
  lost : Nat

namespace Wire

/-- One step of the thread, the kernel or the NIC. The steps of the kernel are those of
`KStep`, with what they mean for the packets. -/
inductive Next : Wire → Wire → Prop where
  | thread {w : Wire} {dp : Datapath} : w.dp.ustep = some dp → Next w { w with dp := dp }
  | takeFill {w : Wire} : w.dp.fq.entries ≠ [] →
      Next w { w with dp := { w.dp with
        fq := w.dp.fq.otherConsume
        kern := w.dp.kern.takeFill (w.dp.fq.get w.dp.fq.consumer) } }
  /-- The NIC writes a byte of a frame that is held for reception. -/
  | dma {w : Wire} (addr : Nat) (x : UInt8) : frameOf addr ∈ Flow.frames w.dp.kern.rxHeld →
      Next w { w with umem := Function.update w.umem addr x }
  /-- A packet is complete and published. -/
  | publishRx {w : Wire} {l l' : List Nat} {a : Nat} {d : XdpDesc} :
      w.dp.kern.rxHeld = l ++ a :: l' → frameOf d.addr = frameOf a → d.InFrame →
      w.dp.rx.entries.length < afxdpRxRingSize →
      Next w { w with
        dp := { w.dp with
          rx := w.dp.rx.otherProduce d
          kern := { w.dp.kern with rxHeld := l ++ l' } }
        received := w.received ++ [contents w.umem d] }
  | takeTx {w : Wire} : w.dp.tx.entries ≠ [] →
      Next w { w with
        dp := { w.dp with
          tx := w.dp.tx.otherConsume
          kern := { w.dp.kern with
            txHeld := (w.dp.tx.get w.dp.tx.consumer).addr :: w.dp.kern.txHeld } }
        pending := w.pending ++ [w.dp.tx.get w.dp.tx.consumer] }
  /-- The bytes go out as they are now. -/
  | transmit {w : Wire} {d : XdpDesc} {l : List XdpDesc} : w.pending = d :: l →
      Next w { w with pending := l, sent := w.sent ++ [contents w.umem d] }
  | giveUp {w : Wire} {d : XdpDesc} {l : List XdpDesc} : w.pending = d :: l →
      Next w { w with pending := l, lost := w.lost + 1 }
  /-- A frame is completed after its packet was transmitted or given up. -/
  | completeTx {w : Wire} {l l' : List Nat} {a : Nat} : w.dp.kern.txHeld = l ++ a :: l' →
      a ∉ w.pending.map XdpDesc.addr → w.dp.cq.entries.length < afxdpCompRingSize →
      Next w { w with dp := { w.dp with
        cq := w.dp.cq.otherProduce a
        kern := { w.dp.kern with txHeld := l ++ l' } } }

/-- A socket that was just configured, and nothing has passed. -/
structure Init (w : Wire) : Prop where
  dp : w.dp.Init
  pending : w.pending = []
  received : w.received = []
  sent : w.sent = []
  lost : w.lost = 0

end Wire

def wire : TransSys Wire where
  Init := Wire.Init
  Next := Wire.Next

/-- The packets between the RX ring and the wire, those that go out first in front: what
is written to the TX ring, then what the call and the kernel have for it on the RX ring. -/
def Datapath.inFlight (s : Datapath) : List XdpDesc :=
  s.tx.between s.tx.consumer s.txEnd ++ s.rx.between s.rxStart s.rx.producer

def Flow.inFlight (a : Flow) : List XdpDesc := a.txPub ++ a.txWr ++ (a.rxTodo ++ a.rxAv)

/-- No call has dropped a packet for want of a TX slot, nor does the one that runs. -/
def NoDrops (pc : Pc) (calls : List CallRecord) (cur : CallRecord) : Prop :=
  (∀ c ∈ calls, c.freed = []) ∧ (pc ≠ .idle → cur.freed = [])

section Flow

variable {s : Datapath} {a a' : Flow}

theorem inFlight_rep (h : Rep s a) (hs : a.Shape) (ha : a.pc ≠ .abort) :
    s.inFlight = a.inFlight := by
  unfold Datapath.inFlight Flow.inFlight
  rw [txEnd_rep h hs ha, h.tx.between_written txSize, rxStart_rep h hs ha,
    h.rx.between_drop rxSize (by simp; omega), List.append_assoc a.rxDone, List.drop_left]

theorem NoDrops.of_ret {pc : Pc} {calls : List CallRecord} {c : CallRecord} {cur : CallRecord}
    (h : NoDrops .idle (calls ++ [c]) cur) (hc : c.freed = cur.freed) : NoDrops pc calls cur := by
  refine ⟨fun c' hc' => h.1 c' (List.mem_append_left _ hc'), fun _ => ?_⟩
  rw [← hc]
  exact h.1 c (by simp)

theorem Flow.Thread.inFlight (h : Flow.Thread a a') (hs : a.Shape) :
    a'.inFlight.Sublist a.inFlight ∧ (NoDrops a'.pc a'.calls a'.cur →
      NoDrops a.pc a.calls a.cur ∧ a'.inFlight = a.inFlight) := by
  have hsame : a'.inFlight = a.inFlight → (NoDrops a'.pc a'.calls a'.cur →
      NoDrops a.pc a.calls a.cur) → a'.inFlight.Sublist a.inFlight ∧
        (NoDrops a'.pc a'.calls a'.cur → NoDrops a.pc a.calls a.cur ∧
          a'.inFlight = a.inFlight) :=
    fun he hd => ⟨he ▸ List.Sublist.refl _, fun h => ⟨hd h, he⟩⟩
  cases h with
  | enter hpc => exact hsame rfl fun h => ⟨h.1, fun hne => absurd hpc hne⟩
  | peekCq n hpc =>
    exact hsame rfl fun h => ⟨h.1, fun _ => h.2 (by split <;> simp)⟩
  | reclaim x l hpc =>
    exact hsame rfl fun h => ⟨h.1, fun _ => h.2 (by split <;> simp)⟩
  | reclaimAbort | dropAbort | releaseCq | fillReserve | fillSubmit | txReserve | txReadAddr |
    txReadLen | txWriteAddr | dropReadAddr =>
    exact hsame rfl fun h => ⟨h.1, fun _ => h.2 (by simp)⟩
  | peekRxNone hpc => exact hsame rfl fun h => h.of_ret rfl
  | peekRx n hpc =>
    simp only [Shape, hpc] at hs
    refine hsame ?_ fun h => ⟨h.1, fun _ => h.2 (by simp)⟩
    simp only [Flow.inFlight, List.take_append_drop, hs.2.2.2.2, List.nil_append]
  | fillNbFree n hpc =>
    exact hsame rfl fun h => ⟨h.1, fun _ => h.2 (by split <;> simp)⟩
  | fillWrite | fillSentinel =>
    exact hsame rfl fun h => ⟨h.1, fun _ => h.2 (by split <;> simp)⟩
  | txNbFree n hpc =>
    exact hsame rfl fun h => ⟨h.1, fun _ => h.2 (by split <;> simp)⟩
  | txWriteLen d l hpc htodo =>
    refine hsame ?_ fun h => ⟨h.1, fun _ => h.2 (by split <;> simp)⟩
    simp [Flow.inFlight, htodo]
  | txSubmit hpc =>
    refine hsame ?_ fun h => ⟨h.1, fun _ => h.2 (by unfold dropPc; split <;> simp)⟩
    simp [Flow.inFlight]
  | drop d l hpc htodo =>
    refine ⟨?_, fun h => ?_⟩
    · simp only [Flow.inFlight, htodo, List.cons_append]
      exact (List.sublist_cons_self d _).append_left _
    · have hfreed : a.cur.freed ++ [d.addr] = [] := h.2 (by unfold dropPc; split <;> simp)
      simp at hfreed
  | releaseRx hpc => exact hsame rfl fun h => h.of_ret rfl

end Flow

/-! ## Packets under DMA -/

theorem frameOf_byte {d : XdpDesc} (h : d.InFrame) {i : Nat} (hi : i < d.len) :
    frameOf (d.addr + i) = frameOf d.addr := by
  unfold XdpDesc.InFrame afxdpFrameSize at h
  unfold frameOf afxdpFrameSize
  omega

theorem contents_update {umem : Nat → UInt8} {addr : Nat} {d : XdpDesc} (h : d.InFrame)
    (hne : frameOf addr ≠ frameOf d.addr) (x : UInt8) :
    contents (Function.update umem addr x) d = contents umem d := by
  refine List.map_congr_left fun i hi => ?_
  refine Function.update_of_ne (fun he => hne ?_) _ _
  rw [← he, frameOf_byte h (List.mem_range.mp hi)]

namespace Wire

/-- What was sent and then what is to be sent, as it is in memory now. -/
def line (w : Wire) (flight : List XdpDesc) : List (List UInt8) :=
  w.sent ++ (w.pending ++ flight).map (contents w.umem)

/-- The invariant, with what the datapath holds as lists. -/
structure Sound (w : Wire) (a : Flow) : Prop where
  passed : (w.line a.inFlight).Sublist w.received
  whole : NoDrops a.pc a.calls a.cur → w.lost = 0 → w.line a.inFlight = w.received
  inFrame : ∀ d ∈ w.pending ++ a.inFlight, d.InFrame
  held : ∀ x, (w.pending.map XdpDesc.addr).count x ≤ a.txHeld.count x

theorem Sound.apart {w : Wire} {a : Flow} (h : w.Sound a) (hc : a.Conserved) {d : XdpDesc}
    (hd : d ∈ w.pending ++ a.inFlight) : frameOf d.addr ∉ Flow.frames a.rxHeld := by
  intro hmem
  have hrx : frameOf d.addr ∈ a.held .kernelRx := hmem
  have hframe : frameOf d.addr ∈ allFrames := hc.mem hrx
  have hunique : ∀ p, frameOf d.addr ∈ a.held p → p = .kernelRx := fun p hp =>
    (hc.existsUnique hframe).unique hp hrx
  have haddr : ∀ {l : List XdpDesc}, d ∈ l → frameOf d.addr ∈ Flow.frames (l.map XdpDesc.addr) :=
    fun hl => List.mem_map_of_mem (List.mem_map_of_mem hl)
  simp only [Flow.inFlight, List.mem_append] at hd
  rcases hd with hpend | htx | hrxd
  · have hcount := h.held d.addr
    have hpos := List.count_pos_iff.mpr (List.mem_map_of_mem (f := XdpDesc.addr) hpend)
    have hheld : d.addr ∈ a.txHeld := List.count_pos_iff.mp (by omega)
    have hp : frameOf d.addr ∈ a.held .kernelTx := List.mem_map_of_mem hheld
    exact absurd (hunique _ hp) (by decide)
  · have hp : frameOf d.addr ∈ a.held .txRing := haddr (List.mem_append.mpr htx)
    exact absurd (hunique _ hp) (by decide)
  · have hp : frameOf d.addr ∈ a.held .rxRing := haddr (List.mem_append.mpr hrxd)
    exact absurd (hunique _ hp) (by decide)

/-- The datapath holds these lists and the invariant holds of them. -/
def Holds (w : Wire) : Prop := ∃ a, flow.Reachable a ∧ Rep w.dp a ∧ w.Sound a

theorem Init.holds {w : Wire} (h : w.Init) : w.Holds := by
  obtain ⟨a, ha, hR⟩ := init_rep h.dp
  have hs := ha.shape
  simp only [Flow.Shape, ha.pc] at hs
  obtain ⟨-, -, ⟨hwr, -⟩, -, htodo⟩ := hs
  have hflight : a.inFlight = [] := by simp [Flow.inFlight, ha.txPub, hwr, htodo, ha.rxAv]
  refine ⟨a, .init ha, hR, ?_, ?_, ?_, ?_⟩
  · simp [line, h.sent, h.pending, hflight]
  · simp [line, h.sent, h.pending, hflight, h.received]
  · simp [h.pending, hflight]
  · simp [h.pending]

/-- The thread only drops packets, and then it is no longer the whole line. -/
theorem Sound.thread {w : Wire} {a a' : Flow} (h : w.Sound a) (hn : Flow.Thread a a')
    (hs : a.Shape) (dp : Datapath) : Sound { w with dp := dp } a' := by
  obtain ⟨hsub, hsame⟩ := hn.inFlight hs
  have hline : (w.line a'.inFlight).Sublist (w.line a.inFlight) :=
    ((hsub.append_left w.pending).map _).append_left w.sent
  have hheld : a'.txHeld = a.txHeld := by cases hn <;> rfl
  refine ⟨hline.trans h.passed, fun hno hlost => ?_, fun d hd => ?_, fun x => ?_⟩
  · obtain ⟨hno', he⟩ := hsame hno
    have hwhole := h.whole hno' hlost
    rw [← he] at hwhole
    exact hwhole
  · exact h.inFrame d ((hsub.append_left w.pending).subset hd)
  · rw [hheld]
    exact h.held x

theorem Sound.publishRx {w : Wire} {a : Flow} (h : w.Sound a) {d : XdpDesc} (rxHeld : List Nat)
    (hin : d.InFrame) (dp : Datapath) :
    Sound { w with dp := dp, received := w.received ++ [contents w.umem d] }
      { a with rxAv := a.rxAv ++ [d], rxHeld := rxHeld } := by
  have hf : Flow.inFlight { a with rxAv := a.rxAv ++ [d], rxHeld := rxHeld } =
      a.inFlight ++ [d] := by
    simp [Flow.inFlight]
  have hline : w.line (a.inFlight ++ [d]) = w.line a.inFlight ++ [contents w.umem d] := by
    simp [line]
  refine ⟨?_, fun hno hlost => ?_, fun d' hd => ?_, h.held⟩
  · rw [hf]
    exact hline ▸ h.passed.append_right _
  · rw [hf]
    exact hline ▸ congrArg (· ++ [contents w.umem d]) (h.whole hno hlost)
  · rw [hf, ← List.append_assoc] at hd
    rcases List.mem_append.mp hd with hd | hd
    · exact h.inFrame d' hd
    · rw [List.mem_singleton.mp hd]
      exact hin

/-- The kernel takes the first packet of those that are written for it. -/
theorem Sound.takeTx {w : Wire} {a : Flow} (h : w.Sound a) {d : XdpDesc} {l : List XdpDesc}
    (hl : a.txPub = d :: l) (dp : Datapath) :
    Sound { w with dp := dp, pending := w.pending ++ [d] }
      { a with txPub := l, txHeld := d.addr :: a.txHeld } := by
  have hf : a.inFlight = d :: Flow.inFlight { a with txPub := l, txHeld := d.addr :: a.txHeld } := by
    simp [Flow.inFlight, hl]
  have hsame : w.pending ++ a.inFlight = (w.pending ++ [d]) ++
      Flow.inFlight { a with txPub := l, txHeld := d.addr :: a.txHeld } := by
    rw [hf, List.append_assoc]
    rfl
  have hline : line { w with dp := dp, pending := w.pending ++ [d] }
      (Flow.inFlight { a with txPub := l, txHeld := d.addr :: a.txHeld }) = w.line a.inFlight := by
    simp only [line, hsame]
  refine ⟨?_, fun hno hlost => ?_, fun d' hd => ?_, fun x => ?_⟩
  · rw [hline]
    exact h.passed
  · rw [hline]
    exact h.whole hno hlost
  · rw [← hsame] at hd
    exact h.inFrame d' hd
  · have hcount := h.held x
    simp only [List.map_append, List.map_cons, List.map_nil, List.count_append, List.count_cons,
      List.count_nil]
    omega

/-- The first packet goes out as it is in memory now. -/
theorem Sound.transmit {w : Wire} {a : Flow} (h : w.Sound a) {d : XdpDesc} {l : List XdpDesc}
    (hp : w.pending = d :: l) :
    Sound { w with pending := l, sent := w.sent ++ [contents w.umem d] } a := by
  have hline : line { w with pending := l, sent := w.sent ++ [contents w.umem d] } a.inFlight =
      w.line a.inFlight := by
    simp [line, hp]
  refine ⟨?_, fun hno hlost => ?_, fun d' hd => ?_, fun x => ?_⟩
  · rw [hline]
    exact h.passed
  · rw [hline]
    exact h.whole hno hlost
  · exact h.inFrame d' (by rw [hp]; exact List.mem_cons_of_mem d hd)
  · have hcount := h.held x
    rw [hp, List.map_cons] at hcount
    exact (List.count_le_count_cons).trans hcount

theorem Sound.giveUp {w : Wire} {a : Flow} (h : w.Sound a) {d : XdpDesc} {l : List XdpDesc}
    (hp : w.pending = d :: l) : Sound { w with pending := l, lost := w.lost + 1 } a := by
  refine ⟨?_, fun _ hlost => ?_, fun d' hd => ?_, fun x => ?_⟩
  · refine List.Sublist.trans ?_ h.passed
    simp only [line, hp, List.cons_append, List.map_cons]
    exact (List.sublist_cons_self _ _).append_left _
  · exact absurd hlost (Nat.succ_ne_zero _)
  · exact h.inFrame d' (by rw [hp]; exact List.mem_cons_of_mem d hd)
  · have hcount := h.held x
    rw [hp, List.map_cons] at hcount
    exact (List.count_le_count_cons).trans hcount

/-- The frame that is completed has no packet under way. -/
theorem Sound.completeTx {w : Wire} {a : Flow} (h : w.Sound a) {l l' : List Nat} {x : Nat}
    (hheld : a.txHeld = l ++ x :: l') (hno : x ∉ w.pending.map XdpDesc.addr) (dp : Datapath) :
    Sound { w with dp := dp } { a with cqAv := a.cqAv ++ [x], txHeld := l ++ l' } := by
  refine ⟨h.passed, h.whole, h.inFrame, fun y => ?_⟩
  have hcount := h.held y
  rw [hheld] at hcount
  by_cases hy : y = x
  · have hzero : (w.pending.map XdpDesc.addr).count y = 0 := by
      rw [hy]
      exact List.count_eq_zero.mpr hno
    exact hzero ▸ Nat.zero_le _
  · simpa [List.count_append, List.count_cons_of_ne (Ne.symm hy)] using hcount

/-- **One step** keeps the invariant. -/
theorem Next.holds {w w' : Wire} (hn : Next w w') (h : w.Holds) : w'.Holds := by
  obtain ⟨a, ha, hR, hsound⟩ := h
  have hs := flow_shape ha
  have hc := flow_conserved ha
  cases hn with
  | thread hu =>
    obtain ⟨a', hn, hR'⟩ := sim_ustep hR hs hu
    exact ⟨a', ha.step (.inl hn), hR', hsound.thread hn hs _⟩
  | takeFill hne =>
    rw [hR.fq.entries fillSize] at hne
    obtain ⟨x, l, hl⟩ := List.exists_cons_of_ne_nil hne
    by_cases hx : InUmem x
    · exact ⟨_, ha.step (.inr (.takeFill x l hl hx)), rep_takeFill hR hl hx,
        hsound.passed, hsound.whole, hsound.inFrame, hsound.held⟩
    · exact ⟨_, ha.step (.inr (.dropFill x l hl hx)), rep_dropFill hR hl hx,
        hsound.passed, hsound.whole, hsound.inFrame, hsound.held⟩
  | dma addr x hframe =>
    rw [hR.rxHeld] at hframe
    have hsame : ∀ d ∈ w.pending ++ a.inFlight,
        contents (Function.update w.umem addr x) d = contents w.umem d := fun d hd =>
      contents_update (hsound.inFrame d hd) (fun he => hsound.apart hc hd (he ▸ hframe)) x
    have hline : line { w with umem := Function.update w.umem addr x } a.inFlight =
        w.line a.inFlight :=
      congrArg (w.sent ++ ·) (List.map_congr_left hsame)
    refine ⟨a, ha, hR, ?_, fun hno hlost => ?_, hsound.inFrame, hsound.held⟩
    · rw [hline]
      exact hsound.passed
    · rw [hline]
      exact hsound.whole hno hlost
  | @publishRx l l' x d hheld hfr hin hroom =>
    have hR' := rep_publishRx hR (l ++ l') d hroom
    exact ⟨_, ha.step (.inr (.publishRx l l' x d (hR.rxHeld ▸ hheld) hfr)), hR',
      hsound.publishRx _ hin _⟩
  | takeTx hne =>
    rw [hR.tx.entries txSize] at hne
    obtain ⟨d, l, hl⟩ := List.exists_cons_of_ne_nil hne
    have htx := hR.tx
    rw [hl] at htx
    obtain ⟨hget, hrep⟩ := htx.otherConsume txSize
    refine ⟨_, ha.step (.inr (.takeTx d l hl)), { hR with
      tx := hrep, txHeld := by simp only [hget, hR.txHeld] }, ?_⟩
    rw [hget]
    exact hsound.takeTx hl _
  | transmit hp => exact ⟨a, ha, hR, hsound.transmit hp⟩
  | giveUp hp => exact ⟨a, ha, hR, hsound.giveUp hp⟩
  | @completeTx l l' x hheld hno hroom =>
    rw [hR.cq.entries compSize, List.length_append] at hroom
    rw [hR.txHeld] at hheld
    exact ⟨_, ha.step (.inr (.completeTx l l' x hheld)), { hR with
      cq := hR.cq.otherProduce compSize hroom x, txHeld := rfl },
      hsound.completeTx hheld hno _⟩

end Wire

theorem wire_holds {w : Wire} (h : wire.Reachable w) : w.Holds :=
  h.induct (P := Wire.Holds) (fun _ => Wire.Init.holds) fun _ _ _ hh hn => Wire.Next.holds hn hh

/-- **Main**: the packets sent, those taken for transmission and those on the way there
are packets received, in order and each at most once; they are all of them as long as
no call has dropped a packet and the kernel has given up none. -/
theorem reflects {w : Wire} (h : wire.Reachable w) :
    (w.line w.dp.inFlight).Sublist w.received ∧
      (NoDrops w.dp.pc w.dp.calls w.dp.cur → w.lost = 0 →
        w.line w.dp.inFlight = w.received) := by
  obtain ⟨a, ha, hR, hsound⟩ := wire_holds h
  rw [inFlight_rep hR (flow_shape ha) (flow_pc_ne_abort ha), hR.pc, hR.calls, hR.cur]
  exact ⟨hsound.passed, hsound.whole⟩

/-! ## Runs of the datapath on the wire -/

/-- Every run of the datapath in which packets lie in frames is a run on the wire, here
with every packet transmitted as soon as it is taken. -/
theorem wire_of_datapath {s : Datapath}
    (h : (datapath.within fun s => ∀ d ∈ s.rx.entries, d.InFrame).Reachable s) :
    ∃ w, wire.Reachable w ∧ w.dp = s ∧ w.pending = [] ∧ w.lost = 0 := by
  induction h with
  | init h =>
    exact ⟨⟨_, fun _ => 0, [], [], [], 0⟩, .init ⟨h.1, rfl, rfl, rfl, rfl⟩, rfl, rfl, rfl⟩
  | step hr hn ih =>
    obtain ⟨w, hw, rfl, hpend, hlost⟩ := ih
    rcases hn.1 with hu | hk
    · exact ⟨_, hw.step (.thread hu), rfl, hpend, hlost⟩
    · cases hk with
      | takeFill hne => exact ⟨_, hw.step (.takeFill hne), rfl, hpend, hlost⟩
      | @publishRx l l' a d hheld hfr hroom =>
        obtain ⟨b, hb, hR⟩ := reachable_rep hr.of_within.1
        have hd : d.InFrame := hn.2 d (by
          have hR' := rep_publishRx hR (l ++ l') d hroom
          rw [hR'.rx.entries rxSize]
          simp)
        exact ⟨_, hw.step (.publishRx hheld hfr hd hroom), rfl, hpend, hlost⟩
      | takeTx hne =>
        have htake := hw.step (.takeTx hne)
        exact ⟨_, htake.step (.transmit (by simp only [hpend]; rfl)), rfl, rfl, hlost⟩
      | completeTx hheld hroom =>
        exact ⟨_, hw.step (.completeTx hheld (by simp [hpend]) hroom), rfl, hpend, hlost⟩

/-- A packet was received, bounced and transmitted, and the Fill ring refilled. -/
theorem reflects_round : ∃ w d, wire.Reachable w ∧ w.dp.calls.length = 1 ∧ 0 < d.len ∧
    contents w.umem d ∈ w.sent ∧ w.line w.dp.inFlight = w.received := by
  obtain ⟨a, x, h⟩ := firstRound
  obtain ⟨s, hr, hR⟩ := h.attained.run
  obtain ⟨w, hw, rfl, hpend, hlost⟩ := wire_of_datapath (hr.within_mono fun _ _ hq => hq.2.2)
  have htx := hR.tx
  rw [h.txPub] at htx
  have hget := (htx.otherConsume txSize).1
  have hne : w.dp.tx.entries ≠ [] := by
    rw [hR.tx.entries txSize, h.txPub]
    simp
  have hw' := (hw.step (.takeTx hne)).step (.transmit (by simp only [hpend]; rfl))
  refine ⟨_, Attained.packetIn x, hw', ?_, Nat.succ_pos _, ?_, (reflects hw').2 ⟨?_, ?_⟩ hlost⟩
  · simp only [hR.calls, h.calls, List.length_singleton]
  · simp only [hget, List.mem_append, List.mem_singleton, or_true]
  · simp only [hR.calls, h.calls, List.mem_singleton, forall_eq]
  · exact fun hpc => absurd (hR.pc.trans h.pc) hpc

end Onvm.Afxdp

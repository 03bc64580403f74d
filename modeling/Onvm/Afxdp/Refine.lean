import Onvm.Afxdp.Flow

/-!
# The datapath refines its list model

`Rep s a` ties the indices, slots and local variables of the datapath to the
lists of `Flow`. Every operation of the thread and every kernel step is
matched by one `Flow.Step`, so what holds of every reachable `Flow` holds of
the lists read off the rings (`reachable_rep`).
-/

namespace Onvm.Afxdp

open Onvm.Lib

theorem fillSize : Ring.Size afxdpFillRingSize := ringSize

theorem compSize : Ring.Size afxdpCompRingSize := ringSize

theorem rxSize : Ring.Size afxdpRxRingSize := ringSize

theorem txSize : Ring.Size afxdpTxRingSize := ringSize

/-- The batch in the local variables: `rcvd` packets, of which the first ones
are done. -/
def RxRep (loc : Locals) (rxCons : BitVec 32) (a : Flow) : Prop :=
  loc.rcvd = a.rxDone.length + a.rxTodo.length ∧
    loc.idxRx = rxCons + BitVec.ofNat 32 a.rxDone.length

def TxRep (loc : Locals) (txProd : BitVec 32) (a : Flow) : Prop :=
  loc.toTx = a.toTx ∧ loc.i = a.txWr.length ∧
    loc.idxTx = txProd + BitVec.ofNat 32 a.txWr.length

/-- What the local variables hold at each point, relative to the indices the
kernel does not move. -/
def LocalsRep (loc : Locals) (rxCons fqProd txProd cqCons : BitVec 32)
    (txGet : BitVec 32 → XdpDesc) (a : Flow) : Prop :=
  match a.pc with
  | .idle | .peekCq | .peekRx | .abort => True
  | .reclaim =>
    loc.completed = a.cqDone.length + a.cqTodo.length ∧ loc.i = a.cqDone.length ∧
      loc.idxCq = cqCons + BitVec.ofNat 32 a.cqDone.length
  | .releaseCq =>
    loc.completed = a.cqDone.length ∧ loc.idxCq = cqCons + BitVec.ofNat 32 a.cqDone.length
  | .fillNbFree | .txNbFree => RxRep loc rxCons a
  | .fillReserve => RxRep loc rxCons a ∧ loc.stockFrames = a.fillFree
  | .fillWrite =>
    RxRep loc rxCons a ∧ loc.stockFrames = a.fillRes ∧ loc.i = a.fillWr.length ∧
      loc.idxFq = fqProd + BitVec.ofNat 32 a.fillWr.length
  | .fillSubmit =>
    RxRep loc rxCons a ∧ loc.stockFrames = a.fillRes ∧
      loc.idxFq = fqProd + BitVec.ofNat 32 a.fillWr.length
  | .txReserve => RxRep loc rxCons a ∧ loc.toTx = a.toTx
  | .txReadAddr | .txSubmit => RxRep loc rxCons a ∧ TxRep loc txProd a
  | .txReadLen =>
    RxRep loc rxCons a ∧ TxRep loc txProd a ∧ ∀ d ∈ a.rxTodo.head?, loc.addr = d.addr
  -- `idx_rx` has moved past the packet in hand.
  | .txWriteAddr =>
    (loc.rcvd = a.rxDone.length + a.rxTodo.length ∧
      loc.idxRx = rxCons + BitVec.ofNat 32 (a.rxDone.length + 1)) ∧ TxRep loc txProd a ∧
      ∀ d ∈ a.rxTodo.head?, loc.addr = d.addr ∧ loc.len = d.len
  | .txWriteLen =>
    (loc.rcvd = a.rxDone.length + a.rxTodo.length ∧
      loc.idxRx = rxCons + BitVec.ofNat 32 (a.rxDone.length + 1)) ∧ TxRep loc txProd a ∧
      ∀ d ∈ a.rxTodo.head?, (txGet loc.idxTx).addr = d.addr ∧ loc.len = d.len
  | .dropReadAddr => RxRep loc rxCons a ∧ loc.i = a.rxDone.length
  | .dropReadLen =>
    RxRep loc rxCons a ∧ loc.i = a.rxDone.length ∧ ∀ d ∈ a.rxTodo.head?, loc.addr = d.addr
  | .releaseRx => RxRep loc rxCons a

/-- `a` is what the state `s` holds. -/
structure Rep (s : Datapath) (a : Flow) : Prop where
  pc : s.pc = a.pc
  free : s.xsk.freeList = a.free.reverse
  fq : s.fq.ProdRep a.fillPub a.fillWr a.fillRes a.fillFree
  rx : s.rx.ConsRep (a.rxDone ++ a.rxTodo) a.rxAv
  tx : s.tx.ProdRep a.txPub a.txWr a.txRes a.txFree
  cq : s.cq.ConsRep (a.cqDone ++ a.cqTodo) a.cqAv
  rxHeld : s.kern.rxHeld = a.rxHeld
  txHeld : s.kern.txHeld = a.txHeld
  outstandingTx : s.xsk.outstandingTx = a.outstandingTx
  stats : s.xsk.stats = a.stats
  cur : s.cur = a.cur
  calls : s.calls = a.calls
  locals : LocalsRep s.loc s.rx.consumer s.fq.producer s.tx.producer s.cq.consumer s.tx.get a

theorem idx_succ (x : BitVec 32) (n : Nat) :
    x + BitVec.ofNat 32 n + 1 = x + BitVec.ofNat 32 (n + 1) := by
  rw [BitVec.ofNat_add, ← BitVec.add_assoc]; rfl

theorem getElem?_done {α : Type} (l : List α) (x : α) (l' : List α) :
    (l ++ x :: l')[l.length]? = some x := by simp

theorem freeList_length {s : Datapath} {a : Flow} (h : Rep s a) :
    s.xsk.freeList.length = a.free.length := by rw [h.free, List.length_reverse]

theorem umemFreeFrames_eq {s : Datapath} {a : Flow} (h : Rep s a) :
    afxdpUmemFreeFrames s.xsk = a.free.length := by
  rw [← freeList_length h]; simp [AfxdpSocketInfo.freeList, afxdpUmemFreeFrames]

/-! ## The thread, operation by operation -/

section
variable {s s' : Datapath} {a : Flow}

theorem sim_idle (h : Rep s a) (hpc : a.pc = .idle) (hu : s.ustep = some s') :
    ∃ a', Flow.Thread a a' ∧ Rep s' a' := by
  simp only [Datapath.ustep, h.pc.trans hpc, Option.some.injEq] at hu
  subst hu
  refine ⟨_, .enter hpc, { h with pc := by rw [h.outstandingTx], cur := rfl, locals := ?_ }⟩
  by_cases h0 : a.outstandingTx = 0 <;> simp only [LocalsRep, h0, if_true, if_false]

theorem sim_peekCq (h : Rep s a) (hs : a.Shape) (hpc : a.pc = .peekCq) (hu : s.ustep = some s') :
    ∃ a', Flow.Thread a a' ∧ Rep s' a' := by
  simp only [Flow.Shape, hpc] at hs
  obtain ⟨⟨hd, ht⟩, -⟩ := hs
  simp only [Datapath.ustep, h.pc.trans hpc, Option.some.injEq] at hu
  subst hu
  have hcq := h.cq
  rw [hd, ht] at hcq
  obtain ⟨-, h2, h3, h4, h5, h6⟩ := hcq.peek compSize afxdpCompRingSize (by decide) s.loc.idxCq
  refine ⟨_, .peekCq _ hpc h2 h3, { h with pc := rfl, cq := by rw [hd]; exact h6, locals := ?_ }⟩
  by_cases h0 : 0 < (s.cq.peek afxdpCompRingSize s.loc.idxCq).1
  · simp only [LocalsRep, if_pos h0]
    refine ⟨?_, by rw [hd]; rfl, ?_⟩
    · rw [hd, List.length_take]; simp only [List.length_nil]; omega
    · rw [h4 h0, hd, h5]; simp
  · simp only [LocalsRep, if_neg h0]

theorem sim_reclaim (h : Rep s a) (hs : a.Shape) (hpc : a.pc = .reclaim) (hu : s.ustep = some s') :
    ∃ a', Flow.Thread a a' ∧ Rep s' a' := by
  simp only [Flow.Shape, hpc] at hs
  obtain ⟨x, l, hl⟩ := List.exists_cons_of_ne_nil hs.1
  have hloc := h.locals
  simp only [LocalsRep, hpc] at hloc
  obtain ⟨hc, hi, hidx⟩ := hloc
  have hget : s.cq.get s.loc.idxCq = x := by
    rw [hidx]
    exact h.cq.get compSize (by rw [hl]; exact getElem?_done _ _ _)
  simp only [Datapath.ustep, h.pc.trans hpc, hget] at hu
  rcases free_spec s.xsk x with ⟨hlt, xsk', hx, hfl, ho, hst⟩ | ⟨hge, hx⟩
  · simp only [hx, Option.some.injEq] at hu
    subst hu
    rw [freeList_length h] at hlt
    refine ⟨_, .reclaim x l hpc hl hlt, { h with
      pc := ?_, free := ?_, cq := ?_, outstandingTx := ho.trans h.outstandingTx,
      stats := hst.trans h.stats, locals := ?_ }⟩
    · have : (s.loc.i + 1 < s.loc.completed) ↔ l ≠ [] := by
        rw [hc, hi, hl, List.length_cons, ← List.length_pos_iff]; omega
      by_cases h0 : l = [] <;> simp [h0, this]
    · simp only [hfl, h.free, List.reverse_cons]
    · have := h.cq
      rw [hl] at this
      simpa using this
    · by_cases h0 : l = []
      · simp only [LocalsRep, h0, if_true]
        refine ⟨?_, ?_⟩
        · rw [hc, hl, h0]; simp
        · rw [hidx, idx_succ]; simp
      · simp only [LocalsRep, h0, if_false]
        refine ⟨?_, ?_, ?_⟩
        · rw [hc, hl]; simp; omega
        · rw [hi]; simp
        · rw [hidx, idx_succ]; simp
  · simp only [hx, Option.some.injEq] at hu
    subst hu
    rw [freeList_length h] at hge
    exact ⟨_, .reclaimAbort hpc hs.1 hge, { h with pc := rfl, locals := trivial }⟩

theorem sim_releaseCq (h : Rep s a) (hs : a.Shape) (hpc : a.pc = .releaseCq)
    (hu : s.ustep = some s') : ∃ a', Flow.Thread a a' ∧ Rep s' a' := by
  simp only [Flow.Shape, hpc] at hs
  have hloc := h.locals
  simp only [LocalsRep, hpc] at hloc
  have hcq := h.cq
  rw [hs.1, List.append_nil] at hcq
  simp only [Datapath.ustep, h.pc.trans hpc, Option.some.injEq, hloc.1, hcq.seg_peeked compSize,
    h.outstandingTx, h.cur] at hu
  subst hu
  refine ⟨_, .releaseCq hpc, { h with
    pc := rfl, cq := ?_, outstandingTx := rfl, cur := rfl, locals := trivial }⟩
  rw [hs.1]
  exact hcq.release

theorem sim_peekRx (h : Rep s a) (hs : a.Shape) (hpc : a.pc = .peekRx) (hu : s.ustep = some s') :
    ∃ a', Flow.Thread a a' ∧ Rep s' a' := by
  simp only [Flow.Shape, hpc] at hs
  obtain ⟨-, -, -, hd, ht⟩ := hs
  simp only [Datapath.ustep, h.pc.trans hpc, Option.some.injEq] at hu
  have hrx := h.rx
  rw [hd, ht] at hrx
  obtain ⟨h1, h2, h3, h4, h5, h6⟩ := hrx.peek rxSize afxdpRxBatchSize (by decide) s.loc.idxRx
  by_cases h0 : 0 < (s.rx.peek afxdpRxBatchSize s.loc.idxRx).1
  · simp only [if_pos h0] at hu
    subst hu
    refine ⟨_, .peekRx _ hpc h0 h2 h1, { h with pc := rfl, rx := by rw [hd]; exact h6, locals := ?_ }⟩
    refine ⟨?_, ?_⟩
    · rw [hd, List.length_take]; simp only [List.length_nil]; omega
    · simp only [h4 h0, hd, h5]; simp
  · simp only [if_neg h0] at hu
    subst hu
    have hz : (s.rx.peek afxdpRxBatchSize s.loc.idxRx).1 = 0 := by omega
    rw [hz, List.take_zero, List.drop_zero] at h6
    refine ⟨_, .peekRxNone hpc (h3 hz), { h with
      pc := rfl, rx := ?_, calls := by simp only [Datapath.ret, h.calls, h.cur], locals := trivial }⟩
    rw [hd, ht]
    exact h6

theorem sim_fillNbFree (h : Rep s a) (hs : a.Shape) (hpc : a.pc = .fillNbFree)
    (hu : s.ustep = some s') : ∃ a', Flow.Thread a a' ∧ Rep s' a' := by
  simp only [Flow.Shape, hpc] at hs
  obtain ⟨-, ⟨hw, hr, -⟩, -⟩ := hs
  have hloc := h.locals
  simp only [LocalsRep, hpc] at hloc
  simp only [Datapath.ustep, h.pc.trans hpc, Option.some.injEq, umemFreeFrames_eq h] at hu
  subst hu
  have hfq := h.fq
  rw [hw, hr] at hfq
  obtain ⟨h1, h2⟩ := hfq.nbFree fillSize a.free.length
  have hprod : (s.fq.nbFree a.free.length).2.producer = s.fq.producer := by
    unfold Ring.nbFree; split <;> rfl
  refine ⟨_, .fillNbFree _ hpc h1, { h with pc := rfl, fq := by rw [hw, hr]; exact h2, locals := ?_ }⟩
  by_cases h0 : 0 < (s.fq.nbFree a.free.length).1
  · simp only [LocalsRep, if_pos h0]; exact ⟨hloc, trivial⟩
  · simp only [LocalsRep, if_neg h0]; exact hloc

theorem sim_fillReserve (h : Rep s a) (hs : a.Shape) (hpc : a.pc = .fillReserve)
    (hu : s.ustep = some s') : ∃ a', Flow.Thread a a' ∧ Rep s' a' := by
  simp only [Flow.Shape, hpc] at hs
  obtain ⟨-, ⟨hw, hr, -⟩, -⟩ := hs
  have hloc := h.locals
  simp only [LocalsRep, hpc] at hloc
  obtain ⟨hrx, hst⟩ := hloc
  have hfq := h.fq
  rw [hw, hr] at hfq
  obtain ⟨h1, h2, h3, h4⟩ := hfq.reserve fillSize (Nat.le_refl _) s.loc.idxFq
  simp only [Datapath.ustep, h.pc.trans hpc, Option.some.injEq, hst, h1, if_true] at hu
  subst hu
  refine ⟨_, .fillReserve hpc, { h with pc := rfl, fq := ?_, locals := ?_ }⟩
  · rw [hw]; simpa using h4
  · refine ⟨hrx, rfl, by rw [hw]; rfl, ?_⟩
    simp only [h2, h3, hw]; simp

/-- Writing one address into the Fill ring, wherever it came from. -/
theorem sim_fillWrite_at (h : Rep s a) (hs : a.Shape) (hpc : a.pc = .fillWrite)
    {l : List Nat} (hl : (afxdpAllocUmemFrame s.xsk).2.freeList = l.reverse)
    (ho : (afxdpAllocUmemFrame s.xsk).2.outstandingTx = s.xsk.outstandingTx)
    (hst : (afxdpAllocUmemFrame s.xsk).2.stats = s.xsk.stats) (hu : s.ustep = some s') :
    Rep s' { a with
      free := l
      fillWr := a.fillWr ++ [(afxdpAllocUmemFrame s.xsk).1]
      pc := if a.fillWr.length + 1 < a.fillRes then .fillWrite else .fillSubmit } := by
  simp only [Flow.Shape, hpc] at hs
  have hloc := h.locals
  simp only [LocalsRep, hpc] at hloc
  obtain ⟨hrx, hstock, hi, hidx⟩ := hloc
  simp only [Datapath.ustep, h.pc.trans hpc, Option.some.injEq] at hu
  subst hu
  refine { h with
    pc := by rw [hi, hstock], free := hl, fq := ?_, outstandingTx := ho.trans h.outstandingTx,
    stats := hst.trans h.stats, locals := ?_ }
  · rw [hidx]; exact h.fq.set fillSize hs.2.1.1 _
  · have hnext : s.loc.idxFq + 1 = s.fq.producer +
        BitVec.ofNat 32 (a.fillWr ++ [(afxdpAllocUmemFrame s.xsk).1]).length := by
      rw [hidx, idx_succ]; simp
    by_cases h0 : a.fillWr.length + 1 < a.fillRes
    · simp only [LocalsRep, if_pos h0]
      exact ⟨hrx, hstock, by rw [hi]; simp, hnext⟩
    · simp only [LocalsRep, if_neg h0]
      exact ⟨hrx, hstock, hnext⟩

theorem sim_fillWrite (h : Rep s a) (hs : a.Shape) (hpc : a.pc = .fillWrite)
    (hu : s.ustep = some s') : ∃ a', Flow.Thread a a' ∧ Rep s' a' := by
  cases hf : a.free with
  | nil =>
    have halloc := alloc_nil s.xsk (by rw [h.free, hf]; rfl)
    have := sim_fillWrite_at h hs hpc (l := a.free) (by rw [halloc, h.free]) (by rw [halloc])
      (by rw [halloc]) hu
    rw [halloc] at this
    exact ⟨_, .fillSentinel hpc hf, this⟩
  | cons x l =>
    obtain ⟨h1, h2, h3, h4⟩ := alloc_concat s.xsk l.reverse x
      (by rw [h.free, hf, List.reverse_cons])
    have := sim_fillWrite_at h hs hpc h2 h3 h4 hu
    rw [h1] at this
    exact ⟨_, .fillWrite x l hpc hf, this⟩

theorem sim_fillSubmit (h : Rep s a) (hs : a.Shape) (hpc : a.pc = .fillSubmit)
    (hu : s.ustep = some s') : ∃ a', Flow.Thread a a' ∧ Rep s' a' := by
  simp only [Flow.Shape, hpc] at hs
  have hloc := h.locals
  simp only [LocalsRep, hpc] at hloc
  simp only [Datapath.ustep, h.pc.trans hpc, Option.some.injEq, hloc.2.1] at hu
  subst hu
  exact ⟨_, .fillSubmit hpc, { h with
    pc := rfl, fq := h.fq.submit hs.2.1.1, locals := hloc.1 }⟩

theorem sim_txNbFree (h : Rep s a) (hs : a.Shape) (hpc : a.pc = .txNbFree)
    (hu : s.ustep = some s') : ∃ a', Flow.Thread a a' ∧ Rep s' a' := by
  simp only [Flow.Shape, hpc] at hs
  obtain ⟨-, -, ⟨hw, hr⟩, hd, hne, -⟩ := hs
  have hloc := h.locals
  simp only [LocalsRep, hpc] at hloc
  have hrc : s.loc.rcvd = a.rxTodo.length := by rw [hloc.1, hd]; simp
  have htx := h.tx
  rw [hw, hr] at htx
  obtain ⟨h1, h2⟩ := htx.nbFree txSize a.rxTodo.length
  have hprod : (s.tx.nbFree a.rxTodo.length).2.producer = s.tx.producer := by
    unfold Ring.nbFree; split <;> rfl
  have hmin : (if (s.tx.nbFree a.rxTodo.length).1 < a.rxTodo.length then
      (s.tx.nbFree a.rxTodo.length).1 else a.rxTodo.length) =
      min (s.tx.nbFree a.rxTodo.length).1 a.rxTodo.length := by
    split <;> omega
  simp only [Datapath.ustep, h.pc.trans hpc, Option.some.injEq, hrc, hmin,
    h.tx.entries txSize, h.cur] at hu
  by_cases h0 : 0 < min (s.tx.nbFree a.rxTodo.length).1 a.rxTodo.length
  · rw [if_pos h0] at hu
    subst hu
    refine ⟨_, .txNbFree _ hpc h1, { h with
      pc := by rw [if_pos h0], tx := by rw [hw, hr]; exact h2, cur := rfl, locals := ?_ }⟩
    simp only [LocalsRep, if_pos h0]
    exact ⟨⟨by rw [hd]; simp, hloc.2⟩, trivial⟩
  · rw [if_neg h0] at hu
    subst hu
    have hpos := List.length_pos_iff.mpr hne
    refine ⟨_, .txNbFree _ hpc h1, { h with
      pc := ?_, tx := by rw [hw, hr]; exact h2, cur := rfl, locals := ?_ }⟩
    · simp only [Datapath.dropOrRelease, if_pos hpos, if_neg h0]
    · simp only [LocalsRep, if_neg h0]
      exact ⟨⟨by rw [hd]; simp [Datapath.dropOrRelease], hloc.2⟩, by rw [hd]; rfl⟩

theorem sim_txReserve (h : Rep s a) (hs : a.Shape) (hpc : a.pc = .txReserve)
    (hu : s.ustep = some s') : ∃ a', Flow.Thread a a' ∧ Rep s' a' := by
  simp only [Flow.Shape, hpc] at hs
  obtain ⟨-, -, ⟨hw, hr⟩, -, -, hle, -⟩ := hs
  have hloc := h.locals
  simp only [LocalsRep, hpc] at hloc
  obtain ⟨hrx, hto⟩ := hloc
  have htx := h.tx
  rw [hw, hr] at htx
  obtain ⟨h1, h2, h3, h4⟩ := htx.reserve txSize hle s.loc.idxTx
  simp only [Datapath.ustep, h.pc.trans hpc, Option.some.injEq, hto] at hu
  subst hu
  refine ⟨_, .txReserve hpc, { h with pc := rfl, tx := ?_, locals := ?_ }⟩
  · rw [hw]; exact h4
  · refine ⟨hrx, rfl, by rw [hw]; rfl, ?_⟩
    simp only [h2, h3, hw]; simp

/-- The packet the bounce or drop loop is at. -/
theorem rx_get_todo (h : Rep s a) {d : XdpDesc} {l : List XdpDesc} (hl : a.rxTodo = d :: l) :
    s.rx.get (s.rx.consumer + BitVec.ofNat 32 a.rxDone.length) = d :=
  h.rx.get rxSize (by rw [hl]; exact getElem?_done _ _ _)

theorem Flow.Bouncing.todo (hb : a.Bouncing) : ∃ d l, a.rxTodo = d :: l := by
  obtain ⟨h1, h2, h3, h4⟩ := hb
  refine List.exists_cons_of_ne_nil ?_
  intro he
  rw [he, ← h2] at h4
  simp only [List.length_nil] at h4
  omega

theorem sim_txReadAddr (h : Rep s a) (hs : a.Shape) (hpc : a.pc = .txReadAddr)
    (hu : s.ustep = some s') : ∃ a', Flow.Thread a a' ∧ Rep s' a' := by
  simp only [Flow.Shape, hpc] at hs
  obtain ⟨d, l, hl⟩ := hs.2.2.todo
  have hloc := h.locals
  simp only [LocalsRep, hpc] at hloc
  simp only [Datapath.ustep, h.pc.trans hpc, Option.some.injEq, hloc.1.2, rx_get_todo h hl] at hu
  subst hu
  refine ⟨_, .txReadAddr hpc, { h with pc := rfl, locals := ?_ }⟩
  refine ⟨⟨hloc.1.1, rfl⟩, hloc.2, ?_⟩
  intro d' hd'
  simp only [hl, List.head?_cons, Option.mem_def, Option.some.injEq] at hd'
  exact congrArg XdpDesc.addr hd'

theorem sim_txReadLen (h : Rep s a) (hs : a.Shape) (hpc : a.pc = .txReadLen)
    (hu : s.ustep = some s') : ∃ a', Flow.Thread a a' ∧ Rep s' a' := by
  simp only [Flow.Shape, hpc] at hs
  obtain ⟨d, l, hl⟩ := hs.2.2.todo
  have hloc := h.locals
  simp only [LocalsRep, hpc] at hloc
  obtain ⟨hrx, htx, haddr⟩ := hloc
  simp only [Datapath.ustep, h.pc.trans hpc, Option.some.injEq, hrx.2, rx_get_todo h hl,
    idx_succ] at hu
  subst hu
  refine ⟨_, .txReadLen hpc, { h with pc := rfl, locals := ?_ }⟩
  refine ⟨⟨hrx.1, rfl⟩, htx, ?_⟩
  intro d' hd'
  refine ⟨haddr d' hd', ?_⟩
  simp only [hl, List.head?_cons, Option.mem_def, Option.some.injEq] at hd'
  exact congrArg XdpDesc.len hd'

theorem sim_txWriteAddr (h : Rep s a) (hs : a.Shape) (hpc : a.pc = .txWriteAddr)
    (hu : s.ustep = some s') : ∃ a', Flow.Thread a a' ∧ Rep s' a' := by
  simp only [Flow.Shape, hpc] at hs
  have hloc := h.locals
  simp only [LocalsRep, hpc] at hloc
  obtain ⟨hrx, htx, hd⟩ := hloc
  simp only [Datapath.ustep, h.pc.trans hpc, Option.some.injEq] at hu
  subst hu
  refine ⟨_, .txWriteAddr hpc, { h with pc := rfl, tx := ?_, locals := ?_ }⟩
  · rw [htx.2.2]
    exact h.tx.set_ahead txSize hs.2.2.2.2.1 _
  · refine ⟨hrx, htx, ?_⟩
    intro d hmem
    refine ⟨?_, (hd d hmem).2⟩
    simp only [Ring.get, Ring.set, Function.update_self]
    exact (hd d hmem).1

theorem sim_txWriteLen (h : Rep s a) (hs : a.Shape) (hpc : a.pc = .txWriteLen)
    (hu : s.ustep = some s') : ∃ a', Flow.Thread a a' ∧ Rep s' a' := by
  simp only [Flow.Shape, hpc] at hs
  obtain ⟨d, l, hl⟩ := hs.2.2.todo
  obtain ⟨-, -, hres, hwd, hlt, hle⟩ := hs
  have hloc := h.locals
  simp only [LocalsRep, hpc] at hloc
  obtain ⟨hrx, ⟨hto, hi, hidx⟩, hd⟩ := hloc
  obtain ⟨haddr, hlen⟩ := hd d (by rw [hl]; rfl)
  -- The slot now holds both halves of the descriptor.
  have hslot : (⟨(s.tx.get s.loc.idxTx).addr, d.len⟩ : XdpDesc) = d := by
    rw [haddr]
  simp only [Datapath.ustep, h.pc.trans hpc, Option.some.injEq, hlen, hslot, h.stats, hi, hto] at hu
  subst hu
  refine ⟨_, .txWriteLen d l hpc hl, { h with
    pc := by rw [hres], rx := ?_, tx := ?_, stats := rfl, locals := ?_ }⟩
  · have := h.rx
    rw [hl] at this
    simpa using this
  · rw [hidx]; exact h.tx.set txSize hlt d
  · have hrc : s.loc.rcvd = (a.rxDone ++ [d]).length + l.length := by
      rw [hrx.1, hl]; simp; omega
    have hix : s.loc.idxRx = s.rx.consumer + BitVec.ofNat 32 (a.rxDone ++ [d]).length := by
      rw [hrx.2]; simp
    have hnext : s.loc.idxTx + 1 = s.tx.producer + BitVec.ofNat 32 (a.txWr ++ [d]).length := by
      rw [hidx, idx_succ]; simp
    by_cases h0 : a.txWr.length + 1 < a.txRes
    · simp only [LocalsRep, if_pos h0]
      exact ⟨⟨hrc, hix⟩, rfl, by simp, hnext⟩
    · simp only [LocalsRep, if_neg h0]
      exact ⟨⟨hrc, hix⟩, rfl, by simp, hnext⟩

/-- After the last packet of a loop: on to the drop loop or to the release. -/
theorem dropOrRelease_pc (s : Datapath) (done todo : List XdpDesc)
    (hrc : s.loc.rcvd = done.length + todo.length) (hi : s.loc.i = done.length) :
    s.dropOrRelease.pc = Flow.dropPc todo := by
  have : s.loc.i < s.loc.rcvd ↔ todo ≠ [] := by
    rw [hrc, hi, ← List.length_pos_iff]; omega
  by_cases h0 : todo = [] <;> simp [Datapath.dropOrRelease, Flow.dropPc, h0, this]

theorem localsRep_dropPc {loc : Locals} {rxCons fqProd txProd cqCons : BitVec 32}
    {txGet : BitVec 32 → XdpDesc} {todo : List XdpDesc} (hpc : a.pc = Flow.dropPc todo)
    (hrx : RxRep loc rxCons a) (hi : loc.i = a.rxDone.length) :
    LocalsRep loc rxCons fqProd txProd cqCons txGet a := by
  unfold Flow.dropPc at hpc
  by_cases h0 : todo = []
  · rw [if_pos h0] at hpc
    simp only [LocalsRep, hpc]; exact hrx
  · rw [if_neg h0] at hpc
    simp only [LocalsRep, hpc]; exact ⟨hrx, hi⟩

theorem sim_txSubmit (h : Rep s a) (hs : a.Shape) (hpc : a.pc = .txSubmit)
    (hu : s.ustep = some s') : ∃ a', Flow.Thread a a' ∧ Rep s' a' := by
  simp only [Flow.Shape, hpc] at hs
  obtain ⟨-, -, hres, hwd, hlen⟩ := hs
  have hloc := h.locals
  simp only [LocalsRep, hpc] at hloc
  obtain ⟨hrx, hto, -, -⟩ := hloc
  have hto' : s.loc.toTx = a.txWr.length := by rw [hto, ← hres, hlen]
  simp only [Datapath.ustep, h.pc.trans hpc, Option.some.injEq, hto', h.tx.seg_written txSize,
    h.outstandingTx, h.cur] at hu
  subst hu
  refine ⟨_, .txSubmit hpc, { h with
    pc := dropOrRelease_pc _ a.rxDone _ hrx.1 (by rw [← hwd]), tx := ?_,
    outstandingTx := rfl, cur := rfl, locals := ?_ }⟩
  · have := h.tx.submit hlen
    rw [← hlen] at this
    exact this
  · exact localsRep_dropPc rfl hrx (by simp only [Datapath.dropOrRelease, hwd])

theorem sim_dropReadAddr (h : Rep s a) (hs : a.Shape) (hpc : a.pc = .dropReadAddr)
    (hu : s.ustep = some s') : ∃ a', Flow.Thread a a' ∧ Rep s' a' := by
  simp only [Flow.Shape, hpc] at hs
  obtain ⟨d, l, hl⟩ := List.exists_cons_of_ne_nil hs.2.2.2
  have hloc := h.locals
  simp only [LocalsRep, hpc] at hloc
  simp only [Datapath.ustep, h.pc.trans hpc, Option.some.injEq, hloc.1.2, rx_get_todo h hl] at hu
  subst hu
  refine ⟨_, .dropReadAddr hpc, { h with pc := rfl, locals := ?_ }⟩
  refine ⟨⟨hloc.1.1, rfl⟩, hloc.2, ?_⟩
  intro d' hd'
  simp only [hl, List.head?_cons, Option.mem_def, Option.some.injEq] at hd'
  exact congrArg XdpDesc.addr hd'

theorem sim_dropReadLen (h : Rep s a) (hs : a.Shape) (hpc : a.pc = .dropReadLen)
    (hu : s.ustep = some s') : ∃ a', Flow.Thread a a' ∧ Rep s' a' := by
  simp only [Flow.Shape, hpc] at hs
  obtain ⟨d, l, hl⟩ := List.exists_cons_of_ne_nil hs.2.2.2
  have hloc := h.locals
  simp only [LocalsRep, hpc] at hloc
  obtain ⟨hrx, hi, haddr⟩ := hloc
  have ha : s.loc.addr = d.addr := haddr d (by rw [hl]; rfl)
  simp only [Datapath.ustep, h.pc.trans hpc, ha, hrx.2, rx_get_todo h hl, idx_succ] at hu
  rcases free_spec s.xsk d.addr with ⟨hlt, xsk', hx, hfl, ho, hst⟩ | ⟨hge, hx⟩
  · simp only [hx, Option.some.injEq, hst, h.stats, h.cur] at hu
    subst hu
    rw [freeList_length h] at hlt
    have hrc : s.loc.rcvd = (a.rxDone ++ [d]).length + l.length := by
      rw [hrx.1, hl]; simp; omega
    refine ⟨_, .drop d l hpc hl hlt, { h with
      pc := dropOrRelease_pc _ (a.rxDone ++ [d]) _ hrc (by simp [hi]), free := ?_, rx := ?_,
      outstandingTx := ho.trans h.outstandingTx, stats := rfl, cur := rfl, locals := ?_ }⟩
    · have : xsk'.freeList = (d.addr :: a.free).reverse := by rw [hfl, h.free, List.reverse_cons]
      exact this
    · have := h.rx
      rw [hl, List.append_cons] at this
      exact this
    · exact localsRep_dropPc rfl ⟨hrc, by simp [Datapath.dropOrRelease]⟩
        (by simp [Datapath.dropOrRelease, hi])
  · simp only [hx, Option.some.injEq] at hu
    subst hu
    rw [freeList_length h] at hge
    exact ⟨_, .dropAbort hpc hs.2.2.2 hge, { h with pc := rfl, locals := trivial }⟩

theorem sim_releaseRx (h : Rep s a) (hs : a.Shape) (hpc : a.pc = .releaseRx)
    (hu : s.ustep = some s') : ∃ a', Flow.Thread a a' ∧ Rep s' a' := by
  simp only [Flow.Shape, hpc] at hs
  have hloc := h.locals
  simp only [LocalsRep, hpc] at hloc
  have ht := hs.2.2.2
  have hrc : s.loc.rcvd = a.rxDone.length := by rw [hloc.1, ht]; simp
  have hrx := h.rx
  rw [ht, List.append_nil] at hrx
  simp only [Datapath.ustep, h.pc.trans hpc, Option.some.injEq, hrc, hrx.seg_peeked rxSize,
    h.stats, h.cur] at hu
  subst hu
  refine ⟨_, .releaseRx hpc, { h with
    pc := rfl, rx := ?_, stats := rfl, cur := rfl, calls := by simp only [Datapath.ret, h.calls],
    locals := trivial }⟩
  rw [ht]
  exact hrx.release

end

/-! ## The simulation -/

theorem sim_ustep {s s' : Datapath} {a : Flow} (h : Rep s a) (hs : a.Shape)
    (hu : s.ustep = some s') : ∃ a', Flow.Thread a a' ∧ Rep s' a' := by
  cases hpc : a.pc with
  | idle => exact sim_idle h hpc hu
  | peekCq => exact sim_peekCq h hs hpc hu
  | reclaim => exact sim_reclaim h hs hpc hu
  | releaseCq => exact sim_releaseCq h hs hpc hu
  | peekRx => exact sim_peekRx h hs hpc hu
  | fillNbFree => exact sim_fillNbFree h hs hpc hu
  | fillReserve => exact sim_fillReserve h hs hpc hu
  | fillWrite => exact sim_fillWrite h hs hpc hu
  | fillSubmit => exact sim_fillSubmit h hs hpc hu
  | txNbFree => exact sim_txNbFree h hs hpc hu
  | txReserve => exact sim_txReserve h hs hpc hu
  | txReadAddr => exact sim_txReadAddr h hs hpc hu
  | txReadLen => exact sim_txReadLen h hs hpc hu
  | txWriteAddr => exact sim_txWriteAddr h hs hpc hu
  | txWriteLen => exact sim_txWriteLen h hs hpc hu
  | txSubmit => exact sim_txSubmit h hs hpc hu
  | dropReadAddr => exact sim_dropReadAddr h hs hpc hu
  | dropReadLen => exact sim_dropReadLen h hs hpc hu
  | releaseRx => exact sim_releaseRx h hs hpc hu
  | abort => simp [Datapath.ustep, h.pc.trans hpc] at hu

/-! ## The kernel -/

section
variable {s : Datapath} {a : Flow}

def Datapath.takeFill (s : Datapath) : Datapath :=
  { s with fq := s.fq.otherConsume, kern := s.kern.takeFill (s.fq.get s.fq.consumer) }

theorem rep_takeFill (h : Rep s a) {x : Nat} {l : List Nat} (hl : a.fillPub = x :: l)
    (hx : InUmem x) : Rep s.takeFill { a with fillPub := l, rxHeld := x :: a.rxHeld } := by
  have hfq := h.fq
  rw [hl] at hfq
  obtain ⟨hget, hrep⟩ := hfq.otherConsume fillSize
  exact { h with
    fq := hrep
    rxHeld := by simp only [Datapath.takeFill, Kernel.takeFill, hget, if_pos hx, h.rxHeld]
    txHeld := by simp only [Datapath.takeFill, Kernel.takeFill, hget, if_pos hx, h.txHeld] }

theorem rep_dropFill (h : Rep s a) {x : Nat} {l : List Nat} (hl : a.fillPub = x :: l)
    (hx : ¬ InUmem x) : Rep s.takeFill { a with fillPub := l } := by
  have hfq := h.fq
  rw [hl] at hfq
  obtain ⟨hget, hrep⟩ := hfq.otherConsume fillSize
  exact { h with
    fq := hrep
    rxHeld := by simp only [Datapath.takeFill, Kernel.takeFill, hget, if_neg hx, h.rxHeld]
    txHeld := by simp only [Datapath.takeFill, Kernel.takeFill, hget, if_neg hx, h.txHeld] }

theorem rep_publishRx (h : Rep s a) (l : List Nat) (d : XdpDesc)
    (hroom : s.rx.entries.length < afxdpRxRingSize) :
    Rep { s with rx := s.rx.otherProduce d, kern := { s.kern with rxHeld := l } }
      { a with rxAv := a.rxAv ++ [d], rxHeld := l } := by
  rw [h.rx.entries rxSize, List.length_append] at hroom
  exact { h with rx := h.rx.otherProduce rxSize hroom d, rxHeld := rfl }

end

theorem sim_kstep {s s' : Datapath} {a : Flow} (h : Rep s a) (hk : KStep s s') :
    ∃ a', Flow.Kernel a a' ∧ Rep s' a' := by
  cases hk with
  | takeFill hne =>
    rw [h.fq.entries fillSize] at hne
    obtain ⟨x, l, hl⟩ := List.exists_cons_of_ne_nil hne
    by_cases hx : InUmem x
    · exact ⟨_, .takeFill x l hl hx, rep_takeFill h hl hx⟩
    · exact ⟨_, .dropFill x l hl hx, rep_dropFill h hl hx⟩
  | @publishRx l l' x d hheld hfr hroom =>
    exact ⟨_, .publishRx l l' x d (h.rxHeld ▸ hheld) hfr, rep_publishRx h _ d hroom⟩
  | takeTx hne =>
    rw [h.tx.entries txSize] at hne
    obtain ⟨d, l, hl⟩ := List.exists_cons_of_ne_nil hne
    have htx := h.tx
    rw [hl] at htx
    obtain ⟨hget, hrep⟩ := htx.otherConsume txSize
    exact ⟨_, .takeTx d l hl, { h with
      tx := hrep, txHeld := by simp only [hget, h.txHeld] }⟩
  | @completeTx l l' x hheld hroom =>
    rw [h.cq.entries compSize, List.length_append] at hroom
    exact ⟨_, .completeTx l l' x (h.txHeld ▸ hheld), { h with
      cq := h.cq.otherProduce compSize hroom x, txHeld := rfl }⟩

/-! ## Socket set-up -/

/-- The population loop moves the top `n` free addresses to the Fill ring. -/
theorem fillFrames_spec {pub : List Nat} {res free : Nat} (n : Nat) :
    ∀ (idx : BitVec 32) (xsk : AfxdpSocketInfo) {fq : Ring Nat afxdpFillRingSize} {wr : List Nat},
      fq.ProdRep pub wr res free → wr.length + n ≤ res →
      idx = fq.producer + BitVec.ofNat 32 wr.length → n ≤ xsk.freeList.length →
      (fillFrames n idx fq xsk).1.ProdRep pub (wr ++ xsk.freeList.reverse.take n) res free ∧
        (fillFrames n idx fq xsk).2.freeList = (xsk.freeList.reverse.drop n).reverse ∧
        (fillFrames n idx fq xsk).2.outstandingTx = xsk.outstandingTx ∧
        (fillFrames n idx fq xsk).2.stats = xsk.stats := by
  induction n with
  | zero =>
    intro idx xsk fq wr hfq _ _ _
    simpa [fillFrames] using hfq
  | succ n ih =>
    intro idx xsk fq wr hfq hres hidx hlen
    have hne : xsk.freeList ≠ [] := by
      intro he; rw [he] at hlen; simp at hlen
    obtain ⟨l, x, hl⟩ : ∃ l x, xsk.freeList = l ++ [x] :=
      ⟨_, _, (List.dropLast_append_getLast hne).symm⟩
    obtain ⟨h1, h2, h3, h4⟩ := alloc_concat xsk l x hl
    have hset := hfq.set fillSize (by omega) x
    rw [← hidx, ← h1] at hset
    obtain ⟨i1, i2, i3, i4⟩ := ih (idx + 1) (afxdpAllocUmemFrame xsk).2 hset
      (by simp; omega) (by rw [hidx, idx_succ]; simp [Ring.set])
      (by rw [h2]; rw [hl, List.length_append] at hlen; simpa using hlen)
    rw [h2] at i1 i2
    rw [hl, List.reverse_concat, List.take_succ_cons, List.drop_succ_cons]
    refine ⟨?_, i2, i3.trans h3, i4.trans h4⟩
    rw [List.append_cons, ← h1]
    exact i1

theorem freeList_init : afxdpInitFreeList.freeList =
    (List.range afxdpNumFrames).map (· * afxdpFrameSize) := rfl

theorem frames_init : Flow.frames afxdpInitFreeList.freeList = List.range afxdpNumFrames := by
  rw [freeList_init, Flow.frames, List.map_map]
  conv_rhs => rw [← List.map_id (List.range afxdpNumFrames)]
  refine List.map_congr_left fun i _ => ?_
  exact Nat.mul_div_cancel _ (by decide)

theorem configureSocket_spec {fq : Ring Nat afxdpFillRingSize} (h : FreshProd fq) :
    ∃ fq' xsk, afxdpConfigureSocket fq = some (fq', xsk) ∧
      fq'.ProdRep (afxdpInitFreeList.freeList.reverse.take afxdpFillRingSize) [] 0 0 ∧
      xsk.freeList = (afxdpInitFreeList.freeList.reverse.drop afxdpFillRingSize).reverse ∧
      xsk.outstandingTx = 0 ∧ xsk.stats = ⟨0, 0, 0, 0⟩ := by
  have hlen : afxdpInitFreeList.freeList.length = afxdpNumFrames := by simp [freeList_init]
  have hle : afxdpFillRingSize ≤ afxdpNumFrames := by decide
  have h0 := Ring.prodRep_of_empty h.1 h.2.1 h.2.2
  obtain ⟨h1, h2, h3, h4⟩ := h0.reserve fillSize (Nat.le_refl _) 0
  obtain ⟨f1, f2, f3, f4⟩ := fillFrames_spec afxdpFillRingSize
    (fq.reserve afxdpFillRingSize 0).2.1 afxdpInitFreeList h4 (by simp) (by rw [h2, h3]; simp)
    (by rw [hlen]; exact hle)
  have hconf : afxdpConfigureSocket fq = some
      ((fillFrames afxdpFillRingSize (fq.reserve afxdpFillRingSize 0).2.1
        (fq.reserve afxdpFillRingSize 0).2.2 afxdpInitFreeList).1.submit afxdpFillRingSize,
      (fillFrames afxdpFillRingSize (fq.reserve afxdpFillRingSize 0).2.1
        (fq.reserve afxdpFillRingSize 0).2.2 afxdpInitFreeList).2) := by
    simp only [afxdpConfigureSocket, h1, ne_eq, not_true, if_false]
  have hsub := f1.submit
    (by rw [List.nil_append, List.length_take, List.length_reverse, hlen]; omega)
  rw [List.nil_append, List.nil_append, Nat.sub_self] at hsub
  exact ⟨_, _, hconf, hsub, f2, f3, f4⟩

theorem perm_drop_take_reverse (l : List Nat) (n : Nat) :
    (l.reverse.drop n ++ l.reverse.take n).Perm l := by
  refine List.perm_append_comm.trans ?_
  rw [List.take_append_drop]
  exact List.reverse_perm l

theorem init_rep {s : Datapath} (h : s.Init) : ∃ a, Flow.Init a ∧ Rep s a := by
  obtain ⟨⟨fq, hfq, hconf⟩, hcq, hrx, htx, hk, hpc, hcalls⟩ := h
  obtain ⟨fq', xsk, hc, c1, c2, c3, c4⟩ := configureSocket_spec hfq
  rw [hconf, Option.some.injEq, Prod.mk.injEq] at hc
  obtain ⟨rfl, rfl⟩ := hc
  have hlen : afxdpInitFreeList.freeList.length = afxdpNumFrames := by simp [freeList_init]
  have hfr := frames_init
  generalize afxdpInitFreeList.freeList = l at c1 c2 hlen hfr
  have hperm : (Flow.frames (l.reverse.drop afxdpFillRingSize ++
      l.reverse.take afxdpFillRingSize)).Perm (List.range afxdpNumFrames) := by
    rw [← hfr]; exact (perm_drop_take_reverse l _).map _
  have hfill : (l.reverse.take afxdpFillRingSize).length = afxdpFillRingSize := by
    rw [List.length_take, List.length_reverse, hlen]; decide
  refine ⟨{
    pc := .idle, free := l.reverse.drop afxdpFillRingSize,
    fillPub := l.reverse.take afxdpFillRingSize,
    fillWr := [], fillRes := 0, fillFree := 0, rxHeld := [], rxDone := [], rxTodo := [], rxAv := [],
    txPub := [], txWr := [], txRes := 0, txFree := afxdpTxRingSize, txHeld := [], cqDone := [],
    cqTodo := [], cqAv := [], toTx := 0, outstandingTx := 0, stats := ⟨0, 0, 0, 0⟩, cur := s.cur,
    calls := [] }, ?_, ?_⟩
  · exact ⟨rfl, hfill, hperm, rfl, rfl, rfl, Nat.le_refl _, rfl, rfl, rfl, rfl, rfl,
      ⟨rfl, rfl⟩, ⟨rfl, rfl, rfl⟩, ⟨rfl, rfl⟩, rfl, rfl⟩
  · exact {
      pc := hpc, free := c2, fq := c1, rx := Ring.consRep_of_empty hrx.1 hrx.2.1 hrx.2.2,
      tx := Ring.prodRep_of_empty htx.1 htx.2.1 htx.2.2,
      cq := Ring.consRep_of_empty hcq.1 hcq.2.1 hcq.2.2, rxHeld := by rw [hk], txHeld := by rw [hk],
      outstandingTx := c3, stats := c4, cur := rfl, calls := hcalls, locals := trivial }

/-- **The datapath refines the list model.** -/
theorem refines : TransSys.Simulation datapath flow fun s a => Rep s a ∧ a.Shape where
  init s hi := by
    obtain ⟨a, ha, hR⟩ := init_rep hi
    exact ⟨a, ha, hR, ha.shape⟩
  step s a s' := by
    rintro ⟨hR, hs⟩ (hu | hk)
    · obtain ⟨a', hn, hR'⟩ := sim_ustep hR hs hu
      exact ⟨a', .inr (.inl hn), hR', hn.shape hs⟩
    · obtain ⟨a', hn, hR'⟩ := sim_kstep hR hk
      exact ⟨a', .inr (.inr hn), hR', hn.shape hs⟩

/-! ## A started datapath -/

def freshProd {α : Type} (x : α) (n : Nat) : Ring α n where
  producer := 0
  consumer := 0
  cachedProd := 0
  cachedCons := BitVec.ofNat 32 n
  slot _ := x

def freshCons {α : Type} (x : α) (n : Nat) : Ring α n where
  producer := 0
  consumer := 0
  cachedProd := 0
  cachedCons := 0
  slot _ := x

/-- The socket as `afxdp_configure_socket` leaves it on rings at index 0. -/
def Datapath.boot : Datapath where
  fq := ((afxdpConfigureSocket (freshProd 0 _)).getD (freshProd 0 _, afxdpInitFreeList)).1
  cq := freshCons 0 _
  rx := freshCons ⟨0, 0⟩ _
  tx := freshProd ⟨0, 0⟩ _
  xsk := ((afxdpConfigureSocket (freshProd 0 _)).getD (freshProd 0 _, afxdpInitFreeList)).2
  kern := {}
  pc := .idle
  loc := {}
  cur := {}
  calls := []

theorem freshProd_fresh {α : Type} (x : α) (n : Nat) : FreshProd (freshProd x n) :=
  ⟨rfl, rfl, (BitVec.zero_add _).symm⟩

theorem boot_init : Datapath.boot.Init := by
  have hfq := freshProd_fresh 0 afxdpFillRingSize
  obtain ⟨fq, xsk, hconf, -⟩ := configureSocket_spec hfq
  refine ⟨⟨freshProd 0 _, hfq, ?_⟩, ⟨rfl, rfl, rfl⟩, ⟨rfl, rfl, rfl⟩, freshProd_fresh _ _, rfl, rfl,
    rfl⟩
  rw [Datapath.boot, hconf]
  rfl

theorem reachable_rep {s : Datapath} (h : datapath.Reachable s) :
    ∃ a, flow.Reachable a ∧ Rep s a := by
  obtain ⟨a, ha, hR, -⟩ := refines.reachable h
  exact ⟨a, ha, hR⟩

end Onvm.Afxdp

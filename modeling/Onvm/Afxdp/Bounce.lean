import Onvm.Afxdp.Datapath

/-!
# The batched and the per-packet bounce

Steps 4 and 5 of `afxdp_handle_receive` put a batch of received descriptors on the TX
ring at once, as many as it has room for, and free the frames of the others.
`afxdp_process_packet` does the same for one descriptor. The kernel does not move
meanwhile. The two are compared for every TX ring, with any four indices: a ring whose
cached consumer index is ahead of the shared one is the only thing that tells them
apart.
-/

namespace Onvm.Afxdp

open Onvm.Lib

/-- The TX ring of a socket, which has `n` slots, and the rest of the socket. -/
structure TxSide (n : Nat) where
  tx : Ring XdpDesc n
  xsk : AfxdpSocketInfo

variable {n : Nat}

/-! ## The code -/

/-- `tx_desc(idx)->addr = addr; tx_desc(idx)->len = len` -/
def writeDesc (tx : Ring XdpDesc n) (idx : BitVec 32) (d : XdpDesc) :
    Ring XdpDesc n :=
  let tx := tx.set idx { tx.get idx with addr := d.addr }
  tx.set idx { tx.get idx with len := d.len }

/-- What `afxdp_process_packet` counts for a packet that it sends. -/
def countPacket (xsk : AfxdpSocketInfo) (d : XdpDesc) : AfxdpSocketInfo :=
  { xsk with
    outstandingTx := xsk.outstandingTx + 1
    stats := { xsk.stats with
      txBytes := xsk.stats.txBytes + BitVec.ofNat 64 d.len
      txPackets := xsk.stats.txPackets + 1 } }

def afxdpProcessPacket (s : TxSide n) (d : XdpDesc) : Bool × TxSide n :=
  let r := s.tx.reserve 1 0
  if r.1 ≠ 1 then (false, { s with tx := r.2.2 })
  else (true, ⟨(writeDesc r.2.2 r.2.1 d).submit 1, countPacket s.xsk d⟩)

/-- `afxdp_process_packet` on each descriptor; the frames it refuses are freed. `none`
when an `assert` fails. -/
def bounceEach : List XdpDesc → TxSide n → Option (TxSide n)
  | [], s => some s
  | d :: batch, s =>
    match afxdpProcessPacket s d with
    | (true, s) => bounceEach batch s
    | (false, s) =>
      (afxdpFreeUmemFrame s.xsk d.addr).bind fun xsk => bounceEach batch { s with xsk := xsk }

def countInBatch (xsk : AfxdpSocketInfo) (d : XdpDesc) : AfxdpSocketInfo :=
  { xsk with
    stats := { xsk.stats with
      rxBytes := xsk.stats.rxBytes + BitVec.ofNat 64 d.len
      txBytes := xsk.stats.txBytes + BitVec.ofNat 64 d.len
      txPackets := xsk.stats.txPackets + 1 } }

def fillTx : List XdpDesc → BitVec 32 → TxSide n → TxSide n
  | [], _, s => s
  | d :: batch, idx, s => fillTx batch (idx + 1) ⟨writeDesc s.tx idx d, countInBatch s.xsk d⟩

/-- The loop that frees the frames of the other packets. -/
def freeRest : List XdpDesc → AfxdpSocketInfo → Option AfxdpSocketInfo
  | [], xsk => some xsk
  | d :: batch, xsk => do
    let xsk ← afxdpFreeUmemFrame xsk d.addr
    freeRest batch { xsk with
      stats := { xsk.stats with rxBytes := xsk.stats.rxBytes + BitVec.ofNat 64 d.len } }

/-- How many packets of the batch are sent, and the ring after the question. -/
def txRoom (tx : Ring XdpDesc n) (rcvd : Nat) :
    Nat × Ring XdpDesc n :=
  let txAvail := tx.nbFree rcvd
  (if txAvail.1 < rcvd then txAvail.1 else rcvd, txAvail.2)

def sendBatch (s : TxSide n) (batch : List XdpDesc) : TxSide n :=
  if 0 < batch.length then
    let r := s.tx.reserve batch.length 0
    let s := fillTx batch r.2.1 { s with tx := r.2.2 }
    { tx := s.tx.submit batch.length
      xsk := { s.xsk with
        outstandingTx := s.xsk.outstandingTx + BitVec.ofNat 32 batch.length } }
  else s

/-- Steps 4 and 5 of `afxdp_handle_receive`, without the RX ring. -/
def bounceBatch (s : TxSide n) (batch : List XdpDesc) : Option (TxSide n) := do
  let rcvd := batch.length
  let room := txRoom s.tx rcvd
  let s := sendBatch { s with tx := room.2 } (batch.take room.1)
  let xsk ← freeRest (batch.drop room.1) s.xsk
  some { s with xsk := { xsk with
    stats := { xsk.stats with rxPackets := xsk.stats.rxPackets + BitVec.ofNat 64 rcvd } } }

/-! ## What is compared -/

structure TxCount where
  outstandingTx : BitVec 32
  txPackets : BitVec 64
  txBytes : BitVec 64
  freeList : List Nat
  deriving DecidableEq

def AfxdpSocketInfo.txCount (xsk : AfxdpSocketInfo) : TxCount :=
  ⟨xsk.outstandingTx, xsk.stats.txPackets, xsk.stats.txBytes, xsk.freeList⟩

/-- The contents of the TX ring, its producer position, the counters and the free
list. -/
structure TxOutcome where
  slot : Nat → XdpDesc
  producer : BitVec 32
  count : TxCount

def TxSide.outcome (s : TxSide n) : TxOutcome := ⟨s.tx.slot, s.tx.producer, s.xsk.txCount⟩

def TxCount.free (c : TxCount) (d : XdpDesc) : Option TxCount :=
  if c.freeList.length < afxdpNumFrames then some { c with freeList := c.freeList ++ [d.addr] }
  else none

theorem txCount_free (xsk : AfxdpSocketInfo) (d : XdpDesc) :
    (afxdpFreeUmemFrame xsk d.addr).map AfxdpSocketInfo.txCount = xsk.txCount.free d := by
  obtain ⟨hlt, xsk', hf, hl, ho, hs⟩ | ⟨hge, hf⟩ := free_spec xsk d.addr
  · have hfree : xsk.txCount.free d = some { xsk.txCount with
        freeList := xsk.freeList ++ [d.addr] } := if_pos hlt
    rw [hf, hfree, Option.map_some]
    simp only [AfxdpSocketInfo.txCount, hl, ho, hs]
  · have hfree : xsk.txCount.free d = none := if_neg hge
    rw [hf, hfree, Option.map_none]

/-- Some packets are sent, the frames of the others freed. -/
def TxSide.finish (s : TxSide n) (refused : List XdpDesc) : Option TxOutcome :=
  (refused.foldlM TxCount.free s.xsk.txCount).map fun c => ⟨s.tx.slot, s.tx.producer, c⟩

def TxSide.send (s : TxSide n) (d : XdpDesc) : TxSide n := ⟨s.tx.push d, countPacket s.xsk d⟩

def TxSide.sendAll (s : TxSide n) (batch : List XdpDesc) : TxSide n := batch.foldl TxSide.send s

/-- The consumer index of the TX ring is read again. -/
def TxSide.refresh (s : TxSide n) : TxSide n := { s with tx := s.tx.refresh }

/-! ## The ring -/

theorem writeDesc_eq (tx : Ring XdpDesc n) (idx : BitVec 32) (d : XdpDesc) :
    writeDesc tx idx d = tx.set idx d := by
  simp only [writeDesc, Ring.set, Ring.get, Function.update_self, Function.update_idem]

theorem sendAll_tx (s : TxSide n) (batch : List XdpDesc) :
    (s.sendAll batch).tx = batch.foldl Ring.push s.tx := by
  induction batch generalizing s with
  | nil => rfl
  | cons d batch ih => exact ih (s.send d)

theorem sendAll_append (s : TxSide n) (l l' : List XdpDesc) :
    s.sendAll (l ++ l') = (s.sendAll l).sendAll l' := List.foldl_append

theorem sendAll_refresh (s : TxSide n) (batch : List XdpDesc) :
    (s.sendAll batch).refresh = s.refresh.sendAll batch := by
  induction batch generalizing s with
  | nil => rfl
  | cons d batch ih => exact ih (s.send d)

theorem finish_refresh (s : TxSide n) (refused : List XdpDesc) :
    s.refresh.finish refused = s.finish refused := rfl

/-! ## The per-packet bounce -/

/-- A slot is known to be free. -/
theorem processPacket_known {s : TxSide n} (h : 0 < s.tx.known) (d : XdpDesc) :
    afxdpProcessPacket s d = (true, s.send d) := by
  rw [afxdpProcessPacket, Ring.reserve_known h]
  simp only [ne_eq, not_true_eq_false, if_false, writeDesc_eq]
  rfl

theorem processPacket_refresh {s : TxSide n} (h : s.tx.known = 0) (h' : 0 < s.tx.refresh.known)
    (d : XdpDesc) : afxdpProcessPacket s d = afxdpProcessPacket s.refresh d := by
  rw [afxdpProcessPacket, Ring.reserve_refresh (by omega) h']
  rfl

theorem processPacket_full {s : TxSide n} (h : s.tx.known = 0) (h' : s.tx.refresh.known = 0)
    (d : XdpDesc) : afxdpProcessPacket s d = (false, s.refresh) := by
  rw [afxdpProcessPacket, Ring.reserve_full (by omega) (by omega)]
  rfl

/-- As many packets as there are known slots are sent. -/
theorem bounceEach_known {s : TxSide n} {l r : List XdpDesc} (h : l.length ≤ s.tx.known)
    (hl : l.length < 2 ^ 32) : bounceEach (l ++ r) s = bounceEach r (s.sendAll l) := by
  induction l generalizing s with
  | nil => rfl
  | cons d l ih =>
    rw [List.length_cons] at h hl
    have hk : (s.send d).tx.known = s.tx.known - 1 := by
      have := s.tx.known_foldl_push (l := [d]) (by simp)
      rwa [List.length_singleton, if_pos (by omega)] at this
    rw [List.cons_append, bounceEach, processPacket_known (by omega)]
    exact ih (by omega) (by omega)

/-- Once the ring is full all frames are freed. -/
theorem bounceEach_full {s : TxSide n} (h : s.tx.known = 0) (h' : s.tx.refresh.known = 0)
    (l : List XdpDesc) : (bounceEach l s).map TxSide.outcome = s.finish l := by
  induction l generalizing s with
  | nil => rfl
  | cons d l ih =>
    rw [bounceEach, processPacket_full h h', TxSide.finish, List.foldlM_cons]
    have hfree := txCount_free s.xsk d
    cases hx : afxdpFreeUmemFrame s.xsk d.addr with
    | none =>
      rw [hx, Option.map_none] at hfree
      rw [← hfree]
      show (Option.bind (afxdpFreeUmemFrame s.xsk d.addr) _).map _ = _
      rw [hx]
      rfl
    | some xsk =>
      rw [hx, Option.map_some] at hfree
      rw [← hfree]
      show (Option.bind (afxdpFreeUmemFrame s.xsk d.addr) _).map _ = _
      rw [hx, Option.bind_some, ih]
      · rfl
      · exact h'
      · exact h'

theorem length_take_of_le {l : List XdpDesc} {k : Nat} (h : k ≤ l.length) :
    (l.take k).length = k := by
  rw [List.length_take, min_eq_left h]

/-- On a ring whose cached consumer index is as good as the shared one. -/
theorem bounceEach_fresh {s : TxSide n} (hfresh : s.tx.refresh.known = s.tx.known)
    {batch : List XdpDesc} (hlen : batch.length < 2 ^ 32) {k : Nat}
    (hk : k = if s.tx.known < batch.length then s.tx.known else batch.length) :
    (bounceEach batch s).map TxSide.outcome = (s.sendAll (batch.take k)).finish (batch.drop k) := by
  have hkle : k ≤ s.tx.known ∧ k ≤ batch.length := by
    rw [hk]
    split <;> omega
  have htake := length_take_of_le hkle.2
  have heach := bounceEach_known (r := batch.drop k) (htake.trans_le hkle.1) (by omega)
  rw [List.take_append_drop] at heach
  rw [heach]
  by_cases hfull : s.tx.known < batch.length
  · rw [if_pos hfull] at hk
    have hzero : (s.sendAll (batch.take k)).tx.known = 0 := by
      rw [sendAll_tx, Ring.known_foldl_push _ (by omega), if_pos (by omega)]
      omega
    have hzero' : (s.sendAll (batch.take k)).tx.refresh.known = 0 := by
      rw [sendAll_tx, Ring.refresh_foldl_push, Ring.known_foldl_push _ (by omega),
        if_pos (by omega)]
      omega
    exact bounceEach_full hzero hzero' _
  · rw [if_neg hfull] at hk
    rw [hk, List.drop_length]
    rfl

/-- The consumer index is read again where the known slots end. -/
theorem bounceEach_refresh {s : TxSide n} {batch : List XdpDesc} (hlen : batch.length < 2 ^ 32)
    (hk : s.tx.known < batch.length) (h : s.tx.known < s.tx.refresh.known) :
    bounceEach batch s = bounceEach batch s.refresh := by
  have htake := length_take_of_le hk.le
  have hsplit := List.take_append_drop s.tx.known batch
  have h1 := bounceEach_known (r := batch.drop s.tx.known) htake.le (by omega)
  have h2 := bounceEach_known (s := s.refresh) (r := batch.drop s.tx.known)
    (htake.trans_le h.le) (by omega)
  rw [hsplit] at h1 h2
  rw [h1, h2, ← sendAll_refresh]
  have hzero : (s.sendAll (batch.take s.tx.known)).tx.known = 0 := by
    rw [sendAll_tx, Ring.known_foldl_push _ (by omega), if_pos htake.le]
    omega
  have hpos : 0 < (s.sendAll (batch.take s.tx.known)).tx.refresh.known := by
    rw [sendAll_tx, Ring.refresh_foldl_push, Ring.known_foldl_push _ (by omega),
      if_pos (by omega)]
    omega
  obtain ⟨d, rest, hrest⟩ : ∃ d rest, batch.drop s.tx.known = d :: rest := by
    apply List.exists_cons_of_length_pos
    rw [List.length_drop]
    omega
  rw [hrest, bounceEach, bounceEach, processPacket_refresh hzero hpos]

theorem txRoom_eq (tx : Ring XdpDesc n) (rcvd : Nat) : txRoom tx rcvd =
    if rcvd ≤ tx.known then (rcvd, tx)
    else (if tx.refresh.known < rcvd then tx.refresh.known else rcvd, tx.refresh) := by
  by_cases hk : rcvd ≤ tx.known
  · simp only [txRoom, Ring.nbFree_eq, if_pos hk, if_neg (not_lt.mpr hk)]
  · simp only [txRoom, Ring.nbFree_eq, if_neg hk]

/-- The per-packet bounce sends what the ring has room for, when the cached consumer index
is not ahead of the shared one or is not read again. -/
theorem bounceEach_outcome {s : TxSide n} {batch : List XdpDesc} (hlen : batch.length < 2 ^ 32)
    (h : batch.length ≤ s.tx.known ∨ s.tx.known ≤ s.tx.refresh.known) :
    (bounceEach batch s).map TxSide.outcome =
      (s.sendAll (batch.take (txRoom s.tx batch.length).1)).finish
        (batch.drop (txRoom s.tx batch.length).1) := by
  rw [txRoom_eq]
  by_cases hk : batch.length ≤ s.tx.known
  · have heach := bounceEach_known (r := []) hk hlen
    rw [List.append_nil] at heach
    rw [if_pos hk, List.take_length, List.drop_length, heach]
    rfl
  · rw [if_neg hk]
    have hle := h.resolve_left hk
    by_cases heq : s.tx.refresh.known = s.tx.known
    · exact bounceEach_fresh heq hlen (by rw [heq])
    · rw [bounceEach_refresh hlen (by omega) (by omega)]
      rw [bounceEach_fresh (s := s.refresh) rfl hlen rfl, ← sendAll_refresh, finish_refresh]
      rfl

/-! ## The batched bounce -/

def TxCount.sent (c : TxCount) (batch : List XdpDesc) : TxCount where
  outstandingTx := c.outstandingTx + BitVec.ofNat 32 batch.length
  txPackets := c.txPackets + BitVec.ofNat 64 batch.length
  txBytes := batch.foldl (fun b d => b + BitVec.ofNat 64 d.len) c.txBytes
  freeList := c.freeList

theorem sendAll_count (s : TxSide n) (batch : List XdpDesc) :
    (s.sendAll batch).xsk.txCount = s.xsk.txCount.sent batch := by
  induction batch generalizing s with
  | nil => simp [TxSide.sendAll, TxCount.sent]
  | cons d batch ih =>
    have hsend : (s.sendAll (d :: batch)) = (s.send d).sendAll batch := rfl
    rw [hsend, ih]
    simp only [TxCount.sent, TxSide.send, countPacket, AfxdpSocketInfo.txCount, Ring.add_succ,
      List.length_cons, List.foldl_cons]
    rfl

theorem fillTx_eq (batch : List XdpDesc) (idx : BitVec 32) (s : TxSide n) :
    fillTx batch idx s = ⟨s.tx.setAll idx batch, batch.foldl countInBatch s.xsk⟩ := by
  induction batch generalizing idx s with
  | nil => rfl
  | cons d batch ih =>
    rw [fillTx, ih, writeDesc_eq]
    rfl

theorem countInBatch_count (xsk : AfxdpSocketInfo) (batch : List XdpDesc) :
    (batch.foldl countInBatch xsk).txCount =
      { xsk.txCount.sent batch with outstandingTx := xsk.outstandingTx } := by
  induction batch generalizing xsk with
  | nil => simp [TxCount.sent, AfxdpSocketInfo.txCount]
  | cons d batch ih =>
    rw [List.foldl_cons, ih]
    simp only [TxCount.sent, countInBatch, AfxdpSocketInfo.txCount, Ring.add_succ,
      List.length_cons, List.foldl_cons]
    rfl

/-- A batch that fits is sent as if packet by packet. -/
theorem sendBatch_spec {s : TxSide n} {batch : List XdpDesc} (h : batch.length ≤ s.tx.known) :
    (sendBatch s batch).tx = (s.sendAll batch).tx ∧
      (sendBatch s batch).xsk.txCount = (s.sendAll batch).xsk.txCount := by
  rw [sendAll_tx, sendAll_count]
  by_cases h0 : 0 < batch.length
  · rw [sendBatch, if_pos h0, Ring.reserve_known h]
    simp only [fillTx_eq]
    constructor
    · have hset := s.tx.setAll_indices s.tx.producer
        (s.tx.cachedProd + BitVec.ofNat 32 batch.length) s.tx.cachedProd batch
      rw [Ring.foldl_push, Ring.submit, Ring.setAll_producer, hset]
    · have hcount := countInBatch_count s.xsk batch
      simp only [AfxdpSocketInfo.txCount, TxCount.sent, TxCount.mk.injEq] at hcount ⊢
      obtain ⟨ho, hp, hb, hl⟩ := hcount
      exact ⟨by rw [ho], hp, hb, hl⟩
  · have hnil : batch = [] := List.eq_nil_of_length_eq_zero (by omega)
    rw [sendBatch, if_neg h0, hnil]
    exact ⟨rfl, by simp [TxCount.sent]⟩

theorem freeRest_count (batch : List XdpDesc) (xsk : AfxdpSocketInfo) :
    (freeRest batch xsk).map AfxdpSocketInfo.txCount = batch.foldlM TxCount.free xsk.txCount := by
  induction batch generalizing xsk with
  | nil => rfl
  | cons d batch ih =>
    rw [freeRest, List.foldlM_cons, ← txCount_free]
    cases afxdpFreeUmemFrame xsk d.addr with
    | none => rfl
    | some xsk' => exact ih _

/-- What there is room for is known to be free afterwards. -/
theorem txRoom_known (tx : Ring XdpDesc n) (rcvd : Nat) :
    (txRoom tx rcvd).1 ≤ (txRoom tx rcvd).2.known ∧ (txRoom tx rcvd).1 ≤ rcvd := by
  rw [txRoom_eq]
  split
  · rename_i hk
    exact ⟨hk, le_refl _⟩
  · dsimp only
    split <;> omega

/-- Sending does not depend on whether the consumer index was read again. -/
theorem sendAll_txRoom (s : TxSide n) (rcvd : Nat) (l l' : List XdpDesc) :
    (TxSide.sendAll { s with tx := (txRoom s.tx rcvd).2 } l).finish l' =
      (s.sendAll l).finish l' := by
  rw [txRoom_eq]
  split
  · rfl
  · rw [← finish_refresh (s.sendAll l), sendAll_refresh]
    rfl

theorem freeRest_outcome (s : TxSide n) (batch : List XdpDesc) (rcvd : Nat) :
    ((freeRest batch s.xsk).bind fun xsk => some { s with xsk := { xsk with
      stats := { xsk.stats with
        rxPackets := xsk.stats.rxPackets + BitVec.ofNat 64 rcvd } } }).map TxSide.outcome =
      s.finish batch := by
  rw [TxSide.finish, ← freeRest_count]
  cases freeRest batch s.xsk with
  | none => rfl
  | some xsk => rfl

theorem TxSide.finish_congr {s s' : TxSide n} (htx : s.tx = s'.tx)
    (hcount : s.xsk.txCount = s'.xsk.txCount) (l : List XdpDesc) : s.finish l = s'.finish l := by
  rw [finish, finish, htx, hcount]

/-- The batched bounce sends what the ring has room for, whatever its indices. -/
theorem bounceBatch_outcome (s : TxSide n) (batch : List XdpDesc) :
    (bounceBatch s batch).map TxSide.outcome =
      (s.sendAll (batch.take (txRoom s.tx batch.length).1)).finish
        (batch.drop (txRoom s.tx batch.length).1) := by
  obtain ⟨hknown, hle⟩ := txRoom_known s.tx batch.length
  have hlen : (batch.take (txRoom s.tx batch.length).1).length ≤
      (txRoom s.tx batch.length).2.known := (length_take_of_le hle).trans_le hknown
  obtain ⟨htx, hcount⟩ :=
    sendBatch_spec (s := { s with tx := (txRoom s.tx batch.length).2 }) hlen
  rw [← sendAll_txRoom s batch.length, ← TxSide.finish_congr htx hcount]
  exact freeRest_outcome _ _ batch.length

/-! ## The comparison -/

/-- Freeing frames does not change the number of outstanding packets. -/
theorem foldlM_free_outstandingTx {l : List XdpDesc} {c c' : TxCount}
    (h : l.foldlM TxCount.free c = some c') : c'.outstandingTx = c.outstandingTx := by
  induction l generalizing c with
  | nil =>
    cases h
    rfl
  | cons d l ih =>
    rw [List.foldlM_cons, TxCount.free] at h
    split at h
    · have hrest : l.foldlM TxCount.free { c with freeList := c.freeList ++ [d.addr] } =
          some c' := h
      exact (ih hrest).trans rfl
    · cases h

theorem finish_outstandingTx {s : TxSide n} {l : List XdpDesc} {o : TxOutcome}
    (h : s.finish l = some o) : o.count.outstandingTx = s.xsk.outstandingTx := by
  obtain ⟨c, hc, rfl⟩ := Option.map_eq_some_iff.mp h
  exact foldlM_free_outstandingTx hc

/-- With a cached consumer index ahead of the shared one the count of free slots
underflows when the index is read again, and all packets are sent. -/
theorem bounceEach_ahead {s : TxSide n} {batch : List XdpDesc} (hlen : batch.length < 2 ^ 31)
    (hk : s.tx.known < batch.length) (h : s.tx.refresh.known < s.tx.known) :
    ∃ s', bounceEach batch s = some s' ∧
      s'.xsk.outstandingTx = s.xsk.outstandingTx + BitVec.ofNat 32 batch.length := by
  have htake := length_take_of_le hk.le
  have hdrop : (batch.drop s.tx.known).length = batch.length - s.tx.known := List.length_drop
  have h1 := bounceEach_known (r := batch.drop s.tx.known) htake.le (by omega)
  rw [List.take_append_drop] at h1
  have hzero : (s.sendAll (batch.take s.tx.known)).tx.known = 0 := by
    rw [sendAll_tx, Ring.known_foldl_push _ (by omega), if_pos htake.le]
    omega
  have hmany : batch.length - s.tx.known ≤
      (s.sendAll (batch.take s.tx.known)).tx.refresh.known := by
    rw [sendAll_tx, Ring.refresh_foldl_push, Ring.known_foldl_push _ (by omega),
      if_neg (by omega)]
    omega
  obtain ⟨d, rest, hrest⟩ : ∃ d rest, batch.drop s.tx.known = d :: rest := by
    apply List.exists_cons_of_length_pos
    omega
  have h2 : bounceEach (batch.drop s.tx.known) (s.sendAll (batch.take s.tx.known)) =
      bounceEach (batch.drop s.tx.known) (s.sendAll (batch.take s.tx.known)).refresh := by
    rw [hrest, bounceEach, bounceEach, processPacket_refresh hzero (by omega)]
  have h3 := bounceEach_known (r := []) (hdrop.trans_le hmany) (by omega)
    (s := (s.sendAll (batch.take s.tx.known)).refresh)
  rw [List.append_nil, sendAll_refresh, ← sendAll_append, List.take_append_drop] at h3
  refine ⟨s.refresh.sendAll batch, ?_, ?_⟩
  · rw [h1, h2, sendAll_refresh, h3]
    rfl
  · have hcount := sendAll_count s.refresh batch
    exact congrArg TxCount.outstandingTx hcount

/-- **The batched and the per-packet bounce** have the same outcome unless the cached
consumer index is ahead of the shared one and shows fewer free slots than there are
packets. -/
theorem bounce_agree_iff (s : TxSide n) (batch : List XdpDesc)
    (hbatch : batch.length ≤ afxdpRxBatchSize) :
    (bounceBatch s batch).map TxSide.outcome = (bounceEach batch s).map TxSide.outcome ↔
      ¬ (s.tx.refresh.known < s.tx.known ∧ s.tx.known < batch.length) := by
  have hlen : batch.length < 2 ^ 31 := lt_of_le_of_lt hbatch (by decide)
  constructor
  · rintro hsame ⟨hahead, hk⟩
    obtain ⟨s', heach, hout⟩ := bounceEach_ahead hlen hk hahead
    have hroom : (txRoom s.tx batch.length).1 = s.tx.refresh.known := by
      rw [txRoom_eq, if_neg (by omega)]
      exact if_pos (by omega)
    rw [bounceBatch_outcome, heach, Option.map_some, hroom] at hsame
    have hbatchOut := finish_outstandingTx hsame
    have hcount := congrArg TxCount.outstandingTx
      (sendAll_count s (batch.take s.tx.refresh.known))
    have hsum : s.xsk.outstandingTx + BitVec.ofNat 32 batch.length =
        s.xsk.outstandingTx + BitVec.ofNat 32 (batch.take s.tx.refresh.known).length :=
      hout.symm.trans (hbatchOut.trans hcount)
    rw [length_take_of_le (by omega)] at hsum
    have hnat := congrArg BitVec.toNat (BitVec.add_right_inj _ |>.mp hsum)
    rw [BitVec.toNat_ofNat, BitVec.toNat_ofNat] at hnat
    omega
  · intro hnot
    rw [bounceBatch_outcome, bounceEach_outcome (by omega) (by omega)]

/-- A full TX ring with the cached consumer index one ahead. -/
def aheadSide : TxSide afxdpTxRingSize where
  tx := ⟨0, -8192, 0, 1, fun _ => ⟨0, 0⟩⟩
  xsk := ⟨fun _ => 0, 0, 0, ⟨0, 0, 0, 0⟩⟩

/-- The batch frees both packets, one by one both are sent. -/
theorem bounce_disagree :
    (bounceBatch aheadSide [⟨4096, 60⟩, ⟨8192, 60⟩]).map TxSide.outcome ≠
      (bounceEach [⟨4096, 60⟩, ⟨8192, 60⟩] aheadSide).map TxSide.outcome := by
  have hbatch : (bounceBatch aheadSide [⟨4096, 60⟩, ⟨8192, 60⟩]).map
      (fun s => s.outcome.count.outstandingTx) = some 0 := by decide +kernel
  have heach : (bounceEach [⟨4096, 60⟩, ⟨8192, 60⟩] aheadSide).map
      (fun s => s.outcome.count.outstandingTx) = some 2 := by decide +kernel
  intro h
  have hout := congrArg (Option.map fun o => o.count.outstandingTx) h
  rw [Option.map_map, Option.map_map] at hout
  exact absurd (hbatch.symm.trans (hout.trans heach)) (by decide)

/-- A TX ring that wraps, with no slot known to be free and two that are. -/
def wrapSide : TxSide afxdpTxRingSize where
  tx := ⟨0, -8190, 0, 0, fun _ => ⟨0, 0⟩⟩
  xsk := ⟨fun _ => 0, 0, 8190, ⟨0, 0, 0, 0⟩⟩

theorem bounce_agree_iff_wrap :
    (bounceBatch wrapSide [⟨4096, 60⟩, ⟨8192, 60⟩, ⟨12288, 60⟩]).map TxSide.outcome =
      (bounceEach [⟨4096, 60⟩, ⟨8192, 60⟩, ⟨12288, 60⟩] wrapSide).map TxSide.outcome :=
  (bounce_agree_iff wrapSide _ (by decide)).mpr (by decide +kernel)

/-! ## The receive thread -/

namespace Datapath

/-- The receive thread runs and the kernel does not. -/
def UserRun : Datapath → Datapath → Prop := Relation.ReflTransGen fun d d' => d.ustep = some d'

def NextRx (d : Datapath) (batch : List XdpDesc) : Prop :=
  ∀ i x, batch[i]? = some x → d.rx.get (d.loc.idxRx + BitVec.ofNat 32 i) = x

/-- What steps 4 and 5 work on. -/
def txSide (d : Datapath) : TxSide afxdpTxRingSize := ⟨d.tx, d.xsk⟩

theorem NextRx.head {d : Datapath} {x : XdpDesc} {batch : List XdpDesc}
    (h : d.NextRx (x :: batch)) : d.rx.get d.loc.idxRx = x := by
  have h0 := h 0 x rfl
  rwa [show BitVec.ofNat 32 0 = 0#32 from rfl, BitVec.add_zero] at h0

theorem NextRx.tail {d d' : Datapath} {x : XdpDesc} {batch : List XdpDesc}
    (h : d.NextRx (x :: batch)) (hrx : d'.rx = d.rx) (hidx : d'.loc.idxRx = d.loc.idxRx + 1) :
    d'.NextRx batch := by
  intro i y hi
  rw [hrx, hidx, Ring.add_succ]
  exact h (i + 1) y hi

theorem NextRx.take {d : Datapath} {batch : List XdpDesc} (h : d.NextRx batch) (k : Nat) :
    d.NextRx (batch.take k) := by
  intro i x hi
  rw [List.getElem?_take] at hi
  split at hi
  · exact h i x hi
  · cases hi

theorem NextRx.drop {d d' : Datapath} {batch : List XdpDesc} {k : Nat} (h : d.NextRx batch)
    (hrx : d'.rx = d.rx) (hidx : d'.loc.idxRx = d.loc.idxRx + BitVec.ofNat 32 k) :
    d'.NextRx (batch.drop k) := by
  intro i x hi
  rw [List.getElem?_drop] at hi
  rw [hrx, hidx, BitVec.add_assoc, ← BitVec.ofNat_add]
  exact h (k + i) x hi

theorem run_fillTx_pass {x : XdpDesc} {d : Datapath} (hpc : d.pc = .txReadAddr)
    (hx : d.rx.get d.loc.idxRx = x) :
    ∃ d', d.UserRun d' ∧ d'.txSide = ⟨writeDesc d.tx d.loc.idxTx x, countInBatch d.xsk x⟩ ∧
      d'.rx = d.rx ∧
      d'.loc = { d.loc with
        addr := x.addr
        len := x.len
        idxRx := d.loc.idxRx + 1
        idxTx := d.loc.idxTx + 1
        i := d.loc.i + 1 } ∧
      d'.pc = if d.loc.i + 1 < d.loc.toTx then .txReadAddr else .txSubmit := by
  have hread : d.ustep = some { d with
      loc := { d.loc with addr := (d.rx.get d.loc.idxRx).addr }
      pc := .txReadLen } := by
    rw [ustep, hpc]
  refine ⟨_, .head hread (.head rfl (.head rfl (.single rfl))), ?_, rfl, ?_, rfl⟩
  · rw [hx]
    rfl
  · rw [hx]

theorem run_fillTx {x : XdpDesc} {l : List XdpDesc} {d : Datapath} (hpc : d.pc = .txReadAddr)
    (hrx : d.NextRx (x :: l)) (hi : d.loc.i + (l.length + 1) = d.loc.toTx) :
    ∃ d', d.UserRun d' ∧ d'.pc = .txSubmit ∧
      d'.txSide = fillTx (x :: l) d.loc.idxTx d.txSide ∧ d'.rx = d.rx ∧
      d'.loc.idxRx = d.loc.idxRx + BitVec.ofNat 32 (l.length + 1) ∧
      d'.loc.rcvd = d.loc.rcvd ∧ d'.loc.toTx = d.loc.toTx := by
  induction l generalizing x d with
  | nil =>
    obtain ⟨d1, hrun, hside, hrx1, hloc, hpc1⟩ := run_fillTx_pass hpc hrx.head
    refine ⟨d1, hrun, ?_, hside, hrx1, ?_, ?_, ?_⟩
    · rw [hpc1, if_neg (by simp at hi; omega)]
    · rw [hloc]
      rfl
    · rw [hloc]
    · rw [hloc]
  | cons y l ih =>
    obtain ⟨d1, hrun, hside, hrx1, hloc, hpc1⟩ := run_fillTx_pass hpc hrx.head
    rw [List.length_cons] at hi
    obtain ⟨d2, hrun2, hpc2, hside2, hrx2, hidx2, hrcvd2, hto2⟩ := ih (x := y) (d := d1)
      (by rw [hpc1, if_pos (by omega)]) (hrx.tail hrx1 (by rw [hloc])) (by
        rw [hloc]
        show d.loc.i + 1 + (l.length + 1) = d.loc.toTx
        omega)
    refine ⟨d2, hrun.trans hrun2, hpc2, ?_, hrx2.trans hrx1, ?_, ?_, ?_⟩
    · rw [hside2, hside, hloc]
      rfl
    · rw [hidx2, hloc, List.length_cons]
      exact Ring.add_succ _ _
    · rw [hrcvd2, hloc]
    · rw [hto2, hloc]

/-- What a run from `d` comes to: an abort, or `pc` with these values. -/
def RunsTo {α : Type} (d : Datapath) (pc : Pc) (val : Datapath → α) : Option α → Prop
  | none => ∃ d', d.UserRun d' ∧ d'.pc = .abort
  | some a => ∃ d', d.UserRun d' ∧ d'.pc = pc ∧ val d' = a

theorem RunsTo.of_run {α : Type} {d d' : Datapath} {pc : Pc} {val : Datapath → α} {o : Option α}
    (hrun : d.UserRun d') (h : d'.RunsTo pc val o) : d.RunsTo pc val o := by
  cases o with
  | none =>
    obtain ⟨d2, hrun2, hpc⟩ := h
    exact ⟨d2, hrun.trans hrun2, hpc⟩
  | some a =>
    obtain ⟨d2, hrun2, hpc, hval⟩ := h
    exact ⟨d2, hrun.trans hrun2, hpc, hval⟩

/-- One pass of the loop that frees frames. -/
def dropped (d : Datapath) (xsk : AfxdpSocketInfo) : Datapath :=
  { d with
    xsk := { xsk with stats := { xsk.stats with
      rxBytes := xsk.stats.rxBytes + BitVec.ofNat 64 (d.rx.get d.loc.idxRx).len } }
    loc := { d.loc with
      addr := (d.rx.get d.loc.idxRx).addr
      len := (d.rx.get d.loc.idxRx).len
      idxRx := d.loc.idxRx + 1
      i := d.loc.i + 1 }
    cur := { d.cur with freed := d.cur.freed ++ [(d.rx.get d.loc.idxRx).addr] } }.dropOrRelease

theorem run_dropped {d : Datapath} (hpc : d.pc = .dropReadAddr) :
    match afxdpFreeUmemFrame d.xsk (d.rx.get d.loc.idxRx).addr with
    | none => ∃ d', d.UserRun d' ∧ d'.pc = .abort
    | some xsk => d.UserRun (d.dropped xsk) := by
  have hread : d.ustep = some { d with
      loc := { d.loc with addr := (d.rx.get d.loc.idxRx).addr }
      pc := .dropReadLen } := by
    rw [ustep, hpc]
  cases hfree : afxdpFreeUmemFrame d.xsk (d.rx.get d.loc.idxRx).addr with
  | none =>
    have habort : ({ d with
        loc := { d.loc with addr := (d.rx.get d.loc.idxRx).addr }
        pc := .dropReadLen } : Datapath).ustep = some { d with
          loc := { d.loc with addr := (d.rx.get d.loc.idxRx).addr }
          pc := .abort } := by
      simp only [ustep, hfree]
    exact ⟨_, .head hread (.single habort), rfl⟩
  | some xsk => exact .head hread (.single (by simp only [ustep, hfree]; rfl))

/-- The loop that frees frames, and the end of the call. -/
theorem run_freeRest {batch : List XdpDesc} {d : Datapath}
    (hpc : d.pc = if d.loc.i < d.loc.rcvd then .dropReadAddr else .releaseRx)
    (hrx : d.NextRx batch) (hi : d.loc.i + batch.length = d.loc.rcvd) :
    d.RunsTo .idle txSide ((freeRest batch d.xsk).bind fun xsk => some { d.txSide with
      xsk := { xsk with stats := { xsk.stats with
        rxPackets := xsk.stats.rxPackets + BitVec.ofNat 64 d.loc.rcvd } } }) := by
  induction batch generalizing d with
  | nil =>
    rw [if_neg (by simpa using hi.ge)] at hpc
    have hstep : d.ustep = some { d with
        rx := d.rx.release d.loc.rcvd
        xsk := { d.xsk with stats := { d.xsk.stats with
          rxPackets := d.xsk.stats.rxPackets + BitVec.ofNat 64 d.loc.rcvd } }
        cur := { d.cur with batch := d.rx.seg d.rx.consumer d.loc.rcvd } }.ret := by
      rw [ustep, hpc]
    exact ⟨_, .single hstep, rfl, rfl⟩
  | cons x batch ih =>
    rw [List.length_cons] at hi
    rw [if_pos (by omega)] at hpc
    have hpass := run_dropped hpc
    rw [hrx.head] at hpass
    rw [freeRest]
    cases hfree : afxdpFreeUmemFrame d.xsk x.addr with
    | none =>
      rw [hfree] at hpass
      exact hpass
    | some xsk =>
      rw [hfree] at hpass
      have hrest := ih (d := d.dropped xsk) rfl (hrx.tail rfl rfl) (by
        show d.loc.i + 1 + batch.length = d.loc.rcvd
        omega)
      have hxsk : (d.dropped xsk).xsk = { xsk with stats := { xsk.stats with
          rxBytes := xsk.stats.rxBytes + BitVec.ofNat 64 x.len } } := by
        rw [← hrx.head]
        rfl
      rw [hxsk] at hrest
      exact hrest.of_run hpass

/-- The loop that sends, with its reservation and its submission. -/
theorem run_sendBatch {l : List XdpDesc} {d : Datapath} (hpc : d.pc = .txReserve)
    (hne : 0 < l.length) (hknown : l.length ≤ d.tx.known) (hrx : d.NextRx l)
    (hto : d.loc.toTx = l.length) :
    ∃ d', d.UserRun d' ∧
      d'.pc = (if d'.loc.i < d'.loc.rcvd then .dropReadAddr else .releaseRx) ∧
      d'.txSide = sendBatch d.txSide l ∧ d'.rx = d.rx ∧
      d'.loc.idxRx = d.loc.idxRx + BitVec.ofNat 32 l.length ∧
      d'.loc.rcvd = d.loc.rcvd ∧ d'.loc.i = l.length := by
  obtain ⟨x, rest, rfl⟩ := List.exists_cons_of_length_pos hne
  have hreserve : d.ustep = some { d with
      tx := (d.tx.reserve d.loc.toTx d.loc.idxTx).2.2
      loc := { d.loc with idxTx := (d.tx.reserve d.loc.toTx d.loc.idxTx).2.1, i := 0 }
      pc := .txReadAddr } := by
    rw [ustep, hpc]
  rw [hto, Ring.reserve_known hknown] at hreserve
  obtain ⟨d1, hrun, hpc1, hside, hrx1, hidx, hrcvd, hto1⟩ :=
    run_fillTx (x := x) (l := rest) (d := { d with
      tx := { d.tx with cachedProd := d.tx.cachedProd + BitVec.ofNat 32 (x :: rest).length }
      loc := { d.loc with idxTx := d.tx.cachedProd, i := 0 }
      pc := .txReadAddr }) rfl hrx (by
        show 0 + (rest.length + 1) = d.loc.toTx
        rw [hto, Nat.zero_add, List.length_cons])
  have hsubmit : d1.ustep = some { d1 with
      tx := d1.tx.submit d1.loc.toTx
      xsk := { d1.xsk with outstandingTx := d1.xsk.outstandingTx + BitVec.ofNat 32 d1.loc.toTx }
      loc := { d1.loc with i := d1.loc.toTx }
      cur := { d1.cur with submitted := d1.tx.seg d1.tx.producer d1.loc.toTx } }.dropOrRelease := by
    rw [ustep, hpc1]
  have hto2 : d1.loc.toTx = (x :: rest).length := hto1.trans hto
  rw [hto2] at hsubmit
  have hrun1 : d.UserRun d1 := .head hreserve hrun
  refine ⟨_, .tail hrun1 hsubmit, rfl, ?_, hrx1, hidx, hrcvd, rfl⟩
  have hreserved : d.txSide.tx.reserve (x :: rest).length 0 =
      ((x :: rest).length, d.tx.cachedProd,
        { d.tx with cachedProd := d.tx.cachedProd + BitVec.ofNat 32 (x :: rest).length }) :=
    Ring.reserve_known hknown 0
  rw [sendBatch, if_pos hne, hreserved]
  dsimp only
  exact congrArg (fun s : TxSide afxdpTxRingSize => (⟨s.tx.submit (x :: rest).length,
    { s.xsk with
      outstandingTx := s.xsk.outstandingTx + BitVec.ofNat 32 (x :: rest).length }⟩ :
        TxSide afxdpTxRingSize)) hside

/-- Step 4 up to the packets that found no slot. -/
theorem run_step4 {batch : List XdpDesc} {d : Datapath} (hpc : d.pc = .txNbFree)
    (hrx : d.NextRx batch) (hrcvd : d.loc.rcvd = batch.length) :
    ∃ d', d.UserRun d' ∧
      d'.pc = (if d'.loc.i < d'.loc.rcvd then .dropReadAddr else .releaseRx) ∧
      d'.txSide = sendBatch ⟨(txRoom d.tx batch.length).2, d.xsk⟩
        (batch.take (txRoom d.tx batch.length).1) ∧
      d'.rx = d.rx ∧
      d'.loc.idxRx = d.loc.idxRx + BitVec.ofNat 32 (txRoom d.tx batch.length).1 ∧
      d'.loc.rcvd = batch.length ∧ d'.loc.i = (txRoom d.tx batch.length).1 := by
  obtain ⟨hknown, hle⟩ := txRoom_known d.tx batch.length
  have htake := length_take_of_le hle
  have hstep : d.ustep = some
      (if 0 < (txRoom d.tx d.loc.rcvd).1 then { d with
          tx := (txRoom d.tx d.loc.rcvd).2
          loc := { d.loc with toTx := (txRoom d.tx d.loc.rcvd).1, i := 0 }
          cur := { d.cur with txFree := afxdpTxRingSize - d.tx.entries.length }
          pc := .txReserve }
        else { d with
          tx := (txRoom d.tx d.loc.rcvd).2
          loc := { d.loc with toTx := (txRoom d.tx d.loc.rcvd).1, i := 0 }
          cur := { d.cur with
            txFree := afxdpTxRingSize - d.tx.entries.length } }.dropOrRelease) := by
    rw [ustep, hpc]
    rfl
  rw [hrcvd] at hstep
  by_cases hroom : 0 < (txRoom d.tx batch.length).1
  · rw [if_pos hroom] at hstep
    obtain ⟨d1, hrun, hpc1, hside, hrx1, hidx, hrcvd1, hi⟩ :=
      run_sendBatch (l := batch.take (txRoom d.tx batch.length).1) (d := { d with
        tx := (txRoom d.tx batch.length).2
        loc := { d.loc with toTx := (txRoom d.tx batch.length).1, i := 0 }
        cur := { d.cur with txFree := afxdpTxRingSize - d.tx.entries.length }
        pc := .txReserve }) rfl (hroom.trans_eq htake.symm) (htake.trans_le hknown) (hrx.take _)
        htake.symm
    rw [htake] at hidx hi
    exact ⟨d1, .head hstep hrun, hpc1, hside, hrx1, hidx, hrcvd1.trans hrcvd, hi⟩
  · have hzero : (txRoom d.tx batch.length).1 = 0 := by omega
    rw [if_neg hroom] at hstep
    refine ⟨_, .single hstep, rfl, ?_, rfl, ?_, hrcvd, hzero.symm⟩
    · rw [hzero]
      rfl
    · rw [hzero]
      exact (BitVec.add_zero _).symm

/-- **`bounceBatch` is what the receive thread does** from step 4 to the end of the call. -/
theorem run_bounceBatch {batch : List XdpDesc} {d : Datapath} (hpc : d.pc = .txNbFree)
    (hrx : d.NextRx batch) (hrcvd : d.loc.rcvd = batch.length) :
    d.RunsTo .idle txSide (bounceBatch d.txSide batch) := by
  obtain ⟨d1, hrun, hpc1, hside, hrx1, hidx, hrcvd1, hi⟩ := run_step4 hpc hrx hrcvd
  have hle := (txRoom_known d.tx batch.length).2
  have hrest := run_freeRest hpc1 (hrx.drop hrx1 hidx) (by
    rw [hi, hrcvd1, List.length_drop]
    omega)
  rw [hrcvd1, show d1.xsk = d1.txSide.xsk from rfl, hside] at hrest
  exact hrest.of_run hrun

end Datapath

end Onvm.Afxdp

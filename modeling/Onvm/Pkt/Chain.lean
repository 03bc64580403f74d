import Onvm.Mgr.Rings
import Onvm.Pkt.Buffers
import Onvm.Pkt.MainLoop

/-!
# Service chains

A packet on its way through a service chain, while the RX threads, the TX threads
and the NFs run in any order. The chain index is in the packet:
`onvm_pkt_process_rx_batch` increments it before it hands the packet over,
`onvm_pkt_process_next_action` afterwards. By then the packet may be on the ring of
the next NF, if it filled the local buffer, or freed, if the chain ended.
`chain_followed` says that this is all that goes wrong.
-/

namespace Onvm.Pkt

open Onvm.Lib Onvm.Nflib Onvm.Mgr

variable {ι : Type}

/-! ## The threads -/

namespace Plane

/-- What `rte_eth_rx_burst` takes of these packets: a packet arrives once. -/
def arrivals (s : Plane ι) (pkts : List Nat) : List Nat :=
  (pkts.dedup.filter fun pkt =>
    !s.seen pkt && (s.owner pkt).isNone && (s.decisions pkt).isEmpty).take packetReadSize

/-- `rte_eth_rx_burst` by worker `w` -/
def receive (s : Plane ι) (w : ι) (pkts : List Nat) : Plane ι :=
  { s with
    seen := fun pkt => if pkt ∈ s.arrivals pkts then true else s.seen pkt
    owner := fun pkt => if pkt ∈ s.arrivals pkts then some w else s.owner pkt }

end Plane

section Threads

variable [DecidableEq ι]

/-- One port in the loop of `rx_thread_main`. -/
def rxRound (w : ι) (pkts : List Nat) : PktProg ι Unit := do
  let pkts ← .access .tau (·.arrivals pkts) (·.receive w pkts)
  if pkts = [] then pure ()
  else
    let numNfs ← .read .tau fun s => s.tables.numNfs
    if numNfs = 0 then dropAll pkts else onvmPktProcessRxBatch w pkts

def txNf (w : ι) (nf : Nat) : PktProg ι Unit := do
  let valid ← .read .tau fun s => onvmNfIsValid (s.tables.nfs nf)
  if valid = false then pure ()
  else
    let pkts ← rteRingDequeueBurst w fun s => (s.tables.nfs nf).txQ
    onvmPktProcessTxBatch w nf pkts

/-- One round of `tx_thread_main`, for the NFs from `first_nf` to `last_nf - 1`. -/
def txRound (w : ι) (nfs : List Nat) : PktProg ι Unit := do
  .each (txNf w) nfs
  onvmPktFlushAllPorts w
  onvmPktFlushAllNfs w none

/-- A handler that sets `ONVM_NF_ACTION_NEXT` for packet `m`. -/
structure NextHandler (m : Nat) extends PktHandler where
  next : ∀ x, (act m x).action = actionNext ∧ (act m x).chainIndex = x.chainIndex

inductive Round (m : Nat) where
  | rx (pkts : List Nat)
  | nf (nfId : Nat) (handler : NextHandler m)
  | tx (nfs : List Nat)

def Round.body {m : Nat} (w : ι) : Round m → PktProg ι Unit
  | .rx pkts => rxRound w pkts
  | .nf nfId handler => mainLoopRound w nfId handler.toPktHandler
  | .tx nfs => txRound w nfs

end Threads

/-! ## The route -/

/-- The entries of the chain in turn, and then DROP. -/
def ServiceChain.route (chain : ServiceChain) : List ChainEntry :=
  (List.range chain.chainLength).map (fun k => chain.sc (k + 1)) ++ [⟨actionDrop, 0⟩]

namespace ServiceChain

variable {chain : ServiceChain} {k : Nat}

theorem length_route (chain : ServiceChain) : chain.route.length = chain.chainLength + 1 := by
  simp [route]

theorem next_of_lt (h : k < chain.chainLength) : chain.next k = chain.sc (k + 1) := by
  simp [next, onvmNextAction, onvmNextDestination, Nat.not_le.mpr h]

theorem next_of_le (h : chain.chainLength ≤ k) : chain.next k = ⟨actionDrop, 0⟩ := by
  simp [next, onvmNextAction, onvmNextDestination, h]

theorem getElem?_route (h : k ≤ chain.chainLength) : chain.route[k]? = some (chain.next k) := by
  rcases Nat.lt_or_eq_of_le h with hlt | rfl
  · unfold route
    rw [next_of_lt hlt, List.getElem?_append_left (by simpa using hlt)]
    simp [hlt]
  · rw [next_of_le (Nat.le_refl _)]
    simp [route]

theorem take_route_succ (h : k ≤ chain.chainLength) :
    chain.route.take k ++ [chain.next k] = chain.route.take (k + 1) := by
  rw [List.take_add_one, getElem?_route h]
  rfl

theorem take_route_ne (h : k ≤ chain.chainLength) : chain.route.take k ≠ chain.route := by
  intro he
  have hlen := congrArg List.length he
  rw [List.length_take, length_route] at hlen
  omega

end ServiceChain

/-- The packet has been through as many decisions as its index says, and there are
more to come. -/
structure OnTrack (chain : ServiceChain) (x : OnvmPktMeta) (decisions : List ChainEntry) : Prop where
  pos : 1 ≤ x.chainIndex
  le : x.chainIndex ≤ chain.chainLength
  taken : decisions = chain.route.take x.chainIndex

/-- Each entry of the chain of packet `m` is for a service with an NF that runs, and
the rings are of the right kinds. A packet with an empty chain goes to service 0. -/
structure Plane.Traversable (s : Plane ι) (m : Nat) : Prop where
  short : (s.chainOf m).chainLength < 2 ^ 8
  entry : ∀ k, 1 ≤ k → k ≤ (s.chainOf m).chainLength →
    ((s.chainOf m).sc k).action = actionTonf ∧ ¬ s.Unserved ((s.chainOf m).sc k).destination m
  empty : (s.chainOf m).chainLength = 0 → s.instanceFor 0 m = 0
  wired : AllWired s.tables

/-! ## The contract -/

/-- The packet is on no ring, or on one `rx_q`, and on its track. -/
def Plane.RingRight (s : Plane ι) (m : Nat) (chain : ServiceChain) : Prop :=
  (∀ name, (s.held (.ring name)).count m = 0) ∨
    ∃ name, name.kind = .rx ∧ (s.held (.ring name)).count m = 1 ∧
      (∀ name' ≠ name, (s.held (.ring name')).count m = 0) ∧ s.owner m = none ∧
      OnTrack chain (s.pktMeta m) (s.decisions m)

/-- What worker `w` knows of packet `m`: that it has it, with this metadata and these
decisions, or nothing. -/
abbrev Known := Option (OnvmPktMeta × List ChainEntry)

def Plane.Knows (s : Plane ι) (w : ι) (m : Nat) (k : Known) : Prop :=
  ∀ x ∈ k, s.owner m = some w ∧ s.pktMeta m = x.1 ∧ s.decisions m = x.2

def QueueMgr.copies (q : QueueMgr) (m : Nat) (b : Buf) : Nat := ((q.buf b).getD []).count m

def Plane.Hand (s : Plane ι) (w : ι) (m : Nat) (k : Known) : Prop :=
  (∀ b, (s.mgrs w).copies m b = 0) ∧ s.Knows w m k

def Plane.Waits (s : Plane ι) (w : ι) (m i : Nat) (k : Known) : Prop :=
  (s.mgrs w).copies m (.nfRx i) = 1 ∧ (∀ b ≠ .nfRx i, (s.mgrs w).copies m b = 0) ∧ s.Knows w m k

/-- Where the packet is between the steps for other packets. If the worker knows
nothing of it, it may wait in a buffer. -/
def Plane.Spot (s : Plane ι) (w : ι) (m : Nat) (chain : ServiceChain) (k : Known) : Prop :=
  s.Hand w m k ∨ k = none ∧ ∃ i x, s.Waits w m i (some x) ∧ OnTrack chain x.1 x.2

/-- What a thread relies on: its manager and the metadata of the packet, while it has
it, are its own; a packet that was freed at the end of its route does not come back. -/
def ChainRely (m : Nat) (chain : ServiceChain) (w : ι) (s s' : Plane ι) : Prop :=
  s'.mgrs w = s.mgrs w ∧
    (s.owner m = some w →
      s'.owner m = some w ∧ s'.pktMeta m = s.pktMeta m ∧ s'.decisions m = s.decisions m) ∧
    (s.owner m = none → s.decisions m = chain.route →
      s'.owner m = none ∧ s'.decisions m = chain.route)

/-- A buffer that `onvm_pkt_process_next_action` puts the packet in does not get full;
the packet is there before its index is incremented. -/
def StaysInBuffer (m : Nat) (w : ι) (a : Access) (s : Plane ι) : Prop :=
  match a with
  | .append b pkt => pkt = m → (s.pktMeta m).chainIndex < (s.decisions m).length →
      s.count w b + 1 < packetReadSize
  | .tau | .check _ | .touch _ | .lookup _ => True

/-- The packet has not been through its whole chain when an NF looks for the next
entry. -/
def ChainGoesOn (m : Nat) (_ : ι) (a : Access) (s : Plane ι) : Prop :=
  match a with
  | .lookup pkt => pkt = m → (s.pktMeta m).chainIndex ≠ 0 →
      (s.pktMeta m).chainIndex < (s.chainOf m).chainLength
  | .tau | .check _ | .touch _ | .append .. => True

/-- The metadata of the packet is touched by the worker that has it. -/
def TouchesOwn (m : Nat) (w : ι) (a : Access) (s : Plane ι) : Prop :=
  match a with
  | .touch pkt => pkt = m → s.owner m = some w
  | .tau | .check _ | .lookup _ | .append .. => True

instance (m : Nat) (w : ι) (a : Access) (s : Plane ι) [DecidableEq ι] :
    Decidable (TouchesOwn m w a s) :=
  match a with
  | .touch _ => inferInstanceAs (Decidable (_ → _))
  | .tau | .check _ | .lookup _ | .append .. => isTrue trivial

instance (m : Nat) (w : ι) (a : Access) (s : Plane ι) : Decidable (ChainGoesOn m w a s) :=
  match a with
  | .lookup _ => inferInstanceAs (Decidable (_ → _ → _))
  | .tau | .check _ | .touch _ | .append .. => isTrue trivial

instance (m : Nat) (w : ι) (a : Access) (s : Plane ι) : Decidable (StaysInBuffer m w a s) :=
  match a with
  | .append .. => inferInstanceAs (Decidable (_ → _ → _))
  | .tau | .check _ | .touch _ | .lookup _ => isTrue trivial

section Rely

variable {m : Nat} {chain : ServiceChain} {w : ι} {k : Known} {s s' s'' : Plane ι}

theorem ChainRely.refl (m : Nat) (chain : ServiceChain) (w : ι) (s : Plane ι) :
    ChainRely m chain w s s :=
  ⟨rfl, fun h => ⟨h, rfl, rfl⟩, fun h hd => ⟨h, hd⟩⟩

theorem ChainRely.trans (h : ChainRely m chain w s s') (h' : ChainRely m chain w s' s'') :
    ChainRely m chain w s s'' := by
  refine ⟨h'.1.trans h.1, fun ho => ?_, fun ho hd => ?_⟩
  · obtain ⟨ho₁, hm₁, hd₁⟩ := h.2.1 ho
    obtain ⟨ho₂, hm₂, hd₂⟩ := h'.2.1 ho₁
    exact ⟨ho₂, hm₂.trans hm₁, hd₂.trans hd₁⟩
  · obtain ⟨ho₁, hd₁⟩ := h.2.2 ho hd
    exact h'.2.2 ho₁ hd₁

theorem ChainRely.knows (h : ChainRely m chain w s s') (hk : s.Knows w m k) : s'.Knows w m k := by
  intro x hx
  obtain ⟨ho, hm, hd⟩ := hk x hx
  obtain ⟨ho', hm', hd'⟩ := h.2.1 ho
  exact ⟨ho', hm'.trans hm, hd'.trans hd⟩

theorem ChainRely.hand (h : ChainRely m chain w s s') (hs : s.Hand w m k) : s'.Hand w m k :=
  ⟨h.1.symm ▸ hs.1, h.knows hs.2⟩

theorem ChainRely.waits {i : Nat} (h : ChainRely m chain w s s') (hs : s.Waits w m i k) :
    s'.Waits w m i k :=
  ⟨h.1.symm ▸ hs.1, h.1.symm ▸ hs.2.1, h.knows hs.2.2⟩

theorem ChainRely.spot (h : ChainRely m chain w s s') (hs : s.Spot w m chain k) :
    s'.Spot w m chain k := by
  rcases hs with hs | ⟨rfl, i, x, hs, ht⟩
  · exact .inl (h.hand hs)
  · exact .inr ⟨rfl, i, x, h.waits hs, ht⟩

end Rely

def chainContract (s₀ : Plane ι) (m : Nat) (strict : Prop) : Contract ι Access (Plane ι) where
  Inv s := s.world = s₀.world ∧ s.decisions m <+: (s₀.chainOf m).route ∧
    s.RingRight m (s₀.chainOf m)
  Rely := ChainRely m (s₀.chainOf m)
  Cond w a s := StaysInBuffer m w a s ∧ (strict → ChainGoesOn m w a s)
  Goal w a s := strict → TouchesOwn m w a s
  Rest w s := s.Spot w m (s₀.chainOf m) none
  refl := ChainRely.refl m _
  trans := ChainRely.trans
  stable := ChainRely.spot

variable {m : Nat} {s₀ s s' : Plane ι} {strict : Prop} {w : ι} {k : Known}

/-! ## Steps for other packets -/

/-- Nothing about packet `m` differs but perhaps the local buffers. -/
structure SameApart (m : Nat) (s s' : Plane ι) : Prop where
  world : s'.world = s.world
  owner : s'.owner m = s.owner m
  pktMeta : s'.pktMeta m = s.pktMeta m
  decisions : s'.decisions m = s.decisions m
  rings : ∀ name, (s'.held (.ring name)).count m = (s.held (.ring name)).count m

namespace SameApart

theorem rely (h : SameApart m s s') (chain : ServiceChain) (hv : s'.mgrs w = s.mgrs w) :
    ChainRely m chain w s s' := by
  refine ⟨hv, fun ho => ⟨?_, h.pktMeta, h.decisions⟩, fun ho hd => ⟨?_, ?_⟩⟩
  · rw [h.owner, ho]
  · rw [h.owner, ho]
  · rw [h.decisions, hd]

theorem inv (h : SameApart m s s') (hi : (chainContract s₀ m strict).Inv s) :
    (chainContract s₀ m strict).Inv s' := by
  obtain ⟨hw, hd, hr⟩ := hi
  refine ⟨h.world.trans hw, h.decisions.symm ▸ hd, ?_⟩
  unfold Plane.RingRight at hr ⊢
  simpa only [h.rings, h.owner, h.pktMeta, h.decisions] using hr

theorem knows (h : SameApart m s s') (hk : s.Knows w m k) : s'.Knows w m k := by
  intro x hx
  rw [h.owner, h.pktMeta, h.decisions]
  exact hk x hx

end SameApart

/-- Nothing about packet `m` differs, and no local buffer does. -/
structure SameFor (m : Nat) (s s' : Plane ι) : Prop extends SameApart m s s' where
  mgrs : s'.mgrs = s.mgrs

def QuietFor (m : Nat) (a : Access) (upd : Plane ι → Plane ι) : Prop :=
  a ≠ .touch m ∧ ∀ s, SameFor m s (upd s)

theorem touchesOwn_of_ne {a : Access} (h : a ≠ .touch m) (w : ι) (s : Plane ι) :
    TouchesOwn m w a s := by
  cases a with
  | touch pkt =>
    rintro rfl
    exact absurd rfl h
  | tau | check | lookup | append => trivial

theorem harmless_of_quiet {a : Access} {upd : Plane ι → Plane ι} (h : QuietFor m a upd) :
    (chainContract s₀ m strict).Harmless w a upd := by
  intro s hi _
  exact ⟨fun _ => touchesOwn_of_ne h.1 w s, (h.2 s).inv hi,
    fun v => (h.2 s).rely _ (congrFun (h.2 s).mgrs v)⟩

section Rules

variable {α β : Type} {Q : α → Plane ι → Prop}

theorem holds_bind_quiet {p : PktProg ι β} {next : β → PktProg ι α} (hp : p.Steps (QuietFor m))
    (h : ∀ c s', ChainRely m (s₀.chainOf m) w s s' →
      (chainContract s₀ m strict).Holds w Q (next c) s') :
    (chainContract s₀ m strict).Holds w Q (p.bind next) s := by
  have hharmless : p.Steps ((chainContract s₀ m strict).Harmless w) :=
    hp.mono fun _ _ h => harmless_of_quiet h
  apply Contract.Holds.bind
  exact (Contract.holds_of_harmless hharmless s).mono fun c s' hr => h c s' hr

theorem holds_quiet {p : PktProg ι α} (hp : p.Steps (QuietFor m))
    (h : ∀ c s', ChainRely m (s₀.chainOf m) w s s' → Q c s') :
    (chainContract s₀ m strict).Holds w Q p s := by
  have hharmless : p.Steps ((chainContract s₀ m strict).Harmless w) :=
    hp.mono fun _ _ h => harmless_of_quiet h
  exact (Contract.holds_of_harmless hharmless s).mono fun c s' hr => h c s' hr

end Rules

namespace SameFor

variable {pkt : Nat} {pkts : List Nat}

theorem tally (s : Plane ι) (nf : Nat) (f : NfStats → NfStats) : SameFor m s (s.tally nf f) :=
  ⟨⟨rfl, rfl, rfl, rfl, fun _ => rfl⟩, rfl⟩

theorem tallyPort (s : Plane ι) (port : Nat) (f : TxStats → TxStats) :
    SameFor m s (s.tallyPort port f) :=
  ⟨⟨rfl, rfl, rfl, rfl, fun _ => rfl⟩, rfl⟩

theorem fault (s : Plane ι) (f : Fault) : SameFor m s (s.fault f) :=
  ⟨⟨rfl, rfl, rfl, rfl, fun _ => rfl⟩, rfl⟩

theorem free (h : pkt ≠ m) (s : Plane ι) : SameFor m s (s.free pkt) :=
  ⟨⟨rfl, by simp [Plane.free, Plane.disown, Ne.symm h], rfl, rfl, fun _ => rfl⟩, rfl⟩

theorem setMeta (h : pkt ≠ m) (s : Plane ι) (f : OnvmPktMeta → OnvmPktMeta) :
    SameFor m s (s.setMeta pkt f) :=
  ⟨⟨rfl, rfl, by simp [Plane.setMeta, Ne.symm h], rfl, fun _ => rfl⟩, rfl⟩

theorem enqueueBulk (h : m ∉ pkts) (s : Plane ι) (q : Option RingName) :
    SameFor m s (s.enqueueBulk q pkts) := by
  unfold Plane.enqueueBulk
  split
  · refine ⟨⟨rfl, by simp [Plane.disown, h], rfl, rfl, fun name => ?_⟩, rfl⟩
    unfold Plane.held
    dsimp only
    split
    · cases s.tables.rings name with
      | none => rfl
      | some queued => simp [List.count_eq_zero_of_not_mem h]
    · rfl
  · exact ⟨⟨rfl, rfl, rfl, rfl, fun _ => rfl⟩, rfl⟩

theorem txBurst (h : m ∉ pkts) (s : Plane ι) (port : Nat) : SameFor m s (s.txBurst port pkts) := by
  have hsent : m ∉ pkts.take (s.sends pkts) := fun hm => h (List.mem_of_mem_take hm)
  exact ⟨⟨rfl, by simp [Plane.txBurst, Plane.disown, hsent], rfl, rfl, fun _ => rfl⟩, rfl⟩

theorem receive (s : Plane ι) (w : ι) (h : m ∉ s.arrivals pkts) : SameFor m s (s.receive w pkts) :=
  ⟨⟨rfl, if_neg h, rfl, rfl, fun _ => rfl⟩, rfl⟩

theorem dequeueBurst (s : Plane ι) (w : ι) {q : Option RingName} (h : m ∉ s.burst q) :
    SameFor m s (s.dequeueBurst w q) := by
  refine ⟨⟨rfl, if_neg h, rfl, rfl, fun name => ?_⟩, rfl⟩
  unfold Plane.held Plane.dequeueBurst
  dsimp only
  split
  · rename_i hq
    subst hq
    cases hring : s.tables.rings name with
    | none => simp
    | some queued =>
      have hburst : s.burst (some name) = queued.take packetReadSize := by
        simp [Plane.burst, hring]
      rw [hburst] at h
      have hcount := List.count_eq_zero_of_not_mem h
      show (queued.drop packetReadSize).count m = queued.count m
      conv_rhs => rw [← List.take_append_drop packetReadSize queued, List.count_append, hcount]
      omega
  · rfl

end SameFor

section Quiet

variable {pkt : Nat} {pkts : List Nat}

theorem quietFor_read {α : Type} {a : Access} (get : Plane ι → α) (ha : a ≠ .touch m) :
    (Prog.read a get : PktProg ι α).Steps (QuietFor m) :=
  Prog.steps_access ⟨ha, fun _ => ⟨⟨rfl, rfl, rfl, rfl, fun _ => rfl⟩, rfl⟩⟩ get

theorem quietFor_tally (nf : Nat) (f : NfStats → NfStats) :
    (tally nf f : PktProg ι Unit).Steps (QuietFor m) :=
  Prog.steps_access ⟨nofun, fun s => .tally s nf f⟩ _

theorem quietFor_tallySource (sourceNf : Option Nat) (f : NfStats → NfStats) :
    (tallySource sourceNf f : PktProg ι Unit).Steps (QuietFor m) := by
  cases sourceNf with
  | none => trivial
  | some nf => exact quietFor_tally nf f

theorem quietFor_drop (h : pkt ≠ m) : (onvmPktDrop pkt : PktProg ι Nat).Steps (QuietFor m) :=
  Prog.steps_access ⟨nofun, fun s => .free h s⟩ _

theorem quietFor_dropAll (h : m ∉ pkts) : (dropAll pkts : PktProg ι Unit).Steps (QuietFor m) := by
  induction pkts with
  | nil => trivial
  | cons pkt pkts ih =>
    obtain ⟨hne, hpkts⟩ := List.ne_and_not_mem_of_not_mem_cons h
    exact ((quietFor_drop hne.symm).bind fun _ => Prog.steps_ret ()).bind fun _ => ih hpkts

theorem quietFor_refuse (h : pkt ≠ m) (sourceNf : Option Nat) :
    (refuse pkt sourceNf : PktProg ι Unit).Steps (QuietFor m) :=
  (quietFor_drop h).bind fun _ => quietFor_tallySource _ _

theorem quietFor_enqueueBulk (q : Plane ι → Option RingName) (h : m ∉ pkts) :
    (rteRingEnqueueBulk q pkts).Steps (QuietFor m) :=
  Prog.steps_access ⟨nofun, fun s => .enqueueBulk h s (q s)⟩ _

theorem quietFor_settleNf (nfId : Nat) (sourceNf : Option Nat) (h : m ∉ pkts) (enqueued : Nat) :
    (settleNf nfId sourceNf pkts enqueued : PktProg ι Unit).Steps (QuietFor m) := by
  unfold settleNf
  split
  · exact (quietFor_dropAll h).bind fun _ => (quietFor_tally _ _).bind fun _ =>
      quietFor_tallySource _ _
  · exact (quietFor_tally _ _).bind fun _ => quietFor_tallySource _ _

theorem quietFor_settleTx (nf : Nat) (h : m ∉ pkts) (enqueued : Nat) :
    (settleTx nf pkts enqueued : PktProg ι Unit).Steps (QuietFor m) := by
  unfold settleTx
  split
  · exact (quietFor_tally _ _).bind fun _ => quietFor_dropAll h
  · exact quietFor_tally _ _

theorem quietFor_dropUnsent (port : Nat) (h : m ∉ pkts) (sent : Nat) :
    (dropUnsent port pkts sent : PktProg ι Unit).Steps (QuietFor m) := by
  unfold dropUnsent
  split
  · refine (quietFor_dropAll fun hm => h (List.mem_of_mem_drop hm)).bind fun _ => ?_
    exact Prog.steps_access ⟨nofun, fun s => .tallyPort s port _⟩ _
  · trivial

theorem quietFor_setMeta (h : pkt ≠ m) (f : Plane ι → OnvmPktMeta → OnvmPktMeta) :
    (Prog.write (.touch pkt) fun s => s.setMeta pkt (f s) : PktProg ι Unit).Steps (QuietFor m) :=
  Prog.steps_access ⟨fun he => h (Access.touch.inj he), fun s => .setMeta h s (f s)⟩ _

theorem quietFor_setNext (h : pkt ≠ m) (sc : ServiceChain) :
    (setNext pkt sc : PktProg ι Unit).Steps (QuietFor m) := by
  refine (quietFor_setMeta h _).bind fun _ => ?_
  refine Prog.steps_access ⟨fun he => h (Access.touch.inj he), fun s => ?_⟩ _
  exact ⟨⟨rfl, rfl, by simp [Plane.setMeta, Ne.symm h], by simp [Plane.setMeta, Ne.symm h],
    fun _ => rfl⟩, rfl⟩

theorem quietFor_classify (h : pkt ≠ m) : (classify pkt : PktProg ι Unit).Steps (QuietFor m) :=
  (quietFor_setMeta h _).bind fun _ => (quietFor_setMeta h _).bind fun _ =>
    (quietFor_read (a := .lookup pkt) _ nofun).bind fun sc => quietFor_setNext h sc

end Quiet

/-! ## The local buffers -/

theorem QueueMgr.copies_setBuf (q : QueueMgr) (m : Nat) {b : Buf} (hb : (q.buf b).isSome)
    (pkts : List Nat) (b' : Buf) :
    (q.setBuf b pkts).copies m b' = if b' = b then pkts.count m else q.copies m b' := by
  obtain ⟨l, hl⟩ := Option.isSome_iff_exists.mp hb
  unfold copies
  rw [buf_setBuf q hl]
  split <;> rfl

theorem QueueMgr.copies_clear (q : QueueMgr) (m : Nat) (b b' : Buf) :
    (q.setBuf b []).copies m b' = if b' = b then 0 else q.copies m b' := by
  cases hb : q.buf b with
  | none =>
    rw [setBuf_of_none q hb]
    split
    · rename_i he
      simp [copies, he, hb]
    · rfl
  | some l =>
    rw [copies_setBuf q m (by simp [hb])]
    simp

theorem not_mem_of_copies {q : QueueMgr} {b : Buf} (h : q.copies m b = 0) :
    m ∉ (q.buf b).getD [] :=
  List.count_eq_zero.mp h

variable [DecidableEq ι] {b : Buf} {pkt : Nat} {chain : ServiceChain}

theorem sameApart_setBuf (s : Plane ι) (w : ι) (b : Buf) (pkts : List Nat) :
    SameApart m s (s.setBuf w b pkts) :=
  ⟨Plane.world_setBuf s w b pkts, rfl, rfl, rfl, fun _ => rfl⟩

theorem sameApart_append (s : Plane ι) (w : ι) (b : Buf) (pkt : Nat) :
    SameApart m s (s.append w b pkt) := by
  unfold Plane.append
  split
  · exact ⟨rfl, rfl, rfl, rfl, fun _ => rfl⟩
  split
  · exact sameApart_setBuf s w b _
  · exact ⟨rfl, rfl, rfl, rfl, fun _ => rfl⟩

theorem mgrs_append_ne (s : Plane ι) (w : ι) (b : Buf) (pkt : Nat) {v : ι} (hv : v ≠ w) :
    (s.append w b pkt).mgrs v = s.mgrs v := by
  unfold Plane.append
  split
  · rfl
  split
  · exact Function.update_of_ne hv _ _
  · rfl

theorem copies_append_ne (s : Plane ι) (w : ι) (b : Buf) (h : pkt ≠ m) (b' : Buf) :
    ((s.append w b pkt).mgrs w).copies m b' = (s.mgrs w).copies m b' := by
  show ((s.append w b pkt).held (.buf w b')).count m = (s.held (.buf w b')).count m
  by_cases hroom : s.HasRoom w b
  · rw [held_append hroom]
    by_cases hb' : b' = b
    · simp [hb', h]
    · rw [Function.update_of_ne (by simpa using hb')]
  · rw [held_append_full hroom]

theorem copies_append_self (hroom : s.HasRoom w b) (b' : Buf) :
    ((s.append w b m).mgrs w).copies m b' =
      if b' = b then (s.mgrs w).copies m b' + 1 else (s.mgrs w).copies m b' := by
  show ((s.append w b m).held (.buf w b')).count m = if b' = b then
    (s.held (.buf w b')).count m + 1 else (s.held (.buf w b')).count m
  rw [held_append hroom]
  split
  · rename_i hb'
    simp [hb']
  · rename_i hb'
    rw [Function.update_of_ne (by simpa using hb')]

/-! ## Spots -/

omit [DecidableEq ι] in
theorem Plane.Spot.of_copies (hs : s.Spot w m chain k) (ha : SameApart m s s')
    (hc : ∀ b, (s'.mgrs w).copies m b = (s.mgrs w).copies m b) : s'.Spot w m chain k := by
  rcases hs with ⟨hno, hk⟩ | ⟨rfl, i, x, ⟨hone, hother, hk⟩, ht⟩
  · exact .inl ⟨fun b => (hc b).trans (hno b), ha.knows hk⟩
  · refine .inr ⟨rfl, i, x, ⟨(hc _).trans hone, fun b hb => ?_, ha.knows hk⟩, ht⟩
    exact (hc b).trans (hother b hb)

omit [DecidableEq ι] in
theorem Plane.Spot.copies_eq_zero (hs : s.Spot w m chain k) (hb : ∀ i, b ≠ .nfRx i) :
    (s.mgrs w).copies m b = 0 := by
  rcases hs with ⟨hno, -⟩ | ⟨-, i, x, ⟨-, hother, -⟩, -⟩
  · exact hno b
  · exact hother b (hb i)

omit [DecidableEq ι] in
theorem Plane.Hand.forget (hs : s.Hand w m k) : s.Spot w m chain none := .inl ⟨hs.1, nofun⟩

section Flush

variable {α : Type} {Q : α → Plane ι → Prop}

omit [DecidableEq ι] in
theorem holds_ownBuf {a : Access} {get : Plane ι → α} {upd : Plane ι → Plane ι}
    (ha : a ≠ .touch m) (hsame : ∀ s, SameApart m s (upd s))
    (hmgrs : ∀ s, ∀ v ≠ w, (upd s).mgrs v = s.mgrs v)
    (h : ∀ s', ChainRely m (s₀.chainOf m) w s s' → (chainContract s₀ m strict).Inv s' →
      StaysInBuffer m w a s' → Q (get s') (upd s')) :
    (chainContract s₀ m strict).Holds w Q (.access a get upd) s :=
  Contract.holds_access fun s' hr hi hc => ⟨fun _ => touchesOwn_of_ne ha w s', (hsame s').inv hi,
    fun v hv => (hsame s').rely _ (hmgrs s' v hv), h s' hr hi hc.1⟩

theorem clear_mgrs (s : Plane ι) (w : ι) (b : Buf) (b' : Buf) :
    ((s.setBuf w b []).mgrs w).copies m b' = if b' = b then 0 else (s.mgrs w).copies m b' := by
  show ((Function.update s.mgrs w ((s.mgrs w).setBuf b [])) w).copies m b' = _
  rw [Function.update_self, QueueMgr.copies_clear]

theorem clear_spot (hs : s.Spot w m (s₀.chainOf m) k) (hb : (s.mgrs w).copies m b = 0) :
    (chainContract s₀ m strict).Holds w (fun _ s' => s'.Spot w m (s₀.chainOf m) k)
      (clear w b) s := by
  refine holds_ownBuf nofun (fun s => sameApart_setBuf s w b [])
    (fun s v hv => Function.update_of_ne hv _ _) fun s' hr _ _ => ?_
  rw [← hr.1] at hb
  refine (hr.spot hs).of_copies (sameApart_setBuf s' w b []) fun b' => ?_
  rw [clear_mgrs]
  split
  · rename_i he
    rw [he, hb]
  · rfl

theorem clear_forgets (hb : ∀ b' ≠ b, (s.mgrs w).copies m b' = 0) :
    (chainContract s₀ m strict).Holds w (fun _ s' => s'.Spot w m (s₀.chainOf m) none)
      (clear w b) s := by
  refine holds_ownBuf nofun (fun s => sameApart_setBuf s w b [])
    (fun s v hv => Function.update_of_ne hv _ _) fun s' hr _ _ => .inl ⟨fun b' => ?_, nofun⟩
  rw [← hr.1] at hb
  rw [clear_mgrs]
  split
  · rfl
  · rename_i he
    exact hb b' he

omit [DecidableEq ι] in
theorem rely_of_owner {v : ι} (ho : s.owner m = some w) (hv : v ≠ w) (hm : s'.mgrs v = s.mgrs v) :
    ChainRely m chain v s s' := by
  refine ⟨hm, fun h => ?_, fun h => ?_⟩
  · exact absurd (Option.some.inj (h.symm.trans ho)) hv
  · exact absurd (h.symm.trans ho) nofun

omit [DecidableEq ι] in
theorem Plane.RingRight.off (h : s.RingRight m chain) (ho : s.owner m ≠ none) (name : RingName) :
    (s.held (.ring name)).count m = 0 := by
  rcases h with h | ⟨_, -, -, -, hnone, -⟩
  · exact h name
  · exact absurd hnone ho

omit [DecidableEq ι] in
theorem drop_own (ho : s.owner m = some w) :
    (chainContract s₀ m strict).Holds w (fun _ s' => s'.mgrs w = s.mgrs w ∧ s'.owner m = none ∧
      s'.decisions m = s.decisions m) (onvmPktDrop m) s := by
  refine Contract.holds_access fun s' hr hi _ => ?_
  obtain ⟨ho', -, hd'⟩ := hr.2.1 ho
  obtain ⟨hw, hd, hring⟩ := hi
  refine ⟨fun _ => trivial, ⟨hw, hd, .inl (hring.off (by simp [ho']))⟩, fun v hv => ?_, hr.1, ?_, hd'⟩
  · exact rely_of_owner ho' hv rfl
  · simp [Plane.free, Plane.disown]

omit [DecidableEq ι] in
theorem dropAll_holds {pkts : List Nat} (hcount : pkts.count m ≤ 1)
    (ho : m ∈ pkts → s.owner m = some w) :
    (chainContract s₀ m strict).Holds w (fun _ s' => s'.mgrs w = s.mgrs w) (dropAll pkts) s := by
  induction pkts generalizing s with
  | nil => rfl
  | cons pkt pkts ih =>
    apply Contract.Holds.bind
    by_cases hpkt : pkt = m
    · subst hpkt
      have hrest : pkt ∉ pkts := by
        rw [List.count_cons_self] at hcount
        exact List.count_eq_zero.mp (by omega)
      apply Contract.Holds.bind
      refine (drop_own (ho List.mem_cons_self)).mono fun _ s₁ h₁ => ?_
      show Contract.Holds _ w _ (dropAll pkts) s₁
      exact holds_quiet (quietFor_dropAll hrest) fun _ s₂ hr => hr.1.trans h₁.1
    · rw [List.count_cons_of_ne hpkt] at hcount
      have hdrop : (do let _ ← onvmPktDrop pkt : PktProg ι Unit).Steps (QuietFor m) :=
        (quietFor_drop hpkt).bind fun _ => Prog.steps_ret ()
      refine holds_quiet hdrop fun _ s₁ hr => ?_
      refine (ih hcount fun hm => ?_).mono fun _ s₂ h₂ => h₂.trans hr.1
      exact (hr.2.1 (ho (List.mem_cons_of_mem _ hm))).1

omit [DecidableEq ι] in
theorem holds_readFor {a : Access} {get : Plane ι → α} (ha : a ≠ .touch m)
    (h : ∀ s', ChainRely m (s₀.chainOf m) w s s' → (chainContract s₀ m strict).Inv s' →
      Q (get s') s') : (chainContract s₀ m strict).Holds w Q (.read a get) s :=
  Contract.holds_access fun s' hr hi _ => ⟨fun _ => touchesOwn_of_ne ha w s', hi,
    fun v _ => ChainRely.refl m _ v s', h s' hr hi⟩

omit [DecidableEq ι] in
theorem wired_of_world (htrav : s₀.Traversable m) (hw : s.world = s₀.world) :
    AllWired s.tables := by
  have hnfs : s.tables.nfs = s₀.tables.nfs := congrArg World.nfs hw
  intro i
  rw [hnfs]
  exact htrav.wired i

theorem inv_enqueueBulk (hi : (chainContract s₀ m strict).Inv s) (ho : s.owner m = some w)
    (ht : OnTrack (s₀.chainOf m) (s.pktMeta m) (s.decisions m)) {name : RingName}
    (hkind : name.kind = .rx) {pkts : List Nat} (htake : s.ringTakes (some name) pkts.length)
    (hcount : pkts.count m = 1) :
    (chainContract s₀ m strict).Inv (s.enqueueBulk (some name) pkts) := by
  obtain ⟨hworld, hdec, hring⟩ := hi
  have hoff := hring.off (by simp [ho])
  have hmem : m ∈ pkts := List.count_pos_iff.mp (by omega)
  have hheld := Plane.held_enqueueBulk htake
  have hrest : (s.enqueueBulk (some name) pkts).pktMeta = s.pktMeta ∧
      (s.enqueueBulk (some name) pkts).decisions = s.decisions ∧
      (s.enqueueBulk (some name) pkts).owner m = none := by
    unfold Plane.enqueueBulk
    rw [if_pos htake]
    exact ⟨rfl, rfl, if_pos hmem⟩
  obtain ⟨hmeta, hdecs, howner⟩ := hrest
  refine ⟨(Plane.world_enqueueBulk s _ _).trans hworld, hdecs ▸ hdec, .inr ⟨name, hkind, ?_, ?_,
    howner, by rwa [hmeta, hdecs]⟩⟩
  · rw [hheld, Function.update_self, List.count_append, hoff, hcount]
  · intro name' hne
    rw [hheld, Function.update_of_ne (by simpa using hne)]
    exact hoff name'

/-- The packets of a buffer go to the ring of their NF, with this one among them. -/
theorem enqueue_waiting (htrav : s₀.Traversable m) {i : Nat} {x : OnvmPktMeta × List ChainEntry}
    (hs : s.Waits w m i (some x)) (ht : OnTrack (s₀.chainOf m) x.1 x.2) :
    (chainContract s₀ m strict).Holds w
      (fun enqueued s' => s'.mgrs w = s.mgrs w ∧ (enqueued = 0 → s'.owner m = some w))
      (rteRingEnqueueBulk (fun s => (s.tables.nfs i).rxQ) ((s.mgrs w).nfRxBufs i)) s := by
  obtain ⟨hone, -, hk⟩ := hs
  refine Contract.holds_access fun s' hr hi _ => ⟨fun _ => trivial, ?_⟩
  obtain ⟨ho, hm, hd⟩ := hr.knows hk x rfl
  have hcount : ((s.mgrs w).nfRxBufs i).count m = 1 := hone
  generalize (s.mgrs w).nfRxBufs i = nfBuf at hcount ⊢
  dsimp only
  by_cases htake : s'.ringTakes (s'.tables.nfs i).rxQ nfBuf.length
  · obtain ⟨name, hq⟩ : ∃ name, (s'.tables.nfs i).rxQ = some name := by
      cases hq : (s'.tables.nfs i).rxQ with
      | none =>
        rw [hq] at htake
        cases htake
      | some name => exact ⟨name, rfl⟩
    have hkind : name.kind = .rx := (wired_of_world htrav hi.1 i).rx name (by rw [hq]; rfl)
    have hmgrs : (s'.enqueueBulk (some name) nfBuf).mgrs = s'.mgrs := by
      unfold Plane.enqueueBulk
      split
      · rfl
      · rfl
    have hinv := inv_enqueueBulk hi ho (by rwa [hm, hd]) hkind (hq ▸ htake) hcount
    rw [← hq] at hmgrs hinv
    refine ⟨hinv, fun v hv => ?_, ?_, fun hzero => ?_⟩
    · exact rely_of_owner ho hv (congrFun hmgrs v)
    · rw [hmgrs]
      exact hr.1
    · rw [if_pos htake] at hzero
      rw [List.length_eq_zero_iff.mp hzero] at hcount
      cases hcount
  · have hno : s'.enqueueBulk (s'.tables.nfs i).rxQ nfBuf = s' := if_neg htake
    rw [hno]
    exact ⟨hi, fun v _ => ChainRely.refl m _ v s', hr.1, fun _ => ho⟩

/-- A flush leaves the packet where it is, or hands it over. -/
theorem flushNfQueue_spot (htrav : s₀.Traversable m) (i : Nat) (sourceNf : Option Nat)
    (hs : s.Spot w m (s₀.chainOf m) k) :
    (chainContract s₀ m strict).Holds w (fun _ s' => s'.Spot w m (s₀.chainOf m) k)
      (onvmPktFlushNfQueue w i sourceNf) s := by
  refine Contract.Holds.bind (holds_readFor nofun fun s₁ h₁ _ => ?_)
  split
  · exact h₁.spot hs
  refine Contract.Holds.bind (holds_readFor nofun fun s₂ h₂ _ => ?_)
  have hs₂ := h₂.spot (h₁.spot hs)
  rw [← h₂.1]
  split
  · exact hs₂
  by_cases hin : (s₂.mgrs w).copies m (.nfRx i) = 0
  · have hnot : m ∉ (s₂.mgrs w).nfRxBufs i := not_mem_of_copies hin
    refine holds_bind_quiet (quietFor_enqueueBulk _ hnot) fun enqueued s₃ h₃ => ?_
    refine holds_bind_quiet (quietFor_settleNf i sourceNf hnot enqueued) fun _ s₄ h₄ => ?_
    refine clear_spot (h₄.spot (h₃.spot hs₂)) ?_
    rw [h₄.1, h₃.1, hin]
  · obtain ⟨rfl, x, hwaits, ht⟩ : k = none ∧ ∃ x, s₂.Waits w m i (some x) ∧
        OnTrack (s₀.chainOf m) x.1 x.2 := by
      rcases hs₂ with ⟨hno, -⟩ | ⟨hk, j, x, hwaits, ht⟩
      · exact absurd (hno _) hin
      · have hj : i = j := by
          by_contra hne
          exact hin (hwaits.2.1 _ (by simpa using hne))
        exact ⟨hk, x, hj ▸ hwaits, ht⟩
    apply Contract.Holds.bind
    refine (enqueue_waiting htrav hwaits ht).mono fun enqueued s₃ h₃ => ?_
    apply Contract.Holds.bind
    have hsettle : (chainContract s₀ m strict).Holds w (fun _ s' => s'.mgrs w = s₃.mgrs w)
        (settleNf i sourceNf ((s₂.mgrs w).nfRxBufs i) enqueued) s₃ := by
      unfold settleNf
      split
      · rename_i hzero
        apply Contract.Holds.bind
        refine (dropAll_holds (Nat.le_of_eq hwaits.1) fun _ => h₃.2 hzero).mono fun _ s₄ h₄ => ?_
        refine holds_quiet ((quietFor_tally _ _).bind fun _ => quietFor_tallySource _ _)
          fun _ s₅ h₅ => ?_
        exact h₅.1.trans h₄
      · exact holds_quiet ((quietFor_tally _ _).bind fun _ => quietFor_tallySource _ _)
          fun _ _ h => h.1
    refine hsettle.mono fun _ s₄ h₄ => clear_forgets ?_
    rw [h₄, h₃.1]
    exact hwaits.2.1

omit [DecidableEq ι] in
theorem holds_derefFor {next : Option (List Nat) → PktProg ι α}
    (h : ∀ s', ChainRely m (s₀.chainOf m) w s s' →
      (chainContract s₀ m strict).Holds w Q (next ((s.mgrs w).buf b)) s') :
    (chainContract s₀ m strict).Holds w Q ((deref w b).bind next) s := by
  refine Contract.Holds.bind (Contract.holds_access fun s₁ h₁ hi _ => ?_)
  have hsame : SameFor m s₁ (if (s₁.mgrs w).buf b = none then s₁.fault (.wild b) else s₁) := by
    split
    · exact .fault s₁ _
    · exact ⟨⟨rfl, rfl, rfl, rfl, fun _ => rfl⟩, rfl⟩
  refine ⟨fun _ => trivial, hsame.inv hi, fun v _ => hsame.rely _ (congrFun hsame.mgrs v), ?_⟩
  have hrely := h₁.trans (hsame.rely (s₀.chainOf m) (congrFun hsame.mgrs w))
  rw [h₁.1] at hrely ⊢
  exact h _ hrely

theorem flushPortQueue_spot (port : Nat) (hs : s.Spot w m (s₀.chainOf m) k) :
    (chainContract s₀ m strict).Holds w (fun _ s' => s'.Spot w m (s₀.chainOf m) k)
      (onvmPktFlushPortQueue w port) s := by
  refine Contract.Holds.bind (holds_readFor nofun fun s₁ h₁ _ => ?_)
  have hs₁ := h₁.spot hs
  split
  · exact hs₁
  refine holds_derefFor fun s₂ h₂ => ?_
  have hs₂ := h₂.spot hs₁
  rw [← h₂.1]
  split
  · exact hs₂
  rename_i portBuf hbuf
  split
  · exact hs₂
  have hno : (s₂.mgrs w).copies m (.port port) = 0 := hs₂.copies_eq_zero nofun
  have hnot : m ∉ portBuf := by
    have hnot := not_mem_of_copies hno
    rwa [hbuf] at hnot
  refine holds_bind_quiet (Prog.steps_access ⟨nofun, fun s => .txBurst hnot s port⟩ _)
    fun sent s₃ h₃ => ?_
  refine holds_bind_quiet (quietFor_dropUnsent port hnot sent) fun _ s₄ h₄ => ?_
  refine holds_bind_quiet (Prog.steps_access ⟨nofun, fun s => .tallyPort s port _⟩ _)
    fun _ s₅ h₅ => ?_
  refine clear_spot (h₅.spot (h₄.spot (h₃.spot hs₂))) ?_
  rw [h₅.1, h₄.1, h₃.1, hno]

theorem enqueueTxThread_spot (nf : Nat) (hs : s.Spot w m (s₀.chainOf m) k) :
    (chainContract s₀ m strict).Holds w (fun _ s' => s'.Spot w m (s₀.chainOf m) k)
      (onvmPktEnqueueTxThread w nf) s := by
  refine holds_derefFor fun s₁ h₁ => ?_
  have hs₁ := h₁.spot hs
  rw [← h₁.1]
  split
  · exact hs₁
  rename_i pktBuf hbuf
  split
  · exact hs₁
  have hno : (s₁.mgrs w).copies m .toTx = 0 := hs₁.copies_eq_zero nofun
  have hnot : m ∉ pktBuf := by
    have hnot := not_mem_of_copies hno
    rwa [hbuf] at hnot
  refine holds_bind_quiet (quietFor_enqueueBulk _ hnot) fun enqueued s₂ h₂ => ?_
  refine holds_bind_quiet (quietFor_settleTx nf hnot enqueued) fun _ s₃ h₃ => ?_
  refine clear_spot (h₃.spot (h₂.spot hs₁)) ?_
  rw [h₃.1, h₂.1, hno]

/-- Another packet is put in a buffer, which is flushed if that filled it. -/
theorem appendOrFlush_spot {flush : PktProg ι Unit} (hpkt : pkt ≠ m)
    (hflush : ∀ {s : Plane ι}, s.Spot w m (s₀.chainOf m) k → (chainContract s₀ m strict).Holds w
      (fun _ s' => s'.Spot w m (s₀.chainOf m) k) flush s)
    (hs : s.Spot w m (s₀.chainOf m) k) :
    (chainContract s₀ m strict).Holds w (fun _ s' => s'.Spot w m (s₀.chainOf m) k)
      (appendOrFlush w b pkt flush) s := by
  refine Contract.Holds.bind (holds_ownBuf nofun (fun s => sameApart_append s w b pkt)
    (fun s v hv => mgrs_append_ne s w b pkt hv) fun s₁ h₁ _ _ => ?_)
  have hs₁ := (h₁.spot hs).of_copies (sameApart_append s₁ w b pkt) (copies_append_ne s₁ w b hpkt)
  refine Contract.Holds.bind (holds_readFor nofun fun s₂ h₂ _ => ?_)
  split
  · exact hflush (h₂.spot hs₁)
  · exact h₂.spot hs₁

end Flush

/-! ## Other packets -/

section Others

variable (htrav : s₀.Traversable m) (hpkt : pkt ≠ m)

include htrav hpkt

theorem enqueueNf_spot (serviceId : Nat) (sourceNf : Option Nat)
    (hs : s.Spot w m (s₀.chainOf m) k) :
    (chainContract s₀ m strict).Holds w (fun _ s' => s'.Spot w m (s₀.chainOf m) k)
      (onvmPktEnqueueNf w serviceId pkt sourceNf) s := by
  refine Contract.Holds.bind (holds_readFor nofun fun s₁ h₁ _ => ?_)
  have hs₁ := h₁.spot hs
  split
  · exact holds_quiet (quietFor_refuse hpkt sourceNf) fun _ _ h => h.spot hs₁
  refine Contract.Holds.bind (holds_readFor nofun fun s₂ h₂ _ => ?_)
  have hs₂ := h₂.spot hs₁
  split
  · exact holds_quiet (quietFor_refuse hpkt sourceNf) fun _ _ h => h.spot hs₂
  · exact appendOrFlush_spot hpkt (flushNfQueue_spot htrav _ sourceNf) hs₂

omit htrav in
theorem enqueuePort_spot (port : Nat) (hs : s.Spot w m (s₀.chainOf m) k) :
    (chainContract s₀ m strict).Holds w (fun _ s' => s'.Spot w m (s₀.chainOf m) k)
      (onvmPktEnqueuePort w port pkt) s := by
  refine Contract.Holds.bind (holds_readFor nofun fun s₁ h₁ _ => ?_)
  split
  · exact h₁.spot hs
  · exact appendOrFlush_spot hpkt (flushPortQueue_spot port) (h₁.spot hs)

omit [DecidableEq ι] htrav in
theorem ne_touch : Access.touch pkt ≠ .touch m := fun he => hpkt (Access.touch.inj he)

theorem sendToNf_spot (nf : Nat) (hs : s.Spot w m (s₀.chainOf m) k) :
    (chainContract s₀ m strict).Holds w (fun _ s' => s'.Spot w m (s₀.chainOf m) k)
      (sendToNf w pkt nf) s := by
  refine holds_bind_quiet (quietFor_tally nf _) fun _ s₁ h₁ => ?_
  refine Contract.Holds.bind (holds_readFor (ne_touch hpkt) fun s₂ h₂ _ => ?_)
  exact enqueueNf_spot htrav hpkt _ _ (h₂.spot (h₁.spot hs))

theorem routeNext_spot (nf action : Nat) (hs : s.Spot w m (s₀.chainOf m) k) :
    (chainContract s₀ m strict).Holds w (fun _ s' => s'.Spot w m (s₀.chainOf m) k)
      (routeNext w pkt nf action) s := by
  unfold routeNext
  split
  · exact holds_quiet ((quietFor_drop hpkt).bind fun _ => quietFor_tally _ _) fun _ _ h => h.spot hs
  split
  · exact sendToNf_spot htrav hpkt nf hs
  split
  · refine holds_bind_quiet (quietFor_tally nf _) fun _ s₁ h₁ => ?_
    refine Contract.Holds.bind (holds_readFor (ne_touch hpkt) fun s₂ h₂ _ => ?_)
    exact enqueuePort_spot hpkt _ (h₂.spot (h₁.spot hs))
  · exact hs

theorem processNextAction_spot (nf : Nat) (hs : s.Spot w m (s₀.chainOf m) k) :
    (chainContract s₀ m strict).Holds w (fun _ s' => s'.Spot w m (s₀.chainOf m) k)
      (onvmPktProcessNextAction w pkt nf) s := by
  refine Contract.Holds.bind (holds_readFor nofun fun s₁ h₁ _ => ?_)
  refine holds_bind_quiet (quietFor_setNext hpkt _) fun _ s₂ h₂ => ?_
  refine Contract.Holds.bind (holds_readFor (ne_touch hpkt) fun s₃ h₃ _ => ?_)
  have hs₃ := h₃.spot (h₂.spot (h₁.spot hs))
  refine Contract.Holds.bind ((routeNext_spot htrav hpkt nf _ hs₃).mono fun _ s₄ hs₄ => ?_)
  exact holds_quiet (quietFor_setMeta hpkt _) fun _ _ h => h.spot hs₄

omit htrav in
theorem sendOut_spot (nf : Nat) (hs : s.Spot w m (s₀.chainOf m) k) :
    (chainContract s₀ m strict).Holds w (fun _ s' => s'.Spot w m (s₀.chainOf m) k)
      (sendOut w nf pkt) s := by
  refine Contract.Holds.bind (holds_readFor nofun fun s₁ h₁ _ => ?_)
  have hs₁ := h₁.spot hs
  split
  · refine holds_bind_quiet (quietFor_tally nf _) fun _ s₂ h₂ => ?_
    exact appendOrFlush_spot hpkt (enqueueTxThread_spot nf) (h₂.spot hs₁)
  · refine Contract.Holds.bind (holds_readFor (ne_touch hpkt) fun s₂ h₂ _ => ?_)
    exact enqueuePort_spot hpkt _ (h₂.spot hs₁)

theorem routeTx_spot (nf action : Nat) (hs : s.Spot w m (s₀.chainOf m) k) :
    (chainContract s₀ m strict).Holds w (fun _ s' => s'.Spot w m (s₀.chainOf m) k)
      (routeTx w nf pkt action) s := by
  unfold routeTx
  split
  · exact holds_quiet ((quietFor_tally _ _).bind fun _ => (quietFor_drop hpkt).bind fun _ =>
      (quietFor_tally _ _).bind fun _ => Prog.steps_ret _) fun _ _ h => h.spot hs
  split
  · refine holds_bind_quiet (quietFor_tally nf _) fun _ s₁ h₁ => ?_
    exact Contract.Holds.bind (processNextAction_spot htrav hpkt nf (h₁.spot hs))
  split
  · exact Contract.Holds.bind (sendToNf_spot htrav hpkt nf hs)
  split
  · exact Contract.Holds.bind (sendOut_spot hpkt nf hs)
  · exact holds_quiet ((quietFor_drop hpkt).bind fun _ => Prog.steps_ret _) fun _ _ h => h.spot hs

theorem processTxPacket_spot (nf : Nat) (hs : s.Spot w m (s₀.chainOf m) k) :
    (chainContract s₀ m strict).Holds w (fun _ s' => s'.Spot w m (s₀.chainOf m) k)
      (processTxPacket w nf pkt) s := by
  refine holds_bind_quiet (quietFor_setMeta hpkt _) fun _ s₁ h₁ => ?_
  refine Contract.Holds.bind (holds_readFor (ne_touch hpkt) fun s₂ h₂ _ => ?_)
  exact routeTx_spot htrav hpkt nf _ (h₂.spot (h₁.spot hs))

theorem processRxPacket_spot (hs : s.Spot w m (s₀.chainOf m) k) :
    (chainContract s₀ m strict).Holds w (fun _ s' => s'.Spot w m (s₀.chainOf m) k)
      (processRxPacket w pkt) s := by
  refine holds_bind_quiet (quietFor_classify hpkt) fun _ s₁ h₁ => ?_
  refine holds_bind_quiet (quietFor_setMeta hpkt _) fun _ s₂ h₂ => ?_
  refine Contract.Holds.bind (holds_readFor (ne_touch hpkt) fun s₃ h₃ _ => ?_)
  exact enqueueNf_spot htrav hpkt _ _ (h₃.spot (h₂.spot (h₁.spot hs)))

end Others

/-! ## The packet itself -/

section Own

variable {α : Type} {Q : α → Plane ι → Prop} {x : OnvmPktMeta × List ChainEntry}

omit [DecidableEq ι] in
theorem Plane.Hand.of_mgrs {k' : Known} (hs : s.Hand w m k) (hm : s'.mgrs w = s.mgrs w)
    (hk : s'.Knows w m k') : s'.Hand w m k' :=
  ⟨hm.symm ▸ hs.1, hk⟩

omit [DecidableEq ι] in
theorem holds_readOwn {a : Access} {get : Plane ι → α} (hk : s.Knows w m (some x))
    (h : ∀ s', ChainRely m (s₀.chainOf m) w s s' → (chainContract s₀ m strict).Inv s' →
      Q (get s') s') : (chainContract s₀ m strict).Holds w Q (.read a get) s := by
  refine Contract.holds_access fun s' hr hi _ => ⟨fun _ => ?_, hi,
    fun v _ => ChainRely.refl m _ v s', h s' hr hi⟩
  obtain ⟨ho, -, -⟩ := hr.knows hk x rfl
  cases a with
  | touch pkt => exact fun _ => ho
  | tau | check | lookup | append => trivial

omit [DecidableEq ι] in
/-- The worker that has the packet writes its metadata, and perhaps a decision. -/
theorem holds_ownTouch {f : Plane ι → Nat → OnvmPktMeta} {g : Plane ι → Nat → List ChainEntry}
    {Q : Unit → Plane ι → Prop} (hk : s.Knows w m (some x))
    (hg : ∀ s', s'.pktMeta m = x.1 → s'.decisions m = x.2 → g s' m <+: (s₀.chainOf m).route)
    (h : ∀ s' : Plane ι, s'.mgrs w = s.mgrs w → s'.Knows w m (some x) →
      Q () { s' with pktMeta := f s', decisions := g s' }) :
    (chainContract s₀ m strict).Holds w Q
      (.write (.touch m) fun s => { s with pktMeta := f s, decisions := g s }) s := by
  refine Contract.holds_access fun s' hr hi _ => ?_
  have hk' := hr.knows hk
  obtain ⟨ho, hm, hd⟩ := hk' x rfl
  obtain ⟨hworld, -, hring⟩ := hi
  refine ⟨fun _ _ => ho, ⟨hworld, hg s' hm hd, .inl (hring.off (by simp [ho]))⟩, fun v hv => ?_,
    h s' hr.1 hk'⟩
  exact rely_of_owner ho hv rfl

omit [DecidableEq ι] in
theorem holds_ownMeta {f : Plane ι → OnvmPktMeta → OnvmPktMeta} {Q : Unit → Plane ι → Prop}
    (hk : s.Knows w m (some x)) (hd : x.2 <+: (s₀.chainOf m).route)
    (h : ∀ s' s'', s'.mgrs w = s.mgrs w → s'.Knows w m (some (f s'' x.1, x.2)) → Q () s') :
    (chainContract s₀ m strict).Holds w Q (.write (.touch m) fun s => s.setMeta m (f s)) s := by
  refine holds_ownTouch (f := fun s => Function.update s.pktMeta m (f s (s.pktMeta m)))
    (g := fun s => s.decisions) hk (fun s' _ hdec => hdec ▸ hd) fun s' hm hk' => ?_
  obtain ⟨ho, hmeta, hdec⟩ := hk' x rfl
  refine h _ s' hm ?_
  rintro _ ⟨⟩
  exact ⟨ho, by simp [hmeta], hdec⟩

omit [DecidableEq ι] in
theorem setNext_own (hk : s.Knows w m (some x))
    (hle : x.1.chainIndex ≤ (s₀.chainOf m).chainLength)
    (hd : x.2 = (s₀.chainOf m).route.take x.1.chainIndex) :
    let e := (s₀.chainOf m).next x.1.chainIndex
    (chainContract s₀ m strict).Holds w (fun _ s' => s'.mgrs w = s.mgrs w ∧ s'.Knows w m
      (some ({ x.1 with action := e.action, destination := e.destination },
        (s₀.chainOf m).route.take (x.1.chainIndex + 1))))
      (setNext m (s₀.chainOf m)) s := by
  intro e
  have hdec := ServiceChain.take_route_succ hle
  apply Contract.Holds.bind
  refine holds_ownMeta hk (hd ▸ List.take_prefix _ _) fun s₁ _ h₁ hk₁ => ?_
  let f (s : Plane ι) : Nat → OnvmPktMeta := Function.update s.pktMeta m { s.pktMeta m with
    destination := onvmNextDestination (s₀.chainOf m) (s.pktMeta m).chainIndex }
  have hnext : ∀ s₂ : Plane ι, s₂.pktMeta m = { x.1 with action := e.action } →
      s₂.decisions m = x.2 →
      f s₂ m = { x.1 with action := e.action, destination := e.destination } ∧
        s₂.decisions m ++ [⟨(f s₂ m).action, (f s₂ m).destination⟩] =
          (s₀.chainOf m).route.take (x.1.chainIndex + 1) := by
    intro s₂ hm₂ hd₂
    have hf : f s₂ m = { x.1 with action := e.action, destination := e.destination } := by
      simp only [f, Function.update_self, hm₂]
      rfl
    refine ⟨hf, ?_⟩
    rw [hf, hd₂, ← hdec, ← hd]
  refine holds_ownTouch (f := f) (g := fun s => Function.update s.decisions m (s.decisions m ++
    [⟨(f s m).action, (f s m).destination⟩])) hk₁ (fun s₂ hm₂ hd₂ => ?_) fun s₂ h₂ hk₂ => ?_
  · rw [Function.update_self, (hnext s₂ hm₂ hd₂).2]
    exact List.take_prefix _ _
  · obtain ⟨ho₂, hm₂, hd₂⟩ := hk₂ _ rfl
    obtain ⟨hf, hdecs⟩ := hnext s₂ hm₂ hd₂
    refine ⟨h₂.trans h₁, ?_⟩
    rintro _ ⟨⟩
    refine ⟨ho₂, hf, ?_⟩
    rw [← hdecs]
    exact Function.update_self ..

omit [DecidableEq ι] in
theorem holds_inc (hk : s.Knows w m (some x)) (hd : x.2 <+: (s₀.chainOf m).route)
    (hlt : x.1.chainIndex + 1 < 2 ^ 8) :
    (chainContract s₀ m strict).Holds w (fun _ s' => s'.mgrs w = s.mgrs w ∧ s'.Knows w m
      (some ({ x.1 with chainIndex := x.1.chainIndex + 1 }, x.2))) (incChainIndex m) s := by
  refine holds_ownMeta hk hd fun s' _ h' hk' => ⟨h', ?_⟩
  rwa [inc8, Nat.mod_eq_of_lt hlt] at hk'

omit [DecidableEq ι] in
theorem instanceFor_of_world (hw : s.world = s₀.world) (serviceId : Nat) :
    s.instanceFor serviceId m = s₀.instanceFor serviceId m :=
  congrArg (fun v : World ι => onvmScServiceToNfMap v.nfPerServiceCount v.services serviceId
    (some (v.rss m))) hw

theorem enqueueNf_reaches {serviceId : Nat} {sourceNf : Option Nat} {Q : Unit → Plane ι → Prop}
    (hserved : ¬ s₀.Unserved serviceId m)
    (h : ∀ i s', ChainRely m (s₀.chainOf m) w s s' → (chainContract s₀ m strict).Holds w Q
      (appendOrFlush w (.nfRx i) m (onvmPktFlushNfQueue w i sourceNf)) s') :
    (chainContract s₀ m strict).Holds w Q (onvmPktEnqueueNf w serviceId m sourceNf) s := by
  obtain ⟨hzero, hvalid⟩ := not_or.mp hserved
  refine Contract.Holds.bind (holds_readFor nofun fun s₁ h₁ hi₁ => ?_)
  rw [instanceFor_of_world hi₁.1, if_neg hzero]
  refine Contract.Holds.bind (holds_readFor nofun fun s₂ h₂ hi₂ => ?_)
  have hnfs : s₂.tables.nfs = s₀.tables.nfs := congrArg World.nfs hi₂.1
  rw [hnfs, if_neg hvalid]
  exact h _ s₂ (h₁.trans h₂)

theorem waits_append {i : Nat} (hs : s.Hand w m (some x)) (hroom : s.HasRoom w (.nfRx i)) :
    (s.append w (.nfRx i) m).Waits w m i (some x) := by
  refine ⟨?_, fun b hb => ?_, (sameApart_append s w _ m).knows hs.2⟩
  · rw [copies_append_self hroom, if_pos rfl, hs.1]
  · rw [copies_append_self hroom, if_neg hb, hs.1]

/-- From the NIC, with the index right: the buffer may be flushed. -/
theorem enqueueNf_fromRx (htrav : s₀.Traversable m) {serviceId : Nat} {sourceNf : Option Nat}
    (hserved : ¬ s₀.Unserved serviceId m) (hs : s.Hand w m (some x))
    (ht : OnTrack (s₀.chainOf m) x.1 x.2) :
    (chainContract s₀ m strict).Holds w (fun _ s' => s'.Spot w m (s₀.chainOf m) none)
      (onvmPktEnqueueNf w serviceId m sourceNf) s := by
  refine enqueueNf_reaches hserved fun i s₁ h₁ => ?_
  refine Contract.Holds.bind (holds_ownBuf nofun (fun s => sameApart_append s w _ m)
    (fun s v hv => mgrs_append_ne s w _ m hv) fun s₂ h₂ _ _ => ?_)
  have hs₂ := h₂.hand (h₁.hand hs)
  have happend : (s₂.append w (.nfRx i) m).Spot w m (s₀.chainOf m) none := by
    by_cases hroom : s₂.HasRoom w (.nfRx i)
    · exact .inr ⟨rfl, i, x, waits_append hs₂ hroom, ht⟩
    · refine .inl ⟨fun b => ?_, nofun⟩
      show ((s₂.append w (.nfRx i) m).held (.buf w b)).count m = 0
      rw [held_append_full hroom]
      exact hs₂.1 b
  refine Contract.Holds.bind (holds_readFor nofun fun s₃ h₃ _ => ?_)
  split
  · exact flushNfQueue_spot htrav i sourceNf (h₃.spot happend)
  · exact h₃.spot happend

theorem enqueueNf_fromNf {serviceId : Nat} {sourceNf : Option Nat}
    (hserved : ¬ s₀.Unserved serviceId m) (hs : s.Hand w m (some x))
    (hlt : x.1.chainIndex < x.2.length) :
    (chainContract s₀ m strict).Holds w (fun _ s' => ∃ i, s'.Waits w m i (some x))
      (onvmPktEnqueueNf w serviceId m sourceNf) s := by
  refine enqueueNf_reaches hserved fun i s₁ h₁ => ?_
  refine Contract.Holds.bind (holds_ownBuf nofun (fun s => sameApart_append s w _ m)
    (fun s v hv => mgrs_append_ne s w _ m hv) fun s₂ h₂ _ hstays => ?_)
  have hs₂ := h₂.hand (h₁.hand hs)
  obtain ⟨-, hm, hd⟩ := hs₂.2 x rfl
  have hcount : s₂.count w (.nfRx i) + 1 < packetReadSize := hstays rfl (by rwa [hm, hd])
  have hroom : s₂.HasRoom w (.nfRx i) := ⟨rfl, by omega⟩
  have hwaits := waits_append hs₂ hroom
  have hfew : (s₂.append w (.nfRx i) m).count w (.nfRx i) ≠ packetReadSize := by
    rw [count_append hroom]
    omega
  refine Contract.Holds.bind (holds_readFor nofun fun s₃ h₃ _ => ?_)
  have hsame : s₃.count w (.nfRx i) = (s₂.append w (.nfRx i) m).count w (.nfRx i) := by
    unfold Plane.count
    rw [h₃.1]
  rw [hsame, if_neg hfew]
  exact ⟨i, h₃.waits hwaits⟩

theorem sendToNf_own (nf : Nat) (hserved : ¬ s₀.Unserved x.1.destination m)
    (hs : s.Hand w m (some x)) (hlt : x.1.chainIndex < x.2.length) :
    (chainContract s₀ m strict).Holds w (fun _ s' => ∃ i, s'.Waits w m i (some x))
      (sendToNf w m nf) s := by
  refine holds_bind_quiet (quietFor_tally nf _) fun _ s₁ h₁ => ?_
  refine Contract.Holds.bind (holds_readOwn (h₁.hand hs).2 fun s₂ h₂ _ => ?_)
  have hs₂ := h₂.hand (h₁.hand hs)
  rw [(hs₂.2 x rfl).2.1]
  exact enqueueNf_fromNf hserved hs₂ hlt

/-- The entry is for an NF: the index is incremented while the packet waits. -/
theorem routeNext_onward (htrav : s₀.Traversable m) (nf : Nat)
    (hlt : x.1.chainIndex < (s₀.chainOf m).chainLength)
    (hs : s.Hand w m (some ({ x.1 with
        action := ((s₀.chainOf m).next x.1.chainIndex).action
        destination := ((s₀.chainOf m).next x.1.chainIndex).destination },
      (s₀.chainOf m).route.take (x.1.chainIndex + 1)))) :
    (chainContract s₀ m strict).Holds w (fun _ s' => s'.Spot w m (s₀.chainOf m) none)
      ((routeNext w m nf ((s₀.chainOf m).next x.1.chainIndex).action).bind fun _ =>
        incChainIndex m) s := by
  obtain ⟨haction, hserved⟩ := htrav.entry (x.1.chainIndex + 1) (by omega) hlt
  rw [ServiceChain.next_of_lt hlt] at hs ⊢
  have hroute : routeNext w m nf ((s₀.chainOf m).sc (x.1.chainIndex + 1)).action =
      sendToNf w m nf := by
    rw [haction]
    rfl
  rw [hroute]
  have hlen : x.1.chainIndex < ((s₀.chainOf m).route.take (x.1.chainIndex + 1)).length := by
    rw [List.length_take, ServiceChain.length_route]
    omega
  have hshort := htrav.short
  apply Contract.Holds.bind
  refine (sendToNf_own nf hserved hs hlen).mono fun _ s₁ ⟨i, hone, hother, hk⟩ => ?_
  refine (holds_inc hk (List.take_prefix _ _) (by simp only; omega)).mono fun _ s₂ ⟨h₂, hk₂⟩ => ?_
  refine .inr ⟨rfl, i, _, ⟨h₂.symm ▸ hone, h₂.symm ▸ hother, hk₂⟩, ?_⟩
  exact ⟨Nat.le_add_left 1 _, hlt, rfl⟩

omit [DecidableEq ι] in
/-- The stray increment: the packet was freed at the end of its route. -/
theorem inc_freed (hstrict : ¬ strict) (hno : ∀ b, (s.mgrs w).copies m b = 0)
    (ho : s.owner m = none) (hd : s.decisions m = (s₀.chainOf m).route) :
    (chainContract s₀ m strict).Holds w (fun _ s' => s'.Spot w m (s₀.chainOf m) none)
      (incChainIndex m) s := by
  refine Contract.holds_access fun s' hr hi _ => ⟨fun h => absurd h hstrict, ?_⟩
  obtain ⟨ho', hd'⟩ := hr.2.2 ho hd
  obtain ⟨hworld, hdec, hring⟩ := hi
  have hoff : ∀ name, (s'.held (.ring name)).count m = 0 := by
    rcases hring with hoff | ⟨_, -, -, -, -, ht⟩
    · exact hoff
    · exact absurd (ht.taken.symm.trans hd') (ServiceChain.take_route_ne ht.le)
  refine ⟨⟨hworld, hdec, .inl hoff⟩, fun v _ => ⟨rfl, fun h => ?_, fun h => fun hd => ⟨h, hd⟩⟩,
    .inl ⟨hr.1.symm ▸ hno, nofun⟩⟩
  exact absurd (h.symm.trans ho') nofun

theorem routeNext_end (hstrict : ¬ strict) (nf : Nat) {y : OnvmPktMeta}
    (hs : s.Hand w m (some (y, (s₀.chainOf m).route))) :
    (chainContract s₀ m strict).Holds w (fun _ s' => s'.Spot w m (s₀.chainOf m) none)
      ((routeNext w m nf actionDrop).bind fun _ => incChainIndex m) s := by
  obtain ⟨ho, -, hd⟩ := hs.2 _ rfl
  apply Contract.Holds.bind
  refine Contract.Holds.bind ((drop_own ho).mono fun ret s₁ ⟨h₁, ho₁, hd₁⟩ => ?_)
  refine holds_quiet (quietFor_tally nf _) fun _ s₂ h₂ => ?_
  obtain ⟨ho₂, hd₂⟩ := h₂.2.2 ho₁ (hd₁.trans hd)
  refine inc_freed hstrict (fun b => ?_) ho₂ hd₂
  rw [h₂.1, h₁]
  exact hs.1 b

omit [DecidableEq ι] in
theorem chainOf_of_world (hw : s.world = s₀.world) : s.chainOf m = s₀.chainOf m :=
  congrArg (fun v : World ι => (v.flow m).getD v.defaultChain) hw

theorem processNextAction_own (htrav : s₀.Traversable m) (nf : Nat) (hs : s.Hand w m (some x))
    (ht : OnTrack (s₀.chainOf m) x.1 x.2) :
    (chainContract s₀ m strict).Holds w (fun _ s' => s'.Spot w m (s₀.chainOf m) none)
      (onvmPktProcessNextAction w m nf) s := by
  have hpos := ht.pos
  refine Contract.Holds.bind (Contract.holds_access fun s₁ h₁ hi₁ hc₁ => ?_)
  have hs₁ := h₁.hand hs
  have hchain : s₁.chainOf m = s₀.chainOf m := chainOf_of_world hi₁.1
  have hgoes : strict → x.1.chainIndex < (s₀.chainOf m).chainLength := fun h => by
    have hgoes := hc₁.2 h rfl
    rw [(hs₁.2 x rfl).2.1, hchain] at hgoes
    exact hgoes (by omega)
  refine ⟨fun _ => trivial, hi₁, fun v _ => ChainRely.refl m _ v s₁, ?_⟩
  rw [hchain]
  apply Contract.Holds.bind
  refine (setNext_own hs₁.2 ht.le ht.taken).mono fun _ s₂ ⟨h₂, hk₂⟩ => ?_
  have hs₂ := hs₁.of_mgrs h₂ hk₂
  refine Contract.Holds.bind (holds_readOwn hk₂ fun s₃ h₃ _ => ?_)
  have hs₃ := h₃.hand hs₂
  rw [(hs₃.2 _ rfl).2.1]
  rcases Nat.lt_or_eq_of_le ht.le with hlt | heq
  · exact routeNext_onward htrav nf hlt hs₃
  · rw [ServiceChain.next_of_le heq.ge] at hs₃ ⊢
    have hwhole : (s₀.chainOf m).route.take (x.1.chainIndex + 1) = (s₀.chainOf m).route := by
      rw [heq, ← ServiceChain.length_route, List.take_length]
    rw [hwhole] at hs₃
    exact routeNext_end (fun h => absurd (hgoes h) (by omega)) nf hs₃

theorem processTxPacket_own (htrav : s₀.Traversable m) (nf : Nat) (hs : s.Hand w m (some x))
    (ht : OnTrack (s₀.chainOf m) x.1 x.2) (hnext : x.1.action = actionNext) :
    (chainContract s₀ m strict).Holds w (fun _ s' => s'.Spot w m (s₀.chainOf m) none)
      (processTxPacket w nf m) s := by
  apply Contract.Holds.bind
  refine holds_ownMeta hs.2 (ht.taken ▸ List.take_prefix _ _) fun s₁ s' h₁ hk₁ => ?_
  have hs₁ := hs.of_mgrs h₁ hk₁
  refine Contract.Holds.bind (holds_readOwn hk₁ fun s₂ h₂ _ => ?_)
  have hs₂ := h₂.hand hs₁
  have haction : (s₂.pktMeta m).action = actionNext := by
    rw [(hs₂.2 _ rfl).2.1]
    exact hnext
  rw [haction]
  refine holds_bind_quiet (quietFor_tally nf _) fun _ s₃ h₃ => ?_
  refine Contract.Holds.bind (processNextAction_own htrav nf (h₃.hand hs₂) ?_)
  exact ⟨ht.pos, ht.le, ht.taken⟩

omit [DecidableEq ι] in
/-- `onvm_pkt_process_rx_batch` takes the first entry, and the index is right at once. -/
theorem classify_own {y : OnvmPktMeta} (hs : s.Hand w m (some (y, []))) :
    (chainContract s₀ m strict).Holds w (fun _ s' => ∃ z, s'.Hand w m (some (z,
      (s₀.chainOf m).route.take 1)) ∧ z.chainIndex = 0 ∧
        z.destination = ((s₀.chainOf m).next 0).destination) (classify m) s := by
  refine Contract.Holds.bind (holds_ownMeta hs.2 List.nil_prefix fun s₁ s' h₁ hk₁ => ?_)
  have hs₁ := hs.of_mgrs h₁ hk₁
  refine Contract.Holds.bind (holds_ownMeta hk₁ List.nil_prefix fun s₂ s'' h₂ hk₂ => ?_)
  have hs₂ := hs₁.of_mgrs h₂ hk₂
  refine Contract.Holds.bind (holds_readFor nofun fun s₃ h₃ hi₃ => ?_)
  have hs₃ := h₃.hand hs₂
  rw [chainOf_of_world hi₃.1]
  refine (setNext_own hs₃.2 (Nat.zero_le _) rfl).mono fun _ s₄ ⟨h₄, hk₄⟩ => ?_
  exact ⟨_, hs₃.of_mgrs h₄ hk₄, rfl, rfl⟩

theorem enqueueNf_refused {serviceId : Nat} {sourceNf : Option Nat}
    (hzero : s₀.instanceFor serviceId m = 0) (hs : s.Hand w m (some x)) :
    (chainContract s₀ m strict).Holds w (fun _ s' => s'.Spot w m (s₀.chainOf m) none)
      (onvmPktEnqueueNf w serviceId m sourceNf) s := by
  refine Contract.Holds.bind (holds_readFor nofun fun s₁ h₁ hi₁ => ?_)
  have hs₁ := h₁.hand hs
  rw [instanceFor_of_world hi₁.1, if_pos hzero]
  refine Contract.Holds.bind ((drop_own (hs₁.2 x rfl).1).mono fun _ s₂ h₂ => ?_)
  refine holds_quiet (quietFor_tallySource sourceNf _) fun _ s₃ h₃ => .inl ⟨?_, nofun⟩
  rw [h₃.1, h₂.1]
  exact hs₁.1

theorem processRxPacket_own (htrav : s₀.Traversable m) {y : OnvmPktMeta}
    (hs : s.Hand w m (some (y, []))) :
    (chainContract s₀ m strict).Holds w (fun _ s' => s'.Spot w m (s₀.chainOf m) none)
      (processRxPacket w m) s := by
  apply Contract.Holds.bind
  refine (classify_own hs).mono fun _ s₁ ⟨z, hs₁, hindex, hdest⟩ => ?_
  apply Contract.Holds.bind
  refine (holds_inc hs₁.2 (List.take_prefix _ _) (by simp [hindex])).mono fun _ s₂ ⟨h₂, hk₂⟩ => ?_
  refine Contract.Holds.bind (holds_readOwn hk₂ fun s₃ h₃ _ => ?_)
  have hs₃ := h₃.hand (hs₁.of_mgrs h₂ hk₂)
  rw [(hs₃.2 _ rfl).2.1]
  simp only [hindex, hdest, Nat.zero_add] at hs₃ ⊢
  rcases Nat.eq_zero_or_pos (s₀.chainOf m).chainLength with hempty | hpos
  · rw [ServiceChain.next_of_le hempty.le]
    exact enqueueNf_refused (htrav.empty hempty) hs₃
  · rw [ServiceChain.next_of_lt hpos]
    exact enqueueNf_fromRx htrav (htrav.entry 1 (Nat.le_refl 1) hpos).2 hs₃ ⟨Nat.le_refl 1, hpos, rfl⟩

end Own

/-! ## Batches -/

/-- The packet is in the batch of the worker, once, and `P` of what the worker knows of
it; or it is not. -/
def Plane.Batch (s : Plane ι) (w : ι) (m : Nat) (chain : ServiceChain)
    (P : OnvmPktMeta × List ChainEntry → Prop) (pkts : List Nat) : Prop :=
  m ∉ pkts ∧ s.Spot w m chain none ∨ pkts.count m = 1 ∧ ∃ x, s.Hand w m (some x) ∧ P x

section Batches

variable {P : OnvmPktMeta × List ChainEntry → Prop} {pkts : List Nat}

omit [DecidableEq ι] in
theorem Plane.Batch.rely (h : s.Batch w m (s₀.chainOf m) P pkts)
    (hr : ChainRely m (s₀.chainOf m) w s s') : s'.Batch w m (s₀.chainOf m) P pkts := by
  rcases h with ⟨hnot, hs⟩ | ⟨hcount, x, hs, hx⟩
  · exact .inl ⟨hnot, hr.spot hs⟩
  · exact .inr ⟨hcount, x, hr.hand hs, hx⟩

omit [DecidableEq ι] in
theorem Plane.Batch.forget (h : s.Batch w m chain P pkts) : s.Spot w m chain none := by
  rcases h with ⟨-, hs⟩ | ⟨-, x, hs, -⟩
  · exact hs
  · exact hs.forget

omit [DecidableEq ι] in
theorem Plane.Batch.step {α : Type} {body : Nat → PktProg ι α} {pkt : Nat}
    (hother : ∀ k s, pkt ≠ m → s.Spot w m (s₀.chainOf m) k → (chainContract s₀ m strict).Holds w
      (fun _ s' => s'.Spot w m (s₀.chainOf m) k) (body pkt) s)
    (hown : ∀ x s, s.Hand w m (some x) → P x → (chainContract s₀ m strict).Holds w
      (fun _ s' => s'.Spot w m (s₀.chainOf m) none) (body m) s)
    (h : s.Batch w m (s₀.chainOf m) P (pkt :: pkts)) : (chainContract s₀ m strict).Holds w
      (fun _ s' => s'.Batch w m (s₀.chainOf m) P pkts) (body pkt) s := by
  rcases h with ⟨hnot, hs⟩ | ⟨hcount, x, hs, hx⟩
  · obtain ⟨hne, hpkts⟩ := List.ne_and_not_mem_of_not_mem_cons hnot
    exact (hother none s hne.symm hs).mono fun _ s' hs' => .inl ⟨hpkts, hs'⟩
  by_cases hpkt : pkt = m
  · subst hpkt
    rw [List.count_cons_self] at hcount
    have hpkts : pkt ∉ pkts := List.count_eq_zero.mp (by omega)
    exact (hown x s hs hx).mono fun _ s' hs' => .inl ⟨hpkts, hs'⟩
  · rw [List.count_cons_of_ne hpkt] at hcount
    refine (hother (some x) s hpkt (.inl hs)).mono fun _ s' hs' => .inr ⟨hcount, x, ?_, hx⟩
    rcases hs' with hs' | ⟨hk, -⟩
    · exact hs'
    · cases hk

def Returned (chain : ServiceChain) (x : OnvmPktMeta × List ChainEntry) : Prop :=
  OnTrack chain x.1 x.2 ∧ x.1.action = actionNext

theorem txBatch_spot (htrav : s₀.Traversable m) (nf : Nat)
    (h : s.Batch w m (s₀.chainOf m) (Returned (s₀.chainOf m)) pkts) :
    (chainContract s₀ m strict).Holds w (fun _ s' => s'.Spot w m (s₀.chainOf m) none)
      (onvmPktProcessTxBatch w nf pkts) s := by
  induction pkts generalizing s with
  | nil => exact h.forget
  | cons pkt pkts ih =>
    apply Contract.Holds.bind
    have hstep : (chainContract s₀ m strict).Holds w (fun _ s' => s'.Batch w m (s₀.chainOf m)
        (Returned (s₀.chainOf m)) pkts) (processTxPacket w nf pkt) s :=
      h.step (fun k s hpkt hs => processTxPacket_spot htrav hpkt nf hs)
        fun x s hs hx => processTxPacket_own htrav nf hs hx.1 hx.2
    refine hstep.mono fun goOn s₁ h₁ => ?_
    split
    · exact ih h₁
    · exact h₁.forget

theorem flushAllNfs_spot (htrav : s₀.Traversable m) (sourceNf : Option Nat)
    (hs : s.Spot w m (s₀.chainOf m) none) :
    (chainContract s₀ m strict).Holds w (fun _ s' => s'.Spot w m (s₀.chainOf m) none)
      (onvmPktFlushAllNfs w sourceNf) s :=
  Contract.Holds.each (J := fun _ (s : Plane ι) => s.Spot w m (s₀.chainOf m) none)
    (fun i _ _ hs => flushNfQueue_spot htrav i sourceNf hs) hs

theorem rxBatch_spot (htrav : s₀.Traversable m)
    (h : s.Batch w m (s₀.chainOf m) (fun x => x.2 = []) pkts) :
    (chainContract s₀ m strict).Holds w (fun _ s' => s'.Spot w m (s₀.chainOf m) none)
      (onvmPktProcessRxBatch w pkts) s := by
  let J (pkts : List Nat) (s : Plane ι) : Prop := s.Batch w m (s₀.chainOf m) (fun x => x.2 = []) pkts
  have hbody : ∀ pkt pkts s, J (pkt :: pkts) s →
      (chainContract s₀ m strict).Holds w (fun _ s' => J pkts s') (processRxPacket w pkt) s := by
    intro pkt pkts s h
    refine h.step (fun k s hpkt hs => processRxPacket_spot htrav hpkt hs) fun x s hs hx => ?_
    obtain ⟨y, d⟩ := x
    obtain rfl : d = [] := hx
    exact processRxPacket_own htrav hs
  apply Contract.Holds.bind
  refine (Contract.Holds.each (J := J) hbody h).mono fun _ s' h' => ?_
  exact flushAllNfs_spot htrav none (Plane.Batch.forget h')

end Batches

/-! ## Bursts -/

section Bursts

variable {q : Option RingName}

omit [DecidableEq ι] in
/-- A packet that a ring gives out is on an `rx_q`, once, and on its track. -/
theorem burst_right (hi : (chainContract s₀ m strict).Inv s) (hmem : m ∈ s.burst q) :
    ∃ name, q = some name ∧ name.kind = .rx ∧ (s.held (.ring name)).count m = 1 ∧
      (∀ name' ≠ name, (s.held (.ring name')).count m = 0) ∧ s.owner m = none ∧
      OnTrack (s₀.chainOf m) (s.pktMeta m) (s.decisions m) := by
  cases q with
  | none => exact absurd hmem List.not_mem_nil
  | some name =>
    have hpos : 0 < (s.held (.ring name)).count m :=
      List.count_pos_iff.mpr (List.mem_of_mem_take hmem)
    rcases hi.2.2 with hoff | ⟨name₀, hkind, hone, hother, hrest⟩
    · rw [hoff] at hpos
      cases hpos
    · obtain rfl : name = name₀ := by
        by_contra hne
        rw [hother name hne] at hpos
        cases hpos
      exact ⟨name, rfl, hkind, hone, hother, hrest⟩

omit [DecidableEq ι] in
theorem Plane.Spot.of_nobody (hs : s.Spot w m chain none) (ho : s.owner m ≠ some w) :
    ∀ b, (s.mgrs w).copies m b = 0 := by
  rcases hs with hs | ⟨-, i, x, hs, -⟩
  · exact hs.1
  · exact absurd (hs.2.2 x rfl).1 ho

omit [DecidableEq ι] in
theorem dequeueBurst_batch (q : Plane ι → Option RingName)
    (hs : s.Spot w m (s₀.chainOf m) none) :
    (chainContract s₀ m strict).Holds w (fun pkts s' => s'.Batch w m (s₀.chainOf m)
      (fun x => OnTrack (s₀.chainOf m) x.1 x.2) pkts) (rteRingDequeueBurst w q) s := by
  refine Contract.holds_access fun s' hr hi _ => ⟨fun _ => trivial, ?_⟩
  have hs' := hr.spot hs
  by_cases hmem : m ∈ s'.burst (q s')
  · obtain ⟨name, hq, -, hone, hother, ho, ht⟩ := burst_right hi hmem
    rw [hq] at hmem ⊢
    have hsplit : (s'.held (.ring name)).count m =
        (s'.burst (some name)).count m + ((s'.held (.ring name)).drop packetReadSize).count m := by
      conv_lhs => rw [← List.take_append_drop packetReadSize (s'.held (.ring name))]
      exact List.count_append
    have hpos := List.count_pos_iff.mpr hmem
    have howner : (s'.dequeueBurst w (some name)).owner m = some w := if_pos hmem
    have hoff : ∀ name', ((s'.dequeueBurst w (some name)).held (.ring name')).count m = 0 := by
      intro name'
      by_cases hname : name' = name
      · subst hname
        have hdrop : (s'.dequeueBurst w (some name')).held (.ring name') =
            (s'.held (.ring name')).drop packetReadSize := by
          unfold Plane.held Plane.dequeueBurst
          dsimp only
          rw [if_pos rfl]
          cases s'.tables.rings name' with
          | none => rfl
          | some queued => rfl
        rw [hdrop]
        omega
      · have hkeep : (s'.dequeueBurst w (some name)).held (.ring name') =
            s'.held (.ring name') := by
          unfold Plane.held Plane.dequeueBurst
          dsimp only
          rw [if_neg (by simpa using Ne.symm hname)]
        rw [hkeep]
        exact hother name' hname
    refine ⟨⟨hi.1, hi.2.1, .inl hoff⟩, fun v _ => ⟨rfl, fun h => ?_, fun _ hd => ?_⟩,
      .inr ⟨by omega, (s'.pktMeta m, s'.decisions m), ⟨hs'.of_nobody (by simp [ho]), ?_⟩, ht⟩⟩
    · exact absurd (h.symm.trans ho) nofun
    · exact absurd (ht.taken.symm.trans hd) (ServiceChain.take_route_ne ht.le)
    · rintro _ ⟨⟩
      exact ⟨howner, rfl, rfl⟩
  · have hsame := SameFor.dequeueBurst s' w hmem
    refine ⟨hsame.inv hi, fun v _ => hsame.rely _ (congrFun hsame.mgrs v), .inl ⟨hmem, ?_⟩⟩
    exact (hsame.rely _ (congrFun hsame.mgrs w)).spot hs'

omit [DecidableEq ι] in
theorem dequeueTx_other (htrav : s₀.Traversable m) (nf : Nat)
    (hs : s.Spot w m (s₀.chainOf m) none) :
    (chainContract s₀ m strict).Holds w
      (fun pkts s' => m ∉ pkts ∧ s'.Spot w m (s₀.chainOf m) none)
      (rteRingDequeueBurst w fun s => (s.tables.nfs nf).txQ) s := by
  refine Contract.holds_access fun s' hr hi _ => ⟨fun _ => trivial, ?_⟩
  have hnot : m ∉ s'.burst (s'.tables.nfs nf).txQ := fun hmem => by
    obtain ⟨name, hq, hkind, -⟩ := burst_right hi hmem
    have htx := (wired_of_world htrav hi.1 nf).tx name (by rw [hq]; rfl)
    rw [hkind] at htx
    cases htx
  have hsame := SameFor.dequeueBurst s' w hnot
  refine ⟨hsame.inv hi, fun v _ => hsame.rely _ (congrFun hsame.mgrs v), hnot, ?_⟩
  exact (hsame.rely _ (congrFun hsame.mgrs w)).spot (hr.spot hs)

end Bursts

/-! ## Rounds -/

section Rounds

variable {pkts : List Nat}

omit [DecidableEq ι] in
theorem quietFor_handlePackets (nf : Nat) (handler : PktHandler) (h : m ∉ pkts) :
    (handlePackets nf handler pkts : PktProg ι (List Nat)).Steps (QuietFor m) := by
  induction pkts with
  | nil => trivial
  | cons pkt pkts ih =>
    obtain ⟨hne, hpkts⟩ := List.ne_and_not_mem_of_not_mem_cons h
    refine (quietFor_setMeta hne.symm _).bind fun _ => ?_
    split
    · exact (ih hpkts).bind fun _ => Prog.steps_ret _
    · exact (quietFor_tally nf _).bind fun _ => ih hpkts

omit [DecidableEq ι] in
theorem handlePackets_own (nf : Nat) (handler : NextHandler m)
    {x : OnvmPktMeta × List ChainEntry} (hs : s.Hand w m (some x))
    (ht : OnTrack (s₀.chainOf m) x.1 x.2) (hcount : pkts.count m = 1) :
    (chainContract s₀ m strict).Holds w
      (fun _ s' => ∃ x, s'.Hand w m (some x) ∧ Returned (s₀.chainOf m) x)
      (handlePackets nf handler.toPktHandler pkts) s := by
  have htrack : ∀ y, OnTrack (s₀.chainOf m) (handler.act m y) x.2 ↔
      OnTrack (s₀.chainOf m) y x.2 := by
    intro y
    have hindex := (handler.next y).2
    constructor
    · exact fun h => ⟨hindex ▸ h.pos, hindex ▸ h.le, hindex ▸ h.taken⟩
    · exact fun h => ⟨hindex ▸ h.pos, hindex ▸ h.le, hindex ▸ h.taken⟩
  induction pkts generalizing s with
  | nil => cases hcount
  | cons pkt pkts ih =>
    by_cases hpkt : pkt = m
    · subst hpkt
      rw [List.count_cons_self] at hcount
      have hpkts : pkt ∉ pkts := List.count_eq_zero.mp (by omega)
      apply Contract.Holds.bind
      refine holds_ownMeta hs.2 (ht.taken ▸ List.take_prefix _ _) fun s₁ s' h₁ hk₁ => ?_
      have hs₁ := hs.of_mgrs h₁ hk₁
      have hx : Returned (s₀.chainOf pkt) (handler.act pkt x.1, x.2) :=
        ⟨(htrack x.1).mpr ht, (handler.next x.1).1⟩
      have hrest := quietFor_handlePackets (ι := ι) nf handler.toPktHandler hpkts
      split
      · exact holds_quiet (hrest.bind fun _ => Prog.steps_ret _) fun _ _ h => ⟨_, h.hand hs₁, hx⟩
      · exact holds_quiet ((quietFor_tally nf _).bind fun _ => hrest)
          fun _ _ h => ⟨_, h.hand hs₁, hx⟩
    · rw [List.count_cons_of_ne hpkt] at hcount
      refine holds_bind_quiet (quietFor_setMeta hpkt _) fun _ s₁ h₁ => ?_
      have hs₁ := h₁.hand hs
      split
      · exact Contract.Holds.bind (ih hs₁ hcount)
      · exact holds_bind_quiet (quietFor_tally nf _) fun _ s₂ h₂ => ih (h₂.hand hs₁) hcount

omit [DecidableEq ι] in
theorem dequeuePackets_batch (nf : Nat) (handler : NextHandler m)
    (hs : s.Spot w m (s₀.chainOf m) none) :
    (chainContract s₀ m strict).Holds w
      (fun pkts s' => s'.Batch w m (s₀.chainOf m) (Returned (s₀.chainOf m)) pkts)
      (onvmNflibDequeuePackets w nf handler.toPktHandler) s := by
  apply Contract.Holds.bind
  refine (dequeueBurst_batch _ hs).mono fun pkts s₁ h₁ => ?_
  split
  · exact .inl ⟨List.not_mem_nil, h₁.forget⟩
  · apply Contract.Holds.bind
    rcases h₁ with ⟨hnot, hs₁⟩ | ⟨hcount, x, hs₁, ht⟩
    · exact holds_quiet (quietFor_handlePackets nf _ hnot) fun _ _ h => .inl ⟨hnot, h.spot hs₁⟩
    · exact (handlePackets_own nf handler hs₁ ht hcount).mono fun _ s₂ h₂ => .inr ⟨hcount, h₂⟩

theorem mainLoopRound_spot (htrav : s₀.Traversable m) (nf : Nat) (handler : NextHandler m)
    (hs : s.Spot w m (s₀.chainOf m) none) :
    (chainContract s₀ m strict).Holds w (fun _ s' => s'.Spot w m (s₀.chainOf m) none)
      (mainLoopRound w nf handler.toPktHandler) s := by
  apply Contract.Holds.bind
  refine (dequeuePackets_batch nf handler hs).mono fun pkts s₁ h₁ => ?_
  apply Contract.Holds.bind
  refine (txBatch_spot htrav nf h₁).mono fun _ s₂ hs₂ => ?_
  apply Contract.Holds.bind
  refine (enqueueTxThread_spot nf hs₂).mono fun _ s₃ hs₃ => ?_
  exact flushAllNfs_spot htrav (some nf) hs₃

theorem txNf_spot (htrav : s₀.Traversable m) (nf : Nat) (hs : s.Spot w m (s₀.chainOf m) none) :
    (chainContract s₀ m strict).Holds w (fun _ s' => s'.Spot w m (s₀.chainOf m) none)
      (txNf w nf) s := by
  refine Contract.Holds.bind (holds_readFor nofun fun s₁ h₁ _ => ?_)
  have hs₁ := h₁.spot hs
  split
  · exact hs₁
  · apply Contract.Holds.bind
    refine (dequeueTx_other htrav nf hs₁).mono fun pkts s₂ h₂ => ?_
    exact txBatch_spot htrav nf (.inl h₂)

theorem txRound_spot (htrav : s₀.Traversable m) (nfs : List Nat)
    (hs : s.Spot w m (s₀.chainOf m) none) :
    (chainContract s₀ m strict).Holds w (fun _ s' => s'.Spot w m (s₀.chainOf m) none)
      (txRound w nfs) s := by
  apply Contract.Holds.bind
  refine (Contract.Holds.each (J := fun _ (s : Plane ι) => s.Spot w m (s₀.chainOf m) none)
    (fun nf _ _ hs => txNf_spot htrav nf hs) hs).mono fun _ s₁ hs₁ => ?_
  apply Contract.Holds.bind
  refine Contract.Holds.bind (holds_readFor nofun fun s₂ h₂ _ => ?_)
  refine (Contract.Holds.each (J := fun _ (s : Plane ι) => s.Spot w m (s₀.chainOf m) none)
    (fun port _ _ hs => flushPortQueue_spot port hs) (h₂.spot hs₁)).mono fun _ s₃ hs₃ => ?_
  exact flushAllNfs_spot htrav none hs₃

omit [DecidableEq ι] in
theorem receive_batch (hs : s.Spot w m (s₀.chainOf m) none) (pkts : List Nat) :
    (chainContract s₀ m strict).Holds w
      (fun pkts s' => s'.Batch w m (s₀.chainOf m) (fun x => x.2 = []) pkts)
      (.access .tau (·.arrivals pkts) (·.receive w pkts)) s := by
  refine Contract.holds_access fun s' hr hi _ => ⟨fun _ => trivial, ?_⟩
  have hs' := hr.spot hs
  by_cases hmem : m ∈ s'.arrivals pkts
  · have hnew := List.of_mem_filter (List.mem_of_mem_take hmem)
    obtain ⟨⟨-, ho⟩, hd⟩ : (s'.seen m = false ∧ s'.owner m = none) ∧ s'.decisions m = [] := by
      simpa using hnew
    have hoff : ∀ name, (s'.held (.ring name)).count m = 0 := by
      rcases hi.2.2 with hoff | ⟨_, -, -, -, -, ht⟩
      · exact hoff
      · have htaken := congrArg List.length (ht.taken.symm.trans hd)
        rw [List.length_take, ServiceChain.length_route] at htaken
        have hpos := ht.pos
        have hnil : ([] : List ChainEntry).length = 0 := rfl
        omega
    have hnodup : (s'.arrivals pkts).Nodup :=
      ((List.nodup_dedup pkts).filter _).sublist (List.take_sublist _ _)
    refine ⟨⟨hi.1, hi.2.1, .inl hoff⟩, fun v _ => ⟨rfl, fun h => ?_, fun _ hroute => ?_⟩,
      .inr ⟨List.count_eq_one_of_mem hnodup hmem, (s'.pktMeta m, []),
        ⟨hs'.of_nobody (by simp [ho]), ?_⟩, rfl⟩⟩
    · exact absurd (h.symm.trans ho) nofun
    · have hlen := congrArg List.length (hroute.symm.trans hd)
      rw [ServiceChain.length_route] at hlen
      cases hlen
    · rintro _ ⟨⟩
      exact ⟨if_pos hmem, rfl, hd⟩
  · have hsame := SameFor.receive s' w hmem
    refine ⟨hsame.inv hi, fun v _ => hsame.rely _ (congrFun hsame.mgrs v), .inl ⟨hmem, ?_⟩⟩
    exact (hsame.rely _ (congrFun hsame.mgrs w)).spot hs'

theorem rxRound_spot (htrav : s₀.Traversable m) (pkts : List Nat)
    (hs : s.Spot w m (s₀.chainOf m) none) :
    (chainContract s₀ m strict).Holds w (fun _ s' => s'.Spot w m (s₀.chainOf m) none)
      (rxRound w pkts) s := by
  apply Contract.Holds.bind
  refine (receive_batch hs pkts).mono fun pkts s₁ h₁ => ?_
  split
  · exact h₁.forget
  refine Contract.Holds.bind (holds_readFor nofun fun s₂ h₂ _ => ?_)
  have hbatch := h₁.rely h₂
  split
  · rcases hbatch with ⟨hnot, hs₂⟩ | ⟨hcount, x, hs₂, -⟩
    · exact holds_quiet (quietFor_dropAll hnot) fun _ _ h => h.spot hs₂
    · refine (dropAll_holds hcount.le fun _ => (hs₂.2 x rfl).1).mono fun _ s₃ h₃ => ?_
      exact .inl ⟨h₃.symm ▸ hs₂.1, nofun⟩
  · exact rxBatch_spot htrav hbatch

/-- Every round keeps the contract. -/
theorem round_spot (htrav : s₀.Traversable m) (r : Round m)
    (hs : s.Spot w m (s₀.chainOf m) none) :
    (chainContract s₀ m strict).Holds w (fun _ s' => s'.Spot w m (s₀.chainOf m) none)
      (r.body w) s := by
  cases r with
  | rx pkts => exact rxRound_spot htrav pkts hs
  | nf nfId handler => exact mainLoopRound_spot htrav nfId handler hs
  | tx nfs => exact txRound_spot htrav nfs hs

end Rounds

/-! ## Runs -/

/-- The NICs, the counters and everything about other packets change, but not the tables. -/
def Plane.beside (m : Nat) (s e : Plane ι) : Plane ι :=
  { e with
    tables := s.tables
    rss := s.rss
    flow := s.flow
    defaultChain := s.defaultChain
    portInit := s.portInit
    mgrs := s.mgrs
    pktMeta := Function.update e.pktMeta m (s.pktMeta m)
    seen := Function.update e.seen m (s.seen m)
    owner := Function.update e.owner m (s.owner m)
    decisions := Function.update e.decisions m (s.decisions m) }

omit [DecidableEq ι] in
theorem sameFor_beside (m : Nat) (s e : Plane ι) : SameFor m s (s.beside m e) :=
  ⟨⟨rfl, Function.update_self .., Function.update_self .., Function.update_self ..,
    fun _ => rfl⟩, rfl⟩

structure Plane.Awaits (s : Plane ι) (m : Nat) : Prop where
  owner : s.owner m = none
  decisions : s.decisions m = []
  bufs : ∀ w b, m ∉ s.held (.buf w b)
  rings : ∀ name, m ∉ s.held (.ring name)

def Plane.AlongRun (s : Plane ι) (m : Nat) (P : ι → Access → Plane ι → Prop)
    (es : List (Turn ι (Round m) (Plane ι))) : Prop :=
  Along (Threads.turn (Plane.beside m) Round.body) (Threads.OnTick P) s.workers es

/-- The decisions taken for the packet are the entries of its chain in turn, then DROP. -/
def RouteFollowed (s : Plane ι) (m : Nat) (es : List (Turn ι (Round m) (Plane ι))) : Prop :=
  (exec (Threads.turn (Plane.beside m) Round.body) s.workers es).shared.decisions m <+:
    (s.chainOf m).route

section Runs

variable {es : List (Turn ι (Round m) (Plane ι))}

theorem run_follows (strict : Prop) (htrav : s₀.Traversable m) (hnew : s₀.Awaits m)
    (hc : s₀.AlongRun m (fun w a s => StaysInBuffer m w a s ∧ (strict → ChainGoesOn m w a s)) es) :
    s₀.AlongRun m (fun w a s => strict → TouchesOwn m w a s) es ∧ RouteFollowed s₀ m es := by
  let C := chainContract s₀ m strict
  have hbody : ∀ w (r : Round m) s, C.Inv s → C.Rest w s →
      C.Holds w (fun _ => C.Rest w) (r.body w) s := fun w r s _ hr => round_spot htrav r hr
  have henv : ∀ s e : Plane ι, C.Inv s → C.Inv (s.beside m e) ∧ ∀ w, C.Rely w s (s.beside m e) := by
    intro s e hi
    have hsame := sameFor_beside m s e
    exact ⟨hsame.inv hi, fun w => hsame.rely _ rfl⟩
  have hstart : C.InForce s₀.workers := by
    refine Contract.InForce.start ⟨rfl, ?_, .inl fun name => ?_⟩ fun w => .inl ⟨fun b => ?_, nofun⟩
    · rw [hnew.decisions]
      exact List.nil_prefix
    · exact List.count_eq_zero.mpr (hnew.rings name)
    · exact List.count_eq_zero.mpr (hnew.bufs w b)
  obtain ⟨hgoal, hforce⟩ := Contract.threads_along hbody henv hstart hc
  exact ⟨hgoal, hforce.inv.2.1⟩

/-- **Service chains.** As long as `onvm_pkt_process_next_action` never fills the buffer it
puts the packet in, the packet follows its chain to the end; and as long as the chain does
not end there, nobody touches the metadata of the packet but the worker that has it. -/
theorem chain_followed (s : Plane ι) (m : Nat) (es : List (Turn ι (Round m) (Plane ι)))
    (htrav : s.Traversable m) (hnew : s.Awaits m) (hstays : s.AlongRun m (StaysInBuffer m) es) :
    RouteFollowed s m es ∧
      (s.AlongRun m (ChainGoesOn m) es → s.AlongRun m (TouchesOwn m) es) := by
  constructor
  · have hcond := hstays.mono fun t e h => h.mono (Q := fun w a s =>
      StaysInBuffer m w a s ∧ (False → ChainGoesOn m w a s)) fun _ _ _ h => ⟨h, False.elim⟩
    exact (run_follows False htrav hnew hcond).2
  · intro hgoes
    have hcond : s.AlongRun m
        (fun w a s => StaysInBuffer m w a s ∧ (True → ChainGoesOn m w a s)) es := by
      refine (hstays.and hgoes).mono fun t e h => ?_
      cases e with
      | env | call => trivial
      | tick w => exact fun a ha => ⟨h.1 a ha, fun _ => h.2 a ha⟩
    have htouch := (run_follows True htrav hnew hcond).1
    exact htouch.mono fun t e h => h.mono fun _ _ _ h => h trivial

end Runs

/-! ## Two NFs -/

/-- NF 1 of service 1 and NF 2 of service 2 run. -/
def twoNfs : Tables :=
  { Tables.bootSingle with
    nfs := fun i => if i = 1 ∨ i = 2 then
      { instanceId := i, serviceId := i, status := .running, rxQ := some ⟨.rx, i⟩ } else {}
    numNfs := 2
    nfPerServiceCount := fun serviceId => if serviceId = 1 ∨ serviceId = 2 then 1 else 0
    services := fun serviceId _ => serviceId
    rings := fun name => if name.kind = .rx then some [] else none }

/-- Worker 0 is an RX thread and the others are NFs. The default chain is for services 1
to `n`. -/
def viaServices (n : Nat) : Plane Nat :=
  { Plane.fresh twoNfs (fun w => if w = 0 then rxMgr else nfMgr) with
    defaultChain := ⟨fun k => ⟨actionTonf, k⟩, n⟩ }

/-- In the buffer of NF 1 for NF 2 there are 31 packets. -/
def almostFlushed : Plane Nat := (viaServices 2).setBuf 1 (.nfRx 2) (List.range' 100 31)

theorem viaServices_traversable {n : Nat} (hpos : 0 < n) (hn : n ≤ 2) :
    (viaServices n).Traversable 5 := by
  refine ⟨?_, fun k hk hkn => ⟨rfl, ?_⟩, fun h => ?_, ?_⟩
  · exact Nat.lt_of_le_of_lt hn (by decide)
  · have hserved : ∀ k, 1 ≤ k → k ≤ 2 → ¬ (viaServices 2).Unserved k 5 := by
      intro k hk hk2
      obtain rfl | rfl : k = 1 ∨ k = 2 := by omega
      · decide
      · decide
    exact hserved k hk (Nat.le_trans hkn hn)
  · exact absurd h (Nat.pos_iff_ne_zero.mp hpos)
  · intro i
    show Wired (if i = 1 ∨ i = 2 then _ else _)
    split
    · exact ⟨by rintro _ ⟨⟩; rfl, nofun, nofun⟩
    · exact ⟨nofun, nofun, nofun⟩

theorem viaServices_awaits (n : Nat) : (viaServices n).Awaits 5 := by
  refine ⟨rfl, rfl, fun w b => ?_, fun name => ?_⟩
  · unfold Plane.held viaServices Plane.fresh
    dsimp only
    by_cases hw : w = 0
    · rcases b with i | port | _ <;> simp [hw, rxMgr, QueueMgr.buf]
    · rcases b with i | port | _ <;> simp [hw, nfMgr, QueueMgr.buf]
  · unfold Plane.held viaServices Plane.fresh twoNfs
    dsimp only
    split <;> exact List.not_mem_nil

theorem almostFlushed_awaits : almostFlushed.Awaits 5 := by
  obtain ⟨ho, hd, hbufs, hrings⟩ := viaServices_awaits 2
  refine ⟨ho, hd, fun w b => ?_, hrings⟩
  unfold almostFlushed
  rw [Plane.held_setBuf rfl]
  by_cases hb : Place.buf w b = .buf 1 (.nfRx 2)
  · rw [hb, Function.update_self]
    decide
  · rw [Function.update_of_ne hb]
    exact hbufs w b

/-- It sets `ONVM_NF_ACTION_NEXT` for the packet. -/
def setsNext (m : Nat) : NextHandler m where
  act pkt x := if pkt = m then { x with action := actionNext } else x
  ret _ := 0
  next x := by simp

/-- The RX thread receives packet 5 and puts it on the ring of NF 1. -/
def arrives : List (Turn Nat (Round 5) (Plane Nat)) :=
  .call 0 (.rx [5]) :: List.replicate 25 (.tick 0)

/-- The first steps of a round of an NF. -/
def works (nf n : Nat) : List (Turn Nat (Round 5) (Plane Nat)) :=
  .call nf (.nf nf (setsNext 5)) :: List.replicate n (.tick nf)

/-- From the RX thread to NF 1 and on to the ring of NF 2. -/
theorem chain_followed_twoNfs :
    RouteFollowed (viaServices 2) 5 (arrives ++ works 1 22) ∧
      (viaServices 2).AlongRun 5 (TouchesOwn 5) (arrives ++ works 1 22) := by
  obtain ⟨hroute, htouch⟩ := chain_followed (viaServices 2) 5 (arrives ++ works 1 22)
    (viaServices_traversable (by decide) (by decide)) (viaServices_awaits 2)
    (by unfold Plane.AlongRun; decide +kernel)
  exact ⟨hroute, htouch (by unfold Plane.AlongRun; decide +kernel)⟩

/-- With one entry, NF 1 frees the packet and increments its index. With two, NF 1 flushes
its buffer with the packet, and NF 2 takes the second entry again before NF 1 increments
the index. -/
theorem chain_index_late :
    (¬ ∀ (s : Plane Nat) es, s.Traversable 5 → s.Awaits 5 → s.AlongRun 5 (TouchesOwn 5) es) ∧
      ¬ ∀ (s : Plane Nat) es, s.Traversable 5 → s.Awaits 5 → RouteFollowed s 5 es := by
  constructor
  · intro h
    have htouch := h (viaServices 1) (arrives ++ works 1 22)
      (viaServices_traversable (by decide) (by decide)) (viaServices_awaits 1)
    revert htouch
    unfold Plane.AlongRun
    decide +kernel
  · intro h
    obtain ⟨hshort, hentry, hempty, hwired⟩ :=
      viaServices_traversable (n := 2) (by decide) (by decide)
    have hroute := h almostFlushed (arrives ++ works 1 19 ++ works 2 194)
      ⟨hshort, hentry, hempty, hwired⟩ almostFlushed_awaits
    revert hroute
    unfold RouteFollowed
    decide +kernel

end Onvm.Pkt

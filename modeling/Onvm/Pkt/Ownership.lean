import Onvm.Lib.Observe
import Onvm.Mgr.Drain
import Onvm.Pkt.Chain

/-!
# Who has a packet

The whole packet path at once: the RX threads, the TX threads and the NFs, with any
packet handlers, service chains and actions, while the manager starts and stops NFs.
Between its rounds an NF may make packets and give packets back to the library; if it
gives back only what it has, then whatever they all do and in whatever order, a packet
is in the hand of one worker, or on one ring, or was sent through one port, or was
freed, once; and what was freed or sent nobody frees, sends or queues again
(`packets_in_custody`).
-/

namespace Onvm.Pkt

open Onvm.Lib Onvm.Nflib Onvm.Mgr

variable {ι : Type}

/-! ## The manager -/

inductive Manage where
  | msg (msg : Tables.Msg)
  | family (i parent childrenCnt : Nat)
  deriving DecidableEq, Repr

namespace Plane

/-- The packets that a step of the manager frees. -/
def discards (s : Plane ι) : Manage → List Nat
  | .msg msg => if s.tables.exit.isSome then [] else s.tables.leftOver msg
  | .family .. => []

def manage (s : Plane ι) (e : Manage) : Plane ι :=
  { s with
    freed := s.freed ++ s.discards e
    tables := s.tables.onEvent <| match e with
      | .msg msg => .msg msg
      | .family i parent childrenCnt => .family i parent childrenCnt }

end Plane

/-! ## Custody -/

inductive Shelf where
  | ring (name : RingName)
  | port (port : Nat)
  /-- The pool of free mbufs. -/
  | pool
  deriving DecidableEq, Repr

namespace Plane

/-- The packets that are on a ring, were sent through a port, or were freed. -/
def shelved (s : Plane ι) : Shelf → List Nat
  | .ring name => s.tables.queued name
  | .port port => s.nic port
  | .pool => s.freed

/-- A packet is on one shelf, unless a worker has it or nobody has put it anywhere. -/
structure InOrder (s : Plane ι) (m : Nat) : Prop where
  once : Nowhere s.shelved m ∨ AtOne s.shelved m
  aside : s.owner m ≠ none → Nowhere s.shelved m
  unseen : s.seen m = false → s.owner m = none ∧ Nowhere s.shelved m

def HasLeft (s : Plane ι) (m : Nat) : Prop := m ∈ s.freed ∨ ∃ port, m ∈ s.nic port

/-- How often the packet was freed, and sent through each port. -/
def exits (s : Plane ι) (m : Nat) : Nat × (Nat → Nat) :=
  (s.freed.count m, fun port => (s.nic port).count m)

/-- The packet is in no buffer of the worker, which knows that it has it if `mine`. -/
def InHand (s : Plane ι) (w : ι) (m : Nat) (mine : Bool) : Prop :=
  (∀ b, (s.mgrs w).copies m b = 0) ∧ (mine = true → s.owner m = some w)

structure InBuffer (s : Plane ι) (w : ι) (m : Nat) (b : Buf) : Prop where
  here : (s.mgrs w).copies m b = 1
  other : ∀ b' ≠ b, (s.mgrs w).copies m b' = 0
  owner : s.owner m = some w

/-- Where the packet is with the worker between the steps for other packets. If the
worker knows nothing of it, it may be in a buffer. -/
def Lies (s : Plane ι) (w : ι) (m : Nat) (mine : Bool) : Prop :=
  s.InHand w m mine ∨ mine = false ∧ ∃ b, s.InBuffer w m b

end Plane

/-- The worker is about to route packet `pkt`. If that is packet `m`, it has it. -/
structure Plane.Routes (s : Plane ι) (w : ι) (m pkt : Nat) (mine : Bool) : Prop where
  lies : s.Lies w m mine
  own : pkt = m → mine = true

/-- What is known of packet `m` when packet `pkt` was routed. -/
def knownAfter (m pkt : Nat) (mine : Bool) : Bool := if pkt = m then false else mine

/-- What a worker relies on: nobody else touches its buffers or the packets it has. -/
def CustodyRely (m : Nat) (w : ι) (s s' : Plane ι) : Prop :=
  s'.mgrs w = s.mgrs w ∧ (s.owner m = some w → s'.owner m = some w)

/-- A packet that has left does not come back. -/
def StaysOut (m : Nat) (s s' : Plane ι) : Prop :=
  s.HasLeft m → s'.HasLeft m ∧ s'.exits m = s.exits m

section Rely

variable {m : Nat} {w : ι} {mine : Bool} {s s' s'' : Plane ι}

theorem CustodyRely.trans (h : CustodyRely m w s s') (h' : CustodyRely m w s' s'') :
    CustodyRely m w s s'' :=
  ⟨h'.1.trans h.1, fun ho => h'.2 (h.2 ho)⟩

theorem StaysOut.trans (h : StaysOut m s s') (h' : StaysOut m s' s'') : StaysOut m s s'' := by
  intro hleft
  obtain ⟨hleft₁, he₁⟩ := h hleft
  obtain ⟨hleft₂, he₂⟩ := h' hleft₁
  exact ⟨hleft₂, he₂.trans he₁⟩

theorem CustodyRely.inHand (h : CustodyRely m w s s') (hs : s.InHand w m mine) :
    s'.InHand w m mine :=
  ⟨h.1.symm ▸ hs.1, fun hm => h.2 (hs.2 hm)⟩

theorem CustodyRely.inBuffer {b : Buf} (h : CustodyRely m w s s') (hs : s.InBuffer w m b) :
    s'.InBuffer w m b :=
  ⟨h.1.symm ▸ hs.here, h.1.symm ▸ hs.other, h.2 hs.owner⟩

theorem CustodyRely.lies (h : CustodyRely m w s s') (hs : s.Lies w m mine) : s'.Lies w m mine := by
  rcases hs with hs | ⟨rfl, b, hs⟩
  · exact .inl (h.inHand hs)
  · exact .inr ⟨rfl, b, h.inBuffer hs⟩

theorem CustodyRely.routes {pkt : Nat} (h : CustodyRely m w s s') (hs : s.Routes w m pkt mine) :
    s'.Routes w m pkt mine :=
  ⟨h.lies hs.lies, hs.own⟩

theorem Plane.Lies.forget (hs : s.Lies w m mine) : s.Lies w m false := by
  rcases hs with hs | ⟨rfl, hs⟩
  · exact .inl ⟨hs.1, nofun⟩
  · exact .inr ⟨rfl, hs⟩

theorem Plane.Lies.after (hs : s.Lies w m mine) (pkt : Nat) :
    s.Lies w m (knownAfter m pkt mine) := by
  unfold knownAfter
  split
  · exact hs.forget
  · exact hs

theorem Plane.InOrder.away (hi : s.InOrder m) (ho : s.owner m = some w) : Nowhere s.shelved m :=
  hi.aside (by simp [ho])

theorem Plane.InOrder.seen (hi : s.InOrder m) (ho : s.owner m = some w) : s.seen m = true := by
  by_contra hno
  have hnone := (hi.unseen (by simpa using hno)).1
  rw [ho] at hnone
  cases hnone

theorem Plane.InOrder.free_of_mem {p : Shelf} (hi : s.InOrder m) (hp : m ∈ s.shelved p) :
    s.owner m = none := by
  by_contra hne
  exact hi.aside hne p hp

theorem Plane.InOrder.seen_of_mem {p : Shelf} (hi : s.InOrder m) (hp : m ∈ s.shelved p) :
    s.seen m = true := by
  by_contra hno
  exact (hi.unseen (by simpa using hno)).2 p hp

theorem Plane.InOrder.of_nowhere (h : Nowhere s.shelved m) (hs : s.seen m = true) :
    s.InOrder m := by
  refine ⟨.inl h, fun _ => h, fun hno => ?_⟩
  rw [hs] at hno
  cases hno

theorem Plane.not_left_of_nowhere (h : Nowhere s.shelved m) : ¬ s.HasLeft m := by
  rintro (hm | ⟨port, hm⟩)
  · exact h .pool hm
  · exact h (.port port) hm

theorem Plane.InOrder.not_left (hi : s.InOrder m) {name : RingName}
    (hring : m ∈ s.shelved (.ring name)) : ¬ s.HasLeft m := by
  have hone := hi.once.resolve_left fun hno => hno _ hring
  rintro (hm | ⟨port, hm⟩)
  · have := hone.unique (p := .ring name) (q := .pool) hring hm
    cases this
  · have := hone.unique (p := .ring name) (q := .port port) hring hm
    cases this

end Rely

/-- The contract of the workers about packet `m`, with an observer who relies on packets
staying out. -/
def custody (ι : Type) (m : Nat) : Contract (Option ι) Access (Plane ι) where
  Inv s := s.InOrder m
  Rely
    | none => StaysOut m
    | some w => CustodyRely m w
  Cond _ _ _ := True
  Goal _ _ _ := True
  Rest
    | none => fun _ => True
    | some w => fun s => s.Lies w m false
  refl
    | none => fun _ h => ⟨h, rfl⟩
    | some _ => fun _ => ⟨rfl, id⟩
  trans {w} :=
    match w with
    | none => StaysOut.trans
    | some _ => CustodyRely.trans
  stable {w} :=
    match w with
    | none => fun _ _ => trivial
    | some _ => CustodyRely.lies

variable {m : Nat} {w : ι} {mine : Bool} {s s' : Plane ι}

/-! ## Steps for other packets -/

/-- Nothing about packet `m` differs but perhaps the local buffers, the metadata and the
decisions. -/
structure SamePlace (m : Nat) (s s' : Plane ι) : Prop where
  seen : s'.seen m = s.seen m
  owner : s'.owner m = s.owner m
  shelved : ∀ p, (s'.shelved p).count m = (s.shelved p).count m

namespace SamePlace

theorem mem (h : SamePlace m s s') (p : Shelf) : m ∈ s'.shelved p ↔ m ∈ s.shelved p := by
  rw [← List.count_pos_iff, ← List.count_pos_iff, h.shelved]

theorem nowhere (h : SamePlace m s s') (hn : Nowhere s.shelved m) : Nowhere s'.shelved m :=
  fun p hp => hn p ((h.mem p).mp hp)

theorem inOrder (h : SamePlace m s s') (hi : s.InOrder m) : s'.InOrder m where
  once := by
    rcases hi.once with hn | ⟨p, hone, hother⟩
    · exact .inl (h.nowhere hn)
    · exact .inr ⟨p, (h.shelved p).trans hone, fun q hq hm => hother q hq ((h.mem q).mp hm)⟩
  aside ho := h.nowhere (hi.aside (h.owner ▸ ho))
  unseen hs := by
    obtain ⟨ho, hn⟩ := hi.unseen (h.seen ▸ hs)
    exact ⟨h.owner.trans ho, h.nowhere hn⟩

theorem staysOut (h : SamePlace m s s') : StaysOut m s s' := by
  intro hleft
  refine ⟨hleft.imp (h.mem .pool).mpr fun ⟨port, hm⟩ => ⟨port, (h.mem (.port port)).mpr hm⟩, ?_⟩
  exact Prod.ext (h.shelved .pool) (funext fun port => h.shelved (.port port))

theorem rely (h : SamePlace m s s') (hm : s'.mgrs w = s.mgrs w) : CustodyRely m w s s' :=
  ⟨hm, fun ho => h.owner.trans ho⟩

end SamePlace

/-- Nothing about packet `m` differs, and no local buffer does. -/
structure Unmoved (m : Nat) (s s' : Plane ι) : Prop extends SamePlace m s s' where
  mgrs : s'.mgrs = s.mgrs

theorem Unmoved.relied (h : Unmoved m s s') (v : Option ι) : (custody ι m).Rely v s s' := by
  cases v with
  | none => exact h.staysOut
  | some v => exact h.rely (congrFun h.mgrs v)

/-- A step that leaves packet `m` where it is. -/
def Unmoving (m : Nat) (_ : Access) (upd : Plane ι → Plane ι) : Prop := ∀ s, Unmoved m s (upd s)

theorem harmless_of_unmoving {v : Option ι} {a : Access} {upd : Plane ι → Plane ι}
    (h : Unmoving m a upd) : (custody ι m).Harmless v a upd :=
  fun s hi _ => ⟨trivial, (h s).inOrder hi, (h s).relied⟩

namespace Unmoved

variable {pkt : Nat} {pkts : List Nat}

theorem of_eq (hm : s'.mgrs = s.mgrs) (ho : s'.owner = s.owner) (hs : s'.seen = s.seen)
    (ht : s'.tables = s.tables) (hn : s'.nic = s.nic) (hf : s'.freed = s.freed) :
    Unmoved m s s' := by
  refine ⟨⟨congrFun hs m, congrFun ho m, fun p => ?_⟩, hm⟩
  cases p with
  | ring name => simp only [Plane.shelved, ht]
  | port port => simp only [Plane.shelved, hn]
  | pool => simp only [Plane.shelved, hf]

theorem free (h : pkt ≠ m) (s : Plane ι) : Unmoved m s (s.free pkt) := by
  refine ⟨⟨rfl, by simp [Plane.free, Plane.disown, Ne.symm h], fun p => ?_⟩, rfl⟩
  cases p with
  | ring name => rfl
  | port port => rfl
  | pool =>
    show (s.freed ++ [pkt]).count m = s.freed.count m
    simp [h]

theorem enqueueBulk (h : m ∉ pkts) (s : Plane ι) (q : Option RingName) :
    Unmoved m s (s.enqueueBulk q pkts) := by
  unfold Plane.enqueueBulk
  split
  · refine ⟨⟨rfl, by simp [Plane.disown, h], fun p => ?_⟩, rfl⟩
    cases p with
    | port port => rfl
    | pool => rfl
    | ring name =>
      show (Option.getD (if q = some name then (s.tables.rings name).map (· ++ pkts)
        else s.tables.rings name) []).count m = ((s.tables.rings name).getD []).count m
      split
      · cases s.tables.rings name with
        | none => rfl
        | some queued => simp [List.count_eq_zero_of_not_mem h]
      · rfl
  · exact of_eq rfl rfl rfl rfl rfl rfl

theorem txBurst (s : Plane ι) (port : Nat) (hsent : m ∉ pkts.take (s.sends pkts)) :
    Unmoved m s (s.txBurst port pkts) := by
  refine ⟨⟨rfl, by simp [Plane.txBurst, Plane.disown, hsent], fun p => ?_⟩, rfl⟩
  cases p with
  | ring name => rfl
  | pool => rfl
  | port port' =>
    show (Function.update s.nic port (s.nic port ++ pkts.take (s.sends pkts)) port').count m =
      (s.nic port').count m
    by_cases hport : port' = port
    · rw [hport, Function.update_self, List.count_append, List.count_eq_zero_of_not_mem hsent]
      rfl
    · rw [Function.update_of_ne hport]

theorem receive (s : Plane ι) (w : ι) (h : m ∉ s.arrivals pkts) : Unmoved m s (s.receive w pkts) :=
  ⟨⟨if_neg h, if_neg h, fun p => by cases p <;> rfl⟩, rfl⟩

theorem dequeueBurst (s : Plane ι) (w : ι) {q : Option RingName} (h : m ∉ s.burst q) :
    Unmoved m s (s.dequeueBurst w q) := by
  refine ⟨⟨rfl, if_neg h, fun p => ?_⟩, rfl⟩
  cases p with
  | port port => rfl
  | pool => rfl
  | ring name =>
    show (Option.getD (if q = some name then (s.tables.rings name).map (·.drop packetReadSize)
      else s.tables.rings name) []).count m = ((s.tables.rings name).getD []).count m
    split
    · rename_i hq
      subst hq
      cases hring : s.tables.rings name with
      | none => rfl
      | some queued =>
        have hburst : s.burst (some name) = queued.take packetReadSize := by
          simp [Plane.burst, hring]
        rw [hburst] at h
        have hcount := List.count_eq_zero_of_not_mem h
        show (queued.drop packetReadSize).count m = queued.count m
        conv_rhs => rw [← List.take_append_drop packetReadSize queued, List.count_append, hcount]
        omega
    · rfl

end Unmoved

namespace Custody

section Unmoving

variable {pkt : Nat} {pkts : List Nat}

theorem unmoving_tally (nf : Nat) (f : NfStats → NfStats) :
    (tally nf f : PktProg ι Unit).Steps (Unmoving m) :=
  Prog.steps_access (fun _ => .of_eq rfl rfl rfl rfl rfl rfl) _

theorem unmoving_tallyPort (port : Nat) (f : TxStats → TxStats) :
    (Prog.write .tau (·.tallyPort port f) : PktProg ι Unit).Steps (Unmoving m) :=
  Prog.steps_access (fun _ => .of_eq rfl rfl rfl rfl rfl rfl) _

theorem unmoving_setMeta (pkt : Nat) (f : Plane ι → OnvmPktMeta → OnvmPktMeta) :
    (Prog.write (.touch pkt) fun s => s.setMeta pkt (f s) : PktProg ι Unit).Steps (Unmoving m) :=
  Prog.steps_access (fun _ => .of_eq rfl rfl rfl rfl rfl rfl) _

theorem unmoving_tallySource (sourceNf : Option Nat) (f : NfStats → NfStats) :
    (tallySource sourceNf f : PktProg ι Unit).Steps (Unmoving m) := by
  cases sourceNf with
  | none => trivial
  | some nf => exact unmoving_tally nf f

theorem unmoving_drop (h : pkt ≠ m) : (onvmPktDrop pkt : PktProg ι Nat).Steps (Unmoving m) :=
  Prog.steps_access (fun s => .free h s) _

theorem unmoving_dropAll (h : m ∉ pkts) : (dropAll pkts : PktProg ι Unit).Steps (Unmoving m) := by
  induction pkts with
  | nil => trivial
  | cons pkt pkts ih =>
    obtain ⟨hne, hpkts⟩ := List.ne_and_not_mem_of_not_mem_cons h
    exact ((unmoving_drop hne.symm).bind fun _ => Prog.steps_ret ()).bind fun _ => ih hpkts

theorem unmoving_enqueueBulk (q : Plane ι → Option RingName) (h : m ∉ pkts) :
    (rteRingEnqueueBulk q pkts).Steps (Unmoving m) :=
  Prog.steps_access (fun s => .enqueueBulk h s (q s)) _

theorem unmoving_settleNf (nfId : Nat) (sourceNf : Option Nat) {enqueued : Nat}
    (h : enqueued = 0 → m ∉ pkts) :
    (settleNf nfId sourceNf pkts enqueued : PktProg ι Unit).Steps (Unmoving m) := by
  unfold settleNf
  split
  · rename_i hzero
    exact (unmoving_dropAll (h hzero)).bind fun _ => (unmoving_tally _ _).bind fun _ =>
      unmoving_tallySource _ _
  · exact (unmoving_tally _ _).bind fun _ => unmoving_tallySource _ _

theorem unmoving_settleTx (nf : Nat) {enqueued : Nat} (h : enqueued = 0 → m ∉ pkts) :
    (settleTx nf pkts enqueued : PktProg ι Unit).Steps (Unmoving m) := by
  unfold settleTx
  split
  · rename_i hzero
    exact (unmoving_tally _ _).bind fun _ => unmoving_dropAll (h hzero)
  · exact unmoving_tally _ _

theorem unmoving_dropUnsent (port : Nat) {sent : Nat} (h : m ∉ pkts.drop sent) :
    (dropUnsent port pkts sent : PktProg ι Unit).Steps (Unmoving m) := by
  unfold dropUnsent
  split
  · exact (unmoving_dropAll h).bind fun _ => unmoving_tallyPort port _
  · trivial

theorem unmoving_setNext (pkt : Nat) (sc : ServiceChain) :
    (setNext pkt sc : PktProg ι Unit).Steps (Unmoving m) :=
  (unmoving_setMeta pkt _).bind fun _ =>
    Prog.steps_access (fun _ => .of_eq rfl rfl rfl rfl rfl rfl) _

theorem unmoving_handlePackets (nf : Nat) (handler : PktHandler) (pkts : List Nat) :
    (handlePackets nf handler pkts : PktProg ι (List Nat)).Steps (Unmoving m) := by
  induction pkts with
  | nil => trivial
  | cons pkt pkts ih =>
    refine (unmoving_setMeta pkt _).bind fun _ => ?_
    split
    · exact ih.bind fun _ => Prog.steps_ret _
    · exact (unmoving_tally _ _).bind fun _ => ih

theorem unmoving_returnPktBulk (nf : Nat) (h : m ∉ pkts) :
    (onvmNflibReturnPktBulk nf pkts : PktProg ι Int).Steps (Unmoving m) := by
  unfold onvmNflibReturnPktBulk
  split
  · trivial
  refine (unmoving_enqueueBulk _ h).bind fun enqueued => ?_
  split
  · exact (unmoving_tally nf _).bind fun _ => (unmoving_dropAll h).bind fun _ => trivial
  · exact (unmoving_tally nf _).bind fun _ => trivial

end Unmoving

section Rules

variable {α β : Type} {Q : α → Plane ι → Prop}

theorem holds_bind {p : PktProg ι β} {next : β → PktProg ι α} (hp : p.Steps (Unmoving m))
    (h : ∀ c s', CustodyRely m w s s' → (custody ι m).Holds (some w) Q (next c) s') :
    (custody ι m).Holds (some w) Q (p.bind next) s := by
  have hharmless : p.Steps ((custody ι m).Harmless (some w)) :=
    hp.mono fun _ _ h => harmless_of_unmoving h
  apply Contract.Holds.bind
  exact (Contract.holds_of_harmless hharmless s).mono fun c s' hr => h c s' hr

theorem holds_last {p : PktProg ι α} (hp : p.Steps (Unmoving m))
    (h : ∀ c s', CustodyRely m w s s' → Q c s') : (custody ι m).Holds (some w) Q p s := by
  have hharmless : p.Steps ((custody ι m).Harmless (some w)) :=
    hp.mono fun _ _ h => harmless_of_unmoving h
  exact (Contract.holds_of_harmless hharmless s).mono fun c s' hr => h c s' hr

/-- A read, whose value depends on a state that the others have reached. -/
theorem holds_read {a : Access} {get : Plane ι → β} {next : β → PktProg ι α}
    (h : ∀ s', CustodyRely m w s s' → s'.InOrder m →
      (custody ι m).Holds (some w) Q (next (get s')) s') :
    (custody ι m).Holds (some w) Q ((Prog.read a get).bind next) s :=
  Contract.Holds.bind <| Contract.holds_access fun s' hr hi _ =>
    ⟨trivial, hi, fun v _ => (custody ι m).refl v s', h s' hr hi⟩

theorem holds_ownBuf {a : Access} {get : Plane ι → α} {upd : Plane ι → Plane ι}
    (hsame : ∀ s, SamePlace m s (upd s)) (hmgrs : ∀ s, ∀ v ≠ w, (upd s).mgrs v = s.mgrs v)
    (h : ∀ s', CustodyRely m w s s' → Q (get s') (upd s')) :
    (custody ι m).Holds (some w) Q (.access a get upd) s := by
  refine Contract.holds_access fun s' hr hi _ =>
    ⟨trivial, (hsame s').inOrder hi, fun v hv => ?_, h s' hr⟩
  cases v with
  | none => exact (hsame s').staysOut
  | some v => exact (hsame s').rely (hmgrs s' v fun he => hv (congrArg some he))

theorem relied_of_owner {v : Option ι} (hi : s.InOrder m) (ho : s.owner m = some w)
    (hv : v ≠ some w) (hm : s'.mgrs = s.mgrs) : (custody ι m).Rely v s s' := by
  cases v with
  | none => exact fun hleft => absurd hleft (Plane.not_left_of_nowhere (hi.away ho))
  | some v => exact ⟨congrFun hm v, fun h => absurd (ho.symm.trans h).symm hv⟩

end Rules

/-! ## Giving the packet away -/

section Give

variable {pkts : List Nat}

theorem inOrder_put {p : Shelf} (hi : s.InOrder m) (ho : s.owner m = some w)
    (hcount : pkts.count m = 1) (ho' : s'.owner m = none) (hs : s'.seen m = s.seen m)
    (hput : s'.shelved p = s.shelved p ++ pkts) (hrest : ∀ q ≠ p, s'.shelved q = s.shelved q) :
    s'.InOrder m := by
  have haway := hi.away ho
  refine ⟨.inr ⟨p, ?_, fun q hq => ?_⟩, fun h => absurd ho' h, fun h => ?_⟩
  · rw [hput, List.count_append, hcount, List.count_eq_zero_of_not_mem (haway p)]
  · rw [hrest q hq]
    exact haway q
  · rw [hs, hi.seen ho] at h
    cases h

theorem drop_own (ho : s.owner m = some w) :
    (custody ι m).Holds (some w) (fun _ s' => s'.mgrs w = s.mgrs w) (onvmPktDrop m) s := by
  refine Contract.holds_access fun s' hr hi _ => ?_
  have ho' := hr.2 ho
  refine ⟨trivial, ?_, fun v hv => relied_of_owner hi ho' hv rfl, hr.1⟩
  have hone : [m].count m = 1 := List.count_singleton_self ..
  refine inOrder_put (p := .pool) hi ho' hone ?_ rfl rfl fun q hq => ?_
  · simp [Plane.free, Plane.disown]
  · cases q with
    | ring name => rfl
    | port port => rfl
    | pool => exact absurd rfl hq

theorem dropAll_own (hcount : pkts.count m ≤ 1) (ho : m ∈ pkts → s.owner m = some w) :
    (custody ι m).Holds (some w) (fun _ s' => s'.mgrs w = s.mgrs w) (dropAll pkts) s := by
  induction pkts generalizing s with
  | nil => rfl
  | cons pkt pkts ih =>
    apply Contract.Holds.bind
    by_cases hpkt : pkt = m
    · subst hpkt
      have hrest : pkt ∉ pkts := by
        rw [List.count_cons_self] at hcount
        exact List.count_eq_zero.mp (by omega)
      apply Contract.Holds.bind
      refine (drop_own (ho List.mem_cons_self)).mono fun _ s₁ h₁ => ?_
      show Contract.Holds _ _ _ (dropAll pkts) s₁
      exact holds_last (unmoving_dropAll hrest) fun _ s₂ hr => hr.1.trans h₁
    · rw [List.count_cons_of_ne hpkt] at hcount
      have hdrop : (do let _ ← onvmPktDrop pkt : PktProg ι Unit).Steps (Unmoving m) :=
        (unmoving_drop hpkt).bind fun _ => Prog.steps_ret ()
      refine holds_last hdrop fun _ s₁ hr => ?_
      refine (ih hcount fun hm => ?_).mono fun _ s₂ h₂ => h₂.trans hr.1
      exact hr.2 (ho (List.mem_cons_of_mem _ hm))

theorem shelved_enqueueBulk {name : RingName} (htake : s.ringTakes (some name) pkts.length)
    (p : Shelf) : (s.enqueueBulk (some name) pkts).shelved p =
      if p = .ring name then s.shelved p ++ pkts else s.shelved p := by
  obtain ⟨queued, hqueued⟩ : ∃ queued, s.tables.rings name = some queued := by
    unfold Plane.ringTakes at htake
    split at htake
    · cases htake
    · rename_i queued hqueued
      exact ⟨queued, hqueued⟩
  unfold Plane.enqueueBulk
  rw [if_pos htake]
  cases p with
  | ring name' =>
    by_cases hname : name' = name
    · simp [Plane.shelved, Tables.queued, hname, hqueued]
    · simp [Plane.shelved, Tables.queued, hname, Ne.symm hname]
  | port port => rfl
  | pool => rfl

theorem enqueueBulk_own (q : Plane ι → Option RingName) (hcount : pkts.count m = 1)
    (ho : s.owner m = some w) :
    (custody ι m).Holds (some w)
      (fun enqueued s' => s'.mgrs w = s.mgrs w ∧ (enqueued = 0 → s'.owner m = some w))
      (rteRingEnqueueBulk q pkts) s := by
  refine Contract.holds_access fun s' hr hi _ => ⟨trivial, ?_⟩
  have ho' := hr.2 ho
  have hmem : m ∈ pkts := List.count_pos_iff.mp (by omega)
  by_cases htake : s'.ringTakes (q s') pkts.length
  · obtain ⟨name, hq⟩ : ∃ name, q s' = some name := by
      cases hq : q s' with
      | none =>
        rw [hq] at htake
        cases htake
      | some name => exact ⟨name, rfl⟩
    rw [hq] at htake ⊢
    have hrest : (s'.enqueueBulk (some name) pkts).mgrs = s'.mgrs ∧
        (s'.enqueueBulk (some name) pkts).seen = s'.seen ∧
        (s'.enqueueBulk (some name) pkts).owner m = none := by
      unfold Plane.enqueueBulk
      rw [if_pos htake]
      exact ⟨rfl, rfl, if_pos hmem⟩
    obtain ⟨hmgrs, hseen, howner⟩ := hrest
    have hshelved := shelved_enqueueBulk htake
    refine ⟨?_, fun v hv => relied_of_owner hi ho' hv hmgrs, ?_, fun hzero => ?_⟩
    · refine inOrder_put (p := .ring name) hi ho' hcount howner (congrFun hseen m) ?_ fun p hp => ?_
      · rw [hshelved, if_pos rfl]
      · rw [hshelved, if_neg hp]
    · rw [hmgrs]
      exact hr.1
    · rw [if_pos htake] at hzero
      rw [List.length_eq_zero_iff.mp hzero] at hcount
      cases hcount
  · have hno : s'.enqueueBulk (q s') pkts = s' := if_neg htake
    rw [hno]
    exact ⟨hi, fun v _ => (custody ι m).refl v s', hr.1, fun _ => ho'⟩

/-- Packets are offered to the NIC with this one, and the first of them are taken. -/
theorem txBurst_own (port : Nat) (hcount : pkts.count m = 1) (ho : s.owner m = some w) :
    (custody ι m).Holds (some w)
      (fun sent s' => s'.mgrs w = s.mgrs w ∧ (m ∈ pkts.drop sent → s'.owner m = some w))
      (.access .tau (·.sends pkts) (·.txBurst port pkts)) s := by
  refine Contract.holds_access fun s' hr hi _ => ⟨trivial, ?_⟩
  have ho' := hr.2 ho
  have hsplit : (pkts.take (s'.sends pkts)).count m + (pkts.drop (s'.sends pkts)).count m = 1 := by
    rw [← List.count_append, List.take_append_drop, hcount]
  by_cases hsent : m ∈ pkts.take (s'.sends pkts)
  · have hpos : 0 < (pkts.take (s'.sends pkts)).count m := List.count_pos_iff.mpr hsent
    have hone : (pkts.take (s'.sends pkts)).count m = 1 := by omega
    refine ⟨?_, fun v hv => relied_of_owner hi ho' hv rfl, hr.1, fun hdrop => ?_⟩
    · refine inOrder_put (p := .port port) hi ho' hone ?_ rfl ?_ fun p hp => ?_
      · simp [Plane.txBurst, Plane.disown, hsent]
      · exact Function.update_self ..
      · cases p with
        | ring name => rfl
        | pool => rfl
        | port port' => exact Function.update_of_ne (fun he => hp (congrArg Shelf.port he)) _ _
    · have hpos' := List.count_pos_iff.mpr hdrop
      omega
  · have hsame := Unmoved.txBurst s' port hsent
    exact ⟨hsame.inOrder hi, fun v _ => hsame.relied v, hr.1,
      fun _ => hsame.owner.trans ho'⟩

end Give

/-! ## The local buffers -/

variable [DecidableEq ι] {b : Buf} {pkt : Nat}

theorem samePlace_setBuf (s : Plane ι) (w : ι) (b : Buf) (pkts : List Nat) :
    SamePlace m s (s.setBuf w b pkts) :=
  ⟨rfl, rfl, fun p => by cases p <;> rfl⟩

theorem samePlace_append (s : Plane ι) (w : ι) (b : Buf) (pkt : Nat) :
    SamePlace m s (s.append w b pkt) := by
  unfold Plane.append
  split
  · exact ⟨rfl, rfl, fun p => by cases p <;> rfl⟩
  split
  · exact samePlace_setBuf s w b _
  · exact ⟨rfl, rfl, fun p => by cases p <;> rfl⟩

omit [DecidableEq ι] in
theorem lies_of_copies (hs : s.Lies w m mine) (hsame : SamePlace m s s')
    (hc : ∀ b, (s'.mgrs w).copies m b = (s.mgrs w).copies m b) : s'.Lies w m mine := by
  rcases hs with ⟨hno, ho⟩ | ⟨rfl, b, hone, hother, ho⟩
  · exact .inl ⟨fun b => (hc b).trans (hno b), fun hm => hsame.owner.trans (ho hm)⟩
  · exact .inr ⟨rfl, b, (hc b).trans hone, fun b' hb' => (hc b').trans (hother b' hb'),
      hsame.owner.trans ho⟩

theorem clear_lies (hs : s.Lies w m mine) (hb : (s.mgrs w).copies m b = 0) :
    (custody ι m).Holds (some w) (fun _ s' => s'.Lies w m mine) (clear w b) s := by
  refine holds_ownBuf (fun s => samePlace_setBuf s w b [])
    (fun s v hv => Function.update_of_ne hv _ _) fun s' hr => ?_
  rw [← hr.1] at hb
  refine lies_of_copies (hr.lies hs) (samePlace_setBuf s' w b []) fun b' => ?_
  rw [clear_mgrs]
  split
  · rename_i he
    rw [he, hb]
  · rfl

theorem clear_given (hb : ∀ b' ≠ b, (s.mgrs w).copies m b' = 0) :
    (custody ι m).Holds (some w) (fun _ s' => s'.Lies w m false) (clear w b) s := by
  refine holds_ownBuf (fun s => samePlace_setBuf s w b [])
    (fun s v hv => Function.update_of_ne hv _ _) fun s' hr => .inl ⟨fun b' => ?_, nofun⟩
  rw [← hr.1] at hb
  rw [clear_mgrs]
  split
  · rfl
  · rename_i he
    exact hb b' he

omit [DecidableEq ι] in
theorem lies_in (hs : s.Lies w m mine) (hin : (s.mgrs w).copies m b ≠ 0) :
    mine = false ∧ s.InBuffer w m b := by
  rcases hs with ⟨hno, -⟩ | ⟨hmine, b', hs⟩
  · exact absurd (hno b) hin
  · have hb : b = b' := by
      by_contra hne
      exact hin (hs.other b hne)
    exact ⟨hmine, hb ▸ hs⟩

/-- **Emptying a buffer.** Its packets `pkts` are offered, `settle` deals with those that were
not taken (this one may be if `L`), and the buffer is cleared. -/
theorem emptied_lies {α : Type} (L : α → Prop) {pkts : List Nat} {offer : PktProg ι α}
    {settle : α → PktProg ι Unit} (hbuf : ((s.mgrs w).buf b).getD [] = pkts) (hs : s.Lies w m mine)
    (hother : m ∉ pkts → offer.Steps (Unmoving m) ∧ ∀ n, (settle n).Steps (Unmoving m))
    (hoffer : pkts.count m = 1 → s.owner m = some w →
      (custody ι m).Holds (some w)
        (fun n s' => s'.mgrs w = s.mgrs w ∧ (L n → s'.owner m = some w)) offer s)
    (hsettle : ∀ n s', pkts.count m = 1 → (L n → s'.owner m = some w) →
      (custody ι m).Holds (some w) (fun _ s'' => s''.mgrs w = s'.mgrs w) (settle n) s') :
    (custody ι m).Holds (some w) (fun _ s' => s'.Lies w m mine)
      (offer.bind fun n => (settle n).bind fun _ => clear w b) s := by
  by_cases hin : (s.mgrs w).copies m b = 0
  · have hnot : m ∉ pkts := hbuf ▸ not_mem_of_copies hin
    refine holds_bind (hother hnot).1 fun n s₁ h₁ => ?_
    refine holds_bind ((hother hnot).2 n) fun _ s₂ h₂ => ?_
    refine clear_lies (h₂.lies (h₁.lies hs)) ?_
    rw [h₂.1, h₁.1, hin]
  · obtain ⟨rfl, hb⟩ := lies_in hs hin
    have hcount : pkts.count m = 1 := hbuf ▸ hb.here
    apply Contract.Holds.bind
    refine (hoffer hcount hb.owner).mono fun n s₁ h₁ => ?_
    apply Contract.Holds.bind
    refine (hsettle n s₁ hcount h₁.2).mono fun _ s₂ h₂ => clear_given ?_
    rw [h₂, h₁.1]
    exact hb.other

omit [DecidableEq ι] in
theorem settleNf_own (nfId : Nat) (sourceNf : Option Nat) {pkts : List Nat}
    (hcount : pkts.count m = 1) (enqueued : Nat) (ho : enqueued = 0 → s.owner m = some w) :
    (custody ι m).Holds (some w) (fun _ s' => s'.mgrs w = s.mgrs w)
      (settleNf nfId sourceNf pkts enqueued) s := by
  unfold settleNf
  split
  · rename_i hzero
    apply Contract.Holds.bind
    refine (dropAll_own (Nat.le_of_eq hcount) fun _ => ho hzero).mono fun _ s₁ h₁ => ?_
    exact holds_last ((unmoving_tally _ _).bind fun _ => unmoving_tallySource _ _)
      fun _ s₂ h₂ => h₂.1.trans h₁
  · exact holds_last ((unmoving_tally _ _).bind fun _ => unmoving_tallySource _ _)
      fun _ _ h => h.1

omit [DecidableEq ι] in
theorem settleTx_own (nf : Nat) {pkts : List Nat} (hcount : pkts.count m = 1) (enqueued : Nat)
    (ho : enqueued = 0 → s.owner m = some w) :
    (custody ι m).Holds (some w) (fun _ s' => s'.mgrs w = s.mgrs w)
      (settleTx nf pkts enqueued) s := by
  unfold settleTx
  split
  · rename_i hzero
    refine holds_bind (unmoving_tally _ _) fun _ s₁ h₁ => ?_
    refine (dropAll_own (Nat.le_of_eq hcount) fun _ => h₁.2 (ho hzero)).mono fun _ s₂ h₂ => ?_
    exact h₂.trans h₁.1
  · exact holds_last (unmoving_tally _ _) fun _ _ h => h.1

omit [DecidableEq ι] in
theorem dropUnsent_own (port : Nat) {pkts : List Nat} (hcount : pkts.count m = 1) (sent : Nat)
    (ho : m ∈ pkts.drop sent → s.owner m = some w) :
    (custody ι m).Holds (some w) (fun _ s' => s'.mgrs w = s.mgrs w)
      (dropUnsent port pkts sent) s := by
  have hle : (pkts.drop sent).count m ≤ 1 :=
    Nat.le_trans ((List.drop_sublist sent pkts).count_le m) (Nat.le_of_eq hcount)
  unfold dropUnsent
  split
  · apply Contract.Holds.bind
    refine (dropAll_own hle ho).mono fun _ s₁ h₁ => ?_
    exact holds_last (unmoving_tallyPort _ _) fun _ s₂ h₂ => h₂.1.trans h₁
  · exact rfl

theorem flushNfQueue_lies (i : Nat) (sourceNf : Option Nat) (hs : s.Lies w m mine) :
    (custody ι m).Holds (some w) (fun _ s' => s'.Lies w m mine)
      (onvmPktFlushNfQueue w i sourceNf) s := by
  refine holds_read fun s₁ h₁ _ => ?_
  split
  · exact h₁.lies hs
  refine holds_read fun s₂ h₂ _ => ?_
  have hs₂ := h₂.lies (h₁.lies hs)
  rw [← h₂.1]
  split
  · exact hs₂
  refine emptied_lies (b := .nfRx i) (· = 0) rfl hs₂ (fun hnot => ?_) (fun hcount ho => ?_)
    fun enqueued s₃ hcount ho => ?_
  · exact ⟨unmoving_enqueueBulk _ hnot, fun _ => unmoving_settleNf i sourceNf fun _ => hnot⟩
  · exact enqueueBulk_own _ hcount ho
  · exact settleNf_own i sourceNf hcount enqueued ho

omit [DecidableEq ι] in
theorem holds_deref {α : Type} {Q : α → Plane ι → Prop}
    {next : Option (List Nat) → PktProg ι α}
    (h : ∀ s', CustodyRely m w s s' →
      (custody ι m).Holds (some w) Q (next ((s.mgrs w).buf b)) s') :
    (custody ι m).Holds (some w) Q ((deref w b).bind next) s := by
  refine Contract.Holds.bind (Contract.holds_access fun s₁ h₁ hi _ => ?_)
  have hsame : Unmoved m s₁ (if (s₁.mgrs w).buf b = none then s₁.fault (.wild b) else s₁) := by
    split <;> exact .of_eq rfl rfl rfl rfl rfl rfl
  have hrely := h₁.trans (hsame.rely (congrFun hsame.mgrs w))
  refine ⟨trivial, hsame.inOrder hi, fun v _ => hsame.relied v, ?_⟩
  rw [h₁.1] at hrely ⊢
  exact h _ hrely

theorem flushPortQueue_lies (port : Nat) (hs : s.Lies w m mine) :
    (custody ι m).Holds (some w) (fun _ s' => s'.Lies w m mine) (onvmPktFlushPortQueue w port) s := by
  refine holds_read fun s₁ h₁ _ => ?_
  have hs₁ := h₁.lies hs
  split
  · exact hs₁
  refine holds_deref fun s₂ h₂ => ?_
  have hs₂ := h₂.lies hs₁
  rw [← h₂.1]
  split
  · exact hs₂
  rename_i portBuf hbuf
  split
  · exact hs₂
  simp only [Prog.bind_eq, ← Prog.bind_assoc (dropUnsent _ _ _)]
  refine emptied_lies (b := .port port) (fun sent => m ∈ portBuf.drop sent) (by rw [hbuf]; rfl) hs₂
    (fun hnot => ?_) (fun hcount ho => txBurst_own port hcount ho) fun sent s₃ hcount ho => ?_
  · have hburst : ∀ s : Plane ι, Unmoved m s (s.txBurst port portBuf) := fun s =>
      .txBurst s port fun hm => hnot (List.mem_of_mem_take hm)
    refine ⟨Prog.steps_access hburst _, fun sent => ?_⟩
    exact (unmoving_dropUnsent port fun hm => hnot (List.mem_of_mem_drop hm)).bind fun _ =>
      unmoving_tallyPort port _
  · apply Contract.Holds.bind
    refine (dropUnsent_own port hcount sent ho).mono fun _ s₄ h₄ => ?_
    exact holds_last (unmoving_tallyPort port _) fun _ s₅ h₅ => h₅.1.trans h₄

theorem enqueueTxThread_lies (nf : Nat) (hs : s.Lies w m mine) :
    (custody ι m).Holds (some w) (fun _ s' => s'.Lies w m mine) (onvmPktEnqueueTxThread w nf) s := by
  refine holds_deref fun s₁ h₁ => ?_
  have hs₁ := h₁.lies hs
  rw [← h₁.1]
  split
  · exact hs₁
  rename_i pktBuf hbuf
  split
  · exact hs₁
  refine emptied_lies (b := .toTx) (· = 0) (by rw [hbuf]) hs₁ (fun hnot => ?_)
    (fun hcount ho => ?_) fun enqueued s₂ hcount ho => ?_
  · exact ⟨unmoving_enqueueBulk _ hnot, fun _ => unmoving_settleTx nf fun _ => hnot⟩
  · exact enqueueBulk_own _ hcount ho
  · exact settleTx_own nf hcount enqueued ho

/-! ## Routing a packet -/

omit [DecidableEq ι] in
theorem drop_lies (hs : s.Routes w m pkt mine) :
    (custody ι m).Holds (some w) (fun _ s' => s'.Lies w m (knownAfter m pkt mine))
      (onvmPktDrop pkt) s := by
  by_cases hpkt : pkt = m
  · obtain rfl := hs.own hpkt
    obtain ⟨hno, ho⟩ : s.InHand w m true := hs.lies.resolve_right nofun
    subst hpkt
    refine (drop_own (ho rfl)).mono fun _ s' h => .inl ⟨?_, ?_⟩
    · rwa [h]
    · simp [knownAfter]
  · exact holds_last (unmoving_drop hpkt) fun _ s' h => (h.lies hs.lies).after pkt

omit [DecidableEq ι] in
theorem refuse_lies (sourceNf : Option Nat) (hs : s.Routes w m pkt mine) :
    (custody ι m).Holds (some w) (fun _ s' => s'.Lies w m (knownAfter m pkt mine))
      (refuse pkt sourceNf) s := by
  apply Contract.Holds.bind
  refine (drop_lies hs).mono fun _ s₁ hs₁ => ?_
  exact holds_last (unmoving_tallySource _ _) fun _ s₂ h₂ => h₂.lies hs₁

theorem append_own (hs : s.InHand w m true) (b : Buf) : (s.append w b m).Lies w m false := by
  obtain ⟨hno, ho⟩ := hs
  have hsame := samePlace_append (m := m) s w b m
  by_cases hroom : s.HasRoom w b
  · have hcopies := copies_append_self (m := m) hroom
    refine .inr ⟨rfl, b, ?_, fun b' hb' => ?_, hsame.owner.trans (ho rfl)⟩
    · rw [hcopies, if_pos rfl, hno]
    · rw [hcopies, if_neg hb', hno]
  · refine .inl ⟨fun b' => ?_, nofun⟩
    show ((s.append w b m).held (.buf w b')).count m = 0
    rw [held_append_full hroom]
    exact hno b'

theorem append_lies (hs : s.Routes w m pkt mine) (b : Buf) :
    (s.append w b pkt).Lies w m (knownAfter m pkt mine) := by
  unfold knownAfter
  split
  · rename_i hpkt
    obtain rfl := hs.own hpkt
    subst hpkt
    exact append_own (hs.lies.resolve_right nofun) b
  · rename_i hpkt
    exact lies_of_copies hs.lies (samePlace_append s w b pkt) (copies_append_ne s w b hpkt)

/-- A packet is put in a buffer, which is flushed if that filled it. -/
theorem appendOrFlush_lies {flush : PktProg ι Unit}
    (hflush : ∀ {s : Plane ι} {mine}, s.Lies w m mine →
      (custody ι m).Holds (some w) (fun _ s' => s'.Lies w m mine) flush s)
    (hs : s.Routes w m pkt mine) :
    (custody ι m).Holds (some w) (fun _ s' => s'.Lies w m (knownAfter m pkt mine))
      (appendOrFlush w b pkt flush) s := by
  refine Contract.Holds.bind (holds_ownBuf (fun s => samePlace_append s w b pkt)
    (fun s v hv => mgrs_append_ne s w b pkt hv) fun s₁ h₁ => ?_)
  have hs₁ := append_lies (h₁.routes hs) b
  refine holds_read fun s₂ h₂ _ => ?_
  split
  · exact hflush (h₂.lies hs₁)
  · exact h₂.lies hs₁

theorem enqueueNf_lies (serviceId : Nat) (sourceNf : Option Nat) (hs : s.Routes w m pkt mine) :
    (custody ι m).Holds (some w) (fun _ s' => s'.Lies w m (knownAfter m pkt mine))
      (onvmPktEnqueueNf w serviceId pkt sourceNf) s := by
  refine holds_read fun s₁ h₁ _ => ?_
  have hs₁ := h₁.routes hs
  split
  · exact refuse_lies sourceNf hs₁
  refine holds_read fun s₂ h₂ _ => ?_
  have hs₂ := h₂.routes hs₁
  split
  · exact refuse_lies sourceNf hs₂
  · exact appendOrFlush_lies (flushNfQueue_lies _ sourceNf) hs₂

theorem enqueuePort_lies (port : Nat) (hs : s.Routes w m pkt mine) :
    (custody ι m).Holds (some w) (fun _ s' => s'.Lies w m (knownAfter m pkt mine))
      (onvmPktEnqueuePort w port pkt) s := by
  refine holds_read fun s₁ h₁ _ => ?_
  split
  · exact (h₁.lies hs.lies).after pkt
  · exact appendOrFlush_lies (flushPortQueue_lies port) (h₁.routes hs)

theorem sendToNf_lies (nf : Nat) (hs : s.Routes w m pkt mine) :
    (custody ι m).Holds (some w) (fun _ s' => s'.Lies w m (knownAfter m pkt mine))
      (sendToNf w pkt nf) s := by
  refine holds_bind (unmoving_tally nf _) fun _ s₁ h₁ => ?_
  refine holds_read fun s₂ h₂ _ => ?_
  exact enqueueNf_lies _ _ (h₂.routes (h₁.routes hs))

theorem routeNext_lies (nf action : Nat) (hs : s.Routes w m pkt mine) :
    (custody ι m).Holds (some w) (fun _ s' => s'.Lies w m (knownAfter m pkt mine))
      (routeNext w pkt nf action) s := by
  unfold routeNext
  split
  · apply Contract.Holds.bind
    refine (drop_lies hs).mono fun _ s₁ hs₁ => ?_
    exact holds_last (unmoving_tally _ _) fun _ s₂ h₂ => h₂.lies hs₁
  split
  · exact sendToNf_lies nf hs
  split
  · refine holds_bind (unmoving_tally nf _) fun _ s₁ h₁ => ?_
    refine holds_read fun s₂ h₂ _ => ?_
    exact enqueuePort_lies _ (h₂.routes (h₁.routes hs))
  · exact hs.lies.after pkt

theorem processNextAction_lies (nf : Nat) (hs : s.Routes w m pkt mine) :
    (custody ι m).Holds (some w) (fun _ s' => s'.Lies w m (knownAfter m pkt mine))
      (onvmPktProcessNextAction w pkt nf) s := by
  refine holds_read fun s₁ h₁ _ => ?_
  refine holds_bind (unmoving_setNext pkt _) fun _ s₂ h₂ => ?_
  refine holds_read fun s₃ h₃ _ => ?_
  apply Contract.Holds.bind
  refine (routeNext_lies nf _ (h₃.routes (h₂.routes (h₁.routes hs)))).mono fun _ s₄ hs₄ => ?_
  exact holds_last (unmoving_setMeta pkt _) fun _ s₅ h₅ => h₅.lies hs₄

theorem sendOut_lies (nf : Nat) (hs : s.Routes w m pkt mine) :
    (custody ι m).Holds (some w) (fun _ s' => s'.Lies w m (knownAfter m pkt mine))
      (sendOut w nf pkt) s := by
  refine holds_read fun s₁ h₁ _ => ?_
  have hs₁ := h₁.routes hs
  split
  · refine holds_bind (unmoving_tally nf _) fun _ s₂ h₂ => ?_
    exact appendOrFlush_lies (enqueueTxThread_lies nf) (h₂.routes hs₁)
  · refine holds_read fun s₂ h₂ _ => ?_
    exact enqueuePort_lies _ (h₂.routes hs₁)

theorem routeTx_lies (nf action : Nat) (hs : s.Routes w m pkt mine) :
    (custody ι m).Holds (some w) (fun _ s' => s'.Lies w m (knownAfter m pkt mine))
      (routeTx w nf pkt action) s := by
  unfold routeTx
  split
  · refine holds_bind (unmoving_tally nf _) fun _ s₁ h₁ => ?_
    apply Contract.Holds.bind
    refine (drop_lies (h₁.routes hs)).mono fun _ s₂ hs₂ => ?_
    exact holds_last ((unmoving_tally nf _).bind fun _ => Prog.steps_ret _) fun _ s₃ h₃ =>
      h₃.lies hs₂
  split
  · refine holds_bind (unmoving_tally nf _) fun _ s₁ h₁ => ?_
    exact Contract.Holds.bind (processNextAction_lies nf (h₁.routes hs))
  split
  · exact Contract.Holds.bind (sendToNf_lies nf hs)
  split
  · exact Contract.Holds.bind (sendOut_lies nf hs)
  · exact Contract.Holds.bind (drop_lies hs)

theorem processTxPacket_lies (nf : Nat) (hs : s.Routes w m pkt mine) :
    (custody ι m).Holds (some w) (fun _ s' => s'.Lies w m (knownAfter m pkt mine))
      (processTxPacket w nf pkt) s := by
  refine holds_bind (unmoving_setMeta pkt _) fun _ s₁ h₁ => ?_
  refine holds_read fun s₂ h₂ _ => ?_
  exact routeTx_lies nf _ (h₂.routes (h₁.routes hs))

theorem processRxPacket_lies (hs : s.Routes w m pkt mine) :
    (custody ι m).Holds (some w) (fun _ s' => s'.Lies w m (knownAfter m pkt mine))
      (processRxPacket w pkt) s := by
  refine Contract.Holds.bind ?_
  refine holds_bind (unmoving_setMeta pkt _) fun _ s₁ h₁ => ?_
  refine holds_bind (unmoving_setMeta pkt _) fun _ s₂ h₂ => ?_
  refine holds_read fun s₃ h₃ _ => ?_
  have hs₃ := h₃.routes (h₂.routes (h₁.routes hs))
  refine holds_last (unmoving_setNext pkt _) fun _ s₄ h₄ => ?_
  refine holds_bind (unmoving_setMeta pkt _) fun _ s₅ h₅ => ?_
  refine holds_read fun s₆ h₆ _ => ?_
  exact enqueueNf_lies _ _ (h₆.routes (h₅.routes (h₄.routes hs₃)))

/-! ## Bursts -/

/-- What is known of packet `m` while these packets are still to be routed. -/
def batchKnown (m : Nat) (pkts : List Nat) : Bool := m ∈ pkts

theorem knownAfter_batch {pkts : List Nat} (hcount : (pkt :: pkts).count m ≤ 1) :
    knownAfter m pkt (batchKnown m (pkt :: pkts)) = batchKnown m pkts := by
  unfold knownAfter batchKnown
  by_cases hpkt : pkt = m
  · subst hpkt
    rw [List.count_cons_self] at hcount
    have hrest : pkt ∉ pkts := List.count_eq_zero.mp (by omega)
    simp [hrest]
  · simp [hpkt, Ne.symm hpkt]

theorem count_tail {pkts : List Nat} (hcount : (pkt :: pkts).count m ≤ 1) : pkts.count m ≤ 1 :=
  Nat.le_trans List.count_le_count_cons hcount

omit [DecidableEq ι] in
theorem routes_head {pkts : List Nat} (hs : s.Lies w m (batchKnown m (pkt :: pkts))) :
    s.Routes w m pkt (batchKnown m (pkt :: pkts)) :=
  ⟨hs, fun hpkt => decide_eq_true (hpkt ▸ List.mem_cons_self)⟩

theorem txBatch_lies (nf : Nat) {pkts : List Nat} (hcount : pkts.count m ≤ 1)
    (hs : s.Lies w m (batchKnown m pkts)) :
    (custody ι m).Holds (some w) (fun _ s' => s'.Lies w m false)
      (onvmPktProcessTxBatch w nf pkts) s := by
  induction pkts generalizing s with
  | nil => exact hs.forget
  | cons pkt pkts ih =>
    apply Contract.Holds.bind
    refine (processTxPacket_lies nf (routes_head hs)).mono fun goesOn s₁ hs₁ => ?_
    rw [knownAfter_batch hcount] at hs₁
    cases goesOn with
    | true => exact ih (count_tail hcount) hs₁
    | false => exact hs₁.forget

theorem flushAllNfs_lies (sourceNf : Option Nat) (hs : s.Lies w m mine) :
    (custody ι m).Holds (some w) (fun _ s' => s'.Lies w m mine) (onvmPktFlushAllNfs w sourceNf) s :=
  Contract.Holds.each (J := fun _ (s : Plane ι) => s.Lies w m mine)
    (fun i _ _ hs => flushNfQueue_lies i sourceNf hs) hs

theorem flushAllPorts_lies (hs : s.Lies w m mine) :
    (custody ι m).Holds (some w) (fun _ s' => s'.Lies w m mine) (onvmPktFlushAllPorts w) s := by
  refine holds_read fun s₁ h₁ _ => ?_
  exact Contract.Holds.each (J := fun _ (s : Plane ι) => s.Lies w m mine)
    (fun port _ _ hs => flushPortQueue_lies port hs) (h₁.lies hs)

theorem rxBatch_lies {pkts : List Nat} (hcount : pkts.count m ≤ 1)
    (hs : s.Lies w m (batchKnown m pkts)) :
    (custody ι m).Holds (some w) (fun _ s' => s'.Lies w m false)
      (onvmPktProcessRxBatch w pkts) s := by
  apply Contract.Holds.bind
  refine (Contract.Holds.each (J := fun pkts s => pkts.count m ≤ 1 ∧
    s.Lies w m (batchKnown m pkts)) (fun pkt pkts s ⟨hcount, hs⟩ => ?_) ⟨hcount, hs⟩).mono
      fun _ s₁ ⟨_, hs₁⟩ => flushAllNfs_lies none hs₁.forget
  refine (processRxPacket_lies (routes_head hs)).mono fun _ s₁ hs₁ => ⟨count_tail hcount, ?_⟩
  rwa [knownAfter_batch hcount] at hs₁

omit [DecidableEq ι] in
theorem inHand_of_owner (hs : s.Lies w m false) (ho : s.owner m = none) : s.InHand w m false := by
  rcases hs with hs | ⟨-, b, hs⟩
  · exact hs
  · exact absurd (hs.owner.symm.trans ho) nofun

omit [DecidableEq ι] in
/-- The worker takes the packet, which nobody had. -/
theorem taken_lies {pkts : List Nat} (hs : s.Lies w m false) (ho : s.owner m = none)
    (hm : s'.mgrs = s.mgrs) (ho' : s'.owner m = some w) : s'.Lies w m (batchKnown m pkts) := by
  obtain ⟨hno, -⟩ := inHand_of_owner hs ho
  refine .inl ⟨fun b => ?_, fun _ => ho'⟩
  rw [hm]
  exact hno b

omit [DecidableEq ι] in
theorem batchKnown_of_not_mem {pkts : List Nat} (hmem : m ∉ pkts) : batchKnown m pkts = false :=
  decide_eq_false hmem

omit [DecidableEq ι] in
/-- A packet that nobody had and no worker relied on. -/
theorem relied_of_taken {v : Option ι} (ho : s.owner m = none) (hleft : ¬ s.HasLeft m)
    (hm : s'.mgrs = s.mgrs) : (custody ι m).Rely v s s' := by
  cases v with
  | none => exact fun h => absurd h hleft
  | some v => exact ⟨congrFun hm v, fun h => absurd (h.symm.trans ho) nofun⟩

omit [DecidableEq ι] in
theorem away_of_dequeued {name : RingName} (hi : s.InOrder m) (hmem : m ∈ s.burst (some name)) :
    (s.burst (some name)).count m = 1 ∧
      Nowhere (s.dequeueBurst w (some name)).shelved m := by
  have hburst : s.burst (some name) = (s.shelved (.ring name)).take packetReadSize := rfl
  have hring : m ∈ s.shelved (.ring name) := List.mem_of_mem_take (hburst ▸ hmem)
  have hone := hi.once.resolve_left fun h => h _ hring
  have hle := hone.count_le (.ring name)
  have hcount : (s.burst (some name)).count m +
      ((s.shelved (.ring name)).drop packetReadSize).count m = (s.shelved (.ring name)).count m := by
    rw [hburst, ← List.count_append, List.take_append_drop]
  have hpos := List.count_pos_iff.mpr hmem
  refine ⟨by omega, fun p hp => ?_⟩
  cases p with
  | port port => exact absurd (hone.unique (q := .port port) hring hp) nofun
  | pool => exact absurd (hone.unique (q := .pool) hring hp) nofun
  | ring name' =>
    by_cases hname : name' = name
    · have hdrop : (s.dequeueBurst w (some name)).shelved (.ring name) =
          (s.shelved (.ring name)).drop packetReadSize := by
        show Option.getD (if some name = some name then
          (s.tables.rings name).map (·.drop packetReadSize) else s.tables.rings name) [] = _
        rw [if_pos rfl]
        show _ = ((s.tables.rings name).getD []).drop packetReadSize
        cases s.tables.rings name <;> simp
      rw [hname, hdrop, ← List.count_pos_iff] at hp
      omega
    · have hsame : (s.dequeueBurst w (some name)).shelved (.ring name') =
          s.shelved (.ring name') := by
        show Option.getD (if some name = some name' then
          (s.tables.rings name').map (·.drop packetReadSize) else s.tables.rings name') [] = _
        rw [if_neg (by simpa using Ne.symm hname)]
        rfl
      rw [hsame] at hp
      have hsame' := hone.unique (q := .ring name') hring hp
      exact hname (Shelf.ring.inj hsame').symm

omit [DecidableEq ι] in
theorem dequeueBurst_lies (q : Plane ι → Option RingName) (hs : s.Lies w m false) :
    (custody ι m).Holds (some w) (fun pkts s' => pkts.count m ≤ 1 ∧
      s'.Lies w m (batchKnown m pkts)) (rteRingDequeueBurst w q) s := by
  refine Contract.holds_access fun s' hr hi _ => ⟨trivial, ?_⟩
  have hs' : s'.Lies w m false := hr.lies hs
  by_cases hmem : m ∈ s'.burst (q s')
  · obtain ⟨name, hq⟩ : ∃ name, q s' = some name := by
      cases hq : q s' with
      | none => simp [Plane.burst, hq] at hmem
      | some name => exact ⟨name, rfl⟩
    rw [hq] at hmem ⊢
    have hring : m ∈ s'.shelved (.ring name) := List.mem_of_mem_take hmem
    have ho := hi.free_of_mem hring
    obtain ⟨hone, haway⟩ := away_of_dequeued (w := w) hi hmem
    refine ⟨.of_nowhere haway (hi.seen_of_mem hring), fun v _ => ?_, Nat.le_of_eq hone, ?_⟩
    · exact relied_of_taken ho (hi.not_left hring) rfl
    · exact taken_lies hs' ho rfl (if_pos hmem)
  · have hsame := Unmoved.dequeueBurst s' w hmem
    refine ⟨hsame.inOrder hi, fun v _ => hsame.relied v, ?_, ?_⟩
    · rw [List.count_eq_zero_of_not_mem hmem]
      exact Nat.zero_le 1
    · rw [batchKnown_of_not_mem hmem]
      exact (hsame.rely (w := w) (congrFun hsame.mgrs w)).lies hs'

omit [DecidableEq ι] in
theorem receive_lies (pkts : List Nat) (hs : s.Lies w m false) :
    (custody ι m).Holds (some w) (fun pkts s' => pkts.count m ≤ 1 ∧
      s'.Lies w m (batchKnown m pkts)) (.access .tau (·.arrivals pkts) (·.receive w pkts)) s := by
  refine Contract.holds_access fun s' hr hi _ => ⟨trivial, ?_⟩
  have hs' : s'.Lies w m false := hr.lies hs
  have hnodup : (s'.arrivals pkts).Nodup :=
    ((List.nodup_dedup pkts).filter _).sublist (List.take_sublist _ _)
  by_cases hmem : m ∈ s'.arrivals pkts
  · have hnew : s'.seen m = false := by
      have hfilter := List.of_mem_filter (List.mem_of_mem_take hmem)
      simp only [Bool.and_eq_true, Bool.not_eq_true'] at hfilter
      exact hfilter.1.1
    obtain ⟨ho, hnowhere⟩ := hi.unseen hnew
    have haway : Nowhere (s'.receive w pkts).shelved m := fun p hp =>
      hnowhere p (by cases p <;> exact hp)
    refine ⟨.of_nowhere haway (if_pos hmem), fun v _ => ?_,
      List.nodup_iff_count_le_one.mp hnodup m, ?_⟩
    · exact relied_of_taken ho (Plane.not_left_of_nowhere hnowhere) rfl
    · exact taken_lies hs' ho rfl (if_pos hmem)
  · have hsame := Unmoved.receive s' w hmem
    refine ⟨hsame.inOrder hi, fun v _ => hsame.relied v,
      List.nodup_iff_count_le_one.mp hnodup m, ?_⟩
    rw [batchKnown_of_not_mem hmem]
    exact (hsame.rely (w := w) (congrFun hsame.mgrs w)).lies hs'

/-! ## Rounds -/

omit [DecidableEq ι] in
theorem dropAll_lies {pkts : List Nat} (hcount : pkts.count m ≤ 1)
    (hs : s.Lies w m (batchKnown m pkts)) :
    (custody ι m).Holds (some w) (fun _ s' => s'.Lies w m false) (dropAll pkts) s := by
  by_cases hmem : m ∈ pkts
  · have hmine : batchKnown m pkts = true := decide_eq_true hmem
    rw [hmine] at hs
    obtain ⟨hno, ho⟩ : s.InHand w m true := hs.resolve_right nofun
    refine (dropAll_own hcount fun _ => ho rfl).mono fun _ s₁ h₁ => .inl ⟨?_, nofun⟩
    rwa [h₁]
  · exact holds_last (unmoving_dropAll hmem) fun _ s₁ h₁ => h₁.lies hs.forget

theorem rxRound_lies (pkts : List Nat) (hs : s.Lies w m false) :
    (custody ι m).Holds (some w) (fun _ s' => s'.Lies w m false) (rxRound w pkts) s := by
  apply Contract.Holds.bind
  refine (receive_lies pkts hs).mono fun pkts s₁ ⟨hcount, hs₁⟩ => ?_
  split
  · exact hs₁.forget
  refine holds_read fun s₂ h₂ _ => ?_
  have hs₂ := h₂.lies hs₁
  split
  · exact dropAll_lies hcount hs₂
  · exact rxBatch_lies hcount hs₂

theorem txNf_lies (nf : Nat) (hs : s.Lies w m false) :
    (custody ι m).Holds (some w) (fun _ s' => s'.Lies w m false) (txNf w nf) s := by
  refine holds_read fun s₁ h₁ _ => ?_
  have hs₁ := h₁.lies hs
  split
  · exact hs₁
  apply Contract.Holds.bind
  refine (dequeueBurst_lies _ hs₁).mono fun pkts s₂ ⟨hcount, hs₂⟩ => ?_
  exact txBatch_lies nf hcount hs₂

theorem txRound_lies (nfs : List Nat) (hs : s.Lies w m false) :
    (custody ι m).Holds (some w) (fun _ s' => s'.Lies w m false) (txRound w nfs) s := by
  apply Contract.Holds.bind
  refine (Contract.Holds.each (J := fun _ (s : Plane ι) => s.Lies w m false)
    (fun nf _ _ hs => txNf_lies nf hs) hs).mono fun _ s₁ hs₁ => ?_
  apply Contract.Holds.bind
  exact (flushAllPorts_lies hs₁).mono fun _ s₂ hs₂ => flushAllNfs_lies none hs₂

omit [DecidableEq ι] in
/-- The handler sees the packets; the whole burst is routed. -/
theorem dequeuePackets_lies (nf : Nat) (handler : PktHandler) (hs : s.Lies w m false) :
    (custody ι m).Holds (some w) (fun pkts s' => pkts.count m ≤ 1 ∧
      s'.Lies w m (batchKnown m pkts)) (onvmNflibDequeuePackets w nf handler) s := by
  apply Contract.Holds.bind
  refine (dequeueBurst_lies _ hs).mono fun pkts s₁ ⟨hcount, hs₁⟩ => ?_
  split
  · rename_i hnil
    subst hnil
    exact ⟨hcount, hs₁⟩
  · refine holds_bind (unmoving_handlePackets nf handler pkts) fun _ s₂ h₂ => ?_
    rw [if_pos (show onvmNfHandleTx = true from rfl)]
    exact ⟨hcount, h₂.lies hs₁⟩

theorem mainLoopRound_lies (nf : Nat) (handler : PktHandler) (hs : s.Lies w m false) :
    (custody ι m).Holds (some w) (fun _ s' => s'.Lies w m false)
      (mainLoopRound w nf handler) s := by
  apply Contract.Holds.bind
  refine (dequeuePackets_lies nf handler hs).mono fun pkts s₁ ⟨hcount, hs₁⟩ => ?_
  apply Contract.Holds.bind
  refine (txBatch_lies nf hcount hs₁).mono fun _ s₂ hs₂ => ?_
  apply Contract.Holds.bind
  exact (enqueueTxThread_lies nf hs₂).mono fun _ s₃ hs₃ => flushAllNfs_lies _ hs₃

omit [DecidableEq ι] in
theorem returnPktBulk_lies (nf : Nat) {pkts : List Nat} (hcount : pkts.count m ≤ 1)
    (hs : s.Lies w m (batchKnown m pkts)) :
    (custody ι m).Holds (some w) (fun _ s' => s'.Lies w m false)
      (onvmNflibReturnPktBulk nf pkts) s := by
  by_cases hmem : m ∈ pkts
  · have hmine : batchKnown m pkts = true := decide_eq_true hmem
    have hpos := List.count_pos_iff.mpr hmem
    rw [hmine] at hs
    obtain ⟨hno, ho⟩ : s.InHand w m true := hs.resolve_right nofun
    unfold onvmNflibReturnPktBulk
    rw [if_neg (List.ne_nil_of_mem hmem)]
    apply Contract.Holds.bind
    refine (enqueueBulk_own _ (by omega) (ho rfl)).mono fun enqueued s₁ ⟨hm₁, ho₁⟩ => ?_
    have hs₁ : ∀ b, (s₁.mgrs w).copies m b = 0 := by rwa [hm₁]
    split
    · rename_i hzero
      refine holds_bind (unmoving_tally nf _) fun _ s₂ h₂ => Contract.Holds.bind ?_
      refine (dropAll_own hcount fun _ => h₂.2 (ho₁ hzero)).mono fun _ s₃ h₃ => .inl ⟨?_, nofun⟩
      rwa [h₃, h₂.1]
    · exact holds_last ((unmoving_tally nf _).bind fun _ => Prog.steps_ret _) fun _ s₂ h₂ =>
        h₂.lies (.inl ⟨hs₁, nofun⟩)
  · exact holds_last (unmoving_returnPktBulk nf hmem) fun _ s₁ h₁ => h₁.lies hs.forget

/-! ## Steps of the manager -/

/-- The rings that a step of the manager empties. -/
def Empties (s : Plane ι) (e : Manage) (name : RingName) : Prop :=
  match e with
  | .msg msg => s.tables.exit = none ∧ ∃ nfId ∈ s.tables.drained msg, s.tables.Owns nfId name
  | .family .. => False

omit [DecidableEq ι] in
theorem queued_manage (s : Plane ι) (e : Manage) (name : RingName) :
    (Empties s e name → (s.manage e).tables.queued name = []) ∧
      (¬ Empties s e name → (s.manage e).tables.queued name = s.tables.queued name) := by
  cases e with
  | family i parent childrenCnt =>
    refine ⟨False.elim, fun _ => ?_⟩
    show (s.tables.onEvent (.family i parent childrenCnt)).queued name = _
    unfold Tables.onEvent
    split <;> rfl
  | msg msg =>
    show (_ → (s.tables.onEvent (.msg msg)).queued name = _) ∧
      (_ → (s.tables.onEvent (.msg msg)).queued name = _)
    unfold Tables.onEvent Empties
    cases s.tables.exit with
    | some e => exact ⟨fun h => absurd h.1 nofun, fun _ => rfl⟩
    | none =>
      have h := s.tables.queued_onMsg msg name
      refine ⟨fun he => ?_, fun he => ?_⟩
      · exact h.trans (if_pos he.2)
      · exact h.trans (if_neg fun hex => he ⟨rfl, hex⟩)

omit [DecidableEq ι] in
theorem mem_discards {e : Manage} (h : m ∈ s.discards e) :
    ∃ name, Empties s e name ∧ m ∈ s.tables.queued name := by
  cases e with
  | family => cases h
  | msg msg =>
    unfold Plane.discards at h
    dsimp only at h
    split at h
    · cases h
    · rename_i hexit
      obtain ⟨nfId, hnf, name, howns, hmem⟩ := Tables.mem_leftOver h
      exact ⟨name, ⟨by simpa using hexit, nfId, hnf, howns⟩, hmem⟩

omit [DecidableEq ι] in
theorem count_discards_le (e : Manage) (h : AtOne s.shelved m) : (s.discards e).count m ≤ 1 := by
  cases e with
  | family => exact Nat.zero_le 1
  | msg msg =>
    unfold Plane.discards
    dsimp only
    split
    · exact Nat.zero_le 1
    · refine s.tables.count_leftOver_le msg (fun name => h.count_le (.ring name)) fun hp hq => ?_
      exact Shelf.ring.inj (h.unique (p := .ring _) (q := .ring _) hp hq)

omit [DecidableEq ι] in
/-- A packet on one of the rings that the manager empties: it is freed, or is gone with the
messages. -/
theorem inOrder_manage {e : Manage} {name : RingName} (hi : s.InOrder m)
    (hempties : Empties s e name) (hmem : m ∈ s.tables.queued name) :
    (s.manage e).InOrder m := by
  have hring : m ∈ s.shelved (.ring name) := hmem
  have hone : AtOne s.shelved m := hi.once.resolve_left fun h => h _ hring
  have hoff : ∀ p, p ≠ .pool → m ∉ (s.manage e).shelved p := by
    intro p hp hmem'
    cases p with
    | pool => exact hp rfl
    | port port => exact absurd (hone.unique (q := .port port) hring hmem') nofun
    | ring name' =>
      obtain ⟨hempty, hsame⟩ := queued_manage s e name'
      by_cases he : Empties s e name'
      · rw [Plane.shelved, hempty he] at hmem'
        exact List.not_mem_nil hmem'
      · rw [Plane.shelved, hsame he] at hmem'
        have hname := hone.unique (q := .ring name') hring hmem'
        exact he (Shelf.ring.inj hname ▸ hempties)
  have hpool : m ∉ s.freed := fun hfreed =>
    absurd (hone.unique (q := .pool) hring hfreed) nofun
  have hfreed : ((s.manage e).shelved .pool).count m = (s.discards e).count m := by
    show (s.freed ++ s.discards e).count m = _
    rw [List.count_append, List.count_eq_zero_of_not_mem hpool, Nat.zero_add]
  have hle : (s.discards e).count m ≤ 1 := count_discards_le e hone
  have hseen : (s.manage e).seen m = true := hi.seen_of_mem hring
  have ho : (s.manage e).owner m = none := hi.free_of_mem hring
  by_cases hzero : (s.discards e).count m = 0
  · refine .of_nowhere (fun p => ?_) hseen
    by_cases hp : p = .pool
    · rw [hp, ← List.count_eq_zero, hfreed, hzero]
    · exact hoff p hp
  · refine ⟨.inr ⟨.pool, by omega, hoff⟩, fun h => absurd ho h, fun h => ?_⟩
    rw [hseen] at h
    cases h

omit [DecidableEq ι] in
/-- The manager frees what is on the rings of an NF that stops, and nothing else. -/
theorem manage_keeps (e : Manage) (hi : s.InOrder m) :
    (s.manage e).InOrder m ∧ ∀ v, (custody ι m).Rely v s (s.manage e) := by
  by_cases hex : ∃ name, Empties s e name ∧ m ∈ s.tables.queued name
  · obtain ⟨name, hempties, hmem⟩ := hex
    have hring : m ∈ s.shelved (.ring name) := hmem
    refine ⟨inOrder_manage hi hempties hmem, fun v => ?_⟩
    exact relied_of_taken (hi.free_of_mem hring) (hi.not_left hring) rfl
  · have hsame : Unmoved m s (s.manage e) := by
      refine ⟨⟨rfl, rfl, fun p => ?_⟩, rfl⟩
      cases p with
      | port port => rfl
      | pool =>
        show (s.freed ++ s.discards e).count m = s.freed.count m
        rw [List.count_append, List.count_eq_zero_of_not_mem fun hmem => hex (mem_discards hmem)]
        rfl
      | ring name =>
        show ((s.manage e).tables.queued name).count m = (s.tables.queued name).count m
        obtain ⟨hempty, hkeep⟩ := queued_manage s e name
        by_cases he : Empties s e name
        · rw [hempty he, List.count_nil]
          exact (List.count_eq_zero_of_not_mem fun hmem => hex ⟨name, he, hmem⟩).symm
        · rw [hkeep he]
    exact ⟨hsame.inOrder hi, hsame.relied⟩

end Custody

/-! ## Runs -/

/-- What the workers do: the rounds of the threads, and between its rounds an NF may make
packets (`rte_pktmbuf_alloc`) and give packets back to the library. -/
inductive Work where
  | rx (pkts : List Nat)
  | nf (nfId : Nat) (handler : PktHandler)
  | tx (nfs : List Nat)
  | make (pkts : List Nat)
  | giveOne (nfId pkt : Nat)
  | give (nfId : Nat) (pkts : List Nat)

variable [DecidableEq ι]

def Work.body (w : ι) : Work → PktProg ι Unit
  | .rx pkts => rxRound w pkts
  | .nf nfId handler => mainLoopRound w nfId handler
  | .tx nfs => txRound w nfs
  | .make pkts => .write .tau (·.receive w pkts)
  | .giveOne nfId pkt => do
    let _ ← onvmNflibReturnPkt nfId pkt
  | .give nfId pkts => do
    let _ ← onvmNflibReturnPktBulk nfId pkts

def Work.given : Work → List Nat
  | .giveOne _ pkt => [pkt]
  | .give _ pkts => pkts
  | .rx _ | .nf .. | .tx _ | .make _ => []

/-- What a worker gives back it has, and it lists it in no buffer of its own. -/
def Work.GivesOwn (w : ι) (c : Work) (s : Plane ι) : Prop :=
  c.given.Nodup ∧ ∀ pkt ∈ c.given, s.owner pkt = some w ∧ ∀ b, pkt ∉ s.held (.buf w b)

def Plane.works (s : Plane ι) (es : List (Turn ι Work Manage)) : Threads ι Access (Plane ι) :=
  exec (Threads.turn Plane.manage Work.body) ⟨s, fun _ => .ret ()⟩ es

/-- Whatever is given back in the run is the giver's. -/
def Plane.GivesOwn (s : Plane ι) (es : List (Turn ι Work Manage)) : Prop :=
  Along (Threads.turn Plane.manage Work.body) (Threads.OnCall Work.GivesOwn)
    ⟨s, fun _ => .ret ()⟩ es

structure Plane.Empty (s : Plane ι) : Prop where
  owner : ∀ m, s.owner m = none
  bufs : ∀ w b, s.held (.buf w b) = []
  shelved : ∀ p, s.shelved p = []

omit [DecidableEq ι] in
/-- What holds of a packet while the threads run: it is on one ring, or was sent through one
port, or was freed, or none of these, and once; what a worker has is in none of these places;
and the buffers of a worker at rest list only packets that it has, each in one buffer and
there once. -/
structure InCustody (t : Threads ι Access (Plane ι)) (m : Nat) : Prop where
  once : Nowhere t.shared.shelved m ∨ AtOne t.shared.shelved m
  aside : t.shared.owner m ≠ none → Nowhere t.shared.shelved m
  resting : ∀ w, t.Idle w → ∀ b, m ∈ t.shared.held (.buf w b) → t.shared.owner m = some w ∧
    (t.shared.held (.buf w b)).count m = 1 ∧ ∀ b' ≠ b, m ∉ t.shared.held (.buf w b')

omit [DecidableEq ι] in
theorem given_lies {c : Work} (h : c.GivesOwn w s) (hs : s.Lies w m false) :
    s.Lies w m (Custody.batchKnown m c.given) := by
  by_cases hmem : m ∈ c.given
  · obtain ⟨ho, hno⟩ := h.2 m hmem
    exact .inl ⟨fun b => List.count_eq_zero.mpr (hno b), fun _ => ho⟩
  · rwa [Custody.batchKnown_of_not_mem hmem]

theorem work_lies (c : Work) (h : c.GivesOwn w s) (hs : s.Lies w m false) :
    (custody ι m).Holds (some w) (fun _ s' => s'.Lies w m false) (c.body w) s := by
  cases c with
  | rx pkts => exact Custody.rxRound_lies pkts hs
  | nf nfId handler => exact Custody.mainLoopRound_lies nfId handler hs
  | tx nfs => exact Custody.txRound_lies nfs hs
  | make pkts =>
    exact (Custody.receive_lies pkts hs).mono fun _ s' hs' => hs'.2.forget
  | giveOne nfId pkt | give nfId pkts =>
    apply Contract.Holds.bind
    exact Custody.returnPktBulk_lies nfId (List.nodup_iff_count_le_one.mp h.1 m) (given_lies h hs)

/-- The contract is kept from any state in which it is in force. -/
theorem custody_run {t : Threads ι Access (Plane ι)} (h : (custody ι m).InForce t.observed)
    {es : List (Turn ι Work Manage)}
    (hgive : Along (Threads.turn Plane.manage Work.body) (Threads.OnCall Work.GivesOwn) t es) :
    let t' := exec (Threads.turn Plane.manage Work.body) t es
    (custody ι m).InForce t'.observed ∧ StaysOut m t.shared t'.shared := by
  refine Contract.observe (fun w c s hc _ hs => work_lies c hc hs)
    (fun s e hi => Custody.manage_keeps e hi) h hgive ?_
  refine along_of_inv (I := fun _ => True) (fun _ _ _ => trivial) (fun t e _ => ?_) trivial es
  cases e with
  | env | call => trivial
  | tick w => exact fun _ _ => trivial

omit [DecidableEq ι] in
theorem inForce_empty (h : s.Empty) (m : Nat) :
    (custody ι m).InForce (Threads.observed ⟨s, fun _ => .ret ()⟩) := by
  have haway : Nowhere s.shelved m := fun p => by simp [h.shelved]
  refine ⟨⟨.inl haway, fun _ => haway, fun _ => ⟨h.owner m, haway⟩⟩,
    fun v => ⟨s, (custody ι m).refl v s, ?_⟩⟩
  cases v with
  | none => trivial
  | some w =>
    refine .inl ⟨fun b => ?_, nofun⟩
    show (s.held (.buf w b)).count m = 0
    rw [h.bufs]
    rfl

omit [DecidableEq ι] in
theorem inCustody_of_inForce {t : Threads ι Access (Plane ι)}
    (h : (custody ι m).InForce t.observed) : InCustody t m := by
  refine ⟨h.inv.once, h.inv.aside, fun w hw b hmem => ?_⟩
  have hlies : t.shared.Lies w m false := h.rest (w := some w) hw
  have hpos : 0 < (t.shared.held (.buf w b)).count m := List.count_pos_iff.mpr hmem
  obtain ⟨-, hb⟩ := Custody.lies_in hlies (b := b) (Nat.pos_iff_ne_zero.mp hpos)
  exact ⟨hb.owner, hb.here, fun b' hb' => List.count_eq_zero.mp (hb.other b' hb')⟩

omit [DecidableEq ι] in
/-- What was freed or sent is on no ring. -/
theorem InCustody.off_rings {t : Threads ι Access (Plane ι)} (h : InCustody t m)
    (hleft : t.shared.HasLeft m) (name : RingName) : m ∉ t.shared.tables.queued name := by
  intro hring
  have hring' : m ∈ t.shared.shelved (.ring name) := hring
  have hone := h.once.resolve_left fun hno => hno _ hring'
  rcases hleft with hfreed | ⟨port, hsent⟩
  · exact absurd (hone.unique (q := .pool) hring' hfreed) nofun
  · exact absurd (hone.unique (q := .port port) hring' hsent) nofun

/-- A run in which nothing is given back. -/
theorem givesOwn_of_none {t : Threads ι Access (Plane ι)} {es : List (Turn ι Work Manage)}
    (h : ∀ w c, .call w c ∈ es → c.given = []) :
    Along (Threads.turn Plane.manage Work.body) (Threads.OnCall Work.GivesOwn) t es := by
  induction es generalizing t with
  | nil => trivial
  | cons e es ih =>
    refine ⟨?_, ih fun w c hmem => h w c (List.mem_cons_of_mem e hmem)⟩
    rcases e with e | ⟨w, c⟩ | w
    · trivial
    · have hnone := h w c List.mem_cons_self
      refine fun _ => ⟨?_, fun pkt hpkt => ?_⟩
      · rw [hnone]
        exact List.nodup_nil
      · rw [hnone] at hpkt
        exact absurd hpkt List.not_mem_nil
    · trivial

/-- Worker 0 is an RX thread and the others are NFs, of which none has started. -/
def booted : Plane Nat := Plane.fresh Tables.bootSingle fun w => if w = 0 then rxMgr else nfMgr

theorem booted_empty : booted.Empty := by
  refine ⟨fun _ => rfl, fun w b => ?_, fun p => ?_⟩
  · by_cases hw : w = 0
    · rcases b with i | port | _ <;> simp [booted, Plane.fresh, Plane.held, hw, rxMgr, QueueMgr.buf]
    · rcases b with i | port | _ <;> simp [booted, Plane.fresh, Plane.held, hw, nfMgr, QueueMgr.buf]
  · rcases p with ⟨_ | _ | _, i⟩ | port | _ <;> rfl

/-- NF 1 starts. -/
def started : List (Turn Nat Work Manage) :=
  [.env (.msg (.nfStarting (some { serviceId := 1, initOptions := 2 }))), .env (.msg (.nfReady 1))]

/-- It makes packet 7 and gives it to its TX ring. -/
def givenBack : List (Turn Nat Work Manage) :=
  started ++ .call 1 (.make [7]) :: .tick 1 :: .call 1 (.giveOne 1 7) :: List.replicate 2 (.tick 1)

/-- Packets 5 and 6 are put on its RX ring. It takes them, and while it still routes the first
of them it is stopped: packet 7 is freed. -/
def stoppedAtWork : List (Turn Nat Work Manage) :=
  .call 0 (.rx [5, 6]) :: List.replicate 35 (.tick 0) ++
    .call 1 (.nf 1 ⟨fun _ x => { x with action := actionDrop }, fun _ => 0⟩) ::
      List.replicate 8 (.tick 1) ++ [.env (.msg (.nfStopping (some 1)))]

theorem givenBack_givesOwn (es : List (Turn Nat Work Manage))
    (h : ∀ w c, .call w c ∈ es → c.given = []) : booted.GivesOwn (givenBack ++ es) := by
  refine along_append.mpr ⟨?_, givesOwn_of_none h⟩
  refine ⟨trivial, trivial, fun _ => ⟨List.nodup_nil, nofun⟩, trivial, fun _ => ⟨by decide, ?_⟩,
    trivial, trivial, trivial⟩
  rintro pkt hpkt
  obtain rfl := List.mem_singleton.mp hpkt
  refine ⟨by decide +kernel, fun b => ?_⟩
  rcases b with i | port | _ <;> exact List.not_mem_nil

/-- An NF that keeps packet 5 does not have it any more when the round is over: if it gives it
back, the packet is freed again. -/
example : (booted.works (started ++ .call 0 (.rx [5]) :: List.replicate 35 (.tick 0) ++
    .call 1 (.nf 1 ⟨fun _ x => { x with action := actionDrop }, fun _ => 1⟩) ::
      List.replicate 150 (.tick 1) ++ .call 1 (.give 1 [5]) :: List.replicate 2 (.tick 1) ++
        [.env (.msg (.nfStopping (some 1)))])).shared.freed = [5, 5] := by
  decide +kernel

end Onvm.Pkt

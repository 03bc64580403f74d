import Onvm.Pkt.Conserve

/-!
# Bounds of the local buffers

A worker appends to a local buffer and flushes it when it is full, so that it
always has room for another packet. A flush of `nf_rx_bufs[i]` does nothing when
NF `i` is not running, and the manager may stop it between the check in
`onvm_pkt_enqueue_nf` and the one in `onvm_pkt_flush_nf_queue`: then the buffer
stays full and the next packet is written past its end. The workers run here with
each other and with an environment that changes everything but their buffers.
-/

namespace Onvm.Pkt

open Onvm.Lib Onvm.Nflib Onvm.Mgr

variable {ι : Type}

/-- The write is at an index below `PACKET_READ_SIZE` of a buffer that is there. -/
def InBounds (w : ι) (a : Access) (s : Plane ι) : Prop :=
  match a with
  | .append b _ => s.HasRoom w b
  | .tau | .check _ | .touch _ | .lookup _ => True

/-- The flush of a buffer that is full finds the NF running, and a packet for a
port is not written through the union of an NF. -/
def FlushGoesThrough (w : ι) (a : Access) (s : Plane ι) : Prop :=
  match a with
  | .check nfId => s.count w (.nfRx nfId) = packetReadSize →
      onvmNfIsValid (s.tables.nfs nfId) = true
  | .append (.port port) _ => ((s.mgrs w).buf (.port port)).isSome
  | .append (.nfRx _) _ | .append .toTx _ | .tau | .touch _ | .lookup _ => True

instance (w : ι) (a : Access) (s : Plane ι) : Decidable (InBounds w a s) :=
  match a with
  | .append _ _ => inferInstanceAs (Decidable (_ ∧ _))
  | .tau | .check _ | .touch _ | .lookup _ => isTrue trivial

instance (w : ι) (a : Access) (s : Plane ι) : Decidable (FlushGoesThrough w a s) :=
  match a with
  | .check _ => inferInstanceAs (Decidable (_ → _))
  | .append (.port _) _ => inferInstanceAs (Decidable (_ = true))
  | .append (.nfRx _) _ | .append .toTx _ | .tau | .touch _ | .lookup _ => isTrue trivial

/-- Every buffer of the worker has room for a packet. -/
def AtRest (w : ι) (s : Plane ι) : Prop := ∀ b, s.count w b < packetReadSize

def bufContract (ι : Type) : Contract ι Access (Plane ι) where
  Inv _ := True
  Rely w s s' := s'.mgrs w = s.mgrs w
  Cond := FlushGoesThrough
  Goal := InBounds
  Rest := AtRest
  refl _ _ := rfl
  trans h h' := h'.trans h
  stable {w s s'} h hr b := by
    have : s'.count w b = s.count w b := by
      unfold Plane.count
      rw [h]
    exact this.trans_lt (hr b)

def Access.Quiet : Access → Prop
  | .append .. => False
  | .tau | .check _ | .touch _ | .lookup _ => True

/-- The step changes no buffer. -/
def Leaves (a : Access) (upd : Plane ι → Plane ι) : Prop :=
  a.Quiet ∧ ∀ s, (upd s).mgrs = s.mgrs

theorem inBounds_of_quiet {a : Access} (h : a.Quiet) (w : ι) (s : Plane ι) : InBounds w a s := by
  cases a with
  | append => exact h.elim
  | tau | check | touch | lookup => trivial

theorem harmless_of_leaves {w : ι} {a : Access} {upd : Plane ι → Plane ι} (h : Leaves a upd) :
    (bufContract ι).Harmless w a upd := fun s _ _ =>
  ⟨inBounds_of_quiet h.1 w s, trivial, fun v => by
    show (upd s).mgrs v = s.mgrs v
    rw [h.2]⟩

section Rules

variable {w : ι} {α : Type} {Q : α → Plane ι → Prop} {s : Plane ι}

theorem holds_read {a : Access} {get : Plane ι → α} (ha : a.Quiet)
    (h : ∀ s', s'.mgrs w = s.mgrs w → FlushGoesThrough w a s' → Q (get s') s') :
    (bufContract ι).Holds w Q (.read a get) s :=
  Contract.holds_access fun s' hr _ hc => ⟨inBounds_of_quiet ha w s', trivial, fun _ _ => rfl,
    h s' hr hc⟩

theorem holds_bind_leaves {β : Type} {p : PktProg ι β} {k : β → PktProg ι α}
    (hp : p.Steps Leaves)
    (h : ∀ c s', s'.mgrs w = s.mgrs w → (bufContract ι).Holds w Q (k c) s') :
    (bufContract ι).Holds w Q (p.bind k) s := by
  have hharmless := hp.mono fun _ _ h => harmless_of_leaves (w := w) h
  apply Contract.Holds.bind
  exact (Contract.holds_of_harmless hharmless s).mono fun c s' hr => h c s' hr

theorem holds_leaves {p : PktProg ι α} (hp : p.Steps Leaves)
    (h : ∀ c s', s'.mgrs w = s.mgrs w → Q c s') : (bufContract ι).Holds w Q p s := by
  have hharmless := hp.mono fun _ _ h => harmless_of_leaves (w := w) h
  exact (Contract.holds_of_harmless hharmless s).mono fun c s' hr => h c s' hr

end Rules

/-! ## Programs that leave the buffers alone -/

theorem leaves_tally (nf : Nat) (f : NfStats → NfStats) :
    (tally nf f : PktProg ι Unit).Steps Leaves :=
  Prog.steps_access ⟨trivial, fun _ => rfl⟩ _

theorem leaves_tallySource (sourceNf : Option Nat) (f : NfStats → NfStats) :
    (tallySource sourceNf f : PktProg ι Unit).Steps Leaves := by
  cases sourceNf with
  | none => trivial
  | some nf => exact leaves_tally nf f

theorem leaves_drop (pkt : Nat) : (onvmPktDrop pkt : PktProg ι Nat).Steps Leaves :=
  Prog.steps_access ⟨trivial, fun _ => rfl⟩ _

theorem leaves_dropAll (pkts : List Nat) : (dropAll pkts : PktProg ι Unit).Steps Leaves := by
  refine Prog.Steps.each (fun pkt => ?_) pkts
  exact (leaves_drop pkt).bind fun _ => Prog.steps_ret ()

theorem leaves_refuse (pkt : Nat) (sourceNf : Option Nat) :
    (refuse pkt sourceNf : PktProg ι Unit).Steps Leaves :=
  (leaves_drop pkt).bind fun _ => leaves_tallySource _ _

theorem leaves_enqueueBulk (q : Plane ι → Option RingName) (pkts : List Nat) :
    (rteRingEnqueueBulk q pkts).Steps Leaves := by
  refine Prog.steps_access ⟨trivial, fun s => ?_⟩ _
  show (s.enqueueBulk (q s) pkts).mgrs = s.mgrs
  unfold Plane.enqueueBulk
  split <;> rfl

theorem leaves_settleNf (nfId : Nat) (sourceNf : Option Nat) (pkts : List Nat) (enqueued : Nat) :
    (settleNf nfId sourceNf pkts enqueued : PktProg ι Unit).Steps Leaves := by
  unfold settleNf
  split
  · exact (leaves_dropAll pkts).bind fun _ => (leaves_tally _ _).bind fun _ =>
      leaves_tallySource _ _
  · exact (leaves_tally _ _).bind fun _ => leaves_tallySource _ _

theorem leaves_settleTx (nf : Nat) (pkts : List Nat) (enqueued : Nat) :
    (settleTx nf pkts enqueued : PktProg ι Unit).Steps Leaves := by
  unfold settleTx
  split
  · exact (leaves_tally _ _).bind fun _ => leaves_dropAll _
  · exact leaves_tally _ _

theorem leaves_dropUnsent (port : Nat) (pkts : List Nat) (sent : Nat) :
    (dropUnsent port pkts sent : PktProg ι Unit).Steps Leaves := by
  unfold dropUnsent
  split
  · exact (leaves_dropAll _).bind fun _ => Prog.steps_access ⟨trivial, fun _ => rfl⟩ _
  · trivial

theorem leaves_setMeta (pkt : Nat) (f : Plane ι → OnvmPktMeta → OnvmPktMeta) :
    (Prog.write (.touch pkt) fun s => s.setMeta pkt (f s) : PktProg ι Unit).Steps Leaves :=
  Prog.steps_access ⟨trivial, fun _ => rfl⟩ _

theorem leaves_setNext (pkt : Nat) (sc : ServiceChain) :
    (setNext pkt sc : PktProg ι Unit).Steps Leaves :=
  (leaves_setMeta pkt _).bind fun _ => Prog.steps_access ⟨trivial, fun _ => rfl⟩ _

theorem leaves_classify (pkt : Nat) : (classify pkt : PktProg ι Unit).Steps Leaves :=
  (leaves_setMeta pkt _).bind fun _ => (leaves_setMeta pkt _).bind fun _ =>
    (Prog.steps_access ⟨trivial, fun _ => rfl⟩ _).bind fun sc => leaves_setNext pkt sc

/-! ## Flushes -/

def QueueMgr.len (q : QueueMgr) (b : Buf) : Nat := ((q.buf b).getD []).length

def QueueMgr.RoomBut (q : QueueMgr) (b : Buf) : Prop :=
  ∀ b', q.len b' < packetReadSize ∨ b' = b ∧ q.len b' = packetReadSize

theorem QueueMgr.RoomBut.room {q : QueueMgr} {b : Buf} (h : q.RoomBut b)
    (hb : q.len b ≠ packetReadSize) (b' : Buf) : q.len b' < packetReadSize := by
  rcases h b' with hlt | ⟨rfl, heq⟩
  · exact hlt
  · exact absurd heq hb

theorem QueueMgr.len_setBuf (q : QueueMgr) {b : Buf} (hb : (q.buf b).isSome) (pkts : List Nat)
    (b' : Buf) : (q.setBuf b pkts).len b' = if b' = b then pkts.length else q.len b' := by
  obtain ⟨l, hl⟩ := Option.isSome_iff_exists.mp hb
  unfold QueueMgr.len
  rw [QueueMgr.buf_setBuf q hl]
  split <;> rfl

variable [DecidableEq ι]

/-- A write to an own buffer, seen from the others. -/
theorem rely_setBuf (s : Plane ι) (w : ι) (b : Buf) (pkts : List Nat) {v : ι} (hv : v ≠ w) :
    (s.setBuf w b pkts).mgrs v = s.mgrs v :=
  Function.update_of_ne hv _ _

theorem mgrs_setBuf (s : Plane ι) (w : ι) (b : Buf) (pkts : List Nat) :
    (s.setBuf w b pkts).mgrs w = (s.mgrs w).setBuf b pkts :=
  Function.update_self ..

section Flushes

variable {w : ι} {s : Plane ι}

theorem clear_holds {b : Buf} (h : (s.mgrs w).RoomBut b) :
    (bufContract ι).Holds w (fun _ => AtRest w) (clear w b) s := by
  refine Contract.holds_access fun s' hr _ _ => ⟨trivial, trivial, fun v hv => rely_setBuf _ _ _ _ hv,
    fun b' => ?_⟩
  have hr : s'.mgrs w = s.mgrs w := hr
  show ((s'.setBuf w b []).mgrs w).len b' < _
  rw [mgrs_setBuf, hr]
  cases hb : (s.mgrs w).buf b with
  | none =>
    rw [QueueMgr.setBuf_of_none _ hb]
    refine h.room ?_ b'
    simp [QueueMgr.len, hb, packetReadSize]
  | some l =>
    rw [QueueMgr.len_setBuf _ (by simp [hb])]
    split
    · exact Nat.zero_lt_succ _
    · rename_i hne
      rcases h b' with hlt | ⟨heq, -⟩
      · exact hlt
      · exact absurd heq hne

/-- A flush of a buffer that may be full: if it is, it goes through. -/
theorem flushNfQueue_holds {nfId : Nat} (sourceNf : Option Nat)
    (h : (s.mgrs w).RoomBut (.nfRx nfId)) :
    (bufContract ι).Holds w (fun _ => AtRest w) (onvmPktFlushNfQueue w nfId sourceNf) s := by
  refine Contract.Holds.bind (holds_read trivial fun s₁ h₁ _ => ?_)
  rw [← h₁] at h
  split
  · rename_i hempty
    refine fun b => h.room ?_ b
    simp [QueueMgr.len, QueueMgr.buf, hempty, packetReadSize]
  refine Contract.Holds.bind (holds_read trivial fun s₂ h₂ hc => ?_)
  rw [← h₂] at h
  split
  · rename_i hinvalid
    refine fun b => h.room (fun hfull => ?_) b
    rw [hc hfull] at hinvalid
    cases hinvalid
  refine holds_bind_leaves (leaves_enqueueBulk _ _) fun enqueued s₃ h₃ => ?_
  refine holds_bind_leaves (leaves_settleNf _ _ _ _) fun _ s₄ h₄ => ?_
  rw [← h₃, ← h₄] at h
  exact clear_holds h

omit [DecidableEq ι] in
theorem roomBut_of_rest (b : Buf) (h : AtRest w s) : (s.mgrs w).RoomBut b := fun b' => .inl (h b')

theorem QueueMgr.RoomBut.room_of_none {q : QueueMgr} {b : Buf} (h : q.RoomBut b)
    (hb : q.buf b = none) (b' : Buf) : q.len b' < packetReadSize := by
  refine h.room ?_ b'
  simp [QueueMgr.len, hb, packetReadSize]

theorem QueueMgr.RoomBut.room_of_nil {q : QueueMgr} {b : Buf} (h : q.RoomBut b)
    (hb : q.buf b = some []) (b' : Buf) : q.len b' < packetReadSize := by
  refine h.room ?_ b'
  simp [QueueMgr.len, hb, packetReadSize]

omit [DecidableEq ι] in
theorem holds_deref {b : Buf} {k : Option (List Nat) → PktProg ι Unit}
    {Q : Unit → Plane ι → Prop}
    (h : ∀ s', s'.mgrs w = s.mgrs w → (bufContract ι).Holds w Q (k ((s.mgrs w).buf b)) s') :
    (bufContract ι).Holds w Q ((deref w b).bind k) s := by
  refine Contract.Holds.bind (Contract.holds_access fun s₁ h₁ _ _ => ?_)
  have h₁ : s₁.mgrs w = s.mgrs w := h₁
  have hmgrs : (if (s₁.mgrs w).buf b = none then s₁.fault (.wild b) else s₁).mgrs = s₁.mgrs := by
    split <;> rfl
  refine ⟨trivial, trivial, fun v _ => congrFun hmgrs v, ?_⟩
  rw [h₁]
  refine h _ ?_
  rw [← h₁, hmgrs]

theorem flushPortQueue_holds {port : Nat} (h : (s.mgrs w).RoomBut (.port port)) :
    (bufContract ι).Holds w (fun _ => AtRest w) (onvmPktFlushPortQueue w port) s := by
  refine Contract.Holds.bind (holds_read trivial fun s₁ h₁ _ => ?_)
  rw [← h₁] at h
  split
  · -- An NF has no port buffers, so there is none that is full.
    rename_i hmgr
    refine fun b => h.room_of_none ?_ b
    by_contra hsome
    exact hmgr (mgrType_of_port (Option.isSome_iff_ne_none.mpr hsome))
  refine holds_deref fun s₂ h₂ => ?_
  split
  · rename_i hnone
    rw [← h₂] at h hnone
    exact fun b => h.room_of_none hnone b
  rename_i pkts hsome
  split
  · rename_i hempty
    rw [hempty] at hsome
    rw [← h₂] at h hsome
    exact fun b => h.room_of_nil hsome b
  refine holds_bind_leaves (Prog.steps_access ⟨trivial, fun _ => rfl⟩ _) fun sent s₃ h₃ => ?_
  refine holds_bind_leaves (leaves_dropUnsent _ _ _) fun _ s₄ h₄ => ?_
  refine holds_bind_leaves (Prog.steps_access ⟨trivial, fun _ => rfl⟩ _) fun _ s₅ h₅ => ?_
  rw [← h₂, ← h₃, ← h₄, ← h₅] at h
  exact clear_holds h

theorem enqueueTxThread_holds {nf : Nat} (h : (s.mgrs w).RoomBut .toTx) :
    (bufContract ι).Holds w (fun _ => AtRest w) (onvmPktEnqueueTxThread w nf) s := by
  refine holds_deref fun s₁ h₁ => ?_
  split
  · rename_i hnone
    rw [← h₁] at h hnone
    exact fun b => h.room_of_none hnone b
  rename_i pkts hsome
  split
  · rename_i hempty
    rw [hempty] at hsome
    rw [← h₁] at h hsome
    exact fun b => h.room_of_nil hsome b
  refine holds_bind_leaves (leaves_enqueueBulk _ _) fun enqueued s₂ h₂ => ?_
  refine holds_bind_leaves (leaves_settleTx _ _ _) fun _ s₃ h₃ => ?_
  rw [← h₁, ← h₂, ← h₃] at h
  exact clear_holds h

end Flushes

/-! ## The calls -/

section Calls

variable {w : ι} {s : Plane ι}

/-- A flush that empties `b`, from states in which only `b` may be full. -/
def Empties (w : ι) (b : Buf) (flush : PktProg ι Unit) : Prop :=
  ∀ s, (s.mgrs w).RoomBut b → (bufContract ι).Holds w (fun _ => AtRest w) flush s

omit [DecidableEq ι] in
theorem rest_congr {s' : Plane ι} (h : AtRest w s) (hs : s'.mgrs w = s.mgrs w) : AtRest w s' :=
  (bufContract ι).stable (w := w) hs h

theorem mgrs_append {b : Buf} (h : s.HasRoom w b) (pkt : Nat) :
    (s.append w b pkt).mgrs = (s.setBuf w b (((s.mgrs w).buf b).getD [] ++ [pkt])).mgrs := by
  obtain ⟨pkts, hb⟩ := Option.isSome_iff_exists.mp h.1
  have hlt : pkts.length < packetReadSize := by
    have := h.2
    rwa [Plane.count, hb] at this
  unfold Plane.append
  simp only [hb, if_pos hlt]
  rfl

/-- The packet fits, and if it fills the buffer, the flush makes room again. -/
theorem appendOrFlush_holds {b : Buf} {pkt : Nat} {flush : PktProg ι Unit}
    (hf : Empties w b flush) (hr : AtRest w s)
    (hb : ∀ s', s'.mgrs w = s.mgrs w → FlushGoesThrough w (.append b pkt) s' →
      ((s'.mgrs w).buf b).isSome) :
    (bufContract ι).Holds w (fun _ => AtRest w) (appendOrFlush w b pkt flush) s := by
  refine Contract.Holds.bind (Contract.holds_access fun s₁ h₁ _ hc => ?_)
  have hroom : s₁.HasRoom w b := ⟨hb s₁ h₁ hc, rest_congr hr h₁ b⟩
  have hmgrs := mgrs_append hroom pkt
  refine ⟨hroom, trivial, fun v hv => ?_, ?_⟩
  · show (s₁.append w b pkt).mgrs v = s₁.mgrs v
    rw [hmgrs]
    exact rely_setBuf _ _ _ _ hv
  have hlen : ∀ b', (s₁.append w b pkt).count w b' =
      if b' = b then s₁.count w b + 1 else s₁.count w b' := fun b' => by
    show (((s₁.append w b pkt).mgrs w).len b') = _
    rw [hmgrs, mgrs_setBuf, QueueMgr.len_setBuf _ hroom.1]
    split
    · rw [List.length_append]
      rfl
    · rfl
  have hbut : ((s₁.append w b pkt).mgrs w).RoomBut b := fun b' => by
    have hcount := hlen b'
    split at hcount
    · rename_i heq
      have := hroom.2
      by_cases hfull : s₁.count w b + 1 < packetReadSize
      · exact .inl (hcount.trans_lt hfull)
      · exact .inr ⟨heq, hcount.trans (by omega)⟩
    · exact .inl (hcount.trans_lt (rest_congr hr h₁ b'))
  refine Contract.Holds.bind (holds_read trivial fun s₂ h₂ _ => ?_)
  rw [← h₂] at hbut
  split
  · exact hf s₂ hbut
  · rename_i hne
    exact fun b' => hbut.room hne b'

theorem enqueueNf_holds {serviceId pkt : Nat} {sourceNf : Option Nat} (hr : AtRest w s) :
    (bufContract ι).Holds w (fun _ => AtRest w) (onvmPktEnqueueNf w serviceId pkt sourceNf) s := by
  refine Contract.Holds.bind (holds_read trivial fun s₁ h₁ _ => ?_)
  have hr₁ := rest_congr hr h₁
  split
  · exact holds_leaves (leaves_refuse _ _) fun _ _ h => rest_congr hr₁ h
  refine Contract.Holds.bind (holds_read trivial fun s₂ h₂ _ => ?_)
  have hr₂ := rest_congr hr₁ h₂
  split
  · exact holds_leaves (leaves_refuse _ _) fun _ _ h => rest_congr hr₂ h
  · exact appendOrFlush_holds (fun _ h => flushNfQueue_holds sourceNf h) hr₂ fun _ _ _ => rfl

theorem enqueuePort_holds {port pkt : Nat} (hr : AtRest w s) :
    (bufContract ι).Holds w (fun _ => AtRest w) (onvmPktEnqueuePort w port pkt) s := by
  refine Contract.Holds.bind (holds_read trivial fun s₁ h₁ _ => ?_)
  have hr₁ := rest_congr hr h₁
  split
  · exact hr₁
  · exact appendOrFlush_holds (fun _ h => flushPortQueue_holds h) hr₁ fun _ _ hc => hc

theorem sendToNf_holds {pkt nf : Nat} (hr : AtRest w s) :
    (bufContract ι).Holds w (fun _ => AtRest w) (sendToNf w pkt nf) s := by
  refine holds_bind_leaves (leaves_tally _ _) fun _ s₁ h₁ => ?_
  refine Contract.Holds.bind (holds_read trivial fun s₂ h₂ _ => ?_)
  exact enqueueNf_holds (rest_congr hr (h₂.trans h₁))

theorem routeNext_holds {pkt nf action : Nat} (hr : AtRest w s) :
    (bufContract ι).Holds w (fun _ => AtRest w) (routeNext w pkt nf action) s := by
  unfold routeNext
  split
  · exact holds_leaves ((leaves_drop pkt).bind fun _ => leaves_tally _ _) fun _ _ h =>
      rest_congr hr h
  split
  · exact sendToNf_holds hr
  split
  · refine holds_bind_leaves (leaves_tally _ _) fun _ s₁ h₁ => ?_
    refine Contract.Holds.bind (holds_read trivial fun s₂ h₂ _ => ?_)
    exact enqueuePort_holds (rest_congr hr (h₂.trans h₁))
  · exact hr

theorem processNextAction_holds {pkt nf : Nat} (hr : AtRest w s) :
    (bufContract ι).Holds w (fun _ => AtRest w) (onvmPktProcessNextAction w pkt nf) s := by
  refine Contract.Holds.bind (holds_read trivial fun s₁ h₁ _ => ?_)
  refine holds_bind_leaves (leaves_setNext _ _) fun _ s₂ h₂ => ?_
  refine Contract.Holds.bind (holds_read trivial fun s₃ h₃ _ => ?_)
  have hr₃ := rest_congr hr (h₃.trans (h₂.trans h₁))
  refine Contract.Holds.bind ((routeNext_holds hr₃).mono fun _ s₄ hr₄ => ?_)
  exact holds_leaves (leaves_setMeta pkt _) fun _ _ h => rest_congr hr₄ h

theorem sendOut_holds {pkt nf : Nat} (hr : AtRest w s) :
    (bufContract ι).Holds w (fun _ => AtRest w) (sendOut w nf pkt) s := by
  refine Contract.Holds.bind (holds_read trivial fun s₁ h₁ _ => ?_)
  have hr₁ := rest_congr hr h₁
  split
  · rename_i hnf
    refine holds_bind_leaves (leaves_tally _ _) fun _ s₂ h₂ => ?_
    refine appendOrFlush_holds (fun _ h => enqueueTxThread_holds h) (rest_congr hr₁ h₂)
      fun s₃ h₃ _ => ?_
    rw [h₃, h₂]
    exact toTx_of_mgrType hnf
  · refine Contract.Holds.bind (holds_read trivial fun s₂ h₂ _ => ?_)
    exact enqueuePort_holds (rest_congr hr₁ h₂)

theorem routeTx_holds {pkt nf action : Nat} (hr : AtRest w s) :
    (bufContract ι).Holds w (fun _ => AtRest w) (routeTx w nf pkt action) s := by
  unfold routeTx
  split
  · refine holds_leaves ((leaves_tally _ _).bind fun _ => (leaves_drop pkt).bind fun _ =>
      (leaves_tally _ _).bind fun _ => Prog.steps_ret _) fun _ _ h => rest_congr hr h
  split
  · refine holds_bind_leaves (leaves_tally _ _) fun _ s₁ h₁ => ?_
    exact Contract.Holds.bind (processNextAction_holds (rest_congr hr h₁))
  split
  · exact Contract.Holds.bind (sendToNf_holds hr)
  split
  · exact Contract.Holds.bind (sendOut_holds hr)
  · exact holds_leaves ((leaves_drop pkt).bind fun _ => Prog.steps_ret _) fun _ _ h =>
      rest_congr hr h

theorem processTxPacket_holds {pkt nf : Nat} (hr : AtRest w s) :
    (bufContract ι).Holds w (fun _ => AtRest w) (processTxPacket w nf pkt) s := by
  refine holds_bind_leaves (leaves_setMeta pkt _) fun _ s₁ h₁ => ?_
  refine Contract.Holds.bind (holds_read trivial fun s₂ h₂ _ => ?_)
  exact routeTx_holds (rest_congr hr (h₂.trans h₁))

theorem txBatch_holds {nf : Nat} (pkts : List Nat) (hr : AtRest w s) :
    (bufContract ι).Holds w (fun _ => AtRest w) (onvmPktProcessTxBatch w nf pkts) s := by
  induction pkts generalizing s with
  | nil => exact hr
  | cons pkt pkts ih =>
    refine Contract.Holds.bind ((processTxPacket_holds hr).mono fun goesOn s₁ hr₁ => ?_)
    cases goesOn with
    | false => exact hr₁
    | true => exact ih hr₁

theorem processRxPacket_holds {pkt : Nat} (hr : AtRest w s) :
    (bufContract ι).Holds w (fun _ => AtRest w) (processRxPacket w pkt) s := by
  refine holds_bind_leaves (leaves_classify pkt) fun _ s₁ h₁ => ?_
  refine holds_bind_leaves (leaves_setMeta pkt _) fun _ s₂ h₂ => ?_
  refine Contract.Holds.bind (holds_read trivial fun s₃ h₃ _ => ?_)
  exact enqueueNf_holds (rest_congr hr (h₃.trans (h₂.trans h₁)))

theorem flushAllNfs_holds (sourceNf : Option Nat) (hr : AtRest w s) :
    (bufContract ι).Holds w (fun _ => AtRest w) (onvmPktFlushAllNfs w sourceNf) s :=
  Contract.Holds.each (J := fun _ => AtRest w)
    (fun _ _ _ hr => flushNfQueue_holds sourceNf (roomBut_of_rest _ hr)) hr

theorem rxBatch_holds (pkts : List Nat) (hr : AtRest w s) :
    (bufContract ι).Holds w (fun _ => AtRest w) (onvmPktProcessRxBatch w pkts) s := by
  have hround : (bufContract ι).Holds w (fun _ => AtRest w)
      (Prog.each (fun pkt => processRxPacket w pkt) pkts) s :=
    Contract.Holds.each (J := fun _ => AtRest w) (fun _ _ _ hr => processRxPacket_holds hr) hr
  refine Contract.Holds.bind (hround.mono fun _ s₁ hr₁ => ?_)
  exact flushAllNfs_holds none hr₁

theorem flushAllPorts_holds (hr : AtRest w s) :
    (bufContract ι).Holds w (fun _ => AtRest w) (onvmPktFlushAllPorts w) s := by
  refine Contract.Holds.bind (holds_read trivial fun s₁ h₁ _ => ?_)
  exact Contract.Holds.each (J := fun _ => AtRest w)
    (fun _ _ _ hr => flushPortQueue_holds (roomBut_of_rest _ hr)) (rest_congr hr h₁)

/-- **One call.** Made with room in every buffer, it writes within bounds and
ends with room in every buffer. -/
theorem call_holds (c : Call) (hr : AtRest w s) :
    (bufContract ι).Holds w (fun _ => AtRest w) (c.body w) s := by
  cases c with
  | rxBatch pkts => exact rxBatch_holds pkts hr
  | txBatch nf pkts => exact txBatch_holds pkts hr
  | enqueueNf serviceId pkt sourceNf => exact enqueueNf_holds hr
  | flushNfQueue nfId sourceNf => exact flushNfQueue_holds sourceNf (roomBut_of_rest _ hr)
  | flushAllNfs sourceNf => exact flushAllNfs_holds sourceNf hr
  | flushPortQueue port => exact flushPortQueue_holds (roomBut_of_rest _ hr)
  | flushAllPorts => exact flushAllPorts_holds hr
  | enqueueTxThread nf => exact enqueueTxThread_holds (roomBut_of_rest _ hr)

end Calls

/-! ## Runs -/

/-- The manager, the NFs and the NICs change anything but the buffers. -/
def Plane.outside (s e : Plane ι) : Plane ι := { e with mgrs := s.mgrs }

/-- The workers, none of which has a call in progress. -/
def Plane.workers (s : Plane ι) : Threads ι Access (Plane ι) := ⟨s, fun _ => .ret ()⟩

/-- Every write of the run is within its buffer, and at its end every worker
that has no call in progress has room in every buffer. -/
def BuffersBounded (s : Plane ι) (es : List (Turn ι Call (Plane ι))) : Prop :=
  Along (Threads.turn Plane.outside Call.body) (Threads.OnTick InBounds) s.workers es ∧
    let t := exec (Threads.turn Plane.outside Call.body) s.workers es
    ∀ w, t.Idle w → AtRest w t.shared

/-- **Bounds.** In a run in which every flush of a full buffer finds its NF
running, and no packet for a port is written through the union of an NF, no
buffer overflows. -/
theorem buffers_bounded (s : Plane ι) (es : List (Turn ι Call (Plane ι))) (hs : ∀ w, AtRest w s)
    (hc : Along (Threads.turn Plane.outside Call.body) (Threads.OnTick FlushGoesThrough)
      s.workers es) : BuffersBounded s es := by
  have hbody : ∀ w (c : Call) (s : Plane ι), (bufContract ι).Inv s → (bufContract ι).Rest w s →
      (bufContract ι).Holds w (fun _ => (bufContract ι).Rest w) (c.body w) s :=
    fun w c s _ hr => call_holds c hr
  have henv : ∀ s e : Plane ι, (bufContract ι).Inv s →
      (bufContract ι).Inv (s.outside e) ∧ ∀ w, (bufContract ι).Rely w s (s.outside e) :=
    fun s e _ => ⟨trivial, fun _ => rfl⟩
  have hstart : (bufContract ι).InForce s.workers := Contract.InForce.start trivial hs
  obtain ⟨hgoal, hforce⟩ := Contract.threads_along hbody henv hstart hc
  exact ⟨hgoal, fun w hidle => hforce.rest hidle⟩

/-- NF 1 of service 1 runs, and 31 packets for it are in the buffer of an RX
thread. -/
def almostFull : Plane Unit :=
  let tables := Tables.bootSingle.onvmNfCheckStatus
    [.nfStarting (some { serviceId := 1 }), .nfReady 1]
  (Plane.fresh tables fun _ => rxMgr).setBuf () (.nfRx 1) (List.range 31)

/-- A packet for service 1, up to the check of the flush that it causes. -/
def fillUp : List (Turn Unit Call (Plane Unit)) :=
  .call () (.enqueueNf 1 31 none) :: List.replicate 5 (.tick ())

theorem almostFull_rest (w : Unit) : AtRest w almostFull := by
  rintro (i | port | _)
  · by_cases hi : i = 1
    · subst hi
      decide +revert
    · simp [almostFull, Plane.count, Plane.setBuf, QueueMgr.setBuf, QueueMgr.buf, Plane.fresh, rxMgr,
        hi, packetReadSize]
  · exact Nat.zero_lt_succ _
  · exact Nat.zero_lt_succ _

theorem buffers_bounded_fillUp :
    BuffersBounded almostFull (fillUp ++ List.replicate 4 (.tick ())) :=
  buffers_bounded almostFull _ almostFull_rest (by decide +kernel)

/-- What the manager makes of messages, while the packets stay where they are. -/
def almostFullAfter (msgs : List Tables.Msg) : Plane Unit :=
  { almostFull with tables := almostFull.tables.onvmNfCheckStatus msgs }

/-- NF 1 stops, so that the flush does nothing; then NF 1 starts again, and the
next packet for it is written past the end of the buffer. -/
theorem stop_before_flush_overruns : ¬ BuffersBounded almostFull (fillUp ++
    [.env (almostFullAfter [.nfStopping (some 1)]), .tick (),
      .env (almostFullAfter [.nfStopping (some 1),
        .nfStarting (some { instanceId := 1, serviceId := 1 }), .nfReady 1]),
      .call () (.enqueueNf 1 32 none), .tick (), .tick (), .tick ()]) := by
  rintro ⟨h, -⟩
  revert h
  decide +kernel

end Onvm.Pkt

import Onvm.Lib.Places
import Onvm.Pkt.Common

/-!
# Calls without interference

What the packet functions do when one is run from its first to its last step:
`world` is what all of them leave alone, `held` says which packets are at which
place, and for each function there is a lemma that says what it does to `held`.
-/

namespace Onvm.Pkt

open Onvm.Lib Onvm.Nflib Onvm.Mgr

/-- Where a packet can be that is not in anybody's hand. -/
inductive Place (ι : Type) where
  | freed
  | buf (w : ι) (b : Buf)
  | ring (name : RingName)
  | nic (port : Nat)
  deriving DecidableEq

/-- What the packet functions read and never write. -/
structure World (ι : Type) where
  nfs : Nat → OnvmNf
  nfPerServiceCount : Nat → Nat
  services : Nat → Nat → Nat
  rss : Nat → UInt32
  flow : Nat → Option ServiceChain
  defaultChain : ServiceChain
  portInit : Nat → Bool
  mgrType : ι → MgrType
  hasBuf : ι → Buf → Bool

namespace Plane

variable {ι : Type}

def held (s : Plane ι) : Place ι → List Nat
  | .freed => s.freed
  | .buf w b => ((s.mgrs w).buf b).getD []
  | .ring name => (s.tables.rings name).getD []
  | .nic port => s.nic port

def world (s : Plane ι) : World ι where
  nfs := s.tables.nfs
  nfPerServiceCount := s.tables.nfPerServiceCount
  services := s.tables.services
  rss := s.rss
  flow := s.flow
  defaultChain := s.defaultChain
  portInit := s.portInit
  mgrType w := (s.mgrs w).mgrType
  hasBuf w b := ((s.mgrs w).buf b).isSome

/-- Where a bulk enqueue leaves the packets: on the ring, or freed. -/
def deposit (s : Plane ι) (q : Option RingName) (pkts : List Nat) : Place ι :=
  match q with
  | none => .freed
  | some name => if s.ringTakes q pkts.length then .ring name else .freed

variable [DecidableEq ι] {s : Plane ι}

/-! ## What the operations do to `held` -/

theorem held_free (s : Plane ι) (pkt : Nat) :
    (s.free pkt).held = Function.update s.held .freed (s.freed ++ [pkt]) := by
  funext p
  cases p <;> simp [held, free, disown]

theorem held_txBurst (s : Plane ι) (port : Nat) (pkts : List Nat) :
    (s.txBurst port pkts).held =
      Function.update s.held (.nic port) (s.nic port ++ pkts.take (s.sends pkts)) := by
  funext p
  cases p with
  | nic port' => by_cases h : port' = port <;> simp [held, txBurst, disown, h]
  | freed => rfl
  | buf w b => rfl
  | ring name => rfl

theorem held_enqueueBulk {name : RingName} {pkts : List Nat}
    (h : s.ringTakes (some name) pkts.length) : (s.enqueueBulk (some name) pkts).held =
      Function.update s.held (.ring name) (s.held (.ring name) ++ pkts) := by
  obtain ⟨queued, hq⟩ : ∃ queued, s.tables.rings name = some queued := by
    unfold ringTakes at h
    split at h
    · cases h
    · rename_i queued hq
      exact ⟨queued, hq⟩
  funext p
  unfold enqueueBulk
  rw [if_pos h]
  cases p with
  | ring name' =>
    by_cases hn : name' = name
    · simp [held, hn, hq]
    · simp [held, hn, Ne.symm hn]
  | freed => rfl
  | buf w b => rfl
  | nic port => rfl

theorem held_setBuf {w : ι} {b : Buf} (h : ((s.mgrs w).buf b).isSome)
    (pkts : List Nat) : (s.setBuf w b pkts).held = Function.update s.held (.buf w b) pkts := by
  obtain ⟨l, hl⟩ := Option.isSome_iff_exists.mp h
  funext p
  cases p with
  | buf v b' =>
    by_cases hv : v = w
    · subst hv
      by_cases hb : b' = b <;> simp [held, setBuf, QueueMgr.buf_setBuf _ hl, hb]
    · simp [held, setBuf, hv]
  | freed => rfl
  | ring name => rfl
  | nic port => rfl

/-! ## What they leave alone -/

omit [DecidableEq ι] in
@[simp] theorem world_enqueueBulk (s : Plane ι) (q : Option RingName) (pkts : List Nat) :
    (s.enqueueBulk q pkts).world = s.world := by
  unfold enqueueBulk
  split <;> rfl

@[simp] theorem world_setBuf (s : Plane ι) (w : ι) (b : Buf) (pkts : List Nat) :
    (s.setBuf w b pkts).world = s.world := by
  unfold world
  congr 1
  · funext v
    by_cases hv : v = w
    · subst hv
      simp [setBuf]
    · simp [setBuf, hv]
  · funext v b'
    by_cases hv : v = w
    · subst hv
      cases hb : (s.mgrs v).buf b with
      | none => simp [setBuf, QueueMgr.setBuf_of_none _ hb]
      | some l => by_cases hb' : b' = b <;> simp [setBuf, QueueMgr.buf_setBuf _ hb, hb', hb]
    · simp [setBuf, hv]

theorem hasBuf_setBuf (s : Plane ι) (w : ι) (b : Buf) (pkts : List Nat) (v : ι) (b' : Buf) :
    (((s.setBuf w b pkts).mgrs v).buf b').isSome = ((s.mgrs v).buf b').isSome :=
  congrFun (congrFun (congrArg World.hasBuf (world_setBuf s w b pkts)) v) b'

end Plane

variable {ι : Type}

/-! ## Programs that only count or free -/

theorem final_dropAll (pkts : List Nat) (s : Plane ι) : (dropAll pkts).final s =
    { s.disown pkts with freed := s.freed ++ pkts } := by
  unfold dropAll
  induction pkts generalizing s with
  | nil => simp [Plane.disown]
  | cons pkt pkts ih =>
    rw [Prog.final_each_cons, ih]
    simp only [onvmPktDrop, Prog.final, Prog.bind_eq, Prog.pure_eq, Prog.run_bind, Prog.run_access,
      Prog.run_ret, Plane.free, Plane.disown, List.append_assoc, List.singleton_append]
    congr 1
    funext pkt'
    by_cases h : pkt' = pkt <;> simp [h]

/-- All of the state but what counting and freeing change. -/
def Plane.core (s : Plane ι) : Plane ι :=
  { s with freed := [], stats := fun _ => {}, txStats := fun _ => {}, owner := fun _ => none }

@[simp] theorem Plane.core_tally (s : Plane ι) (nf : Nat) (g : NfStats → NfStats) :
    (s.tally nf g).core = s.core := rfl

@[simp] theorem Plane.core_free (s : Plane ι) (pkt : Nat) : (s.free pkt).core = s.core := rfl

@[simp] theorem Plane.freed_tally (s : Plane ι) (nf : Nat) (g : NfStats → NfStats) :
    (s.tally nf g).freed = s.freed := rfl

@[simp] theorem Plane.freed_free (s : Plane ι) (pkt : Nat) :
    (s.free pkt).freed = s.freed ++ [pkt] := rfl

theorem tallySource_core (sourceNf : Option Nat) (f : NfStats → NfStats) (s : Plane ι) :
    ((tallySource sourceNf f).final s).core = s.core := by
  cases sourceNf <;> rfl

theorem tallySource_freed (sourceNf : Option Nat) (f : NfStats → NfStats) (s : Plane ι) :
    ((tallySource sourceNf f).final s).freed = s.freed := by
  cases sourceNf <;> rfl

theorem settleNf_final (nfId : Nat) (sourceNf : Option Nat) (pkts : List Nat) (enqueued : Nat)
    (s : Plane ι) : ((settleNf nfId sourceNf pkts enqueued).final s).core = s.core ∧
      ((settleNf nfId sourceNf pkts enqueued).final s).freed =
        if enqueued = 0 then s.freed ++ pkts else s.freed := by
  unfold settleNf
  split
  · simp only [Prog.bind_eq, Prog.final_bind, tallySource_core, tallySource_freed]
    rw [final_dropAll]
    exact ⟨rfl, rfl⟩
  · simp only [Prog.bind_eq, Prog.final_bind, tallySource_core, tallySource_freed]
    exact ⟨rfl, rfl⟩

theorem settleTx_final (nf : Nat) (pkts : List Nat) (enqueued : Nat) (s : Plane ι) :
    ((settleTx nf pkts enqueued).final s).core = s.core ∧
      ((settleTx nf pkts enqueued).final s).freed =
        if enqueued = 0 then s.freed ++ pkts else s.freed := by
  unfold settleTx
  split
  · simp only [Prog.bind_eq, Prog.final_bind]
    rw [final_dropAll]
    exact ⟨rfl, rfl⟩
  · exact ⟨rfl, rfl⟩

theorem dropUnsent_final (port : Nat) (pkts : List Nat) (sent : Nat) (s : Plane ι) :
    ((dropUnsent port pkts sent).final s).core = s.core ∧
      ((dropUnsent port pkts sent).final s).freed = s.freed ++ pkts.drop sent := by
  unfold dropUnsent
  split
  · simp only [Prog.bind_eq, Prog.final_bind]
    rw [final_dropAll]
    exact ⟨rfl, rfl⟩
  · rename_i h
    rw [List.drop_eq_nil_of_le (Nat.le_of_not_lt h), List.append_nil]
    exact ⟨rfl, rfl⟩

/-- A packet without a destination is freed. -/
theorem refuse_final (pkt : Nat) (sourceNf : Option Nat) (s : Plane ι) :
    ((refuse pkt sourceNf).final s).core = s.core ∧
      ((refuse pkt sourceNf).final s).freed = s.freed ++ [pkt] := by
  unfold refuse
  simp only [Prog.bind_eq, Prog.final_bind, tallySource_core, tallySource_freed]
  exact ⟨rfl, rfl⟩

variable [DecidableEq ι] {s s' : Plane ι} {w : ι}

theorem held_of_core (h : s'.core = s.core) :
    s'.held = Function.update s.held .freed s'.freed := by
  have htables := congrArg Plane.tables h
  have hmgrs := congrArg Plane.mgrs h
  have hnic := congrArg Plane.nic h
  funext p
  cases p with
  | freed => simp [Plane.held]
  | buf w b =>
    have : s'.mgrs = s.mgrs := hmgrs
    simp [Plane.held, this]
  | ring name =>
    have : s'.tables = s.tables := htables
    simp [Plane.held, this]
  | nic port =>
    have : s'.nic = s.nic := hnic
    simp [Plane.held, this]

/-! ## Flushing -/

theorem held_emptied {b : Buf} {pkts : List Nat} (q : Option RingName)
    (hb : (s.mgrs w).buf b = some pkts) {t : Plane ι}
    (hcore : t.core = (s.enqueueBulk q pkts).core)
    (hfreed : t.freed = if (if s.ringTakes q pkts.length then pkts.length else 0) = 0
      then s.freed ++ pkts else s.freed) (hne : pkts ≠ []) :
    (t.setBuf w b []).held = Function.update (Function.update s.held (.buf w b) [])
      (s.deposit q pkts) (s.held (s.deposit q pkts) ++ pkts) := by
  have hmgrs : t.mgrs = s.mgrs := by
    have h := congrArg Plane.mgrs hcore
    unfold Plane.enqueueBulk at h
    split at h <;> exact h
  rw [Plane.held_setBuf (by simp [hmgrs, hb]), held_of_core hcore, hfreed]
  have hlen : pkts.length ≠ 0 := fun h => hne (List.length_eq_zero_iff.mp h)
  by_cases htake : s.ringTakes q pkts.length = true
  · obtain ⟨name, rfl⟩ : ∃ name, q = some name := by
      cases q with
      | none => cases htake
      | some name => exact ⟨name, rfl⟩
    rw [Plane.held_enqueueBulk htake]
    simp only [Plane.deposit, htake, if_true, hlen, if_false]
    funext p
    cases p with
    | freed => simp [Plane.held]
    | ring name' => by_cases hn : name' = name <;> simp [hn]
    | buf v b' => by_cases hp : Place.buf v b' = .buf w b <;> simp_all
    | nic port => simp
  · have hno : s.enqueueBulk q pkts = s := by
      unfold Plane.enqueueBulk
      rw [if_neg htake]
    have hdep : s.deposit q pkts = .freed := by
      unfold Plane.deposit
      split
      · rfl
      · rw [if_neg htake]
    rw [hno, hdep, if_neg htake, if_pos rfl, Function.update_comm (by simp)]
    rfl

omit [DecidableEq ι] in
theorem deposit_ne_buf (s : Plane ι) (q : Option RingName) (pkts : List Nat) (w : ι) (b : Buf) :
    Place.buf w b ≠ s.deposit q pkts := by
  unfold Plane.deposit
  split
  · simp
  · split <;> simp

/-- What a flush of buffer `b` does to `held`: nothing, or it empties the buffer
and leaves the other buffers as they are. -/
structure Flushed (s s' : Plane ι) (w : ι) (b : Buf) : Prop where
  conserves : Conserves s.held s'.held
  other : ∀ v b', Place.buf v b' ≠ .buf w b → s'.held (.buf v b') = s.held (.buf v b')
  self : s'.held = s.held ∨ s'.held (.buf w b) = []

omit [DecidableEq ι] in
theorem Flushed.refl (s : Plane ι) (w : ι) (b : Buf) : Flushed s s w b :=
  ⟨Conserves.refl _, fun _ _ _ => rfl, .inl rfl⟩

/-- The places after a buffer with packets was emptied to `p`. -/
theorem Flushed.of_moved {b : Buf} {p : Place ι} {pkts : List Nat} (hp : .buf w b ≠ p)
    (hnb : ∀ v b', Place.buf v b' ≠ p) (hb : s.held (.buf w b) = pkts)
    (h : s'.held = Function.update (Function.update s.held (.buf w b) []) p
      (s.held p ++ pkts)) : Flushed s s' w b := by
  refine ⟨?_, fun v b' hv => ?_, .inr ?_⟩
  · refine conserves_move (l := pkts) hp ?_ ?_ ?_
    · rw [h, Function.update_of_ne hp, Function.update_self, hb]
      exact List.Perm.refl _
    · rw [h, Function.update_self]
    · intro q hqa hqb
      rw [h, Function.update_of_ne hqb, Function.update_of_ne hqa]
  · rw [h, Function.update_of_ne (hnb v b'), Function.update_of_ne hv]
  · rw [h, Function.update_of_ne hp, Function.update_self]

theorem flushNfQueue_idle (w : ι) {nfId : Nat} (sourceNf : Option Nat) {s : Plane ι}
    (h : (s.mgrs w).nfRxBufs nfId = [] ∨ onvmNfIsValid (s.tables.nfs nfId) = false) :
    (onvmPktFlushNfQueue w nfId sourceNf).final s = s := by
  unfold onvmPktFlushNfQueue
  by_cases hempty : (s.mgrs w).nfRxBufs nfId = []
  · simp [Prog.bind_eq, Prog.pure_eq, hempty]
  · simp [Prog.bind_eq, Prog.pure_eq, hempty, h.resolve_left hempty]

/-- Enqueue, count or free, and empty the buffer. -/
theorem flushNfQueue_final (w : ι) {nfId : Nat} (sourceNf : Option Nat) {s : Plane ι}
    (hempty : (s.mgrs w).nfRxBufs nfId ≠ [])
    (hvalid : onvmNfIsValid (s.tables.nfs nfId) = true) :
    (onvmPktFlushNfQueue w nfId sourceNf).final s =
      ((settleNf nfId sourceNf ((s.mgrs w).nfRxBufs nfId) (if s.ringTakes (s.tables.nfs nfId).rxQ
        ((s.mgrs w).nfRxBufs nfId).length then ((s.mgrs w).nfRxBufs nfId).length else 0)).final
          (s.enqueueBulk (s.tables.nfs nfId).rxQ ((s.mgrs w).nfRxBufs nfId))).setBuf w
            (.nfRx nfId) [] := by
  unfold onvmPktFlushNfQueue
  simp [Prog.bind_eq, Prog.pure_eq, hempty, hvalid, rteRingEnqueueBulk, clear]
  rfl

theorem flushNfQueue_held (w : ι) {nfId : Nat} (sourceNf : Option Nat) {s : Plane ι}
    (hempty : (s.mgrs w).nfRxBufs nfId ≠ [])
    (hvalid : onvmNfIsValid (s.tables.nfs nfId) = true) :
    let pkts := (s.mgrs w).nfRxBufs nfId
    let p := s.deposit (s.tables.nfs nfId).rxQ pkts
    ((onvmPktFlushNfQueue w nfId sourceNf).final s).held =
      Function.update (Function.update s.held (.buf w (.nfRx nfId)) []) p (s.held p ++ pkts) := by
  intro pkts p
  obtain ⟨hcore, hfreed⟩ := settleNf_final nfId sourceNf pkts (if s.ringTakes
    (s.tables.nfs nfId).rxQ pkts.length then pkts.length else 0)
    (s.enqueueBulk (s.tables.nfs nfId).rxQ pkts)
  rw [flushNfQueue_final w sourceNf hempty hvalid]
  refine held_emptied (w := w) (b := .nfRx nfId) (s.tables.nfs nfId).rxQ rfl hcore ?_ hempty
  rw [hfreed]
  unfold Plane.enqueueBulk
  split <;> rfl

theorem flushNfQueue_flushed (w : ι) (nfId : Nat) (sourceNf : Option Nat) (s : Plane ι) :
    Flushed s ((onvmPktFlushNfQueue w nfId sourceNf).final s) w (.nfRx nfId) := by
  by_cases h : (s.mgrs w).nfRxBufs nfId = [] ∨ onvmNfIsValid (s.tables.nfs nfId) = false
  · rw [flushNfQueue_idle w sourceNf h]
    exact Flushed.refl s w _
  · obtain ⟨hempty, hvalid⟩ := not_or.mp h
    exact .of_moved (deposit_ne_buf _ _ _ _ _) (deposit_ne_buf _ _ _) rfl
      (flushNfQueue_held w sourceNf hempty (Bool.not_eq_false _ ▸ hvalid))

/-- The buffer of an NF that runs is empty after the flush. -/
theorem flushNfQueue_empties (w : ι) {nfId : Nat} (sourceNf : Option Nat) {s : Plane ι}
    (h : onvmNfIsValid (s.tables.nfs nfId) = true) :
    ((onvmPktFlushNfQueue w nfId sourceNf).final s).held (.buf w (.nfRx nfId)) = [] := by
  by_cases hempty : (s.mgrs w).nfRxBufs nfId = []
  · rw [flushNfQueue_idle w sourceNf (.inl hempty)]
    exact hempty
  · rw [flushNfQueue_held w sourceNf hempty h, Function.update_of_ne (deposit_ne_buf _ _ _ _ _),
      Function.update_self]

omit [DecidableEq ι] in
theorem Flushed.of_held {b : Buf} (h : s'.held = s.held) : Flushed s s' w b :=
  ⟨h ▸ Conserves.refl _, fun _ _ _ => by rw [h], .inl h⟩

theorem mgrType_of_port {q : QueueMgr} {p : Nat} (h : (q.buf (.port p)).isSome) :
    q.mgrType = .mgr := by
  unfold QueueMgr.mgrType
  unfold QueueMgr.buf at h
  split
  · rename_i hm
    simp [hm] at h
  · rfl

/-- Where the tag says `NF`, the union holds `to_tx_buf`. -/
theorem toTx_of_mgrType {q : QueueMgr} (h : q.mgrType ≠ .mgr) : (q.buf .toTx).isSome := by
  unfold QueueMgr.mgrType at h
  unfold QueueMgr.buf
  split at h
  · simp
  · exact absurd rfl h

theorem flushPortQueue_final (w : ι) {port : Nat} {s : Plane ι} {pkts : List Nat}
    (hbuf : (s.mgrs w).buf (.port port) = some pkts) (hne : pkts ≠ []) :
    (onvmPktFlushPortQueue w port).final s =
      (((dropUnsent port pkts (s.sends pkts)).final (s.txBurst port pkts)).tallyPort port fun st =>
        { st with tx := st.tx + s.sends pkts }).setBuf w (.port port) [] := by
  have hmgr : (s.mgrs w).mgrType = .mgr := mgrType_of_port (p := port) (by simp [hbuf])
  unfold onvmPktFlushPortQueue
  simp [Prog.bind_eq, Prog.pure_eq, hmgr, deref, hbuf, hne, clear]

theorem flushPortQueue_held (w : ι) {port : Nat} {s : Plane ι} {pkts : List Nat}
    (hbuf : (s.mgrs w).buf (.port port) = some pkts) (hne : pkts ≠ []) :
    ((onvmPktFlushPortQueue w port).final s).held =
      Function.update (Function.update (Function.update s.held (.buf w (.port port)) [])
        (.nic port) (s.nic port ++ pkts.take (s.sends pkts))) .freed
        (s.freed ++ pkts.drop (s.sends pkts)) := by
  have hfinal := flushPortQueue_final w hbuf hne
  obtain ⟨hcore, hfreed⟩ := dropUnsent_final port pkts (s.sends pkts) (s.txBurst port pkts)
  generalize (dropUnsent port pkts (s.sends pkts)).final (s.txBurst port pkts) = t at *
  have hmgrs : t.core.mgrs = (s.txBurst port pkts).core.mgrs := congrArg Plane.mgrs hcore
  have htally : (t.tallyPort port fun st => { st with tx := st.tx + s.sends pkts }).core =
      (s.txBurst port pkts).core := hcore
  have hf : (t.tallyPort port fun st => { st with tx := st.tx + s.sends pkts }).freed =
      s.freed ++ pkts.drop (s.sends pkts) := hfreed
  have hsome : ((((t.tallyPort port fun st => { st with tx := st.tx + s.sends pkts }).mgrs w).buf
      (.port port))).isSome := by
    show ((t.core.mgrs w).buf (.port port)).isSome
    rw [hmgrs]
    exact Option.isSome_iff_exists.mpr ⟨pkts, hbuf⟩
  rw [hfinal, Plane.held_setBuf hsome, held_of_core htally, Plane.held_txBurst, hf]
  funext p
  cases p with
  | freed => simp
  | nic port' => simp [Function.update_apply]
  | buf v b' => simp [Function.update_apply]
  | ring name => simp

theorem flushPortQueue_flushed (w : ι) (port : Nat) (s : Plane ι) :
    Flushed s ((onvmPktFlushPortQueue w port).final s) w (.port port) := by
  cases hbuf : (s.mgrs w).buf (.port port) with
  | none =>
    refine Flushed.of_held ?_
    unfold onvmPktFlushPortQueue
    by_cases hmgr : (s.mgrs w).mgrType = .mgr
    · simp [Prog.bind_eq, Prog.pure_eq, hmgr, deref, hbuf]
      rfl
    · simp [Prog.bind_eq, Prog.pure_eq, hmgr]
  | some pkts =>
    by_cases hne : pkts = []
    · subst hne
      refine Flushed.of_held ?_
      unfold onvmPktFlushPortQueue
      by_cases hmgr : (s.mgrs w).mgrType = .mgr
      · simp [Prog.bind_eq, Prog.pure_eq, hmgr, deref, hbuf]
      · simp [Prog.bind_eq, Prog.pure_eq, hmgr]
    · have h := flushPortQueue_held w hbuf hne
      have hself : s.held (.buf w (.port port)) = pkts := by simp [Plane.held, hbuf]
      refine ⟨?_, fun v b' hv => by rw [h]; simp [hv], .inr (by rw [h]; simp)⟩
      -- First what the NIC takes leaves the buffer, then the rest.
      have hsent : Conserves s.held (Function.update (Function.update s.held
          (.buf w (.port port)) (pkts.drop (s.sends pkts))) (.nic port)
          (s.nic port ++ pkts.take (s.sends pkts))) := by
        refine conserves_move (a := .buf w (.port port)) (b := .nic port)
          (l := pkts.take (s.sends pkts)) (by simp) ?_ ?_ ?_
        · simp only [ne_eq, reduceCtorEq, not_false_eq_true, Function.update_of_ne,
            Function.update_self, hself]
          exact (List.perm_append_comm.trans (List.Perm.of_eq (List.take_append_drop _ _))).symm
        · simp [Plane.held]
        · intro q hqa hqb
          simp [hqa, hqb]
      refine hsent.trans (conserves_move (a := .buf w (.port port)) (b := .freed)
        (l := pkts.drop (s.sends pkts)) (by simp) ?_ ?_ ?_)
      · rw [h]
        simp
      · rw [h]
        simp [Plane.held]
      · intro q hqa hqb
        rw [h]
        by_cases hqn : q = .nic port
        · simp [hqn]
        · simp [hqa, hqb, hqn]

theorem enqueueTxThread_held (w : ι) (nf : Nat) {s : Plane ι} {pkts : List Nat}
    (hbuf : (s.mgrs w).buf .toTx = some pkts) (hne : pkts ≠ []) :
    let p := s.deposit (s.tables.nfs nf).txQ pkts
    ((onvmPktEnqueueTxThread w nf).final s).held =
      Function.update (Function.update s.held (.buf w .toTx) []) p (s.held p ++ pkts) := by
  intro p
  have hfinal : (onvmPktEnqueueTxThread w nf).final s =
      ((settleTx nf pkts (if s.ringTakes (s.tables.nfs nf).txQ pkts.length then
        pkts.length else 0)).final (s.enqueueBulk (s.tables.nfs nf).txQ pkts)).setBuf w
          .toTx [] := by
    unfold onvmPktEnqueueTxThread
    simp [Prog.bind_eq, Prog.pure_eq, deref, hbuf, hne, rteRingEnqueueBulk, clear]
  obtain ⟨hcore, hfreed⟩ := settleTx_final nf pkts (if s.ringTakes (s.tables.nfs nf).txQ
    pkts.length then pkts.length else 0) (s.enqueueBulk (s.tables.nfs nf).txQ pkts)
  rw [hfinal]
  refine held_emptied (w := w) (b := .toTx) (s.tables.nfs nf).txQ hbuf hcore ?_ hne
  rw [hfreed]
  unfold Plane.enqueueBulk
  split <;> rfl

theorem enqueueTxThread_flushed (w : ι) (nf : Nat) (s : Plane ι) :
    Flushed s ((onvmPktEnqueueTxThread w nf).final s) w .toTx := by
  cases hbuf : (s.mgrs w).buf .toTx with
  | none =>
    refine Flushed.of_held ?_
    unfold onvmPktEnqueueTxThread
    simp [Prog.bind_eq, Prog.pure_eq, deref, hbuf]
    rfl
  | some pkts =>
    by_cases hne : pkts = []
    · subst hne
      refine Flushed.of_held ?_
      unfold onvmPktEnqueueTxThread
      simp [Prog.bind_eq, Prog.pure_eq, deref, hbuf]
    · refine .of_moved (deposit_ne_buf _ _ _ _ _) (deposit_ne_buf _ _ _) ?_
        (enqueueTxThread_held w nf hbuf hne)
      simp [Plane.held, hbuf]

theorem flushPortQueue_empties (w : ι) {port : Nat} {s : Plane ι}
    (h : ((s.mgrs w).buf (.port port)).isSome) :
    ((onvmPktFlushPortQueue w port).final s).held (.buf w (.port port)) = [] := by
  obtain ⟨pkts, hbuf⟩ := Option.isSome_iff_exists.mp h
  rcases (flushPortQueue_flushed w port s).self with hsame | hnil
  · by_cases hne : pkts = []
    · rw [hsame]
      simp [Plane.held, hbuf, hne]
    · rw [flushPortQueue_held w hbuf hne]
      simp
  · exact hnil

theorem enqueueTxThread_empties (w : ι) (nf : Nat) {s : Plane ι}
    (h : ((s.mgrs w).buf .toTx).isSome) :
    ((onvmPktEnqueueTxThread w nf).final s).held (.buf w .toTx) = [] := by
  obtain ⟨pkts, hbuf⟩ := Option.isSome_iff_exists.mp h
  rcases (enqueueTxThread_flushed w nf s).self with hsame | hnil
  · by_cases hne : pkts = []
    · rw [hsame]
      simp [Plane.held, hbuf, hne]
    · rw [enqueueTxThread_held w nf hbuf hne, Function.update_of_ne (deposit_ne_buf _ _ _ _ _),
        Function.update_self]
  · exact hnil

/-! ## What the functions leave alone -/

/-- The view `f` shows nothing of what the functions of worker `w` change, as
long as the buffers they reach for satisfy `B`: counters, rings, buffers. -/
structure Ignores {γ : Type} (f : Plane ι → γ) (w : ι) (B : Buf → Prop) : Prop where
  tally : ∀ s nf g, f (s.tally nf g) = f s
  tallyPort : ∀ s port g, f (s.tallyPort port g) = f s
  free : ∀ s pkt, f (s.free pkt) = f s
  enqueueBulk : ∀ s q pkts, f (s.enqueueBulk q pkts) = f s
  txBurst : ∀ s port pkts, f (s.txBurst port pkts) = f s
  setBuf : ∀ s b pkts, f (s.setBuf w b pkts) = f s
  append : ∀ s b pkt, B b → f (s.append w b pkt) = f s
  deref : ∀ s b, B b → f (if (s.mgrs w).buf b = none then s.fault (.wild b) else s) = f s

namespace Ignores

variable {γ : Type} {f : Plane ι → γ} {w : ι} {B : Buf → Prop}

theorem keeps_tally (h : Ignores f w B) (nf : Nat) (g : NfStats → NfStats) :
    (Pkt.tally nf g).Keeps f :=
  Prog.keeps_write fun s => h.tally s nf g

theorem keeps_tallySource (h : Ignores f w B) (sourceNf : Option Nat) (g : NfStats → NfStats) :
    (tallySource sourceNf g).Keeps f := by
  cases sourceNf with
  | none => trivial
  | some nf => exact h.keeps_tally nf g

theorem keeps_drop (h : Ignores f w B) (pkt : Nat) : (onvmPktDrop pkt).Keeps f :=
  Prog.keeps_access fun s => h.free s pkt

theorem keeps_dropAll (h : Ignores f w B) (pkts : List Nat) : (dropAll pkts).Keeps f := by
  refine Prog.Keeps.each (fun pkt => ?_) pkts
  exact (h.keeps_drop pkt).bind fun _ => Prog.keeps_ret ()

theorem keeps_appendOrFlush (h : Ignores f w B) {b : Buf} (hb : B b) (pkt : Nat)
    {flush : PktProg ι Unit} (hf : flush.Keeps f) : (appendOrFlush w b pkt flush).Keeps f := by
  refine (Prog.keeps_write fun s => h.append s b pkt hb).bind fun _ =>
    (Prog.keeps_read _ _).bind fun count => ?_
  split
  · exact hf
  · trivial

theorem keeps_flushNfQueue (h : Ignores f w B) (nfId : Nat) (sourceNf : Option Nat) :
    (onvmPktFlushNfQueue w nfId sourceNf).Keeps f := by
  refine (Prog.keeps_read _ _).bind fun pkts => ?_
  split
  · trivial
  refine (Prog.keeps_read _ _).bind fun valid => ?_
  split
  · trivial
  refine (Prog.keeps_access fun s => h.enqueueBulk _ _ _).bind fun enqueued => ?_
  refine Prog.Keeps.bind ?_ fun _ => Prog.keeps_write fun s => h.setBuf _ _ _
  unfold settleNf
  split
  · exact (h.keeps_dropAll pkts).bind fun _ => (h.keeps_tally _ _).bind fun _ =>
      h.keeps_tallySource _ _
  · exact (h.keeps_tally _ _).bind fun _ => h.keeps_tallySource _ _

theorem keeps_flushAllNfs (h : Ignores f w B) (sourceNf : Option Nat) :
    (onvmPktFlushAllNfs w sourceNf).Keeps f :=
  Prog.Keeps.each (fun i => h.keeps_flushNfQueue i sourceNf) _

theorem keeps_flushPortQueue (h : Ignores f w B) {port : Nat} (hb : B (.port port)) :
    (onvmPktFlushPortQueue w port).Keeps f := by
  refine (Prog.keeps_read _ _).bind fun mgrType => ?_
  split
  · trivial
  refine (Prog.keeps_access fun s => h.deref s _ hb).bind fun buf => ?_
  split
  · trivial
  split
  · trivial
  refine (Prog.keeps_access fun s => h.txBurst _ _ _).bind fun sent => ?_
  refine Prog.Keeps.bind ?_ fun _ => (Prog.keeps_write fun s => h.tallyPort _ _ _).bind fun _ =>
    Prog.keeps_write fun s => h.setBuf _ _ _
  unfold dropUnsent
  split
  · exact (h.keeps_dropAll _).bind fun _ => Prog.keeps_write fun s => h.tallyPort _ _ _
  · trivial

theorem keeps_enqueueTxThread (h : Ignores f w B) (hb : B .toTx) (nf : Nat) :
    (onvmPktEnqueueTxThread w nf).Keeps f := by
  refine (Prog.keeps_access fun s => h.deref s _ hb).bind fun buf => ?_
  split
  · trivial
  split
  · trivial
  refine (Prog.keeps_access fun s => h.enqueueBulk _ _ _).bind fun enqueued => ?_
  refine Prog.Keeps.bind ?_ fun _ => Prog.keeps_write fun s => h.setBuf _ _ _
  unfold settleTx
  split
  · exact (h.keeps_tally _ _).bind fun _ => h.keeps_dropAll _
  · exact h.keeps_tally _ _

theorem keeps_enqueueNf (h : Ignores f w B) (hb : ∀ i, B (.nfRx i)) (serviceId pkt : Nat)
    (sourceNf : Option Nat) : (onvmPktEnqueueNf w serviceId pkt sourceNf).Keeps f := by
  have hrefuse : (refuse pkt sourceNf).Keeps f :=
    (h.keeps_drop pkt).bind fun _ => h.keeps_tallySource _ _
  refine (Prog.keeps_read _ _).bind fun dst => ?_
  split
  · exact hrefuse
  refine (Prog.keeps_read _ _).bind fun valid => ?_
  split
  · exact hrefuse
  · exact h.keeps_appendOrFlush (hb dst) pkt (h.keeps_flushNfQueue _ _)

theorem keeps_sendToNf (h : Ignores f w B) (hb : ∀ i, B (.nfRx i)) (pkt nf : Nat) :
    (sendToNf w pkt nf).Keeps f :=
  (h.keeps_tally _ _).bind fun _ => (Prog.keeps_read _ _).bind fun dst =>
    h.keeps_enqueueNf hb dst pkt _

theorem keeps_enqueuePort (h : Ignores f w B) {port : Nat} (hb : B (.port port)) (pkt : Nat) :
    (onvmPktEnqueuePort w port pkt).Keeps f := by
  refine (Prog.keeps_read _ _).bind fun init => ?_
  split
  · trivial
  · exact h.keeps_appendOrFlush hb pkt (h.keeps_flushPortQueue hb)

theorem keeps_sendOut (h : Ignores f w B) (hb : ∀ b, B b) (nf pkt : Nat) :
    (sendOut w nf pkt).Keeps f := by
  refine (Prog.keeps_read _ _).bind fun mgrType => ?_
  split
  · exact (h.keeps_tally _ _).bind fun _ =>
      h.keeps_appendOrFlush (hb _) pkt (h.keeps_enqueueTxThread (hb _) nf)
  · exact (Prog.keeps_read _ _).bind fun dst => h.keeps_enqueuePort (hb _) pkt

theorem keeps_routeNext (h : Ignores f w B) (hb : ∀ b, B b) (pkt nf action : Nat) :
    (routeNext w pkt nf action).Keeps f := by
  unfold routeNext
  split
  · exact (h.keeps_drop pkt).bind fun _ => h.keeps_tally _ _
  split
  · exact h.keeps_sendToNf (fun i => hb _) pkt nf
  split
  · exact (h.keeps_tally _ _).bind fun _ => (Prog.keeps_read _ _).bind fun dst =>
      h.keeps_enqueuePort (hb _) pkt
  · trivial

end Ignores

/-- The view shows nothing of the metadata of `pkt` either. -/
structure IgnoresPkt {γ : Type} (f : Plane ι → γ) (w : ι) (B : Buf → Prop) (pkt : Nat) : Prop
    extends Ignores f w B where
  setMeta : ∀ s g, f (s.setMeta pkt g) = f s
  decisions : ∀ s d, f { s with decisions := d } = f s

namespace IgnoresPkt

variable {γ : Type} {f : Plane ι → γ} {w : ι} {B : Buf → Prop} {pkt : Nat}

theorem keeps_setNext (h : IgnoresPkt f w B pkt) (sc : ServiceChain) : (setNext pkt sc).Keeps f :=
  (Prog.keeps_write fun s => h.setMeta s _).bind fun _ =>
    Prog.keeps_write fun s => (h.decisions _ _).trans (h.setMeta s _)

theorem keeps_processNextAction (h : IgnoresPkt f w B pkt) (hb : ∀ b, B b) (nf : Nat) :
    (onvmPktProcessNextAction w pkt nf).Keeps f :=
  (Prog.keeps_read _ _).bind fun sc => (h.keeps_setNext sc).bind fun _ =>
    (Prog.keeps_read _ _).bind fun action => (h.keeps_routeNext hb pkt nf action).bind fun _ =>
      Prog.keeps_write fun s => h.setMeta s _

theorem keeps_routeTx (h : IgnoresPkt f w B pkt) (hb : ∀ b, B b) (nf action : Nat) :
    (routeTx w nf pkt action).Keeps f := by
  unfold routeTx
  split
  · exact (h.keeps_tally _ _).bind fun _ => (h.keeps_drop pkt).bind fun _ =>
      (h.keeps_tally _ _).bind fun _ => trivial
  split
  · exact (h.keeps_tally _ _).bind fun _ => (h.keeps_processNextAction hb nf).bind fun _ => trivial
  split
  · exact (h.keeps_sendToNf (fun _ => hb _) pkt nf).bind fun _ => trivial
  split
  · exact (h.keeps_sendOut hb nf pkt).bind fun _ => trivial
  · exact (h.keeps_drop pkt).bind fun _ => trivial

theorem keeps_processTxPacket (h : IgnoresPkt f w B pkt) (hb : ∀ b, B b) (nf : Nat) :
    (processTxPacket w nf pkt).Keeps f :=
  (Prog.keeps_write fun s => h.setMeta s _).bind fun _ => (Prog.keeps_read _ _).bind fun action =>
    h.keeps_routeTx hb nf action

theorem keeps_processRxPacket (h : IgnoresPkt f w B pkt) (hb : ∀ i, B (.nfRx i)) :
    (processRxPacket w pkt).Keeps f := by
  have hclassify : (classify pkt).Keeps f :=
    (Prog.keeps_write fun s => h.setMeta s _).bind fun _ =>
      (Prog.keeps_write fun s => h.setMeta s _).bind fun _ =>
        (Prog.keeps_read _ _).bind fun sc => h.keeps_setNext sc
  exact hclassify.bind fun _ => (Prog.keeps_write fun s => h.setMeta s _).bind fun _ =>
    (Prog.keeps_read _ _).bind fun dst => h.keeps_enqueueNf hb dst pkt none

end IgnoresPkt

theorem ignores_of_fault {γ : Type} {f : Plane ι → γ} {w : ι}
    (htally : ∀ s nf g, f (s.tally nf g) = f s)
    (htallyPort : ∀ s port g, f (s.tallyPort port g) = f s)
    (hfree : ∀ s pkt, f (s.free pkt) = f s)
    (henqueue : ∀ s q pkts, f (s.enqueueBulk q pkts) = f s)
    (hburst : ∀ s port pkts, f (s.txBurst port pkts) = f s)
    (hset : ∀ s b pkts, f (s.setBuf w b pkts) = f s) (hfault : ∀ s x, f (s.fault x) = f s) :
    Ignores f w fun _ => True where
  tally := htally
  tallyPort := htallyPort
  free := hfree
  enqueueBulk := henqueue
  txBurst := hburst
  setBuf := hset
  append s b pkt _ := by
    unfold Plane.append
    split
    · exact hfault _ _
    · split
      · exact hset _ _ _
      · exact hfault _ _
  deref s b _ := by
    split
    · exact hfault _ _
    · rfl

theorem ignores_world (w : ι) : Ignores Plane.world w fun _ => True :=
  ignores_of_fault (fun _ _ _ => rfl) (fun _ _ _ => rfl) (fun _ _ => rfl) Plane.world_enqueueBulk
    (fun _ _ _ => rfl) (fun s => Plane.world_setBuf s w) (fun _ _ => rfl)

theorem ignoresPkt_world (w : ι) (pkt : Nat) : IgnoresPkt Plane.world w (fun _ => True) pkt :=
  { ignores_world w with setMeta := fun _ _ => rfl, decisions := fun _ _ => rfl }

omit [DecidableEq ι] in
theorem pktMeta_enqueueBulk (s : Plane ι) (q : Option RingName) (pkts : List Nat) :
    (s.enqueueBulk q pkts).pktMeta = s.pktMeta := by
  unfold Plane.enqueueBulk
  split <;> rfl

theorem ignoresPkt_pktMeta (w : ι) (pkt : Nat) :
    IgnoresPkt (fun s : Plane ι => Function.update s.pktMeta pkt {}) w (fun _ => True) pkt :=
  { ignores_of_fault (f := fun s : Plane ι => Function.update s.pktMeta pkt {})
      (fun _ _ _ => rfl) (fun _ _ _ => rfl) (fun _ _ => rfl)
      (fun s q pkts => by simp only [pktMeta_enqueueBulk]) (fun _ _ _ => rfl) (fun _ _ _ => rfl)
      (fun _ _ => rfl) with
    setMeta := fun s g => by simp [Plane.setMeta]
    decisions := fun _ _ => rfl }

end Onvm.Pkt

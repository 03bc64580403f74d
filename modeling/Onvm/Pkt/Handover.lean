import Onvm.Pkt.Deliver

/-!
# Ordered hand-over and its accounts

What one worker does by `onvm_pkt_enqueue_nf` and the flushes, written down as a
log: packet by packet, whether it was put on the ring of an NF, dropped at that
ring, or refused for want of an NF. A flush enters the whole buffer with one
fate. The buffers, the rings, the freed packets and the four counters all follow
from the log (`ordered_handover`).
-/

namespace Onvm.Pkt

open Onvm.Lib Onvm.Nflib Onvm.Mgr

/-! ## The log -/

/-- What became of a packet. -/
inductive Fate where
  | delivered (nf : Nat)
  | dropped (nf : Nat)
  | refused
  deriving DecidableEq, Repr

namespace Fate

def ofNf (i : Nat) : Fate → Bool
  | delivered nf | dropped nf => nf == i
  | refused => false

def sent : Fate → Bool
  | delivered _ => true
  | dropped _ | refused => false

def lost (f : Fate) : Bool := !f.sent

def onRing (nfs : Nat → OnvmNf) (name : RingName) : Fate → Bool
  | delivered nf => (nfs nf).rxQ == some name
  | dropped _ | refused => false

end Fate

abbrev FateLog := List (Nat × Fate)

namespace FateLog

def pkts (log : FateLog) (p : Fate → Bool) : List Nat := (log.filter fun x => p x.2).map (·.1)

def block (pkts : List Nat) (f : Fate) : FateLog := pkts.map (·, f)

@[simp] theorem pkts_nil (p : Fate → Bool) : pkts [] p = [] := rfl

@[simp] theorem pkts_append (log log' : FateLog) (p : Fate → Bool) :
    pkts (log ++ log') p = pkts log p ++ pkts log' p := by
  simp [pkts]

@[simp] theorem pkts_block (l : List Nat) (f : Fate) (p : Fate → Bool) :
    pkts (block l f) p = if p f then l else [] := by
  induction l with
  | nil => simp [block]
  | cons pkt l ih =>
    have hcons : pkts (block (pkt :: l) f) p = (if p f then [pkt] else []) ++ pkts (block l f) p := by
      unfold pkts block
      rw [List.map_cons, List.filter_cons]
      split <;> rfl
    rw [hcons, ih]
    split <;> rfl

theorem pkts_sublist {p q : Fate → Bool} (h : ∀ f, p f → q f) (log : FateLog) :
    (log.pkts p).Sublist (log.pkts q) :=
  (List.monotone_filter_right log fun x => h x.2).map _

/-- What left the buffer of an NF was delivered or dropped. -/
theorem pkts_ofNf_perm (log : FateLog) (i : Nat) : (log.pkts (Fate.ofNf i)).Perm
    (log.pkts (· == .delivered i) ++ log.pkts (· == .dropped i)) := by
  induction log with
  | nil => exact List.Perm.refl _
  | cons x log ih =>
    obtain ⟨pkt, f⟩ := x
    have hcons : ∀ p, pkts ((pkt, f) :: log) p = (if p f then [pkt] else []) ++ pkts log p :=
      fun p => by
        unfold pkts
        rw [List.filter_cons]
        split <;> rfl
    rw [hcons, hcons, hcons]
    cases f with
    | refused => exact ih
    | delivered nf =>
      by_cases hnf : nf = i
      · simpa [Fate.ofNf, hnf] using ih
      · simpa [Fate.ofNf, hnf] using ih
    | dropped nf =>
      by_cases hnf : nf = i
      · simpa [Fate.ofNf, hnf] using (ih.cons pkt).trans List.perm_middle.symm
      · simpa [Fate.ofNf, hnf] using ih

end FateLog

variable {ι : Type} {w : ι} {n : Nat} {s s' s'' : Plane ι}

/-! ## What a call does -/

/-- The state before and after, the packets that were looked up in between to an NF
that runs and those that were not, and the log: what left the buffer of an NF and
what is in it are what was in it and what was routed to it, in order; what is not
on a ring is freed; and the counters of the NFs and of source NF `n` count. -/
structure Accounts (w : ι) (n : Nat) (s s' : Plane ι) (routed : Nat → List Nat)
    (refused : List Nat) (log : FateLog) : Prop where
  order : ∀ i, log.pkts (Fate.ofNf i) ++ (s'.mgrs w).nfRxBufs i =
    (s.mgrs w).nfRxBufs i ++ routed i
  refused : log.pkts (· == .refused) = refused
  freed : s'.freed = s.freed ++ log.pkts Fate.lost
  rx : ∀ i, (s'.stats i).rx = (s.stats i).rx + (log.pkts (· == .delivered i)).length
  rxDrop : ∀ i, (s'.stats i).rxDrop = (s.stats i).rxDrop + (log.pkts (· == .dropped i)).length
  tx : ∀ i, (s'.stats i).tx = (s.stats i).tx + if i = n then (log.pkts Fate.sent).length else 0
  txDrop : ∀ i, (s'.stats i).txDrop =
    (s.stats i).txDrop + if i = n then (log.pkts Fate.lost).length else 0

/-- The accounts of a call that nobody interrupts, with what the rings gain. -/
structure Books (w : ι) (n : Nat) (s s' : Plane ι) (routed : Nat → List Nat) (refused : List Nat)
    (log : FateLog) : Prop extends Accounts w n s s' routed refused log where
  world : s'.world = s.world
  rings : ∀ name, s'.held (.ring name) =
    s.held (.ring name) ++ log.pkts (Fate.onRing s.tables.nfs name)

section Books

variable {routed routed' : Nat → List Nat} {refused refused' : List Nat} {log log' : FateLog}

theorem Accounts.refl (w : ι) (n : Nat) (s : Plane ι) : Accounts w n s s (fun _ => []) [] [] := by
  constructor <;> simp

theorem Accounts.trans (h : Accounts w n s s' routed refused log)
    (h' : Accounts w n s' s'' routed' refused' log') :
    Accounts w n s s'' (fun i => routed i ++ routed' i) (refused ++ refused') (log ++ log') := by
  refine ⟨fun i => ?_, ?_, ?_, fun i => ?_, fun i => ?_, fun i => ?_, fun i => ?_⟩
  · rw [FateLog.pkts_append, List.append_assoc, h'.order, ← List.append_assoc, h.order,
      List.append_assoc]
  · rw [FateLog.pkts_append, h.refused, h'.refused]
  · rw [h'.freed, h.freed, FateLog.pkts_append, List.append_assoc]
  · rw [h'.rx, h.rx, FateLog.pkts_append, List.length_append, Nat.add_assoc]
  · rw [h'.rxDrop, h.rxDrop, FateLog.pkts_append, List.length_append, Nat.add_assoc]
  · rw [h'.tx, h.tx, FateLog.pkts_append, List.length_append]
    split <;> omega
  · rw [h'.txDrop, h.txDrop, FateLog.pkts_append, List.length_append]
    split <;> omega

theorem Books.refl (w : ι) (n : Nat) (s : Plane ι) : Books w n s s (fun _ => []) [] [] :=
  ⟨.refl w n s, rfl, fun _ => (List.append_nil _).symm⟩

theorem Books.trans (h : Books w n s s' routed refused log)
    (h' : Books w n s' s'' routed' refused' log') :
    Books w n s s'' (fun i => routed i ++ routed' i) (refused ++ refused') (log ++ log') := by
  have hnfs : s'.tables.nfs = s.tables.nfs := Plane.nfs_of_world h.world
  refine ⟨h.toAccounts.trans h'.toAccounts, h'.world.trans h.world, fun name => ?_⟩
  rw [h'.rings, h.rings, hnfs, FateLog.pkts_append, List.append_assoc]

end Books

variable [DecidableEq ι]

omit [DecidableEq ι] in
/-- The counters after the accounts of a bulk enqueue. -/
theorem settleNf_stats (nfId n : Nat) (pkts : List Nat) (enqueued : Nat) (s : Plane ι) (i : Nat) :
    let st := ((settleNf nfId (some n) pkts enqueued).final s).stats i
    st.rx = (s.stats i).rx + (if enqueued ≠ 0 ∧ i = nfId then pkts.length else 0) ∧
      st.rxDrop = (s.stats i).rxDrop + (if enqueued = 0 ∧ i = nfId then pkts.length else 0) ∧
      st.tx = (s.stats i).tx + (if enqueued ≠ 0 ∧ i = n then pkts.length else 0) ∧
      st.txDrop = (s.stats i).txDrop + (if enqueued = 0 ∧ i = n then pkts.length else 0) := by
  unfold settleNf tallySource tally
  by_cases he : enqueued = 0
  · simp only [he, if_true, Prog.bind_eq, Prog.final_bind, Prog.final_write, final_dropAll]
    rcases eq_or_ne i n with rfl | hn <;> rcases eq_or_ne i nfId with rfl | hf <;>
      simp [Plane.tally, Plane.disown, Function.update_apply, *]
  · simp only [he, if_false, Prog.bind_eq, Prog.final_bind, Prog.final_write]
    rcases eq_or_ne i n with rfl | hn <;> rcases eq_or_ne i nfId with rfl | hf <;>
      simp [Plane.tally, Function.update_apply, *]

omit [DecidableEq ι] in
theorem stats_enqueueBulk (s : Plane ι) (q : Option RingName) (pkts : List Nat) :
    (s.enqueueBulk q pkts).stats = s.stats := by
  unfold Plane.enqueueBulk
  split <;> rfl

omit [DecidableEq ι] in
theorem deposit_of_takes {q : Option RingName} {pkts : List Nat} (h : s.ringTakes q pkts.length) :
    ∃ name, q = some name ∧ s.deposit q pkts = .ring name := by
  cases q with
  | none => cases h
  | some name => exact ⟨name, rfl, if_pos h⟩

omit [DecidableEq ι] in
theorem deposit_of_full {q : Option RingName} {pkts : List Nat}
    (h : ¬ s.ringTakes q pkts.length) : s.deposit q pkts = .freed := by
  cases q with
  | none => rfl
  | some name => exact if_neg h

theorem flushNfQueue_stats (w : ι) (n : Nat) {nfId : Nat} (hne : (s.mgrs w).nfRxBufs nfId ≠ [])
    (hvalid : onvmNfIsValid (s.tables.nfs nfId) = true) (i : Nat) :
    let pkts := (s.mgrs w).nfRxBufs nfId
    let enqueued := if s.ringTakes (s.tables.nfs nfId).rxQ pkts.length then pkts.length else 0
    let st := ((onvmPktFlushNfQueue w nfId (some n)).final s).stats i
    st.rx = (s.stats i).rx + (if enqueued ≠ 0 ∧ i = nfId then pkts.length else 0) ∧
      st.rxDrop = (s.stats i).rxDrop + (if enqueued = 0 ∧ i = nfId then pkts.length else 0) ∧
      st.tx = (s.stats i).tx + (if enqueued ≠ 0 ∧ i = n then pkts.length else 0) ∧
      st.txDrop = (s.stats i).txDrop + (if enqueued = 0 ∧ i = n then pkts.length else 0) := by
  intro pkts enqueued
  have h := settleNf_stats nfId n pkts enqueued (s.enqueueBulk (s.tables.nfs nfId).rxQ pkts) i
  rw [stats_enqueueBulk] at h
  rw [flushNfQueue_final w (some n) hne hvalid]
  exact h

/-- A flush delivers the buffer or drops it. -/
theorem flushNfQueue_books (w : ι) (n nfId : Nat) (s : Plane ι) : ∃ log,
    Books w n s ((onvmPktFlushNfQueue w nfId (some n)).final s) (fun _ => []) [] log := by
  by_cases hidle : (s.mgrs w).nfRxBufs nfId = [] ∨ onvmNfIsValid (s.tables.nfs nfId) = false
  · rw [flushNfQueue_idle w (some n) hidle]
    exact ⟨[], .refl w n s⟩
  obtain ⟨hne, hvalid⟩ := not_or.mp hidle
  rw [Bool.not_eq_false] at hvalid
  have hheld := flushNfQueue_held w (some n) hne hvalid
  have hstats := flushNfQueue_stats w n hne hvalid
  have hworld := ((ignores_world w).keeps_flushNfQueue nfId (some n)).final s
  have hlen : ((s.mgrs w).nfRxBufs nfId).length ≠ 0 := by simpa using hne
  generalize (onvmPktFlushNfQueue w nfId (some n)).final s = s' at hheld hworld hstats ⊢
  dsimp only at hheld hstats
  have hbuf : ∀ i, (s'.mgrs w).nfRxBufs i = if i = nfId then [] else (s.mgrs w).nfRxBufs i := by
    intro i
    show s'.held (.buf w (.nfRx i)) = _
    rw [hheld, Function.update_of_ne (deposit_ne_buf _ _ _ _ _), Function.update_apply]
    simp [Plane.held, QueueMgr.buf]
  -- whatever becomes of the packets, they left the buffer in order
  have horder : ∀ f, (∀ i, Fate.ofNf i f = (nfId == i)) → ∀ i,
      (FateLog.block ((s.mgrs w).nfRxBufs nfId) f).pkts (Fate.ofNf i) ++ (s'.mgrs w).nfRxBufs i =
        (s.mgrs w).nfRxBufs i ++ [] := by
    intro f hf i
    rw [hbuf, FateLog.pkts_block, hf]
    by_cases hi : i = nfId
    · subst hi
      simp
    · simp [hi, Ne.symm hi]
  by_cases htakes : s.ringTakes (s.tables.nfs nfId).rxQ ((s.mgrs w).nfRxBufs nfId).length
  · obtain ⟨name, hq, hdep⟩ := deposit_of_takes htakes
    rw [if_pos htakes] at hstats
    rw [hdep] at hheld
    refine ⟨FateLog.block ((s.mgrs w).nfRxBufs nfId) (.delivered nfId),
      ⟨horder _ fun _ => rfl, ?_, ?_, fun i => ?_, fun i => ?_, fun i => ?_, fun i => ?_⟩, hworld,
      fun name' => ?_⟩
    · rw [FateLog.pkts_block]
      rfl
    · show s'.held .freed = _
      rw [hheld, FateLog.pkts_block]
      simp [Fate.lost, Fate.sent, Plane.held]
    · rw [(hstats i).1, FateLog.pkts_block]
      by_cases hi : i = nfId
      · simp [hi, hlen]
      · simp [hi, Ne.symm hi]
    · simp [(hstats i).2.1, hlen]
    · simp [(hstats i).2.2.1, hlen, Fate.sent]
    · simp [(hstats i).2.2.2, hlen, Fate.lost, Fate.sent]
    · rw [hheld, FateLog.pkts_block]
      by_cases hn : name' = name
      · subst hn
        simp [Fate.onRing, hq]
      · simp [Fate.onRing, hq, hn, Ne.symm hn]
  · rw [if_neg htakes] at hstats
    rw [deposit_of_full htakes] at hheld
    refine ⟨FateLog.block ((s.mgrs w).nfRxBufs nfId) (.dropped nfId),
      ⟨horder _ fun _ => rfl, ?_, ?_, fun i => ?_, fun i => ?_, fun i => ?_, fun i => ?_⟩, hworld,
      fun name' => ?_⟩
    · rw [FateLog.pkts_block]
      rfl
    · show s'.held .freed = _
      rw [hheld, FateLog.pkts_block]
      simp [Fate.lost, Fate.sent, Plane.held]
    · simp [(hstats i).1]
    · rw [(hstats i).2.1, FateLog.pkts_block]
      by_cases hi : i = nfId
      · simp [hi]
      · simp [hi, Ne.symm hi]
    · simp [(hstats i).2.2.1, Fate.sent]
    · simp [(hstats i).2.2.2, Fate.lost, Fate.sent]
    · rw [hheld, FateLog.pkts_block]
      simp [Fate.onRing]

theorem flushNfQueues_books (w : ι) (n : Nat) (is : List Nat) (s : Plane ι) : ∃ log,
    Books w n s ((Prog.each (fun i => onvmPktFlushNfQueue w i (some n)) is).final s) (fun _ => [])
      [] log := by
  induction is generalizing s with
  | nil => exact ⟨[], .refl w n s⟩
  | cons i is ih =>
    rw [Prog.final_each_cons]
    obtain ⟨log, h⟩ := flushNfQueue_books w n i s
    obtain ⟨log', h'⟩ := ih ((onvmPktFlushNfQueue w i (some n)).final s)
    exact ⟨log ++ log', h.trans h'⟩

theorem refuse_books (w : ι) (n pkt : Nat) (s : Plane ι) :
    Books w n s ((refuse pkt (some n)).final s) (fun _ => []) [pkt] [(pkt, .refused)] := by
  obtain ⟨hcore, hfreed⟩ := refuse_final pkt (some n) s
  have hmgrs : ((refuse pkt (some n)).final s).mgrs = s.mgrs := by
    show ((refuse pkt (some n)).final s).core.mgrs = s.core.mgrs
    rw [hcore]
  have hstats : ∀ i, ((refuse pkt (some n)).final s).stats i =
      if i = n then { s.stats i with txDrop := (s.stats i).txDrop + 1 } else s.stats i := by
    intro i
    by_cases hi : i = n
    · subst hi
      simp [refuse, onvmPktDrop, tallySource, tally, Prog.bind_eq, Plane.tally, Plane.free,
        Plane.disown]
    · simp [refuse, onvmPktDrop, tallySource, tally, Prog.bind_eq, Plane.tally, Plane.free,
        Plane.disown, hi]
  refine ⟨⟨fun i => ?_, rfl, hfreed, fun i => ?_, fun i => ?_, fun i => ?_, fun i => ?_⟩, ?_,
    fun name => ?_⟩
  · rw [hmgrs]
    simp [FateLog.pkts, Fate.ofNf]
  case refine_6 =>
    show ((refuse pkt (some n)).final s).core.world = s.core.world
    rw [hcore]
  case refine_7 =>
    rw [held_of_core hcore, Function.update_of_ne (by simp)]
    simp [FateLog.pkts, Fate.onRing]
  all_goals
    rw [hstats]
    split <;> simp [FateLog.pkts, Fate.sent, Fate.lost]

theorem append_books {i : Nat} (n : Nat) (hroom : s.HasRoom w (.nfRx i)) (pkt : Nat) :
    Books w n s (s.append w (.nfRx i) pkt) (Function.update (fun _ => []) i [pkt]) [] [] := by
  have hheld := held_append hroom pkt
  have hmem : s.append w (.nfRx i) pkt = s.setBuf w (.nfRx i) ((s.mgrs w).nfRxBufs i ++ [pkt]) := by
    unfold Plane.append
    exact if_pos hroom.2
  refine ⟨⟨fun j => ?_, rfl, ?_, fun j => ?_, fun j => ?_, fun j => ?_, fun j => ?_⟩,
    (ignores_world w).append s (.nfRx i) pkt trivial, fun name => ?_⟩
  · show [] ++ (s.append w (.nfRx i) pkt).held (.buf w (.nfRx j)) = _
    rw [hheld]
    by_cases hj : j = i
    · subst hj
      simp [Plane.held, QueueMgr.buf]
    · simp [Plane.held, QueueMgr.buf, hj]
  case refine_7 =>
    rw [hheld, Function.update_of_ne (by simp)]
    simp
  all_goals
    rw [hmem]
    simp [Plane.setBuf]

/-- Every NF that runs has room in its buffer. -/
def Roomy (w : ι) (s : Plane ι) : Prop :=
  ∀ i, onvmNfIsValid (s.tables.nfs i) = true → ((s.mgrs w).nfRxBufs i).length < packetReadSize

theorem Roomy.flushed {nfId : Nat} (h : Roomy w s) (sourceNf : Option Nat) :
    Roomy w ((onvmPktFlushNfQueue w nfId sourceNf).final s) := by
  intro i hi
  have hworld := ((ignores_world w).keeps_flushNfQueue nfId sourceNf).final s
  rw [Plane.nfs_of_world hworld] at hi
  have hflushed := flushNfQueue_flushed w nfId sourceNf s
  show (((onvmPktFlushNfQueue w nfId sourceNf).final s).held (.buf w (.nfRx i))).length < _
  by_cases hin : i = nfId
  · subst hin
    rw [flushNfQueue_empties w sourceNf hi]
    exact Nat.zero_lt_succ _
  · rw [hflushed.other w (.nfRx i) (by simpa using hin)]
    exact h i hi

theorem Roomy.enqueued (h : Roomy w s) (serviceId pkt : Nat) (sourceNf : Option Nat) :
    Roomy w ((onvmPktEnqueueNf w serviceId pkt sourceNf).final s) := by
  have htakes : s.NfTakes w serviceId pkt := by
    by_cases hvalid : onvmNfIsValid (s.tables.nfs (s.instanceFor serviceId pkt)) = false
    · exact .inr (.inl hvalid)
    · exact .inr (.inr ⟨rfl, h _ (Bool.not_eq_false _ ▸ hvalid)⟩)
  intro i hi
  have hworld := ((ignores_world w).keeps_enqueueNf (fun _ => trivial) serviceId pkt sourceNf).final s
  rw [Plane.nfs_of_world hworld] at hi
  rcases (enqueueNf_routed w serviceId pkt sourceNf s).bounds htakes w (.nfRx i) with hsame | hlt
  · show (((onvmPktEnqueueNf w serviceId pkt sourceNf).final s).held (.buf w (.nfRx i))).length < _
    rw [hsame]
    exact h i hi
  · exact hlt.2

/-- Which NF a packet is routed to, and whether to any. -/
def Plane.routedTo (s : Plane ι) (serviceId pkt : Nat) : Nat → List Nat :=
  if s.Unserved serviceId pkt then fun _ => []
  else Function.update (fun _ => []) (s.instanceFor serviceId pkt) [pkt]

def Plane.refusedOf (s : Plane ι) (serviceId pkt : Nat) : List Nat :=
  if s.Unserved serviceId pkt then [pkt] else []

theorem enqueueNf_books (n serviceId pkt : Nat) (h : Roomy w s) : ∃ log,
    Books w n s ((onvmPktEnqueueNf w serviceId pkt (some n)).final s)
      (s.routedTo serviceId pkt) (s.refusedOf serviceId pkt) log := by
  unfold Plane.routedTo Plane.refusedOf
  by_cases hun : s.Unserved serviceId pkt
  · rw [enqueueNf_unserved w (some n) hun, if_pos hun, if_pos hun]
    exact ⟨_, refuse_books w n pkt s⟩
  · rw [enqueueNf_served w (some n) hun, if_neg hun, if_neg hun]
    have hvalid : onvmNfIsValid (s.tables.nfs (s.instanceFor serviceId pkt)) = true := by
      simpa using (not_or.mp hun).2
    generalize s.instanceFor serviceId pkt = i at hvalid ⊢
    have happend := append_books n (⟨rfl, h i hvalid⟩ : s.HasRoom w (.nfRx i)) pkt
    rw [appendOrFlush_final]
    split
    · obtain ⟨log, hflush⟩ := flushNfQueue_books w n i (s.append w (.nfRx i) pkt)
      have hboth := happend.trans hflush
      simp only [List.append_nil] at hboth
      exact ⟨_, hboth⟩
    · exact ⟨[], happend⟩

/-! ## Runs -/

/-- The calls of the worker; `rings` is what other threads do to the rings. -/
inductive HandoverEvent where
  | enqueueNf (serviceId pkt : Nat)
  | flushNfQueue (nfId : Nat)
  | flushAllNfs
  | rings (rings : RingName → Option (List Nat))

/-- The plane and three history variables: what the calls of the worker have put
on each ring, the packets looked up to each NF that runs, and those refused. -/
structure Handover (ι : Type) where
  plane : Plane ι
  put : RingName → List Nat
  routed : Nat → List Nat
  refused : List Nat

namespace Handover

def start (s : Plane ι) : Handover ι := ⟨s, fun _ => [], fun _ => [], []⟩

def call (w : ι) (n : Nat) : HandoverEvent → PktProg ι Unit
  | .enqueueNf serviceId pkt => onvmPktEnqueueNf w serviceId pkt (some n)
  | .flushNfQueue nfId => onvmPktFlushNfQueue w nfId (some n)
  | .flushAllNfs => onvmPktFlushAllNfs w (some n)
  | .rings rings => .write .tau fun s => { s with tables := { s.tables with rings := rings } }

def routes (s : Plane ι) : HandoverEvent → Nat → List Nat
  | .enqueueNf serviceId pkt => s.routedTo serviceId pkt
  | _ => fun _ => []

def refuses (s : Plane ι) : HandoverEvent → List Nat
  | .enqueueNf serviceId pkt => s.refusedOf serviceId pkt
  | _ => []

/-- What is behind the old packets of a ring was put there. -/
def puts (s s' : Plane ι) : HandoverEvent → RingName → List Nat
  | .rings _, _ => []
  | _, name => (s'.held (.ring name)).drop (s.held (.ring name)).length

def step (w : ι) (n : Nat) (t : Handover ι) (e : HandoverEvent) : Handover ι :=
  let plane := (call w n e).final t.plane
  { plane := plane
    put := fun name => t.put name ++ puts t.plane plane e name
    routed := fun i => t.routed i ++ routes t.plane e i
    refused := t.refused ++ refuses t.plane e }

variable {t : Handover ι} {e : HandoverEvent}

/-- A call keeps what is on the rings and adds behind it. -/
def KeepsRings (w : ι) (n : Nat) (t : Handover ι) (e : HandoverEvent) : Prop :=
  (∀ rings, e ≠ .rings rings) →
    ∀ name, t.plane.held (.ring name) <+: (t.step w n e).plane.held (.ring name)

structure Step (w : ι) (n : Nat) (t : Handover ι) (e : HandoverEvent) (log : FateLog) : Prop where
  accounts : Accounts w n t.plane (t.step w n e).plane (routes t.plane e) (refuses t.plane e) log
  world : (t.step w n e).plane.world = t.plane.world
  put : ∀ name, puts t.plane (t.step w n e).plane e name =
    log.pkts (Fate.onRing t.plane.tables.nfs name)
  keeps : KeepsRings w n t e

theorem Step.of_books {log : FateLog} (he : ∀ rings, e ≠ .rings rings)
    (h : Books w n t.plane (t.step w n e).plane (routes t.plane e) (refuses t.plane e) log) :
    Step w n t e log := by
  refine ⟨h.toAccounts, h.world, fun name => ?_, fun _ name => ⟨_, (h.rings name).symm⟩⟩
  cases e with
  | rings rings => exact absurd rfl (he rings)
  | _ =>
    show ((t.step w n _).plane.held (.ring name)).drop _ = _
    rw [h.rings, List.drop_left]

/-- **One step**, on buffers with room. -/
theorem step_spec (h : Roomy w t.plane) (n : Nat) (e : HandoverEvent) :
    (∃ log, Step w n t e log) ∧ Roomy w (t.step w n e).plane := by
  cases e with
  | enqueueNf serviceId pkt =>
    obtain ⟨log, hlog⟩ := enqueueNf_books n serviceId pkt h
    exact ⟨⟨log, .of_books (fun _ h => by cases h) hlog⟩, h.enqueued serviceId pkt (some n)⟩
  | flushNfQueue nfId =>
    obtain ⟨log, hlog⟩ := flushNfQueue_books w n nfId t.plane
    exact ⟨⟨log, .of_books (fun _ h => by cases h) hlog⟩, h.flushed (some n)⟩
  | flushAllNfs =>
    obtain ⟨log, hlog⟩ := flushNfQueues_books w n (List.range maxNfs) t.plane
    exact ⟨⟨log, .of_books (fun _ h => by cases h) hlog⟩,
      Prog.each_inv (I := Roomy w) (fun _ _ _ hs => hs.flushed (some n)) h⟩
  | rings rings =>
    refine ⟨⟨[], ?_, rfl, fun _ => rfl, fun hno => absurd rfl (hno rings)⟩, h⟩
    constructor <;> intros <;> simp [step, call, routes, refuses]

structure Run (w : ι) (n : Nat) (s : Plane ι) (t : Handover ι) (log : FateLog) : Prop where
  accounts : Accounts w n s t.plane t.routed t.refused log
  world : t.plane.world = s.world
  put : ∀ name, t.put name = log.pkts (Fate.onRing s.tables.nfs name)

theorem Run.step {log : FateLog} (h : Run w n s t log) (hroom : Roomy w t.plane)
    (e : HandoverEvent) : ∃ log', Run w n s (t.step w n e) log' := by
  obtain ⟨log', hstep⟩ := (step_spec hroom n e).1
  have hnfs : t.plane.tables.nfs = s.tables.nfs := Plane.nfs_of_world h.world
  refine ⟨log ++ log', h.accounts.trans hstep.accounts, hstep.world.trans h.world, fun name => ?_⟩
  show t.put name ++ puts t.plane (t.step w n e).plane e name = _
  rw [h.put, hstep.put, hnfs, FateLog.pkts_append]

/-- **Ordered hand-over.** One worker enqueues and flushes on behalf of NF `n`, from
buffers with room, while the rings change as they may. There is a log from which
all follows. For each NF, what was put on its ring and then what is in the buffer
is a subsequence of what was there and was routed to it; the rest is what was
dropped; and the packets dropped and refused are freed, once each and in their
order. The counters of the NFs and of `n` are those of the log (`Accounts`). -/
theorem ordered_handover (n : Nat) (h : Roomy w s) (es : List HandoverEvent)
    (t : Handover ι) (ht : t = exec (fun t e => step w n t e) (start s) es) :
    Along (fun t e => step w n t e) (KeepsRings w n) (start s) es ∧
    ∃ log : FateLog, Accounts w n s t.plane t.routed t.refused log ∧
      (∀ name, t.put name = log.pkts (Fate.onRing s.tables.nfs name)) ∧
      ∀ i, (log.pkts (· == .delivered i) ++ (t.plane.mgrs w).nfRxBufs i).Sublist
          ((s.mgrs w).nfRxBufs i ++ t.routed i) ∧
        (log.pkts (· == .delivered i) ++ log.pkts (· == .dropped i) ++
          (t.plane.mgrs w).nfRxBufs i).Perm ((s.mgrs w).nfRxBufs i ++ t.routed i) := by
  have hroom : ∀ t e, Roomy w t.plane → Roomy w (step w n t e).plane := fun t e ht =>
    (step_spec ht n e).2
  constructor
  · refine along_of_inv (I := fun t => Roomy w t.plane) hroom (fun t e ht => ?_) h es
    obtain ⟨log, hlog⟩ := (step_spec ht n e).1
    exact hlog.keeps
  · have hrun : Roomy w t.plane ∧ ∃ log, Run w n s t log := by
      rw [ht]
      refine exec_inv (I := fun t => Roomy w t.plane ∧ ∃ log, Run w n s t log)
        (fun t e ⟨hr, log, hlog⟩ => ⟨hroom t e hr, hlog.step hr e⟩) ⟨h, [], ?_⟩ es
      exact ⟨.refl w n s, rfl, fun _ => rfl⟩
    obtain ⟨-, log, hlog⟩ := hrun
    refine ⟨log, hlog.accounts, hlog.put, fun i => ?_⟩
    rw [← hlog.accounts.order i]
    refine ⟨List.Sublist.append_right (FateLog.pkts_sublist (fun f hf => ?_) log) _,
      (FateLog.pkts_ofNf_perm log i).symm.append_right _⟩
    rw [beq_iff_eq.mp hf]
    exact beq_self_eq_true i

/-- NF 1 of service 1 runs, and a TX thread has empty buffers. -/
def oneNf : Plane Unit :=
  Plane.fresh (exec Tables.onEvent Tables.bootSingle
    [.msg (.nfStarting (some { serviceId := 1 })), .msg (.nfReady 1)]) fun _ => txMgr

/-- Two packets for service 1 and one for service 2; the second flush finds the
ring gone. -/
def oneNfEvents : List HandoverEvent :=
  [.enqueueNf 1 5, .flushNfQueue 1, .enqueueNf 2 6, .enqueueNf 1 7, .rings fun _ => none,
    .flushAllNfs]

def oneNfEnd : Handover Unit := exec (fun t e => step () 1 t e) (start oneNf) oneNfEvents

/-- Packet 5 is delivered, 6 refused and 7 dropped. -/
theorem ordered_handover_oneNf :
    Along (fun t e => step () 1 t e) (KeepsRings () 1) (start oneNf) oneNfEvents ∧
    ∃ log : FateLog, Accounts () 1 oneNf oneNfEnd.plane oneNfEnd.routed oneNfEnd.refused log ∧
      log.pkts (Fate.onRing oneNf.tables.nfs ⟨.rx, 1⟩) = [5] ∧ oneNfEnd.plane.freed = [6, 7] ∧
      (oneNfEnd.plane.stats 1).rx = 1 ∧ (oneNfEnd.plane.stats 1).rxDrop = 1 ∧
      (oneNfEnd.plane.stats 1).txDrop = 2 ∧
      (log.pkts (· == .delivered 1) ++ log.pkts (· == .dropped 1)).Perm [5, 7] := by
  have hroomy : Roomy () oneNf := fun _ _ => Nat.zero_lt_succ _
  obtain ⟨hkeeps, log, hlog, hput, hperm⟩ := ordered_handover 1 hroomy oneNfEvents oneNfEnd rfl
  refine ⟨hkeeps, log, hlog, ?_, by decide +kernel, by decide +kernel, by decide +kernel,
    by decide +kernel, ?_⟩
  · rw [← hput]
    decide +kernel
  · have hbuf : (oneNfEnd.plane.mgrs ()).nfRxBufs 1 = [] := by decide +kernel
    have hrouted : (oneNf.mgrs ()).nfRxBufs 1 ++ oneNfEnd.routed 1 = [5, 7] := by decide +kernel
    have h := (hperm 1).2
    rwa [hbuf, hrouted, List.append_nil] at h

end Handover

end Onvm.Pkt

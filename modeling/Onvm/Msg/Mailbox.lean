import Onvm.Lib.Places
import Onvm.Mgr.Registry
import Onvm.Msg.System

/-!
# Messages from NF to NF

`onvm_nflib_send_msg_to_nf` and `onvm_nflib_dequeue_messages`, each call as a
whole, on the tables of the manager, the message rings and the pool, with what
the messages say. A service without a running NF is looked up as instance 0,
and unlike `onvm_pkt_enqueue_nf` the sender does not ask: it goes on with the
ring pointer of slot 0. `mailbox_iff` says that this is all that goes wrong.
-/

namespace Onvm.Msg

open Onvm.Lib Onvm.Nflib Onvm.Mgr

inductive MsgType where
  | noop
  | stop
  | nfStarting
  | nfStopping
  | nfReady
  | scale
  | fromNf
  | requestLpmRegion
  | changeCore
  | requestFt
  deriving DecidableEq, Repr

structure OnvmNfMsg (α : Type) where
  msgType : MsgType
  msgData : α
  deriving DecidableEq, Repr

/-- The shared memory the two functions work on. `accepted` and `handled` are
history variables: the messages put on the ring of an NF, and those it passed to
`onvm_nflib_handle_msg`. -/
structure Mail (α : Type) where
  tables : Tables
  msgPool : List Nat
  content : Nat → OnvmNfMsg α
  accepted : Nat → List (OnvmNfMsg α)
  handled : Nat → List (OnvmNfMsg α)

namespace Mail

variable {α : Type} {s s' : Mail α} {dest i : Nat} {data : α}

/-! ## The two functions -/

/-- `onvm_nflib_send_msg_to_nf` with what it returns. `none` is an access outside
`services`, or to a ring that is not there. -/
def sendMsgToNf (s : Mail α) (dest : Nat) (data : α) : Option (Int × Mail α) :=
  match s.msgPool with
  | [] => some (eNoent, s)
  | msg :: msgs =>
    let s := { s with
      msgPool := msgs
      content := Function.update s.content msg ⟨.fromNf, data⟩ }
    if dest < maxServices then
      let i := onvmScServiceToNfMap s.tables.nfPerServiceCount s.tables.services dest none
      match (s.tables.nfs i).msgQ with
      | none => none
      | some q =>
        match s.tables.rings q with
        | none => none
        | some queued =>
          if queued.length < msgRingCapacity then
            some (0, { s with
              tables := s.tables.setQueued q (queued ++ [msg])
              accepted := Function.update s.accepted i (s.accepted i ++ [⟨.fromNf, data⟩]) })
          else some (eNobufs, { s with msgPool := msgs ++ [msg] })
    else none

def dequeueMessages (s : Mail α) (i : Nat) : Option (Mail α) :=
  match (s.tables.nfs i).msgQ with
  | none => none
  | some q =>
    match s.tables.rings q with
    | none => none
    | some [] => some s
    | some (msg :: queued) =>
      some { s with
        tables := s.tables.setQueued q queued
        handled := Function.update s.handled i (s.handled i ++ [s.content msg])
        msgPool := s.msgPool ++ [msg] }

inductive Call (α : Type) where
  | send (dest : Nat) (data : α)
  | dequeue (i : Nat)

/-- A call on memory on which nothing has gone wrong yet. -/
def step (s : Option (Mail α)) : Call α → Option (Mail α)
  | .send dest data => s.bind fun s => (s.sendMsgToNf dest data).map (·.2)
  | .dequeue i => s.bind fun s => s.dequeueMessages i

/-! ## What is asked of a call -/

/-- The messages on the ring of instance `k`, first the next one. -/
def queued (s : Mail α) (k : Nat) : List Nat := (s.tables.rings ⟨.msg, k⟩).getD []

def pending (s : Mail α) (k : Nat) : List (OnvmNfMsg α) := (s.queued k).map s.content

/-- The message is behind the others on the ring of a running NF of the service,
and the other rings are as they were. -/
def Appended (s s' : Mail α) (dest : Nat) (data : α) : Prop :=
  ∃ i, (s.tables.nfs i).status = .running ∧ (s.tables.nfs i).serviceId = dest ∧
    (s.tables.nfs i).msgQ = some ⟨.msg, i⟩ ∧
    s'.pending i = s.pending i ++ [⟨.fromNf, data⟩] ∧ (∀ k, k ≠ i → s'.pending k = s.pending k) ∧
    ∀ q, q ≠ ⟨.msg, i⟩ → s'.tables.rings q = s.tables.rings q

/-- All rings are as they were, and so is the pool but for the order. -/
def Untouched (s s' : Mail α) : Prop :=
  s'.tables = s.tables ∧ (∀ k, s'.pending k = s.pending k) ∧ s'.msgPool.Perm s.msgPool

/-- A send to `dest` ends with 0 and the message on its way, or with an error and
nothing changed. -/
def SendRight (s : Mail α) (dest : Nat) (data : α) : Prop :=
  ∃ ret s', s.sendMsgToNf dest data = some (ret, s') ∧
    (ret = 0 ∧ Appended s s' dest data ∨ ret ≠ 0 ∧ Untouched s s')

/-- There is an NF to send to, or the call fails before that matters: no message
is left, or the ring of slot 0 is there and full. -/
def Addressed (s : Mail α) (dest : Nat) : Prop :=
  s.msgPool = [] ∨ 0 < s.tables.nfPerServiceCount dest ∨
    ∃ q ∈ (s.tables.nfs 0).msgQ, ∃ l ∈ s.tables.rings q, msgRingCapacity ≤ l.length

/-! ## The invariant -/

/-- The first entries of a service, as many as it counts, are its running NFs, and
a running NF has a message ring under its name. -/
structure InOrder (m : Tables) : Prop where
  listed : ∀ s i, i ∈ (List.range (m.nfPerServiceCount s)).map (m.services s) ↔
    (m.nfs i).status = .running ∧ (m.nfs i).serviceId = s
  ringed : ∀ i, (m.nfs i).status = .running →
    (m.nfs i).msgQ = some ⟨.msg, i⟩ ∧ (m.rings ⟨.msg, i⟩).isSome

def held (s : Mail α) : Option Nat → List Nat
  | none => s.msgPool
  | some k => s.queued k

/-- A message is at one place at most, and what a running NF has accepted is what
it has handled and then what is on its ring. -/
structure Sound (s : Mail α) : Prop where
  inOrder : InOrder s.tables
  placed : ∀ t, AtOne s.held t ∨ Nowhere s.held t
  books : ∀ i, (s.tables.nfs i).status = .running → s.accepted i = s.handled i ++ s.pending i

/-! ## The lookup -/

theorem InOrder.lookup {m : Tables} (h : InOrder m) {dest : Nat}
    (hpos : 0 < m.nfPerServiceCount dest) :
    ∃ i, onvmScServiceToNfMap m.nfPerServiceCount m.services dest none = i ∧
      (m.nfs i).status = .running ∧ (m.nfs i).serviceId = dest := by
  obtain ⟨k, hk, hmap⟩ := serviceToNfMap_index m.services none hpos
  refine ⟨_, rfl, (h.listed dest _).mp ?_⟩
  rw [hmap]
  exact List.mem_map.mpr ⟨k, List.mem_range.mpr hk, rfl⟩

theorem InOrder.none_running {m : Tables} (h : InOrder m) {dest : Nat}
    (hzero : m.nfPerServiceCount dest = 0) {i : Nat} :
    ¬ ((m.nfs i).status = .running ∧ (m.nfs i).serviceId = dest) := by
  rw [← h.listed, hzero]
  exact List.not_mem_nil

theorem InOrder.setQueued {m : Tables} (h : InOrder m) (q : RingName) (l : List Nat) :
    InOrder (m.setQueued q l) := by
  refine ⟨h.listed, fun i hi => ⟨(h.ringed i hi).1, ?_⟩⟩
  have hring := (h.ringed i hi).2
  show (Function.update m.rings q ((m.rings q).map fun _ => l) ⟨.msg, i⟩).isSome
  by_cases hq : ⟨.msg, i⟩ = q
  · subst hq
    rw [Function.update_self, Option.isSome_map]
    exact hring
  · rwa [Function.update_of_ne hq]

/-- A consistent registry is in order while the manager runs. -/
theorem InOrder.of_consistent {m : Tables} (h : m.Consistent) (hexit : m.exit = none) :
    InOrder m := by
  constructor
  · intro s i
    obtain ⟨l, hl, -, -, -, -, hmem⟩ := h.service s
    rw [hl]
    exact hmem i
  · intro i hi
    obtain ⟨-, -, hq, hlive⟩ := (h.fits.sound.tidy i).owned hexit (.inr (.inl hi))
    exact ⟨hq, hlive .msg⟩

/-! ## What a call does -/

theorem queued_setQueued {m : Tables} {i : Nat} {l : List Nat} (hring : (m.rings ⟨.msg, i⟩).isSome)
    (k : Nat) : ((m.setQueued ⟨.msg, i⟩ l).rings ⟨.msg, k⟩).getD [] =
      if k = i then l else (m.rings ⟨.msg, k⟩).getD [] := by
  show (Function.update m.rings _ _ _).getD [] = _
  split <;> rename_i hk
  · subst hk
    obtain ⟨l', hl'⟩ := Option.isSome_iff_exists.mp hring
    rw [Function.update_self, hl']
    rfl
  · rw [Function.update_of_ne fun h => hk (by cases h; rfl)]

theorem setQueued_ne {m : Tables} {q q' : RingName} {l : List Nat} (h : q' ≠ q) :
    (m.setQueued q l).rings q' = m.rings q' := Function.update_of_ne h _ _

/-- A message in the pool is on no ring, so what it says can be written. -/
theorem Sound.pending_update (h : s.Sound) {msg : Nat} (hmsg : msg ∈ s.msgPool)
    (m : OnvmNfMsg α) (k : Nat) :
    (s.queued k).map (Function.update s.content msg m) = s.pending k := by
  refine List.map_congr_left fun x hx => Function.update_of_ne ?_ _ _
  rintro rfl
  rcases h.placed x with hone | hno
  · cases hone.unique (p := none) (q := some k) hmsg hx
  · exact hno none hmsg

/-- The cases of a send: no message, a ring that takes it, a full ring. -/
theorem send_cases {ret : Int} (h : s.sendMsgToNf dest data = some (ret, s')) :
    (s.msgPool = [] ∧ ret = eNoent ∧ s' = s) ∨
    ∃ msg msgs i q l, s.msgPool = msg :: msgs ∧
      onvmScServiceToNfMap s.tables.nfPerServiceCount s.tables.services dest none = i ∧
      (s.tables.nfs i).msgQ = some q ∧ s.tables.rings q = some l ∧
      ((l.length < msgRingCapacity ∧ ret = 0 ∧ s' = { s with
          msgPool := msgs
          content := Function.update s.content msg ⟨.fromNf, data⟩
          tables := s.tables.setQueued q (l ++ [msg])
          accepted := Function.update s.accepted i (s.accepted i ++ [⟨.fromNf, data⟩]) }) ∨
        (msgRingCapacity ≤ l.length ∧ ret = eNobufs ∧ s' = { s with
          msgPool := msgs ++ [msg]
          content := Function.update s.content msg ⟨.fromNf, data⟩ })) := by
  unfold sendMsgToNf at h
  cases hp : s.msgPool with
  | nil =>
    rw [hp] at h
    cases h
    exact .inl ⟨rfl, rfl, rfl⟩
  | cons msg msgs =>
    rw [hp] at h
    simp only [] at h
    split at h
    · split at h
      · cases h
      · rename_i q hq
        split at h
        · cases h
        · rename_i l hl
          refine .inr ⟨msg, msgs, _, q, l, rfl, rfl, hq, hl, ?_⟩
          split at h <;> rename_i hlen <;> cases h
          · exact .inl ⟨hlen, rfl, rfl⟩
          · exact .inr ⟨Nat.le_of_not_lt hlen, rfl, rfl⟩
    · cases h

theorem placed_of_conserves (h : s.Sound) (hc : Conserves s.held s'.held) (t : Nat) :
    AtOne s'.held t ∨ Nowhere s'.held t :=
  (h.placed t).imp (hc.atOne t) (hc.nowhere t)

theorem Sound.append (h : s.Sound) {msg : Nat} {msgs l : List Nat} (hp : s.msgPool = msg :: msgs)
    (hrun : (s.tables.nfs i).status = .running) (hl : s.tables.rings ⟨.msg, i⟩ = some l)
    (hs' : s' = { s with
      msgPool := msgs
      content := Function.update s.content msg ⟨.fromNf, data⟩
      tables := s.tables.setQueued ⟨.msg, i⟩ (l ++ [msg])
      accepted := Function.update s.accepted i (s.accepted i ++ [⟨.fromNf, data⟩]) }) :
    s'.pending i = s.pending i ++ [⟨.fromNf, data⟩] ∧
      (∀ k, k ≠ i → s'.pending k = s.pending k) ∧ s'.Sound := by
  have hmsg : msg ∈ s.msgPool := hp ▸ List.mem_cons_self ..
  have hring : (s.tables.rings ⟨.msg, i⟩).isSome := by rw [hl]; rfl
  have hl' : s.queued i = l := by rw [queued, hl]; rfl
  have hqueued : ∀ k, s'.queued k = if k = i then l ++ [msg] else s.queued k := by
    rw [hs']
    exact queued_setQueued hring
  have hself : s'.pending i = s.pending i ++ [⟨.fromNf, data⟩] := by
    have hold := h.pending_update hmsg ⟨.fromNf, data⟩ i
    rw [hl'] at hold
    rw [pending, hqueued, if_pos rfl, hs', List.map_append, hold]
    simp
  have hother : ∀ k, k ≠ i → s'.pending k = s.pending k := by
    intro k hk
    rw [pending, hqueued, if_neg hk, hs']
    exact h.pending_update hmsg _ k
  refine ⟨hself, hother, ?_, ?_, ?_⟩
  · rw [hs']
    exact h.inOrder.setQueued _ _
  · refine placed_of_conserves h (conserves_move (a := none) (b := some i) (l := [msg])
      (by simp) ?_ ?_ ?_)
    · rw [hs']
      show s.msgPool.Perm (msgs ++ [msg])
      rw [hp]
      exact (List.perm_append_singleton msg msgs).symm
    · show (s'.queued i).Perm (s.queued i ++ [msg])
      rw [hqueued, if_pos rfl, hl']
    · intro q hq hqi
      cases q with
      | none => exact absurd rfl hq
      | some k =>
        show s'.queued k = s.queued k
        rw [hqueued, if_neg fun hk : k = i => hqi (by rw [hk])]
  · intro k hk
    have hk' : (s.tables.nfs k).status = .running := by
      rw [hs'] at hk
      exact hk
    by_cases hki : k = i
    · subst hki
      rw [hself, ← List.append_assoc, hs']
      show Function.update s.accepted k _ k = s.handled k ++ s.pending k ++ _
      rw [Function.update_self, h.books k hk']
    · rw [hother k hki, hs']
      show Function.update s.accepted i _ k = s.handled k ++ s.pending k
      rw [Function.update_of_ne hki, h.books k hk']

/-- A full ring: the message goes back. -/
theorem Sound.refuse (h : s.Sound) {msg : Nat} {msgs : List Nat} (hp : s.msgPool = msg :: msgs)
    (hs' : s' = { s with
      msgPool := msgs ++ [msg]
      content := Function.update s.content msg ⟨.fromNf, data⟩ }) :
    Untouched s s' ∧ s'.Sound := by
  have hmsg : msg ∈ s.msgPool := hp ▸ List.mem_cons_self ..
  have hpending : ∀ k, s'.pending k = s.pending k := by
    intro k
    rw [hs']
    exact h.pending_update hmsg _ k
  have hpool : s'.msgPool.Perm s.msgPool := by
    rw [hs', hp]
    exact List.perm_append_singleton msg msgs
  refine ⟨⟨by rw [hs'], hpending, hpool⟩, ?_, ?_, ?_⟩
  · rw [hs']
    exact h.inOrder
  · refine placed_of_conserves h (conserves_of_perm fun q => ?_)
    cases q with
    | none => exact hpool
    | some k =>
      rw [hs']
      exact List.Perm.refl _
  · intro k hk
    rw [hpending, hs']
    rw [hs'] at hk
    exact h.books k hk

/-- A send that finds an NF, or fails before, is right. -/
theorem Sound.send (h : s.Sound) (hdest : dest < maxServices) (ha : s.Addressed dest) (data : α) :
    ∃ ret s', s.sendMsgToNf dest data = some (ret, s') ∧
      (ret = 0 ∧ Appended s s' dest data ∨ ret ≠ 0 ∧ Untouched s s') ∧
      s'.Sound ∧ s'.tables.nfs = s.tables.nfs := by
  have hnobufs : eNobufs ≠ 0 := by decide
  cases hp : s.msgPool with
  | nil =>
    refine ⟨eNoent, s, by rw [sendMsgToNf, hp], .inr ⟨by decide, rfl, fun _ => rfl, .refl _⟩, h, rfl⟩
  | cons msg msgs =>
    by_cases hpos : 0 < s.tables.nfPerServiceCount dest
    · obtain ⟨i, hi, hrun, hsvc⟩ := h.inOrder.lookup hpos
      obtain ⟨hq, hring⟩ := h.inOrder.ringed i hrun
      obtain ⟨l, hl⟩ := Option.isSome_iff_exists.mp hring
      by_cases hlen : l.length < msgRingCapacity
      · obtain ⟨hself, hother, hsound⟩ := @Sound.append _ s _ i data h _ _ _ hp hrun hl rfl
        refine ⟨0, _, ?_, .inl ⟨rfl, i, hrun, hsvc, hq, hself, hother, fun q hq => ?_⟩, hsound, rfl⟩
        · simp only [sendMsgToNf, hp, if_pos hdest, hi, hq, hl, if_pos hlen]
        · exact setQueued_ne hq
      · obtain ⟨huntouched, hsound⟩ := @Sound.refuse _ s _ data h _ _ hp rfl
        refine ⟨eNobufs, _, ?_, .inr ⟨hnobufs, huntouched⟩, hsound, rfl⟩
        simp only [sendMsgToNf, hp, if_pos hdest, hi, hq, hl, if_neg hlen]
    · have hzero : onvmScServiceToNfMap s.tables.nfPerServiceCount s.tables.services dest none = 0 := by
        rw [onvmScServiceToNfMap, if_pos (by omega)]
      obtain ⟨q, hq, l, hl, hfull⟩ : ∃ q ∈ (s.tables.nfs 0).msgQ, ∃ l ∈ s.tables.rings q,
          msgRingCapacity ≤ l.length := by
        rcases ha with hnil | hpos' | hfull
        · rw [hp] at hnil
          cases hnil
        · exact absurd hpos' hpos
        · exact hfull
      rw [Option.mem_def] at hq hl
      obtain ⟨huntouched, hsound⟩ := @Sound.refuse _ s _ data h _ _ hp rfl
      refine ⟨eNobufs, _, ?_, .inr ⟨hnobufs, huntouched⟩, hsound, rfl⟩
      simp only [sendMsgToNf, hp, if_pos hdest, hzero, hq, hl, if_neg (Nat.not_lt.mpr hfull)]

/-- **One send**: it is right exactly when there is an NF of the service, or it
fails before the lookup matters. -/
theorem sendRight_iff_addressed (h : s.Sound) (hdest : dest < maxServices) :
    s.SendRight dest data ↔ s.Addressed dest := by
  constructor
  · rintro ⟨ret, s', hsend, hright⟩
    by_contra hnot
    unfold Addressed at hnot
    rw [not_or, not_or] at hnot
    obtain ⟨hpool, hcount, hslot⟩ := hnot
    have hcount0 : s.tables.nfPerServiceCount dest = 0 := by omega
    rcases send_cases hsend with ⟨hnil, -⟩ | ⟨msg, msgs, i, q, l, hp, hi, hq, hl, hcase⟩
    · exact hpool hnil
    · rw [onvmScServiceToNfMap, if_pos hcount0] at hi
      subst hi
      rcases hcase with ⟨-, hret, -⟩ | ⟨hfull, -⟩
      · rcases hright with ⟨-, j, hrun, hsvc, -⟩ | ⟨hne, -⟩
        · exact h.inOrder.none_running hcount0 ⟨hrun, hsvc⟩
        · exact hne hret
      · exact hslot ⟨q, hq, l, hl, hfull⟩
  · intro ha
    obtain ⟨ret, s', hsend, hright, -⟩ := h.send hdest ha data
    exact ⟨ret, s', hsend, hright⟩

/-- The next message is taken, handled and put back. -/
theorem Sound.take (h : s.Sound) {msg : Nat} {rest : List Nat}
    (hl : s.tables.rings ⟨.msg, i⟩ = some (msg :: rest))
    (hs' : s' = { s with
      tables := s.tables.setQueued ⟨.msg, i⟩ rest
      handled := Function.update s.handled i (s.handled i ++ [s.content msg])
      msgPool := s.msgPool ++ [msg] }) : s'.Sound := by
  have hl' : s.queued i = msg :: rest := by rw [queued, hl]; rfl
  have hqueued : ∀ k, s'.queued k = if k = i then rest else s.queued k := by
    rw [hs']
    exact queued_setQueued (by rw [hl]; rfl)
  refine ⟨?_, ?_, fun k hk => ?_⟩
  · rw [hs']
    exact h.inOrder.setQueued _ _
  · refine placed_of_conserves h (conserves_move (a := some i) (b := none) (l := [msg])
      (by simp) ?_ ?_ ?_)
    · show (s.queued i).Perm (s'.queued i ++ [msg])
      rw [hqueued, if_pos rfl, hl']
      exact (List.perm_append_singleton msg rest).symm
    · rw [hs']
      exact List.Perm.refl _
    · intro p hp hpool
      cases p with
      | none => exact absurd rfl hpool
      | some k =>
        show s'.queued k = s.queued k
        rw [hqueued, if_neg fun hk : k = i => hp (by rw [hk])]
  · have hk' : (s.tables.nfs k).status = .running := by
      rw [hs'] at hk
      exact hk
    rw [pending, hqueued, hs']
    show s.accepted k = Function.update s.handled i _ k ++ List.map s.content _
    rw [h.books k hk', pending]
    by_cases hki : k = i
    · subst hki
      rw [Function.update_self, if_pos rfl, hl', List.map_cons, List.append_assoc]
      rfl
    · rw [Function.update_of_ne hki, if_neg hki]

theorem Sound.dequeue (h : s.Sound) (hrun : (s.tables.nfs i).status = .running) :
    ∃ s', s.dequeueMessages i = some s' ∧ s'.Sound ∧ s'.tables.nfs = s.tables.nfs := by
  obtain ⟨hq, hring⟩ := h.inOrder.ringed i hrun
  obtain ⟨l, hl⟩ := Option.isSome_iff_exists.mp hring
  unfold dequeueMessages
  simp only [hq, hl]
  cases l with
  | nil => exact ⟨s, rfl, h, rfl⟩
  | cons msg rest => exact ⟨_, rfl, h.take hl rfl, rfl⟩

/-! ## The steps of a thread -/

/-- The same tables and the same pool. -/
def SameMemory {ι : Type} (t : Sys ι) (s : Mail α) : Prop :=
  t.tables = s.tables ∧ t.msgPool = s.msgPool

section Steps

variable {ι : Type} [DecidableEq ι] {t : Sys ι} {w : ι}

/-- A thread that nobody interrupts sends as the call does. -/
theorem ticks_send {ret : Int} (hm : SameMemory t s) (hpc : (t.thread w).pc = .get (.toNf dest))
    (h : s.sendMsgToNf dest data = some (ret, s')) :
    ∃ n, SameMemory ((fun t => t.threadStep w)^[n] t) s' ∧
      (((fun t => t.threadStep w)^[n] t).thread w).pc = .idle := by
  obtain ⟨htab, hpool⟩ := hm
  rcases send_cases h with ⟨hnil, -, rfl⟩ | ⟨msg, msgs, i, q, l, hp, hi, hq, hl, hcase⟩
  · refine ⟨1, ?_⟩
    simp [Sys.threadStep, hpc, Sys.getMsg, hpool, hnil, Sys.modify, SendOp.getFailed, SameMemory,
      htab]
  · rw [hp] at hpool
    rcases hcase with ⟨hlen, -, rfl⟩ | ⟨hfull, -, rfl⟩
    · refine ⟨2, ?_⟩
      simp [Sys.threadStep, hpc, Sys.getMsg, hpool, Sys.modify, Sys.goto, Sys.enqueueMsg, hi,
        Sys.enqueueNfMsg, hq, hl, hlen, Sys.setRing, SameMemory, htab]
    · refine ⟨3, ?_⟩
      simp [Sys.threadStep, hpc, Sys.getMsg, hpool, Sys.modify, Sys.goto, Sys.enqueueMsg, hi,
        Sys.enqueueNfMsg, hq, hl, Nat.not_lt.mpr hfull, Sys.putMsg, SendOp.gaveBack, SameMemory,
        htab]

theorem ticks_dequeue (hm : SameMemory t s) (hpc : (t.thread w).pc = .deqCount i)
    (h : s.dequeueMessages i = some s') :
    ∃ n, SameMemory ((fun t => t.threadStep w)^[n] t) s' ∧
      (((fun t => t.threadStep w)^[n] t).thread w).pc = .idle := by
  obtain ⟨htab, hpool⟩ := hm
  unfold dequeueMessages at h
  cases hq : (s.tables.nfs i).msgQ with
  | none => simp [hq] at h
  | some q =>
    cases hl : s.tables.rings q with
    | none => simp [hq, hl] at h
    | some l =>
      cases l with
      | nil =>
        simp only [hq, hl, Option.some.injEq] at h
        subst h
        refine ⟨1, ?_⟩
        simp [Sys.threadStep, hpc, Sys.dequeueStep, hq, hl, Sys.goto, Sys.modify, SameMemory, htab,
          hpool]
      | cons msg rest =>
        simp only [hq, hl, Option.some.injEq] at h
        subst h
        refine ⟨4, ?_⟩
        simp [Sys.threadStep, hpc, Sys.dequeueStep, hq, hl, Sys.goto, Sys.modify, Sys.setRing,
          Sys.putMsg, SameMemory, htab, hpool]

end Steps

/-! ## Runs -/

/-- A call of an NF that runs, with a service number there is. -/
def Call.Proper (m : Tables) : Call α → Prop
  | .send dest _ => dest < maxServices
  | .dequeue i => (m.nfs i).status = .running

/-- What is asked of a call where it is made. -/
def Right (s : Option (Mail α)) : Call α → Prop
  | .send dest data => ∃ t ∈ s, t.SendRight dest data
  | .dequeue i => ∃ t ∈ s, (t.dequeueMessages i).isSome

def Meets (s : Option (Mail α)) : Call α → Prop
  | .send dest _ => ∃ t ∈ s, t.Addressed dest
  | .dequeue _ => True

/-- Nothing has gone wrong, and the NFs of `m` are there. -/
def Up (m : Tables) (s : Option (Mail α)) : Prop :=
  ∃ t, s = some t ∧ t.Sound ∧ t.tables.nfs = m.nfs

theorem Call.Proper.congr {m m' : Tables} {c : Call α} (h : c.Proper m) (hnfs : m'.nfs = m.nfs) :
    c.Proper m' := by
  cases c with
  | send dest data => exact h
  | dequeue i =>
    show (m'.nfs i).status = .running
    rw [hnfs]
    exact h

theorem Up.step {m : Tables} {s : Option (Mail α)} (h : Up m s) {c : Call α} (hc : c.Proper m)
    (hm : Meets s c) : Up m (step s c) := by
  obtain ⟨t, rfl, ht, hnfs⟩ := h
  cases c with
  | send dest data =>
    obtain ⟨_, ⟨⟩, ha⟩ := hm
    obtain ⟨ret, t', hsend, -, ht', hnfs'⟩ := ht.send hc ha data
    exact ⟨t', by simp [Mail.step, hsend], ht', hnfs'.trans hnfs⟩
  | dequeue i =>
    obtain ⟨t', hdeq, ht', hnfs'⟩ := ht.dequeue (Call.Proper.congr hc hnfs : (Call.dequeue i).Proper _)
    exact ⟨t', hdeq, ht', hnfs'.trans hnfs⟩

theorem Up.right_iff {m : Tables} {s : Option (Mail α)} (h : Up m s) {c : Call α}
    (hc : c.Proper m) : Right s c ↔ Meets s c := by
  obtain ⟨t, rfl, ht, hnfs⟩ := h
  cases c with
  | send dest data =>
    constructor
    · rintro ⟨_, ⟨⟩, hr⟩
      exact ⟨t, rfl, (sendRight_iff_addressed ht hc).mp hr⟩
    · rintro ⟨_, ⟨⟩, ha⟩
      exact ⟨t, rfl, (sendRight_iff_addressed ht hc).mpr ha⟩
  | dequeue i =>
    obtain ⟨t', hdeq, -⟩ := ht.dequeue (Call.Proper.congr hc hnfs : (Call.dequeue i).Proper _)
    exact iff_of_true ⟨t, rfl, by rw [hdeq]; rfl⟩ trivial

abbrev NfCall (m : Tables) (α : Type) := { c : Call α // c.Proper m }

/-- **Messages between NFs.** In a run of sends and dequeues every call is right
exactly when every send finds an NF of the service to send to, or no message, or
the ring of slot 0 full. And then each running NF has handled the messages
accepted for it in their order, up to those still on its ring. -/
theorem mailbox_iff {s : Mail α} (hs : s.Sound) (cs : List (NfCall s.tables α)) :
    (Along (fun s c => step s c.1) (fun s c => Right s c.1) (some s) cs ↔
      Along (fun s c => step s c.1) (fun s c => Meets s c.1) (some s) cs) ∧
    (Along (fun s c => step s c.1) (fun s c => Meets s c.1) (some s) cs →
      ∃ s', exec (fun s c => step s c.1) (some s) cs = some s' ∧
        ∀ i, (s'.tables.nfs i).status = .running →
          s'.accepted i = s'.handled i ++ s'.pending i) := by
  have hup : Up s.tables (some s) := ⟨s, rfl, hs, rfl⟩
  have hstep : ∀ t (c : NfCall s.tables α), Up s.tables t → Meets t c.1 →
      Up s.tables (step t c.1) := fun t c ht hm => ht.step c.2 hm
  refine ⟨along_iff hstep (fun t c ht => ht.right_iff c.2) hup, fun h => ?_⟩
  obtain ⟨s', hrun, hsound, -⟩ := Along.inv hstep hup h
  exact ⟨s', hrun, hsound.books⟩

def loneEvents : List Tables.Event :=
  [.msg (.nfStarting (some { serviceId := 1, initOptions := 2 })), .msg (.nfReady 1)]

def lone : Mail Nat where
  tables := exec Tables.onEvent (Tables.boot Tables.oneCore fun _ => true) loneEvents
  msgPool := [0, 1]
  content _ := ⟨.noop, 0⟩
  accepted _ := []
  handled _ := []

theorem lone_queued (k : Nat) : lone.queued k = [] := by
  rcases k with _ | _ | k
  · decide +kernel
  · decide +kernel
  · rfl

theorem lone_sound : lone.Sound := by
  have hlimits : Along Tables.onEvent Tables.WithinLimits
      (Tables.boot Tables.oneCore fun _ => true) loneEvents := by
    refine ⟨Tables.withinLimits_of_few ?_ ?_, Tables.withinLimits_of_few ?_ ?_, trivial⟩
    · rintro cfg ⟨⟩
      rfl
    · decide +kernel
    · rintro cfg ⟨⟩
    · decide +kernel
  have hc : lone.tables.Consistent := Along.inv (I := Tables.Consistent)
    (fun _ _ h hw => h.onEvent hw) (Tables.boot_consistent Tables.oneCore fun _ => true) hlimits
  refine ⟨InOrder.of_consistent hc (by decide +kernel), fun t => ?_, fun i hi => ?_⟩
  · have hacc : Accounted lone.held [0, 1] := accounted_initial (p := none) (by decide) fun q hq => by
      cases q with
      | none => exact absurd rfl hq
      | some k => exact lone_queued k
    by_cases ht : t ∈ [0, 1]
    · exact .inl (hacc.1 t ht)
    · exact .inr (hacc.2 t ht)
  · rw [pending, lone_queued]
    rfl

def loneCalls : List (NfCall lone.tables Nat) :=
  have hrun : (lone.tables.nfs 1).status = .running := by decide +kernel
  have hsvc : 1 < maxServices := by decide
  [⟨.send 1 7, hsvc⟩, ⟨.send 1 8, hsvc⟩, ⟨.dequeue 1, hrun⟩]

theorem mailbox_iff_lone : Along (fun s c => step s c.1) (fun s c => Right s c.1) (some lone)
    loneCalls :=
  (mailbox_iff lone_sound loneCalls).1.mpr ⟨⟨_, rfl, .inr (.inl (by decide +kernel))⟩,
    ⟨_, rfl, .inr (.inl (by decide +kernel))⟩, trivial, trivial⟩

/-- A send to a service without an NF goes through the ring pointer of slot 0,
which is NULL unless an NF has asked for ID 0. -/
theorem send_to_nobody : lone.Sound ∧ ¬ lone.SendRight 2 7 := by
  refine ⟨lone_sound, ?_⟩
  rintro ⟨ret, s', hsend, -⟩
  have hnone : (lone.sendMsgToNf 2 7).isSome = false := by decide +kernel
  rw [hsend] at hnone
  cases hnone

end Mail

end Onvm.Msg

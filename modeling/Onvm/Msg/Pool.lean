import Onvm.Lib.Places
import Onvm.Mgr.Rings
import Onvm.Msg.Frame

/-!
# Conservation of messages

A message object is in the pool, on one ring, or in the hand of one party: the
thread that has got it and not sent it yet, or the manager that handles it. Every
step that follows the rules hands an object from one place to another. Five steps
break them: a request is put back by the manager and by the thread that sent it,
`request_ft` puts back what it could not get, `onvm_nf_send_msg` forgets a message
that the ring does not take, `onvm_nf_stop` frees a ring onto which a message came
after it was emptied, and a message is written to a ring that was freed.
-/

namespace Onvm.Msg

open Onvm.Lib Onvm.Nflib Onvm.Mgr

variable {ι : Type}

inductive MsgPlace (ι : Type) where
  | pool
  | mgrQ
  | ring (name : RingName)
  | thread (w : ι)
  | mgr
  deriving DecidableEq

def Pc.msgs : Pc → List Nat
  | dead msg | dropCfg _ msg => msg.toList
  | enqueue _ msg | giveBack _ msg | deqHandle msg | deqPut msg => [msg]
  | _ => []

def MgrPc.msgs : MgrPc ι → List Nat
  | idle | dequeue _ | sendGet .. => []
  | dead msgs | batch msgs => msgs
  | started _ _ msg msgs | stopDrain _ msg msgs | stopInfo _ msg msgs | unregister _ msg msgs
  | put msg msgs => msg :: msgs
  | stopPut left _ msg msgs => left :: msg :: msgs
  | sendEnqueue _ _ msg => [msg]

/-- The message that the next step of a thread puts into the pool. -/
def Pc.puts : Pc → Option Nat
  | putJunk msg | giveBack _ msg | putRequest _ msg | deqPut msg => some msg
  | _ => none

def MgrPc.puts : MgrPc ι → Option Nat
  | stopPut msg _ _ _ | put msg _ => some msg
  | _ => none

/-- The program counters that are reached by the rules: no message is about to be
put back that the thread does not have. -/
def Pc.Clean : Pc → Prop
  | .putJunk _ | .putRequest .. => False
  | .deqTake q => q.kind = .msg
  | _ => True

/-- The messages on the rings of the NFs; packets are on the others. -/
def ringMsgs (rings : RingName → Option (List Nat)) (name : RingName) : List Nat :=
  if name.kind = .msg then (rings name).getD [] else []

namespace Sys

def msgHeld (s : Sys ι) : MsgPlace ι → List Nat
  | .pool => s.msgPool
  | .mgrQ => s.mgrQ
  | .ring name => ringMsgs s.tables.rings name
  | .thread w => (s.thread w).pc.msgs
  | .mgr => s.mgr.msgs

def PutsOwn (s : Sys ι) : Event ι → Prop
  | .tick w => ∀ msg ∈ (s.thread w).pc.puts, msg ∈ (s.thread w).pc.msgs
  | .mgrTick _ => ∀ msg ∈ s.mgr.puts, msg ∈ s.mgr.msgs
  | .signal _ | .call .. | .mgrCall _ => True

/-- Every message of the pool is at one place, and nothing else was put into it. -/
def MsgsConserved (pool : List Nat) (s : Sys ι) : Prop := Accounted s.msgHeld pool

/-- At the end of the run every message is at one place, and in each step whoever
put one back had it. -/
def MsgDiscipline [DecidableEq ι] (pool : List Nat) (s : Sys ι) (es : List (Event ι)) : Prop :=
  MsgsConserved pool (exec step s es) ∧ Along step PutsOwn s es

/-- The instance that `onvm_nflib_send_msg_to_nf` sends to. -/
def destOf (s : Sys ι) (dest : Nat) : Nat :=
  onvmScServiceToNfMap s.tables.nfPerServiceCount s.tables.services dest none

/-- A `request_ft` finds a message in the pool, no request is answered while its
thread waits, and messages for NFs go to rings that exist. -/
def threadRule (s : Sys ι) (w : ι) : Pc → Prop
  | .get (.request (.ft _)) => s.msgPool ≠ []
  | .poll k _ => s.req w = k.waiting
  | .enqueue (.toNf dest) _ =>
    ∀ q ∈ (s.tables.nfs (s.destOf dest)).msgQ, s.tables.rings q ≠ none
  | _ => True

/-- Messages of the manager go to rings with room, and a ring is freed empty. -/
def mgrRule (s : Sys ι) : MgrPc ι → Prop
  | .sendEnqueue dest _ _ =>
    ∀ q ∈ (s.tables.nfs dest).msgQ, ∃ queued ∈ s.tables.rings q, queued.length < msgRingCapacity
  | .unregister x _ _ => ∀ q ∈ (s.tables.nfs x.nfId).msgQ, (s.tables.rings q).getD [] = []
  | _ => True

instance (s : Sys ι) (w : ι) : (pc : Pc) → Decidable (s.threadRule w pc)
  | .get (.request (.ft _)) => inferInstanceAs (Decidable (s.msgPool ≠ []))
  | .poll k _ => inferInstanceAs (Decidable (s.req w = k.waiting))
  | .enqueue (.toNf dest) _ =>
    inferInstanceAs (Decidable (∀ q ∈ (s.tables.nfs (s.destOf dest)).msgQ,
      s.tables.rings q ≠ none))
  | .get (.request .lpm) | .get (.start ..) | .get (.ready _) | .get (.stopping _)
  | .get (.toNf _) | .enqueue (.request _) _ | .enqueue (.start ..) _ | .enqueue (.ready _) _
  | .enqueue (.stopping _) _ | .idle | .dead _ | .putJunk _ | .giveBack .. | .mark ..
  | .putRequest .. | .startCheck .. | .dropCfg .. | .startWait .. | .startKeep .. | .startTerm ..
  | .startLate .. | .startRead .. | .startRefused .. | .startSlot .. | .startPut .. | .startInit ..
  | .childSlot .. | .readyWait _ | .deqCount _ | .deqTake _ | .deqHandle _ | .deqPut _ =>
    isTrue trivial

instance (s : Sys ι) : (pc : MgrPc ι) → Decidable (s.mgrRule pc)
  | .sendEnqueue dest _ _ =>
    inferInstanceAs (Decidable (∀ q ∈ (s.tables.nfs dest).msgQ,
      ∃ queued ∈ s.tables.rings q, queued.length < msgRingCapacity))
  | .unregister x _ _ =>
    inferInstanceAs (Decidable (∀ q ∈ (s.tables.nfs x.nfId).msgQ,
      (s.tables.rings q).getD [] = []))
  | .idle | .dead _ | .dequeue _ | .batch _ | .started .. | .stopDrain .. | .stopPut ..
  | .stopInfo .. | .put .. | .sendGet .. => isTrue trivial

/-- The steps that lose a message or put it back twice are not taken. -/
def MsgRules (s : Sys ι) : Event ι → Prop
  | .tick w => s.threadRule w (s.thread w).pc
  | .mgrTick _ => s.mgrRule s.mgr
  | .signal _ | .call .. | .mgrCall _ => True

instance (s : Sys ι) (e : Event ι) : Decidable (s.MsgRules e) :=
  match e with
  | .tick w => inferInstanceAs (Decidable (s.threadRule w (s.thread w).pc))
  | .mgrTick _ => inferInstanceAs (Decidable (s.mgrRule s.mgr))
  | .signal _ | .call .. | .mgrCall _ => isTrue trivial

end Sys

/-! ## What the tables' operations do to the messages on the rings -/

theorem allWired_vacate {m : Tables} (h : AllWired m) (i nfId : Nat) :
    AllWired (Sys.vacate m i nfId) :=
  ((h.setStatus i .stopped).setStatus nfId .stopped).tellParent nfId

theorem ringMsgs_createRing (m : Tables) (i : Nat) (k : RingKind) :
    ringMsgs (m.createRing i k).rings = ringMsgs m.rings := by
  unfold Tables.createRing Tables.rteRingCreate
  split
  · rfl
  · dsimp only
    split
    · rfl
    · rename_i rings hrings
      obtain ⟨hfree, rfl⟩ : m.rings ⟨k, (m.nfs i).instanceId⟩ = none ∧ _ := by simpa using hrings
      funext name
      unfold ringMsgs
      by_cases hname : name = ⟨k, (m.nfs i).instanceId⟩ <;> simp [hname, hfree]

theorem ringMsgs_initRings (m : Tables) (i : Nat) :
    ringMsgs (m.onvmNfInitRings i).rings = ringMsgs m.rings := by
  unfold Tables.onvmNfInitRings
  rw [ringMsgs_createRing, ringMsgs_createRing, ringMsgs_createRing]

theorem ringMsgs_start (m : Tables) (cfg : OnvmNfInitCfg) :
    ringMsgs (m.onvmNfStart cfg).1.rings = ringMsgs m.rings := by
  unfold Tables.onvmNfStart
  dsimp only
  split
  · rfl
  split
  · rfl
  split
  · rfl
  split
  · rfl
  split
  · rfl
  split
  · rfl
  · split <;> exact ringMsgs_initRings _ _

theorem rings_ready (m : Tables) (i : Nat) : (m.onvmNfReady i).1.rings = m.rings := by
  unfold Tables.onvmNfReady
  split <;> rfl

theorem ringMsgs_drain (rings : RingName → Option (List Nat)) {q : Option RingName}
    (hq : ∀ name ∈ q, name.kind ≠ .msg) : ringMsgs (Tables.drain rings q) = ringMsgs rings := by
  funext name
  unfold ringMsgs Tables.drain
  split
  · rename_i hkind
    rw [if_neg]
    rintro rfl
    exact hq name rfl hkind
  · rfl

theorem ringMsgs_vacate {m : Tables} (h : AllWired m) (i nfId : Nat) :
    ringMsgs (Sys.vacate m i nfId).rings = ringMsgs m.rings := by
  have hw := ((h.setStatus i .stopped).setStatus nfId .stopped).tellParent nfId
  have hrings : (((m.setStatus i .stopped).setStatus nfId .stopped).tellParent nfId).rings =
      m.rings := by
    unfold Tables.tellParent
    dsimp only
    split <;> rfl
  unfold Sys.vacate
  dsimp only [Tables.leaveCore]
  rw [ringMsgs_drain, ringMsgs_drain, hrings]
  · intro name hname
    simp [(hw nfId).rx name hname]
  · intro name hname
    simp [(hw nfId).tx name hname]

/-- The ring of messages that is freed was empty. -/
theorem ringMsgs_unregister {m : Tables} (h : AllWired m) {nfId : Nat} (serviceId : Nat)
    (hempty : ∀ q ∈ (m.nfs nfId).msgQ, (m.rings q).getD [] = []) :
    ringMsgs (m.unregister nfId serviceId).rings = ringMsgs m.rings := by
  funext name
  unfold ringMsgs
  split
  · rename_i hkind
    have hrx : (m.nfs nfId).rxQ ≠ some name := fun hq => by simp [(h nfId).rx name hq] at hkind
    have htx : (m.nfs nfId).txQ ≠ some name := fun hq => by simp [(h nfId).tx name hq] at hkind
    simp only [Tables.unregister, Tables.onvmNfClearRings, Tables.rteRingFree, hrx, htx, if_false]
    split
    · rename_i hq
      exact (hempty name hq).symm
    · rfl
  · rfl

theorem ringMsgs_setQueued {m : Tables} {q : RingName} {old : List Nat} (hq : q.kind = .msg)
    (hold : m.rings q = some old) (queued : List Nat) :
    ringMsgs (m.setQueued q queued).rings = Function.update (ringMsgs m.rings) q queued := by
  funext name
  unfold ringMsgs Tables.setQueued
  by_cases hname : name = q
  · subst hname
    simp [hq, hold]
  · simp [hname]

/-! ## What the operations do to the messages -/

namespace Sys

section Held

variable [DecidableEq ι] (s : Sys ι)

theorem msgHeld_modify (w : ι) (f : Thread → Thread) : (s.modify w f).msgHeld =
    Function.update s.msgHeld (.thread w) (f (s.thread w)).pc.msgs := by
  funext p
  cases p with
  | thread v => by_cases hv : v = w <;> simp [msgHeld, modify, hv]
  | pool | mgrQ | ring | mgr => rfl

theorem msgHeld_goto (w : ι) (pc : Pc) :
    (s.goto w pc).msgHeld = Function.update s.msgHeld (.thread w) pc.msgs :=
  msgHeld_modify s w _

theorem msgHeld_putMsg (msg : Nat) :
    (s.putMsg msg).msgHeld = Function.update s.msgHeld .pool (s.msgPool ++ [msg]) := by
  funext p
  cases p <;> simp [msgHeld, putMsg]

theorem msgHeld_msgPool (msgs : List Nat) :
    ({ s with msgPool := msgs } : Sys ι).msgHeld = Function.update s.msgHeld .pool msgs := by
  funext p
  cases p <;> simp [msgHeld]

theorem msgHeld_mgrQ (msgs : List Nat) :
    ({ s with mgrQ := msgs } : Sys ι).msgHeld = Function.update s.msgHeld .mgrQ msgs := by
  funext p
  cases p <;> simp [msgHeld]

theorem msgHeld_mgrGoto (pc : MgrPc ι) :
    (s.mgrGoto pc).msgHeld = Function.update s.msgHeld .mgr pc.msgs := by
  funext p
  cases p <;> simp [msgHeld, mgrGoto]

theorem msgHeld_setRing {q : RingName} {old : List Nat} (hq : q.kind = .msg)
    (hold : s.tables.rings q = some old) (queued : List Nat) :
    (s.setRing q queued).msgHeld = Function.update s.msgHeld (.ring q) queued := by
  funext p
  cases p with
  | ring name =>
    show ringMsgs (s.tables.setQueued q queued).rings name = _
    rw [ringMsgs_setQueued hq hold]
    by_cases hname : name = q <;> simp [msgHeld, hname]
  | pool | mgrQ | thread | mgr => simp [msgHeld, setRing]

end Held

/-! ## Threads -/

section Threads

variable [DecidableEq ι] {s : Sys ι} {w : ι}

theorem msgHeld_modify_same {f : Thread → Thread}
    (h : (f (s.thread w)).pc.msgs = (s.thread w).pc.msgs) :
    (s.modify w f).msgHeld = s.msgHeld := by
  rw [msgHeld_modify, h]
  exact Function.update_eq_self (.thread w) s.msgHeld

theorem msgHeld_goto_same {pc : Pc} (h : pc.msgs = (s.thread w).pc.msgs) :
    (s.goto w pc).msgHeld = s.msgHeld :=
  msgHeld_modify_same h

theorem msgHeld_stop (h : (s.thread w).pc.msgs = []) : (s.stop w).msgHeld = s.msgHeld := by
  unfold stop
  dsimp only
  split
  · exact msgHeld_goto_same h.symm
  · split
    · exact msgHeld_goto_same h.symm
    · refine msgHeld_modify_same ?_
      dsimp only
      rw [h]
      split <;> rfl

theorem msgHeld_startFailed (h : (s.thread w).pc.msgs = []) (child : Option Nat) :
    (s.startFailed w child).msgHeld = s.msgHeld := by
  cases child with
  | none => exact msgHeld_goto_same h.symm
  | some _ => exact msgHeld_stop h

/-- Starting up leaves the messages alone. -/
theorem msgHeld_startStep {pc : Pc} (hpc : (s.thread w).pc = pc) :
    (s.startStep w pc).msgHeld = s.msgHeld := by
  cases pc with
  | startCheck cfg child =>
    dsimp only [startStep]
    split
    · exact msgHeld_goto_same (by rw [hpc]; rfl)
    · exact msgHeld_startFailed (by rw [hpc]; rfl) child
  | dropCfg cfg msg =>
    refine (msgHeld_goto_same (s := s.putCfg cfg) ?_).trans rfl
    show _ = (s.thread w).pc.msgs
    rw [hpc]
    cases msg <;> rfl
  | startWait | startKeep | startTerm | startRead =>
    refine msgHeld_goto_same ?_
    rw [hpc]
    split <;> rfl
  | startLate cfg child =>
    dsimp only [startStep]
    split
    · rw [msgHeld_startFailed]
      · exact msgHeld_modify_same rfl
      · simp [modify, hpc, Pc.msgs]
    · exact msgHeld_startFailed (by rw [hpc]; rfl) child
  | startRefused cfg child =>
    have h : ((s.putCfg cfg).thread w).pc.msgs = [] := by
      show (s.thread w).pc.msgs = _
      rw [hpc]
      rfl
    exact (msgHeld_startFailed h child).trans rfl
  | startSlot cfg child => exact msgHeld_modify_same (by rw [hpc]; rfl)
  | startPut cfg child i =>
    refine (msgHeld_goto_same (s := s.putCfg cfg) ?_).trans rfl
    show _ = (s.thread w).pc.msgs
    rw [hpc]
    rfl
  | startInit cfg child i =>
    refine (msgHeld_goto_same (s := { s with tables := s.tables.setFamily i 0 0 }) ?_).trans rfl
    show _ = (s.thread w).pc.msgs
    rw [hpc]
    cases child <;> rfl
  | childSlot cfg parent =>
    dsimp only [startStep]
    rw [msgHeld_modify_same]
    · rfl
    · show _ = (s.thread w).pc.msgs
      rw [hpc]
      rfl
  | _ => rfl

omit [DecidableEq ι] in
theorem conserves_of_eq {s' : Sys ι} (h : s'.msgHeld = s.msgHeld) :
    Conserves s.msgHeld s'.msgHeld := h ▸ Conserves.refl _

theorem conserves_give {s' : Sys ι} (p : MsgPlace ι) (pc : Pc) (msg : Nat) (hp : p ≠ .thread w)
    (hpc : (s.thread w).pc.msgs = [msg]) (hnew : pc.msgs = [])
    (h : s'.msgHeld = Function.update (Function.update s.msgHeld p (s.msgHeld p ++ [msg]))
      (.thread w) pc.msgs) : Conserves s.msgHeld s'.msgHeld := by
  rw [h, Function.update_comm hp]
  refine conserves_handover (a := .thread w) (b := p) (l := [msg]) hp.symm ?_ (List.Perm.refl _)
  show ((s.thread w).pc.msgs).Perm _
  rw [hpc, hnew]
  rfl

theorem conserves_take {s' : Sys ι} (p : MsgPlace ι) (pc : Pc) {msg : Nat} {msgs : List Nat}
    (hp : p ≠ .thread w) (hheld : s.msgHeld p = msg :: msgs) (hpc : (s.thread w).pc.msgs = [])
    (hnew : pc.msgs = [msg])
    (h : s'.msgHeld = Function.update (Function.update s.msgHeld p msgs) (.thread w) pc.msgs) :
    Conserves s.msgHeld s'.msgHeld := by
  rw [h]
  refine conserves_handover (l := [msg]) hp ?_ ?_
  · rw [hheld]
    exact (List.perm_append_singleton msg msgs).symm
  · show pc.msgs.Perm ((s.thread w).pc.msgs ++ [msg])
    rw [hpc, hnew]
    rfl

theorem getMsg_conserves {op : SendOp} (hpc : (s.thread w).pc = .get op) :
    Conserves s.msgHeld (s.getMsg w op).msgHeld := by
  have hmsgs : (s.thread w).pc.msgs = [] := by rw [hpc]; rfl
  unfold getMsg
  split
  · refine conserves_of_eq (msgHeld_modify_same ?_)
    rw [hmsgs]
    rcases op with (_ | _) | _ | _ | _ | _ <;> rfl
  · rename_i msg msgs hpool
    refine conserves_take .pool (.enqueue op msg) (by simp) hpool hmsgs rfl ?_
    rw [msgHeld_goto, msgHeld_msgPool]

theorem enqueueNfMsg_conserves {op : SendOp} {msg : Nat} {q : Option RingName}
    (hmsgs : (s.thread w).pc.msgs = [msg]) (hkind : ∀ name ∈ q, name.kind = .msg)
    (hring : ∀ name ∈ q, s.tables.rings name ≠ none) :
    Conserves s.msgHeld (s.enqueueNfMsg w op msg q).msgHeld := by
  unfold enqueueNfMsg
  split
  · exact conserves_of_eq (msgHeld_goto_same hmsgs.symm)
  · rename_i name
    split
    · rename_i hnone
      exact absurd hnone (hring name rfl)
    · rename_i queued hqueued
      have hkind := hkind name rfl
      split
      · refine conserves_give (.ring name) .idle msg (by simp) hmsgs rfl ?_
        rw [msgHeld_goto, msgHeld_setRing s hkind hqueued]
        simp [msgHeld, ringMsgs, hkind, hqueued]
      · exact conserves_of_eq (msgHeld_goto_same hmsgs.symm)

theorem enqueueMgrMsg_conserves {op : SendOp} {msg : Nat}
    (hmsgs : (s.thread w).pc.msgs = [msg]) :
    Conserves s.msgHeld (s.enqueueMgrMsg w op msg).msgHeld := by
  unfold enqueueMgrMsg
  split
  · refine conserves_give .mgrQ (op.sent msg) msg (by simp) hmsgs ?_ ?_
    · cases op <;> rfl
    · rw [msgHeld_modify, msgHeld_mgrQ]
      rfl
  · refine conserves_of_eq (msgHeld_goto_same ?_)
    rw [hmsgs]
    cases op <;> rfl

theorem enqueueMsg_conserves {op : SendOp} {msg : Nat} (hw : AllWired s.tables)
    (hpc : (s.thread w).pc = .enqueue op msg) (hr : s.threadRule w (.enqueue op msg)) :
    Conserves s.msgHeld (s.enqueueMsg w op msg).msgHeld := by
  have hmsgs : (s.thread w).pc.msgs = [msg] := by rw [hpc]; rfl
  cases op with
  | toNf dest =>
    exact enqueueNfMsg_conserves
      (s := { s with content := Function.update s.content msg .other }) hmsgs (hw _).msg hr
  | request k =>
    exact enqueueMgrMsg_conserves
      (s := { s with content := Function.update s.content msg (.request k w) }) hmsgs
  | start cfg child =>
    exact enqueueMgrMsg_conserves
      (s := { s with content := Function.update s.content msg (.nfStarting cfg (s.gen cfg)) }) hmsgs
  | ready i =>
    exact enqueueMgrMsg_conserves
      (s := { s with content := Function.update s.content msg (.nfReady i) }) hmsgs
  | stopping i =>
    exact enqueueMgrMsg_conserves
      (s := { s with content := Function.update s.content msg (.nfStopping i) }) hmsgs

theorem dequeueStep_conserves {pc : Pc} (hpc : (s.thread w).pc = pc) (hclean : pc.Clean) :
    Conserves s.msgHeld (s.dequeueStep w pc).msgHeld := by
  cases pc with
  | deqCount i =>
    have hmsgs : (s.thread w).pc.msgs = [] := by rw [hpc]; rfl
    dsimp only [dequeueStep]
    split
    · exact conserves_of_eq (msgHeld_goto_same hmsgs.symm)
    · split <;> exact conserves_of_eq (msgHeld_goto_same hmsgs.symm)
  | deqTake q =>
    have hmsgs : (s.thread w).pc.msgs = [] := by rw [hpc]; rfl
    have hkind : q.kind = .msg := hclean
    dsimp only [dequeueStep]
    split
    · exact conserves_of_eq (msgHeld_goto_same hmsgs.symm)
    · exact conserves_of_eq (msgHeld_goto_same hmsgs.symm)
    · rename_i msg msgs hring
      have hheld : s.msgHeld (.ring q) = msg :: msgs := by
        simp [msgHeld, ringMsgs, hkind, hring]
      refine conserves_take (.ring q) (.deqHandle msg) (by simp) hheld hmsgs rfl ?_
      rw [msgHeld_goto, msgHeld_setRing s hkind hring]
  | deqHandle msg => exact conserves_of_eq (msgHeld_modify_same (by rw [hpc]; rfl))
  | deqPut msg =>
    refine conserves_give .pool .idle msg (by simp) (by rw [hpc]; rfl) rfl ?_
    dsimp only [dequeueStep]
    rw [msgHeld_goto, msgHeld_putMsg]
    rfl
  | _ => exact Conserves.refl _

/-- **A step of a thread** that follows the rules. -/
theorem threadStep_conserves (hw : AllWired s.tables) (hclean : (s.thread w).pc.Clean)
    (hr : s.threadRule w (s.thread w).pc) : Conserves s.msgHeld (s.threadStep w).msgHeld := by
  unfold threadStep
  split
  · exact Conserves.refl _
  · exact Conserves.refl _
  · rename_i op hpc
    exact getMsg_conserves hpc
  · rename_i junk hpc
    rw [hpc] at hclean
    exact hclean.elim
  · rename_i op msg hpc
    exact enqueueMsg_conserves hw hpc (hpc ▸ hr)
  · rename_i op msg hpc
    refine conserves_give .pool op.gaveBack msg (by simp)
      (by rw [hpc]; rfl) (by cases op <;> rfl) ?_
    rw [msgHeld_modify, msgHeld_putMsg]
    rfl
  · rename_i k msg hpc
    refine conserves_of_eq ((msgHeld_goto_same (s := { s with
      req := Function.update s.req w k.waiting }) ?_).trans rfl)
    show _ = (s.thread w).pc.msgs
    rw [hpc]
    rfl
  · rename_i k msg hpc
    split
    · exact Conserves.refl _
    · exact conserves_of_eq (msgHeld_goto_same (by rw [hpc]; rfl))
  · rename_i k msg hpc
    rw [hpc] at hclean
    exact hclean.elim
  · rename_i i hpc
    split
    · exact conserves_of_eq (msgHeld_goto_same (by rw [hpc]; rfl))
    · exact Conserves.refl _
  · rename_i i hpc
    exact dequeueStep_conserves hpc (hpc ▸ hclean)
  · rename_i q hpc
    exact dequeueStep_conserves hpc (hpc ▸ hclean)
  · rename_i msg hpc
    exact dequeueStep_conserves hpc (hpc ▸ hclean)
  · rename_i msg hpc
    exact dequeueStep_conserves hpc (hpc ▸ hclean)
  · exact conserves_of_eq (msgHeld_startStep rfl)

theorem msgHeld_call (op : Op) : (s.call w op).msgHeld = s.msgHeld := by
  unfold call
  split
  · rename_i hpc
    have hmsgs : (s.thread w).pc.msgs = [] := by rw [hpc]; rfl
    cases op with
    | requestLpm | requestFt =>
      dsimp only [callOp, callRequest]
      rw [msgHeld_goto_same]
      · rfl
      · exact hmsgs.symm
    | initCfg cfg =>
      dsimp only [callOp]
      split
      · unfold getCfg
        split
        · exact msgHeld_goto_same hmsgs.symm
        · exact (msgHeld_modify_same rfl).trans rfl
      · rfl
    | badArgs => exact msgHeld_modify_same hmsgs.symm
    | startNf | startChild =>
      dsimp only [callOp, startNf]
      split
      · rfl
      · exact msgHeld_modify_same hmsgs.symm
    | nfReady | dequeueMessages =>
      dsimp only [callOp]
      split
      · rfl
      · exact msgHeld_goto_same hmsgs.symm
    | stop => exact msgHeld_stop hmsgs
    | sendMsgToNf dest => exact msgHeld_goto_same hmsgs.symm
  · rfl

end Threads

/-! ## The manager -/

section Manager

variable [DecidableEq ι] {s : Sys ι}

theorem conserves_mgr_give {s' : Sys ι} (p : MsgPlace ι) (pc : MgrPc ι) (msg : Nat)
    (hp : p ≠ .mgr) (hpc : s.mgr.msgs = msg :: pc.msgs)
    (h : s'.msgHeld = Function.update (Function.update s.msgHeld p (s.msgHeld p ++ [msg]))
      .mgr pc.msgs) : Conserves s.msgHeld s'.msgHeld := by
  rw [h, Function.update_comm hp]
  refine conserves_handover (a := .mgr) (b := p) (l := [msg]) hp.symm ?_ (List.Perm.refl _)
  show (s.mgr.msgs).Perm _
  rw [hpc]
  exact (List.perm_append_singleton msg pc.msgs).symm

/-- The manager takes the first message of a place. -/
theorem conserves_mgr_take {s' : Sys ι} (p : MsgPlace ι) (pc : MgrPc ι) {msg : Nat}
    {msgs : List Nat} (hp : p ≠ .mgr) (hheld : s.msgHeld p = msg :: msgs)
    (hpc : pc.msgs = msg :: s.mgr.msgs)
    (h : s'.msgHeld = Function.update (Function.update s.msgHeld p msgs) .mgr pc.msgs) :
    Conserves s.msgHeld s'.msgHeld := by
  rw [h]
  refine conserves_handover (l := [msg]) hp ?_ ?_
  · rw [hheld]
    exact (List.perm_append_singleton msg msgs).symm
  · show pc.msgs.Perm (s.mgr.msgs ++ [msg])
    rw [hpc]
    exact (List.perm_append_singleton msg s.mgr.msgs).symm

theorem msgHeld_mgrGoto_same {pc : MgrPc ι} (h : pc.msgs = s.mgr.msgs) :
    (s.mgrGoto pc).msgHeld = s.msgHeld := by
  rw [msgHeld_mgrGoto, h]
  exact Function.update_eq_self .mgr s.msgHeld

omit [DecidableEq ι] in
/-- The tables change, but no ring of messages, and the manager goes on. -/
theorem msgHeld_tables_mgr {s' : Sys ι} (hpool : s'.msgPool = s.msgPool) (hq : s'.mgrQ = s.mgrQ)
    (hthread : s'.thread = s.thread)
    (hrings : ringMsgs s'.tables.rings = ringMsgs s.tables.rings)
    (h : s'.mgr.msgs = s.mgr.msgs) : s'.msgHeld = s.msgHeld := by
  funext p
  cases p with
  | pool => exact hpool
  | mgrQ => exact hq
  | ring name => exact congrFun hrings name
  | thread w => exact congrArg (fun t : ι → Thread => (t w).pc.msgs) hthread
  | mgr => exact h

/-- The message stays with the manager while it is handled. -/
theorem msgHeld_handle {ok : Bool} {msg : Nat} {msgs : List Nat} (hw : AllWired s.tables)
    (hmsgs : s.mgr.msgs = msg :: msgs) : (s.handle ok msg msgs).msgHeld = s.msgHeld := by
  unfold handle
  split
  · exact msgHeld_tables_mgr rfl rfl rfl rfl hmsgs.symm
  · refine msgHeld_tables_mgr rfl rfl rfl (ringMsgs_start _ _) ?_
    rw [hmsgs]
    dsimp only
    split <;> rfl
  · exact msgHeld_tables_mgr rfl rfl rfl (congrArg ringMsgs (rings_ready _ _)) hmsgs.symm
  · dsimp only
    split
    · exact msgHeld_tables_mgr rfl rfl rfl rfl hmsgs.symm
    · exact msgHeld_tables_mgr rfl rfl rfl (ringMsgs_vacate (hw.freeTag _) _ _) hmsgs.symm
  · exact msgHeld_mgrGoto_same hmsgs.symm
  · exact msgHeld_mgrGoto_same hmsgs.symm

theorem stopStep_conserves {pc : MgrPc ι} (hw : AllWired s.tables) (hpc : s.mgr = pc)
    (hr : s.mgrRule pc) : Conserves s.msgHeld (s.stopStep pc).msgHeld := by
  have hmsgs : s.mgr.msgs = pc.msgs := by rw [hpc]
  cases pc with
  | stopDrain x msg msgs =>
    dsimp only [stopStep]
    split
    · exact conserves_of_eq (msgHeld_mgrGoto_same hmsgs.symm)
    · rename_i q hq
      have hkind : q.kind = .msg := (hw x.nfId).msg q hq
      split
      · exact conserves_of_eq (msgHeld_mgrGoto_same hmsgs.symm)
      · exact conserves_of_eq (msgHeld_mgrGoto_same hmsgs.symm)
      · rename_i left queued hring
        have hheld : s.msgHeld (.ring q) = left :: queued := by
          simp [msgHeld, ringMsgs, hkind, hring]
        refine conserves_mgr_take (.ring q) (.stopPut left x msg msgs) (by simp) hheld
          (by rw [hmsgs]; rfl) ?_
        rw [msgHeld_mgrGoto, msgHeld_setRing s hkind hring]
  | stopPut left x msg msgs =>
    refine conserves_mgr_give .pool (.stopDrain x msg msgs) left (by simp) hmsgs ?_
    dsimp only [stopStep]
    rw [msgHeld_mgrGoto, msgHeld_putMsg]
    rfl
  | stopInfo x msg msgs =>
    dsimp only [stopStep]
    split
    · exact conserves_of_eq (msgHeld_mgrGoto_same hmsgs.symm)
    · refine conserves_of_eq (msgHeld_tables_mgr rfl rfl rfl rfl ?_)
      dsimp only [mgrGoto]
      rw [hmsgs]
      split <;> rfl
  | unregister x msg msgs =>
    have hempty : ∀ q ∈ (s.tables.nfs x.nfId).msgQ, (s.tables.rings q).getD [] = [] := hr
    have hrings := ringMsgs_unregister hw x.serviceId hempty
    dsimp only [stopStep]
    exact conserves_of_eq (msgHeld_tables_mgr rfl rfl rfl hrings hmsgs.symm)
  | _ => exact Conserves.refl _

theorem sendStep_conserves {pc : MgrPc ι} (hw : AllWired s.tables) (hpc : s.mgr = pc)
    (hr : s.mgrRule pc) : Conserves s.msgHeld (s.sendStep pc).msgHeld := by
  have hmsgs : s.mgr.msgs = pc.msgs := by rw [hpc]
  cases pc with
  | sendGet dest c =>
    dsimp only [sendStep]
    split
    · exact conserves_of_eq (msgHeld_mgrGoto_same hmsgs.symm)
    · rename_i msg msgs hpool
      refine conserves_mgr_take .pool (.sendEnqueue dest c msg) (by simp) hpool
        (by rw [hmsgs]; rfl) ?_
      funext p
      cases p <;> simp [msgHeld]
  | sendEnqueue dest c msg =>
    dsimp only [sendStep]
    split
    · exact conserves_of_eq ((msgHeld_mgrGoto_same (s := { s with
        content := Function.update s.content msg c }) hmsgs.symm).trans rfl)
    · rename_i q hq
      obtain ⟨queued, hring, hroom⟩ := hr q hq
      have hring : s.tables.rings q = some queued := hring
      have hkind : q.kind = .msg := (hw dest).msg q hq
      simp only [hring, if_pos hroom]
      refine conserves_mgr_give (.ring q) .idle msg (by simp) hmsgs ?_
      rw [msgHeld_mgrGoto, msgHeld_setRing { s with content := Function.update s.content msg c }
        hkind hring]
      simp only [msgHeld, ringMsgs, hkind, hring, if_true, Option.getD_some]
      rfl
  | _ => exact Conserves.refl _

/-- **A step of the manager** that follows the rules. -/
theorem mgrStep_conserves (ok : Bool) (hw : AllWired s.tables) (hr : s.mgrRule s.mgr) :
    Conserves s.msgHeld (s.mgrStep ok).msgHeld := by
  unfold mgrStep
  split
  · exact Conserves.refl _
  · exact Conserves.refl _
  · rename_i n hpc
    have hmsgs : s.mgr.msgs = [] := by rw [hpc]; rfl
    split
    · refine conserves_move (a := .mgrQ) (b := .mgr) (l := s.mgrQ.take n) (by simp) ?_ ?_ ?_
      · show s.mgrQ.Perm (s.mgrQ.drop n ++ s.mgrQ.take n)
        exact (List.Perm.of_eq (List.take_append_drop n s.mgrQ).symm).trans List.perm_append_comm
      · show (s.mgrQ.take n).Perm (s.mgr.msgs ++ s.mgrQ.take n)
        rw [hmsgs]
        rfl
      · intro p hq hm
        cases p with
        | mgrQ => exact absurd rfl hq
        | mgr => exact absurd rfl hm
        | pool | ring | thread => rfl
    · exact conserves_of_eq (msgHeld_mgrGoto_same hmsgs.symm)
  · rename_i hpc
    exact conserves_of_eq (msgHeld_mgrGoto_same (by rw [hpc]; rfl))
  · rename_i msg msgs hpc
    exact conserves_of_eq (msgHeld_handle hw (by rw [hpc]; rfl))
  · rename_i cfg gen msg msgs hpc
    exact conserves_of_eq (msgHeld_mgrGoto_same (by rw [hpc]; rfl))
  · rename_i msg msgs hpc
    refine conserves_mgr_give .pool (.batch msgs) msg (by simp)
      (by rw [hpc]; rfl) ?_
    rw [msgHeld_mgrGoto, msgHeld_putMsg]
    rfl
  · rename_i dest c hpc
    exact sendStep_conserves hw hpc trivial
  · rename_i dest c msg hpc
    exact sendStep_conserves hw hpc (hpc ▸ hr)
  · exact stopStep_conserves hw rfl hr

theorem msgHeld_mgrCall (op : MgrOp ι) : (s.mgrCall op).msgHeld = s.msgHeld := by
  unfold mgrCall
  split
  · rename_i hpc
    split
    · rfl
    · exact msgHeld_mgrGoto_same (by rw [hpc]; rfl)
  · rename_i hpc
    exact msgHeld_mgrGoto_same (by rw [hpc]; rfl)
  · rfl

end Manager

/-! ## The invariant -/

structure Tidy (s : Sys ι) : Prop where
  wired : AllWired s.tables
  clean : ∀ w, (s.thread w).pc.Clean

section Invariant

variable [DecidableEq ι] {s : Sys ι} {w : ι}

theorem Tidy.modify (h : s.Tidy) {f : Thread → Thread} (hf : (f (s.thread w)).pc.Clean) :
    (s.modify w f).Tidy := by
  refine ⟨h.wired, fun v => ?_⟩
  unfold Sys.modify
  by_cases hv : v = w
  · subst hv
    simpa using hf
  · simpa [hv] using h.clean v

theorem Tidy.goto (h : s.Tidy) {pc : Pc} (hpc : pc.Clean) : (s.goto w pc).Tidy := h.modify hpc

omit [DecidableEq ι] in
theorem Tidy.congr (h : s.Tidy) {s' : Sys ι} (ht : s'.tables.nfs = s.tables.nfs)
    (hthread : s'.thread = s.thread) : s'.Tidy := by
  refine ⟨fun i => ?_, fun v => ?_⟩
  · rw [ht]
    exact h.wired i
  · rw [hthread]
    exact h.clean v

theorem tidy_framed (w : ι) : Framed w Tidy Pc.Clean where
  plain {pc} hpc := by
    cases pc with
    | putJunk | putRequest | deqTake => exact hpc.elim
    | _ => trivial
  modify h hf := h.modify hf
  putMsg h := h.congr rfl rfl
  putCfg h := h.congr rfl rfl
  setRing h := h.congr rfl rfl
  setFamily h := ⟨h.wired.setFamily _ _ _, h.clean⟩
  take {s i q} h hq := (h.wired i).msg q hq

theorem Tidy.enqueueMsg (h : s.Tidy) (op : SendOp) (msg : Nat) : (s.enqueueMsg w op msg).Tidy := by
  have hmgr : ∀ s : Sys ι, s.Tidy → (s.enqueueMgrMsg w op msg).Tidy := by
    intro s h
    unfold enqueueMgrMsg
    split
    · refine Tidy.modify (s := { s with mgrQ := s.mgrQ ++ [msg] }) (h.congr rfl rfl) ?_
      cases op <;> trivial
    · exact h.goto (by cases op <;> trivial)
  have hnf : ∀ (s : Sys ι) (q : Option RingName), s.Tidy → (s.enqueueNfMsg w op msg q).Tidy := by
    intro s q h
    unfold enqueueNfMsg
    split
    · exact h.goto trivial
    · split
      · exact h.goto trivial
      · split
        · exact ((tidy_framed w).setRing h).goto trivial
        · exact h.goto trivial
  unfold Sys.enqueueMsg
  cases op with
  | toNf dest => exact hnf _ _ (h.congr rfl rfl)
  | request | start | ready | stopping => exact hmgr _ (h.congr rfl rfl)

/-- By the rules a `request_ft` gets its message, and no request is over. -/
theorem Tidy.threadStep (h : s.Tidy) (hr : s.threadRule w (s.thread w).pc) :
    (s.threadStep w).Tidy := by
  have hput : ∀ msg, (s.putMsg msg).Tidy := fun msg => h.congr rfl rfl
  unfold Sys.threadStep
  split
  · exact h
  · exact h
  · rename_i op hpc
    rw [hpc] at hr
    unfold getMsg
    split
    · rename_i hpool
      refine h.modify ?_
      rcases op with (_ | junk) | _ | _ | _ | _
      case request.ft => exact absurd hpool hr
      all_goals trivial
    · exact Tidy.goto (h.congr (by rfl) (by rfl)) (by trivial)
  · exact (hput _).goto trivial
  · exact h.enqueueMsg _ _
  · rename_i op msg hpc
    exact (hput _).modify (by cases op <;> trivial)
  · exact Tidy.goto (h.congr (by rfl) (by rfl)) (by trivial)
  · rename_i k msg hpc
    rw [hpc] at hr
    have hwaits : s.req w = k.waiting := hr
    rw [if_pos hwaits]
    exact h
  · exact (hput _).modify (by trivial)
  · split
    · exact h.goto trivial
    · exact h
  · exact (tidy_framed w).dequeueStep h _
  · exact (tidy_framed w).dequeueStep h _
  · exact (tidy_framed w).dequeueStep h _
  · exact (tidy_framed w).dequeueStep h _
  · exact (tidy_framed w).startStep h rfl

theorem Tidy.mgrStep (h : s.Tidy) (ok : Bool) : (s.mgrStep ok).Tidy := by
  have hgoto : ∀ pc, (s.mgrGoto pc).Tidy := fun pc => h.congr rfl rfl
  unfold Sys.mgrStep
  split
  · exact h
  · exact h
  · split
    · exact h.congr rfl rfl
    · exact hgoto _
  · exact hgoto _
  · unfold handle
    split
    · exact h.congr rfl rfl
    · exact ⟨h.wired.start _, h.clean⟩
    · exact ⟨h.wired.ready _, h.clean⟩
    · dsimp only
      split
      · exact ⟨h.wired.freeTag _, h.clean⟩
      · exact ⟨allWired_vacate (h.wired.freeTag _) _ _, h.clean⟩
    · exact hgoto _
    · exact hgoto _
  · exact hgoto _
  · exact h.congr rfl rfl
  · dsimp only [sendStep]
    split
    · exact hgoto _
    · exact h.congr rfl rfl
  · dsimp only [sendStep]
    split
    · exact h.congr rfl rfl
    · split
      · exact h.congr rfl rfl
      · split <;> exact h.congr rfl rfl
  · unfold stopStep
    split
    · split
      · exact hgoto _
      · split
        · exact hgoto _
        · exact hgoto _
        · exact h.congr rfl rfl
    · exact h.congr rfl rfl
    · split
      · exact hgoto _
      · exact h.congr rfl rfl
    · exact ⟨fun i => h.wired i, h.clean⟩
    · exact h

theorem Tidy.step (h : s.Tidy) {e : Event ι} (hr : s.MsgRules e) : (s.step e).Tidy := by
  cases e with
  | signal w =>
    dsimp only [Sys.step]
    exact h.modify (by exact h.clean w)
  | call w op =>
    refine (tidy_framed w).call h (fun k => ?_) fun hpc _ cfg => ?_
    · exact Tidy.goto (h.congr (by rfl) (by rfl)) (by trivial)
    · unfold getCfg
      split
      · exact h.goto trivial
      · exact Tidy.modify (h.congr (by rfl) (by rfl)) (by exact h.clean w)
  | tick w => exact h.threadStep hr
  | mgrCall op =>
    unfold Sys.step mgrCall
    dsimp only
    split
    · split
      · exact h
      · exact h.congr rfl rfl
    · exact h.congr rfl rfl
    · exact h
  | mgrTick ok => exact h.mgrStep ok

theorem Tidy.conserves (h : s.Tidy) {e : Event ι} (hr : s.MsgRules e) :
    Conserves s.msgHeld (s.step e).msgHeld := by
  cases e with
  | signal w => exact conserves_of_eq (msgHeld_modify_same rfl)
  | call w op => exact conserves_of_eq (msgHeld_call op)
  | tick w => exact threadStep_conserves h.wired (h.clean w) hr
  | mgrCall op => exact conserves_of_eq (msgHeld_mgrCall op)
  | mgrTick ok => exact mgrStep_conserves ok h.wired hr

omit [DecidableEq ι] in
theorem Tidy.putsOwn (h : s.Tidy) (e : Event ι) : s.PutsOwn e := by
  cases e with
  | signal | call | mgrCall => trivial
  | tick w =>
    have hclean := h.clean w
    show ∀ msg ∈ (s.thread w).pc.puts, msg ∈ (s.thread w).pc.msgs
    generalize (s.thread w).pc = pc at hclean
    cases pc with
    | putJunk | putRequest => exact hclean.elim
    | giveBack | deqPut =>
      rintro _ ⟨⟩
      exact List.mem_singleton_self _
    | _ => rintro msg ⟨⟩
  | mgrTick ok =>
    show ∀ msg ∈ s.mgr.puts, msg ∈ s.mgr.msgs
    cases s.mgr with
    | stopPut | put =>
      rintro msg ⟨⟩
      exact List.mem_cons_self
    | _ => rintro msg ⟨⟩

end Invariant

/-! ## Runs -/

section Runs

variable [DecidableEq ι]

omit [DecidableEq ι] in
theorem boot_tidy (numCores : NumCores) (enabled : Nat → Bool) (pool cfgs : List Nat) :
    (boot (Tables.boot numCores enabled) pool cfgs : Sys ι).Tidy :=
  ⟨allWired_boot numCores enabled, fun _ => trivial⟩

omit [DecidableEq ι] in
theorem boot_conserved (numCores : NumCores) (enabled : Nat → Bool) {pool : List Nat}
    (hpool : pool.Nodup) (cfgs : List Nat) :
    MsgsConserved pool (boot (Tables.boot numCores enabled) pool cfgs : Sys ι) := by
  refine accounted_initial (p := MsgPlace.pool) hpool fun p hp => ?_
  cases p with
  | pool => exact absurd rfl hp
  | ring name => exact ite_self _
  | mgrQ | thread | mgr => rfl

/-- **Conservation.** In a run by the rules every message object is at one place
at all times, whoever puts one back had it, and nothing else enters the pool. -/
theorem messages_conserved (numCores : NumCores) (enabled : Nat → Bool) (pool cfgs : List Nat)
    (es : List (Event ι)) (hpool : pool.Nodup)
    (hr : Along step MsgRules (boot (Tables.boot numCores enabled) pool cfgs) es) :
    MsgDiscipline pool (boot (Tables.boot numCores enabled) pool cfgs) es := by
  have hstep : ∀ (s : Sys ι) e, s.Tidy ∧ MsgsConserved pool s → s.MsgRules e →
      (s.step e).Tidy ∧ MsgsConserved pool (s.step e) := by
    rintro s e ⟨htidy, hone⟩ hrules
    exact ⟨htidy.step hrules, (htidy.conserves hrules).accounted hone⟩
  have htidy := boot_tidy (ι := ι) numCores enabled pool cfgs
  have hone := boot_conserved (ι := ι) numCores enabled hpool cfgs
  have hboot := And.intro htidy hone
  exact ⟨(Along.inv hstep hboot hr).2, Along.of_inv hstep (fun _ e h _ => h.1.putsOwn e) hboot hr⟩

end Runs

/-- One core and two message objects. -/
def twoMsgs : Sys Unit := boot Tables.bootSingle [7, 8] [0]

def startUp : List (Event Unit) :=
  [.call () (.initCfg { serviceId := 1 }), .call () .startNf, .tick (), .tick (), .tick (),
    .mgrCall .checkStatus, .mgrTick true, .mgrTick true, .mgrTick true, .mgrTick true]

theorem messages_conserved_startUp : MsgDiscipline [7, 8] twoMsgs startUp :=
  messages_conserved ⟨1, by decide⟩ (fun _ => true) [7, 8] [0] startUp (by decide)
    (by decide +kernel)

/-- A request for an LPM region: the manager puts its message back, and so does the
thread that waited for the answer. -/
def lpmRequest : List (Event Unit) :=
  [.call () .requestLpm, .tick (), .tick (), .tick (), .mgrCall .checkStatus, .mgrTick true,
    .mgrTick true, .mgrTick true, .tick (), .tick ()]

theorem lpm_request_put_twice : ¬ MsgDiscipline [7, 8] twoMsgs lpmRequest := by
  rintro ⟨⟨hone, -⟩, -⟩
  have hcount := (hone 7 (by decide)).count_le .pool
  exact absurd hcount (by decide +kernel)

end Sys

end Onvm.Msg

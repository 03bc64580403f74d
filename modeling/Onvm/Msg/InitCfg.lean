import Onvm.Lib.Places
import Onvm.Msg.Frame

/-!
# The init configurations

An NF gets an init configuration from the `NF_INFO` pool, fills it in, sends it to
the manager and puts it back when the manager has answered. A configuration is in
the pool or in the hand of one thread; the manager looks at it between the message
and the answer. Six steps break this: `onvm_nf_stop` puts a slot of `nfs` into the
pool, a thread that cannot parse its arguments or is interrupted forgets its
configuration, `start_child` reads it after it was put back, the thread can put it
back before the manager has read the instance id for the statistics, and a message
that was put back twice can announce it a second time.
-/

namespace Onvm.Msg

open Onvm.Lib Onvm.Nflib Onvm.Mgr

variable {ι : Type}

inductive CfgPlace (ι : Type) where
  | pool
  | thread (w : ι)
  deriving DecidableEq

/-! ## Program counters -/

def Pc.cfg : Pc → Option CfgObj
  | get (.start cfg _) | enqueue (.start cfg _) _ | startCheck cfg _ | dropCfg cfg _
  | startWait cfg _ | startKeep cfg _ | startTerm cfg _ _ | startLate cfg _ | startRead cfg _
  | startRefused cfg _ | startSlot cfg _ | startPut cfg _ _ => some cfg
  | _ => none

def Pc.putsCfg : Pc → Option CfgObj
  | dropCfg cfg _ | startRefused cfg _ | startPut cfg _ _ => some cfg
  | _ => none

def Pc.reads : Pc → Option CfgObj
  | startWait cfg _ | startTerm cfg _ _ | startLate cfg _ | startRead cfg _ | startSlot cfg _
  | childSlot cfg _ => some cfg
  | _ => none

def Pc.Unsent : Pc → Prop
  | idle | startCheck .. | get _ | enqueue .. => True
  | _ => False

/-- The message with the configuration is sent, and the thread has not seen an
answer. -/
def Pc.Sent (cfg : CfgObj) : Pc → Prop
  | startWait c _ | startKeep c _ | startTerm c _ _ | startLate c _ => c = cfg
  | _ => False

/-- The configuration is sent, and the thread has not seen a refusal. -/
def Pc.Pending (cfg : CfgObj) : Pc → Prop
  | startWait c _ | startKeep c _ | startTerm c _ _ | startLate c _ | startRead c _
  | startSlot c _ | startPut c _ _ => c = cfg
  | _ => False

/-- The messages that the manager has taken and not handled yet. -/
def MgrPc.ahead : MgrPc ι → List Nat
  | batch msgs | started _ _ _ msgs | stopDrain _ _ msgs | stopPut _ _ _ msgs
  | stopInfo _ _ msgs | unregister _ _ msgs | put _ msgs => msgs
  | idle | dead _ | dequeue _ | sendGet .. | sendEnqueue .. => []

/-- The configuration that the manager has accepted and will still look at. -/
def MgrPc.accepted : MgrPc ι → Option CfgObj
  | started cfg _ _ _ => some cfg
  | _ => none

/-- The configurations in the hand of a thread. What it has when its process ends
is lost. -/
def Thread.cfgs (t : Thread) : List CfgObj :=
  match t.pc with
  | .dead _ => []
  | pc => t.cfg.toList ++ pc.cfg.toList

/-- The calls that start an NF. -/
def Sys.Op.Starts : Sys.Op → Prop
  | startNf | startChild _ => True
  | _ => False

/-- The configuration that a message announces, as it was when it was sent. -/
def Content.announces : Content ι → Option (CfgObj × Nat)
  | .nfStarting cfg gen => some (cfg, gen)
  | .request .. | .nfReady _ | .nfStopping _ | .stop | .other => none

namespace Sys

def cfgHeld (s : Sys ι) : CfgPlace ι → List CfgObj
  | .pool => s.cfgPool
  | .thread w => (s.thread w).cfgs

def mgrPutsCfg (s : Sys ι) : Option CfgObj :=
  match s.mgr with
  | .stopInfo x _ _ => if s.tables.nfInfoMp = false then none else some (.slot x.slot)
  | _ => none

/-- The configuration that the next step of the manager reads or writes. -/
def mgrReads (s : Sys ι) : Option (CfgObj × Nat) :=
  match s.mgr with
  | .batch (msg :: _) => (s.content msg).announces
  | .started cfg gen _ _ => some (cfg, gen)
  | _ => none

/-- A thread reads and puts back only what it has. The manager puts nothing back
and reads only what was not put back since it was sent. -/
def CfgsOwn (s : Sys ι) : Event ι → Prop
  | .tick w => (∀ cfg ∈ (s.thread w).pc.putsCfg, cfg ∈ (s.thread w).cfgs) ∧
    ∀ cfg ∈ (s.thread w).pc.reads, cfg ∈ (s.thread w).cfgs
  | .mgrTick _ => s.mgrPutsCfg = none ∧ ∀ x ∈ s.mgrReads, s.gen x.1 = x.2
  | .signal _ | .call .. | .mgrCall _ => True

/-- Every configuration of the pool is at one place, and no other object was put
into it. -/
def CfgsConserved (pool : List Nat) (s : Sys ι) : Prop := Accounted s.cfgHeld (pool.map .cfg)

/-- At the end of the run every configuration is at one place, and in each step
whoever used or put back one had it. -/
def CfgDiscipline [DecidableEq ι] (pool : List Nat) (s : Sys ι) (es : List (Event ι)) : Prop :=
  CfgsConserved pool (exec step s es) ∧ Along step CfgsOwn s es

def unhandled (s : Sys ι) : List Nat := s.mgr.ahead ++ s.mgrQ

/-- A thread is not interrupted in `start_nf`, does not go on to the rest of
`start_child`, sends a message that is not on its way to the manager already, and
puts its configuration back when the manager is done with it. -/
def threadCfgRule (s : Sys ι) (w : ι) : Pc → Prop
  | .startCheck .. => (s.thread w).keepRunning = true
  | .enqueue (.start ..) msg => msg ∉ s.unhandled
  | .startLate .. | .childSlot .. => False
  | .startPut cfg _ _ => s.mgr.accepted ≠ some cfg
  | _ => True

/-- No NF is stopped that has started, and `onvm_nf_send_msg` does not write to a
message that is on its way to the manager. -/
def mgrCfgRule (s : Sys ι) : MgrPc ι → Prop
  | .stopInfo .. => s.tables.nfInfoMp = false
  | .sendEnqueue _ _ msg => msg ∉ s.unhandled
  | _ => True

instance (s : Sys ι) (w : ι) (pc : Pc) : Decidable (s.threadCfgRule w pc) := by
  cases pc with
  | startCheck => exact inferInstanceAs (Decidable (_ = _))
  | enqueue op msg =>
    cases op with
    | start => exact inferInstanceAs (Decidable (msg ∉ _))
    | _ => exact isTrue trivial
  | startLate | childSlot => exact isFalse id
  | startPut => exact inferInstanceAs (Decidable (_ ≠ _))
  | _ => exact isTrue trivial

instance (s : Sys ι) (pc : MgrPc ι) : Decidable (s.mgrCfgRule pc) := by
  cases pc with
  | stopInfo => exact inferInstanceAs (Decidable (_ = _))
  | sendEnqueue dest c msg => exact inferInstanceAs (Decidable (msg ∉ _))
  | _ => exact isTrue trivial

instance (op : Op) : Decidable op.Starts := by
  cases op with
  | startNf | startChild => exact isTrue trivial
  | _ => exact isFalse id

/-- The steps that lose a configuration, put back something else or use one that
was put back are not taken, and a thread that has got a configuration goes on to
`start_nf`. -/
def CfgRules (s : Sys ι) : Event ι → Prop
  | .tick w => s.threadCfgRule w (s.thread w).pc
  | .mgrTick _ => s.mgrCfgRule s.mgr
  | .call w op => (s.thread w).pc = .idle → (s.thread w).cfg ≠ none → op.Starts
  | .signal _ | .mgrCall _ => True

instance (s : Sys ι) (e : Event ι) : Decidable (s.CfgRules e) :=
  match e with
  | .tick w => inferInstanceAs (Decidable (s.threadCfgRule w (s.thread w).pc))
  | .mgrTick _ => inferInstanceAs (Decidable (s.mgrCfgRule s.mgr))
  | .call w op =>
    inferInstanceAs (Decidable ((s.thread w).pc = .idle → (s.thread w).cfg ≠ none → op.Starts))
  | .signal _ | .mgrCall _ => isTrue trivial

def announced (s : Sys ι) : List (CfgObj × Nat) :=
  s.unhandled.filterMap fun msg => (s.content msg).announces

/-- The invariant: a configuration has the waiting status until it is sent; one that
is announced has not been put back and not been answered, and its thread waits; the
one that the manager has accepted is still in the hand of its thread. -/
structure CfgInv (pool : List Nat) (s : Sys ι) : Prop where
  conserved : CfgsConserved pool s
  spent : ∀ w, (s.thread w).pc ≠ .idle → (s.thread w).cfg = none
  unsent : ∀ w, (s.thread w).pc.Unsent →
    ∀ cfg ∈ (s.thread w).cfgs, (s.cfgs cfg).status = .waitingForId
  announced : ∀ x ∈ s.announced, s.gen x.1 = x.2 ∧ (s.cfgs x.1).status = .waitingForId ∧
    ∃ w, (s.thread w).pc.Sent x.1
  once : (s.announced.map Prod.fst).Nodup
  started : ∀ cfg gen msg msgs, s.mgr = .started cfg gen msg msgs →
    s.gen cfg = gen ∧ (s.cfgs cfg).status = .starting ∧ ∃ w, (s.thread w).pc.Pending cfg

end Sys

/-! ## Program counters and hands -/

theorem Pc.Sent.pending {pc : Pc} {cfg : CfgObj} (h : pc.Sent cfg) : pc.Pending cfg := by
  cases pc with
  | startWait | startKeep | startTerm | startLate => exact h
  | _ => exact h.elim

theorem Pc.Sent.not_unsent {pc : Pc} {cfg : CfgObj} (h : pc.Sent cfg) : ¬ pc.Unsent := by
  cases pc with
  | startWait | startKeep | startTerm | startLate => exact id
  | _ => exact h.elim

theorem Pc.Pending.cfg_eq {pc : Pc} {cfg : CfgObj} (h : pc.Pending cfg) : pc.cfg = some cfg := by
  cases pc with
  | startWait | startKeep | startTerm | startLate | startRead | startSlot | startPut =>
    exact congrArg some h
  | _ => exact h.elim

theorem Pc.cfg_of_puts {pc : Pc} {cfg : CfgObj} (h : pc.putsCfg = some cfg) :
    pc.cfg = some cfg := by
  cases pc with
  | dropCfg | startRefused | startPut => exact h
  | _ => cases h

theorem Pc.not_sent_of_puts {pc : Pc} {cfg : CfgObj} (h : pc.putsCfg = some cfg) (c : CfgObj) :
    ¬ pc.Sent c := by
  cases pc with
  | dropCfg | startRefused | startPut => exact id
  | _ => cases h

theorem Thread.cfgs_of_none {t : Thread} (h : t.cfg = none) : t.cfgs = t.pc.cfg.toList := by
  unfold Thread.cfgs
  split
  · rename_i hpc
    rw [hpc]
    rfl
  · rw [h]
    rfl

theorem Thread.cfgs_of_idle {t : Thread} (h : t.pc = .idle) : t.cfgs = t.cfg.toList := by
  unfold Thread.cfgs
  rw [h]
  exact List.append_nil _

namespace Sys

variable [DecidableEq ι] {pool : List Nat} {s : Sys ι} {w : ι}

theorem cfgHeld_modify (f : Thread → Thread) : (s.modify w f).cfgHeld =
    Function.update s.cfgHeld (.thread w) (f (s.thread w)).cfgs := by
  funext p
  cases p with
  | pool => rfl
  | thread v => by_cases hv : v = w <;> simp [cfgHeld, modify, hv]

theorem cfgHeld_putCfg (cfg : CfgObj) :
    (s.putCfg cfg).cfgHeld = Function.update s.cfgHeld .pool (s.cfgPool ++ [cfg]) := by
  funext p
  cases p <;> simp [cfgHeld, putCfg]

namespace CfgInv

omit [DecidableEq ι] in
theorem pending_held (h : CfgInv pool s) {cfg : CfgObj} (hp : (s.thread w).pc.Pending cfg) :
    cfg ∈ (s.thread w).cfgs := by
  have hidle : (s.thread w).pc ≠ .idle := by
    intro hpc
    rw [hpc] at hp
    exact hp
  rw [Thread.cfgs_of_none (h.spent w hidle), hp.cfg_eq]
  exact List.mem_singleton_self cfg

omit [DecidableEq ι] in
/-- A thread that has a configuration is the one that waits for it. -/
theorem pending_unique (h : CfgInv pool s) {cfg : CfgObj} {v : ι}
    (hw : cfg ∈ (s.thread w).cfgs) (hv : (s.thread v).pc.Pending cfg) : v = w := by
  have hone := h.conserved.atOne (p := .thread w) hw
  have hplace := hone.unique (p := .thread v) (q := .thread w) (h.pending_held hv) hw
  injection hplace

omit [DecidableEq ι] in
/-- No thread waits for a configuration that is in the pool. -/
theorem pending_not_pool (h : CfgInv pool s) {cfg : CfgObj} (hp : (s.thread w).pc.Pending cfg) :
    cfg ∉ s.cfgPool := by
  intro hpool
  have hone := h.conserved.atOne (p := .pool) hpool
  have hplace := hone.unique (p := .pool) (q := .thread w) hpool (h.pending_held hp)
  injection hplace

omit [DecidableEq ι] in
/-- Only other parts of the state change, and no message is announced anew. -/
theorem congr (h : CfgInv pool s) {s' : Sys ι} (hpool : s'.cfgPool = s.cfgPool)
    (hcfgs : s'.cfgs = s.cfgs) (hgen : s'.gen = s.gen) (hthread : s'.thread = s.thread)
    (hann : s'.announced.Sublist s.announced)
    (hmgr : ∀ cfg gen msg msgs, s'.mgr = .started cfg gen msg msgs →
      s.mgr = .started cfg gen msg msgs) : CfgInv pool s' := by
  have hheld : s'.cfgHeld = s.cfgHeld := by
    funext p
    cases p with
    | pool => exact hpool
    | thread v => exact congrArg (fun t : ι → Thread => (t v).cfgs) hthread
  refine ⟨?_, ?_, ?_, ?_, (hann.map _).nodup h.once, ?_⟩
  · unfold CfgsConserved
    rw [hheld]
    exact h.conserved
  · rw [hthread]
    exact h.spent
  · rw [hthread, hcfgs]
    exact h.unsent
  · intro x hx
    rw [hcfgs, hgen, hthread]
    exact h.announced x (hann.subset hx)
  · intro cfg gen msg msgs heq
    rw [hcfgs, hgen, hthread]
    exact h.started cfg gen msg msgs (hmgr cfg gen msg msgs heq)

/-- A thread goes on with the same configurations in hand, and goes on waiting
where it has to. -/
theorem modify (h : CfgInv pool s) {f : Thread → Thread}
    (hcfgs : (f (s.thread w)).cfgs = (s.thread w).cfgs)
    (hspent : (f (s.thread w)).pc ≠ .idle → (f (s.thread w)).cfg = none)
    (hunsent : (f (s.thread w)).pc.Unsent → (s.thread w).pc.Unsent ∨ (s.thread w).cfgs = [])
    (hsent : ∀ cfg, (s.cfgs cfg).status = .waitingForId → (s.thread w).pc.Sent cfg →
      (f (s.thread w)).pc.Sent cfg)
    (hpending : ∀ cfg, (s.cfgs cfg).status = .starting → (s.thread w).pc.Pending cfg →
      (f (s.thread w)).pc.Pending cfg) : CfgInv pool (s.modify w f) := by
  have hself : (s.modify w f).thread w = f (s.thread w) := Function.update_self ..
  have hother : ∀ v, v ≠ w → (s.modify w f).thread v = s.thread v := fun v hv =>
    Function.update_of_ne hv ..
  refine ⟨?_, fun v => ?_, fun v => ?_, fun x hx => ?_, h.once, fun cfg gen msg msgs hmgr => ?_⟩
  · unfold CfgsConserved
    rw [cfgHeld_modify, hcfgs]
    have hsame : Function.update s.cfgHeld (.thread w) (s.thread w).cfgs = s.cfgHeld :=
      Function.update_eq_self (.thread w) s.cfgHeld
    rw [hsame]
    exact h.conserved
  · by_cases hv : v = w
    · subst hv
      rw [hself]
      exact hspent
    · rw [hother v hv]
      exact h.spent v
  · by_cases hv : v = w
    · subst hv
      rw [hself, hcfgs]
      intro hnew
      rcases hunsent hnew with hold | hempty
      · exact h.unsent v hold
      · rw [hempty]
        exact fun _ => nofun
    · rw [hother v hv]
      exact h.unsent v
  · obtain ⟨hgen, hstatus, v, hv⟩ := h.announced x hx
    refine ⟨hgen, hstatus, v, ?_⟩
    by_cases hvw : v = w
    · subst hvw
      rw [hself]
      exact hsent _ hstatus hv
    · rw [hother v hvw]
      exact hv
  · obtain ⟨hgen, hstatus, v, hv⟩ := h.started cfg gen msg msgs hmgr
    refine ⟨hgen, hstatus, v, ?_⟩
    by_cases hvw : v = w
    · subst hvw
      rw [hself]
      exact hpending _ hstatus hv
    · rw [hother v hvw]
      exact hv

theorem proceed (h : CfgInv pool s) {f : Thread → Thread} (hbusy : (s.thread w).pc ≠ .idle)
    (hcfg : (f (s.thread w)).cfg = (s.thread w).cfg)
    (hpc : (f (s.thread w)).pc.cfg = (s.thread w).pc.cfg)
    (hunsent : (f (s.thread w)).pc.Unsent → (s.thread w).pc.Unsent ∨ (s.thread w).pc.cfg = none)
    (hsent : ∀ cfg, (s.cfgs cfg).status = .waitingForId → (s.thread w).pc.Sent cfg →
      (f (s.thread w)).pc.Sent cfg)
    (hpending : ∀ cfg, (s.cfgs cfg).status = .starting → (s.thread w).pc.Pending cfg →
      (f (s.thread w)).pc.Pending cfg) : CfgInv pool (s.modify w f) := by
  have hnone := h.spent w hbusy
  rw [hnone] at hcfg
  refine h.modify ?_ (fun _ => hcfg) ?_ hsent hpending
  · rw [Thread.cfgs_of_none hcfg, Thread.cfgs_of_none hnone, hpc]
  · intro hnew
    refine (hunsent hnew).imp_right fun hpc => ?_
    rw [Thread.cfgs_of_none hnone, hpc]
    rfl

theorem onward (h : CfgInv pool s) {f : Thread → Thread} (hbusy : (s.thread w).pc ≠ .idle)
    (hquiet : ∀ cfg, ¬ (s.thread w).pc.Pending cfg)
    (hcfg : (f (s.thread w)).cfg = (s.thread w).cfg)
    (hpc : (f (s.thread w)).pc.cfg = (s.thread w).pc.cfg)
    (hunsent : (f (s.thread w)).pc.Unsent → (s.thread w).pc.Unsent ∨ (s.thread w).pc.cfg = none) :
    CfgInv pool (s.modify w f) :=
  h.proceed hbusy hcfg hpc hunsent (fun cfg _ hs => absurd hs.pending (hquiet cfg))
    fun cfg _ hp => absurd hp (hquiet cfg)

theorem plain (h : CfgInv pool s) {f : Thread → Thread} (hbusy : (s.thread w).pc ≠ .idle)
    (hnone : (s.thread w).pc.cfg = none) (hcfg : (f (s.thread w)).cfg = (s.thread w).cfg)
    (hpc : (f (s.thread w)).pc.cfg = none) : CfgInv pool (s.modify w f) := by
  refine h.onward hbusy (fun cfg hp => ?_) hcfg (hpc.trans hnone.symm) fun _ => .inr hnone
  rw [hp.cfg_eq] at hnone
  cases hnone

omit [DecidableEq ι] in
/-- The manager has not accepted a configuration whose thread does not wait. -/
theorem not_accepted (h : CfgInv pool s) {cfg : CfgObj} (hmem : cfg ∈ (s.thread w).cfgs)
    (hquiet : ¬ (s.thread w).pc.Pending cfg) : s.mgr.accepted ≠ some cfg := by
  intro haccepted
  cases hmgr : s.mgr with
  | started c gen msg msgs =>
    rw [hmgr] at haccepted
    obtain rfl : c = cfg := Option.some.inj haccepted
    obtain ⟨-, -, v, hv⟩ := h.started c gen msg msgs hmgr
    obtain rfl := h.pending_unique hmem hv
    exact hquiet hv
  | _ =>
    rw [hmgr] at haccepted
    cases haccepted

theorem put (h : CfgInv pool s) {f : Thread → Thread} {cfg : CfgObj}
    (hbusy : (s.thread w).pc ≠ .idle) (hputs : (s.thread w).pc.putsCfg = some cfg)
    (hdone : (s.thread w).pc.Pending cfg → s.mgr.accepted ≠ some cfg)
    (hcfg : (f (s.thread w)).cfg = (s.thread w).cfg) (hpc : (f (s.thread w)).pc.cfg = none) :
    CfgInv pool ((s.putCfg cfg).modify w f) := by
  have hnone := h.spent w hbusy
  rw [hnone] at hcfg
  have hhand : (s.thread w).cfgs = [cfg] := by
    rw [Thread.cfgs_of_none hnone, Pc.cfg_of_puts hputs]
    rfl
  have hmem : cfg ∈ (s.thread w).cfgs := by
    rw [hhand]
    exact List.mem_singleton_self cfg
  have hself : ((s.putCfg cfg).modify w f).thread w = f (s.thread w) := Function.update_self ..
  have hother : ∀ v, v ≠ w → ((s.putCfg cfg).modify w f).thread v = s.thread v := fun v hv =>
    Function.update_of_ne hv ..
  have hgen : ∀ c, c ≠ cfg → ((s.putCfg cfg).modify w f).gen c = s.gen c := fun c hc =>
    Function.update_of_ne hc ..
  refine ⟨?_, fun v => ?_, fun v => ?_, fun x hx => ?_, h.once, fun c gen msg msgs hmgr => ?_⟩
  · refine Conserves.accounted ?_ h.conserved
    rw [cfgHeld_modify, cfgHeld_putCfg, Function.update_comm (by simp)]
    refine conserves_handover (a := CfgPlace.thread w) (b := .pool) (l := [cfg]) (by simp) ?_
      (List.Perm.refl _)
    show (s.thread w).cfgs.Perm ((f (s.thread w)).cfgs ++ [cfg])
    rw [hhand, Thread.cfgs_of_none hcfg, hpc]
    rfl
  · by_cases hv : v = w
    · subst hv
      rw [hself]
      exact fun _ => hcfg
    · rw [hother v hv]
      exact h.spent v
  · by_cases hv : v = w
    · subst hv
      rw [hself, Thread.cfgs_of_none hcfg, hpc]
      exact fun _ _ => nofun
    · rw [hother v hv]
      exact h.unsent v
  · obtain ⟨hx, hstatus, v, hv⟩ := h.announced x hx
    have hvw : v ≠ w := by
      rintro rfl
      exact Pc.not_sent_of_puts hputs _ hv
    have hne : x.1 ≠ cfg := by
      intro heq
      exact hvw (h.pending_unique (heq ▸ hmem) hv.pending)
    refine ⟨(hgen _ hne).trans hx, hstatus, v, ?_⟩
    rw [hother v hvw]
    exact hv
  · obtain ⟨hg, hstatus, v, hv⟩ := h.started c gen msg msgs hmgr
    have hne : c ≠ cfg := by
      rintro rfl
      have haccepted : s.mgr.accepted = some c := congrArg MgrPc.accepted hmgr
      by_cases hp : (s.thread w).pc.Pending c
      · exact hdone hp haccepted
      · exact h.not_accepted hmem hp haccepted
    have hvw : v ≠ w := by
      rintro rfl
      have hmem := h.pending_held hv
      rw [hhand] at hmem
      exact hne (List.mem_singleton.mp hmem)
    refine ⟨(hgen _ hne).trans hg, hstatus, v, ?_⟩
    rw [hother v hvw]
    exact hv

/-! ## Threads -/

/-- `onvm_nflib_stop` changes the thread only, which has no configuration then. -/
theorem stop_eq (s : Sys ι) (w : ι) : ∃ f : Thread → Thread, s.stop w = s.modify w f ∧
    (f (s.thread w)).cfg = (s.thread w).cfg ∧ (f (s.thread w)).pc.cfg = none := by
  unfold Sys.stop
  dsimp only
  split
  · exact ⟨_, rfl, rfl, rfl⟩
  · split
    · exact ⟨_, rfl, rfl, rfl⟩
    · refine ⟨_, rfl, rfl, ?_⟩
      dsimp only
      split <;> rfl

theorem startFailed_eq (s : Sys ι) (w : ι) (child : Option Nat) : ∃ f : Thread → Thread,
    s.startFailed w child = s.modify w f ∧ (f (s.thread w)).cfg = (s.thread w).cfg ∧
      (f (s.thread w)).pc.cfg = none := by
  cases child with
  | none => exact ⟨fun t => { t with pc := .idle }, rfl, rfl, rfl⟩
  | some _ => exact stop_eq s w

theorem startStep (h : CfgInv pool s) {pc : Pc} (hpc : (s.thread w).pc = pc)
    (hr : s.threadCfgRule w pc) : CfgInv pool (s.startStep w pc) := by
  have hbusy : pc ≠ .idle → (s.thread w).pc ≠ .idle := fun hne => hpc ▸ hne
  cases pc with
  | startCheck cfg child =>
    have hkeep : (s.thread w).keepRunning = true := hr
    dsimp only [Sys.startStep]
    rw [if_pos hkeep]
    exact h.onward (hbusy nofun) (by rw [hpc]; exact fun _ => id) rfl (by rw [hpc]; rfl)
      (fun _ => .inl (by rw [hpc]; trivial))
  | dropCfg cfg msg =>
    dsimp only [Sys.startStep]
    refine h.put (hbusy nofun) (by rw [hpc]; rfl) (by rw [hpc]; exact False.elim) rfl ?_
    cases msg <;> rfl
  | startWait cfg child =>
    dsimp only [Sys.startStep]
    split
    · refine h.proceed (hbusy nofun) rfl (by rw [hpc]; rfl) False.elim ?_ ?_ <;> rw [hpc]
      · exact fun _ _ => id
      · exact fun _ _ => id
    · -- The status is not the waiting one any more.
      rename_i hanswer
      refine h.proceed (hbusy nofun) rfl (by rw [hpc]; rfl) False.elim ?_ ?_ <;> rw [hpc]
      · rintro _ hwaits rfl
        exact absurd hwaits hanswer
      · exact fun _ _ => id
  | startKeep cfg child =>
    dsimp only [Sys.startStep]
    split <;>
    · refine h.proceed (hbusy nofun) rfl (by rw [hpc]; rfl) False.elim ?_ ?_ <;> rw [hpc] <;>
        exact fun _ _ => id
  | startTerm cfg child i =>
    dsimp only [Sys.startStep]
    split <;>
    · refine h.proceed (hbusy nofun) rfl (by rw [hpc]; rfl) False.elim ?_ ?_ <;> rw [hpc] <;>
        exact fun _ _ => id
  | startLate cfg child => exact hr.elim
  | startRead cfg child =>
    dsimp only [Sys.startStep]
    split
    · refine h.proceed (hbusy nofun) rfl (by rw [hpc]; rfl) False.elim ?_ ?_ <;> rw [hpc]
      · exact fun _ _ => id
      · exact fun _ _ => id
    · -- A configuration that was accepted is not refused.
      rename_i hrefused
      refine h.proceed (hbusy nofun) rfl (by rw [hpc]; rfl) False.elim ?_ ?_ <;> rw [hpc]
      · exact fun _ _ => id
      · rintro _ hstarting rfl
        exact absurd hstarting hrefused
  | startRefused cfg child =>
    dsimp only [Sys.startStep]
    obtain ⟨f, heq, hcfg, hnone⟩ := startFailed_eq (s.putCfg cfg) w child
    rw [heq]
    exact h.put (hbusy nofun) (by rw [hpc]; rfl) (by rw [hpc]; exact False.elim) hcfg hnone
  | startSlot cfg child =>
    dsimp only [Sys.startStep]
    refine h.proceed (hbusy nofun) rfl (by rw [hpc]; rfl) False.elim ?_ ?_ <;> rw [hpc]
    · exact fun _ _ => id
    · exact fun _ _ => id
  | startPut cfg child i =>
    dsimp only [Sys.startStep]
    exact h.put (hbusy nofun) (by rw [hpc]; rfl) (fun _ => hr) rfl rfl
  | startInit cfg child i =>
    dsimp only [Sys.startStep]
    have h' : CfgInv pool { s with tables := s.tables.setFamily i 0 0 } :=
      h.congr rfl rfl rfl rfl (List.Sublist.refl _) fun _ _ _ _ => id
    have hnone : (s.thread w).pc.cfg = none := by
      rw [hpc]
      rfl
    exact h'.plain (hbusy nofun) hnone rfl (by cases child <;> rfl)
  | childSlot cfg parent => exact hr.elim
  | _ => exact h

theorem dequeueStep (h : CfgInv pool s) {pc : Pc} (hpc : (s.thread w).pc = pc) :
    CfgInv pool (s.dequeueStep w pc) := by
  have hbusy : pc ≠ .idle → (s.thread w).pc ≠ .idle := fun hne => hpc ▸ hne
  have hnone : pc.cfg = none → (s.thread w).pc.cfg = none := fun hne => hpc ▸ hne
  cases pc with
  | deqCount i =>
    dsimp only [Sys.dequeueStep]
    split
    · exact h.plain (hbusy nofun) (hnone rfl) rfl rfl
    · split <;> exact h.plain (hbusy nofun) (hnone rfl) rfl rfl
  | deqTake q =>
    dsimp only [Sys.dequeueStep]
    split
    · exact h.plain (hbusy nofun) (hnone rfl) rfl rfl
    · exact h.plain (hbusy nofun) (hnone rfl) rfl rfl
    · rename_i msg msgs _
      have h' : CfgInv pool (s.setRing q msgs) :=
        h.congr rfl rfl rfl rfl (List.Sublist.refl _) fun _ _ _ _ => id
      exact h'.plain (hbusy nofun) (hnone rfl) rfl rfl
  | deqHandle msg =>
    dsimp only [Sys.dequeueStep]
    exact h.plain (hbusy nofun) (hnone rfl) rfl rfl
  | deqPut msg =>
    dsimp only [Sys.dequeueStep]
    have h' : CfgInv pool (s.putMsg msg) :=
      h.congr rfl rfl rfl rfl (List.Sublist.refl _) fun _ _ _ _ => id
    exact h'.plain (hbusy nofun) (hnone rfl) rfl rfl
  | _ => exact h

theorem getMsg (h : CfgInv pool s) {op : SendOp} (hpc : (s.thread w).pc = .get op) :
    CfgInv pool (s.getMsg w op) := by
  have hbusy : (s.thread w).pc ≠ .idle := by
    rw [hpc]
    nofun
  have hquiet : ∀ cfg, ¬ (s.thread w).pc.Pending cfg := by
    rw [hpc]
    exact fun _ => id
  have hunsent : (s.thread w).pc.Unsent := by
    rw [hpc]
    trivial
  unfold Sys.getMsg
  split
  · refine h.onward hbusy hquiet rfl ?_ fun _ => .inl hunsent
    rw [hpc]
    rcases op with (_ | _) | _ | _ | _ | _ <;> rfl
  · rename_i msg msgs _
    have h' : CfgInv pool { s with msgPool := msgs } :=
      h.congr rfl rfl rfl rfl (List.Sublist.refl _) fun _ _ _ _ => id
    refine h'.onward hbusy hquiet rfl ?_ fun _ => .inl hunsent
    show _ = (s.thread w).pc.cfg
    rw [hpc]
    cases op <;> rfl

omit [DecidableEq ι] in
theorem announced_write {msg : Nat} {c : Content ι} (hc : c.announces = none) :
    ({ s with content := Function.update s.content msg c } : Sys ι).announced.Sublist
      s.announced := by
  have hwrite : (fun m => (Function.update s.content msg c m).announces) =
      fun m => if decide (m ≠ msg) then (s.content m).announces else none := by
    funext m
    by_cases hm : m = msg <;> simp [hm, hc]
  show (List.filterMap (fun m => (Function.update s.content msg c m).announces) s.unhandled).Sublist _
  rw [hwrite, ← List.filterMap_filter]
  exact List.filter_sublist.filterMap _

omit [DecidableEq ι] in
/-- A message that is not on its way to the manager is written. -/
theorem announced_write_other {msg : Nat} (hmsg : msg ∉ s.unhandled) (c : Content ι) :
    ({ s with content := Function.update s.content msg c } : Sys ι).announced = s.announced := by
  refine List.filterMap_congr fun m hm => ?_
  have hne : m ≠ msg := fun heq => hmsg (heq ▸ hm)
  exact congrArg Content.announces (Function.update_of_ne hne c s.content)

omit [DecidableEq ι] in
/-- One more message is sent to the manager. -/
theorem announced_send (msg : Nat) : ({ s with mgrQ := s.mgrQ ++ [msg] } : Sys ι).announced =
    s.announced ++ (s.content msg).announces.toList := by
  unfold Sys.announced Sys.unhandled
  rw [← List.append_assoc, List.filterMap_append]
  cases h : (s.content msg).announces <;> simp [h]

omit [DecidableEq ι] in
theorem announce (h : CfgInv pool s) {cfg : CfgObj} (hsent : (s.thread w).pc.Sent cfg)
    (hstatus : (s.cfgs cfg).status = .waitingForId) (hnew : ∀ x ∈ s.announced, x.1 ≠ cfg)
    {content : Nat → Content ι} {mgrQ : List Nat}
    (hann : ({ s with content := content, mgrQ := mgrQ } : Sys ι).announced =
      s.announced ++ [(cfg, s.gen cfg)]) :
    CfgInv pool { s with content := content, mgrQ := mgrQ } := by
  refine ⟨h.conserved, h.spent, h.unsent, ?_, ?_, h.started⟩
  · rw [hann]
    intro x hx
    rcases List.mem_append.mp hx with hx | hx
    · exact h.announced x hx
    · rw [List.mem_singleton.mp hx]
      exact ⟨rfl, hstatus, w, hsent⟩
  · rw [hann, List.map_append]
    refine List.nodup_append.mpr ⟨h.once, List.nodup_singleton _, ?_⟩
    intro c hc d hd
    obtain ⟨x, hx, rfl⟩ := List.mem_map.mp hc
    rw [List.mem_singleton.mp hd]
    exact hnew x hx

theorem send (h : CfgInv pool s) {cfg : CfgObj} {child : Option Nat} {msg : Nat}
    (hpc : (s.thread w).pc = .enqueue (.start cfg child) msg) (hmsg : msg ∉ s.unhandled)
    {f : Thread → Thread} (hcfg : (f (s.thread w)).cfg = (s.thread w).cfg)
    (hwait : (f (s.thread w)).pc = .startWait cfg child) :
    CfgInv pool ({ s with
      content := Function.update s.content msg (.nfStarting cfg (s.gen cfg))
      mgrQ := s.mgrQ ++ [msg] }.modify w f) := by
  have hbusy : (s.thread w).pc ≠ .idle := by
    rw [hpc]
    nofun
  have hquiet : ∀ c, ¬ (s.thread w).pc.Pending c := by
    rw [hpc]
    exact fun _ => id
  have hmem : cfg ∈ (s.thread w).cfgs := by
    rw [Thread.cfgs_of_none (h.spent w hbusy), hpc]
    exact List.mem_singleton_self cfg
  have hstatus : (s.cfgs cfg).status = .waitingForId :=
    h.unsent w (by rw [hpc]; trivial) cfg hmem
  have hnew : ∀ x ∈ s.announced, x.1 ≠ cfg := by
    intro x hx heq
    obtain ⟨-, -, v, hv⟩ := h.announced x hx
    obtain rfl := h.pending_unique (heq ▸ hmem) hv.pending
    exact hquiet _ hv.pending
  have hann : ({ s with
      content := Function.update s.content msg (.nfStarting cfg (s.gen cfg))
      mgrQ := s.mgrQ ++ [msg] } : Sys ι).announced = s.announced ++ [(cfg, s.gen cfg)] := by
    refine (announced_send (s := { s with
      content := Function.update s.content msg (.nfStarting cfg (s.gen cfg)) }) msg).trans ?_
    rw [announced_write_other hmsg]
    simp [Content.announces]
  have h' : CfgInv pool (s.modify w f) :=
    h.onward hbusy hquiet hcfg (by rw [hwait, hpc]; rfl) (by rw [hwait]; exact False.elim)
  have hsent : ((s.modify w f).thread w).pc.Sent cfg := by
    simp only [Sys.modify, Function.update_self, hwait]
    rfl
  exact h'.announce hsent hstatus hnew hann

theorem enqueueNfMsg (h : CfgInv pool s) {op : SendOp} {msg : Nat} (q : Option RingName)
    (hbusy : (s.thread w).pc ≠ .idle) (hnone : (s.thread w).pc.cfg = none) :
    CfgInv pool (s.enqueueNfMsg w op msg q) := by
  unfold Sys.enqueueNfMsg
  split
  · exact h.plain hbusy hnone rfl rfl
  · split
    · exact h.plain hbusy hnone rfl rfl
    · split
      · rename_i name _ queued _ _
        have h' : CfgInv pool (s.setRing name (queued ++ [msg])) :=
          h.congr rfl rfl rfl rfl (List.Sublist.refl _) fun _ _ _ _ => id
        exact h'.plain hbusy hnone rfl rfl
      · exact h.plain hbusy hnone rfl rfl

/-- A message that announces nothing is sent to the manager. -/
theorem enqueueMgrMsg (h : CfgInv pool s) {op : SendOp} {msg : Nat}
    (hbusy : (s.thread w).pc ≠ .idle) (hnone : (s.thread w).pc.cfg = none)
    (hop : ∀ cfg child, op ≠ .start cfg child) (hmsg : (s.content msg).announces = none) :
    CfgInv pool (s.enqueueMgrMsg w op msg) := by
  unfold Sys.enqueueMgrMsg
  split
  · have hann : ({ s with mgrQ := s.mgrQ ++ [msg] } : Sys ι).announced = s.announced := by
      rw [announced_send, hmsg]
      exact List.append_nil _
    have h' : CfgInv pool { s with mgrQ := s.mgrQ ++ [msg] } :=
      h.congr rfl rfl rfl rfl (by rw [hann]) fun _ _ _ _ => id
    refine h'.plain hbusy hnone rfl ?_
    cases op with
    | start cfg child => exact absurd rfl (hop cfg child)
    | _ => rfl
  · refine h.plain hbusy hnone rfl ?_
    cases op with
    | start cfg child => exact absurd rfl (hop cfg child)
    | _ => rfl

theorem enqueueMsg (h : CfgInv pool s) {op : SendOp} {msg : Nat}
    (hpc : (s.thread w).pc = .enqueue op msg) (hr : s.threadCfgRule w (.enqueue op msg)) :
    CfgInv pool (s.enqueueMsg w op msg) := by
  have hbusy : (s.thread w).pc ≠ .idle := by
    rw [hpc]
    nofun
  have hwrite : ∀ c : Content ι, c.announces = none →
      CfgInv pool { s with content := Function.update s.content msg c } := fun c hc =>
    h.congr rfl rfl rfl rfl (announced_write hc) fun _ _ _ _ => id
  cases op with
  | start cfg child =>
    dsimp only [Sys.enqueueMsg, Sys.enqueueMgrMsg]
    split
    · exact h.send hpc hr rfl rfl
    · have h' : CfgInv pool { s with
          content := Function.update s.content msg (.nfStarting cfg (s.gen cfg)) } :=
        h.congr rfl rfl rfl rfl (by rw [announced_write_other hr]) fun _ _ _ _ => id
      refine h'.onward hbusy ?_ rfl ?_ False.elim
      · show ∀ cfg, ¬ (s.thread w).pc.Pending cfg
        rw [hpc]
        exact fun _ => id
      · show _ = (s.thread w).pc.cfg
        rw [hpc]
        rfl
  | toNf dest =>
    exact (hwrite .other rfl).enqueueNfMsg _ hbusy (by rw [hpc]; rfl)
  | request k =>
    refine (hwrite (.request k w) rfl).enqueueMgrMsg hbusy (by rw [hpc]; rfl) nofun ?_
    simp [Content.announces]
  | ready i =>
    refine (hwrite (.nfReady i) rfl).enqueueMgrMsg hbusy (by rw [hpc]; rfl) nofun ?_
    simp [Content.announces]
  | stopping i =>
    refine (hwrite (.nfStopping i) rfl).enqueueMgrMsg hbusy (by rw [hpc]; rfl) nofun ?_
    simp [Content.announces]

/-- **A step of a thread** by the rules. -/
theorem threadStep (h : CfgInv pool s) (hr : s.threadCfgRule w (s.thread w).pc) :
    CfgInv pool (s.threadStep w) := by
  have hput : ∀ msg, CfgInv pool (s.putMsg msg) := fun msg =>
    h.congr rfl rfl rfl rfl (List.Sublist.refl _) fun _ _ _ _ => id
  unfold Sys.threadStep
  split
  · exact h
  · exact h
  · rename_i op hpc
    exact h.getMsg hpc
  · rename_i junk hpc
    exact (hput junk).plain (by simp [Sys.putMsg, hpc]) (by simp [Sys.putMsg, hpc, Pc.cfg]) rfl rfl
  · rename_i op msg hpc
    exact h.enqueueMsg hpc (hpc ▸ hr)
  · rename_i op msg hpc
    refine (hput msg).plain (by simp [Sys.putMsg, hpc]) (by simp [Sys.putMsg, hpc, Pc.cfg]) rfl ?_
    cases op <;> rfl
  · rename_i k msg hpc
    have h' : CfgInv pool { s with req := Function.update s.req w k.waiting } :=
      h.congr rfl rfl rfl rfl (List.Sublist.refl _) fun _ _ _ _ => id
    exact h'.plain (by simp [hpc]) (by simp [hpc, Pc.cfg]) rfl rfl
  · rename_i k msg hpc
    split
    · exact h
    · exact h.plain (by simp [hpc]) (by simp [hpc, Pc.cfg]) rfl rfl
  · rename_i k msg hpc
    exact (hput msg).plain (by simp [Sys.putMsg, hpc]) (by simp [Sys.putMsg, hpc, Pc.cfg]) rfl rfl
  · rename_i i hpc
    split
    · exact h.plain (by simp [hpc]) (by simp [hpc, Pc.cfg]) rfl rfl
    · exact h
  · rename_i i hpc
    exact h.dequeueStep hpc
  · rename_i q hpc
    exact h.dequeueStep hpc
  · rename_i msg hpc
    exact h.dequeueStep hpc
  · rename_i msg hpc
    exact h.dequeueStep hpc
  · exact h.startStep rfl hr

theorem callPlain (h : CfgInv pool s) {f : Thread → Thread} (hidle : (s.thread w).pc = .idle)
    (hnone : (s.thread w).cfg = none) (hcfg : (f (s.thread w)).cfg = (s.thread w).cfg)
    (hpc : (f (s.thread w)).pc.cfg = none) : CfgInv pool (s.modify w f) := by
  rw [hnone] at hcfg
  have hempty : (s.thread w).cfgs = [] := by
    rw [Thread.cfgs_of_idle hidle, hnone]
    rfl
  refine h.modify ?_ (fun _ => hcfg) (fun _ => .inr hempty) ?_ ?_
  · rw [Thread.cfgs_of_none hcfg, hpc, hempty]
    rfl
  · rw [hidle]
    exact fun _ _ => False.elim
  · rw [hidle]
    exact fun _ _ => False.elim

omit [DecidableEq ι] in
theorem fill (h : CfgInv pool s) {cfg : CfgObj} (hcfg : cfg ∈ s.cfgPool) (x : OnvmNfInitCfg) :
    CfgInv pool { s with cfgs := Function.update s.cfgs cfg x } := by
  have hother : ∀ c, c ≠ cfg → Function.update s.cfgs cfg x c = s.cfgs c := fun c hc =>
    Function.update_of_ne hc ..
  refine ⟨h.conserved, h.spent, fun v hv c hc => ?_, fun y hy => ?_, h.once,
    fun c gen msg msgs hmgr => ?_⟩
  · have hne : c ≠ cfg := by
      rintro rfl
      have hplace := (h.conserved.atOne (p := .pool) hcfg).unique (p := .pool) (q := .thread v)
        hcfg hc
      injection hplace
    show (Function.update s.cfgs cfg x c).status = _
    rw [hother c hne]
    exact h.unsent v hv c hc
  · obtain ⟨hgen, hstatus, v, hv⟩ := h.announced y hy
    have hne : y.1 ≠ cfg := fun heq => h.pending_not_pool hv.pending (heq ▸ hcfg)
    refine ⟨hgen, ?_, v, hv⟩
    show (Function.update s.cfgs cfg x y.1).status = _
    rw [hother _ hne]
    exact hstatus
  · obtain ⟨hgen, hstatus, v, hv⟩ := h.started c gen msg msgs hmgr
    have hne : c ≠ cfg := fun heq => h.pending_not_pool hv (heq ▸ hcfg)
    refine ⟨hgen, ?_, v, hv⟩
    show (Function.update s.cfgs cfg x c).status = _
    rw [hother _ hne]
    exact hstatus

theorem take (h : CfgInv pool s) {cfg : CfgObj} {cfgs : List CfgObj}
    (hpool : s.cfgPool = cfg :: cfgs) (hidle : (s.thread w).pc = .idle)
    (hnone : (s.thread w).cfg = none) (hstatus : (s.cfgs cfg).status = .waitingForId) :
    CfgInv pool ({ s with cfgPool := cfgs }.modify w fun t => { t with cfg := some cfg }) := by
  have hhand : ({ s.thread w with cfg := some cfg } : Thread).cfgs = [cfg] :=
    Thread.cfgs_of_idle hidle
  have hthread : ∀ v, Function.update s.thread w { s.thread w with cfg := some cfg } v =
      if v = w then { s.thread w with cfg := some cfg } else s.thread v := fun v =>
    Function.update_apply ..
  have hpcs : ∀ v, (Function.update s.thread w { s.thread w with cfg := some cfg } v).pc =
      (s.thread v).pc := fun v => by
    rw [hthread]
    split
    · rename_i hv
      rw [hv]
    · rfl
  refine ⟨?_, fun v => ?_, fun v => ?_, fun x hx => ?_, h.once, fun c gen msg msgs hmgr => ?_⟩
  · refine Conserves.accounted ?_ h.conserved
    have hpoolHeld : ({ s with cfgPool := cfgs } : Sys ι).cfgHeld =
        Function.update s.cfgHeld .pool cfgs := by
      funext p
      cases p <;> simp [cfgHeld]
    rw [cfgHeld_modify, hpoolHeld]
    refine conserves_handover (a := CfgPlace.pool) (b := .thread w) (l := [cfg]) (by simp) ?_ ?_
    · show s.cfgPool.Perm _
      rw [hpool]
      exact (List.perm_append_singleton cfg cfgs).symm
    · show ({ s.thread w with cfg := some cfg } : Thread).cfgs.Perm ((s.thread w).cfgs ++ [cfg])
      rw [hhand, Thread.cfgs_of_idle hidle, hnone]
      rfl
  · show (Function.update s.thread w _ v).pc ≠ .idle → (Function.update s.thread w _ v).cfg = none
    rw [hpcs, hthread]
    intro hbusy
    rw [if_neg (by rintro rfl; exact hbusy hidle)]
    exact h.spent v hbusy
  · show (Function.update s.thread w _ v).pc.Unsent →
      ∀ c ∈ (Function.update s.thread w _ v).cfgs, (s.cfgs c).status = .waitingForId
    rw [hpcs, hthread]
    intro hunsent
    split
    · rw [hhand]
      intro c hc
      rw [List.mem_singleton.mp hc]
      exact hstatus
    · exact h.unsent v hunsent
  · obtain ⟨hgen, hwaits, v, hv⟩ := h.announced x hx
    exact ⟨hgen, hwaits, v, (hpcs v).symm ▸ hv⟩
  · obtain ⟨hgen, hstarting, v, hv⟩ := h.started c gen msg msgs hmgr
    exact ⟨hgen, hstarting, v, (hpcs v).symm ▸ hv⟩

theorem getCfg (h : CfgInv pool s) (hidle : (s.thread w).pc = .idle)
    (hnone : (s.thread w).cfg = none) (cfg : OnvmNfInitCfg) : CfgInv pool (s.getCfg w cfg) := by
  unfold Sys.getCfg
  split
  · exact h.callPlain hidle hnone rfl rfl
  · rename_i c cfgs hpool
    have hmem : c ∈ s.cfgPool := by
      rw [hpool]
      exact List.mem_cons_self
    have h' := h.fill hmem { cfg with status := .waitingForId }
    exact h'.take hpool hidle hnone (by simp)

theorem startNf (h : CfgInv pool s) (hidle : (s.thread w).pc = .idle) (child : Option Nat) :
    CfgInv pool (s.startNf w child) := by
  unfold Sys.startNf
  split
  · exact h
  · rename_i cfg hcfg
    refine h.modify ?_ (fun _ => rfl) (fun _ => .inl (by rw [hidle]; trivial)) ?_ ?_
    · rw [Thread.cfgs_of_idle hidle, hcfg]
      rfl
    · rw [hidle]
      exact fun _ _ => False.elim
    · rw [hidle]
      exact fun _ _ => False.elim

theorem callOp (h : CfgInv pool s) {op : Op} (hidle : (s.thread w).pc = .idle)
    (hr : (s.thread w).cfg ≠ none → op.Starts) : CfgInv pool (s.callOp w op) := by
  have hnone : ¬ op.Starts → (s.thread w).cfg = none := by
    intro hno
    by_contra hne
    exact hno (hr hne)
  cases op with
  | requestLpm | requestFt =>
    have h' : CfgInv pool { s with answer := Function.update s.answer w none } :=
      h.congr rfl rfl rfl rfl (List.Sublist.refl _) fun _ _ _ _ => id
    dsimp only [Sys.callOp, Sys.callRequest]
    exact h'.callPlain hidle (hnone id) rfl rfl
  | initCfg cfg =>
    dsimp only [Sys.callOp]
    rw [hnone id]
    exact h.getCfg hidle (hnone id) cfg
  | badArgs =>
    dsimp only [Sys.callOp]
    exact h.callPlain hidle (hnone id) (hnone id).symm rfl
  | startNf => exact h.startNf hidle none
  | startChild parent => exact h.startNf hidle (some parent)
  | nfReady | dequeueMessages =>
    dsimp only [Sys.callOp]
    split
    · exact h
    · exact h.callPlain hidle (hnone id) rfl rfl
  | stop =>
    obtain ⟨f, heq, hcfg, hpc⟩ := stop_eq s w
    dsimp only [Sys.callOp]
    rw [heq]
    exact h.callPlain hidle (hnone id) hcfg hpc
  | sendMsgToNf dest =>
    dsimp only [Sys.callOp]
    exact h.callPlain hidle (hnone id) rfl rfl

/-! ## The manager -/

omit [DecidableEq ι] in
theorem mgr (h : CfgInv pool s) {s' : Sys ι} (hpool : s'.cfgPool = s.cfgPool)
    (hcfgs : s'.cfgs = s.cfgs) (hgen : s'.gen = s.gen) (hthread : s'.thread = s.thread)
    (hcontent : s'.content = s.content) (hq : s'.mgrQ = s.mgrQ)
    (hahead : s'.mgr.ahead = s.mgr.ahead)
    (hmgr : ∀ cfg gen msg msgs, s'.mgr ≠ .started cfg gen msg msgs) : CfgInv pool s' := by
  refine h.congr hpool hcfgs hgen hthread ?_ fun cfg gen msg msgs heq =>
    absurd heq (hmgr cfg gen msg msgs)
  unfold Sys.announced Sys.unhandled
  rw [hcontent, hq, hahead]

omit [DecidableEq ι] in
theorem stopStep (h : CfgInv pool s) {pc : MgrPc ι} (hpc : s.mgr = pc) (hr : s.mgrCfgRule pc) :
    CfgInv pool (s.stopStep pc) := by
  have hahead : s.mgr.ahead = pc.ahead := by rw [hpc]
  cases pc with
  | stopDrain x msg msgs =>
    dsimp only [Sys.stopStep]
    split
    · exact h.mgr rfl rfl rfl rfl rfl rfl hahead.symm nofun
    · split <;> exact h.mgr rfl rfl rfl rfl rfl rfl hahead.symm nofun
  | stopPut left x msg msgs => exact h.mgr rfl rfl rfl rfl rfl rfl hahead.symm nofun
  | stopInfo x msg msgs =>
    have hmp : s.tables.nfInfoMp = false := hr
    dsimp only [Sys.stopStep]
    rw [if_pos hmp]
    exact h.mgr rfl rfl rfl rfl rfl rfl hahead.symm nofun
  | unregister x msg msgs =>
    dsimp only [Sys.stopStep]
    exact h.mgr rfl rfl rfl rfl rfl rfl hahead.symm nofun
  | _ => exact h

omit [DecidableEq ι] in
theorem sendStep (h : CfgInv pool s) {pc : MgrPc ι} (hpc : s.mgr = pc) (hr : s.mgrCfgRule pc) :
    CfgInv pool (s.sendStep pc) := by
  have hahead : s.mgr.ahead = pc.ahead := by rw [hpc]
  cases pc with
  | sendGet dest c =>
    dsimp only [Sys.sendStep]
    split <;> exact h.mgr rfl rfl rfl rfl rfl rfl hahead.symm nofun
  | sendEnqueue dest c msg =>
    have h' : CfgInv pool { s with content := Function.update s.content msg c } :=
      h.congr rfl rfl rfl rfl (by rw [announced_write_other hr]) fun _ _ _ _ => id
    dsimp only [Sys.sendStep]
    split
    · exact h'.mgr rfl rfl rfl rfl rfl rfl hahead.symm nofun
    · split
      · exact h'.mgr rfl rfl rfl rfl rfl rfl hahead.symm nofun
      · split <;> exact h'.mgr rfl rfl rfl rfl rfl rfl hahead.symm nofun
  | _ => exact h

/-- `onvm_nf_start` leaves `NF_STARTING` where it returns 0. -/
theorem status_of_started {m : Tables} {cfg : OnvmNfInitCfg}
    (h : (m.onvmNfStart cfg).2.2 = some 0) : (m.onvmNfStart cfg).2.1.status = .starting := by
  revert h
  unfold Tables.onvmNfStart
  dsimp only
  split
  · nofun
  split
  · nofun
  split
  · nofun
  split
  · nofun
  split
  · nofun
  split
  · nofun
  · split
    · nofun
    · exact fun _ => rfl

omit [DecidableEq ι] in
/-- The manager handles the configuration that it finds announced. -/
theorem handleStart (h : CfgInv pool s) {cfg : CfgObj} {gen msg : Nat} {msgs : List Nat}
    (hmgr : s.mgr = .batch (msg :: msgs)) (hmsg : s.content msg = .nfStarting cfg gen)
    {tables : Tables} {x : OnvmNfInitCfg} {pc : MgrPc ι} (hahead : pc.ahead.Sublist msgs)
    (hstarted : ∀ c g m ms, pc = .started c g m ms → c = cfg ∧ g = gen ∧ x.status = .starting) :
    CfgInv pool { s with
      tables := tables, cfgs := Function.update s.cfgs cfg x, mgr := pc } := by
  have hann : s.announced = (cfg, gen) :: (msgs ++ s.mgrQ).filterMap fun m =>
      (s.content m).announces := by
    unfold Sys.announced Sys.unhandled
    rw [hmgr]
    show List.filterMap _ (msg :: (msgs ++ s.mgrQ)) = _
    rw [List.filterMap_cons, hmsg]
    rfl
  have hrest : (pc.ahead ++ s.mgrQ).filterMap (fun m => (s.content m).announces) |>.Sublist
      ((msgs ++ s.mgrQ).filterMap fun m => (s.content m).announces) :=
    (hahead.append_right s.mgrQ).filterMap _
  have honce := h.once
  rw [hann, List.map_cons, List.nodup_cons] at honce
  obtain ⟨hgen, hwaits, v, hv⟩ := h.announced (cfg, gen) (by rw [hann]; exact List.mem_cons_self)
  have hother : ∀ c, c ≠ cfg → Function.update s.cfgs cfg x c = s.cfgs c := fun c hc =>
    Function.update_of_ne hc ..
  refine ⟨h.conserved, h.spent, fun u hu c hc => ?_, fun y hy => ?_,
    (hrest.map _).nodup honce.2, fun c g m ms heq => ?_⟩
  · have hne : c ≠ cfg := by
      rintro rfl
      obtain rfl := h.pending_unique hc hv.pending
      exact hv.not_unsent hu
    show (Function.update s.cfgs cfg x c).status = _
    rw [hother c hne]
    exact h.unsent u hu c hc
  · have hy := hrest.subset hy
    have hne : y.1 ≠ cfg := by
      intro heq
      exact honce.1 (List.mem_map.mpr ⟨y, hy, heq⟩)
    show _ ∧ (Function.update s.cfgs cfg x y.1).status = _ ∧ _
    rw [hother _ hne]
    exact h.announced y (by rw [hann]; exact List.mem_cons_of_mem _ hy)
  · obtain ⟨rfl, rfl, hstatus⟩ := hstarted c g m ms heq
    refine ⟨hgen, ?_, v, hv.pending⟩
    show (Function.update s.cfgs c x c).status = _
    rw [Function.update_self]
    exact hstatus

theorem handle (h : CfgInv pool s) {ok : Bool} {msg : Nat} {msgs : List Nat}
    (hmgr : s.mgr = .batch (msg :: msgs)) : CfgInv pool (s.handle ok msg msgs) := by
  -- The message is not ahead of the manager any more, and it announces nothing.
  have hnone : (s.content msg).announces = none → ∀ {s' : Sys ι}, s'.cfgPool = s.cfgPool →
      s'.cfgs = s.cfgs → s'.gen = s.gen → s'.thread = s.thread → s'.content = s.content →
      s'.mgrQ = s.mgrQ → s'.mgr.ahead = msgs →
      (∀ cfg gen msg msgs, s'.mgr ≠ .started cfg gen msg msgs) → CfgInv pool s' := by
    intro hmsg s' hpool hcfgs hgen hthread hcontent hq hahead hnot
    refine h.congr hpool hcfgs hgen hthread ?_ fun cfg gen msg msgs heq =>
      absurd heq (hnot cfg gen msg msgs)
    unfold Sys.announced Sys.unhandled
    rw [hmgr, hcontent, hq, hahead]
    show List.Sublist _ (List.filterMap _ (msg :: (msgs ++ s.mgrQ)))
    rw [List.filterMap_cons, hmsg]
  unfold Sys.handle
  split
  · rename_i k w hmsg
    exact hnone (by rw [hmsg]; rfl) rfl rfl rfl rfl rfl rfl rfl nofun
  · rename_i cfg gen hmsg
    refine h.handleStart hmgr hmsg ?_ ?_
    · split
      · exact List.nil_sublist msgs
      · exact List.Sublist.refl msgs
      · exact List.Sublist.refl msgs
    · split
      · nofun
      · rename_i hret
        rintro c g m ms ⟨⟩
        exact ⟨rfl, rfl, status_of_started hret⟩
      · nofun
  · rename_i i hmsg
    exact hnone (by rw [hmsg]; rfl) rfl rfl rfl rfl rfl rfl rfl nofun
  · rename_i i hmsg
    dsimp only
    split
    · exact hnone (by rw [hmsg]; rfl) rfl rfl rfl rfl rfl rfl rfl nofun
    · exact hnone (by rw [hmsg]; rfl) rfl rfl rfl rfl rfl rfl rfl nofun
  · rename_i hmsg
    exact hnone (by rw [hmsg]; rfl) rfl rfl rfl rfl rfl rfl rfl nofun
  · rename_i hmsg
    exact hnone (by rw [hmsg]; rfl) rfl rfl rfl rfl rfl rfl rfl nofun

/-- **A step of the manager** by the rules. -/
theorem mgrStep (h : CfgInv pool s) {ok : Bool} (hr : s.mgrCfgRule s.mgr) :
    CfgInv pool (s.mgrStep ok) := by
  unfold Sys.mgrStep
  split
  · exact h
  · exact h
  · rename_i n hmgr
    split
    · refine h.congr rfl rfl rfl rfl ?_ nofun
      unfold Sys.announced Sys.unhandled
      rw [hmgr]
      show (List.filterMap _ (s.mgrQ.take n ++ s.mgrQ.drop n)).Sublist _
      rw [List.take_append_drop]
      exact List.Sublist.refl _
    · exact h.mgr rfl rfl rfl rfl rfl rfl (by rw [hmgr]; rfl) nofun
  · rename_i hmgr
    exact h.mgr rfl rfl rfl rfl rfl rfl (by rw [hmgr]; rfl) nofun
  · rename_i msg msgs hmgr
    exact h.handle hmgr
  · rename_i cfg gen msg msgs hmgr
    exact h.mgr rfl rfl rfl rfl rfl rfl (by rw [hmgr]; rfl) nofun
  · rename_i msg msgs hmgr
    exact h.mgr rfl rfl rfl rfl rfl rfl (by rw [hmgr]; rfl) nofun
  · rename_i dest c hmgr
    exact h.sendStep hmgr trivial
  · rename_i dest c msg hmgr
    exact h.sendStep hmgr (hmgr ▸ hr)
  · exact h.stopStep rfl hr

theorem step (h : CfgInv pool s) {e : Event ι} (hr : s.CfgRules e) : CfgInv pool (s.step e) := by
  cases e with
  | signal w =>
    dsimp only [Sys.step]
    exact h.modify rfl (h.spent w) .inl (fun _ _ => id) fun _ _ => id
  | call w op =>
    dsimp only [Sys.step, Sys.call]
    split
    · rename_i hidle
      exact h.callOp hidle (hr hidle)
    · exact h
  | tick w => exact h.threadStep hr
  | mgrCall op =>
    dsimp only [Sys.step, Sys.mgrCall]
    split
    · rename_i hmgr
      split
      · exact h
      · exact h.mgr rfl rfl rfl rfl rfl rfl (by rw [hmgr]; rfl) nofun
    · rename_i hmgr
      exact h.mgr rfl rfl rfl rfl rfl rfl (by rw [hmgr]; rfl) nofun
    · exact h
  | mgrTick ok => exact h.mgrStep hr

omit [DecidableEq ι] in
theorem uses_own (h : CfgInv pool s) (hr : s.threadCfgRule w (s.thread w).pc) {cfg : CfgObj}
    (huse : (s.thread w).pc.putsCfg = some cfg ∨ (s.thread w).pc.reads = some cfg) :
    cfg ∈ (s.thread w).cfgs := by
  have hpc : (s.thread w).pc ≠ .idle ∧ (s.thread w).pc.cfg = some cfg := by
    generalize (s.thread w).pc = pc at hr huse
    cases pc with
    | childSlot => exact hr.elim
    | dropCfg | startWait | startTerm | startLate | startRead | startRefused | startSlot
    | startPut => exact ⟨nofun, by simpa [Pc.putsCfg, Pc.reads, Pc.cfg] using huse⟩
    | _ => simp [Pc.putsCfg, Pc.reads] at huse
  rw [Thread.cfgs_of_none (h.spent w hpc.1), hpc.2]
  exact List.mem_singleton_self cfg

omit [DecidableEq ι] in
theorem cfgsOwn (h : CfgInv pool s) {e : Event ι} (hr : s.CfgRules e) : s.CfgsOwn e := by
  cases e with
  | signal | call | mgrCall => trivial
  | tick w =>
    exact ⟨fun cfg hcfg => h.uses_own hr (.inl hcfg), fun cfg hcfg => h.uses_own hr (.inr hcfg)⟩
  | mgrTick ok =>
    have hr : s.mgrCfgRule s.mgr := hr
    constructor
    · unfold mgrPutsCfg
      split
      · rename_i hmgr
        rw [hmgr] at hr
        exact if_pos hr
      · rfl
    · intro x hx
      unfold mgrReads at hx
      split at hx
      · rename_i msg msgs hmgr
        have hmem : x ∈ s.announced := by
          refine List.mem_filterMap.mpr ⟨msg, ?_, hx⟩
          unfold unhandled
          rw [hmgr]
          exact List.mem_cons_self
        exact (h.announced x hmem).1
      · rename_i cfg gen msg msgs hmgr
        obtain rfl : (cfg, gen) = x := Option.some.inj hx
        exact (h.started cfg gen msg msgs hmgr).1
      · cases hx

end CfgInv

/-! ## Runs -/

omit [DecidableEq ι] in
theorem boot_cfgInv (numCores : NumCores) (enabled : Nat → Bool) (msgPool : List Nat)
    (hpool : pool.Nodup) :
    CfgInv pool (boot (Tables.boot numCores enabled) msgPool pool : Sys ι) := by
  refine ⟨?_, fun w hbusy => absurd rfl hbusy, fun w _ => nofun, fun x => nofun, List.nodup_nil,
    fun _ _ _ _ => nofun⟩
  refine accounted_initial (p := CfgPlace.pool) ?_ fun p hp => ?_
  · exact hpool.map fun a b hab => CfgObj.cfg.inj hab
  · cases p with
    | pool => exact absurd rfl hp
    | thread w => rfl

/-- **The discipline of the configurations.** In a run by the rules every init
configuration is in the pool or in the hand of one thread, only what was got from the
pool is put back, and neither a thread nor the manager uses one that was put back. -/
theorem init_cfgs_disciplined (numCores : NumCores) (enabled : Nat → Bool)
    (msgPool pool : List Nat) (es : List (Event ι)) (hpool : pool.Nodup)
    (hr : Along Sys.step CfgRules (boot (Tables.boot numCores enabled) msgPool pool) es) :
    CfgDiscipline pool (boot (Tables.boot numCores enabled) msgPool pool) es := by
  have hboot := boot_cfgInv (ι := ι) numCores enabled msgPool hpool
  have hstep : ∀ (s : Sys ι) e, CfgInv pool s → s.CfgRules e → CfgInv pool (s.step e) :=
    fun s e h hr => h.step hr
  exact ⟨(Along.inv hstep hboot hr).conserved,
    Along.of_inv hstep (fun s e h hr => h.cfgsOwn hr) hboot hr⟩

/-- One core, two message objects and one configuration. -/
def oneCfg : Sys Unit := boot Tables.bootSingle [7, 8] [0]

/-- An NF starts, and puts its configuration back. -/
def startNfRun : List (Event Unit) :=
  [.call () (.initCfg { serviceId := 1 }), .call () .startNf, .tick (), .tick (), .tick (),
    .mgrCall .checkStatus, .mgrTick true, .mgrTick true, .mgrTick true, .mgrTick true,
    .tick (), .tick (), .tick (), .tick (), .tick ()]

theorem init_cfgs_disciplined_startNf : CfgDiscipline [0] oneCfg startNfRun :=
  init_cfgs_disciplined ⟨1, by decide⟩ (fun _ => true) [7, 8] [0] startNfRun (by decide)
    (by decide +kernel)

/-- The NF stops, and the manager puts its slot into the pool of configurations. -/
def stopNfRun : List (Event Unit) :=
  startNfRun ++ [.mgrTick true, .call () .stop, .tick (), .tick (), .mgrCall .checkStatus,
    .mgrTick true, .mgrTick true, .mgrTick true, .mgrTick true]

theorem stop_puts_slot : ¬ CfgDiscipline [0] oneCfg stopNfRun := by
  rintro ⟨⟨-, hnone⟩, -⟩
  have hslot := hnone (.slot 1) (by decide) .pool
  exact hslot (by decide +kernel)

end Sys

end Onvm.Msg

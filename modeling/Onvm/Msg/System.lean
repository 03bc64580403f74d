import Onvm.Lib.Run
import Onvm.Mgr.Nf

/-!
# NFs and manager

The threads of the NFs and the manager as parties that exchange messages: the
functions of `onvm_nflib.c` that send and receive them, and `onvm_nf_check_status`
and `onvm_nf_send_msg` of the manager. A party is at a program counter and takes
one step on the shared memory at a time: the two pools, the message queue of the
manager, the rings of the NFs, the init configurations, the requests and the
tables. Message objects are numbers, and `content` is their memory.
-/

namespace Onvm.Msg

open Onvm.Lib Onvm.Nflib Onvm.Mgr

/-- What the message ring of an NF (`NF_MSG_QUEUE_SIZE`) and that of the manager
(`MAX_NFS`) hold. -/
def msgRingCapacity : Nat := 128 - 1

def nfWaitingForLpm : Int := 13

def nfWaitingForFt : Int := 14

def nfTermInitIterTimes : Nat := 3

/-! What `rte_mempool_get` and `rte_ring_enqueue` return when they fail. -/

def eNoent : Int := -2

def eNobufs : Int := -105

/-- An object that is put into the `NF_INFO` pool: an init configuration of the
pool, or a slot of `nfs`. -/
inductive CfgObj where
  | cfg (n : Nat)
  | slot (i : Nat)
  deriving DecidableEq, Repr

/-- `onvm_nflib_request_lpm` or `onvm_nflib_request_ft`, the latter with what its
uninitialised `request_message` points to. -/
inductive ReqKind where
  | lpm
  | ft (junk : Nat)
  deriving DecidableEq, Repr

def ReqKind.waiting : ReqKind → Int
  | lpm => nfWaitingForLpm
  | ft _ => nfWaitingForFt

/-- `msg_type` and `msg_data`. A request is that of the thread which sent it. With
a configuration goes how often it had been put back when the message was sent,
which no function reads. -/
inductive Content (ι : Type) where
  | request (k : ReqKind) (w : ι)
  | nfStarting (cfg : CfgObj) (gen : Nat)
  | nfReady (i : Nat)
  | nfStopping (i : Nat)
  | stop
  | other

/-! ## Program counters -/

/-- What a thread of an NF sends, and in which function: `request_lpm` and
`request_ft`, `start_nf` (for a child, with the slot of its parent), `nf_ready`,
`cleanup` and `send_msg_to_nf`. -/
inductive SendOp where
  | request (k : ReqKind)
  | start (cfg : CfgObj) (child : Option Nat)
  | ready (i : Nat)
  | stopping (i : Nat)
  | toNf (dest : Nat)
  deriving DecidableEq, Repr

inductive Pc where
  | idle
  /-- After `rte_exit` or a fault, with the message it had. -/
  | dead (msg : Option Nat)
  /-- At `rte_mempool_get`. -/
  | get (op : SendOp)
  /-- `request_ft` could not get a message and puts it back. -/
  | putJunk (junk : Nat)
  | enqueue (op : SendOp) (msg : Nat)
  /-- The ring was full. -/
  | giveBack (op : SendOp) (msg : Nat)
  /-- At the write of `NF_WAITING_FOR_LPM` or `NF_WAITING_FOR_FT`. -/
  | mark (k : ReqKind) (msg : Nat)
  | poll (k : ReqKind) (msg : Nat)
  /-- After the loop. -/
  | putRequest (k : ReqKind) (msg : Nat)
  | startCheck (cfg : CfgObj) (child : Option Nat)
  /-- `start_nf` gives up before the manager has the message. -/
  | dropCfg (cfg : CfgObj) (msg : Option Nat)
  | startWait (cfg : CfgObj) (child : Option Nat)
  | startKeep (cfg : CfgObj) (child : Option Nat)
  | startTerm (cfg : CfgObj) (child : Option Nat) (i : Nat)
  | startLate (cfg : CfgObj) (child : Option Nat)
  | startRead (cfg : CfgObj) (child : Option Nat)
  | startRefused (cfg : CfgObj) (child : Option Nat)
  | startSlot (cfg : CfgObj) (child : Option Nat)
  | startPut (cfg : CfgObj) (child : Option Nat) (i : Nat)
  | startInit (cfg : CfgObj) (child : Option Nat) (i : Nat)
  /-- `start_child` after `start_nf`. -/
  | childSlot (cfg : CfgObj) (parent : Nat)
  | readyWait (i : Nat)
  | deqCount (i : Nat)
  | deqTake (q : RingName)
  | deqHandle (msg : Nat)
  | deqPut (msg : Nat)
  deriving DecidableEq, Repr

/-- A thread and its `onvm_nf_local_ctx`. `cfg` is the configuration it has got
and not yet passed to `start_nf`, `ret` what its last request returned. -/
structure Thread where
  pc : Pc := .idle
  nf : Option Nat := none
  keepRunning : Bool := true
  nfInitFinished : Bool := false
  nfStopped : Bool := false
  cfg : Option CfgObj := none
  ret : Option Int := none
  deriving DecidableEq, Repr

structure Stop where
  slot : Nat
  nfId : Nat
  serviceId : Nat
  status : NfStatus
  deriving DecidableEq, Repr

/-- Where the manager is. In the loop of `onvm_nf_check_status` it has the message
that it handles and those that are left of `msgs`. -/
inductive MgrPc (ι : Type) where
  | idle
  /-- After `rte_exit` or a fault, with the messages it had. -/
  | dead (msgs : List Nat)
  | dequeue (n : Nat)
  | batch (msgs : List Nat)
  | started (cfg : CfgObj) (gen : Nat) (msg : Nat) (msgs : List Nat)
  | stopDrain (x : Stop) (msg : Nat) (msgs : List Nat)
  | stopPut (left : Nat) (x : Stop) (msg : Nat) (msgs : List Nat)
  | stopInfo (x : Stop) (msg : Nat) (msgs : List Nat)
  | unregister (x : Stop) (msg : Nat) (msgs : List Nat)
  | put (msg : Nat) (msgs : List Nat)
  | sendGet (dest : Nat) (c : Content ι)
  | sendEnqueue (dest : Nat) (c : Content ι) (msg : Nat)

/-! ## The state -/

/-- `answer` and `gen` are history variables: the result the manager wrote for the
current request of a thread, and how often an object has been put into the pool of
configurations. -/
structure Sys (ι : Type) where
  tables : Tables
  msgPool : List Nat
  mgrQ : List Nat
  content : Nat → Content ι
  cfgPool : List CfgObj
  cfgs : CfgObj → OnvmNfInitCfg
  gen : CfgObj → Nat
  req : ι → Int
  answer : ι → Option Int
  thread : ι → Thread
  mgr : MgrPc ι

namespace SendOp

variable {ι : Type}

def content (w : ι) (gen : CfgObj → Nat) : SendOp → Content ι
  | request k => .request k w
  | start cfg _ => .nfStarting cfg (gen cfg)
  | ready i => .nfReady i
  | stopping i => .nfStopping i
  | toNf _ => .other

/-- Where a thread goes on when the pool is empty. -/
def getFailed : SendOp → Pc
  | request .lpm | ready _ | toNf _ => .idle
  | request (.ft junk) => .putJunk junk
  | start cfg _ => .dropCfg cfg none
  | stopping _ => .dead none

def sent (msg : Nat) : SendOp → Pc
  | request k => .mark k msg
  | start cfg child => .startWait cfg child
  | ready i => .readyWait i
  | stopping _ | toNf _ => .idle

def full (msg : Nat) : SendOp → Pc
  | start cfg _ => .dropCfg cfg (some msg)
  | op => .giveBack op msg

def gaveBack : SendOp → Pc
  | request _ | ready _ | toNf _ => .idle
  | start .. | stopping _ => .dead none

/-- What a request returns on an error; nothing is kept of the other functions. -/
def fails (op : SendOp) (err : Int) (ret : Option Int) : Option Int :=
  match op with
  | request _ => some err
  | start .. | ready _ | stopping _ | toNf _ => ret

end SendOp

namespace Sys

variable {ι : Type} [DecidableEq ι]

def modify (s : Sys ι) (w : ι) (f : Thread → Thread) : Sys ι :=
  { s with thread := Function.update s.thread w (f (s.thread w)) }

def goto (s : Sys ι) (w : ι) (pc : Pc) : Sys ι := s.modify w fun t => { t with pc := pc }

def putMsg (s : Sys ι) (msg : Nat) : Sys ι := { s with msgPool := s.msgPool ++ [msg] }

/-- `rte_mempool_put` of an init configuration. -/
def putCfg (s : Sys ι) (cfg : CfgObj) : Sys ι :=
  { s with
    cfgPool := s.cfgPool ++ [cfg]
    gen := Function.update s.gen cfg (s.gen cfg + 1) }

def setRing (s : Sys ι) (name : RingName) (queued : List Nat) : Sys ι :=
  { s with tables := s.tables.setQueued name queued }

/-! ## The threads of the NFs -/

/-- `onvm_nflib_stop` and the first part of `onvm_nflib_cleanup`. -/
def stop (s : Sys ι) (w : ι) : Sys ι :=
  let t := s.thread w
  match t.nf with
  | none => s.goto w .idle
  | some i =>
    if t.nfStopped then s.goto w .idle
    else s.modify w fun t => { t with
      nfStopped := true
      pc := if t.nfInitFinished then .get (.stopping i) else .idle }

/-- `onvm_nflib_start_nf` returns a negative value: to `onvm_nflib_init`, or to
`onvm_nflib_start_child`, which stops. -/
def startFailed (s : Sys ι) (w : ι) (child : Option Nat) : Sys ι :=
  match child with
  | none => s.goto w .idle
  | some _ => s.stop w

def getMsg (s : Sys ι) (w : ι) (op : SendOp) : Sys ι :=
  match s.msgPool with
  | [] => s.modify w fun t => { t with pc := op.getFailed, ret := op.fails eNoent t.ret }
  | msg :: msgs => { s with msgPool := msgs }.goto w (.enqueue op msg)

/-- The ring of an NF: NULL faults, and what is written to a ring that was freed
is lost. -/
def enqueueNfMsg (s : Sys ι) (w : ι) (op : SendOp) (msg : Nat) (q : Option RingName) : Sys ι :=
  match q with
  | none => s.goto w (.dead (some msg))
  | some name =>
    match s.tables.rings name with
    | none => s.goto w .idle
    | some queued =>
      if queued.length < msgRingCapacity then (s.setRing name (queued ++ [msg])).goto w .idle
      else s.goto w (.giveBack op msg)

/-- After `cleanup` has sent its message the context is freed. -/
def enqueueMgrMsg (s : Sys ι) (w : ι) (op : SendOp) (msg : Nat) : Sys ι :=
  if s.mgrQ.length < msgRingCapacity then
    { s with mgrQ := s.mgrQ ++ [msg] }.modify w fun t => { t with
      pc := op.sent msg
      nf := match op with
        | .stopping _ => none
        | .request _ | .start .. | .ready _ | .toNf _ => t.nf }
  else s.goto w (op.full msg)

def enqueueMsg (s : Sys ι) (w : ι) (op : SendOp) (msg : Nat) : Sys ι :=
  let s := { s with content := Function.update s.content msg (op.content w s.gen) }
  match op with
  | .toNf dest =>
    let i := onvmScServiceToNfMap s.tables.nfPerServiceCount s.tables.services dest none
    s.enqueueNfMsg w op msg (s.tables.nfs i).msgQ
  | .request _ | .start .. | .ready _ | .stopping _ => s.enqueueMgrMsg w op msg

/-- `onvm_nflib_start_nf` from the wait loop on, and the rest of
`onvm_nflib_start_child`. -/
def startStep (s : Sys ι) (w : ι) : Pc → Sys ι
  | .startCheck cfg child =>
    if (s.thread w).keepRunning then s.goto w (.get (.start cfg child)) else s.startFailed w child
  | .dropCfg cfg msg =>
    (s.putCfg cfg).goto w (match msg with
      | none => .dead none
      | some msg => .giveBack (.start cfg none) msg)
  | .startWait cfg child =>
    s.goto w (if (s.cfgs cfg).status = .waitingForId then .startKeep cfg child
      else .startRead cfg child)
  | .startKeep cfg child =>
    s.goto w (if (s.thread w).keepRunning then .startWait cfg child else .startTerm cfg child 0)
  | .startTerm cfg child i =>
    s.goto w (if i < nfTermInitIterTimes ∧ (s.cfgs cfg).status ≠ .starting then
      .startTerm cfg child (i + 1) else .startLate cfg child)
  | .startLate cfg child =>
    if (s.cfgs cfg).status = .starting then
      (s.modify w fun t => { t with
        nf := some (s.cfgs cfg).instanceId, nfInitFinished := true }).startFailed w child
    else s.startFailed w child
  | .startRead cfg child =>
    s.goto w (if (s.cfgs cfg).status = .starting then .startSlot cfg child
      else .startRefused cfg child)
  | .startRefused cfg child => (s.putCfg cfg).startFailed w child
  | .startSlot cfg child =>
    let i := (s.cfgs cfg).instanceId
    s.modify w fun t => { t with
      nf := if t.nfInitFinished then t.nf else some i
      nfInitFinished := true
      pc := .startPut cfg child i }
  | .startPut cfg child i => (s.putCfg cfg).goto w (.startInit cfg child i)
  | .startInit cfg child i =>
    { s with tables := s.tables.setFamily i 0 0 }.goto w (match child with
      | none => .idle
      | some parent => .childSlot cfg parent)
  | .childSlot cfg parent =>
    let i := (s.cfgs cfg).instanceId
    let parentId := (s.tables.nfs parent).instanceId
    let tables := s.tables.setFamily i parentId (s.tables.nfs i).childrenCnt
    { s with tables := tables }.modify w fun t => { t with nf := some i, pc := .idle }
  | _ => s

/-- `onvm_nflib_dequeue_messages`. A NULL message faults. -/
def dequeueStep (s : Sys ι) (w : ι) : Pc → Sys ι
  | .deqCount i =>
    match (s.tables.nfs i).msgQ with
    | none => s.goto w (.dead none)
    | some q =>
      match s.tables.rings q with
      | none | some [] => s.goto w .idle
      | some (_ :: _) => s.goto w (.deqTake q)
  | .deqTake q =>
    match s.tables.rings q with
    | none | some [] => s.goto w (.dead none)
    | some (msg :: msgs) => (s.setRing q msgs).goto w (.deqHandle msg)
  | .deqHandle msg =>
    s.modify w fun t => { t with
      keepRunning := match s.content msg with
        | .stop => false
        | .request .. | .nfStarting .. | .nfReady _ | .nfStopping _ | .other => t.keepRunning
      pc := .deqPut msg }
  | .deqPut msg => (s.putMsg msg).goto w .idle
  | _ => s

def threadStep (s : Sys ι) (w : ι) : Sys ι :=
  match (s.thread w).pc with
  | .idle | .dead _ => s
  | .get op => s.getMsg w op
  | .putJunk junk => (s.putMsg junk).goto w .idle
  | .enqueue op msg => s.enqueueMsg w op msg
  | .giveBack op msg =>
    (s.putMsg msg).modify w fun t => { t with pc := op.gaveBack, ret := op.fails eNobufs t.ret }
  | .mark k msg => { s with req := Function.update s.req w k.waiting }.goto w (.poll k msg)
  | .poll k msg => if s.req w = k.waiting then s else s.goto w (.putRequest k msg)
  | .putRequest _ msg =>
    (s.putMsg msg).modify w fun t => { t with pc := .idle, ret := some (s.req w) }
  | .readyWait i => if (s.tables.nfs i).status = .running then s.goto w .idle else s
  | .deqCount i => s.dequeueStep w (.deqCount i)
  | .deqTake q => s.dequeueStep w (.deqTake q)
  | .deqHandle msg => s.dequeueStep w (.deqHandle msg)
  | .deqPut msg => s.dequeueStep w (.deqPut msg)
  | pc => s.startStep w pc

/-- What an idle thread can call. `initCfg` gets a configuration and fills it in;
`badArgs` is the exit of `onvm_nflib_init` for arguments that cannot be parsed. -/
inductive Op where
  | requestLpm
  | requestFt (junk : Nat)
  | initCfg (cfg : OnvmNfInitCfg)
  | badArgs
  | startNf
  | startChild (parent : Nat)
  | nfReady
  | stop
  | sendMsgToNf (dest : Nat)
  | dequeueMessages
  deriving DecidableEq, Repr

/-- A request is new, so the manager has not answered it. -/
def callRequest (s : Sys ι) (w : ι) (k : ReqKind) : Sys ι :=
  { s with answer := Function.update s.answer w none }.goto w (.get (.request k))

/-- `onvm_nflib_init_nf_init_cfg`, and what the caller enters in the
configuration. -/
def getCfg (s : Sys ι) (w : ι) (cfg : OnvmNfInitCfg) : Sys ι :=
  match s.cfgPool with
  | [] => s.goto w (.dead none)
  | c :: cfgs =>
    { s with
      cfgPool := cfgs
      cfgs := Function.update s.cfgs c { cfg with status := .waitingForId } }.modify w fun t =>
        { t with cfg := some c }

def startNf (s : Sys ι) (w : ι) (child : Option Nat) : Sys ι :=
  match (s.thread w).cfg with
  | none => s
  | some c => s.modify w fun t => { t with cfg := none, pc := .startCheck c child }

/-- An idle thread calls a function; a thread that has got a configuration
starts with it or exits. -/
def callOp (s : Sys ι) (w : ι) : Op → Sys ι
  | .requestLpm => s.callRequest w .lpm
  | .requestFt junk => s.callRequest w (.ft junk)
  | .initCfg cfg =>
    match (s.thread w).cfg with
    | none => s.getCfg w cfg
    | some _ => s
  | .badArgs => s.modify w fun t => { t with cfg := none, pc := .dead none }
  | .startNf => s.startNf w none
  | .startChild parent => s.startNf w (some parent)
  | .nfReady =>
    match (s.thread w).nf with
    | none => s
    | some i => s.goto w (.get (.ready i))
  | .stop => s.stop w
  | .sendMsgToNf dest => s.goto w (.get (.toNf dest))
  | .dequeueMessages =>
    match (s.thread w).nf with
    | none => s
    | some i => s.goto w (.deqCount i)

def call (s : Sys ι) (w : ι) (op : Op) : Sys ι :=
  match (s.thread w).pc with
  | .idle => s.callOp w op
  | _ => s

/-! ## The manager -/

omit [DecidableEq ι] in
def mgrGoto (s : Sys ι) (pc : MgrPc ι) : Sys ι := { s with mgr := pc }

/-- `onvm_nf_init_lpm_region` or `onvm_nf_init_ft`: `ok` says whether the region or
the table could be created. -/
def answerRequest (s : Sys ι) (w : ι) (ok : Bool) : Sys ι :=
  let status : Int := if ok then 0 else -1
  { s with
    req := Function.update s.req w status
    answer := Function.update s.answer w (some status) }

/-- The NF leaves its slot, its parent and its core, and the packets on its rings
are freed. -/
def vacate (m : Tables) (i nfId : Nat) : Tables :=
  let m := ((m.setStatus i .stopped).setStatus nfId .stopped).tellParent nfId
  let m := m.leaveCore (m.nfs i).core
  { m with rings := Tables.drain (Tables.drain m.rings (m.nfs nfId).rxQ) (m.nfs nfId).txQ }

/-- The head of the loop in `onvm_nf_check_status`. -/
def handle (s : Sys ι) (ok : Bool) (msg : Nat) (msgs : List Nat) : Sys ι :=
  match s.content msg with
  | .request _ w => (s.answerRequest w ok).mgrGoto (.put msg msgs)
  | .nfStarting cfg gen =>
    let (tables, init, ret) := s.tables.onvmNfStart (s.cfgs cfg)
    { s with
      tables := tables
      cfgs := Function.update s.cfgs cfg init
      mgr := match ret with
        | none => .dead (msg :: msgs)
        | some 0 => .started cfg gen msg msgs
        | some _ => .put msg msgs }
  | .nfReady i => { s with tables := (s.tables.onvmNfReady i).1, mgr := .put msg msgs }
  | .nfStopping i =>
    let nf := s.tables.nfs i
    let tables := s.tables.freeTag i
    if nf.status ≠ .starting ∧ nf.status ≠ .running ∧ nf.status ≠ .paused then
      { s with tables := tables, mgr := .put msg msgs }
    else
      { s with
        tables := vacate tables i nf.instanceId
        mgr := .stopDrain ⟨i, nf.instanceId, nf.serviceId, nf.status⟩ msg msgs }
  | .stop | .other => s.mgrGoto (.put msg msgs)

def stopStep (s : Sys ι) : MgrPc ι → Sys ι
  | .stopDrain x msg msgs =>
    match (s.tables.nfs x.nfId).msgQ with
    | none => s.mgrGoto (.stopInfo x msg msgs)
    | some q =>
      match s.tables.rings q with
      | none | some [] => s.mgrGoto (.stopInfo x msg msgs)
      | some (left :: queued) => (s.setRing q queued).mgrGoto (.stopPut left x msg msgs)
  | .stopPut left x msg msgs => (s.putMsg left).mgrGoto (.stopDrain x msg msgs)
  | .stopInfo x msg msgs =>
    if s.tables.nfInfoMp = false then s.mgrGoto (.put msg msgs)
    else
      (s.putCfg (.slot x.slot)).mgrGoto
        (if x.status ≠ .running ∧ x.status ≠ .paused then .put msg msgs
          else .unregister x msg msgs)
  | .unregister x msg msgs =>
    { s with tables := s.tables.unregister x.nfId x.serviceId, mgr := .put msg msgs }
  | _ => s

/-- `onvm_nf_send_msg`. A message that the ring does not take is not put back. -/
def sendStep (s : Sys ι) : MgrPc ι → Sys ι
  | .sendGet dest c =>
    match s.msgPool with
    | [] => s.mgrGoto .idle
    | msg :: msgs => { s with msgPool := msgs, mgr := .sendEnqueue dest c msg }
  | .sendEnqueue dest c msg =>
    let s := { s with content := Function.update s.content msg c }
    match (s.tables.nfs dest).msgQ with
    | none => s.mgrGoto (.dead [msg])
    | some q =>
      match s.tables.rings q with
      | none => s.mgrGoto .idle
      | some queued =>
        if queued.length < msgRingCapacity then (s.setRing q (queued ++ [msg])).mgrGoto .idle
        else s.mgrGoto .idle
  | _ => s

def mgrStep (s : Sys ι) (ok : Bool) : Sys ι :=
  match s.mgr with
  | .idle | .dead _ => s
  | .dequeue n =>
    if n ≤ s.mgrQ.length then { s with mgrQ := s.mgrQ.drop n, mgr := .batch (s.mgrQ.take n) }
    else s.mgrGoto .idle
  | .batch [] => s.mgrGoto .idle
  | .batch (msg :: msgs) => s.handle ok msg msgs
  -- The stats event for `nfs[nf_init_cfg->instance_id]`.
  | .started _ _ msg msgs => s.mgrGoto (.put msg msgs)
  | .put msg msgs => (s.putMsg msg).mgrGoto (.batch msgs)
  | .sendGet dest c => s.sendStep (.sendGet dest c)
  | .sendEnqueue dest c msg => s.sendStep (.sendEnqueue dest c msg)
  | pc => s.stopStep pc

/-- `onvm_nf_check_status` up to the bulk dequeue, or `onvm_nf_send_msg`. -/
inductive MgrOp (ι : Type) where
  | checkStatus
  | sendMsg (dest : Nat) (c : Content ι)

def mgrCall (s : Sys ι) (op : MgrOp ι) : Sys ι :=
  match s.mgr, op with
  | .idle, .checkStatus =>
    if s.mgrQ.length = 0 then s else s.mgrGoto (.dequeue s.mgrQ.length)
  | .idle, .sendMsg dest c => s.mgrGoto (.sendGet dest c)
  | _, _ => s

/-! ## Runs -/

/-- A signal arrives, a thread or the manager calls a function, or takes its next
step. -/
inductive Event (ι : Type) where
  | signal (w : ι)
  | call (w : ι) (op : Op)
  | tick (w : ι)
  | mgrCall (op : MgrOp ι)
  | mgrTick (ok : Bool)

def step (s : Sys ι) : Event ι → Sys ι
  | .signal w => s.modify w fun t => { t with keepRunning := false }
  | .call w op => s.call w op
  | .tick w => s.threadStep w
  | .mgrCall op => s.mgrCall op
  | .mgrTick ok => s.mgrStep ok

omit [DecidableEq ι] in
/-- The manager is up, no NF has started, and the pools have these objects. -/
def boot (tables : Tables) (msgPool : List Nat) (cfgs : List Nat) : Sys ι where
  tables := tables
  msgPool := msgPool
  mgrQ := []
  content _ := .other
  cfgPool := cfgs.map .cfg
  cfgs _ := { serviceId := 0 }
  gen _ := 0
  req _ := 0
  answer _ := none
  thread _ := {}
  mgr := .idle

end Sys

end Onvm.Msg

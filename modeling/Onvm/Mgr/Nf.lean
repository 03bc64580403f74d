import Onvm.Lib.Packed
import Onvm.Lib.Run
import Onvm.Nflib.Threading

/-!
# Starting, readying and stopping NFs

`onvm_nf.c` of the manager: the message loop of `onvm_nf_check_status` with
`onvm_nf_start`, `onvm_nf_ready` and `onvm_nf_stop`, on the tables the manager
shares with the NFs. A message names an NF by its slot in `nfs`. The rings are
DPDK's, found by name; a pointer to a ring is the name it was created under.
`rte_exit` ends the manager and is entered in the state.
-/

namespace Onvm.Mgr

open Onvm.Lib Onvm.Nflib

/-- The `rte_exit` calls of `onvm_nf_init_rings`, by the ring that could not be
created. -/
structure RteExit where
  kind : RingKind
  instanceId : Nat
  deriving DecidableEq, Repr

structure Tables where
  nfs : Nat → OnvmNf
  numNfs : Nat
  nextInstanceId : Nat
  nfPerServiceCount : Nat → Nat
  services : Nat → Nat → Nat
  cores : Nat → CoreStatus
  numCores : NumCores
  /-- The rings that exist, with what is queued on them. -/
  rings : RingName → Option (List Nat)
  /-- Whether `rte_mempool_lookup(_NF_MEMPOOL_NAME)` finds the pool. -/
  nfInfoMp : Bool
  /-- Set when the manager has exited. -/
  exit : Option RteExit

def startingInstanceId : Nat := 1

/-- The manager after `init`: all tables zero, the pool created, some cores
enabled by the core mask. -/
def Tables.boot (numCores : NumCores) (enabled : Nat → Bool) : Tables where
  nfs _ := {}
  numNfs := 0
  nextInstanceId := startingInstanceId
  nfPerServiceCount _ := 0
  services _ _ := 0
  cores c := { enabled := enabled c }
  numCores := numCores
  rings _ := none
  nfInfoMp := true
  exit := none

/-- A manager on a machine with one core. -/
def Tables.bootSingle : Tables := boot ⟨1, NumCores.one_le⟩ fun _ => true

namespace Tables

def setNf (m : Tables) (i : Nat) (nf : OnvmNf) : Tables :=
  { m with nfs := Function.update m.nfs i nf }

/-! ## Instance IDs -/

/-- One pass of the search: at most `k` IDs from `next` on. Returns the ID
found and where `next_instance_id` is left. -/
def searchId (nfs : Nat → OnvmNf) : Nat → Nat → Option Nat × Nat
  | 0, next => (none, next)
  | k + 1, next =>
    if next < maxNfs then
      if onvmNfIsValid (nfs next) then searchId nfs k (next + 1) else (some next, next + 1)
    else (none, next)

def onvmNfNextInstanceId (m : Tables) : Nat × Nat :=
  if maxNfs ≤ m.numNfs then (maxNfs, m.nextInstanceId)
  else
    match searchId m.nfs maxNfs m.nextInstanceId with
    | (some id, next) => (id, next)
    | (none, _) =>
      match searchId m.nfs maxNfs startingInstanceId with
      | (some id, next) => (id, next)
      | (none, next) => (maxNfs, next)

/-! ## Rings -/

/-- `rte_ring_create`: NULL when the name is taken. -/
def rteRingCreate (rings : RingName → Option (List Nat)) (name : RingName) :
    Option (RingName → Option (List Nat)) :=
  if (rings name).isSome then none else some (Function.update rings name (some []))

def rteRingFree (rings : RingName → Option (List Nat)) (q : Option RingName) :
    RingName → Option (List Nat) :=
  fun name => if q = some name then none else rings name

def drain (rings : RingName → Option (List Nat)) (q : Option RingName) :
    RingName → Option (List Nat) :=
  fun name => if q = some name then (rings name).map fun _ => [] else rings name

def setQ (nf : OnvmNf) (k : RingKind) (q : Option RingName) : OnvmNf :=
  match k with
  | .rx => { nf with rxQ := q }
  | .tx => { nf with txQ := q }
  | .msg => { nf with msgQ := q }

/-- Create one ring of slot `i` under the name of its instance ID, or exit. -/
def createRing (m : Tables) (i : Nat) (k : RingKind) : Tables :=
  match m.exit with
  | some _ => m
  | none =>
    let instanceId := (m.nfs i).instanceId
    match rteRingCreate m.rings ⟨k, instanceId⟩ with
    | none => { m.setNf i (setQ (m.nfs i) k none) with exit := some ⟨k, instanceId⟩ }
    | some rings =>
      { m.setNf i (setQ (m.nfs i) k (some ⟨k, instanceId⟩)) with rings := rings }

def onvmNfInitRings (m : Tables) (i : Nat) : Tables :=
  ((m.createRing i .rx).createRing i .tx).createRing i .msg

def onvmNfClearRings (m : Tables) (i : Nat) : Tables :=
  let nf := m.nfs i
  { m with rings := rteRingFree (rteRingFree (rteRingFree m.rings nf.rxQ) nf.txQ) nf.msgQ }

/-! ## Starting -/

def filled (nf : OnvmNf) (cfg : OnvmNfInitCfg) : OnvmNf :=
  { nf with
    instanceId := cfg.instanceId
    serviceId := cfg.serviceId
    status := .starting
    tag := cfg.tag
    core := cfg.core
    timeToLive := cfg.timeToLive
    pktLimit := cfg.pktLimit }

/-- The ID a request is for and the new `next_instance_id`: the NF's own choice,
or else the manager's. -/
def chooseId (m : Tables) (cfg : OnvmNfInitCfg) : Nat × Nat :=
  if cfg.instanceId = nfNoId then m.onvmNfNextInstanceId else (cfg.instanceId, m.nextInstanceId)

/-- The core for a request. `init_options` is passed as a `uint8_t`. -/
def coreFor (m : Tables) (cfg : OnvmNfInitCfg) : CoreResult :=
  onvmThreadingGetCore cfg.core (cfg.initOptions % 2 ^ 8) m.numCores.val m.cores

/-- The tables, the configuration as the NF reads it back and the return value,
which is missing when the manager exits. -/
def onvmNfStart (m : Tables) (cfg : OnvmNfInitCfg) : Tables × OnvmNfInitCfg × Option Int :=
  if cfg.status ≠ .waitingForId then (m, cfg, some 1)
  else
    let nfId := (m.chooseId cfg).1
    let m := { m with nextInstanceId := (m.chooseId cfg).2 }
    if maxNfs ≤ nfId then (m, { cfg with status := .noIds }, some 1)
    else if maxServices ≤ cfg.serviceId then (m, { cfg with status := .serviceMax }, some 1)
    else if maxNfsPerService ≤ m.nfPerServiceCount cfg.serviceId then
      (m, { cfg with status := .serviceCountMax }, some 1)
    else if onvmNfIsValid (m.nfs nfId) then (m, { cfg with status := .idConflict }, some 1)
    else
      let r := m.coreFor cfg
      let m := { m with cores := r.cores }
      let cfg := { cfg with instanceId := nfId, core := r.core }
      match r.ret with
      | some err => (m, { cfg with status := err }, some 1)
      | none =>
        let m := (m.setNf nfId (filled (m.nfs nfId) cfg)).onvmNfInitRings nfId
        match m.exit with
        | some _ => (m, cfg, none)
        | none => (m, { cfg with status := .starting }, some 0)

/-! ## Ready -/

/-- The index of `services[service_id]` that `onvm_nf_ready` writes, if it
writes. -/
def readyIndex (m : Tables) (i : Nat) : Option Nat :=
  if (m.nfs i).status = .starting then some (m.nfPerServiceCount (m.nfs i).serviceId) else none

def onvmNfReady (m : Tables) (i : Nat) : Tables × Int :=
  match m.readyIndex i with
  | none => (m, -1)
  | some serviceCount =>
    let nf := m.nfs i
    let s := nf.serviceId
    ({ m.setNf i { nf with status := .running } with
        nfPerServiceCount := Function.update m.nfPerServiceCount s (inc16 serviceCount)
        services := Function.update m.services s
          (Function.update (m.services s) serviceCount nf.instanceId)
        numNfs := inc16 m.numNfs }, 0)

/-! ## Stopping -/

def setStatus (m : Tables) (i : Nat) (status : NfStatus) : Tables :=
  m.setNf i { m.nfs i with status := status }

def tellParent (m : Tables) (nfId : Nat) : Tables :=
  let parent := (m.nfs nfId).parent
  if parent ≠ 0 then
    m.setNf parent { m.nfs parent with childrenCnt := dec16 (m.nfs parent).childrenCnt }
  else m

def leaveCore (m : Tables) (core : Nat) : Tables :=
  { m with cores := Function.update m.cores core (m.cores core).freed }

def drainRings (m : Tables) (nfId : Nat) : Tables :=
  let nf := m.nfs nfId
  { m with rings := drain (drain (drain m.rings nf.rxQ) nf.txQ) nf.msgQ }

def release (m : Tables) (i : Nat) : Tables :=
  let nfId := (m.nfs i).instanceId
  let m := ((m.setStatus i .stopped).setStatus nfId .stopped).tellParent nfId
  (m.leaveCore (m.nfs i).core).drainRings nfId

def freeTag (m : Tables) (i : Nat) : Tables := m.setNf i { m.nfs i with tag := none }

/-- An NF that ran leaves the counters, its rings and the service table. -/
def unregister (m : Tables) (nfId serviceId : Nat) : Tables :=
  { m.onvmNfClearRings nfId with
    numNfs := dec16 m.numNfs
    nfPerServiceCount := Function.update m.nfPerServiceCount serviceId
      (dec16 (m.nfPerServiceCount serviceId))
    services := Function.update m.services serviceId
      (removeShift maxNfsPerService nfId (m.services serviceId)) }

def onvmNfStop (m : Tables) (i : Nat) : Tables × Int :=
  let nfId := (m.nfs i).instanceId
  let serviceId := (m.nfs i).serviceId
  let nfStatus := (m.nfs i).status
  let m := m.freeTag i
  if nfStatus ≠ .starting ∧ nfStatus ≠ .running ∧ nfStatus ≠ .paused then (m, 1)
  else
    let m := m.release i
    if m.nfInfoMp = false then (m, 1)
    else if nfStatus ≠ .running ∧ nfStatus ≠ .paused then (m, 0)
    else (m.unregister nfId serviceId, 0)

/-! ## The message loop -/

/-- A message on `incoming_msg_queue`, with NULL as `none`. The LPM and
flow-table requests answer in the request itself; other types are dropped. -/
inductive Msg where
  | requestLpmRegion
  | requestFt
  | nfStarting (cfg : Option OnvmNfInitCfg)
  | nfReady (i : Nat)
  | nfStopping (i : Option Nat)
  | other
  deriving DecidableEq, Repr

def onMsg (m : Tables) : Msg → Tables
  | .nfStarting (some cfg) => (m.onvmNfStart cfg).1
  | .nfReady i => (m.onvmNfReady i).1
  | .nfStopping (some i) => (m.onvmNfStop i).1
  | .nfStarting none | .nfStopping none | .requestLpmRegion | .requestFt | .other => m

/-- What can happen to the tables: the manager handles a message, the NF library
writes the family fields of a slot, or packets and messages come and go on a
ring. -/
inductive Event where
  | msg (msg : Msg)
  | family (i parent childrenCnt : Nat)
  | traffic (name : RingName) (queued : List Nat)
  deriving DecidableEq, Repr

def setFamily (m : Tables) (i parent childrenCnt : Nat) : Tables :=
  m.setNf i { m.nfs i with parent := parent, childrenCnt := childrenCnt }

def setQueued (m : Tables) (name : RingName) (queued : List Nat) : Tables :=
  { m with rings := Function.update m.rings name ((m.rings name).map fun _ => queued) }

/-- Once the manager has exited nothing changes. -/
def onEvent (m : Tables) (e : Event) : Tables :=
  match m.exit with
  | some _ => m
  | none =>
    match e with
    | .msg msg => m.onMsg msg
    | .family i parent childrenCnt => m.setFamily i parent childrenCnt
    | .traffic name queued => m.setQueued name queued

/-- `onvm_nf_check_status` on the messages of the queue. -/
def onvmNfCheckStatus (m : Tables) (msgs : List Msg) : Tables :=
  exec onEvent m (msgs.map .msg)

end Tables

end Onvm.Mgr

import Mathlib

/-!
# What manager and NFs share

The constants, statuses and records of `onvm_common.h` that the manager and the
NF library both work on, and the service lookup of `onvm_sc_common.c`. The
shared arrays are functions of the index; 16-bit counters are numbers below
`2 ^ 16` and wrap.
-/

namespace Onvm.Nflib

def maxNfs : Nat := 128

def maxServices : Nat := 32

def maxNfsPerService : Nat := 32

def nfNoId : Nat := 65535

def u16 (n : Nat) : Nat := n % 2 ^ 16

/-- `x++` and `x--` on a `uint16_t`. -/
def inc16 (n : Nat) : Nat := u16 (n + 1)

def dec16 (n : Nat) : Nat := u16 (n + (2 ^ 16 - 1))

theorem inc16_eq {n : Nat} (h : n < 2 ^ 16 - 1) : inc16 n = n + 1 := by
  unfold inc16 u16
  omega

theorem dec16_succ {n : Nat} (h : n < 2 ^ 16) : dec16 (n + 1) = n := by
  unfold dec16 u16
  omega

inductive NfStatus where
  | waitingForId
  | starting
  | running
  | paused
  | stopped
  | idConflict
  | noIds
  | serviceMax
  | serviceCountMax
  | noCores
  | noDedicatedCores
  | coreOutOfRange
  | coreBusy
  | waitingForLpm
  | waitingForFt
  deriving DecidableEq, Repr

inductive RingKind where
  | rx
  | tx
  | msg
  deriving DecidableEq, Repr

/-- A ring is named after its kind and an instance ID of at most three digits,
so the names are as distinct as these. -/
structure RingName where
  kind : RingKind
  id : Nat
  deriving DecidableEq, Repr

structure CoreStatus where
  enabled : Bool := false
  isDedicatedCore : Bool := false
  nfCount : Nat := 0
  deriving DecidableEq, Repr

/-- `struct onvm_nf`: a slot of `nfs`. Before its first use it is all zero,
which makes its status `NF_WAITING_FOR_ID`. -/
structure OnvmNf where
  rxQ : Option RingName := none
  txQ : Option RingName := none
  msgQ : Option RingName := none
  instanceId : Nat := 0
  serviceId : Nat := 0
  status : NfStatus := .waitingForId
  tag : Option String := none
  /-- `thread_info` -/
  core : Nat := 0
  parent : Nat := 0
  childrenCnt : Nat := 0
  /-- `flags` -/
  initOptions : Nat := 0
  timeToLive : Nat := 0
  pktLimit : Nat := 0
  deriving DecidableEq, Repr

structure OnvmNfInitCfg where
  instanceId : Nat := nfNoId
  serviceId : Nat
  core : Nat := 0
  initOptions : Nat := 0
  status : NfStatus := .waitingForId
  tag : Option String := none
  timeToLive : Nat := 0
  pktLimit : Nat := 0
  deriving DecidableEq, Repr

def manualCore (flags : Nat) : Bool := flags.testBit 0

def shareCore (flags : Nat) : Bool := flags.testBit 1

def onvmNfIsValid (nf : OnvmNf) : Bool := nf.status == .running

/-- An NF of a service for a packet, chosen by the packet's RSS hash; without a
packet, the first. -/
def onvmScServiceToNfMap (nfPerServiceCount : Nat → Nat) (services : Nat → Nat → Nat)
    (serviceId : Nat) (pkt : Option UInt32) : Nat :=
  let numNfsAvailable := nfPerServiceCount serviceId
  if numNfsAvailable = 0 then 0
  else
    match pkt with
    | none => services serviceId 0
    | some rss => services serviceId (rss.toNat % numNfsAvailable)

/-- What the lookup returns is one of the first `count` entries. -/
theorem serviceToNfMap_index {count : Nat → Nat} {s : Nat} (services : Nat → Nat → Nat)
    (pkt : Option UInt32) (h : 0 < count s) :
    ∃ i < count s, onvmScServiceToNfMap count services s pkt = services s i := by
  unfold onvmScServiceToNfMap
  simp only [if_neg (Nat.ne_of_gt h)]
  cases pkt with
  | none => exact ⟨0, h, rfl⟩
  | some rss => exact ⟨rss.toNat % count s, Nat.mod_lt _ h, rfl⟩

end Onvm.Nflib

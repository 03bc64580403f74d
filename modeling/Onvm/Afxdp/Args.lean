import Mathlib

/-!
# Command line and pre-flight checks

`afxdp_parse_args` folds the options `getopt` returns over the defaults;
`afxdp_preflight_checks` looks at sysfs, the object file and the kernel version
before anything is loaded. What the system answers is a parameter. Checks that
only log (the operstate text, free hugepages) leave no trace here.

What passes the checks is sound but for the queue, which is compared with the
number of queues sysfs lists and with nothing else, and for a driver whose link
is longer than the buffer it is read into (`args_sound_iff`).
-/

namespace Onvm.Afxdp

/-- The bytes of a C string, without its terminator. -/
abbrev CString := List UInt8

def cstr (s : String) : CString := s.toUTF8.toList

/-! ## Error numbers -/

def eNOENT : Int := 2
def eNOMEM : Int := 12
def eNODEV : Int := 19
def eINVAL : Int := 22
def eNOTSUP : Int := 95

/-! ## Configuration -/

/-- `enum xdp_attach_mode`, as far as the options can set it. -/
inductive XdpAttachMode where
  | unspec
  | native
  | skb
  deriving DecidableEq, Repr

def xdpCopy : BitVec 16 := 2

def xdpZerocopy : BitVec 16 := 4

structure AfxdpConfig where
  pktLimit : BitVec 64 := 0
  ifname : CString := cstr "eth0"
  xdpObjFile : CString := []
  xdpProgName : CString := []
  attachMode : XdpAttachMode := .unspec
  xdpFlags : BitVec 32 := 0
  timeToLive : BitVec 32 := 0
  ifindex : Int := -1
  xskIfQueue : Int := 0
  statsInterval : Int := 2
  xskBindFlags : BitVec 16 := 0
  xskPollMode : Bool := false
  customXdpProg : Bool := false
  verbose : Bool := false
  deriving DecidableEq, Repr

/-! ## Numbers on the command line -/

def isSpace (c : UInt8) : Bool := c == 32 || (9 ≤ c && c ≤ 13)

def isDigit (c : UInt8) : Bool := 48 ≤ c && c ≤ 57

def digitsValue (s : CString) : Int :=
  (s.takeWhile isDigit).foldl (fun n c => n * 10 + (c.toNat - 48 : Nat)) 0

/-- `strtol(s, NULL, 10)` with a 64-bit `long`: it saturates. -/
def strtol (s : CString) : Int :=
  let v := match s.dropWhile isSpace with
    | 45 :: t => -digitsValue t
    | 43 :: t => digitsValue t
    | t => digitsValue t
  max (-2 ^ 63) (min v (2 ^ 63 - 1))

def atoi (s : CString) : Int := (BitVec.ofInt 32 (strtol s)).toInt

/-! ## Options -/

/-- What `getopt` returns for `"d:Q:SNczpf:P:vt:l:h"`. -/
inductive Opt where
  | d (arg : CString)
  | Q (arg : CString)
  | S
  | N
  | c
  | z
  | p
  | f (arg : CString)
  | P (arg : CString)
  | v
  | t (arg : CString)
  | l (arg : CString)
  | h
  /-- An option it does not know, or one without its argument. -/
  | unknown
  deriving DecidableEq, Repr

/-- `strncpy(dst, src, n)` into a zeroed buffer that has a byte to spare. -/
def strncpy (src : CString) (n : Nat) : CString := src.take n

/-- One round of the `getopt` loop; `none` when it exits. -/
def afxdpParseOpt (cfg : AfxdpConfig) : Opt → Option AfxdpConfig
  | .d arg => some { cfg with ifname := strncpy arg 15 }
  | .Q arg => some { cfg with xskIfQueue := atoi arg }
  | .S => some { cfg with attachMode := .skb, xskBindFlags := cfg.xskBindFlags ||| xdpCopy }
  | .N => some { cfg with attachMode := .native }
  | .c => some { cfg with xskBindFlags := cfg.xskBindFlags ||| xdpCopy }
  | .z => some { cfg with xskBindFlags := cfg.xskBindFlags ||| xdpZerocopy }
  | .p => some { cfg with xskPollMode := true }
  | .f arg => some { cfg with xdpObjFile := strncpy arg 511, customXdpProg := true }
  | .P arg => some { cfg with xdpProgName := strncpy arg 63 }
  | .v => some { cfg with verbose := true }
  | .t arg => some { cfg with timeToLive := BitVec.ofInt 32 (atoi arg) }
  | .l arg => some { cfg with pktLimit := BitVec.ofInt 64 (strtol arg) }
  | .h | .unknown => none

/-- `none` when the process exits: a bad option, or no such interface. -/
def afxdpParseArgs (ifNametoindex : CString → BitVec 32) (opts : List Opt) :
    Option AfxdpConfig := do
  let cfg ← opts.foldlM afxdpParseOpt {}
  let ifindex := (ifNametoindex cfg.ifname).toInt
  if ifindex ≤ 0 then none
  else
    let cfg := { cfg with ifindex := ifindex }
    let cfg := if cfg.customXdpProg then cfg
      else { cfg with
        xdpObjFile := cstr "afxdp/af_xdp_kern.o"
        xdpProgName := cstr "xdp_sock_prog" }
    some { cfg with customXdpProg := true }

/-! ## Pre-flight checks -/

structure Sysfs where
  /-- Whether the operstate file of an interface can be opened. -/
  operstate : CString → Bool
  /-- The target of an interface's `device/driver` link. -/
  driver : CString → Option CString
  /-- The entries of an interface's `queues` directory. -/
  queues : CString → Option (List CString)
  /-- `access(file, R_OK) == 0` -/
  readable : CString → Bool
  /-- `uts.release` as `sscanf` reads it; zeros when `uname` fails. -/
  major : Int
  minor : Int

def afxdpNativeXdpDrivers : List CString :=
  ["i40e", "ixgbe", "ixgbevf", "mlx5_core", "mlx4_en", "ice", "bnxt_en", "nfp", "qede", "ena",
    "virtio_net", "veth", "tun", "thunderx", "dpaa2-eth", "mvneta", "mvpp2", "sfc"].map cstr

def baseName (path : CString) : CString := (path.reverse.takeWhile (· ≠ 47)).reverse

/-- `sizeof(buf) - 1` -/
def linkMax : Nat := 255

/-- What `readlink` puts in the buffer of the driver check: it cuts off a longer link. -/
def readDriver (sys : Sysfs) (ifname : CString) : Option CString :=
  (sys.driver ifname).map (·.take linkMax)

def driverOk (sys : Sysfs) (cfg : AfxdpConfig) : Bool :=
  match readDriver sys cfg.ifname with
  | some link => cfg.attachMode ≠ .native || baseName link ∈ afxdpNativeXdpDrivers
  | none => cfg.attachMode ≠ .native

/-- The RX queues of the interface; 0 when they cannot be listed. -/
def queueCount (sys : Sysfs) (ifname : CString) : Nat :=
  ((sys.queues ifname).getD []).countP (cstr "rx-").isPrefixOf

def afxdpPreflightChecks (sys : Sysfs) (cfg : AfxdpConfig) : Int :=
  if !sys.operstate cfg.ifname then -eNODEV
  else if !driverOk sys cfg then -eNOTSUP
  else if 0 < queueCount sys cfg.ifname ∧ cfg.xskIfQueue ≥ queueCount sys cfg.ifname then -eINVAL
  else if !sys.readable cfg.xdpObjFile then -eNOENT
  else if sys.major < 4 ∨ (sys.major = 4 ∧ sys.minor < 18) then -eNOTSUP
  else if cfg.xskBindFlags &&& xdpZerocopy ≠ 0 ∧ cfg.xskBindFlags &&& xdpCopy ≠ 0 then -eINVAL
  else if cfg.xskBindFlags &&& xdpZerocopy ≠ 0 ∧ cfg.attachMode = .skb then -eINVAL
  else 0

/-- A failed check is reported by a negative number. -/
theorem preflight_nonpos (sys : Sysfs) (cfg : AfxdpConfig) : afxdpPreflightChecks sys cfg ≤ 0 := by
  unfold afxdpPreflightChecks
  repeat' split
  all_goals decide

/-! ## What passes the checks -/

/-- `AFXDP_MAX_SOCKETS`, the entries of the XSKMAP. -/
def afxdpMaxSockets : Nat := 64

/-- A configuration that is safe to attach with. -/
structure Sound (sys : Sysfs) (cfg : AfxdpConfig) : Prop where
  flags : ¬ (cfg.xskBindFlags &&& xdpZerocopy ≠ 0 ∧ cfg.xskBindFlags &&& xdpCopy ≠ 0)
  zerocopy : cfg.xskBindFlags &&& xdpZerocopy ≠ 0 → cfg.attachMode ≠ .skb
  driver : cfg.attachMode = .native →
    ∃ link, sys.driver cfg.ifname = some link ∧ baseName link ∈ afxdpNativeXdpDrivers
  nonneg : 0 ≤ cfg.xskIfQueue
  listed : 0 < queueCount sys cfg.ifname → cfg.xskIfQueue < queueCount sys cfg.ifname
  sockets : cfg.xskIfQueue < afxdpMaxSockets

/-- A driver that the check has found, if all of its link was read. -/
theorem driver_of_ok {sys : Sysfs} {cfg : AfxdpConfig} (h : driverOk sys cfg = true)
    (hn : cfg.attachMode = .native)
    (hlink : ∀ link, sys.driver cfg.ifname = some link →
      link.length ≤ linkMax ∨ baseName link ∈ afxdpNativeXdpDrivers) :
    ∃ link, sys.driver cfg.ifname = some link ∧ baseName link ∈ afxdpNativeXdpDrivers := by
  unfold driverOk readDriver at h
  cases hl : sys.driver cfg.ifname with
  | none => simp [hl, hn] at h
  | some link =>
    refine ⟨link, rfl, ?_⟩
    rcases hlink link hl with hle | hin
    · rw [hl, Option.map_some, List.take_of_length_le hle] at h
      simpa [hn] using h
    · exact hin

/-- What an accepted configuration has been checked for. -/
theorem preflight_ok {sys : Sysfs} {cfg : AfxdpConfig} (h : afxdpPreflightChecks sys cfg = 0) :
    driverOk sys cfg = true ∧
      ¬ (0 < queueCount sys cfg.ifname ∧ cfg.xskIfQueue ≥ queueCount sys cfg.ifname) ∧
      ¬ (cfg.xskBindFlags &&& xdpZerocopy ≠ 0 ∧ cfg.xskBindFlags &&& xdpCopy ≠ 0) ∧
      ¬ (cfg.xskBindFlags &&& xdpZerocopy ≠ 0 ∧ cfg.attachMode = .skb) := by
  have hE : -eNODEV ≠ 0 ∧ -eNOTSUP ≠ 0 ∧ -eINVAL ≠ 0 ∧ -eNOENT ≠ 0 := by decide
  obtain ⟨h1, h2, h3, h4⟩ := hE
  unfold afxdpPreflightChecks at h
  split at h
  · exact absurd h h1
  split at h
  · exact absurd h h2
  split at h
  · exact absurd h h3
  split at h
  · exact absurd h h4
  split at h
  · exact absurd h h2
  split at h
  · exact absurd h h3
  split at h
  · exact absurd h h3
  rename_i hd hq _ _ hf hz
  exact ⟨by simpa using hd, hq, hf, hz⟩

/-- The queue the options ask for: that of the last `-Q`. -/
def requestedQueue (default : Int) (opts : List Opt) : Int :=
  opts.foldl (fun q o => match o with | .Q arg => atoi arg | _ => q) default

/-- The mode: the last of `-S` and `-N`. -/
def requestedMode (default : XdpAttachMode) (opts : List Opt) : XdpAttachMode :=
  opts.foldl (fun m o => match o with | .S => .skb | .N => .native | _ => m) default

/-- The interface: that of the last `-d`, cut to the length of its field. -/
def requestedIfname (default : CString) (opts : List Opt) : CString :=
  opts.foldl (fun n o => match o with | .d arg => strncpy arg 15 | _ => n) default

def Requested (cfg : AfxdpConfig) (opts : List Opt) (cfg' : AfxdpConfig) : Prop :=
  cfg'.xskIfQueue = requestedQueue cfg.xskIfQueue opts ∧
    cfg'.attachMode = requestedMode cfg.attachMode opts ∧
    cfg'.ifname = requestedIfname cfg.ifname opts

/-- One option moves what it names and nothing else. -/
theorem parseOpt_requested {cfg cfg' : AfxdpConfig} {o : Opt}
    (h : afxdpParseOpt cfg o = some cfg') : Requested cfg [o] cfg' := by
  cases o <;> simp only [afxdpParseOpt, Option.some.injEq, reduceCtorEq] at h <;> subst h <;>
    exact ⟨rfl, rfl, rfl⟩

theorem parseOpts_requested {opts : List Opt} {cfg cfg' : AfxdpConfig}
    (h : opts.foldlM afxdpParseOpt cfg = some cfg') : Requested cfg opts cfg' := by
  induction opts generalizing cfg with
  | nil =>
    obtain rfl : cfg = cfg' := by simpa using h
    exact ⟨rfl, rfl, rfl⟩
  | cons o opts ih =>
    rw [List.foldlM_cons, Option.bind_eq_bind, Option.bind_eq_some_iff] at h
    obtain ⟨mid, ho, h⟩ := h
    obtain ⟨hq, hm, hi⟩ := ih h
    obtain ⟨hq', hm', hi'⟩ := parseOpt_requested ho
    rw [hq'] at hq
    rw [hm'] at hm
    rw [hi'] at hi
    exact ⟨hq, hm, hi⟩

theorem parseArgs_requested {ifNametoindex : CString → BitVec 32} {opts : List Opt}
    {cfg : AfxdpConfig} (h : afxdpParseArgs ifNametoindex opts = some cfg) :
    Requested {} opts cfg := by
  unfold afxdpParseArgs at h
  rw [Option.bind_eq_bind, Option.bind_eq_some_iff] at h
  obtain ⟨mid, hm, h⟩ := h
  simp only at h
  split at h
  · simp at h
  · simp only [Option.some.injEq] at h
    subst h
    have hr := parseOpts_requested hm
    split <;> exact hr

/-- The command line asks for a slot of the XSKMAP, and if it asks for native mode, the link
of the interface's driver can be read whole or ends in a supported name. -/
structure ArgsFit (sys : Sysfs) (opts : List Opt) : Prop where
  nonneg : 0 ≤ requestedQueue 0 opts
  sockets : requestedQueue 0 opts < afxdpMaxSockets
  driver : requestedMode .unspec opts = .native →
    ∀ link, sys.driver (requestedIfname (cstr "eth0") opts) = some link →
      link.length ≤ linkMax ∨ baseName link ∈ afxdpNativeXdpDrivers

/-- **Options that pass the checks give a sound configuration exactly when the
last `-Q` is a slot of the XSKMAP**, and the driver's link is not cut off in a way that
makes another driver of it. -/
theorem args_sound_iff {ifNametoindex : CString → BitVec 32} {opts : List Opt} {sys : Sysfs}
    {cfg : AfxdpConfig} (hp : afxdpParseArgs ifNametoindex opts = some cfg)
    (hc : afxdpPreflightChecks sys cfg = 0) : Sound sys cfg ↔ ArgsFit sys opts := by
  obtain ⟨hd, hq, hf, hz⟩ := preflight_ok hc
  obtain ⟨hqueue, hmode, hname⟩ := parseArgs_requested hp
  constructor
  · intro h
    refine ⟨hqueue ▸ h.nonneg, hqueue ▸ h.sockets, fun hn link hl => .inr ?_⟩
    obtain ⟨link', hl', hin⟩ := h.driver (hmode.trans hn)
    rw [hname] at hl'
    obtain rfl : link' = link := Option.some.inj (hl'.symm.trans hl)
    exact hin
  · intro h
    exact {
      flags := hf
      zerocopy := fun hzc hs => hz ⟨hzc, hs⟩
      driver := fun hn => driver_of_ok hd hn
        (hname ▸ h.driver (hmode.symm.trans hn))
      nonneg := hqueue.symm ▸ h.nonneg
      listed := fun hn => by
        by_contra hge
        exact hq ⟨hn, by omega⟩
      sockets := hqueue.symm ▸ h.sockets }

/-- A host with one interface of one queue and a recent kernel. -/
def oneQueueHost : Sysfs where
  operstate _ := true
  driver _ := some (cstr "../../../bus/pci/drivers/ixgbe")
  queues _ := some [cstr "rx-0", cstr "tx-0"]
  readable _ := true
  major := 6
  minor := 1

theorem args_sound_iff_native :
    Sound oneQueueHost
      ((afxdpParseArgs (fun _ => 2) [.S, .N, .Q (cstr "0")]).get (by decide +kernel)) :=
  (args_sound_iff (Option.some_get _).symm (by decide +kernel)).mpr
    ⟨by decide +kernel, by decide +kernel, fun _ link hl => .inl (by
      obtain rfl := Option.some.inj hl
      decide +kernel)⟩

/-- `-Q -1` passes every check. -/
theorem args_unsound : ¬ ∀ (ifNametoindex : CString → BitVec 32) (opts : List Opt) (sys : Sysfs)
    (cfg : AfxdpConfig), afxdpParseArgs ifNametoindex opts = some cfg →
      afxdpPreflightChecks sys cfg = 0 → Sound sys cfg := by
  intro h
  have hp : (afxdpParseArgs (fun _ => 2) [.Q (cstr "-1")]).isSome = true := by decide +kernel
  have hcfg := (Option.some_get hp).symm
  have hs := h (fun _ => 2) [.Q (cstr "-1")] oneQueueHost _ hcfg (by decide +kernel +revert)
  have h0 := hs.nonneg
  rw [(parseArgs_requested hcfg).1] at h0
  exact absurd h0 (by decide +kernel)

end Onvm.Afxdp

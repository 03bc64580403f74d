import Onvm.Afxdp.Args
import Onvm.Afxdp.Umem
import Onvm.Lib.Ledger

/-!
# Start, run and tear-down of the AF_XDP manager

`afxdp_init`, `afxdp_run`, `afxdp_cleanup` and the AF_XDP `main`, over every
outcome of the external calls they make. The outcomes are inputs; the XDP
attachments, sockets, UMEM registrations, packet buffers and threads that come
and go are entered in a ledger. A pointer of the manager context is the handle
it points to, or `none` when it is NULL.
-/

namespace Onvm.Afxdp

open Onvm.Lib

/-- What the process acquires and has to give back. -/
inductive Res where
  /-- An XDP program attached to the interface. -/
  | program
  | socket
  | umem
  /-- A packet buffer from `mmap(MAP_HUGETLB)`, given back by `munmap`. -/
  | hugeBuffer
  /-- A packet buffer from `posix_memalign`, given back by `free`. -/
  | heapBuffer
  | thread
  /-- A thread id that was never written: it can be joined, not created. -/
  | uninitThread
  deriving DecidableEq, Repr

/-- A result of libxdp or libbpf: 0, or a negative error number. -/
structure LibResult where
  val : Int
  nonpos : val ≤ 0

structure Errno where
  val : Int
  pos : 0 < val

/-- The outcomes of the external calls of `afxdp_init`. -/
structure InitEnv where
  sys : Sysfs
  /-- `libxdp_get_error(xdp_program__create(..))` -/
  create : LibResult
  attach : LibResult
  /-- `bpf_map__fd` of the `xsks_map`, negative when there is none. -/
  mapFd : Int
  /-- The `errno` of `setrlimit`, if it fails. -/
  setrlimit : Option Errno
  /-- Whether the hugepage `mmap`, or else `posix_memalign`, gives a buffer. -/
  mmap : Bool
  memalign : Bool
  callocUmem : Bool
  umemCreate : LibResult
  callocSocket : Bool
  socketCreate : LibResult
  updateXskmap : LibResult
  /-- What `xsk_ring_prod__reserve` grants on the new Fill ring. -/
  reserveFill : Nat

inductive XdpProg where
  | null
  /-- What `xdp_program__create` returns when it fails: not NULL. -/
  | errPtr (err : Int)
  /-- A loaded program, with its attachment to the interface. -/
  | prog (attachment : Option Nat)
  deriving DecidableEq, Repr

structure AfxdpManagerCtx where
  cfg : AfxdpConfig := {}
  umem : Option Nat := none
  packetBuffer : Option Nat := none
  xskSocket : Option Nat := none
  xdpProg : XdpProg := .null
  packetBufferSize : Nat := 0
  packetBufferSizeAligned : Nat := 0
  xskMapFd : Int := 0
  globalExit : Bool := false
  useHugepages : Bool := false

/-- The process: its context and what it has acquired and released. -/
structure Proc where
  ctx : AfxdpManagerCtx := {}
  led : Ledger Res := {}

def bufferRes (useHugepages : Bool) : Res := if useHugepages then .hugeBuffer else .heapBuffer

/-- `AFXDP_UMEM_HUGEPAGE_ALIGNED`: the UMEM rounded up to 2 MiB pages. -/
def afxdpUmemHugepageAligned : Nat :=
  (afxdpNumFrames * afxdpFrameSize + (2 * 1024 * 1024 - 1)) / (2 * 1024 * 1024) * (2 * 1024 * 1024)

namespace Proc

/-! ## `afxdp_init` -/

def afxdpAllocHugepageBuffer (env : InitEnv) (p : Proc) : Int × Proc :=
  if env.mmap || env.memalign then
    let a := p.led.acquire (bufferRes env.mmap)
    (0, {
      ctx := { p.ctx with
        useHugepages := env.mmap
        packetBuffer := some a.1
        packetBufferSize := afxdpNumFrames * afxdpFrameSize
        packetBufferSizeAligned := afxdpUmemHugepageAligned }
      led := a.2 })
  else (-eNOMEM, p)

/-- Step 6: reuse the packet buffer, or get one. -/
def adoptBuffer (env : InitEnv) (p : Proc) : Int × Proc :=
  let p := { p with ctx := { p.ctx with packetBufferSize := afxdpNumFrames * afxdpFrameSize } }
  if p.ctx.packetBuffer.isSome then (0, p) else p.afxdpAllocHugepageBuffer env

def afxdpConfigureUmem (env : InitEnv) (p : Proc) : Proc :=
  if !env.callocUmem then { p with ctx := { p.ctx with umem := none } }
  else if env.umemCreate.val ≠ 0 then { p with ctx := { p.ctx with umem := none } }
  else
    let a := p.led.acquire .umem
    { ctx := { p.ctx with umem := some a.1 }, led := a.2 }

/-- `ctx->xsk_socket = afxdp_configure_socket(ctx)` as far as its library calls
go; the set-up of the free list and the Fill ring is in `Datapath`. -/
def afxdpConfigureSocket (env : InitEnv) (p : Proc) : Proc :=
  let failed : AfxdpManagerCtx := { p.ctx with xskSocket := none }
  if !env.callocSocket then { p with ctx := failed }
  else if env.socketCreate.val ≠ 0 then { p with ctx := failed }
  else
    let a := p.led.acquire .socket
    if p.ctx.cfg.customXdpProg = true ∧ env.updateXskmap.val ≠ 0 then
      { ctx := failed, led := a.2.release .socket a.1 }
    else if env.reserveFill ≠ afxdpFillRingSize then
      { ctx := failed, led := a.2.release .socket a.1 }
    else { ctx := { p.ctx with xskSocket := some a.1 }, led := a.2 }

/-- Steps 6 to 8 of `afxdp_init`: packet buffer, UMEM, socket. -/
def afxdpInitUmem (env : InitEnv) (p : Proc) : Int × Proc :=
  let b := p.adoptBuffer env
  if b.1 ≠ 0 then (-eNOMEM, b.2)
  else
    let p := b.2.afxdpConfigureUmem env
    match p.ctx.umem with
    | none => (-eNOMEM, p)
    | some umem =>
      let p := p.afxdpConfigureSocket env
      match p.ctx.xskSocket with
      | none => (-eNODEV, { ctx := { p.ctx with umem := none }, led := p.led.release .umem umem })
      | some _ => (0, p)

def afxdpInit (cfg : AfxdpConfig) (env : InitEnv) (p : Proc) : Int × Proc :=
  let p := { p with ctx := { p.ctx with cfg := cfg, globalExit := false } }
  let err := afxdpPreflightChecks env.sys cfg
  if err ≠ 0 then (err, p)
  -- Step 4: load the program, attach it, find its map.
  else if env.create.val ≠ 0 then
    (-env.create.val, { p with ctx := { p.ctx with xdpProg := .errPtr env.create.val } })
  else if env.attach.val ≠ 0 then
    (env.attach.val, { p with ctx := { p.ctx with xdpProg := .prog none } })
  else
    let a := p.led.acquire .program
    let p : Proc :=
      { ctx := { p.ctx with xdpProg := .prog (some a.1), xskMapFd := env.mapFd }, led := a.2 }
    if env.mapFd < 0 then (-eNOENT, p)
    else
      match env.setrlimit with
      | some e => (-e.val, p)
      | none => p.afxdpInitUmem env

/-! ## `afxdp_run` -/

end Proc

/-- The results of `pthread_create` for the one RX, manager and wakeup thread. -/
structure RunEnv where
  rxCreate : Nat
  mgrCreate : Nat
  wakeupCreate : Nat

namespace Proc

/-- `pthread_create`; a failure asks the other threads to stop and leaves the
thread id unwritten. -/
def createThread (err : Nat) (p : Proc) : Option Nat × Proc :=
  if err ≠ 0 then (none, { p with ctx := { p.ctx with globalExit := true } })
  else
    let a := p.led.acquire .thread
    (some a.1, { p with led := a.2 })

def joinThread (id : Option Nat) (p : Proc) : Proc :=
  match id with
  | some h => { p with led := p.led.release .thread h }
  | none => { p with led := p.led.release .uninitThread 0 }

/-- `afxdp_run`, up to the exit of all its threads. `none` when the RX thread
dereferences a NULL socket, which it does before anything else. -/
def afxdpRun (env : RunEnv) (p : Proc) : Option (Int × Proc) :=
  let rx := p.createThread env.rxCreate
  if env.rxCreate ≠ 0 then some (-env.rxCreate, rx.2)
  else if p.ctx.xskSocket = none then none
  else
    let mgr := rx.2.createThread env.mgrCreate
    let wakeup := mgr.2.createThread env.wakeupCreate
    some (0, ((wakeup.2.joinThread rx.1).joinThread mgr.1).joinThread wakeup.1)

/-! ## `afxdp_cleanup` -/

/-- Detach and close the program; a failed detach is only logged. -/
def cleanupProgram (detach : LibResult) (p : Proc) : Proc :=
  match p.ctx.xdpProg with
  | .null => p
  | .prog (some h) =>
    { ctx := { p.ctx with xdpProg := .null }
      led := if detach.val = 0 then p.led.release .program h else p.led }
  | .errPtr _ | .prog none => { p with ctx := { p.ctx with xdpProg := .null } }

def cleanupSocket (p : Proc) : Proc :=
  match p.ctx.xskSocket with
  | none => p
  | some h => { ctx := { p.ctx with xskSocket := none }, led := p.led.release .socket h }

def cleanupUmem (p : Proc) : Proc :=
  match p.ctx.umem with
  | none => p
  | some h => { ctx := { p.ctx with umem := none }, led := p.led.release .umem h }

def cleanupBuffer (finalCleanup : Bool) (p : Proc) : Proc :=
  match finalCleanup, p.ctx.packetBuffer with
  | true, some h =>
    { ctx := { p.ctx with packetBuffer := none }
      led := p.led.release (bufferRes p.ctx.useHugepages) h }
  | _, _ => p

def afxdpCleanup (finalCleanup : Bool) (detach : LibResult) (p : Proc) : Proc :=
  ((p.cleanupProgram detach).cleanupSocket.cleanupUmem).cleanupBuffer finalCleanup

end Proc

/-! ## `main` -/

structure MainEnv where
  opts : List Opt
  ifNametoindex : CString → BitVec 32
  init : InitEnv
  run : RunEnv
  detach : LibResult

inductive Outcome where
  /-- `exit` while parsing the command line. -/
  | exited
  /-- A NULL dereference. -/
  | crashed
  | returned (ret : Int) (led : Ledger Res)

/-- The process as `main` hands it to `afxdp_run`; `none` when it does not. -/
def mainEntersRun (cfg : AfxdpConfig) (env : InitEnv) : Option Proc :=
  let r := Proc.afxdpInit cfg env {}
  if r.1 < 0 then none else some r.2

/-- `main` in AF_XDP mode. -/
def afxdpMain (env : MainEnv) : Outcome :=
  match afxdpParseArgs env.ifNametoindex env.opts with
  | none => .exited
  | some cfg =>
    match mainEntersRun cfg env.init with
    | none => .returned (-1) (Proc.afxdpInit cfg env.init {}).2.led
    | some p =>
      match p.afxdpRun env.run with
      | none => .crashed
      | some r => .returned r.1 (r.2.afxdpCleanup true env.detach).led

/-! ## Mode switches -/

/-- One `afxdp_init` and the `afxdp_cleanup(false)` after it. -/
structure Cycle where
  cfg : AfxdpConfig
  init : InitEnv
  detach : LibResult

def Cycle.exec (c : Cycle) (p : Proc) : Proc :=
  (p.afxdpInit c.cfg c.init).2.afxdpCleanup false c.detach

/-- The process after some cycles from a zeroed context. -/
def afterCycles (cycles : List Cycle) : Proc :=
  cycles.foldl (fun p (c : Cycle) => c.exec p) {}

/-- Any number of cycles, then `afxdp_cleanup(true)`. -/
def modeSwitches (cycles : List Cycle) (detach : LibResult) : Proc :=
  (afterCycles cycles).afxdpCleanup true detach

end Onvm.Afxdp

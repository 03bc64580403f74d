import Onvm.Afxdp.Lifecycle

/-!
# What initialisation promises and what is given back

The manager context always names what the process still holds, so
`afxdp_cleanup` gives everything back that its pointers lead to. What goes
wrong lies in the callers: a sign that hides a failed initialisation, a `main`
that skips the cleanup, joins of threads that were not created, and a detach
whose failure is only logged.
-/

namespace Onvm.Afxdp

open Onvm.Lib

/-! ## Initialisation -/

def InitEnv.HasBuffer (env : InitEnv) (p : Proc) : Prop :=
  p.ctx.packetBuffer.isSome = true ∨ env.mmap = true ∨ env.memalign = true

def InitEnv.HasUmem (env : InitEnv) : Prop := env.callocUmem = true ∧ env.umemCreate.val = 0

/-- The socket can be created and set up. -/
structure InitEnv.HasSocket (env : InitEnv) (cfg : AfxdpConfig) : Prop where
  callocSocket : env.callocSocket = true
  socketCreate : env.socketCreate.val = 0
  updateXskmap : cfg.customXdpProg = true → env.updateXskmap.val = 0
  reserveFill : env.reserveFill = afxdpFillRingSize

structure InitEnv.Completes (env : InitEnv) (cfg : AfxdpConfig) (p : Proc) : Prop where
  mapFd : 0 ≤ env.mapFd
  setrlimit : env.setrlimit = none
  buffer : env.HasBuffer p
  umem : env.HasUmem
  socket : env.HasSocket cfg

def InitEnv.Attaches (env : InitEnv) (cfg : AfxdpConfig) : Prop :=
  afxdpPreflightChecks env.sys cfg = 0 ∧ env.create.val = 0 ∧ env.attach.val = 0

namespace Proc

/-- The context as the caller has to hand it over: zeroed, or cleaned up. -/
structure Clean (p : Proc) : Prop where
  umem : p.ctx.umem = none
  xskSocket : p.ctx.xskSocket = none
  xdpProg : p.ctx.xdpProg = .null

/-- Program attached, XSKMAP found, UMEM registered, socket created. -/
structure Ready (p : Proc) : Prop where
  program : ∃ h, p.ctx.xdpProg = .prog (some h) ∧ .acquire .program h ∈ p.led.log
  xskMapFd : 0 ≤ p.ctx.xskMapFd
  umem : ∃ h, p.ctx.umem = some h ∧ .acquire .umem h ∈ p.led.log
  socket : ∃ h, p.ctx.xskSocket = some h ∧ .acquire .socket h ∈ p.led.log

def heldProg : XdpProg → List (Res × Nat)
  | .prog (some h) => [(.program, h)]
  | _ => []

def heldPtr (r : Res) : Option Nat → List (Res × Nat)
  | some h => [(r, h)]
  | none => []

def held (p : Proc) : List (Res × Nat) :=
  heldProg p.ctx.xdpProg ++ (heldPtr .socket p.ctx.xskSocket ++ (heldPtr .umem p.ctx.umem ++
    heldPtr (bufferRes p.ctx.useHugepages) p.ctx.packetBuffer))

/-- The context names all that is held, apart from what was `lost`. -/
def Accounted (p : Proc) (lost : List (Res × Nat)) : Prop := p.led.Holds (p.held ++ lost)

def isBuffer : Res → Bool
  | .hugeBuffer | .heapBuffer => true
  | _ => false

/-- The buffer in use is the only one ever acquired. -/
def OneBuffer (p : Proc) : Prop :=
  p.led.acquired isBuffer = if p.ctx.packetBuffer.isSome then 1 else 0

variable {p : Proc} {env : InitEnv} {cfg : AfxdpConfig} {lost : List (Res × Nat)}

theorem acquired_mem (h : p.Accounted lost) {r : Res} {x : Nat} (hm : (r, x) ∈ p.held) :
    .acquire r x ∈ p.led.log := by
  have h1 := h.count r x
  have h2 := List.count_pos_iff.mpr (List.mem_append_left lost hm)
  exact List.count_pos_iff.mp (by omega)

theorem isBuffer_bufferRes (b : Bool) : isBuffer (bufferRes b) = true := by cases b <;> rfl

/-- A stage of `afxdp_init` that moves neither the program nor what was lost. -/
structure Stage (p q : Proc) (lost : List (Res × Nat)) : Prop where
  accounted : q.Accounted lost
  oneBuffer : q.OneBuffer
  xdpProg : q.ctx.xdpProg = p.ctx.xdpProg
  xskMapFd : q.ctx.xskMapFd = p.ctx.xskMapFd
  cfg : q.ctx.cfg = p.ctx.cfg

theorem Stage.trans {q r : Proc} (h1 : Stage p q lost) (h2 : Stage q r lost) : Stage p r lost where
  accounted := h2.accounted
  oneBuffer := h2.oneBuffer
  xdpProg := h2.xdpProg.trans h1.xdpProg
  xskMapFd := h2.xskMapFd.trans h1.xskMapFd
  cfg := h2.cfg.trans h1.cfg

theorem adoptBuffer_spec (env : InitEnv) (h : p.Accounted lost) (ho : p.OneBuffer) :
    Stage p (p.adoptBuffer env).2 lost ∧ (p.adoptBuffer env).2.ctx.umem = p.ctx.umem ∧
      (p.adoptBuffer env).2.ctx.xskSocket = p.ctx.xskSocket ∧
      ((p.adoptBuffer env).1 = 0 ↔ env.HasBuffer p) := by
  unfold adoptBuffer InitEnv.HasBuffer
  by_cases hb : p.ctx.packetBuffer.isSome
  · simp only [hb, if_true, true_or]
    exact ⟨⟨h, ho, rfl, rfl, rfl⟩, trivial, trivial, trivial⟩
  have hnone : p.ctx.packetBuffer = none := by simpa using hb
  simp only [hb, Bool.false_eq_true, if_false, false_or, afxdpAllocHugepageBuffer]
  by_cases hm : (env.mmap || env.memalign) = true
  · simp only [hm, if_true]
    refine ⟨⟨?_, ?_, rfl, rfl, rfl⟩, trivial, trivial, by simpa using hm⟩
    · refine (Ledger.Holds.acquire h (bufferRes env.mmap)).perm ?_
      simp only [held, hnone, heldPtr, List.append_nil]
      grind
    · rw [OneBuffer, hnone] at ho
      simp only [OneBuffer, Ledger.acquired_acquire, isBuffer_bufferRes, ho]
      rfl
  · simp only [hm, Bool.false_eq_true, if_false]
    refine ⟨⟨h, ho, rfl, rfl, rfl⟩, trivial, trivial, ?_⟩
    simp only [Bool.or_eq_true] at hm
    exact iff_of_false (by decide) hm

theorem configureUmem_spec (env : InitEnv) (h : p.Accounted lost) (ho : p.OneBuffer)
    (hu : p.ctx.umem = none) :
    Stage p (p.afxdpConfigureUmem env) lost ∧
      (p.afxdpConfigureUmem env).ctx.xskSocket = p.ctx.xskSocket ∧
      ((p.afxdpConfigureUmem env).ctx.umem.isSome = true ↔ env.HasUmem) := by
  have hfail : Stage p { p with ctx := { p.ctx with umem := none } } lost := by
    rw [← hu]
    exact ⟨h, ho, rfl, rfl, rfl⟩
  unfold afxdpConfigureUmem InitEnv.HasUmem
  by_cases hc : env.callocUmem = true
  · by_cases hz : env.umemCreate.val = 0
    · simp only [hc, hz, Bool.not_true, Bool.false_eq_true, if_false, ne_eq, not_true]
      refine ⟨⟨?_, ?_, rfl, rfl, rfl⟩, trivial, by simp⟩
      · refine (Ledger.Holds.acquire h .umem).perm ?_
        simp only [held, hu, heldPtr, List.nil_append]
        grind
      · simp only [OneBuffer, Ledger.acquired_acquire, isBuffer, Bool.false_eq_true, if_false,
          Nat.add_zero]
        exact ho
    · simp only [hc, hz, Bool.not_true, Bool.false_eq_true, if_false, ne_eq, not_false_eq_true,
        if_true]
      exact ⟨hfail, trivial, by simp⟩
  · simp only [hc, Bool.not_false, if_true]
    exact ⟨hfail, trivial, by simp⟩

theorem configureSocket_spec (env : InitEnv) (h : p.Accounted lost) (ho : p.OneBuffer)
    (hs : p.ctx.xskSocket = none) :
    Stage p (p.afxdpConfigureSocket env) lost ∧
      (p.afxdpConfigureSocket env).ctx.umem = p.ctx.umem ∧
      ((p.afxdpConfigureSocket env).ctx.xskSocket.isSome = true ↔ env.HasSocket p.ctx.cfg) := by
  have hacq := Ledger.Holds.acquire h .socket
  have hcount : ∀ {l : Ledger Res}, l.acquired isBuffer = (p.led.acquire .socket).2.acquired isBuffer →
      l.acquired isBuffer = if p.ctx.packetBuffer.isSome then 1 else 0 := by
    intro l hl
    rw [hl, Ledger.acquired_acquire]
    exact ho
  have hfail : ∀ l : Ledger Res, l.Holds (p.held ++ lost) →
      l.acquired isBuffer = (if p.ctx.packetBuffer.isSome then 1 else 0) →
      Stage p { ctx := { p.ctx with xskSocket := none }, led := l } lost := by
    intro l hl hl'
    rw [← hs]
    exact ⟨hl, hl', rfl, rfl, rfl⟩
  have hback := hfail _ hacq.release (hcount (Ledger.acquired_release _ _ _ _))
  unfold afxdpConfigureSocket
  by_cases h1 : env.callocSocket = true
  · by_cases h2 : env.socketCreate.val = 0
    · by_cases h3 : p.ctx.cfg.customXdpProg = true ∧ env.updateXskmap.val ≠ 0
      · simp only [h1, h2, h3, Bool.not_true, Bool.false_eq_true, if_false, ne_eq, not_true,
          not_false_eq_true, and_self, if_true]
        exact ⟨hback, trivial, iff_of_false (by simp) fun hh => h3.2 (hh.updateXskmap h3.1)⟩
      · by_cases h4 : env.reserveFill = afxdpFillRingSize
        · simp only [h1, h2, h3, h4, Bool.not_true, Bool.false_eq_true, if_false, ne_eq, not_true]
          refine ⟨⟨?_, hcount rfl, rfl, rfl, rfl⟩, trivial, iff_of_true rfl ⟨h1, h2, ?_, h4⟩⟩
          · refine hacq.perm ?_
            simp only [held, hs, heldPtr, List.nil_append]
            grind
          · intro hc
            by_contra hne
            exact h3 ⟨hc, hne⟩
        · simp only [h1, h2, h3, h4, Bool.not_true, Bool.false_eq_true, if_false, ne_eq, not_true,
            not_false_eq_true, if_true]
          exact ⟨hback, trivial, iff_of_false (by simp) fun hh => h4 hh.reserveFill⟩
    · simp only [h1, h2, Bool.not_true, Bool.false_eq_true, if_false, ne_eq, not_false_eq_true,
        if_true]
      exact ⟨hfail _ h ho, trivial, iff_of_false (by simp) fun hh => h2 hh.socketCreate⟩
  · simp only [h1, Bool.not_false, if_true]
    exact ⟨hfail _ h ho, trivial, iff_of_false (by simp) fun hh => h1 hh.callocSocket⟩

/-- What a pointer leads to, moved to the front. -/
theorem accounted_umem {h : Nat} (ha : p.Accounted lost) (hu : p.ctx.umem = some h) :
    Accounted { ctx := { p.ctx with umem := none }, led := p.led.release .umem h } lost := by
  refine (Ledger.Holds.perm ha (?_ : List.Perm _ ((.umem, h) :: _))).release
  simp only [held, hu, heldPtr]
  grind

theorem accounted_socket {h : Nat} (ha : p.Accounted lost) (hs : p.ctx.xskSocket = some h) :
    Accounted { ctx := { p.ctx with xskSocket := none }, led := p.led.release .socket h } lost := by
  refine (Ledger.Holds.perm ha (?_ : List.Perm _ ((.socket, h) :: _))).release
  simp only [held, hs, heldPtr]
  grind

/-- Steps 6 to 8 succeed as a whole or leave neither UMEM nor socket. -/
theorem initUmem_spec (env : InitEnv) (h : p.Accounted lost) (ho : p.OneBuffer)
    (hu : p.ctx.umem = none) (hs : p.ctx.xskSocket = none) :
    Stage p (p.afxdpInitUmem env).2 lost ∧
      (((p.afxdpInitUmem env).1 = 0 ∧ (env.HasBuffer p ∧ env.HasUmem ∧ env.HasSocket p.ctx.cfg) ∧
        (p.afxdpInitUmem env).2.ctx.umem.isSome = true ∧
        (p.afxdpInitUmem env).2.ctx.xskSocket.isSome = true) ∨
      ((p.afxdpInitUmem env).1 < 0 ∧
        ¬ (env.HasBuffer p ∧ env.HasUmem ∧ env.HasSocket p.ctx.cfg) ∧
        (p.afxdpInitUmem env).2.ctx.umem = none ∧
        (p.afxdpInitUmem env).2.ctx.xskSocket = none)) := by
  obtain ⟨b1, b2, b3, b4⟩ := adoptBuffer_spec env h ho
  unfold afxdpInitUmem
  by_cases hb : (p.adoptBuffer env).1 = 0
  case neg =>
    simp only [ne_eq, hb, not_false_eq_true, if_true]
    exact ⟨b1, .inr ⟨by decide, fun hh => hb (b4.mpr hh.1), b2.trans hu, b3.trans hs⟩⟩
  simp only [ne_eq, hb, not_true, if_false]
  obtain ⟨u1, u2, u3⟩ := configureUmem_spec env b1.accounted b1.oneBuffer (b2.trans hu)
  split
  case h_1 hum =>
    rw [hum] at u3
    exact ⟨b1.trans u1, .inr ⟨by show -eNOMEM < 0; decide,
      fun hh => by simpa using u3.mpr hh.2.1, hum, u2.trans (b3.trans hs)⟩⟩
  case h_2 x hum =>
    rw [hum] at u3
    obtain ⟨s1, s2, s3⟩ := configureSocket_spec env u1.accounted u1.oneBuffer
      (u2.trans (b3.trans hs))
    rw [(b1.trans u1).cfg] at s3
    rw [hum] at s2
    have hall := b1.trans (u1.trans s1)
    split
    case h_1 hso =>
      rw [hso] at s3
      have hone := s1.oneBuffer
      refine ⟨⟨accounted_umem s1.accounted s2, ?_, hall.xdpProg, hall.xskMapFd, hall.cfg⟩,
        .inr ⟨by show -eNODEV < 0; decide, fun hh => by simpa using s3.mpr hh.2.2, rfl, hso⟩⟩
      rw [OneBuffer] at hone ⊢
      rw [Ledger.acquired_release]
      exact hone
    case h_2 y hso =>
      rw [hso] at s3
      exact ⟨hall, .inl ⟨rfl, ⟨b4.mp hb, u3.mp rfl, s3.mp rfl⟩, by rw [s2]; rfl, by rw [hso]; rfl⟩⟩

theorem isSome_of_ready (h : p.Ready) : p.ctx.umem ≠ none ∧ p.ctx.xskSocket ≠ none := by
  obtain ⟨u, hu, -⟩ := h.umem
  obtain ⟨s, hs, -⟩ := h.socket
  exact ⟨by rw [hu]; simp, by rw [hs]; simp⟩

/-- A context that names a program, a UMEM and a socket has them. -/
theorem ready_of_accounted (h : p.Accounted lost) {x : Nat} (hx : p.ctx.xdpProg = .prog (some x))
    (hfd : 0 ≤ p.ctx.xskMapFd) (hu : p.ctx.umem.isSome = true)
    (hs : p.ctx.xskSocket.isSome = true) : p.Ready := by
  obtain ⟨u, hu⟩ := Option.isSome_iff_exists.mp hu
  obtain ⟨s, hs⟩ := Option.isSome_iff_exists.mp hs
  exact ⟨⟨x, hx, acquired_mem h (by simp [held, hx, heldProg])⟩, hfd,
    ⟨u, hu, acquired_mem h (by simp [held, hu, heldPtr])⟩,
    ⟨s, hs, acquired_mem h (by simp [held, hs, heldPtr])⟩⟩

def attached (cfg : AfxdpConfig) (env : InitEnv) (p : Proc) : Proc where
  ctx := { p.ctx with
    cfg := cfg
    globalExit := false
    xdpProg := .prog (some (p.led.acquire .program).1)
    xskMapFd := env.mapFd }
  led := (p.led.acquire .program).2

theorem attached_accounted (cfg : AfxdpConfig) (env : InitEnv) (hp : p.Clean) (h : p.Accounted lost) :
    (p.attached cfg env).Accounted lost := by
  refine (Ledger.Holds.acquire h .program).perm ?_
  simp only [held, attached, hp.xdpProg, heldProg]
  grind

/-- How `afxdp_init` can end, seen from its first steps. -/
theorem init_cases (p : Proc) (cfg : AfxdpConfig) (env : InitEnv) :
    (afxdpPreflightChecks env.sys cfg ≠ 0 ∧ p.afxdpInit cfg env =
      (afxdpPreflightChecks env.sys cfg, { p with ctx := { p.ctx with
        cfg := cfg, globalExit := false } })) ∨
    (afxdpPreflightChecks env.sys cfg = 0 ∧ env.create.val ≠ 0 ∧ p.afxdpInit cfg env =
      (-env.create.val, { p with ctx := { p.ctx with
        cfg := cfg, globalExit := false, xdpProg := .errPtr env.create.val } })) ∨
    (afxdpPreflightChecks env.sys cfg = 0 ∧ env.create.val = 0 ∧ env.attach.val ≠ 0 ∧
      p.afxdpInit cfg env = (env.attach.val, { p with ctx := { p.ctx with
        cfg := cfg, globalExit := false, xdpProg := .prog none } })) ∨
    (env.Attaches cfg ∧ env.mapFd < 0 ∧ p.afxdpInit cfg env = (-eNOENT, p.attached cfg env)) ∨
    (env.Attaches cfg ∧ 0 ≤ env.mapFd ∧ ∃ e, env.setrlimit = some e ∧
      p.afxdpInit cfg env = (-e.val, p.attached cfg env)) ∨
    (env.Attaches cfg ∧ 0 ≤ env.mapFd ∧ env.setrlimit = none ∧
      p.afxdpInit cfg env = (p.attached cfg env).afxdpInitUmem env) := by
  unfold afxdpInit InitEnv.Attaches
  by_cases h1 : afxdpPreflightChecks env.sys cfg = 0
  case neg => exact .inl ⟨h1, by simp only [ne_eq, h1, not_false_eq_true, if_true]⟩
  by_cases h2 : env.create.val = 0
  case neg =>
    exact .inr (.inl ⟨h1, h2, by simp only [ne_eq, h1, h2, not_true, not_false_eq_true, if_true,
      if_false]⟩)
  by_cases h3 : env.attach.val = 0
  case neg =>
    exact .inr (.inr (.inl ⟨h1, h2, h3, by simp only [ne_eq, h1, h2, h3, not_true,
      not_false_eq_true, if_true, if_false]⟩))
  simp only [ne_eq, h1, h2, h3, not_true, if_false, and_self, true_and]
  by_cases h4 : env.mapFd < 0
  · exact .inr (.inr (.inr (.inl ⟨h4, by rw [if_pos h4]; rfl⟩)))
  · rw [if_neg h4]
    cases hr : env.setrlimit with
    | some e => exact .inr (.inr (.inr (.inr (.inl ⟨by omega, e, rfl, rfl⟩))))
    | none => exact .inr (.inr (.inr (.inr (.inr ⟨by omega, rfl, rfl⟩))))

/-- How `afxdp_init` ends, and what it leaves behind. -/
structure InitResult (p : Proc) (cfg : AfxdpConfig) (env : InitEnv) (lost : List (Res × Nat))
    (r : Int × Proc) : Prop where
  accounted : r.2.Accounted lost
  oneBuffer : r.2.OneBuffer
  attached : (∃ x, r.2.ctx.xdpProg = .prog (some x)) ↔ env.Attaches cfg
  ok : env.Attaches cfg → env.Completes cfg p → r.1 = 0 ∧ r.2.Ready
  failed : ¬ (env.Attaches cfg ∧ env.Completes cfg p) →
    r.1 ≠ 0 ∧ r.2.ctx.umem = none ∧ r.2.ctx.xskSocket = none
  sign : r.1 ≠ 0 → (r.1 < 0 ↔ afxdpPreflightChecks env.sys cfg ≠ 0 ∨ env.create.val = 0)
  early : ¬ env.Attaches cfg → r.2.led = p.led

/-- A failure that leaves the context without UMEM and socket. -/
theorem InitResult.of_failed {r : Int × Proc} (ha : r.2.Accounted lost) (ho : r.2.OneBuffer)
    (hat : (∃ x, r.2.ctx.xdpProg = .prog (some x)) ↔ env.Attaches cfg)
    (hno : ¬ (env.Attaches cfg ∧ env.Completes cfg p)) (hr : r.1 ≠ 0)
    (hu : r.2.ctx.umem = none) (hs : r.2.ctx.xskSocket = none)
    (hsign : r.1 < 0 ↔ afxdpPreflightChecks env.sys cfg ≠ 0 ∨ env.create.val = 0)
    (hearly : ¬ env.Attaches cfg → r.2.led = p.led) : InitResult p cfg env lost r where
  accounted := ha
  oneBuffer := ho
  attached := hat
  ok h1 h2 := absurd ⟨h1, h2⟩ hno
  failed _ := ⟨hr, hu, hs⟩
  sign _ := hsign
  early := hearly

theorem init_spec (cfg : AfxdpConfig) (env : InitEnv) (hp : p.Clean) (h : p.Accounted lost)
    (ho : p.OneBuffer) :
    InitResult p cfg env lost (p.afxdpInit cfg env) := by
  have hatt := attached_accounted cfg env hp h
  have hone : (p.attached cfg env).OneBuffer := by
    rw [OneBuffer] at ho ⊢
    simp only [attached, Ledger.acquired_acquire, isBuffer, Bool.false_eq_true, if_false,
      Nat.add_zero]
    exact ho
  rcases init_cases p cfg env with ⟨h1, he⟩ | ⟨h1, h2, he⟩ |
    ⟨h1, h2, h3, he⟩ | ⟨h1, h2, he⟩ | ⟨h1, h2, e, h3, he⟩ | ⟨h1, h2, h3, he⟩ <;> rw [he]
  · have hnp := preflight_nonpos env.sys cfg
    refine .of_failed h ho ?_ (fun hh => h1 hh.1.1) h1 hp.umem hp.xskSocket ?_ fun _ => rfl
    · simp only [hp.xdpProg]
      exact iff_of_false (by simp) fun hh => h1 hh.1
    · exact iff_of_true (by show afxdpPreflightChecks env.sys cfg < 0; omega) (.inl h1)
  · have hnp := env.create.nonpos
    refine .of_failed ?_ ho ?_ (fun hh => h2 hh.1.2.1) ?_ hp.umem hp.xskSocket ?_ fun _ => rfl
    · rw [Accounted, held, hp.xdpProg] at h
      exact h
    · exact iff_of_false (by simp) fun hh => h2 hh.2.1
    · show -env.create.val ≠ 0
      omega
    · refine iff_of_false ?_ fun hh => hh.elim (fun hh => hh h1) fun hh => h2 hh
      show ¬ -env.create.val < 0
      omega
  · have hnp := env.attach.nonpos
    refine .of_failed ?_ ho ?_ (fun hh => h3 hh.1.2.2) h3 hp.umem hp.xskSocket ?_ fun _ => rfl
    · rw [Accounted, held, hp.xdpProg] at h
      exact h
    · exact iff_of_false (by simp) fun hh => h3 hh.2.2
    · exact iff_of_true (by show env.attach.val < 0; omega) (.inr h2)
  · refine .of_failed hatt hone (iff_of_true ⟨_, rfl⟩ h1) ?_ (by show -eNOENT ≠ 0; decide) hp.umem
      hp.xskSocket (iff_of_true (by show -eNOENT < 0; decide) (.inr h1.2.1)) (absurd h1)
    intro hh
    have := hh.2.mapFd
    omega
  · have hpos := e.pos
    refine .of_failed hatt hone (iff_of_true ⟨_, rfl⟩ h1) ?_ (by show -e.val ≠ 0; omega) hp.umem
      hp.xskSocket (iff_of_true (by show -e.val < 0; omega) (.inr h1.2.1)) (absurd h1)
    intro hh
    rw [hh.2.setrlimit] at h3
    cases h3
  · obtain ⟨hst, hend⟩ := initUmem_spec env hatt hone hp.umem hp.xskSocket
    have hprog := hst.xdpProg
    rcases hend with ⟨r1, r2, r3, r4⟩ | ⟨r1, r2, r3, r4⟩
    · have hfd : 0 ≤ ((p.attached cfg env).afxdpInitUmem env).2.ctx.xskMapFd := by
        rw [hst.xskMapFd]; exact h2
      exact {
        accounted := hst.accounted
        oneBuffer := hst.oneBuffer
        attached := iff_of_true ⟨_, hprog⟩ h1
        ok := fun _ _ => ⟨r1, ready_of_accounted hst.accounted hprog hfd r3 r4⟩
        failed := fun hno => absurd ⟨h1, h2, h3, r2.1, r2.2.1, r2.2.2⟩ hno
        sign := fun hne => absurd r1 hne
        early := absurd h1 }
    · refine .of_failed hst.accounted hst.oneBuffer (iff_of_true ⟨_, hprog⟩ h1) ?_ (by omega) r3 r4
        (iff_of_true r1 (.inr h1.2.1)) (absurd h1)
      exact fun hh => r2 ⟨hh.2.buffer, hh.2.umem, hh.2.socket⟩

/-! ## Cleanup -/

theorem accounted_buffer {h : Nat} (ha : p.Accounted lost) (hb : p.ctx.packetBuffer = some h) :
    Accounted { ctx := { p.ctx with packetBuffer := none }
                led := p.led.release (bufferRes p.ctx.useHugepages) h } lost := by
  refine (Ledger.Holds.perm ha (?_ : List.Perm _ ((bufferRes p.ctx.useHugepages, h) :: _))).release
  simp only [held, hb, heldPtr]
  grind

/-- A program is lost when its detach fails. -/
theorem cleanupProgram_spec (h : p.Accounted lost) (detach : LibResult) :
    ∃ lost', (p.cleanupProgram detach).Accounted lost' ∧
      (lost' = [] ↔ lost = [] ∧
        ((∃ x, p.ctx.xdpProg = .prog (some x)) → detach.val = 0)) ∧
      (p.cleanupProgram detach).ctx = { p.ctx with xdpProg := .null } ∧
      (p.cleanupProgram detach).led.acquired isBuffer = p.led.acquired isBuffer := by
  unfold cleanupProgram
  rw [Accounted, held] at h
  split
  case h_1 hx =>
    rw [hx] at h
    refine ⟨lost, ?_, by simp [hx], by rw [← hx], rfl⟩
    rw [Accounted, held, hx]
    exact h
  case h_2 x hx =>
    rw [hx] at h
    by_cases hd : detach.val = 0
    · rw [if_pos hd]
      exact ⟨lost, Ledger.Holds.release h, by simp [hd], rfl, Ledger.acquired_release _ _ _ _⟩
    · rw [if_neg hd]
      refine ⟨(.program, x) :: lost, h.perm ?_, by simp [hd, hx], rfl, rfl⟩
      simp only [heldProg, held]
      grind
  all_goals
    next hx =>
    rw [hx] at h
    exact ⟨lost, h, by simp [hx], rfl, rfl⟩

theorem cleanupSocket_spec (h : p.Accounted lost) :
    p.cleanupSocket.Accounted lost ∧ p.cleanupSocket.ctx = { p.ctx with xskSocket := none } ∧
      p.cleanupSocket.led.acquired isBuffer = p.led.acquired isBuffer := by
  unfold cleanupSocket
  split
  case h_1 hs => exact ⟨h, by rw [← hs], rfl⟩
  case h_2 x hs => exact ⟨accounted_socket h hs, rfl, Ledger.acquired_release _ _ _ _⟩

theorem cleanupUmem_spec (h : p.Accounted lost) :
    p.cleanupUmem.Accounted lost ∧ p.cleanupUmem.ctx = { p.ctx with umem := none } ∧
      p.cleanupUmem.led.acquired isBuffer = p.led.acquired isBuffer := by
  unfold cleanupUmem
  split
  case h_1 hu => exact ⟨h, by rw [← hu], rfl⟩
  case h_2 x hu => exact ⟨accounted_umem h hu, rfl, Ledger.acquired_release _ _ _ _⟩

theorem cleanupBuffer_spec (h : p.Accounted lost) :
    (p.cleanupBuffer true).Accounted lost ∧
      (p.cleanupBuffer true).ctx = { p.ctx with packetBuffer := none } ∧
      (p.cleanupBuffer true).led.acquired isBuffer = p.led.acquired isBuffer := by
  unfold cleanupBuffer
  split
  case h_1 x _ hb => exact ⟨accounted_buffer h hb, rfl, Ledger.acquired_release _ _ _ _⟩
  case h_2 hno =>
    have hb : p.ctx.packetBuffer = none := by
      cases hb : p.ctx.packetBuffer with
      | none => rfl
      | some x => exact absurd hb (hno x rfl)
    exact ⟨h, by rw [← hb], rfl⟩

/-- `afxdp_cleanup(false)` leaves a clean context that keeps its buffer. -/
theorem cleanup_false_spec (h : p.Accounted lost) (ho : p.OneBuffer) (detach : LibResult) :
    ∃ lost', (p.afxdpCleanup false detach).Accounted lost' ∧
      (lost' = [] ↔ lost = [] ∧
        ((∃ x, p.ctx.xdpProg = .prog (some x)) → detach.val = 0)) ∧
      (p.afxdpCleanup false detach).Clean ∧ (p.afxdpCleanup false detach).OneBuffer := by
  obtain ⟨lost', h1, hl, c1, n1⟩ := cleanupProgram_spec h detach
  obtain ⟨h2, c2, n2⟩ := cleanupSocket_spec h1
  obtain ⟨h3, c3, n3⟩ := cleanupUmem_spec h2
  have hcut : p.afxdpCleanup false detach = (p.cleanupProgram detach).cleanupSocket.cleanupUmem := by
    unfold afxdpCleanup cleanupBuffer
    rfl
  rw [hcut]
  refine ⟨lost', h3, hl, ⟨by rw [c3], by rw [c3, c2], by rw [c3, c2, c1]⟩, ?_⟩
  rw [OneBuffer] at ho ⊢
  rw [n3, n2, n1, ho, c3, c2, c1]

/-- After `afxdp_cleanup(true)` only what was lost is still held. -/
theorem cleanup_true_spec (h : p.Accounted lost) (detach : LibResult) :
    ∃ lost', (p.afxdpCleanup true detach).led.Holds lost' ∧
      (lost' = [] ↔ lost = [] ∧
        ((∃ x, p.ctx.xdpProg = .prog (some x)) → detach.val = 0)) ∧
      (p.afxdpCleanup true detach).led.acquired isBuffer = p.led.acquired isBuffer := by
  obtain ⟨lost', h1, hl, c1, n1⟩ := cleanupProgram_spec h detach
  obtain ⟨h2, c2, n2⟩ := cleanupSocket_spec h1
  obtain ⟨h3, c3, n3⟩ := cleanupUmem_spec h2
  obtain ⟨h4, c4, n4⟩ := cleanupBuffer_spec h3
  refine ⟨lost', ?_, hl, n4.trans (n3.trans (n2.trans n1))⟩
  rw [Accounted, held, c4, c3, c2, c1] at h4
  exact h4

/-! ## Threads -/

/-- A thread id that was never written has been joined. -/
def Wild (l : Ledger Res) : Prop :=
  l.log.count (.acquire .uninitThread 0) < l.log.count (.release .uninitThread 0)

theorem wild_release {l : Ledger Res} (h : Wild l) (r : Res) (x : Nat) : Wild (l.release r x) := by
  simp only [Wild, Ledger.release, List.count_append, List.count_cons, List.count_nil, beq_iff_eq,
    reduceCtorEq, if_false] at h ⊢
  omega

theorem wild_uninit {l : Ledger Res} {held : List (Res × Nat)} (h : l.Holds held)
    (hno : (.uninitThread, 0) ∉ held) : Wild (l.release .uninitThread 0) := by
  have h1 := h.count .uninitThread 0
  rw [List.count_eq_zero.mpr hno] at h1
  simp only [Wild, Ledger.release, List.count_append, List.count_cons, List.count_nil, beq_iff_eq,
    reduceCtorEq, if_false, if_true]
  omega

theorem wild_joinThread (h : Wild p.led) (id : Option Nat) : Wild (p.joinThread id).led := by
  unfold joinThread
  split <;> exact wild_release h _ _

theorem wild_cleanup (h : Wild p.led) (final : Bool) (detach : LibResult) :
    Wild (p.afxdpCleanup final detach).led := by
  have h1 : Wild (p.cleanupProgram detach).led := by
    unfold cleanupProgram
    split
    · exact h
    · show Wild (if detach.val = 0 then _ else _)
      split
      · exact wild_release h _ _
      · exact h
    · exact h
    · exact h
  have h2 : Wild (p.cleanupProgram detach).cleanupSocket.led := by
    unfold cleanupSocket
    split
    · exact h1
    · exact wild_release h1 _ _
  have h3 : Wild (p.cleanupProgram detach).cleanupSocket.cleanupUmem.led := by
    unfold cleanupUmem
    split
    · exact h2
    · exact wild_release h2 _ _
  unfold afxdpCleanup cleanupBuffer
  split
  · exact wild_release h3 _ _
  · exact h3

theorem not_balanced_of_wild {l : Ledger Res} (h : Wild l) : ¬ l.Balanced :=
  Ledger.not_balanced_of_count_lt h

theorem createThread_ok (h : p.Accounted lost) :
    ∃ x, (p.createThread 0).1 = some x ∧ (p.createThread 0).2.Accounted ((.thread, x) :: lost) ∧
      (p.createThread 0).2.ctx = p.ctx := by
  refine ⟨_, rfl, (Ledger.Holds.acquire h .thread).perm ?_, rfl⟩
  exact List.perm_middle.symm

theorem createThread_failed (h : p.Accounted lost) {err : Nat} (he : err ≠ 0) :
    (p.createThread err).1 = none ∧ (p.createThread err).2.Accounted lost ∧
      (p.createThread err).2.ctx.xdpProg = p.ctx.xdpProg := by
  unfold createThread
  rw [if_pos he]
  exact ⟨rfl, h, rfl⟩

theorem joinThread_some (x : Nat) (rest : List (Res × Nat)) (h : p.Accounted lost)
    (hp : lost.Perm ((.thread, x) :: rest)) : (p.joinThread (some x)).Accounted rest := by
  refine (Ledger.Holds.perm h (?_ : List.Perm _ ((.thread, x) :: (p.held ++ rest)))).release
  exact (hp.append_left _).trans List.perm_middle

theorem joinThread_ctx (id : Option Nat) : (p.joinThread id).ctx = p.ctx := by cases id <;> rfl

theorem uninit_not_held (p : Proc) : (.uninitThread, 0) ∉ p.held := by
  have hb : Res.uninitThread ≠ bufferRes p.ctx.useHugepages := by
    cases p.ctx.useHugepages <;> simp [bufferRes]
  simp only [held, List.mem_append, not_or]
  refine ⟨?_, ?_, ?_, ?_⟩
  · cases p.ctx.xdpProg with
    | prog x => cases x <;> simp [heldProg]
    | _ => simp [heldProg]
  · cases p.ctx.xskSocket <;> simp [heldPtr]
  · cases p.ctx.umem <;> simp [heldPtr]
  · cases p.ctx.packetBuffer <;> simp [heldPtr, hb]

theorem joinThread_none (h : p.Accounted lost) (hno : (.uninitThread, 0) ∉ lost) :
    Wild (p.joinThread none).led := by
  refine wild_uninit h ?_
  simp only [List.mem_append, not_or]
  exact ⟨uninit_not_held p, hno⟩

/-- With a socket the RX thread does not crash. -/
theorem run_ne_none (h : p.ctx.xskSocket ≠ none) (env : RunEnv) : p.afxdpRun env ≠ none := by
  unfold afxdpRun
  by_cases h0 : env.rxCreate = 0 <;> simp [h0, h]

/-- The threads that were created are joined, and one id too many for each that
was not. -/
theorem run_spec {env : RunEnv} {r : Int × Proc} (h : p.Accounted [])
    (hr : p.afxdpRun env = some r) :
    r.2.ctx.xdpProg = p.ctx.xdpProg ∧
      ((env.rxCreate ≠ 0 ∨ (env.mgrCreate = 0 ∧ env.wakeupCreate = 0)) → r.2.Accounted []) ∧
      (¬ (env.rxCreate ≠ 0 ∨ (env.mgrCreate = 0 ∧ env.wakeupCreate = 0)) → Wild r.2.led) := by
  unfold afxdpRun at hr
  by_cases hrx : env.rxCreate = 0
  case neg =>
    obtain ⟨-, ha, hc⟩ := createThread_failed h hrx
    simp only [ne_eq, hrx, not_false_eq_true, if_true, Option.some.injEq] at hr
    subst hr
    exact ⟨hc, fun _ => ha, fun hno => absurd (.inl hrx) hno⟩
  obtain ⟨x, hx, h1, c1⟩ := createThread_ok h
  simp only [ne_eq, hrx, not_true, if_false, hx] at hr
  split at hr
  · cases hr
  simp only [Option.some.injEq] at hr
  subst hr
  simp only [joinThread_ctx, ne_eq, hrx, not_true, false_or]
  by_cases hm : env.mgrCreate = 0 <;> by_cases hw : env.wakeupCreate = 0
  · obtain ⟨y, hy, h2, c2⟩ := createThread_ok h1
    obtain ⟨z, hz, h3, c3⟩ := createThread_ok h2
    rw [hm, hw, hy, hz]
    refine ⟨by rw [c3, c2, c1], fun _ => ?_, fun hno => absurd ⟨rfl, rfl⟩ hno⟩
    have j1 := joinThread_some x [(.thread, z), (.thread, y)] h3 (by grind)
    have j2 := joinThread_some y [(.thread, z)] j1 (by grind)
    exact joinThread_some z [] j2 (by grind)
  · obtain ⟨y, hy, h2, c2⟩ := createThread_ok h1
    obtain ⟨hz, h3, c3⟩ := createThread_failed h2 hw
    rw [hm, hy, hz]
    refine ⟨by rw [c3, c2, c1], fun hh => absurd hh.2 hw, fun _ => ?_⟩
    have j1 := joinThread_some x [(.thread, y)] h3 (by grind)
    exact joinThread_none (joinThread_some y [] j1 (by grind)) (by simp)
  · obtain ⟨hy, h2, c2⟩ := createThread_failed h1 hm
    obtain ⟨z, hz, h3, c3⟩ := createThread_ok h2
    rw [hw, hy, hz]
    refine ⟨by rw [c3, c2, c1], fun hh => absurd hh.1 hm, fun _ => ?_⟩
    have j1 := joinThread_some x [(.thread, z)] h3 (by grind)
    exact wild_joinThread (joinThread_none j1 (by simp)) _
  · obtain ⟨hy, h2, c2⟩ := createThread_failed h1 hm
    obtain ⟨hz, h3, c3⟩ := createThread_failed h2 hw
    rw [hy, hz]
    refine ⟨by rw [c3, c2, c1], fun hh => absurd hh.1 hm, fun _ => ?_⟩
    have j1 := joinThread_some x [] h3 (by grind)
    exact wild_joinThread (joinThread_none j1 (by simp)) _

end Proc

/-! ## Cycles of init and cleanup -/

/-- One cycle: a program is lost when it was attached and its detach failed. -/
theorem Cycle.exec_spec (c : Cycle) {p : Proc} {lost : List (Res × Nat)} (hp : p.Clean)
    (h : p.Accounted lost) (ho : p.OneBuffer) :
    ∃ lost', (c.exec p).Accounted lost' ∧
      (lost' = [] ↔ lost = [] ∧ (c.init.Attaches c.cfg → c.detach.val = 0)) ∧
      (c.exec p).Clean ∧ (c.exec p).OneBuffer := by
  have hi := Proc.init_spec c.cfg c.init hp h ho
  obtain ⟨lost', h1, h2, h3, h4⟩ := Proc.cleanup_false_spec hi.accounted hi.oneBuffer c.detach
  rw [hi.attached] at h2
  exact ⟨lost', h1, h2, h3, h4⟩

/-- Any number of cycles, one after the other. -/
theorem cycles_spec (cycles : List Cycle) : ∀ {p : Proc} {lost : List (Res × Nat)}, p.Clean →
    p.Accounted lost → p.OneBuffer →
    ∃ lost', (cycles.foldl (fun p (c : Cycle) => c.exec p) p).Accounted lost' ∧
      (lost' = [] ↔ lost = [] ∧
        ∀ c ∈ cycles, c.init.Attaches c.cfg → c.detach.val = 0) ∧
      (cycles.foldl (fun p (c : Cycle) => c.exec p) p).Clean ∧
      (cycles.foldl (fun p (c : Cycle) => c.exec p) p).OneBuffer := by
  induction cycles with
  | nil =>
    intro p lost hp h ho
    exact ⟨lost, h, by simp, hp, ho⟩
  | cons c cs ih =>
    intro p lost hp h ho
    obtain ⟨lost1, h1, l1, p1, o1⟩ := c.exec_spec hp h ho
    obtain ⟨lost2, h2, l2, p2, o2⟩ := ih p1 h1 o1
    refine ⟨lost2, h2, ?_, p2, o2⟩
    rw [l2, l1]
    simp only [List.mem_cons, forall_eq_or_imp, and_assoc]

theorem zeroed_clean : ({} : Proc).Clean := ⟨rfl, rfl, rfl⟩

theorem zeroed_accounted : ({} : Proc).Accounted [] := Ledger.holds_empty

theorem zeroed_oneBuffer : ({} : Proc).OneBuffer := rfl

/-! ## The contract of `afxdp_init` -/

/-- What the header promises of one call, and what `main` makes of it. -/
structure InitContract (p : Proc) (cfg : AfxdpConfig) (env : InitEnv) : Prop where
  zero_iff : (p.afxdpInit cfg env).1 = 0 ↔ (p.afxdpInit cfg env).2.Ready
  negative : (p.afxdpInit cfg env).1 ≠ 0 → (p.afxdpInit cfg env).1 < 0
  enters : ∀ q, mainEntersRun cfg env = some q → q.ctx.xskSocket ≠ none ∧ q.ctx.umem ≠ none

/-- **Initialisation contract.** After any cycles and for every outcome of the
external calls, `afxdp_init` keeps its contract exactly when the program can be
loaded or a pre-flight check fails before that. -/
theorem init_contract_iff (cycles : List Cycle) (cfg : AfxdpConfig) (env : InitEnv) :
    InitContract (afterCycles cycles) cfg env ↔
      afxdpPreflightChecks env.sys cfg ≠ 0 ∨ env.create.val = 0 := by
  obtain ⟨lost, h, -, hp, ho⟩ := cycles_spec cycles zeroed_clean zeroed_accounted zeroed_oneBuffer
  have hi := Proc.init_spec cfg env hp h ho
  have hm := Proc.init_spec cfg env zeroed_clean zeroed_accounted zeroed_oneBuffer
  constructor
  · intro hc
    by_contra hno
    have hat : ¬ (env.Attaches cfg ∧ env.Completes cfg (afterCycles cycles)) :=
      fun hh => hno (.inr hh.1.2.1)
    have hne := (hi.failed hat).1
    exact hno ((hi.sign hne).mp (hc.negative hne))
  · intro hcond
    refine ⟨⟨?_, ?_⟩, fun hne => (hi.sign hne).mpr hcond, ?_⟩
    · intro hz
      by_cases hat : env.Attaches cfg ∧ env.Completes cfg (afterCycles cycles)
      · exact (hi.ok hat.1 hat.2).2
      · exact absurd hz (hi.failed hat).1
    · intro hready
      by_cases hat : env.Attaches cfg ∧ env.Completes cfg (afterCycles cycles)
      · exact (hi.ok hat.1 hat.2).1
      · exact absurd (hi.failed hat).2.1 (Proc.isSome_of_ready hready).1
    · intro q hq
      simp only [mainEntersRun] at hq
      split at hq
      case isTrue => cases hq
      case isFalse hlt =>
        cases hq
        by_cases hat : env.Attaches cfg ∧ env.Completes cfg {}
        · exact (Proc.isSome_of_ready (hm.ok hat.1 hat.2).2).symm
        · exact absurd ((hm.sign (hm.failed hat).1).mpr hcond) hlt

def quietSys : Sysfs where
  operstate _ := true
  driver _ := none
  queues _ := none
  readable _ := true
  major := 5
  minor := 15

def quietInit : InitEnv where
  sys := quietSys
  create := ⟨0, by decide⟩
  attach := ⟨0, by decide⟩
  mapFd := 4
  setrlimit := none
  mmap := true
  memalign := true
  callocUmem := true
  umemCreate := ⟨0, by decide⟩
  callocSocket := true
  socketCreate := ⟨0, by decide⟩
  updateXskmap := ⟨0, by decide⟩
  reserveFill := 8192

/-- What the command line without options gives. -/
def plainCfg : AfxdpConfig := (afxdpParseArgs (fun _ => 1) []).getD {}

/-- The object file does not load: `-ENOENT` comes back as a positive number and
`main` goes on without a socket. -/
theorem init_create_failed :
    ¬ InitContract {} plainCfg { quietInit with create := ⟨-2, by decide⟩ } ∧
      ((mainEntersRun plainCfg { quietInit with create := ⟨-2, by decide⟩ }).map
        fun p => p.ctx.xskSocket) = some none := by
  have hret : (Proc.afxdpInit plainCfg { quietInit with create := ⟨-2, by decide⟩ } {}).1 = 2 := by
    decide
  refine ⟨fun hc => ?_, by decide⟩
  have := hc.negative (by rw [hret]; decide)
  rw [hret] at this
  exact absurd this (by decide)

/-! ## What outlives the process -/

/-- When `main` returns, everything acquired was released once, the right way,
and exactly the threads created were joined. -/
def MainReleases (env : MainEnv) : Prop :=
  ∀ ret led, afxdpMain env = .returned ret led → led.Balanced

/-- If the program gets attached, the rest of the initialisation succeeds, no
thread but the first fails to start, and the detach succeeds. -/
def MainClean (env : MainEnv) : Prop :=
  ∀ cfg, afxdpParseArgs env.ifNametoindex env.opts = some cfg → env.init.Attaches cfg →
    env.init.Completes cfg {} ∧
      (env.run.rxCreate ≠ 0 ∨ (env.run.mgrCreate = 0 ∧ env.run.wakeupCreate = 0)) ∧
      env.detach.val = 0

/-- The same after any cycles and the final cleanup, with one packet buffer. -/
def CyclesRelease (cycles : List Cycle) (detach : LibResult) : Prop :=
  (modeSwitches cycles detach).led.Balanced ∧
    (modeSwitches cycles detach).led.acquired Proc.isBuffer ≤ 1

theorem mainReleases_of_run {env : MainEnv} {cfg : AfxdpConfig} {p : Proc} (h : p.Accounted [])
    (hcfg : afxdpParseArgs env.ifNametoindex env.opts = some cfg)
    (hp : mainEntersRun cfg env.init = some p) {r : Int × Proc}
    (hr : p.afxdpRun env.run = some r) :
    MainReleases env ↔
      (env.run.rxCreate ≠ 0 ∨ (env.run.mgrCreate = 0 ∧ env.run.wakeupCreate = 0)) ∧
        ((∃ x, p.ctx.xdpProg = .prog (some x)) → env.detach.val = 0) := by
  obtain ⟨hprog, hgood, hwild⟩ := Proc.run_spec h hr
  have hmain : afxdpMain env = .returned r.1 (r.2.afxdpCleanup true env.detach).led := by
    simp only [afxdpMain, hcfg, hp, hr]
  have hiff : MainReleases env ↔ (r.2.afxdpCleanup true env.detach).led.Balanced := by
    constructor
    · exact fun hm => hm _ _ hmain
    · intro hb ret led he
      rw [hmain] at he
      cases he
      exact hb
  rw [hiff]
  by_cases hth : env.run.rxCreate ≠ 0 ∨ (env.run.mgrCreate = 0 ∧ env.run.wakeupCreate = 0)
  · obtain ⟨lost, hl, hz, -⟩ := Proc.cleanup_true_spec (hgood hth) env.detach
    rw [hl.balanced_iff, hz, hprog]
    simp only [hth, true_and]
  · exact iff_of_false (Proc.not_balanced_of_wild (Proc.wild_cleanup (hwild hth) _ _))
      fun hh => hth hh.1

/-- Initialisation failed visibly: `main` returns without cleaning up. -/
theorem mainReleases_of_failed {env : MainEnv} {cfg : AfxdpConfig}
    (hcfg : afxdpParseArgs env.ifNametoindex env.opts = some cfg)
    (hlt : (Proc.afxdpInit cfg env.init {}).1 < 0) :
    MainReleases env ↔ ¬ env.init.Attaches cfg := by
  have hi := Proc.init_spec cfg env.init zeroed_clean zeroed_accounted zeroed_oneBuffer
  have hent : mainEntersRun cfg env.init = none := by
    simp only [mainEntersRun, if_pos hlt]
  have hmain : afxdpMain env = .returned (-1) (Proc.afxdpInit cfg env.init {}).2.led := by
    simp only [afxdpMain, hcfg, hent]
  constructor
  · intro hm hat
    obtain ⟨x, hx⟩ := hi.attached.mpr hat
    have hb := (Ledger.Holds.balanced_iff hi.accounted).mp (hm _ _ hmain)
    rw [Proc.held, hx] at hb
    cases hb
  · intro hat ret led he
    rw [hmain] at he
    cases he
    rw [hi.early hat]
    exact (Ledger.Holds.balanced_iff Ledger.holds_empty).mpr rfl

/-- An attached program with a failure behind it is reported to `main`. -/
theorem completes_of_attaches {cfg : AfxdpConfig} {env : InitEnv} (hat : env.Attaches cfg)
    (hlt : ¬ (Proc.afxdpInit cfg env {}).1 < 0) : env.Completes cfg {} := by
  have hi := Proc.init_spec cfg env zeroed_clean zeroed_accounted zeroed_oneBuffer
  by_contra hco
  have hf := hi.failed fun hh => hco hh.2
  exact hlt ((hi.sign hf.1).mpr (.inr hat.2.1))

theorem mainReleases_iff (env : MainEnv) : MainReleases env ↔ MainClean env := by
  cases hcfg : afxdpParseArgs env.ifNametoindex env.opts with
  | none =>
    refine iff_of_true ?_ ?_
    · intro ret led he
      simp only [afxdpMain, hcfg] at he
      cases he
    · intro cfg he
      rw [hcfg] at he
      cases he
  | some cfg =>
    have hclean : MainClean env ↔ (env.init.Attaches cfg → env.init.Completes cfg {} ∧
        (env.run.rxCreate ≠ 0 ∨ (env.run.mgrCreate = 0 ∧ env.run.wakeupCreate = 0)) ∧
        env.detach.val = 0) := by
      unfold MainClean
      rw [hcfg]
      simp
    rw [hclean]
    have hi := Proc.init_spec cfg env.init zeroed_clean zeroed_accounted
      zeroed_oneBuffer
    by_cases hlt : (Proc.afxdpInit cfg env.init {}).1 < 0
    · rw [mainReleases_of_failed hcfg hlt]
      refine ⟨fun hno hat => absurd hat hno, fun hh hat => ?_⟩
      have := (hi.ok hat (hh hat).1).1
      omega
    · have hent : mainEntersRun cfg env.init = some (Proc.afxdpInit cfg env.init {}).2 := by
        simp only [mainEntersRun, if_neg hlt]
      cases hr : (Proc.afxdpInit cfg env.init {}).2.afxdpRun env.run with
      | none =>
        -- The RX thread crashes; that takes a failed initialisation.
        refine iff_of_true (fun ret led he => ?_) fun hat => ?_
        · simp only [afxdpMain, hcfg, hent, hr] at he
          cases he
        · have hready := (hi.ok hat (completes_of_attaches hat hlt)).2
          exact absurd hr (Proc.run_ne_none (Proc.isSome_of_ready hready).2 env.run)
      | some r =>
        rw [mainReleases_of_run hi.accounted hcfg hent hr, hi.attached]
        by_cases hat : env.init.Attaches cfg
        · have hco := completes_of_attaches hat hlt
          simp only [hat, hco, true_and, true_implies]
        · -- Nothing was attached, so the RX thread was never started.
          have hth : env.run.rxCreate ≠ 0 := by
            intro h0
            have hnone := (hi.failed fun hh => hat hh.1).2.2
            simp only [Proc.afxdpRun, h0, ne_eq, not_true, if_false, hnone, if_true] at hr
            cases hr
          simp only [hat, false_implies, and_true, iff_true]
          exact .inl hth

theorem cyclesRelease_iff (cycles : List Cycle) (detach : LibResult) :
    CyclesRelease cycles detach ↔ ∀ c ∈ cycles, c.init.Attaches c.cfg → c.detach.val = 0 := by
  obtain ⟨lost, h, hl, hp, ho⟩ := cycles_spec cycles zeroed_clean zeroed_accounted zeroed_oneBuffer
  obtain ⟨lost', h', hl', hn⟩ := Proc.cleanup_true_spec h detach
  have hle : (afterCycles cycles).led.acquired Proc.isBuffer ≤ 1 := by
    have : (afterCycles cycles).led.acquired Proc.isBuffer = _ := ho
    rw [this]
    split <;> omega
  have hnull : (∃ x, (afterCycles cycles).ctx.xdpProg = .prog (some x)) → detach.val = 0 := by
    rintro ⟨x, hx⟩
    have : (afterCycles cycles).ctx.xdpProg = .null := hp.xdpProg
    rw [this] at hx
    cases hx
  have hbal : (modeSwitches cycles detach).led.Balanced ↔ lost' = [] := h'.balanced_iff
  have hone : (modeSwitches cycles detach).led.acquired Proc.isBuffer ≤ 1 := hn.trans_le hle
  rw [CyclesRelease, hbal, hl', hl]
  simp only [hone, and_true, true_and]
  exact ⟨fun hh => hh.1, fun hh => ⟨hh, hnull⟩⟩

/-- **No resource outlives the process or is released twice**, exactly when:
for `main`, an attached program is followed by a complete initialisation, no
thread but the first fails to start and the detach succeeds; for cycles of init
and cleanup, every detach of an attached program succeeds. -/
theorem resources_released_iff (env : MainEnv) (cycles : List Cycle) (detach : LibResult) :
    (MainReleases env ↔ MainClean env) ∧
      (CyclesRelease cycles detach ↔
        ∀ c ∈ cycles, c.init.Attaches c.cfg → c.detach.val = 0) :=
  ⟨mainReleases_iff env, cyclesRelease_iff cycles detach⟩

/-- The socket cannot be created: `main` returns with the program attached and
the packet buffer mapped. -/
theorem main_leaks_attachment : ¬ MainReleases {
    opts := []
    ifNametoindex := fun _ => 1
    init := { quietInit with socketCreate := ⟨-16, by decide⟩ }
    run := ⟨0, 0, 0⟩
    detach := ⟨0, by decide⟩ } := by
  intro hm
  have hb := hm (-1) ⟨3, [.acquire .program 0, .acquire .hugeBuffer 1, .acquire .umem 2,
    .release .umem 2]⟩ rfl
  exact absurd (hb .program 0).1 (by decide)

end Onvm.Afxdp

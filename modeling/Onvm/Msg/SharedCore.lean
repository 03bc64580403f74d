import Onvm.Msg.Mailbox
import Onvm.Pkt.Common

/-!
# Sleeping and waking in shared core mode

An NF that finds its rings empty announces that it sleeps and waits on its
semaphore. Three kinds of threads wake it: the wakeup threads of the manager, its
master thread at shutdown, and the process of the NF itself
(`onvm_nflib_handle_signal`, `onvm_nflib_terminate_children`). Each access to the
rings, to `sleep_state`, to the semaphore and to `worker_keep_running` is a step.
The shutdown stops the wakeup threads and then looks at `sleep_state` once, so that
an NF between its test and its announcement sleeps for good (`lostStop`);
`no_lost_wakeup` says when nothing is lost.
-/

namespace Onvm.Msg.SharedCore

open Onvm.Lib Onvm.Nflib

def pktWakeupThreshold : Nat := 1

def msgWakeupThreshold : Nat := 1

def onvmNumWakeupThreads : Nat := 1

/-- What the `rx_q` of an NF (`NF_QUEUE_RINGSIZE`) holds. -/
def rxRingCapacity : Nat := 16384 - 1

/-! ## The parties -/

/-- `onvm_nflib_thread_main_loop`, from the wait for the manager on: `head` is the
loop condition, `rxTest` to `wait` is the sleeping, `actions` what comes after the
messages. `off` is a slot without an NF. -/
inductive NfPc where
  | off
  | ready
  | head
  | rxTest
  | msgTest
  | announce
  | wait
  | deqPkts
  | deqMsgs
  | actions
  | done
  deriving DecidableEq, Repr

/-- A slot of `nfs` with what its NF and its wakers share. `keepRunning` is true while
both flags of the loop condition are. -/
structure Nf where
  status : NfStatus
  rxQ : Nat
  msgQ : List MsgType
  sleepState : Bool
  sem : Nat
  keepRunning : Bool
  pc : NfPc
  deriving DecidableEq, Repr

/-- How every waker wakes an NF: read `sleep_state`, set it to 0, post. -/
inductive WakePc where
  | test
  | clear
  | post
  deriving DecidableEq, Repr

inductive WakerPc where
  | loop
  | status (i : Nat)
  | rxQ (i : Nat)
  | msgQ (i : Nat)
  | wake (i : Nat) (p : WakePc)
  | done
  deriving DecidableEq, Repr

/-- `master_thread_main`: `running` is the loop in which it handles messages, and
`waiting` the one in which it does so after the shutdown sequence. -/
inductive MasterPc where
  | running
  | status (i : Nat)
  | send (i : Nat)
  | wake (i : Nat) (p : WakePc)
  | waiting
  deriving DecidableEq, Repr

structure Sys where
  workerKeepRunning : Bool
  nfs : Nat → Nf
  wakers : Nat → WakerPc
  helpers : Nat → Option WakePc
  master : MasterPc

namespace Sys

def setNf (s : Sys) (i : Nat) (nf : Nf) : Sys := { s with nfs := Function.update s.nfs i nf }

def setWaker (s : Sys) (k : Nat) (pc : WakerPc) : Sys :=
  { s with wakers := Function.update s.wakers k pc }

def setHelper (s : Sys) (i : Nat) (pc : Option WakePc) : Sys :=
  { s with helpers := Function.update s.helpers i pc }

def setMaster (s : Sys) (pc : MasterPc) : Sys := { s with master := pc }

end Sys

/-! ## Their steps -/

/-- One step of the NF. `quit` is what the user actions, the time to live and the
packet limit say. `sem_wait` takes no step while the semaphore is 0. -/
def Nf.step (nf : Nf) (quit : Bool) : Nf :=
  match nf.pc with
  | .off | .done => nf
  | .ready => if nf.status = .running then { nf with pc := .head } else nf
  | .head => { nf with pc := if nf.keepRunning then .rxTest else .done }
  | .rxTest => { nf with pc := if nf.rxQ = 0 then .msgTest else .deqPkts }
  | .msgTest => { nf with pc := if nf.msgQ.length = 0 then .announce else .deqPkts }
  | .announce => { nf with sleepState := true, pc := .wait }
  | .wait => if 0 < nf.sem then { nf with sem := nf.sem - 1, pc := .deqPkts } else nf
  | .deqPkts => { nf with rxQ := nf.rxQ - min nf.rxQ Pkt.packetReadSize, pc := .deqMsgs }
  | .deqMsgs =>
    match nf.msgQ with
    | [] => { nf with pc := .actions }
    | msg :: msgs =>
      { nf with msgQ := msgs, keepRunning := nf.keepRunning && msg != .stop, pc := .actions }
  | .actions => { nf with keepRunning := !quit && nf.keepRunning, pc := .head }

/-- One step of waking the NF, and where the waker goes on; `none` is that it is done
with it. -/
def Nf.wake (nf : Nf) : WakePc → Nf × Option WakePc
  | .test => (nf, if nf.sleepState then some .clear else none)
  | .clear => ({ nf with sleepState := false }, some .post)
  | .post => ({ nf with sem := nf.sem + 1 }, none)

/-- `nfs_per_wakeup_thread`, by the division of two unsigned numbers. -/
def nfsPerWakeupThread : Nat := maxNfs / onvmNumWakeupThreads

def firstNf (k : Nat) : Nat := min (k * nfsPerWakeupThread + 1) maxNfs

def lastNf (k : Nat) : Nat := min ((k + 1) * nfsPerWakeupThread + 1) maxNfs

namespace Sys

def wakeupThreadMain (s : Sys) (k : Nat) : Sys :=
  match s.wakers k with
  | .loop => s.setWaker k (if s.workerKeepRunning then .status (firstNf k) else .done)
  | .status i =>
    s.setWaker k (if i < lastNf k then
      if (s.nfs i).status = .running then .rxQ i else .status (i + 1) else .loop)
  | .rxQ i =>
    s.setWaker k (if (s.nfs i).rxQ < pktWakeupThreshold then .msgQ i else .wake i .test)
  | .msgQ i =>
    s.setWaker k (if (s.nfs i).msgQ.length < msgWakeupThreshold then .status (i + 1)
      else .wake i .test)
  | .wake i p =>
    (s.setNf i ((s.nfs i).wake p).1).setWaker k
      (match ((s.nfs i).wake p).2 with
        | some p' => .wake i p'
        | none => .status (i + 1))
  | .done => s

/-- The shutdown sequence, after `worker_keep_running` was set to 0. `avail` says
whether `rte_mempool_get` delivers; what `onvm_nf_send_msg` returns is not looked at. -/
def masterThreadMain (s : Sys) (avail : Bool) : Sys :=
  match s.master with
  | .running | .waiting => s
  | .status i =>
    s.setMaster (if i < maxNfs then
      if (s.nfs i).status = .running then .send i else .status (i + 1) else .waiting)
  | .send i =>
    (if avail ∧ (s.nfs i).msgQ.length < msgRingCapacity then
      s.setNf i { s.nfs i with msgQ := (s.nfs i).msgQ ++ [.stop] } else s).setMaster (.wake i .test)
  | .wake i p =>
    (s.setNf i ((s.nfs i).wake p).1).setMaster
      (match ((s.nfs i).wake p).2 with
        | some p' => .wake i p'
        | none => .status (i + 1))

/-- `onvm_nflib_handle_signal` after it has stopped the NF, and what
`onvm_nflib_terminate_children` does with one child. -/
def helperMain (s : Sys) (i : Nat) : Sys :=
  match s.helpers i with
  | none => s
  | some p => (s.setNf i ((s.nfs i).wake p).1).setHelper i ((s.nfs i).wake p).2

/-- The master thread is where it calls `onvm_nf_check_status`. -/
def Checks (s : Sys) : Prop := s.master = .running ∨ s.master = .waiting

instance (s : Sys) : Decidable s.Checks := inferInstanceAs (Decidable (_ ∨ _))

end Sys

/-- A step of a party, or what others put on the rings of NF `i`. `start`, `ready` and
`stop` are the messages of an NF that the master thread handles. -/
inductive Ev where
  | start (i : Nat)
  | ready (i : Nat)
  | stop (i : Nat)
  | nf (i : Nat) (quit : Bool)
  | pkts (i n : Nat)
  | msg (i : Nat) (msg : MsgType)
  | signal (i : Nat)
  | terminate (i : Nat)
  | helper (i : Nat)
  | waker (k : Nat)
  | shutdown
  | master (avail : Bool)
  deriving DecidableEq, Repr

/-- An event that is not possible changes nothing. -/
def step (s : Sys) : Ev → Sys
  | .start i =>
    -- `onvm_nf_start` gives the NF new rings; the semaphore and `sleep_state` stay
    if s.Checks ∧ i < maxNfs ∧ (s.nfs i).pc = .off then
      s.setNf i { s.nfs i with
        status := .starting, rxQ := 0, msgQ := [], keepRunning := true, pc := .ready }
    else s
  | .ready i =>
    if s.Checks ∧ (s.nfs i).pc = .ready ∧ (s.nfs i).status = .starting then
      s.setNf i { s.nfs i with status := .running }
    else s
  | .stop i =>
    if s.Checks ∧ (s.nfs i).pc = .done then
      s.setNf i { s.nfs i with status := .stopped, rxQ := 0, msgQ := [], pc := .off }
    else s
  | .nf i quit => s.setNf i ((s.nfs i).step quit)
  | .pkts i n =>
    if (s.nfs i).rxQ + n ≤ rxRingCapacity then
      s.setNf i { s.nfs i with rxQ := (s.nfs i).rxQ + n } else s
  | .msg i msg =>
    if (s.nfs i).msgQ.length < msgRingCapacity then
      s.setNf i { s.nfs i with msgQ := (s.nfs i).msgQ ++ [msg] } else s
  | .signal i =>
    if s.helpers i = none then
      (s.setNf i { s.nfs i with keepRunning := false }).setHelper i (some .test) else s
  | .terminate i => if s.helpers i = none then s.setHelper i (some .test) else s
  | .helper i => s.helperMain i
  | .waker k => if k < onvmNumWakeupThreads then s.wakeupThreadMain k else s
  | .shutdown =>
    if s.master = .running then
      { s with workerKeepRunning := false, master := .status 0 } else s
  | .master avail => s.masterThreadMain avail

def boot : Sys where
  workerKeepRunning := true
  nfs _ := ⟨.stopped, 0, [], false, 0, true, .off⟩
  wakers _ := .loop
  helpers _ := none
  master := .running

/-! ## No lost wakeup -/

namespace Sys

/-- The NF waits on its semaphore, which is 0. -/
def Blocked (s : Sys) (i : Nat) : Prop := (s.nfs i).pc = .wait ∧ (s.nfs i).sem = 0

def HasWork (s : Sys) (i : Nat) : Prop := 0 < (s.nfs i).rxQ ∨ (s.nfs i).msgQ ≠ []

end Sys

inductive Thread where
  | waker (k : Nat)
  | helper (i : Nat)
  | master
  deriving DecidableEq, Repr

namespace Sys

def waking (s : Sys) : Thread → Option (Nat × WakePc)
  | .waker k =>
    match s.wakers k with
    | .wake i p => some (i, p)
    | _ => none
  | .helper i => (s.helpers i).map fun p => (i, p)
  | .master =>
    match s.master with
    | .wake i p => some (i, p)
    | _ => none

/-- Some thread has set `sleep_state` to 0 and not yet posted. -/
def Posting (s : Sys) (i : Nat) : Prop := ∃ t, s.waking t = some (i, .post)

/-- Some thread has found `sleep_state` 1 and not yet posted. -/
def PostDue (s : Sys) (i : Nat) : Prop :=
  ∃ t, s.waking t = some (i, .clear) ∨ s.waking t = some (i, .post)

end Sys

/-- In its pass over the NFs, the wakeup thread has yet to test NF `i`, whose rings are not
empty. -/
def WakerPc.Ahead (nf : Nf) (i : Nat) : WakerPc → Prop
  | .loop | .done => False
  | .status j | .rxQ j => j ≤ i
  | .msgQ j => j < i ∨ j = i ∧ nf.msgQ ≠ []
  | .wake j p => j < i ∨ j = i ∧ p = .test

theorem WakerPc.Ahead.of_msgQ {nf nf' : Nf} {i : Nat} {pc : WakerPc} (h : pc.Ahead nf' i)
    (hq : nf'.msgQ = nf.msgQ) : pc.Ahead nf i := by
  unfold Ahead at *
  rwa [hq] at h

/-- The shutdown sequence has yet to test NF `i`. -/
def MasterPc.Ahead (i : Nat) : MasterPc → Prop
  | .running | .waiting => False
  | .status j | .send j => j ≤ i
  | .wake j p => j < i ∨ j = i ∧ p = .test

namespace Sys

/-- A thread that still runs will test `sleep_state` of NF `i`: a wakeup thread, again and
again or in its last pass, or the shutdown sequence. -/
def WillTest (s : Sys) (i : Nat) : Prop :=
  (∃ k < onvmNumWakeupThreads, firstNf k ≤ i ∧ i < lastNf k ∧
    (s.workerKeepRunning ∧ s.wakers k ≠ .done ∨ (s.wakers k).Ahead (s.nfs i) i)) ∨
  s.master.Ahead i

/-- The rings of a blocked NF are empty, or a post is on its way, or `sleep_state` is 1
and a thread that still runs tests it: it has read the 1 and goes on to set it to 0, or
will read it. -/
def NoLostWakeup (s : Sys) : Prop :=
  ∀ i, s.Blocked i → s.HasWork i →
    s.Posting i ∨ (s.nfs i).sleepState ∧ (s.PostDue i ∨ s.WillTest i)

end Sys

/-- The shutdown sequence has tested NF `i`, or passed it by. -/
def MasterPc.Passed (i : Nat) : MasterPc → Prop
  | .running => False
  | .status j | .send j => i < j
  | .wake j p => i < j ∨ i = j ∧ p ≠ .test
  | .waiting => True

/-- No NF is left blocked with `MSG_STOP` in its queue once the shutdown sequence has
passed it. -/
def Sys.NoLostStop (s : Sys) : Prop :=
  ∀ i, s.master.Passed i → s.Blocked i → .stop ∈ (s.nfs i).msgQ → s.PostDue i

/-! ## The shutdown loses one -/

/-- NF 1 finds its rings empty, the shutdown sequence passes it, NF 1 announces that it
sleeps and waits. -/
def lostStop : List Ev :=
  [.start 1, .ready 1, .nf 1 false, .nf 1 false, .nf 1 false, .nf 1 false, .shutdown, .waker 0,
    .master true, .master true, .master true, .master true, .nf 1 false]

/-- Nobody is left to wake NF 1. -/
theorem lostStop_idle (t : Thread) (p : WakePc) :
    (exec step boot lostStop).waking t ≠ some (1, p) := by
  cases t with
  | waker k =>
    have hwakers : (exec step boot lostStop).wakers =
        Function.update (fun _ => .loop) 0 .done := rfl
    unfold Sys.waking
    rw [hwakers]
    by_cases hk : k = 0
    · simp [hk]
    · simp [hk]
  | helper i => exact nofun
  | master => exact nofun

theorem lost_wakeup : ¬ ∀ es, (exec step boot es).NoLostWakeup := by
  intro h
  have hblocked : (exec step boot lostStop).Blocked 1 := ⟨by decide, by decide⟩
  rcases h lostStop 1 hblocked (.inr (by decide)) with
    ⟨t, ht⟩ | ⟨-, ⟨t, ht | ht⟩ | ⟨k, hk, -, -, hw⟩ | hm⟩
  · exact lostStop_idle t _ ht
  · exact lostStop_idle t _ ht
  · exact lostStop_idle t _ ht
  · obtain rfl : k = 0 := Nat.lt_one_iff.mp hk
    rcases hw with ⟨hkeep, -⟩ | hahead
    · exact absurd hkeep (by decide)
    · exact hahead
  · exact absurd (show 2 ≤ 1 from hm) (by decide)

/-! ## When it loses none -/

/-- What a run has to avoid for nothing to be lost. -/
def Careful (s : Sys) : Ev → Prop
  -- the wakeup threads begin with NF 1
  | .start i => i ≠ 0
  -- an NF that starts to run after the shutdown sequence is neither stopped nor woken
  | .ready _ => s.master = .running
  | .master avail =>
    match s.master with
    | .send i => avail ∧ (s.nfs i).msgQ.length < msgRingCapacity
    -- the NF is not about to announce that it sleeps, or this does not go unnoticed
    | .wake i .test =>
      (s.nfs i).pc = .announce → (s.nfs i).sleepState ∨ 0 < (s.nfs i).sem ∨ s.PostDue i
    | _ => True
  | _ => True

def NfPc.InLoop : NfPc → Prop
  | .off | .ready | .done => False
  | _ => True

/-- The NF was told that it runs, and has not left its main loop. -/
def Nf.Up (nf : Nf) : Prop := nf.status = .running ∧ nf.pc ≠ .off ∧ nf.pc ≠ .done

/-- The shutdown sequence has sent `MSG_STOP` to NF `i`, or passed it by. -/
def MasterPc.Sent (i : Nat) : MasterPc → Prop
  | .running => False
  | .status j | .send j => i < j
  | .wake j _ => i ≤ j
  | .waiting => True

theorem MasterPc.Passed.sent {i : Nat} {m : MasterPc} (h : m.Passed i) : m.Sent i := by
  cases m with
  | wake j p => exact h.elim Nat.le_of_lt fun hj => hj.1.le
  | _ => exact h

/-- What holds of NF `i`, by what the other threads are about to do: whether a post is
on its way, and how far the shutdown sequence has come. -/
structure SlotInv (i : Nat) (nf : Nf) (posting due sent passed : Prop) : Prop where
  ids : nf.pc ≠ .off → 0 < i ∧ i < maxNfs
  up : nf.pc.InLoop → nf.status = .running
  posted : nf.pc = .wait → nf.sleepState = false → 0 < nf.sem ∨ posting
  told : sent → nf.Up →
    .stop ∈ nf.msgQ ∨ nf.keepRunning = false ∧ (nf.pc = .actions ∨ nf.pc = .head)
  noted : passed → nf.pc = .announce ∨ nf.pc = .wait → 0 < nf.sem ∨ due

namespace SlotInv

variable {i : Nat} {nf : Nf} {posting due sent passed posting' due' sent' passed' : Prop}

theorem mono (h : SlotInv i nf posting due sent passed) (hposting : posting → posting')
    (hdue : due → due') (hsent : sent' → sent) (hpassed : passed' → passed) :
    SlotInv i nf posting' due' sent' passed' where
  ids := h.ids
  up := h.up
  posted hpc hsleep := (h.posted hpc hsleep).imp_right hposting
  told hs := h.told (hsent hs)
  noted hp hpc := (h.noted (hpassed hp) hpc).imp_right hdue

theorem move {nf' : Nf} (h : SlotInv i nf posting due sent passed) (hpc : nf.pc ≠ .off)
    (hup : nf'.pc.InLoop → nf'.status = .running)
    (hawake : nf'.pc ≠ .announce ∧ nf'.pc ≠ .wait)
    (htold : sent → nf'.Up →
      .stop ∈ nf'.msgQ ∨ nf'.keepRunning = false ∧ (nf'.pc = .actions ∨ nf'.pc = .head)) :
    SlotInv i nf' posting due sent passed where
  ids _ := h.ids hpc
  up := hup
  posted hw := absurd hw hawake.2
  told := htold
  noted _ hw := absurd hw (not_or.mpr hawake)

/-- Between the start of the loop and the messages, an NF that was sent `MSG_STOP` has it
in its queue. -/
theorem queued (h : SlotInv i nf posting due sent passed) (hs : sent) (hup : nf.Up)
    (hactions : nf.pc ≠ .actions) (hhead : nf.pc ≠ .head) : .stop ∈ nf.msgQ :=
  (h.told hs hup).resolve_right fun hk => (not_or.mpr ⟨hactions, hhead⟩) hk.2

theorem isUp (h : SlotInv i nf posting due sent passed) (hin : nf.pc.InLoop) : nf.Up := by
  refine ⟨h.up hin, ?_, ?_⟩
  · intro hpc
    rwa [hpc] at hin
  · intro hpc
    rwa [hpc] at hin

/-- A step of the NF: one that is told to stop does not announce that it sleeps. -/
theorem step (h : SlotInv i nf posting due sent passed) (hps : passed → sent) (quit : Bool) :
    SlotInv i (nf.step quit) posting due sent passed := by
  obtain ⟨status, rxQ, msgQ, sleepState, sem, keepRunning, pc⟩ := nf
  have hup := h.isUp
  have hq := h.queued
  cases pc with
  | off => exact h
  | done => exact h
  | ready =>
    by_cases hs : status = .running
    · simp only [Nf.step, hs, if_true]
      exact h.move nofun (fun _ => rfl) (by simp) fun hsent _ =>
        .inl (hq hsent ⟨hs, nofun, nofun⟩ nofun nofun)
    · simpa [Nf.step, hs] using h
  | head =>
    cases keepRunning with
    | false =>
      exact h.move nofun (fun _ => h.up trivial) (by simp [Nf.step])
        fun _ hup' => absurd rfl hup'.2.2
    | true =>
      exact h.move nofun (fun _ => h.up trivial) (by simp [Nf.step])
        fun hsent _ => (h.told hsent (hup trivial)).imp_right fun hk => absurd hk.1 nofun
  | rxTest =>
    have hpc : (if rxQ = 0 then NfPc.msgTest else .deqPkts) = .msgTest ∨
        (if rxQ = 0 then NfPc.msgTest else .deqPkts) = .deqPkts := by
      split
      · exact .inl rfl
      · exact .inr rfl
    refine h.move nofun (fun _ => h.up trivial) ?_ fun hsent _ =>
      .inl (hq hsent (hup trivial) nofun nofun)
    rcases hpc with hpc | hpc
    · simp [Nf.step, hpc]
    · simp [Nf.step, hpc]
  | msgTest =>
    have hstop := fun hsent => hq hsent (hup trivial) nofun nofun
    cases msgQ with
    | nil =>
      exact ⟨fun _ => h.ids nofun, fun _ => h.up trivial, nofun,
        fun hsent _ => absurd (hstop hsent) (by simp),
        fun hp _ => absurd (hstop (hps hp)) (by simp)⟩
    | cons msg msgs =>
      exact h.move nofun (fun _ => h.up trivial) (by simp [Nf.step]) fun hsent _ =>
        .inl (hstop hsent)
  | announce =>
    exact ⟨fun _ => h.ids nofun, fun _ => h.up trivial, nofun,
      fun hsent _ => .inl (hq hsent (hup trivial) nofun nofun),
      fun hp _ => h.noted hp (.inl rfl)⟩
  | wait =>
    by_cases hsem : 0 < sem
    · simp only [Nf.step, hsem, if_true]
      exact h.move nofun (fun _ => h.up trivial) (by simp) fun hsent _ =>
        .inl (hq hsent (hup trivial) nofun nofun)
    · simpa [Nf.step, hsem] using h
  | deqPkts =>
    exact h.move nofun (fun _ => h.up trivial) (by simp [Nf.step]) fun hsent _ =>
      .inl (hq hsent (hup trivial) nofun nofun)
  | deqMsgs =>
    have hstop := fun hsent => hq hsent (hup trivial) nofun nofun
    cases msgQ with
    | nil =>
      exact h.move nofun (fun _ => h.up trivial) (by simp [Nf.step])
        fun hsent _ => absurd (hstop hsent) (by simp)
    | cons msg msgs =>
      refine h.move nofun (fun _ => h.up trivial) (by simp [Nf.step]) fun hsent _ => ?_
      rcases List.mem_cons.mp (hstop hsent) with hmsg | hmsgs
      · exact .inr ⟨by simp [Nf.step, ← hmsg], .inl rfl⟩
      · exact .inl hmsgs
  | actions =>
    refine h.move nofun (fun _ => h.up trivial) (by simp [Nf.step]) fun hsent _ => ?_
    exact (h.told hsent (hup trivial)).imp_right fun hk =>
      ⟨by simp [Nf.step, show keepRunning = false from hk.1], .inr rfl⟩

theorem clear (h : SlotInv i nf posting due sent passed) (hposting : posting') (hdue : due') :
    SlotInv i { nf with sleepState := false } posting' due' sent passed where
  ids := h.ids
  up := h.up
  posted _ _ := .inr hposting
  told := h.told
  noted _ _ := .inr hdue

/-- The post: nothing need be on its way any more. -/
theorem post (h : SlotInv i nf posting due sent passed) :
    SlotInv i { nf with sem := nf.sem + 1 } posting' due' sent passed where
  ids := h.ids
  up := h.up
  posted _ _ := .inl (Nat.succ_pos _)
  told := h.told
  noted _ _ := .inl (Nat.succ_pos _)

end SlotInv

variable {s s' : Sys} {t : Thread} {i : Nat} {p : WakePc}

namespace Sys

@[simp] theorem waking_setNf (s : Sys) (i : Nat) (nf : Nf) : (s.setNf i nf).waking = s.waking := by
  funext t
  cases t with
  | _ => rfl

theorem posting_setNf (s : Sys) (i j : Nat) (nf : Nf) :
    (s.setNf i nf).Posting j = s.Posting j := by
  unfold Posting
  rw [waking_setNf]

theorem postDue_setNf (s : Sys) (i j : Nat) (nf : Nf) :
    (s.setNf i nf).PostDue j = s.PostDue j := by
  unfold PostDue
  rw [waking_setNf]

theorem waking_setWaker (s : Sys) (k : Nat) (pc : WakerPc) :
    ∀ t' ≠ .waker k, (s.setWaker k pc).waking t' = s.waking t' := by
  intro t' ht
  cases t' with
  | waker k' =>
    have hk : k' ≠ k := fun he => ht (he ▸ rfl)
    simp [waking, setWaker, hk]
  | helper i => rfl
  | master => rfl

theorem waking_setHelper (s : Sys) (i : Nat) (pc : Option WakePc) :
    ∀ t' ≠ .helper i, (s.setHelper i pc).waking t' = s.waking t' := by
  intro t' ht
  cases t' with
  | waker k => rfl
  | helper i' =>
    have hi : i' ≠ i := fun he => ht (he ▸ rfl)
    simp [waking, setHelper, hi]
  | master => rfl

theorem waking_master (hw : s'.wakers = s.wakers) (hh : s'.helpers = s.helpers) :
    ∀ t' ≠ .master, s'.waking t' = s.waking t' := by
  intro t' ht
  cases t' with
  | waker k =>
    unfold waking
    rw [hw]
  | helper i =>
    unfold waking
    rw [hh]
  | master => exact absurd rfl ht

/-- What another thread is about to do stays so. -/
theorem Posting.keep (h : s.Posting i) (hother : ∀ t' ≠ t, s'.waking t' = s.waking t')
    (ht : s.waking t ≠ some (i, .post)) : s'.Posting i := by
  obtain ⟨t', ht'⟩ := h
  have hne : t' ≠ t := fun he => ht (he ▸ ht')
  exact ⟨t', (hother t' hne).trans ht'⟩

theorem Posting.due (h : s.Posting i) : s.PostDue i := h.imp fun _ => .inr

theorem PostDue.keep (h : s.PostDue i) (hother : ∀ t' ≠ t, s'.waking t' = s.waking t')
    (hclear : s.waking t ≠ some (i, .clear)) (hpost : s.waking t ≠ some (i, .post)) :
    s'.PostDue i := by
  obtain ⟨t', ht'⟩ := h
  have hne : t' ≠ t := by
    rintro rfl
    exact ht'.elim hclear hpost
  refine ⟨t', ?_⟩
  rwa [hother t' hne]

/-- The slots, with what the shutdown sequence has done so far. -/
def Slots (s : Sys) (sent passed : Nat → Prop) : Prop :=
  ∀ i, SlotInv i (s.nfs i) (s.Posting i) (s.PostDue i) (sent i) (passed i)

variable {sent passed sent' passed' : Nat → Prop}

/-- A step that wakes nobody, of a thread that is not about to set `sleep_state` or to post. -/
theorem Slots.quiet (h : s.Slots sent passed) (hnfs : s'.nfs = s.nfs)
    (hother : ∀ t' ≠ t, s'.waking t' = s.waking t')
    (ht : ∀ i p, s.waking t = some (i, p) → p = .test) (hsent : ∀ i, sent' i → sent i)
    (hpassed : ∀ i, passed' i → passed i) : s'.Slots sent' passed' := by
  intro i
  rw [hnfs]
  exact (h i).mono (fun hp => hp.keep hother fun he => nomatch ht _ _ he)
    (fun hd => hd.keep hother (fun he => nomatch ht _ _ he) fun he => nomatch ht _ _ he)
    (hsent i) (hpassed i)

theorem Slots.setNf (h : s.Slots sent passed) {nf : Nf}
    (hi : SlotInv i nf (s.Posting i) (s.PostDue i) (sent' i) (passed i))
    (hsent : ∀ j ≠ i, sent' j → sent j) : (s.setNf i nf).Slots sent' passed := by
  intro j
  rw [posting_setNf, postDue_setNf]
  by_cases hj : j = i
  · subst hj
    simpa [Sys.setNf] using hi
  · simpa [Sys.setNf, hj] using (h j).mono id id (hsent j hj) id

/-- The shutdown sequence goes on: past an NF that does not run, or one that is awake or
due to be woken. -/
theorem Slots.advance (h : s.Slots sent passed)
    (hsent : ∀ j, sent' j → sent j ∨ ¬ (s.nfs j).Up)
    (hpassed : ∀ j, passed' j → passed j ∨ ¬ (s.nfs j).Up ∨
      ((s.nfs j).pc = .announce ∨ (s.nfs j).pc = .wait → 0 < (s.nfs j).sem ∨ s.PostDue j)) :
    s.Slots sent' passed' := by
  intro j
  obtain ⟨hids, hup, hposted, htold, hnoted⟩ := h j
  refine ⟨hids, hup, hposted, fun hs hrun => ?_, fun hp hpc => ?_⟩
  · exact htold ((hsent j hs).resolve_right fun hn => hn hrun) hrun
  · have hin : (s.nfs j).pc.InLoop := by
      rcases hpc with hpc | hpc
      · rw [hpc]
        trivial
      · rw [hpc]
        trivial
    rcases hpassed j hp with hold | hdown | hnew
    · exact hnoted hold hpc
    · exact absurd ((h j).isUp hin) hdown
    · exact hnew hpc

theorem Slots.wake (h : s.Slots sent passed) (ht : s.waking t = some (i, p))
    (hother : ∀ t' ≠ t, s'.waking t' = s.waking t')
    (ht' : s'.waking t = ((s.nfs i).wake p).2.map fun p' => (i, p'))
    (hnfs : s'.nfs = Function.update s.nfs i ((s.nfs i).wake p).1) : s'.Slots sent passed := by
  intro j
  rw [hnfs]
  by_cases hj : j = i
  · subst hj
    rw [Function.update_self]
    cases p with
    | test =>
      exact (h j).mono (fun hp => hp.keep hother (by simp [ht]))
        (fun hd => hd.keep hother (by simp [ht]) (by simp [ht])) id id
    | clear => exact (h j).clear ⟨t, ht'⟩ ⟨t, .inr ht'⟩
    | post => exact (h j).post
  · rw [Function.update_of_ne hj]
    have hne : ∀ p', s.waking t ≠ some (j, p') := by
      intro p' he
      rw [ht] at he
      exact hj (congrArg Prod.fst (Option.some.inj he)).symm
    exact (h j).mono (fun hp => hp.keep hother (hne _))
      (fun hd => hd.keep hother (hne _) (hne _)) id id

end Sys

/-- **What every careful run keeps.** -/
structure Inv (s : Sys) : Prop where
  launched : s.workerKeepRunning → ∀ k, s.wakers k ≠ .done
  shut : s.master = .running ↔ s.workerKeepRunning
  slots : s.Slots (s.master.Sent ·) (s.master.Passed ·)

theorem boot_inv : Inv boot where
  launched _ _ := nofun
  shut := iff_of_true rfl rfl
  slots _ := ⟨fun h => absurd rfl h, False.elim, nofun, False.elim, False.elim⟩

namespace Inv

theorem setNf {nf : Nf} (h : Inv s) (hi : SlotInv i nf (s.Posting i) (s.PostDue i)
    (s.master.Sent i) (s.master.Passed i)) : Inv (s.setNf i nf) where
  launched := h.launched
  shut := h.shut
  slots := h.slots.setNf hi fun _ _ => id

theorem helper (h : Inv s) (i : Nat) : Inv (s.helperMain i) := by
  unfold Sys.helperMain
  cases hi : s.helpers i with
  | none => exact h
  | some p =>
    refine ⟨h.launched, h.shut, h.slots.wake (t := .helper i) (i := i) (p := p) ?_ ?_ ?_ rfl⟩
    · simp [Sys.waking, hi]
    · intro t' ht
      rw [Sys.waking_setHelper _ _ _ t' ht, Sys.waking_setNf]
    · simp [Sys.waking, Sys.setHelper]

theorem startHelper (h : Inv s) (hnone : s.helpers i = none) :
    Inv (s.setHelper i (some .test)) := by
  refine ⟨h.launched, h.shut, h.slots.quiet (t := .helper i) rfl (s.waking_setHelper _ _) ?_
    (fun _ => id) fun _ => id⟩
  intro j p hp
  simp [Sys.waking, hnone] at hp

theorem waker (h : Inv s) (k : Nat) : Inv (s.wakeupThreadMain k) := by
  have hquiet : ∀ pc, (∀ i p, s.waking (.waker k) = some (i, p) → p = .test) →
      (s.workerKeepRunning → pc ≠ .done) → Inv (s.setWaker k pc) := by
    intro pc ht hdone
    refine ⟨fun hkeep k' => ?_, h.shut,
      h.slots.quiet (t := .waker k) rfl (s.waking_setWaker _ _) ht (fun _ => id) fun _ => id⟩
    by_cases hk : k' = k
    · subst hk
      simpa [Sys.setWaker] using hdone hkeep
    · simpa [Sys.setWaker, hk] using h.launched hkeep k'
  unfold Sys.wakeupThreadMain
  cases hk : s.wakers k with
  | loop =>
    refine hquiet _ (by simp [Sys.waking, hk]) fun hkeep => ?_
    simp [hkeep]
  | status i =>
    refine hquiet _ (by simp [Sys.waking, hk]) fun _ => ?_
    split_ifs
    all_goals nofun
  | rxQ i =>
    refine hquiet _ (by simp [Sys.waking, hk]) fun _ => ?_
    split_ifs
    all_goals nofun
  | msgQ i =>
    refine hquiet _ (by simp [Sys.waking, hk]) fun _ => ?_
    split_ifs
    all_goals nofun
  | wake i p =>
    refine ⟨fun hkeep k' => ?_, h.shut,
      h.slots.wake (t := .waker k) (i := i) (p := p) ?_ ?_ ?_ rfl⟩
    · by_cases hk' : k' = k
      · subst hk'
        simp only [Sys.setWaker, Function.update_self]
        cases ((s.nfs i).wake p).2 with
        | none => nofun
        | some p' => nofun
      · simpa [Sys.setWaker, Sys.setNf, hk'] using h.launched hkeep k'
    · simp [Sys.waking, hk]
    · intro t' ht
      rw [Sys.waking_setWaker _ _ _ t' ht, Sys.waking_setNf]
    · simp only [Sys.waking, Sys.setWaker, Function.update_self]
      cases ((s.nfs i).wake p).2 with
      | none => rfl
      | some p' => rfl
  | done => exact h

/-- The master thread goes on with the shutdown sequence. -/
theorem setMaster (h : Inv s) {pc : MasterPc} (hkeep : s'.workerKeepRunning = s.workerKeepRunning)
    (hwakers : s'.wakers = s.wakers) (hm : s.master ≠ .running) (hpc : pc ≠ .running)
    (hslots : (s'.setMaster pc).Slots (pc.Sent ·) (pc.Passed ·)) : Inv (s'.setMaster pc) where
  launched hk k := hwakers ▸ h.launched (hkeep ▸ hk) k
  shut := ⟨fun hrun => absurd hrun hpc, fun hk => absurd (h.shut.mpr (hkeep ▸ hk)) hm⟩
  slots := hslots

/-- The shutdown sequence looks at the status of an NF. -/
theorem masterStatus (h : Inv s) (hm : s.master = .status i) (avail : Bool) :
    Inv (s.masterThreadMain avail) := by
  have hslots := h.slots
  rw [hm] at hslots
  have hidle : ∀ j p, s.waking .master = some (j, p) → p = .test := by simp [Sys.waking, hm]
  have hquiet : ∀ {pc : MasterPc}, s.Slots (pc.Sent ·) (pc.Passed ·) →
      (s.setMaster pc).Slots (pc.Sent ·) (pc.Passed ·) := fun hadv =>
    hadv.quiet (t := .master) rfl (Sys.waking_master rfl rfl) hidle (fun _ => id) fun _ => id
  simp only [Sys.masterThreadMain, hm]
  split_ifs with hi hrun
  · exact h.setMaster rfl rfl (hm ▸ nofun) nofun (hquiet hslots)
  · have hdown : ∀ j, j < i + 1 → j < i ∨ ¬ (s.nfs j).Up := by
      intro j hj
      rcases Nat.lt_succ_iff_lt_or_eq.mp hj with hlt | rfl
      · exact .inl hlt
      · exact .inr fun hup => hrun hup.1
    exact h.setMaster rfl rfl (hm ▸ nofun) nofun
      (hquiet (hslots.advance hdown fun j hj => (hdown j hj).imp_right .inl))
  · have hdown : ∀ j, True → j < i ∨ ¬ (s.nfs j).Up := by
      intro j _
      by_cases hj : j < i
      · exact .inl hj
      · refine .inr fun hup => ?_
        have hlt := ((h.slots j).ids hup.2.1).2
        omega
    exact h.setMaster rfl rfl (hm ▸ nofun) nofun
      (hquiet (hslots.advance hdown fun j hj => (hdown j hj).imp_right .inl))

/-- It sends `MSG_STOP`, which gets on the ring. -/
theorem masterSend (h : Inv s) (hm : s.master = .send i) {avail : Bool}
    (hc : avail ∧ (s.nfs i).msgQ.length < msgRingCapacity) : Inv (s.masterThreadMain avail) := by
  have hslots := h.slots
  rw [hm] at hslots
  simp only [Sys.masterThreadMain, hm, hc, and_self, if_true]
  obtain ⟨hids, hup, hposted, -, hnoted⟩ := hslots i
  have htold : (s.setNf i { s.nfs i with msgQ := (s.nfs i).msgQ ++ [.stop] }).Slots
      ((MasterPc.wake i .test).Sent ·) ((MasterPc.send i).Passed ·) := by
    refine hslots.setNf ⟨hids, hup, hposted, fun _ _ => ?_, hnoted⟩ fun j hj hle => ?_
    · exact .inl (List.mem_append_right _ (List.mem_singleton.mpr rfl))
    · exact Nat.lt_of_le_of_ne hle hj
  refine h.setMaster rfl rfl (hm ▸ nofun) nofun (htold.quiet (t := .master) rfl
    (Sys.waking_master rfl rfl) ?_ (fun _ => id) ?_)
  · intro j p
    simp [Sys.waking, Sys.setNf, hm]
  · exact fun j hj => hj.resolve_right fun htest => htest.2 rfl

/-- It wakes an NF, which is not between its test and its announcement unless a post is
due. -/
theorem masterWake (h : Inv s) (hm : s.master = .wake i p) {avail : Bool}
    (hc : p = .test → (s.nfs i).pc = .announce →
      (s.nfs i).sleepState ∨ 0 < (s.nfs i).sem ∨ s.PostDue i) :
    Inv (s.masterThreadMain avail) := by
  have hslots := h.slots
  rw [hm] at hslots
  have hwaking : s.waking .master = some (i, p) := by simp [Sys.waking, hm]
  simp only [Sys.masterThreadMain, hm]
  refine h.setMaster rfl rfl (hm ▸ nofun) ?_ ?_
  · cases ((s.nfs i).wake p).2 with
    | none => nofun
    | some p' => nofun
  have hwoken : ∀ {pc : MasterPc}, ((s.setNf i ((s.nfs i).wake p).1).setMaster pc).waking .master =
      ((s.nfs i).wake p).2.map (fun p' => (i, p')) →
      ((s.setNf i ((s.nfs i).wake p).1).setMaster pc).Slots ((MasterPc.wake i p).Sent ·)
        ((MasterPc.wake i p).Passed ·) := fun ht' =>
    hslots.wake hwaking (Sys.waking_master rfl rfl) ht' rfl
  cases p with
  | test =>
    by_cases hsleep : (s.nfs i).sleepState
    · simp only [Nf.wake, hsleep, if_true] at hwoken ⊢
      refine (hwoken rfl).advance (fun _ => .inl) fun j hj => ?_
      rcases hj with hlt | ⟨rfl, -⟩
      · exact .inl (.inl hlt)
      · exact .inr (.inr fun _ => .inr ⟨.master, .inl rfl⟩)
    · simp only [Nf.wake, hsleep, Bool.false_eq_true, if_false] at hwoken ⊢
      refine (hwoken rfl).advance (fun j hj => .inl (Nat.lt_succ_iff.mp hj)) fun j hj => ?_
      rcases Nat.lt_succ_iff_lt_or_eq.mp hj with hlt | rfl
      · exact .inl (.inl hlt)
      · refine .inr (.inr fun hpc => ?_)
        have hdue : s.PostDue j → ((s.setNf j (s.nfs j)).setMaster (.status (j + 1))).PostDue j :=
          fun hd => hd.keep (t := .master) (Sys.waking_master rfl rfl) (by simp [hwaking])
            (by simp [hwaking])
        have hnf : ((s.setNf j (s.nfs j)).setMaster (.status (j + 1))).nfs j = s.nfs j :=
          Function.update_self ..
        rw [hnf] at hpc ⊢
        rcases hpc with hannounce | hwait
        · exact ((hc rfl hannounce).resolve_left hsleep).imp_right hdue
        · have hposted := (h.slots j).posted hwait (by simpa using hsleep)
          exact hposted.imp_right fun hp => hdue hp.due
  | clear =>
    refine (hwoken rfl).advance (fun _ => .inl) fun j hj => .inl ?_
    exact hj.imp_right fun he => ⟨he.1, nofun⟩
  | post =>
    refine (hwoken rfl).advance (fun j hj => .inl (Nat.lt_succ_iff.mp hj)) fun j hj => .inl ?_
    exact (Nat.lt_succ_iff_lt_or_eq.mp hj).imp_right fun he => ⟨he, nofun⟩

theorem master (h : Inv s) {avail : Bool} (hc : Careful s (.master avail)) :
    Inv (s.masterThreadMain avail) := by
  unfold Careful at hc
  cases hm : s.master with
  | running | waiting =>
    unfold Sys.masterThreadMain
    rwa [hm]
  | status i => exact h.masterStatus hm avail
  | send i =>
    simp only [hm] at hc
    exact h.masterSend hm hc
  | wake i p =>
    refine h.masterWake hm fun htest => ?_
    subst htest
    simpa only [hm] using hc

end Inv

/-- **Step lemma.** -/
theorem step_inv (s : Sys) (e : Ev) (h : Inv s) (hc : Careful s e) : Inv (step s e) := by
  cases e with
  | start i =>
    simp only [step]
    split
    · rename_i hstart
      exact h.setNf ⟨fun _ => ⟨Nat.pos_of_ne_zero hc, hstart.2.1⟩, False.elim, nofun,
        fun _ hup => (nomatch hup.1), fun _ hpc => hpc.elim nofun nofun⟩
    · exact h
  | ready i =>
    simp only [step]
    split
    · rename_i hready
      have hrunning : s.master = .running := hc
      obtain ⟨-, hpc, -⟩ := hready
      refine h.setNf ⟨(h.slots i).ids, fun _ => rfl, ?_, ?_, ?_⟩
      · exact fun hw => nomatch hpc.symm.trans hw
      · rw [hrunning]
        exact False.elim
      · rw [hrunning]
        exact False.elim
    · exact h
  | stop i =>
    simp only [step]
    split
    · exact h.setNf ⟨fun hoff => absurd rfl hoff, False.elim, nofun,
        fun _ hup => (nomatch hup.1), fun _ hpc => hpc.elim nofun nofun⟩
    · exact h
  | nf i quit => exact h.setNf ((h.slots i).step MasterPc.Passed.sent quit)
  | pkts i n =>
    simp only [step]
    split
    · obtain ⟨hids, hup, hposted, htold, hnoted⟩ := h.slots i
      exact h.setNf ⟨hids, hup, hposted, htold, hnoted⟩
    · exact h
  | msg i msg =>
    simp only [step]
    split
    · obtain ⟨hids, hup, hposted, htold, hnoted⟩ := h.slots i
      refine h.setNf ⟨hids, hup, hposted, fun hsent hup' => ?_, hnoted⟩
      exact (htold hsent hup').imp_left (List.mem_append_left _)
    · exact h
  | signal i =>
    simp only [step]
    split
    · rename_i hnone
      obtain ⟨hids, hup, hposted, htold, hnoted⟩ := h.slots i
      have hstopped : Inv (s.setNf i { s.nfs i with keepRunning := false }) := by
        refine h.setNf ⟨hids, hup, hposted, fun hsent hup' => ?_, hnoted⟩
        exact (htold hsent hup').imp_right fun hk => ⟨rfl, hk.2⟩
      exact hstopped.startHelper hnone
    · exact h
  | terminate i =>
    simp only [step]
    split
    · rename_i hnone
      exact h.startHelper hnone
    · exact h
  | helper i => exact h.helper i
  | waker k =>
    simp only [step]
    split
    · exact h.waker k
    · exact h
  | shutdown =>
    simp only [step]
    split
    · rename_i hrunning
      refine ⟨nofun, ⟨nofun, nofun⟩, h.slots.quiet (t := .master) rfl
        (Sys.waking_master rfl rfl) ?_ (fun _ => nofun) fun _ => nofun⟩
      intro j p hp
      simp [Sys.waking, hrunning] at hp
    · exact h
  | master avail => exact h.master hc

/-- The wakeup threads share the NFs out among them. -/
theorem covered (hi : 0 < i ∧ i < maxNfs) :
    ∃ k < onvmNumWakeupThreads, firstNf k ≤ i ∧ i < lastNf k := by
  refine ⟨0, by decide, ?_⟩
  simp only [firstNf, lastNf, nfsPerWakeupThread, onvmNumWakeupThreads, maxNfs] at hi ⊢
  omega

/-- The shutdown sequence has tested an NF or will do so. -/
theorem MasterPc.passed_or_ahead {m : MasterPc} (hm : m ≠ .running) (i : Nat) :
    m.Passed i ∨ m.Ahead i := by
  cases m with
  | running => exact absurd rfl hm
  | waiting => exact .inl trivial
  | status j | send j => exact Nat.lt_or_ge i j
  | wake j p =>
    rcases Nat.lt_trichotomy i j with hlt | rfl | hgt
    · exact .inl (.inl hlt)
    · by_cases hp : p = .test
      · exact .inr (.inr ⟨rfl, hp⟩)
      · exact .inl (.inr ⟨rfl, hp⟩)
    · exact .inr (.inl hgt)

theorem Inv.noLostWakeup (h : Inv s) : s.NoLostWakeup := by
  intro i ⟨hwait, hsem⟩ _
  obtain ⟨hids, -, hposted, -, hnoted⟩ := h.slots i
  have hno : ¬ 0 < (s.nfs i).sem := by omega
  cases hsleep : (s.nfs i).sleepState with
  | false => exact .inl ((hposted hwait hsleep).resolve_left hno)
  | true =>
    refine .inr ⟨rfl, ?_⟩
    by_cases hkeep : s.workerKeepRunning
    · obtain ⟨k, hk, hfirst, hlast⟩ := covered (hids (by simp [hwait]))
      exact .inr (.inl ⟨k, hk, hfirst, hlast, .inl ⟨hkeep, h.launched hkeep k⟩⟩)
    · rcases MasterPc.passed_or_ahead (fun hrun => hkeep (h.shut.mp hrun)) i with hpassed | hahead
      · exact .inl ((hnoted hpassed (.inr hwait)).resolve_left hno)
      · exact .inr (.inr hahead)

theorem Inv.noLostStop (h : Inv s) : s.NoLostStop := fun i hpassed hblocked _ =>
  ((h.slots i).noted hpassed (.inr hblocked.1)).resolve_left (by simp [hblocked.2])

/-- **No lost wakeup.** -/
theorem no_lost_wakeup (es : List Ev) (hc : Along step Careful boot es) :
    (exec step boot es).NoLostWakeup ∧ (exec step boot es).NoLostStop := by
  have hinv : Inv (exec step boot es) := hc.inv step_inv boot_inv
  exact ⟨hinv.noLostWakeup, hinv.noLostStop⟩

theorem no_lost_wakeup_asleep :
    let es := [.start 1, .ready 1, .nf 1 false, .nf 1 false, .nf 1 false, .nf 1 false,
      .nf 1 false, .shutdown, .waker 0, .master true, .master true, .master true, .master true]
    (exec step boot es).NoLostWakeup ∧ (exec step boot es).NoLostStop := by
  exact no_lost_wakeup _ ⟨Nat.one_ne_zero, rfl, trivial, trivial, trivial, trivial, trivial,
    trivial, trivial, trivial, trivial, ⟨rfl, by decide⟩, fun h => absurd h (by decide), trivial⟩

/-- A step that is not careful, at the test of `sleep_state`: unless a wakeup thread has the
NF ahead in its last pass, the NF goes to sleep and nobody wakes it. -/
theorem Inv.lost (h : Inv s) (hm : s.master = .wake i .test) (hpc : (s.nfs i).pc = .announce)
    (hsleep : (s.nfs i).sleepState = false) (hsem : (s.nfs i).sem = 0) (hdue : ¬ s.PostDue i)
    (hpass : ∀ k, ¬ (s.wakers k).Ahead (s.nfs i) i) (avail quit : Bool) :
    ¬ (exec step s [.master avail, .nf i quit]).NoLostWakeup := by
  have hslots := h.slots i
  have hup : (s.nfs i).Up := hslots.isUp (by rw [hpc]; trivial)
  have hstop : .stop ∈ (s.nfs i).msgQ := by
    refine hslots.queued ?_ hup (by simp [hpc]) (by simp [hpc])
    rw [hm]
    exact Nat.le_refl i
  have hasleep : (s.nfs i).step quit = { s.nfs i with sleepState := true, pc := .wait } := by
    simp [Nf.step, hpc]
  have hend : exec step s [.master avail, .nf i quit] =
      (s.setMaster (.status (i + 1))).setNf i { s.nfs i with sleepState := true, pc := .wait } := by
    rw [← hasleep]
    simp [exec, step, Sys.masterThreadMain, hm, Nf.wake, hsleep, Sys.setNf, Sys.setMaster]
  rw [hend]
  intro hno
  have hblocked : ((s.setMaster (.status (i + 1))).setNf i
      { s.nfs i with sleepState := true, pc := .wait }).Blocked i := by
    simp [Sys.Blocked, Sys.setNf, hsem]
  have hdue' : ¬ ((s.setMaster (.status (i + 1))).setNf i
      { s.nfs i with sleepState := true, pc := .wait }).PostDue i := by
    rw [Sys.postDue_setNf]
    rintro ⟨t, ht⟩
    by_cases hmaster : t = .master
    · subst hmaster
      simp [Sys.waking, Sys.setMaster] at ht
    · have hsame : ∀ t' ≠ .master, (s.setMaster (.status (i + 1))).waking t' = s.waking t' :=
        Sys.waking_master rfl rfl
      exact hdue ⟨t, hsame t hmaster ▸ ht⟩
  have hwork : ((s.setMaster (.status (i + 1))).setNf i
      { s.nfs i with sleepState := true, pc := .wait }).HasWork i := by
    refine .inr ?_
    simpa [Sys.setNf, Sys.setMaster] using List.ne_nil_of_mem hstop
  rcases hno i hblocked hwork with
    hposting | ⟨-, hd | ⟨k, -, -, -, ⟨hkeep, -⟩ | hahead⟩ | hahead⟩
  · exact hdue' hposting.due
  · exact hdue' hd
  · have hrunning : s.master = .running := h.shut.mpr hkeep
    exact absurd (hm.symm.trans hrunning) nofun
  · exact hpass k (hahead.of_msgQ (by simp [Sys.setNf]))
  · exact Nat.not_succ_le_self i hahead

end Onvm.Msg.SharedCore

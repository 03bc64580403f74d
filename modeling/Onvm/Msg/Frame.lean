import Onvm.Msg.System

/-!
# What starting, stopping and receiving leave alone

Most steps of a thread have nothing to do with requests: they go from one plain
program counter to the next and change pools, rings and the family fields of a
slot. An invariant that survives these changes survives the steps; `Framed` says
so once for all of them.
-/

namespace Onvm.Msg

open Onvm.Lib Onvm.Nflib Onvm.Mgr

variable {ι : Type}

/-- Program counters outside the two request functions, except for the dequeue of
a message. -/
def Pc.Plain : Pc → Prop
  | get (.request _) | enqueue (.request _) _ | giveBack (.request _) _ => False
  | putJunk _ | mark .. | poll .. | putRequest .. | deqTake _ => False
  | _ => True

namespace Sys

variable [DecidableEq ι]

/-- The invariant `I` is kept by thread `w` when it goes to a program counter with
`N`, and by changes that the program counters do not show. -/
structure Framed (w : ι) (I : Sys ι → Prop) (N : Pc → Prop) : Prop where
  plain : ∀ {pc}, pc.Plain → N pc
  modify : ∀ {s f}, I s → N (f (s.thread w)).pc → I (s.modify w f)
  putMsg : ∀ {s msg}, I s → I (s.putMsg msg)
  putCfg : ∀ {s cfg}, I s → I (s.putCfg cfg)
  setRing : ∀ {s q queued}, I s → I (s.setRing q queued)
  setFamily : ∀ {s i parent cnt}, I s →
    I { s with tables := s.tables.setFamily i parent cnt }
  take : ∀ {s i q}, I s → q ∈ (s.tables.nfs i).msgQ → N (.deqTake q)

namespace Framed

variable {w : ι} {I : Sys ι → Prop} {N : Pc → Prop} {s : Sys ι}

theorem goto (h : Framed w I N) (hs : I s) {pc : Pc} (hpc : N pc) : I (s.goto w pc) :=
  h.modify hs hpc

theorem stop (h : Framed w I N) (hs : I s) : I (s.stop w) := by
  unfold Sys.stop
  dsimp only
  split
  · exact h.goto hs (h.plain trivial)
  · split
    · exact h.goto hs (h.plain trivial)
    · refine h.modify hs (h.plain ?_)
      dsimp only
      split <;> trivial

theorem startFailed (h : Framed w I N) (hs : I s) (child : Option Nat) :
    I (s.startFailed w child) := by
  cases child with
  | none => exact h.goto hs (h.plain trivial)
  | some _ => exact h.stop hs

theorem startStep (h : Framed w I N) (hs : I s) {pc : Pc} (hpc : (s.thread w).pc = pc) :
    I (s.startStep w pc) := by
  cases pc with
  | startCheck cfg child =>
    dsimp only [Sys.startStep]
    split
    · exact h.goto hs (h.plain trivial)
    · exact h.startFailed hs child
  | dropCfg cfg msg => exact h.goto (h.putCfg hs) (h.plain (by cases msg <;> trivial))
  | startWait | startKeep | startTerm | startRead =>
    exact h.goto hs (h.plain (by split <;> trivial))
  | startLate cfg child =>
    dsimp only [Sys.startStep]
    split
    · exact h.startFailed (h.modify hs (h.plain (by rw [hpc]; trivial))) child
    · exact h.startFailed hs child
  | startRefused cfg child => exact h.startFailed (h.putCfg hs) child
  | startSlot cfg child =>
    dsimp only [Sys.startStep]
    exact h.modify hs (h.plain trivial)
  | startPut cfg child i => exact h.goto (h.putCfg hs) (h.plain trivial)
  | startInit cfg child i =>
    exact h.goto (h.setFamily hs) (h.plain (by cases child <;> trivial))
  | childSlot cfg parent =>
    dsimp only [Sys.startStep]
    exact h.modify (h.setFamily hs) (h.plain trivial)
  | _ => exact hs

theorem dequeueStep (h : Framed w I N) (hs : I s) (pc : Pc) : I (s.dequeueStep w pc) := by
  cases pc with
  | deqCount i =>
    dsimp only [Sys.dequeueStep]
    split
    · exact h.goto hs (h.plain trivial)
    · rename_i q hq
      split
      · exact h.goto hs (h.plain trivial)
      · exact h.goto hs (h.plain trivial)
      · exact h.goto hs (h.take hs hq)
  | deqTake q =>
    dsimp only [Sys.dequeueStep]
    split
    · exact h.goto hs (h.plain trivial)
    · exact h.goto hs (h.plain trivial)
    · exact h.goto (h.setRing hs) (h.plain trivial)
  | deqHandle msg =>
    dsimp only [Sys.dequeueStep]
    exact h.modify hs (h.plain trivial)
  | deqPut msg => exact h.goto (h.putMsg hs) (h.plain trivial)
  | _ => exact hs

theorem call (h : Framed w I N) (hs : I s) {op : Op} (hreq : ∀ k, I (s.callRequest w k))
    (hget : (s.thread w).pc = .idle → (s.thread w).cfg = none → ∀ cfg, I (s.getCfg w cfg)) :
    I (s.call w op) := by
  unfold Sys.call
  split
  · rename_i hpc
    cases op with
    | requestLpm | requestFt => exact hreq _
    | initCfg cfg =>
      dsimp only [callOp]
      split
      · rename_i hcfg
        exact hget hpc hcfg cfg
      · exact hs
    | badArgs =>
      dsimp only [callOp]
      exact h.modify hs (h.plain trivial)
    | startNf | startChild =>
      dsimp only [callOp, Sys.startNf]
      split
      · exact hs
      · exact h.modify hs (h.plain trivial)
    | nfReady | dequeueMessages =>
      dsimp only [callOp]
      split
      · exact hs
      · exact h.goto hs (h.plain trivial)
    | stop => exact h.stop hs
    | sendMsgToNf dest => exact h.goto hs (h.plain trivial)
  · exact hs

end Framed

end Sys

end Onvm.Msg

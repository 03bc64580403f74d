import Onvm.Msg.Frame

/-!
# The request handshake

A thread sends a request, then writes `NF_WAITING_FOR_LPM` or `NF_WAITING_FOR_FT`
into it and waits until the manager has written its result there. The message is on
the queue before the status is written, so the manager can be faster: then the
thread overwrites the result and waits for ever. Where the manager handles a
request only after the write, the thread reads the result and returns it.
-/

namespace Onvm.Msg

open Onvm.Lib Onvm.Nflib Onvm.Mgr

variable {ι : Type}

def Pc.Polls : Pc → Prop
  | poll .. => True
  | _ => False

/-- What the status of a request may be when the manager has answered it with `r`:
a thread that waits reads `r`, and none has the write of the waiting status still
to come. -/
def Pc.Reads (req r : Int) : Pc → Prop
  | get (.request _) | enqueue (.request _) _ | mark .. => False
  | poll .. | putRequest .. => req = r
  | _ => True

/-- A status does not matter. -/
def Pc.Quiet (pc : Pc) : Prop := ∀ req r, pc.Reads req r

theorem Pc.Plain.quiet {pc : Pc} (h : pc.Plain) : pc.Quiet := fun req r => by
  cases pc with
  | get op | enqueue op msg =>
    cases op with
    | request => exact h.elim
    | _ => trivial
  | mark | poll | putRequest => exact h.elim
  | _ => trivial

namespace Sys

variable [DecidableEq ι]

/-- A thread in the loop whose request has been answered reads the result, which is
not the waiting status, and leaves the loop; after the loop it returns the result. -/
def ReplyRead (s : Sys ι) : Event ι → Prop
  | .tick w => ∀ r, s.answer w = some r →
    (∀ k msg, (s.thread w).pc = .poll k msg → s.req w = r ∧ s.req w ≠ k.waiting ∧
      ((s.step (.tick w)).thread w).pc = .putRequest k msg) ∧
    ∀ k msg, (s.thread w).pc = .putRequest k msg → ((s.step (.tick w)).thread w).ret = some r
  | .signal _ | .call .. | .mgrCall _ | .mgrTick _ => True

omit [DecidableEq ι] in
/-- The manager handles a request when its thread is in the loop. -/
def HandledInTime (s : Sys ι) : Event ι → Prop
  | .mgrTick _ => ∀ msg msgs k w, s.mgr = .batch (msg :: msgs) →
    s.content msg = .request k w → (s.thread w).pc.Polls
  | .signal _ | .call .. | .tick _ | .mgrCall _ => True

omit [DecidableEq ι] in
def Replied (s : Sys ι) : Prop :=
  ∀ w r, s.answer w = some r → (r = 0 ∨ r = -1) ∧ (s.thread w).pc.Reads (s.req w) r

variable {s : Sys ι} {w : ι}

omit [DecidableEq ι] in
theorem Replied.congr (h : s.Replied) {s' : Sys ι} (ha : s'.answer = s.answer)
    (hreq : s'.req = s.req) (hthread : s'.thread = s.thread) : s'.Replied := by
  intro w r hr
  rw [ha] at hr
  rw [hreq, hthread]
  exact h w r hr

theorem Replied.modify (h : s.Replied) {f : Thread → Thread}
    (hf : ∀ r, s.answer w = some r → (f (s.thread w)).pc.Reads (s.req w) r) :
    (s.modify w f).Replied := by
  intro v r hr
  refine ⟨(h v r hr).1, ?_⟩
  by_cases hv : v = w
  · subst hv
    simpa [Sys.modify] using hf r hr
  · simpa [Sys.modify, hv] using (h v r hr).2

theorem replied_framed (w : ι) : Framed w Replied Pc.Quiet where
  plain hpc := hpc.quiet
  modify h hf := h.modify fun r _ => hf _ r
  putMsg h := h.congr rfl rfl rfl
  putCfg h := h.congr rfl rfl rfl
  setRing h := h.congr rfl rfl rfl
  setFamily h := h.congr rfl rfl rfl
  take _ _ _ _ := trivial

theorem Replied.unanswered (h : s.Replied) (hpc : ∀ r, ¬ (s.thread w).pc.Reads (s.req w) r)
    {f : Thread → Thread} : (s.modify w f).Replied :=
  h.modify fun r hr => absurd (h w r hr).2 (hpc r)

theorem Replied.getMsg (h : s.Replied) {op : SendOp} (hpc : (s.thread w).pc = .get op) :
    (s.getMsg w op).Replied := by
  unfold Sys.getMsg
  cases op with
  | request k =>
    have hno : ∀ r, ¬ (s.thread w).pc.Reads (s.req w) r := fun r => by
      rw [hpc]
      exact id
    split
    · exact h.unanswered hno
    · exact Replied.unanswered (h.congr (by rfl) (by rfl) (by rfl)) (by exact hno)
  | start | ready | stopping | toNf =>
    split
    · exact (replied_framed w).modify h (Pc.Plain.quiet trivial)
    · exact (replied_framed w).goto (h.congr (by rfl) (by rfl) (by rfl)) (Pc.Plain.quiet trivial)

theorem Replied.enqueueMsg (h : s.Replied) {op : SendOp} {msg : Nat}
    (hpc : (s.thread w).pc = .enqueue op msg) : (s.enqueueMsg w op msg).Replied := by
  unfold Sys.enqueueMsg
  cases op with
  | request k =>
    have hno : ∀ r, ¬ (s.thread w).pc.Reads (s.req w) r := fun r => by
      rw [hpc]
      exact id
    dsimp only [enqueueMgrMsg]
    split
    · exact Replied.unanswered (h.congr (by rfl) (by rfl) (by rfl)) (by exact hno)
    · exact Replied.unanswered (h.congr (by rfl) (by rfl) (by rfl)) (by exact hno)
  | start | ready | stopping =>
    dsimp only [enqueueMgrMsg]
    split
    · exact (replied_framed w).modify (h.congr (by rfl) (by rfl) (by rfl))
        (Pc.Plain.quiet (by trivial))
    · exact (replied_framed w).goto (h.congr (by rfl) (by rfl) (by rfl)) (Pc.Plain.quiet trivial)
  | toNf dest =>
    have hcontent : ({ s with content := Function.update s.content msg .other } : Sys ι).Replied :=
      h.congr rfl rfl rfl
    have hidle : ∀ pc : Pc, pc.Plain → (Sys.goto { s with content := _ } w pc).Replied :=
      fun pc hpc => (replied_framed w).goto hcontent hpc.quiet
    dsimp only [enqueueNfMsg]
    split
    · exact hidle _ trivial
    · split
      · exact hidle _ trivial
      · split
        · exact (replied_framed w).goto ((replied_framed w).setRing hcontent) (Pc.Plain.quiet trivial)
        · exact hidle _ trivial

theorem Replied.threadStep (h : s.Replied) : (s.threadStep w).Replied := by
  have hput : ∀ msg, (s.putMsg msg).Replied := fun msg => (replied_framed w).putMsg h
  unfold Sys.threadStep
  split
  · exact h
  · exact h
  · rename_i op hpc
    exact h.getMsg hpc
  · exact (replied_framed w).goto (hput _) (Pc.Plain.quiet trivial)
  · rename_i op msg hpc
    exact h.enqueueMsg hpc
  · rename_i op msg hpc
    refine (hput msg).modify fun r _ => ?_
    cases op <;> trivial
  · -- The waiting status is written to a request that nobody has answered.
    rename_i k msg hpc
    have hnone : s.answer w = none := by
      by_contra hsome
      obtain ⟨r, hr⟩ := Option.ne_none_iff_exists'.mp hsome
      have := (h w r hr).2
      rw [hpc] at this
      exact this
    intro v r hr
    replace hr : s.answer v = some r := hr
    have hv : v ≠ w := by
      rintro rfl
      rw [hnone] at hr
      cases hr
    simpa [Sys.goto, Sys.modify, hv] using h v r hr
  · rename_i k msg hpc
    split
    · exact h
    · refine h.modify fun r hr => ?_
      have := (h w r hr).2
      rw [hpc] at this
      exact this
  · exact (hput _).modify fun r _ => trivial
  · split
    · exact (replied_framed w).goto h (Pc.Plain.quiet trivial)
    · exact h
  · exact (replied_framed w).dequeueStep h _
  · exact (replied_framed w).dequeueStep h _
  · exact (replied_framed w).dequeueStep h _
  · exact (replied_framed w).dequeueStep h _
  · exact (replied_framed w).startStep h rfl

theorem Replied.handle (h : s.Replied) {ok : Bool} {msg : Nat} {msgs : List Nat}
    (hc : ∀ k w, s.content msg = .request k w → (s.thread w).pc.Polls) :
    (s.handle ok msg msgs).Replied := by
  unfold Sys.handle
  split
  · rename_i k w hmsg
    have hpolls := hc k w hmsg
    intro v r hr
    by_cases hv : v = w
    · subst hv
      obtain rfl : (if ok then 0 else -1) = r := by
        simpa [mgrGoto, answerRequest] using hr
      refine ⟨by cases ok <;> simp, ?_⟩
      show (s.thread v).pc.Reads (Function.update s.req v _ v) _
      rw [Function.update_self]
      cases hpc : (s.thread v).pc with
      | poll k msg => rfl
      | _ =>
        rw [hpc] at hpolls
        exact hpolls.elim
    · have hr : s.answer v = some r := by
        simpa [mgrGoto, answerRequest, hv] using hr
      simpa [mgrGoto, answerRequest, hv] using h v r hr
  · exact h.congr rfl rfl rfl
  · exact h.congr rfl rfl rfl
  · dsimp only
    split
    · exact h.congr rfl rfl rfl
    · exact h.congr rfl rfl rfl
  · exact h.congr rfl rfl rfl
  · exact h.congr rfl rfl rfl

theorem Replied.mgrStep (h : s.Replied) {ok : Bool} (hc : s.HandledInTime (.mgrTick ok)) :
    (s.mgrStep ok).Replied := by
  unfold Sys.mgrStep
  split
  · exact h
  · exact h
  · split <;> exact h.congr rfl rfl rfl
  · exact h.congr rfl rfl rfl
  · rename_i msg msgs hmgr
    exact h.handle fun k w hmsg => hc msg msgs k w hmgr hmsg
  · exact h.congr rfl rfl rfl
  · exact h.congr rfl rfl rfl
  · dsimp only [sendStep]
    split <;> exact h.congr rfl rfl rfl
  · dsimp only [sendStep]
    split
    · exact h.congr rfl rfl rfl
    · split
      · exact h.congr rfl rfl rfl
      · split <;> exact h.congr rfl rfl rfl
  · unfold stopStep
    split
    · split
      · exact h.congr rfl rfl rfl
      · split <;> exact h.congr rfl rfl rfl
    · exact h.congr rfl rfl rfl
    · split <;> exact h.congr rfl rfl rfl
    · exact h.congr rfl rfl rfl
    · exact h

theorem Replied.step (h : s.Replied) {e : Event ι} (hc : s.HandledInTime e) :
    (s.step e).Replied := by
  cases e with
  | signal w =>
    dsimp only [Sys.step]
    exact h.modify fun r hr => (h w r hr).2
  | call w op =>
    refine (replied_framed w).call h (fun k v r hr => ?_) fun hpc _ cfg => ?_
    · by_cases hv : v = w
      · simp [callRequest, Sys.goto, Sys.modify, hv] at hr
      · have hr : s.answer v = some r := by
          simpa [callRequest, Sys.goto, Sys.modify, hv] using hr
        simpa [callRequest, Sys.goto, Sys.modify, hv] using h v r hr
    · unfold getCfg
      split
      · exact (replied_framed w).goto h (Pc.Plain.quiet trivial)
      · exact Replied.modify (h.congr (by rfl) (by rfl) (by rfl)) fun r hr => (h w r hr).2
  | tick w => exact h.threadStep
  | mgrCall op =>
    dsimp only [Sys.step, Sys.mgrCall]
    split
    · split
      · exact h
      · exact h.congr rfl rfl rfl
    · exact h.congr rfl rfl rfl
    · exact h
  | mgrTick ok => exact h.mgrStep hc

theorem ne_waiting {r : Int} (h : r = 0 ∨ r = -1) (k : ReqKind) : r ≠ k.waiting := by
  rcases h with rfl | rfl <;> cases k <;>
    simp [ReqKind.waiting, nfWaitingForLpm, nfWaitingForFt]

theorem Replied.replyRead (h : s.Replied) (e : Event ι) : s.ReplyRead e := by
  cases e with
  | signal | call | mgrCall | mgrTick => trivial
  | tick w =>
    intro r hr
    obtain ⟨hvalue, hreads⟩ := h w r hr
    constructor
    · intro k msg hpc
      rw [hpc] at hreads
      have hreq : s.req w = r := hreads
      have hne : s.req w ≠ k.waiting := hreq ▸ ne_waiting hvalue k
      refine ⟨hreq, hne, ?_⟩
      simp [Sys.step, Sys.threadStep, hpc, hne, Sys.goto, Sys.modify]
    · intro k msg hpc
      rw [hpc] at hreads
      have hreq : s.req w = r := hreads
      simp [Sys.step, Sys.threadStep, hpc, hreq, Sys.modify]

/-- **No lost reply.** In a run in which the manager handles each request after its
thread has written the waiting status, a thread whose request has been answered
reads the result, leaves the loop and returns it. The threads may start anywhere
outside a request. -/
theorem reply_not_lost (s : Sys ι) (es : List (Event ι)) (hs : ∀ w, s.answer w = none)
    (hc : Along step HandledInTime s es) : Along step ReplyRead s es := by
  have hstart : s.Replied := fun w r hr => by
    rw [hs w] at hr
    cases hr
  exact Along.of_inv (I := Replied) (fun _ _ h hc => h.step hc) (fun _ e h _ => h.replyRead e)
    hstart hc

/-- One NF thread, before its first request. -/
def oneThread : Sys Unit := boot Tables.bootSingle [7] []

/-- The thread sends a request for a flow table, and the manager finds it. -/
def ftRequest : List (Event Unit) :=
  [.call () (.requestFt 0), .tick (), .tick (), .mgrCall .checkStatus, .mgrTick true]

theorem reply_not_lost_ft : Along step ReplyRead oneThread
    (ftRequest ++ [.tick (), .mgrTick true, .tick (), .tick ()]) := by
  refine reply_not_lost oneThread _ (fun _ => rfl) ?_
  refine ⟨trivial, trivial, trivial, trivial, ?_, trivial, ?_, trivial, trivial, trivial⟩
  · intro msg msgs k w hmgr
    cases hmgr
  · rintro msg msgs k ⟨⟩ - -
    trivial

/-- The manager answers first: the thread overwrites the answer and goes on
waiting. -/
theorem reply_overwritten : ¬ Along step ReplyRead oneThread
    (ftRequest ++ [.mgrTick true, .tick (), .tick ()]) := by
  intro h
  obtain ⟨-, -, -, hread, -⟩ := along_append.mp h
  obtain ⟨hloop, -⟩ := hread 0 (by decide +kernel)
  obtain ⟨hreq, -, -⟩ := hloop (.ft 0) 7 (by decide +kernel)
  exact absurd hreq (by decide +kernel)

end Sys

end Onvm.Msg

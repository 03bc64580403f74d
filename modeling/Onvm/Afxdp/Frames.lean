import Onvm.Afxdp.Refine
import Onvm.Lib.Custody

/-!
# Where a frame is

The seven places a frame can be at, on the list model. Every step leaves every
frame where it is or hands it from one place to another, so a frame is never
lost, never at two places, and freeing one always finds room on the free list.
-/

namespace Onvm.Afxdp

open Onvm.Lib

inductive Place where
  | freeList
  | fillRing
  | kernelRx
  | rxRing
  | txRing
  | kernelTx
  | compRing
  deriving DecidableEq, Repr

instance : Fintype Place where
  elems := {.freeList, .fillRing, .kernelRx, .rxRing, .txRing, .kernelTx, .compRing}
  complete p := by cases p <;> decide

theorem sum_place (f : Place → Nat) :
    ∑ p, f p = f .freeList + f .fillRing + f .kernelRx + f .rxRing + f .txRing + f .kernelTx +
      f .compRing := by
  have hu : (Finset.univ : Finset Place) =
    {.freeList, .fillRing, .kernelRx, .rxRing, .txRing, .kernelTx, .compRing} := rfl
  rw [hu]
  simp [← Nat.add_assoc]

def allFrames : Finset Nat := Finset.range afxdpNumFrames

namespace Flow

/-- The frames at each place. A sentinel in the Fill ring is no frame; a peeked
packet counts for the RX ring until it is copied on or freed, a peeked
completion for its ring until it is freed. -/
def held (a : Flow) : Place → List Nat
  | .freeList => frames a.free
  | .fillRing => frames ((a.fillPub ++ a.fillWr).filter (InUmem ·))
  | .kernelRx => frames a.rxHeld
  | .rxRing => frames ((a.rxTodo ++ a.rxAv).map XdpDesc.addr)
  | .txRing => frames ((a.txPub ++ a.txWr).map XdpDesc.addr)
  | .kernelTx => frames a.txHeld
  | .compRing => frames (a.cqTodo ++ a.cqAv)

def Conserved (a : Flow) : Prop := Custody allFrames a.held

theorem frames_cons (x : Nat) (l : List Nat) : frames (x :: l) = frameOf x :: frames l := rfl

theorem frames_append (l m : List Nat) : frames (l ++ m) = frames l ++ frames m :=
  List.map_append

theorem mem_allFrames {addr : Nat} : frameOf addr ∈ allFrames ↔ InUmem addr := by
  rw [allFrames, Finset.mem_range, inUmem_iff_frameOf]

/-- No frame of the UMEM is lost by leaving the sentinels out. -/
theorem count_frames_filter {k : Nat} (hk : k ∈ allFrames) (l : List Nat) :
    (frames l).count k = (frames (l.filter (InUmem ·))).count k := by
  induction l with
  | nil => rfl
  | cons x l ih =>
    by_cases hx : InUmem x
    · simp only [List.filter_cons, hx, decide_true, if_true, frames_cons, List.count_cons, ih]
    · have hne : frameOf x ≠ k := by
        intro he
        exact hx (mem_allFrames.mp (he ▸ hk))
      simp only [List.filter_cons, hx, decide_false, Bool.false_eq_true, if_false, frames_cons,
        List.count_cons_of_ne hne, ih]

theorem Conserved.inUmem_free {a : Flow} (h : a.Conserved) {x : Nat} (hx : x ∈ a.free) :
    InUmem x :=
  mem_allFrames.mp (h.mem (p := .freeList) (List.mem_map_of_mem hx))

theorem Conserved.total {a : Flow} (h : a.Conserved) :
    a.free.length + ((a.fillPub ++ a.fillWr).filter (InUmem ·)).length + a.rxHeld.length +
      (a.rxTodo.length + a.rxAv.length) + (a.txPub.length + a.txWr.length) + a.txHeld.length +
      (a.cqTodo.length + a.cqAv.length) = afxdpNumFrames := by
  have h1 := h.sum_length
  rw [allFrames, Finset.card_range, sum_place] at h1
  simpa only [held, frames, List.length_map, List.length_append] using h1

theorem Init.inUmem_fill {a : Flow} (h : a.Init) {x : Nat} (hx : x ∈ a.fillPub) : InUmem x := by
  have hm : frameOf x ∈ Flow.frames (a.free ++ a.fillPub) :=
    List.mem_map_of_mem (List.mem_append_right _ hx)
  exact inUmem_iff_frameOf.mpr (List.mem_range.mp (h.frames.mem_iff.mp hm))

theorem Init.conserved {a : Flow} (h : a.Init) : a.Conserved := by
  obtain ⟨⟨-, hct⟩, ⟨hfw, -⟩, ⟨htw, -⟩, -, hrt⟩ : a.QuietCq ∧ a.QuietFill ∧ a.QuietTx ∧
      a.rxDone = [] ∧ a.rxTodo = [] := by
    have := h.shape
    simpa only [Shape, h.pc] using this
  have hfill : a.fillPub.filter (InUmem ·) = a.fillPub :=
    List.filter_eq_self.mpr fun x hx => by simpa using h.inUmem_fill hx
  intro t
  have hcount : (Flow.frames a.free).count t + (Flow.frames a.fillPub).count t =
      (List.range afxdpNumFrames).count t := by
    rw [← List.count_append, ← frames_append, h.frames.count_eq]
  rw [sum_place]
  simp only [held, hct, hfw, htw, hrt, h.rxHeld, h.rxAv, h.txPub, h.txHeld, h.cqAv,
    List.append_nil, hfill, List.map_nil, hcount]
  rw [List.nodup_range.count, allFrames]
  simp [Flow.frames, List.mem_range]

/-- **One step**: nothing moves, or one frame goes from one place to another. -/
theorem Thread.conserved {a a' : Flow} (h : Thread a a') (hs : a.Shape) (hc : a.Conserved) :
    a'.Conserved := by
  cases h with
  | enter | reclaimAbort | releaseCq | peekRxNone | fillNbFree | fillReserve | txNbFree |
    txReserve | txReadAddr | txReadLen | txWriteAddr | dropReadAddr | dropAbort | releaseRx =>
    exact hc
  | peekCq n hpc =>
    simp only [Shape, hpc] at hs
    refine hc.congr fun p => ?_
    cases p <;> simp only [held, List.take_append_drop, hs.1.2, List.nil_append, List.Perm.refl]
  | peekRx n hpc =>
    simp only [Shape, hpc] at hs
    refine hc.congr fun p => ?_
    cases p <;>
      simp only [held, List.take_append_drop, hs.2.2.2.2, List.nil_append, List.Perm.refl]
  | reclaim x l hpc htodo =>
    refine Custody.move (t := frameOf x) hc (p := .compRing) (q := .freeList) (by decide) ?_ ?_ ?_
    · simp only [held, htodo, List.cons_append, frames_cons, List.Perm.refl]
    · simp only [held, frames_cons, List.Perm.refl]
    · intro r h1 h2
      cases r <;> first | exact .refl _ | contradiction
  | fillWrite x l hpc hfree =>
    have hx : InUmem x := hc.inUmem_free (by rw [hfree]; exact List.mem_cons_self)
    refine Custody.move (t := frameOf x) hc (p := .freeList) (q := .fillRing) (by decide) ?_ ?_ ?_
    · simp only [held, hfree, frames_cons, List.Perm.refl]
    · simp only [held, ← List.append_assoc]
      rw [List.filter_append, frames_append]
      simp only [List.filter_cons, hx, decide_true, if_true, List.filter_nil, frames_cons]
      exact List.perm_append_comm
    · intro r h1 h2
      cases r <;> first | exact .refl _ | contradiction
  | fillSentinel hpc hfree =>
    refine hc.congr fun p => ?_
    cases p <;> simp [held, not_inUmem_invalid]
  | fillSubmit hpc =>
    refine hc.congr fun p => ?_
    cases p <;> simp only [held, List.append_nil, List.Perm.refl]
  | txWriteLen d l hpc htodo =>
    refine Custody.move (t := frameOf d.addr) hc (p := .rxRing) (q := .txRing) (by decide) ?_ ?_ ?_
    · simp only [held, htodo, List.cons_append, List.map_cons, frames_cons, List.Perm.refl]
    · simp only [held, ← List.append_assoc, List.map_append, List.map_cons, List.map_nil,
        frames_append, frames_cons]
      exact List.perm_append_comm
    · intro r h1 h2
      cases r <;> first | exact .refl _ | contradiction
  | txSubmit hpc =>
    refine hc.congr fun p => ?_
    cases p <;> simp only [held, List.append_nil, List.Perm.refl]
  | drop d l hpc htodo =>
    refine Custody.move (t := frameOf d.addr) hc (p := .rxRing) (q := .freeList) (by decide) ?_ ?_ ?_
    · simp only [held, htodo, List.cons_append, List.map_cons, frames_cons, List.Perm.refl]
    · simp only [held, frames_cons, List.Perm.refl]
    · intro r h1 h2
      cases r <;> first | exact .refl _ | contradiction

theorem Kernel.conserved {a a' : Flow} (h : Kernel a a') (hc : a.Conserved) : a'.Conserved := by
  cases h with
  | takeFill x l hpub hx =>
    refine Custody.move (t := frameOf x) hc (p := .fillRing) (q := .kernelRx) (by decide) ?_ ?_ ?_
    · simp [held, hpub, hx, frames_cons]
    · simp only [held, frames_cons, List.Perm.refl]
    · intro r h1 h2
      cases r <;> first | exact .refl _ | contradiction
  | dropFill x l hpub hx =>
    refine hc.congr fun p => ?_
    cases p <;> simp [held, hpub, hx]
  | publishRx l l' x d hheld hfr =>
    refine Custody.move (t := frameOf x) hc (p := .kernelRx) (q := .rxRing) (by decide) ?_ ?_ ?_
    · simp only [held, hheld, frames_append, frames_cons]
      exact List.perm_middle
    · simp only [held, ← List.append_assoc, List.map_append, List.map_cons, List.map_nil,
        frames_append, frames_cons, hfr]
      exact List.perm_append_comm
    · intro r h1 h2
      cases r <;> first | exact .refl _ | contradiction
  | takeTx d l hpub =>
    refine Custody.move (t := frameOf d.addr) hc (p := .txRing) (q := .kernelTx) (by decide) ?_ ?_ ?_
    · simp only [held, hpub, List.cons_append, List.map_cons, frames_cons, List.Perm.refl]
    · simp only [held, frames_cons, List.Perm.refl]
    · intro r h1 h2
      cases r <;> first | exact .refl _ | contradiction
  | completeTx l l' x hheld =>
    refine Custody.move (t := frameOf x) hc (p := .kernelTx) (q := .compRing) (by decide) ?_ ?_ ?_
    · simp only [held, hheld, frames_append, frames_cons]
      exact List.perm_middle
    · simp only [held, ← List.append_assoc, frames_append, frames_cons]
      exact List.perm_append_comm
    · intro r h1 h2
      cases r <;> first | exact .refl _ | contradiction

theorem Step.conserved {a a' : Flow} (h : Step a a') (hs : a.Shape) (hc : a.Conserved) :
    a'.Conserved :=
  h.elim (·.conserved hs hc) (·.conserved hc)

/-- The frame being freed is not on the free list, so there is room for it. -/
theorem Thread.pc_ne_abort {a a' : Flow} (h : Thread a a') (hc : a.Conserved) : a'.pc ≠ .abort := by
  have htotal := hc.total
  cases h with
  | reclaimAbort hpc hne hfull =>
    have := List.length_pos_iff.mpr hne
    omega
  | dropAbort hpc hne hfull =>
    have := List.length_pos_iff.mpr hne
    omega
  | txSubmit | drop => simp only [dropPc]; split <;> simp
  | _ => first | exact Pc.noConfusion | (simp only; split <;> simp)

theorem Kernel.pc_eq {a a' : Flow} (h : Kernel a a') : a'.pc = a.pc := by cases h <;> rfl

theorem Step.pc_ne_abort {a a' : Flow} (h : Step a a') (hc : a.Conserved) (ha : a.pc ≠ .abort) :
    a'.pc ≠ .abort :=
  h.elim (·.pc_ne_abort hc) fun hk => hk.pc_eq ▸ ha

end Flow

theorem flow_conserved {a : Flow} (h : flow.Reachable a) : a.Conserved :=
  h.induct (P := Flow.Conserved) (fun _ hi => Flow.Init.conserved hi)
    fun _ _ hr hc hn => Flow.Step.conserved hn (flow_shape hr) hc

theorem flow_pc_ne_abort {a : Flow} (h : flow.Reachable a) : a.pc ≠ .abort :=
  h.induct (P := fun a => a.pc ≠ .abort) (fun _ hi => by rw [Flow.Init.pc hi]; simp)
    fun _ _ hr ha hn => Flow.Step.pc_ne_abort hn (flow_conserved hr) ha

end Onvm.Afxdp

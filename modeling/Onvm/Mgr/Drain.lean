import Onvm.Mgr.Effect
import Onvm.Mgr.Rings

/-!
# What the manager does to queued packets

The messages touch the rings in two ways: `onvm_nf_start` creates them empty, and
`onvm_nf_stop` dequeues what is left on the three of the NF that stops. Packets it
frees; what is on the message ring goes back to the pool of messages.
-/

namespace Onvm.Mgr.Tables

open Onvm.Lib Onvm.Nflib

/-- What is on a ring; nothing is on one that does not exist. -/
def queued (m : Tables) (name : RingName) : List Nat := (m.rings name).getD []

/-- The slot whose rings `onvm_nf_stop` empties, if the message makes it do so. -/
def drained (m : Tables) : Msg → Option Nat
  | .nfStopping (some i) =>
    let nfStatus := (m.nfs i).status
    if nfStatus ≠ .starting ∧ nfStatus ≠ .running ∧ nfStatus ≠ .paused then none
    else some (m.nfs i).instanceId
  | .nfStopping none | .nfStarting _ | .nfReady _ | .requestLpmRegion | .requestFt | .other => none

/-- The packets that `onvm_nf_stop` frees: what is on `rx_q` and then what is on `tx_q`. -/
def leftOver (m : Tables) (msg : Msg) : List Nat :=
  match m.drained msg with
  | none => []
  | some nfId =>
    let nf := m.nfs nfId
    ((nf.rxQ.bind m.rings).getD []) ++ ((nf.txQ.bind (drain m.rings nf.rxQ)).getD [])

def Owns (m : Tables) (i : Nat) (name : RingName) : Prop :=
  (m.nfs i).rxQ = some name ∨ (m.nfs i).txQ = some name ∨ (m.nfs i).msgQ = some name

instance (m : Tables) (i : Nat) (name : RingName) : Decidable (m.Owns i name) :=
  inferInstanceAs (Decidable (_ ∨ _ ∨ _))

section Create

variable (m : Tables) (i : Nat) (name : RingName)

theorem queued_createRing (k : RingKind) : (m.createRing i k).queued name = m.queued name := by
  unfold createRing
  split
  · rfl
  dsimp only
  split
  · rfl
  · rename_i rings hrings
    unfold rteRingCreate at hrings
    split at hrings
    · cases hrings
    · rename_i hnone
      obtain rfl := Option.some.inj hrings
      unfold queued
      dsimp only
      by_cases hname : name = ⟨k, (m.nfs i).instanceId⟩
      · rw [hname, Function.update_self]
        rw [Bool.not_eq_true, Option.isSome_eq_false_iff, Option.isNone_iff_eq_none] at hnone
        rw [hnone]
        rfl
      · rw [Function.update_of_ne hname]

theorem queued_initRings : (m.onvmNfInitRings i).queued name = m.queued name := by
  rw [onvmNfInitRings, queued_createRing, queued_createRing, queued_createRing]

/-- A new NF finds its rings empty and leaves the others alone. -/
theorem queued_start (cfg : OnvmNfInitCfg) : (m.onvmNfStart cfg).1.queued name = m.queued name := by
  unfold onvmNfStart
  dsimp only
  split
  · rfl
  split
  · rfl
  split
  · rfl
  split
  · rfl
  split
  · rfl
  split
  · rfl
  split <;> exact queued_initRings _ _ _

end Create

def queues (nf : OnvmNf) : Option RingName × Option RingName × Option RingName :=
  (nf.rxQ, nf.txQ, nf.msgQ)

theorem queues_setStatus (m : Tables) (i : Nat) (status : NfStatus) :
    queues ∘ (m.setStatus i status).nfs = queues ∘ m.nfs :=
  comp_setNf_eq queues rfl

theorem queues_tellParent (m : Tables) (nfId : Nat) :
    queues ∘ (m.tellParent nfId).nfs = queues ∘ m.nfs := by
  unfold tellParent
  dsimp only
  split
  · refine comp_setNf_eq queues ?_
    simp [queues]
  · rfl

theorem rings_tellParent (m : Tables) (nfId : Nat) : (m.tellParent nfId).rings = m.rings := by
  unfold tellParent
  dsimp only
  split <;> rfl

theorem getD_drain (rings : RingName → Option (List Nat)) (q : Option RingName) (name : RingName) :
    (drain rings q name).getD [] = if q = some name then [] else (rings name).getD [] := by
  unfold drain
  split
  · cases rings name <;> rfl
  · rfl

theorem getD_free (rings : RingName → Option (List Nat)) (q : Option RingName) (name : RingName) :
    (rteRingFree rings q name).getD [] = if q = some name then [] else (rings name).getD [] := by
  unfold rteRingFree
  split <;> rfl

theorem ite_owns (m : Tables) (nfId : Nat) (name : RingName) (pkts : List Nat) :
    (if (m.nfs nfId).msgQ = some name then [] else if (m.nfs nfId).txQ = some name then [] else
      if (m.nfs nfId).rxQ = some name then [] else pkts) = if m.Owns nfId name then [] else pkts := by
  unfold Owns
  by_cases hrx : (m.nfs nfId).rxQ = some name <;> by_cases htx : (m.nfs nfId).txQ = some name <;>
    by_cases hmsg : (m.nfs nfId).msgQ = some name <;> simp [hrx, htx, hmsg]

theorem queued_drainRings (m : Tables) (nfId : Nat) (name : RingName) :
    (m.drainRings nfId).queued name = if m.Owns nfId name then [] else m.queued name := by
  unfold drainRings queued
  dsimp only
  rw [getD_drain, getD_drain, getD_drain]
  exact ite_owns m nfId name _

theorem queued_clearRings (m : Tables) (nfId : Nat) (name : RingName) :
    (m.onvmNfClearRings nfId).queued name = if m.Owns nfId name then [] else m.queued name := by
  unfold onvmNfClearRings queued
  dsimp only
  rw [getD_free, getD_free, getD_free]
  exact ite_owns m nfId name _

theorem queued_unregister (m : Tables) (nfId serviceId : Nat) (name : RingName) :
    (m.unregister nfId serviceId).queued name =
      if m.Owns nfId name then [] else m.queued name := by
  have hclear : (m.unregister nfId serviceId).queued name =
      (m.onvmNfClearRings nfId).queued name := by
    unfold queued unregister
    rfl
  rw [hclear, queued_clearRings]

theorem owns_congr {m m' : Tables} (h : queues ∘ m'.nfs = queues ∘ m.nfs) (i : Nat)
    (name : RingName) : m'.Owns i name ↔ m.Owns i name := by
  have hi : queues (m'.nfs i) = queues (m.nfs i) := congrFun h i
  simp only [queues, Prod.mk.injEq] at hi
  unfold Owns
  rw [hi.1, hi.2.1, hi.2.2]

theorem queues_release (m : Tables) (i : Nat) : queues ∘ (m.release i).nfs = queues ∘ m.nfs := by
  show queues ∘ (((m.setStatus i .stopped).setStatus _ .stopped).tellParent _).nfs = _
  rw [queues_tellParent, queues_setStatus, queues_setStatus]

theorem queued_release (m : Tables) (i : Nat) (name : RingName) : (m.release i).queued name =
    if m.Owns (m.nfs i).instanceId name then [] else m.queued name := by
  have hqueues := queues_release m i
  have hrings : (((m.setStatus i .stopped).setStatus (m.nfs i).instanceId .stopped).tellParent
      (m.nfs i).instanceId).rings = m.rings := rings_tellParent _ _
  refine (queued_drainRings _ _ name).trans ?_
  exact if_congr (owns_congr hqueues _ name) rfl
    (congrArg (fun rings => (rings name).getD []) hrings)

/-- **Stopping.** The rings of the NF are empty afterwards, the others as before. -/
theorem queued_stop (m : Tables) (i : Nat) (name : RingName) : (m.onvmNfStop i).1.queued name =
    if ∃ nfId ∈ m.drained (.nfStopping (some i)), m.Owns nfId name then [] else m.queued name := by
  have hfree : queues ∘ (m.freeTag i).nfs = queues ∘ m.nfs := comp_setNf_eq queues rfl
  have hid : ((m.freeTag i).nfs i).instanceId = (m.nfs i).instanceId := by
    simp [freeTag, setNf]
  have hrelease := queued_release (m.freeTag i) i name
  rw [hid] at hrelease
  simp only [owns_congr hfree] at hrelease
  have hqueued : (m.freeTag i).queued name = m.queued name := rfl
  rw [hqueued] at hrelease
  unfold onvmNfStop drained
  dsimp only
  split
  · simp [hqueued]
  simp only [Option.mem_def, Option.some.injEq, exists_eq_left']
  split
  · exact hrelease
  split
  · exact hrelease
  · rw [queued_unregister, hrelease]
    have howns : ((m.freeTag i).release i).Owns (m.nfs i).instanceId name ↔
        m.Owns (m.nfs i).instanceId name :=
      owns_congr ((queues_release _ _).trans hfree) _ _
    simp only [howns]
    split_ifs <;> rfl

/-- What a message leaves on the rings. -/
theorem queued_onMsg (m : Tables) (msg : Msg) (name : RingName) : (m.onMsg msg).queued name =
    if ∃ nfId ∈ m.drained msg, m.Owns nfId name then [] else m.queued name := by
  cases msg with
  | nfStopping i =>
    cases i with
    | none => simp [onMsg, drained]
    | some i => exact queued_stop m i name
  | nfStarting cfg =>
    cases cfg with
    | none => simp [onMsg, drained]
    | some cfg =>
      have h := queued_start m name cfg
      simpa [onMsg, drained] using h
  | nfReady i =>
    have h : (m.onvmNfReady i).1.queued name = m.queued name := by
      unfold onvmNfReady
      split <;> rfl
    simpa [onMsg, drained] using h
  | requestLpmRegion | requestFt | other => simp [onMsg, drained]

/-- What `onvm_nf_stop` frees was on a ring of the NF. -/
theorem mem_leftOver {m : Tables} {msg : Msg} {pkt : Nat} (h : pkt ∈ m.leftOver msg) :
    ∃ nfId ∈ m.drained msg, ∃ name, m.Owns nfId name ∧ pkt ∈ m.queued name := by
  unfold leftOver at h
  split at h
  · cases h
  · rename_i nfId hnf
    refine ⟨nfId, hnf, ?_⟩
    have hbind : ∀ {rings : RingName → Option (List Nat)} {q : Option RingName},
        pkt ∈ (q.bind rings).getD [] → ∃ name, q = some name ∧ pkt ∈ (rings name).getD [] := by
      intro rings q hq
      cases q with
      | none => cases hq
      | some name => exact ⟨name, rfl, hq⟩
    rcases List.mem_append.mp h with h | h
    · obtain ⟨name, hq, hmem⟩ := hbind h
      exact ⟨name, .inl hq, hmem⟩
    · obtain ⟨name, hq, hmem⟩ := hbind h
      refine ⟨name, .inr (.inl hq), ?_⟩
      rw [getD_drain] at hmem
      split at hmem
      · cases hmem
      · exact hmem

/-- A packet that is on one ring, once, is freed once. -/
theorem count_leftOver_le (m : Tables) (msg : Msg) {pkt : Nat}
    (hone : ∀ name, (m.queued name).count pkt ≤ 1)
    (hunique : ∀ {p q}, pkt ∈ m.queued p → pkt ∈ m.queued q → p = q) :
    (m.leftOver msg).count pkt ≤ 1 := by
  unfold leftOver
  split
  · exact Nat.zero_le 1
  rename_i nfId _
  have hrx : (((m.nfs nfId).rxQ.bind m.rings).getD []).count pkt ≤ 1 := by
    cases (m.nfs nfId).rxQ with
    | none => exact Nat.zero_le 1
    | some name => exact hone name
  rw [List.count_append]
  cases htx : (m.nfs nfId).txQ with
  | none => exact hrx
  | some name =>
    show _ + ((drain m.rings (m.nfs nfId).rxQ name).getD []).count pkt ≤ 1
    rw [getD_drain]
    split
    · exact hrx
    rename_i hne
    have htxOne := hone name
    by_cases hmem : pkt ∈ m.queued name
    · have hother : (((m.nfs nfId).rxQ.bind m.rings).getD []).count pkt = 0 := by
        cases hq : (m.nfs nfId).rxQ with
        | none => rfl
        | some name' =>
          rw [hq] at hne
          exact List.count_eq_zero.mpr fun hmem' => hne (congrArg some (hunique hmem' hmem))
      rw [hother, Nat.zero_add]
      exact htxOne
    · have hzero : (((m.rings name).getD [])).count pkt = 0 := List.count_eq_zero.mpr hmem
      rw [hzero]
      exact hrx

end Onvm.Mgr.Tables

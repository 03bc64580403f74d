import Onvm.Mgr.Cores

/-!
# Moving NFs to other cores

With `ONVM_NF_SHUTDOWN_CORE_REASSIGNMENT`, `onvm_nf_stop` ends with a search for an NF
to move to the core of the NF that stopped. The manager moves the counters when it sends
`MSG_CHANGE_CORE`; the NF moves its `thread_info.core` when it reads the message. An NF
that stops in between is counted off the wrong core.
-/

namespace Onvm.Mgr

open Onvm.Lib Onvm.Nflib

structure Placing where
  tables : Tables
  changeCore : Nat → List Nat
  /-- Where the NF of a slot was started or moved to last, which is history. -/
  assigned : Nat → Nat
  /-- Whether an `nf_count` of 0 was decremented, which is history. -/
  underflow : Bool
  /-- Set when the search has exited: the core it names. -/
  unlocated : Option Nat

namespace Placing

def boot (numCores : NumCores) (enabled : Nat → Bool) : Placing where
  tables := .boot numCores enabled
  changeCore _ := []
  assigned _ := 0
  underflow := false
  unlocated := none

/-- `nf_count--` for one core, then `nf_count++` for another. -/
def moveCount (cores : Nat → CoreStatus) (old new : Nat) : Nat → CoreStatus :=
  let cores := Function.update cores old (cores old).subNf
  Function.update cores new (cores new).addNf

/-- `sent` is whether there is a message buffer and room on the `msg_q`. -/
def onvmNfRelocateNf (p : Placing) (dest newCore : Nat) (sent : Bool) : Placing :=
  let core := (p.tables.nfs dest).core
  { p with
    tables := { p.tables with cores := moveCount p.tables.cores core newCore }
    changeCore :=
      if sent then Function.update p.changeCore dest (p.changeCore dest ++ [newCore])
      else p.changeCore
    assigned := Function.update p.assigned dest newCore
    underflow := p.underflow || (p.tables.cores core).nfCount == 0 }

/-- The end of `onvm_nf_stop`. -/
def reassign (p : Placing) (candidateCore : Nat) (sent : Bool) : Placing :=
  match onvmThreadingFindNfToReassignCore candidateCore p.tables.cores p.tables.nfs
    p.tables.numCores.val with
  | .error core => { p with unlocated := some core }
  | .ok candidateNfId =>
    if 0 < candidateNfId then p.onvmNfRelocateNf candidateNfId candidateCore sent else p

def stopped (p : Placing) (i : Nat) : Placing :=
  { p with
    tables := (p.tables.onvmNfStop i).1
    changeCore := Function.update p.changeCore (p.tables.nfs i).instanceId []
    underflow := p.underflow || (p.tables.cores (p.tables.nfs i).core).nfCount == 0 }

def onvmNfStop (p : Placing) (i : Nat) (sent : Bool) : Placing :=
  let nf := p.tables.nfs i
  if nf.status.Active then
    if p.tables.nfInfoMp ∧ (nf.status = .running ∨ nf.status = .paused) then
      (p.stopped i).reassign nf.core sent
    else p.stopped i
  else { p with tables := (p.tables.onvmNfStop i).1 }

def onvmNfStart (p : Placing) (cfg : OnvmNfInitCfg) : Placing :=
  let tables := (p.tables.onvmNfStart cfg).1
  match p.tables.grantedId cfg with
  | none => { p with tables := tables }
  | some id =>
    { p with
      tables := tables
      changeCore := Function.update p.changeCore id []
      assigned := Function.update p.assigned id (tables.nfs id).core }

/-- `MSG_CHANGE_CORE` in `onvm_nflib_handle_msg`, if there is one. -/
def onvmNflibHandleMsg (p : Placing) (i : Nat) : Placing :=
  match p.changeCore i with
  | [] => p
  | core :: msgs =>
    { p with
      tables := p.tables.setNf i { p.tables.nfs i with core := core }
      changeCore := Function.update p.changeCore i msgs }

/-- Something happens to the tables, or an NF reads a message. `sent` is for the message
that is sent when an NF stops. -/
inductive Event where
  | tables (e : Tables.Event) (sent : Bool)
  | readMsg (i : Nat)

/-- Once the manager has exited nothing changes. -/
def onEvent (p : Placing) (e : Event) : Placing :=
  match p.tables.exit, p.unlocated with
  | none, none =>
    match e with
    | .tables (.msg (.nfStarting (some cfg))) _ => p.onvmNfStart cfg
    | .tables (.msg (.nfStopping (some i))) sent => p.onvmNfStop i sent
    | .tables e _ => { p with tables := p.tables.onEvent e }
    | .readMsg i => p.onvmNflibHandleMsg i
  | _, _ => p

/-- The accounts: an NF that was moved counts on its new core. -/
structure Right (p : Placing) : Prop where
  located : p.unlocated = none
  noUnderflow : p.underflow = false
  count : p.tables.exit = none → p.tables.view.CountedOn p.assigned

/-! ## When an NF can stop -/

def countWithout (m : Tables) (i c : Nat) : Nat :=
  if c = (m.nfs i).core then (m.cores c).nfCount - 1 else (m.cores c).nfCount

def RunsOn (m : Tables) (i c k : Nat) : Prop :=
  k ≠ i ∧ (m.nfs k).status = .running ∧ (m.nfs k).core = c

instance (m : Tables) (i c : Nat) : DecidablePred (RunsOn m i c) := fun k =>
  inferInstanceAs (Decidable (k ≠ i ∧ (m.nfs k).status = .running ∧ (m.nfs k).core = c))

/-- The first running NF on a core has an ID other than 0 and is counted there. -/
def HasMovable (p : Placing) (i c : Nat) : Prop :=
  ∃ j < maxNfs, RunsOn p.tables i c j ∧ (∀ k < j, ¬ RunsOn p.tables i c k) ∧
    j ≠ 0 ∧ p.assigned j = c

instance (p : Placing) (i c : Nat) : Decidable (p.HasMovable i c) :=
  inferInstanceAs (Decidable (∃ j < maxNfs, RunsOn p.tables i c j ∧
    (∀ k < j, ¬ RunsOn p.tables i c k) ∧ j ≠ 0 ∧ p.assigned j = c))

/-- The NF is on the core that it is counted on. If another core is left with at least
two NFs more than that one, the most used core has an NF to move. -/
def StopsWell (p : Placing) (i : Nat) : Prop :=
  (p.tables.nfs i).status.Active →
    (p.tables.nfs i).core = p.assigned i ∧
      ((p.tables.nfs i).status = .running → ∀ c < p.tables.numCores.val,
        MostUsed p.tables.numCores.val (countWithout p.tables i) c →
        countWithout p.tables i (p.tables.nfs i).core + 1 < countWithout p.tables i c →
        p.HasMovable i c)

instance (p : Placing) : DecidablePred p.StopsWell := fun i =>
  inferInstanceAs (Decidable ((p.tables.nfs i).status.Active →
    (p.tables.nfs i).core = p.assigned i ∧
      ((p.tables.nfs i).status = .running → ∀ c < p.tables.numCores.val,
        MostUsed p.tables.numCores.val (countWithout p.tables i) c →
        countWithout p.tables i (p.tables.nfs i).core + 1 < countWithout p.tables i c →
        p.HasMovable i c)))

def stopping : Event → Option Nat
  | .tables (.msg (.nfStopping i)) _ => i
  | _ => none

def Calm (p : Placing) (e : Event) : Prop := ∀ i ∈ stopping e, p.StopsWell i

instance (p : Placing) : DecidablePred p.Calm := fun e =>
  inferInstanceAs (Decidable (∀ i ∈ stopping e, p.StopsWell i))

end Placing

/-! ## The counts -/

section
variable {v : View} {on : Nat → Nat} {cores : Nat → CoreStatus} {old new c j : Nat}

theorem moveCount_old (hne : new ≠ old) :
    (Placing.moveCount cores old new old).nfCount = dec16 (cores old).nfCount := by
  unfold Placing.moveCount
  rw [Function.update_of_ne hne.symm, Function.update_self]
  rfl

theorem moveCount_new (hne : new ≠ old) :
    (Placing.moveCount cores old new new).nfCount = inc16 (cores new).nfCount := by
  unfold Placing.moveCount
  rw [Function.update_self, Function.update_of_ne hne]
  rfl

theorem moveCount_of_ne (ho : c ≠ old) (hn : c ≠ new) : Placing.moveCount cores old new c = cores c := by
  unfold Placing.moveCount
  rw [Function.update_of_ne hn, Function.update_of_ne ho]

theorem View.CountedOn.move (h : v.CountedOn on) (hlt : j < maxNfs)
    (hact : (v.slots j).status.Active) (hne : new ≠ on j) :
    View.CountedOn { v with cores := Placing.moveCount v.cores (on j) new }
      (Function.update on j new) := by
  intro c
  have hother : ∀ k, k ≠ j → ((v.slots k).status.Active ∧ on k = c ↔
      (v.slots k).status.Active ∧ Function.update on j new k = c) :=
    fun k hk => by rw [Function.update_of_ne hk]
  have hself : (v.slots j).status.Active ∧ Function.update on j new j = c ↔ new = c := by
    rw [Function.update_self]
    exact and_iff_right hact
  show (Placing.moveCount v.cores (on j) new c).nfCount = _
  by_cases ho : c = on j
  · subst ho
    rw [moveCount_old hne]
    refine dec16_count ((count_leave hlt ⟨hact, rfl⟩ ?_ hother).trans (h _).symm)
    exact fun hj => hne (hself.mp hj)
  by_cases hn : c = new
  · subst hn
    rw [moveCount_new hne, h c, inc16_count]
    exact (count_enter hlt (fun hj => ho hj.2.symm) (hself.mpr rfl) hother).symm
  · rw [moveCount_of_ne ho hn, h c]
    refine count_congr fun k => ?_
    by_cases hk : k = j
    · subst hk
      exact iff_of_false (fun hj => ho hj.2.symm) fun hj => hn (hself.mp hj).symm
    · exact hother k hk

end

namespace Placing

variable {p : Placing} {i : Nat}

/-- What every step keeps. -/
structure Kept (p : Placing) : Prop where
  sound : p.tables.Sound
  right : p.Right

theorem onvmNfStop_numCores (m : Tables) (i : Nat) : (m.onvmNfStop i).1.numCores = m.numCores := by
  have hrel : ((m.freeTag i).release i).numCores = m.numCores := by
    unfold Tables.release Tables.tellParent
    dsimp only
    split <;> rfl
  unfold Tables.onvmNfStop
  dsimp only
  split
  · rfl
  split
  · exact hrel
  split
  · exact hrel
  · exact hrel

theorem Right.count_pos (h : p.Right) (he : p.tables.exit = none) (hs : p.tables.Sound)
    (hact : (p.tables.nfs i).status.Active) (hcore : (p.tables.nfs i).core = p.assigned i) :
    0 < (p.tables.cores (p.tables.nfs i).core).nfCount := by
  have hlt := ((hs.tidy i).named hact).2.1
  have hcount := h.count he (p.assigned i)
  rw [hcore]
  show 0 < (p.tables.view.cores _).nfCount
  rw [hcount]
  exact Onvm.Lib.count_pos (p := fun k => (p.tables.view.slots k).status.Active ∧
    p.assigned k = p.assigned i) hlt ⟨hact, rfl⟩

/-! ## The search and the move -/

/-- What `HasMovable` says when the NF has stopped: the first running NF on a core that has
two more than `candidateCore` has an ID other than 0 and is counted there. -/
def CanReassign (p : Placing) (candidateCore : Nat) : Prop :=
  ∀ c, MostUsed p.tables.numCores.val (fun c => (p.tables.cores c).nfCount) c →
    (p.tables.cores candidateCore).nfCount + 1 < (p.tables.cores c).nfCount →
    ∃ j < maxNfs, (p.tables.nfs j).status = .running ∧ (p.tables.nfs j).core = c ∧
      (∀ k < j, ¬ ((p.tables.nfs k).status = .running ∧ (p.tables.nfs k).core = c)) ∧
      j ≠ 0 ∧ p.assigned j = c

theorem Kept.relocate (h : p.Kept) (he : p.tables.exit = none) {j new : Nat} (hj : j < maxNfs)
    (hact : (p.tables.nfs j).status.Active) (hcore : (p.tables.nfs j).core = p.assigned j)
    (hne : new ≠ p.assigned j) (sent : Bool) : (p.onvmNfRelocateNf j new sent).Kept where
  sound := ⟨h.sound.pool, h.sound.next, h.sound.tidy⟩
  right := {
    located := h.right.located
    noUnderflow := by
      have hpos := h.right.count_pos he h.sound hact hcore
      show (p.underflow || _) = false
      rw [h.right.noUnderflow, Bool.false_or, beq_eq_false_iff_ne]
      exact Nat.ne_of_gt hpos
    count := fun _ => by
      have hmove := (h.right.count he).move hj hact hne
      rw [← hcore] at hmove
      exact hmove }

theorem Kept.reassign (h : p.Kept) (he : p.tables.exit = none) {candidateCore : Nat}
    (hcan : p.CanReassign candidateCore) (sent : Bool) : (p.reassign candidateCore sent).Kept := by
  unfold Placing.reassign
  rcases findNf_cases candidateCore p.tables.cores p.tables.nfs p.tables.numCores with
    hnone | ⟨c, hmost, hlt, hgo⟩
  · rw [hnone]
    exact h
  · obtain ⟨j, hj, hrun, hcore, hfirst, hj0, hassigned⟩ := hcan c hmost hlt
    have hact : (p.tables.nfs j).status.Active := .inr (.inl hrun)
    have hid : candidateNfId p.tables.nfs c = j :=
      (candidateNfId_eq hj ⟨hrun, hcore⟩ hfirst).trans ((h.sound.tidy j).named hact).1
    rw [hgo, hid, if_neg hj0]
    show (if 0 < j then _ else p).Kept
    rw [if_pos (Nat.pos_of_ne_zero hj0)]
    refine h.relocate he hj hact (hcore.trans hassigned.symm) ?_ sent
    rintro rfl
    rw [hassigned] at hlt
    omega

/-! ## Steps -/

theorem stop_event (he : p.tables.exit = none) :
    p.tables.onEvent (.msg (.nfStopping (some i))) = (p.tables.onvmNfStop i).1 := by
  simp [Tables.onEvent, he, Tables.onMsg]

theorem Kept.tables (h : p.Kept) (he : p.tables.exit = none) (e : Tables.Event)
    (hstart : ∀ cfg, e = .msg (.nfStarting (some cfg)) → ¬ p.tables.Admits cfg)
    (hstop : ∀ i, e = .msg (.nfStopping (some i)) → ¬ (p.tables.nfs i).status.Active) :
    Kept { p with tables := p.tables.onEvent e } := by
  refine ⟨Tables.onEvent_sound h.sound e, h.right.located, h.right.noUnderflow, fun _ => ?_⟩
  have heff := Tables.effect h.sound e
  show (p.tables.onEvent e).view.CountedOn p.assigned
  generalize (p.tables.onEvent e).view = v at heff
  cases heff with
  | quiet => exact h.right.count he
  | granted cfg _ hadm => exact absurd hadm (hstart cfg rfl)
  | clashed cfg _ _ _ _ hadm => exact absurd hadm (hstart cfg rfl)
  | readied i _ hst => exact (h.right.count he).ready hst
  | aborted i _ hst => exact absurd (.inl hst) (hstop i rfl)
  | stopped i _ hst => exact absurd (.inr (.inl hst)) (hstop i rfl)

/-- An NF that is on the core it counts on is counted off. -/
theorem Kept.stopped (h : p.Kept) (he : p.tables.exit = none)
    (hact : (p.tables.nfs i).status.Active) (hcore : (p.tables.nfs i).core = p.assigned i) :
    (p.stopped i).Kept ∧ (p.stopped i).tables.exit = none ∧
      (∀ c, ((p.stopped i).tables.cores c).nfCount = countWithout p.tables i c) ∧
      ((p.stopped i).tables.nfs i).status = .stopped ∧
      ∀ k, k ≠ i → slotOf ((p.stopped i).tables.nfs k) = slotOf (p.tables.nfs k) := by
  have heff := Tables.effect h.sound (.msg (.nfStopping (some i)))
  have hsound := Tables.onEvent_sound h.sound (.msg (.nfStopping (some i)))
  rw [stop_event he] at heff hsound
  have hlt := ((h.sound.tidy i).named hact).2.1
  have hpos := h.right.count_pos he h.sound hact hcore
  have hvacate := (h.right.count he).vacate hlt hact hcore
  have hlow : (p.underflow || (p.tables.cores (p.tables.nfs i).core).nfCount == 0) = false := by
    rw [h.right.noUnderflow, Bool.false_or, beq_eq_false_iff_ne]
    exact Nat.ne_of_gt hpos
  -- both ways to stop change the slot and the core alike
  have hview : (p.tables.onvmNfStop i).1.view.slots = (p.tables.view.vacate i).slots ∧
      (p.tables.onvmNfStop i).1.view.cores = (p.tables.view.vacate i).cores ∧
      (p.tables.onvmNfStop i).1.view.exit = p.tables.exit := by
    generalize (p.tables.onvmNfStop i).1.view = v at heff
    cases heff with
    | quiet _ hq => exact absurd hact (hq he)
    | aborted => exact ⟨rfl, rfl, rfl⟩
    | stopped => exact ⟨rfl, rfl, rfl⟩
  obtain ⟨hslots, hcores, hexit⟩ := hview
  refine ⟨⟨hsound, h.right.located, hlow, fun _ => hvacate.of_same hslots hcores⟩,
    hexit.trans he, fun c => ?_, ?_, fun k hk => ?_⟩
  · show ((p.tables.onvmNfStop i).1.view.cores c).nfCount = _
    rw [hcores]
    show (Function.update p.tables.cores (p.tables.nfs i).core _ c).nfCount = _
    unfold countWithout
    by_cases hc : c = (p.tables.nfs i).core
    · subst hc
      rw [Function.update_self, if_pos rfl]
      have hle : (p.tables.cores (p.tables.nfs i).core).nfCount ≤ maxNfs :=
        (h.right.count he (p.tables.nfs i).core).le.trans (Nat.count_le _)
      have hmax : maxNfs = 128 := rfl
      obtain ⟨n, hn⟩ := Nat.exists_eq_add_of_lt hpos
      rw [Nat.zero_add] at hn
      show dec16 (p.tables.cores (p.tables.nfs i).core).nfCount = _
      rw [hn, dec16_succ (by omega), Nat.add_sub_cancel]
    · rw [Function.update_of_ne hc, if_neg hc]
  · show ((p.tables.onvmNfStop i).1.view.slots i).status = _
    rw [hslots]
    simp [View.vacate]
  · show (p.tables.onvmNfStop i).1.view.slots k = _
    rw [hslots]
    exact Function.update_of_ne hk ..

theorem Kept.stop (h : p.Kept) (he : p.tables.exit = none) (hstops : p.StopsWell i) (sent : Bool) :
    (p.onvmNfStop i sent).Kept := by
  unfold Placing.onvmNfStop
  dsimp only
  by_cases hact : (p.tables.nfs i).status.Active
  · rw [if_pos hact]
    obtain ⟨hcore, hmovable⟩ := hstops hact
    obtain ⟨hkept, hexit, hcount, hself, hother⟩ := h.stopped he hact hcore
    split
    · rename_i hran
      have hrun : (p.tables.nfs i).status = .running :=
        hran.2.resolve_right (h.sound.tidy i).paused
      refine hkept.reassign hexit (fun c hmost hlt => ?_) sent
      have hcounts : (fun c => ((p.stopped i).tables.cores c).nfCount) = countWithout p.tables i :=
        funext hcount
      have hcores : (p.stopped i).tables.numCores = p.tables.numCores := onvmNfStop_numCores ..
      rw [hcounts, hcores] at hmost
      rw [hcount, hcount] at hlt
      obtain ⟨j, hj, ⟨hji, hjrun, hjcore⟩, hfirst, hj0, hassigned⟩ :=
        hmovable hrun c hmost.1 hmost hlt
      have hsame := hother j hji
      refine ⟨j, hj, (congrArg Slot.status hsame).trans hjrun,
        (congrArg Slot.core hsame).trans hjcore, fun k hk hkon => ?_, hj0, hassigned⟩
      have hki : k ≠ i := by
        rintro rfl
        exact absurd (hself.symm.trans hkon.1) (by decide)
      exact hfirst k hk ⟨hki, (congrArg Slot.status (hother k hki)).symm.trans hkon.1,
        (congrArg Slot.core (hother k hki)).symm.trans hkon.2⟩
    · exact hkept
  · rw [if_neg hact, ← stop_event he]
    refine h.tables he _ (fun cfg hc => ?_) fun j hj => ?_
    · cases hc
    · cases hj
      exact hact

theorem Kept.start (h : p.Kept) (he : p.tables.exit = none) (cfg : OnvmNfInitCfg) :
    (p.onvmNfStart cfg).Kept := by
  have hstart : p.tables.onEvent (.msg (.nfStarting (some cfg))) = (p.tables.onvmNfStart cfg).1 := by
    simp [Tables.onEvent, he, Tables.onMsg]
  have heff := Tables.effect h.sound (.msg (.nfStarting (some cfg)))
  have hsound := Tables.onEvent_sound h.sound (.msg (.nfStarting (some cfg)))
  rw [hstart] at heff hsound
  unfold Placing.onvmNfStart
  dsimp only
  by_cases hadm : p.tables.Admits cfg
  · rw [Tables.grantedId_admitted hadm]
    refine ⟨hsound, h.right.located, h.right.noUnderflow, fun hexit => ?_⟩
    have hexit' : (p.tables.onvmNfStart cfg).1.view.exit = none := hexit
    show (p.tables.onvmNfStart cfg).1.view.CountedOn (Function.update p.assigned _
      ((p.tables.onvmNfStart cfg).1.view.slots _).core)
    generalize (p.tables.onvmNfStart cfg).1.view = v at heff hexit'
    cases heff with
    | quiet _ hq => exact absurd hadm (hq he)
    | clashed k slot _ _ _ _ _ _ _ _ _ _ _ _ hex => exact absurd hexit' hex
    | granted _ _ _ hfree =>
      have hidle : ¬ (p.tables.view.slots (p.tables.targetId cfg)).status.Active := by
        intro hact
        have hlive := ((h.sound.tidy _).owned he hact).2.2.2 .rx
        simp [Tables.view, hfree .rx] at hlive
      have hcore : ∀ core ded, ((p.tables.view.grant (p.tables.targetId cfg) cfg.serviceId core
          ded).slots (p.tables.targetId cfg)).core = core := fun core ded => by simp [View.grant]
      rw [hcore]
      exact (h.right.count he).grant hadm.id hidle
  · rw [Tables.grantedId_refused hadm, ← hstart]
    refine h.tables he _ (fun cfg' hc => ?_) fun i hi => ?_
    · cases hc
      exact hadm
    · cases hi

/-- Reading a message moves no count. -/
theorem Kept.readMsg (h : p.Kept) (i : Nat) : (p.onvmNflibHandleMsg i).Kept := by
  unfold onvmNflibHandleMsg
  split
  · exact h
  · rename_i core msgs _
    have hslots := Tables.slots_setNf p.tables i { p.tables.nfs i with core := core }
    refine ⟨⟨h.sound.pool, h.sound.next, ?_⟩, h.right.located, h.right.noUnderflow, fun he => ?_⟩
    · show ∀ j, Slot.Tidy _ _ j _
      rw [hslots]
      refine tidy_update ?_ fun j _ => h.sound.tidy j
      exact ⟨(h.sound.tidy i).named, (h.sound.tidy i).paused, (h.sound.tidy i).owned⟩
    · intro c
      show (p.tables.cores c).nfCount = _
      rw [hslots]
      refine (h.right.count he c).trans (count_congr fun j => ?_)
      by_cases hj : j = i
      · subst hj
        rw [Function.update_self]
        rfl
      · rw [Function.update_of_ne hj]

theorem Kept.onEvent (h : p.Kept) {e : Event} (hcalm : p.Calm e) : (p.onEvent e).Kept := by
  unfold Placing.onEvent
  split
  · rename_i he _
    split
    · exact h.start he _
    · exact h.stop he (hcalm _ rfl) _
    · rename_i e _ hstart hstop
      exact h.tables he e (fun cfg hc => absurd hc (hstart cfg)) fun i hi => absurd hi (hstop i)
    · exact h.readMsg _
  · exact h

theorem boot_kept (numCores : NumCores) (enabled : Nat → Bool) : (boot numCores enabled).Kept := by
  have hidle : ¬ NfStatus.Active .waitingForId := by decide
  exact ⟨Tables.boot_sound numCores enabled, {
    located := rfl
    noUnderflow := rfl
    count := fun _ c => ((Asking.boot_right numCores enabled).count c).trans
      (count_congr fun i => iff_of_false (fun h => absurd h.1 hidle) fun h => absurd h.1 hidle) }⟩

end Placing

/-- **Core reassignment.** In every run in which each NF that stops is on the core that it
is counted on, and leaves an NF to move whenever one is looked for, the search never exits,
no count underflows, and the count of every core is the number of NFs on it, where an NF
that was moved is on its new core. -/
theorem reassignment_accounts (numCores : NumCores) (enabled : Nat → Bool)
    (es : List Placing.Event)
    (h : Along Placing.onEvent Placing.Calm (Placing.boot numCores enabled) es) :
    (exec Placing.onEvent (Placing.boot numCores enabled) es).Right :=
  (Along.inv (I := Placing.Kept) (fun _ _ hk hc => hk.onEvent hc)
    (Placing.boot_kept numCores enabled) h).right

/-- Three NFs start, one on core 0 and two on core 1, and are ready. -/
def threeNfs : List Placing.Event :=
  [0, 1, 1].map (fun core =>
    .tables (.msg (.nfStarting (some { serviceId := 1, initOptions := 3, core := core }))) true) ++
  [1, 2, 3].map fun i => .tables (.msg (.nfReady i)) true

def stopNf (i : Nat) : Placing.Event := .tables (.msg (.nfStopping (some i))) true

/-- NF 2 is moved to core 0 in place of NF 1, reads that it is, and stops. -/
theorem reassignment_accounts_threeNfs :
    (exec Placing.onEvent (Placing.boot fourCores fun _ => true)
      (threeNfs ++ [stopNf 1, .readMsg 2, stopNf 2])).Right :=
  reassignment_accounts fourCores (fun _ => true) _ (by decide +kernel)

/-- If NF 2 stops before it has read the message, core 1 is counted down in place of core 0,
and once more when NF 3 stops. If the two NFs on core 1 are still starting when NF 1 stops,
the search exits. -/
theorem moved_nf_stops_early :
    ¬ (exec Placing.onEvent (Placing.boot fourCores fun _ => true)
        (threeNfs ++ [stopNf 1, stopNf 2])).Right ∧
      ((exec Placing.onEvent (Placing.boot fourCores fun _ => true)
        (threeNfs ++ [stopNf 1, stopNf 2, stopNf 3])).tables.cores 1).nfCount = 2 ^ 16 - 1 ∧
      (exec Placing.onEvent (Placing.boot fourCores fun _ => true)
        (threeNfs.take 4 ++ [stopNf 1])).unlocated = some 1 := by
  refine ⟨fun h => ?_, by decide +kernel, by decide +kernel⟩
  have hcount := h.count (by decide +kernel) 1
  revert hcount
  decide +kernel

end Onvm.Mgr

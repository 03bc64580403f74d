import Onvm.Lib.Tally
import Onvm.Mgr.Effect

/-!
# Parents and children

An NF scales itself by a thread that starts another NF. `children_cnt` of the parent's
slot is increased by the parent before the child exists and decreased by the manager,
which finds the parent in the slot of the child, when the child has stopped. The threads
of the NFs and the manager take their steps in any order here, and the manager may take
the messages of different threads in any order, that of its queue among them. A thread
has at most one message on its way: it waits for the answer to the first two.
-/

namespace Onvm.Msg

open Onvm.Lib Onvm.Nflib Onvm.Mgr

/-! ## Threads -/

inductive Phase where
  /-- Its `NF_STARTING` is on its way. -/
  | waiting (cfg : OnvmNfInitCfg)
  /-- It has given up, its `NF_STARTING` is still on its way. -/
  | abandoned (cfg : OnvmNfInitCfg)
  | answered (cfg : OnvmNfInitCfg)
  /-- `start_nf` is to write the family fields. -/
  | init (i : Nat)
  /-- `start_child` is to store the parent. -/
  | store (i : Nat)
  | started (i : Nat)
  /-- Its `NF_READY` is on its way. -/
  | readying (i : Nat)
  | running (i : Nat)
  /-- Its `NF_STOPPING` is on its way. -/
  | stopping (i : Nat)
  /-- The same after an interrupted `start_nf`. -/
  | quitting (i : Nat)
  | ended
  deriving DecidableEq

/-- Launched, and neither terminated nor failed to start. -/
def Phase.live : Phase → Bool
  | abandoned _ | ended => false
  | waiting _ | answered _ | init _ | store _ | started _ | readying _ | running _ | stopping _
  | quitting _ => true

/-- The NF that launched a child: its thread, which nothing in the code reads, and its
slot. -/
structure Parent where
  thread : Nat
  slot : Nat
  deriving DecidableEq

structure NfThread where
  phase : Phase := .ended
  parent : Option Parent := none
  deriving DecidableEq

structure Family where
  tables : Tables
  next : Nat
  thread : Nat → NfThread

namespace Family

def goto (s : Family) (w : Nat) (phase : Phase) : Family :=
  { s with thread := Function.update s.thread w { s.thread w with phase := phase } }

/-- A new thread, with its start message sent. -/
def create (s : Family) (cfg : OnvmNfInitCfg) (parent : Option Parent) : Family :=
  { s with
    next := s.next + 1
    thread := Function.update s.thread s.next
      ⟨.waiting { cfg with status := .waitingForId }, parent⟩ }

def setChildrenCnt (s : Family) (i n : Nat) : Family :=
  { s with tables := s.tables.setFamily i (s.tables.nfs i).parent n }

/-! ## The NF library -/

def onvmNflibIsScaleInfoValid (cfg : OnvmNfInitCfg) (pktHandler : Bool) : Int :=
  if cfg.serviceId ≠ 0 ∧ pktHandler then 1 else 0

/-- Called by thread `w`, the NF of slot `i`, for a child with configuration `cfg`.
`pthread_create` returns `ret`: 0, or else there is no new thread. -/
def onvmNflibScale (s : Family) (w i : Nat) (cfg : OnvmNfInitCfg) (pktHandler : Bool)
    (ret : Int) : Family :=
  if onvmNflibIsScaleInfoValid cfg pktHandler < 0 then s
  else
    let p := (s.tables.nfs i).instanceId
    let s := s.setChildrenCnt p (inc16 (s.tables.nfs p).childrenCnt)
    if ret < 0 then s.setChildrenCnt p (dec16 (s.tables.nfs p).childrenCnt)
    else if ret = 0 then s.create cfg (some ⟨w, p⟩)
    else s

/-- The next step of a thread between its start and its `NF_READY`. After a refusal
`start_nf` returns a negative value; `onvm_nflib_stop` finds no NF in the context and
returns. `id` is what `start_child` reads as the ID of its NF from the configuration that
`start_nf` has put back into the pool. -/
def advance (s : Family) (w id : Nat) : Family :=
  match (s.thread w).phase, (s.thread w).parent with
  | .answered cfg, _ => s.goto w (if cfg.status = .starting then .init cfg.instanceId else .ended)
  | .init i, none => { s with tables := s.tables.setFamily i 0 0 }.goto w (.started i)
  | .init i, some _ => { s with tables := s.tables.setFamily i 0 0 }.goto w (.store i)
  | .store _, some p =>
    let parentId := (s.tables.nfs p.slot).instanceId
    let tables := s.tables.setFamily id parentId (s.tables.nfs id).childrenCnt
    { s with tables := tables }.goto w (.started id)
  | .started i, _ => s.goto w (.readying i)
  | _, _ => s

/-- A signal reaches the NF while `start_nf` waits. Its answer may have arrived at the
end. Children do not get signals. -/
def interrupt (s : Family) (w : Nat) : Family :=
  match (s.thread w).phase, (s.thread w).parent with
  | .waiting cfg, none => s.goto w (.abandoned cfg)
  | .answered cfg, none =>
    s.goto w (if cfg.status = .starting then .quitting cfg.instanceId else .ended)
  | _, _ => s

/-- `onvm_nflib_stop`, which gives up waiting for the children at some time. -/
def stop (s : Family) (w : Nat) : Family :=
  match (s.thread w).phase with
  | .started i | .running i => s.goto w (.stopping i)
  | _ => s

/-! ## The manager -/

def handle (s : Family) (w : Nat) : Family :=
  match s.tables.exit with
  | some _ => s
  | none =>
    match (s.thread w).phase with
    | .waiting cfg =>
      let r := s.tables.onvmNfStart cfg
      { s with tables := r.1 }.goto w (match r.2.2 with
        | none => .waiting cfg
        | some _ => .answered r.2.1)
    | .abandoned cfg => { s with tables := (s.tables.onvmNfStart cfg).1 }.goto w .ended
    | .readying i => { s with tables := (s.tables.onvmNfReady i).1 }.goto w (.running i)
    | .stopping i | .quitting i => { s with tables := (s.tables.onvmNfStop i).1 }.goto w .ended
    | _ => s

/-! ## Runs -/

/-- A process starts an NF, or one of the steps above. -/
inductive Event where
  | main (cfg : OnvmNfInitCfg)
  | scale (w : Nat) (cfg : OnvmNfInitCfg) (pktHandler : Bool) (ret : Int)
  | advance (w id : Nat)
  | interrupt (w : Nat)
  | stop (w : Nat)
  | handle (w : Nat)

/-- Only a running NF scales. -/
def step (s : Family) : Event → Family
  | .main cfg => s.create cfg none
  | .scale w cfg pktHandler ret =>
    match (s.thread w).phase with
    | .running i => s.onvmNflibScale w i cfg pktHandler ret
    | _ => s
  | .advance w id => s.advance w id
  | .interrupt w => s.interrupt w
  | .stop w => s.stop w
  | .handle w => s.handle w

/-- The manager is up and no NF has started. -/
def boot (numCores : NumCores) (enabled : Nat → Bool) : Family where
  tables := .boot numCores enabled
  next := 0
  thread _ := {}

/-! ## What is counted -/

def IsChild (s : Family) (w k : Nat) : Prop :=
  (s.thread k).phase.live ∧ (s.thread k).parent.map Parent.thread = some w

instance (s : Family) (w : Nat) : DecidablePred (s.IsChild w) := fun k =>
  inferInstanceAs
    (Decidable ((s.thread k).phase.live ∧ (s.thread k).parent.map Parent.thread = some w))

def childCount (s : Family) (w : Nat) : Nat := Nat.count (s.IsChild w) s.next

def rteAtomic16Read (n : Nat) : Int := if n < 2 ^ 15 then n else (n : Int) - 2 ^ 16

/-- The counter of an NF that runs is the number of its children, so it is never negative
and `onvm_nflib_terminate_children` finds it 0 when there is no child and only then. -/
def ChildrenCounted (s : Family) : Prop :=
  ∀ w i, (s.thread w).phase = .running i →
    rteAtomic16Read (s.tables.nfs i).childrenCnt = s.childCount w ∧
    0 ≤ rteAtomic16Read (s.tables.nfs i).childrenCnt ∧
    (rteAtomic16Read (s.tables.nfs i).childrenCnt = 0 ↔ ∀ k, ¬ s.IsChild w k)

end Family

/-! ## What happens to the slots -/

/-- The part of a slot that the families go by. -/
structure Kin where
  status : NfStatus
  instanceId : Nat
  parent : Nat
  childrenCnt : Nat

def kinOf (nf : OnvmNf) : Kin := ⟨nf.status, nf.instanceId, nf.parent, nf.childrenCnt⟩

def kins (m : Tables) (i : Nat) : Kin := kinOf (m.nfs i)

section Kins

variable {m : Tables} {i : Nat}

theorem kins_setNf (m : Tables) (i : Nat) (nf : OnvmNf) :
    kins (m.setNf i nf) = Function.update (kins m) i (kinOf nf) :=
  Tables.comp_setNf kinOf m i nf

theorem kins_setNf_eq {nf : OnvmNf} (h : kinOf nf = kins m i) : kins (m.setNf i nf) = kins m :=
  Tables.comp_setNf_eq kinOf h

theorem kins_setFamily (m : Tables) (i parent childrenCnt : Nat) :
    kins (m.setFamily i parent childrenCnt) =
      Function.update (kins m) i { kins m i with parent := parent, childrenCnt := childrenCnt } :=
  kins_setNf ..

theorem kins_initRings (m : Tables) (i : Nat) : kins (m.onvmNfInitRings i) = kins m :=
  Tables.comp_initRings kinOf (by intro nf k q; cases k <;> rfl) m i

theorem kins_start_admitted {cfg : OnvmNfInitCfg} (h : m.Admits cfg) :
    kins (m.onvmNfStart cfg).1 = Function.update (kins m) (m.targetId cfg)
      { kins m (m.targetId cfg) with status := .starting, instanceId := m.targetId cfg } := by
  rw [(Tables.start_admitted h).1, kins_initRings, Tables.occupied, kins_setNf]
  rfl

theorem kins_start_refused {cfg : OnvmNfInitCfg} (h : ¬ m.Admits cfg) :
    kins (m.onvmNfStart cfg).1 = kins m := by
  rcases (Tables.start_refused h).1 with hm | hm
  · rw [hm]
  · rw [hm]
    rfl

/-- What the NF reads when the manager has answered. -/
theorem start_answer {cfg : OnvmNfInitCfg} {r : Int} (hw : cfg.status = .waitingForId)
    (h : (m.onvmNfStart cfg).2.2 = some r) :
    (r = 0 ∧ (m.onvmNfStart cfg).2.1.status = .starting ∧
      (m.onvmNfStart cfg).2.1.instanceId = m.targetId cfg ∧ (m.onvmNfStart cfg).1.exit = none) ∨
    (r = 1 ∧ (m.onvmNfStart cfg).2.1.status ≠ .starting) := by
  have herr : ∀ e, (m.coreFor cfg).ret = some e → e ≠ .starting := by
    intro e he
    unfold Tables.coreFor onvmThreadingGetCore at he
    grind
  revert h
  unfold Tables.onvmNfStart Tables.targetId
  dsimp only
  split
  · rename_i hne
    exact absurd hw hne
  split
  · intro h
    cases h
    exact .inr ⟨rfl, by simp⟩
  split
  · intro h
    cases h
    exact .inr ⟨rfl, by simp⟩
  split
  · intro h
    cases h
    exact .inr ⟨rfl, by simp⟩
  split
  · intro h
    cases h
    exact .inr ⟨rfl, by simp⟩
  split
  · rename_i e he
    intro h
    cases h
    exact .inr ⟨rfl, herr e he⟩
  split
  · intro h
    cases h
  · rename_i hexit
    intro h
    cases h
    exact .inl ⟨rfl, rfl, rfl, hexit⟩

/-- A slot is given away only while nobody has it. -/
theorem start_vacant {cfg : OnvmNfInitCfg} (hs : m.Sound) (he : m.exit = none)
    (hw : cfg.status = .waitingForId) (h : (m.onvmNfStart cfg).2.2 = some 0) :
    ¬ (m.nfs (m.targetId cfg)).status.Active := by
  intro hactive
  have hadmits := Tables.admits_of_start h
  obtain ⟨-, -, -, hlive⟩ := (hs.tidy (m.targetId cfg)).owned he hactive
  have hid : ((m.occupied cfg).nfs (m.targetId cfg)).instanceId = m.targetId cfg := by
    simp [Tables.occupied, Tables.setNf, Tables.filled]
  have hexit := Tables.initRings_taken (m := m.occupied cfg) hid (hlive .rx)
  rw [← (Tables.start_admitted hadmits).1] at hexit
  rcases start_answer hw h with hok | hbad
  · exact hexit hok.2.2.2
  · exact absurd hbad.1 (by decide)

theorem kins_ready (m : Tables) (i : Nat) : kins (m.onvmNfReady i).1 = kins m ∨
    kins (m.onvmNfReady i).1 =
      Function.update (kins m) i { kins m i with status := .running } := by
  unfold Tables.onvmNfReady
  split
  · exact .inl rfl
  · exact .inr (kins_setNf ..)

/-- The counter of the parent in slot `i` goes down. -/
def told (f : Nat → Kin) (i : Nat) : Nat → Kin :=
  if (f i).parent ≠ 0 then
    Function.update f (f i).parent
      { f (f i).parent with childrenCnt := dec16 (f (f i).parent).childrenCnt }
  else f

theorem told_apply (f : Nat → Kin) (i j : Nat) : told f i j =
    if (f i).parent ≠ 0 ∧ j = (f i).parent then
      { f j with childrenCnt := dec16 (f j).childrenCnt }
    else f j := by
  unfold told
  by_cases hp : (f i).parent = 0
  · rw [if_neg (by simp [hp]), if_neg (by simp [hp])]
  · rw [if_pos hp]
    by_cases hj : j = (f i).parent
    · rw [if_pos ⟨hp, hj⟩, hj, Function.update_self]
    · rw [if_neg (by simp [hj]), Function.update_of_ne hj]

theorem told_fields (f : Nat → Kin) (i j : Nat) : (told f i j).status = (f j).status ∧
    (told f i j).instanceId = (f j).instanceId ∧ (told f i j).parent = (f j).parent := by
  rw [told_apply]
  split <;> exact ⟨rfl, rfl, rfl⟩

theorem told_childrenCnt (f : Nat → Kin) (i j : Nat) : (told f i j).childrenCnt =
    if (f i).parent ≠ 0 ∧ j = (f i).parent then dec16 (f j).childrenCnt
    else (f j).childrenCnt := by
  rw [told_apply]
  split <;> rfl

theorem kins_tellParent (m : Tables) (i : Nat) : kins (m.tellParent i) = told (kins m) i := by
  unfold Tables.tellParent told
  dsimp only
  split
  · rename_i h
    have hk : (kins m i).parent ≠ 0 := h
    rw [if_pos hk, kins_setNf]
    rfl
  · rename_i h
    have hk : ¬ (kins m i).parent ≠ 0 := h
    rw [if_neg hk]

theorem kins_release (hid : (m.nfs i).instanceId = i) : kins (m.release i) =
    told (Function.update (kins m) i { kins m i with status := .stopped }) i := by
  have htwice : kins ((m.setStatus i .stopped).setStatus i .stopped) =
      Function.update (kins m) i { kins m i with status := .stopped } := by
    rw [Tables.setStatus, kins_setNf, Tables.setStatus, kins_setNf, Function.update_idem]
    simp [kinOf, kins, Tables.setNf]
  have hnfs : kins (m.release i) =
      kins (((m.setStatus i .stopped).setStatus (m.nfs i).instanceId .stopped).tellParent
        (m.nfs i).instanceId) := rfl
  rw [hnfs, hid, kins_tellParent, htwice]

theorem kins_stop (hid : (m.nfs i).instanceId = i) (h : (m.nfs i).status.Active) :
    kins (m.onvmNfStop i).1 =
      told (Function.update (kins m) i { kins m i with status := .stopped }) i := by
  have htag : kins (m.freeTag i) = kins m := kins_setNf_eq rfl
  have hrelease := kins_release (m := m.freeTag i) (i := i)
    (by simpa [Tables.freeTag, Tables.setNf])
  rw [htag] at hrelease
  unfold Tables.onvmNfStop
  dsimp only
  split
  · rename_i hnot
    rcases h with h | h | h
    · exact absurd h hnot.1
    · exact absurd h hnot.2.1
    · exact absurd h hnot.2.2
  split
  · exact hrelease
  split
  · exact hrelease
  · have hnfs : ∀ m' a b, kins (Tables.unregister m' a b) = kins m' := by
      intro m' a b
      unfold kins
      rw [Tables.unregister_nfs]
    rw [hnfs]
    exact hrelease

end Kins

/-! ## The invariant -/

/-- The slot that the manager has given to the thread. -/
def Phase.slot : Phase → Option Nat
  | answered cfg => if cfg.status = .starting then some cfg.instanceId else none
  | init i | store i | started i | readying i | running i | stopping i | quitting i => some i
  | waiting _ | abandoned _ | ended => none

/-- The slot whose counter is that of the thread. -/
def Phase.counted : Phase → Option Nat
  | store i | started i | readying i | running i => some i
  | _ => none

def Phase.settled : Phase → Option Nat
  | started i | readying i | running i | stopping i => some i
  | _ => none

def Phase.Launched (i : Nat) : Phase → Prop
  | running j | stopping j => j = i
  | ended => True
  | _ => False

def Phase.Alone : Phase → Prop
  | abandoned _ | quitting _ => True
  | answered cfg => cfg.status ≠ .starting
  | _ => False

theorem Phase.slot_of_counted {ph : Phase} {i : Nat} (h : ph.counted = some i) :
    ph.slot = some i := by
  cases ph <;> simp_all [counted, slot]

theorem Phase.slot_of_settled {ph : Phase} {i : Nat} (h : ph.settled = some i) :
    ph.slot = some i := by
  cases ph <;> simp_all [settled, slot]

theorem Phase.eq_of_counted {ph : Phase} {i j : Nat} (hl : ph.Launched i)
    (h : ph.counted = some j) : j = i := by
  cases ph <;> simp_all [Launched, counted]

/-- A thread goes on with what it has. -/
structure Phase.Shifts (ph ph' : Phase) : Prop where
  live : ph.live = true ∧ ph'.live = true
  sent : ∀ cfg, ph' ≠ .waiting cfg ∧ ph' ≠ .abandoned cfg
  accompanied : ¬ ph'.Alone
  slot : ∀ i, ph'.slot = some i → ph.slot = some i
  counted : ∀ i, ph'.counted = some i → ph.counted = some i
  settled : ∀ i, ph'.settled = some i → ph.settled = some i
  launched : ∀ i, ph.Launched i → ph'.Launched i

/-- What the parent field of a thread's slot is to be. -/
def parentSlot : Option Parent → Nat
  | none => 0
  | some p => p.slot

namespace Family

/-- The slot of `p` is that of the NF which has launched its children, or of nobody. -/
structure Heads (s : Family) (p : Parent) : Prop where
  created : p.thread < s.next
  known : p.slot ≠ 0
  id : (kins s.tables p.slot).instanceId = p.slot
  launched : (s.thread p.thread).phase.Launched p.slot
  sole : ∀ k, (s.thread k).phase.slot = some p.slot → k = p.thread

/-- Who has which slot, and what the slots say about parents. -/
structure Ties (s : Family) : Prop where
  sound : s.tables.Sound
  fresh : ∀ k, s.next ≤ k → s.thread k = {}
  asked : ∀ k cfg, (s.thread k).phase = .waiting cfg ∨ (s.thread k).phase = .abandoned cfg →
    cfg.status = .waitingForId
  alone : ∀ k, (s.thread k).phase.Alone → (s.thread k).parent = none
  active : ∀ k i, (s.thread k).phase.slot = some i → (kins s.tables i).status.Active
  unique : ∀ k k' i, (s.thread k).phase.slot = some i → (s.thread k').phase.slot = some i → k = k'
  stored : ∀ k i, (s.thread k).phase.settled = some i →
    (kins s.tables i).parent = parentSlot (s.thread k).parent
  heads : ∀ k p, (s.thread k).phase.live → (s.thread k).parent = some p → s.Heads p

def Counted (s : Family) : Prop :=
  ∀ k i, (s.thread k).phase.counted = some i →
    (kins s.tables i).childrenCnt = s.childCount k ∧ s.childCount k < 2 ^ 15

structure Inv (s : Family) : Prop where
  ties : s.Ties
  counted : s.Counted

/-! ## One thread moves -/

section Move

variable {s : Family} {w : Nat} {ph : Phase}

@[simp] theorem goto_self (s : Family) (w : Nat) (ph : Phase) :
    (s.goto w ph).thread w = ⟨ph, (s.thread w).parent⟩ := Function.update_self ..

theorem goto_other {k : Nat} (h : k ≠ w) : (s.goto w ph).thread k = s.thread k :=
  Function.update_of_ne h ..

@[simp] theorem goto_parent (s : Family) (w : Nat) (ph : Phase) (k : Nat) :
    ((s.goto w ph).thread k).parent = (s.thread k).parent := by
  by_cases hk : k = w
  · subst hk
    rw [goto_self]
  · rw [goto_other hk]

theorem childCount_congr {s s' : Family} (hnext : s'.next = s.next) (v : Nat)
    (h : ∀ k, s'.IsChild v k ↔ s.IsChild v k) : s'.childCount v = s.childCount v := by
  unfold childCount
  rw [hnext]
  exact count_congr h

/-- A thread that stays among the living, or is no child, leaves the counts alone. -/
theorem childCount_goto (h : (s.thread w).parent ≠ none → ph.live = (s.thread w).phase.live)
    (v : Nat) : (s.goto w ph).childCount v = s.childCount v := by
  have hnext : (s.goto w ph).next = s.next := rfl
  apply childCount_congr hnext
  intro k
  unfold IsChild
  rw [goto_parent]
  by_cases hk : k = w
  · subst hk
    rw [goto_self]
    cases hp : (s.thread k).parent with
    | none => simp
    | some p => rw [h (by simp [hp])]
  · rw [goto_other hk]

structure Fits (s : Family) (w : Nat) (ph : Phase) : Prop where
  created : w < s.next
  asked : ∀ cfg, ph = .waiting cfg ∨ ph = .abandoned cfg → cfg.status = .waitingForId
  alone : ph.Alone → (s.thread w).parent = none
  active : ∀ i, ph.slot = some i → (kins s.tables i).status.Active
  unique : ∀ i k, ph.slot = some i → (s.thread k).phase.slot = some i → k = w
  sole : ∀ k p, (s.thread k).phase.live → (s.thread k).parent = some p →
    ph.slot = some p.slot → w = p.thread
  launched : ∀ i, (s.thread w).phase.Launched i → ph.Launched i
  live : (s.thread w).parent ≠ none → ph.live → (s.thread w).phase.live
  stored : ∀ i, ph.settled = some i → (kins s.tables i).parent = parentSlot (s.thread w).parent

theorem Ties.move (h : s.Ties) (hf : s.Fits w ph) : (s.goto w ph).Ties := by
  refine ⟨h.sound, ?_, ?_, ?_, ?_, ?_, ?_, ?_⟩
  · intro k hk
    have hkw : k ≠ w := by
      have := hf.created
      rintro rfl
      exact absurd hk (not_le.mpr this)
    rw [goto_other hkw]
    exact h.fresh k hk
  · intro k cfg hk
    by_cases hkw : k = w
    · subst hkw
      rw [goto_self] at hk
      exact hf.asked cfg hk
    · rw [goto_other hkw] at hk
      exact h.asked k cfg hk
  · intro k hk
    rw [goto_parent]
    by_cases hkw : k = w
    · subst hkw
      rw [goto_self] at hk
      exact hf.alone hk
    · rw [goto_other hkw] at hk
      exact h.alone k hk
  · intro k i hk
    by_cases hkw : k = w
    · subst hkw
      rw [goto_self] at hk
      exact hf.active i hk
    · rw [goto_other hkw] at hk
      exact h.active k i hk
  · intro k k' i hk hk'
    by_cases hkw : k = w <;> by_cases hkw' : k' = w
    · exact hkw.trans hkw'.symm
    · subst hkw
      rw [goto_self] at hk
      rw [goto_other hkw'] at hk'
      exact (hf.unique i k' hk hk').symm
    · subst hkw'
      rw [goto_self] at hk'
      rw [goto_other hkw] at hk
      exact hf.unique i k hk' hk
    · rw [goto_other hkw] at hk
      rw [goto_other hkw'] at hk'
      exact h.unique k k' i hk hk'
  · intro k i hk
    rw [goto_parent]
    by_cases hkw : k = w
    · subst hkw
      rw [goto_self] at hk
      exact hf.stored i hk
    · rw [goto_other hkw] at hk
      exact h.stored k i hk
  · intro k p hk hp
    rw [goto_parent] at hp
    have hlive : (s.thread k).phase.live := by
      by_cases hkw : k = w
      · subst hkw
        rw [goto_self] at hk
        exact hf.live (by simp [hp]) hk
      · rwa [goto_other hkw] at hk
    have hheads := h.heads k p hlive hp
    refine ⟨hheads.created, hheads.known, hheads.id, ?_, ?_⟩
    · by_cases hpw : p.thread = w
      · rw [hpw, goto_self]
        exact hf.launched p.slot (hpw ▸ hheads.launched)
      · rw [goto_other hpw]
        exact hheads.launched
    · intro k' hk'
      by_cases hkw' : k' = w
      · subst hkw'
        rw [goto_self] at hk'
        exact hf.sole k p hlive hp hk'
      · rw [goto_other hkw'] at hk'
        exact hheads.sole k' hk'

theorem Counted.move (h : s.Counted)
    (hlive : (s.thread w).parent ≠ none → ph.live = (s.thread w).phase.live)
    (hcounted : ∀ i, ph.counted = some i →
      (kins s.tables i).childrenCnt = s.childCount w ∧ s.childCount w < 2 ^ 15) :
    (s.goto w ph).Counted := by
  intro k i hk
  rw [childCount_goto hlive]
  by_cases hkw : k = w
  · subst hkw
    rw [goto_self] at hk
    exact hcounted i hk
  · rw [goto_other hkw] at hk
    exact h k i hk

end Move

/-! ## The tables change -/

section Change

variable {s : Family} {m : Tables}

/-- The slots that the threads have stay as they are, but for the counters. -/
structure Spares (s : Family) (m : Tables) : Prop where
  sound : m.Sound
  active : ∀ k i, (s.thread k).phase.slot = some i → (kins m i).status.Active
  id : ∀ i, (kins s.tables i).instanceId = i → (kins m i).instanceId = i
  stored : ∀ k i, (s.thread k).phase.settled = some i →
    (kins m i).parent = (kins s.tables i).parent

theorem Ties.tables (h : s.Ties) (hm : s.Spares m) : Ties { s with tables := m } where
  sound := hm.sound
  fresh := h.fresh
  asked := h.asked
  alone := h.alone
  active := hm.active
  unique := h.unique
  stored k i hk := (hm.stored k i hk).trans (h.stored k i hk)
  heads k p hk hp := by
    have hheads := h.heads k p hk hp
    exact ⟨hheads.created, hheads.known, hm.id p.slot hheads.id, hheads.launched, hheads.sole⟩

theorem Counted.tables (h : s.Counted) (hm : ∀ k i, (s.thread k).phase.counted = some i →
    (kins m i).childrenCnt = (kins s.tables i).childrenCnt) : Counted { s with tables := m } := by
  intro k i hk
  exact ⟨(hm k i hk).trans (h k i hk).1, (h k i hk).2⟩

theorem Spares.update {i : Nat} {x : Kin} (h : s.Ties) (hsound : m.Sound)
    (hkins : kins m = Function.update (kins s.tables) i x)
    (hactive : ∀ k, (s.thread k).phase.slot = some i → x.status.Active)
    (hid : x.instanceId = (kins s.tables i).instanceId ∨ x.instanceId = i)
    (hstored : ∀ k, (s.thread k).phase.settled = some i →
      x.parent = (kins s.tables i).parent) : s.Spares m := by
  have hother : ∀ j, j ≠ i → kins m j = kins s.tables j := by
    intro j hj
    rw [hkins, Function.update_of_ne hj]
  have hself : kins m i = x := by
    rw [hkins, Function.update_self]
  refine ⟨hsound, ?_, ?_, ?_⟩
  · intro k j hk
    by_cases hj : j = i
    · subst hj
      rw [hself]
      exact hactive k hk
    · rw [hother j hj]
      exact h.active k j hk
  · intro j hj'
    by_cases hj : j = i
    · subst hj
      rw [hself]
      rcases hid with hid | hid
      · exact hid.trans hj'
      · exact hid
    · rwa [hother j hj]
  · intro k j hk
    by_cases hj : j = i
    · subst hj
      rw [hself]
      exact hstored k hk
    · rw [hother j hj]

theorem Inv.update {i : Nat} {x : Kin} (h : s.Inv) (hsound : m.Sound)
    (hkins : kins m = Function.update (kins s.tables) i x)
    (hactive : ∀ k, (s.thread k).phase.slot = some i → x.status.Active)
    (hid : x.instanceId = (kins s.tables i).instanceId ∨ x.instanceId = i)
    (hstored : ∀ k, (s.thread k).phase.settled = some i → x.parent = (kins s.tables i).parent)
    (hcounted : ∀ k, (s.thread k).phase.counted = some i →
      x.childrenCnt = (kins s.tables i).childrenCnt) : Inv { s with tables := m } := by
  refine ⟨h.ties.tables (.update h.ties hsound hkins hactive hid hstored),
    h.counted.tables fun k j hk => ?_⟩
  rw [hkins]
  by_cases hj : j = i
  · subst hj
    rw [Function.update_self]
    exact hcounted k hk
  · rw [Function.update_of_ne hj]

end Change

/-! ## A thread is created -/

section Create

variable {s : Family} {m : Tables} {cfg : OnvmNfInitCfg} {parent : Option Parent}

theorem create_self : (s.create cfg parent).thread s.next =
    ⟨.waiting { cfg with status := .waitingForId }, parent⟩ := Function.update_self ..

theorem create_other {k : Nat} (h : k ≠ s.next) :
    (s.create cfg parent).thread k = s.thread k := Function.update_of_ne h ..

theorem childCount_create (s : Family) (cfg : OnvmNfInitCfg) (parent : Option Parent) (v : Nat) :
    (s.create cfg parent).childCount v =
      s.childCount v + if parent.map Parent.thread = some v then 1 else 0 := by
  have hnext : (s.create cfg parent).next = s.next + 1 := rfl
  have hbelow : Nat.count ((s.create cfg parent).IsChild v) s.next = s.childCount v := by
    apply count_congr_below
    intro j hj
    unfold IsChild
    rw [create_other (by omega)]
  have hself : (s.create cfg parent).IsChild v s.next ↔ parent.map Parent.thread = some v := by
    unfold IsChild
    rw [create_self]
    simp [Phase.live]
  unfold childCount
  rw [hnext, Nat.count_succ, hbelow]
  simp only [hself]
  rfl

theorem Ties.create (h : s.Ties) (cfg : OnvmNfInitCfg)
    (hheads : ∀ p, parent = some p → s.Heads p) : (s.create cfg parent).Ties := by
  have hself : (s.create cfg parent).thread s.next =
      ⟨.waiting { cfg with status := .waitingForId }, parent⟩ := create_self
  have hheads' : ∀ p, s.Heads p → (s.create cfg parent).Heads p := by
    intro p hp
    refine ⟨hp.created.trans (Nat.lt_succ_self _), hp.known, hp.id, ?_, ?_⟩
    · rw [create_other (Nat.ne_of_lt hp.created)]
      exact hp.launched
    · intro k hk
      by_cases hkn : k = s.next
      · rw [hkn, hself] at hk
        cases hk
      · rw [create_other hkn] at hk
        exact hp.sole k hk
  refine ⟨h.sound, ?_, ?_, ?_, ?_, ?_, ?_, ?_⟩
  · intro k hk
    have hk' : s.next + 1 ≤ k := hk
    rw [create_other (by omega)]
    exact h.fresh k (by omega)
  · intro k c hk
    by_cases hkn : k = s.next
    · rw [hkn, hself] at hk
      rcases hk with hk | hk <;> cases hk
      rfl
    · rw [create_other hkn] at hk
      exact h.asked k c hk
  · intro k hk
    by_cases hkn : k = s.next
    · rw [hkn, hself] at hk
      cases hk
    · rw [create_other hkn] at hk ⊢
      exact h.alone k hk
  · intro k i hk
    by_cases hkn : k = s.next
    · rw [hkn, hself] at hk
      cases hk
    · rw [create_other hkn] at hk
      exact h.active k i hk
  · intro k k' i hk hk'
    have hkn : k ≠ s.next := by
      rintro rfl
      rw [hself] at hk
      cases hk
    have hkn' : k' ≠ s.next := by
      rintro rfl
      rw [hself] at hk'
      cases hk'
    rw [create_other hkn] at hk
    rw [create_other hkn'] at hk'
    exact h.unique k k' i hk hk'
  · intro k i hk
    by_cases hkn : k = s.next
    · rw [hkn, hself] at hk
      cases hk
    · rw [create_other hkn] at hk ⊢
      exact h.stored k i hk
  · intro k p hk hp
    by_cases hkn : k = s.next
    · rw [hkn, hself] at hp
      exact hheads' p (hheads p hp)
    · rw [create_other hkn] at hk hp
      exact hheads' p (h.heads k p hk hp)

end Create

/-! ## A thread ends -/

section Leave

variable {s : Family} {m : Tables} {w i : Nat}

theorem Ties.created (h : s.Ties) (hlive : (s.thread w).phase.live) : w < s.next := by
  by_contra hge
  rw [h.fresh w (by omega)] at hlive
  cases hlive

theorem childCount_end {p : Option Parent} (h : s.Ties) (hlive : (s.thread w).phase.live)
    (hp : (s.thread w).parent = p) (v : Nat) :
    (s.goto w .ended).childCount v + (if p.map Parent.thread = some v then 1 else 0) =
      s.childCount v := by
  have hw := h.created hlive
  have hother : ∀ k, k ≠ w → ((s.goto w .ended).IsChild v k ↔ s.IsChild v k) := by
    intro k hk
    unfold IsChild
    rw [goto_other hk]
  have hgone : ¬ (s.goto w .ended).IsChild v w := by
    unfold IsChild
    rw [goto_self]
    simp [Phase.live]
  by_cases hv : p.map Parent.thread = some v
  · rw [if_pos hv]
    exact count_leave hw ⟨hlive, hp ▸ hv⟩ hgone fun j hj => (hother j hj).symm
  · have hnext : (s.goto w .ended).next = s.next := rfl
    rw [if_neg hv, Nat.add_zero]
    apply childCount_congr hnext
    intro k
    by_cases hk : k = w
    · subst hk
      refine iff_of_false hgone fun hchild => hv ?_
      rw [← hp]
      exact hchild.2
    · exact hother k hk

theorem Fits.ended (hw : w < s.next) : s.Fits w .ended where
  created := hw
  asked _ := nofun
  alone := nofun
  active _ := nofun
  unique _ _ := nofun
  sole _ _ _ _ := nofun
  launched _ _ := trivial
  live _ := nofun
  stored _ := nofun

theorem Inv.leave (h : s.Inv) (hw : (s.thread w).phase.slot = some i)
    (hlive : (s.thread w).phase.live) (hsound : m.Sound)
    (hkins : kins m = told (Function.update (kins s.tables) i
      { kins s.tables i with status := .stopped }) i)
    (hparent : (kins s.tables i).parent = parentSlot (s.thread w).parent ∨
      (s.thread w).parent = none ∧
        ∀ k, (s.thread k).phase.counted ≠ some (kins s.tables i).parent) :
    ({ s with tables := m }.goto w .ended).Inv := by
  have hstopped : ∀ j, (Function.update (kins s.tables) i
      { kins s.tables i with status := .stopped } j).instanceId = (kins s.tables j).instanceId ∧
      (Function.update (kins s.tables) i
        { kins s.tables i with status := .stopped } j).parent = (kins s.tables j).parent ∧
      (Function.update (kins s.tables) i
        { kins s.tables i with status := .stopped } j).childrenCnt =
          (kins s.tables j).childrenCnt := by
    intro j
    by_cases hj : j = i
    · subst hj
      rw [Function.update_self]
      exact ⟨rfl, rfl, rfl⟩
    · rw [Function.update_of_ne hj]
      exact ⟨rfl, rfl, rfl⟩
  have hties := h.ties.move (Fits.ended (h.ties.created hlive))
  refine ⟨hties.tables ⟨hsound, ?_, ?_, ?_⟩, ?_⟩
  · intro k j hk
    by_cases hkw : k = w
    · subst hkw
      rw [goto_self] at hk
      cases hk
    · rw [goto_other hkw] at hk
      have hj : j ≠ i := by
        rintro rfl
        exact hkw (h.ties.unique k w j hk hw)
      rw [hkins, (told_fields _ i j).1, Function.update_of_ne hj]
      exact h.ties.active k j hk
  · intro j hj
    rw [hkins, (told_fields _ i j).2.1, (hstopped j).1]
    exact hj
  · intro k j _
    rw [hkins, (told_fields _ i j).2.2, (hstopped j).2.1]
    rfl
  · intro k j hk
    by_cases hkw : k = w
    · subst hkw
      rw [goto_self] at hk
      cases hk
    rw [goto_other hkw] at hk
    have hc := h.counted k j hk
    have hend := childCount_end h.ties hlive rfl k
    have hcount : ({ s with tables := m }.goto w .ended).childCount k =
        (s.goto w .ended).childCount k := rfl
    rw [hcount]
    show (kins m j).childrenCnt = _ ∧ _
    rw [hkins, told_childrenCnt, (hstopped i).2.1, (hstopped j).2.2, hc.1]
    cases hp : (s.thread w).parent with
    | none =>
      have hnot : ¬ ((kins s.tables i).parent ≠ 0 ∧ j = (kins s.tables i).parent) := by
        rintro ⟨hne, hj⟩
        rcases hparent with hzero | hnone
        · rw [hp] at hzero
          exact hne hzero
        · exact hnone.2 k (hj ▸ hk)
      rw [hp, Option.map_none, if_neg (by simp), Nat.add_zero] at hend
      rw [if_neg hnot, hend]
      exact ⟨rfl, hc.2⟩
    | some p =>
      have hheads := h.ties.heads w p hlive hp
      have hslot : (kins s.tables i).parent = p.slot := by
        rcases hparent with hset | hnone
        · rwa [hp] at hset
        · rw [hp] at hnone
          cases hnone.1
      rw [hp, Option.map_some] at hend
      rw [hslot]
      by_cases hj : j = p.slot
      · subst hj
        have hkp := hheads.sole k (Phase.slot_of_counted hk)
        rw [if_pos (congrArg some hkp.symm)] at hend
        rw [if_pos ⟨hheads.known, rfl⟩, ← hend, dec16_succ (by omega)]
        exact ⟨rfl, by omega⟩
      · have hkp : p.thread ≠ k := by
          rintro rfl
          exact hj (Phase.eq_of_counted hheads.launched hk)
        rw [if_neg (by simpa using hkp), Nat.add_zero] at hend
        rw [if_neg (fun hand => hj hand.2), hend]
        exact ⟨rfl, hc.2⟩

end Leave

/-! ## The steps -/

/-- No child is left of an earlier NF of slot `i`. -/
def NoOrphans (s : Family) (i : Nat) : Prop :=
  ∀ k < s.next, (s.thread k).phase.live → (s.thread k).parent.map Parent.slot ≠ some i

/-- What `start_child` reads as its ID is its ID. -/
def ReadsOwn (id : Nat) : Phase → Prop
  | .store i => id = i
  | _ => True

/-- A child is not refused; no child is left of an earlier NF of a slot that is given
away; and what an earlier NF left in the parent field of a slot is not the slot of an NF
when the next NF is stopped in the middle of `start_nf`. -/
def HandleRule (s : Family) (parent : Option Parent) : Phase → Prop
  | .waiting cfg =>
    (parent ≠ none → (s.tables.onvmNfStart cfg).2.2 ≠ some 1) ∧
      ((s.tables.onvmNfStart cfg).2.2 = some 0 → s.NoOrphans (s.tables.targetId cfg))
  | .quitting i => (s.tables.nfs i).parent ≠ 0 →
      ∀ k < s.next, (s.thread k).phase.counted ≠ some (s.tables.nfs i).parent
  | _ => True

/-- `pthread_create` does not fail, the parent's ID is not 0 and it has fewer than
2^15 - 1 children; and the rules above. -/
def Regular (s : Family) : Event → Prop
  | .main _ | .interrupt _ | .stop _ => True
  | .scale w _ _ ret => ret ≤ 0 ∧ s.childCount w + 1 < 2 ^ 15 ∧ (s.thread w).phase ≠ .running 0
  | .advance w id => ReadsOwn id (s.thread w).phase
  | .handle w => s.tables.exit = none → s.HandleRule (s.thread w).parent (s.thread w).phase

instance (s : Family) (i : Nat) : Decidable (s.NoOrphans i) :=
  inferInstanceAs (Decidable (∀ k < s.next, (s.thread k).phase.live →
    (s.thread k).parent.map Parent.slot ≠ some i))

instance (id : Nat) : (ph : Phase) → Decidable (ReadsOwn id ph)
  | .store i => inferInstanceAs (Decidable (id = i))
  | .waiting _ | .abandoned _ | .answered _ | .init _ | .started _ | .readying _ | .running _
  | .stopping _ | .quitting _ | .ended => isTrue trivial

instance (s : Family) (parent : Option Parent) : (ph : Phase) → Decidable (s.HandleRule parent ph)
  | .waiting cfg => inferInstanceAs (Decidable
      ((parent ≠ none → (s.tables.onvmNfStart cfg).2.2 ≠ some 1) ∧
        ((s.tables.onvmNfStart cfg).2.2 = some 0 → s.NoOrphans (s.tables.targetId cfg))))
  | .quitting i => inferInstanceAs (Decidable ((s.tables.nfs i).parent ≠ 0 →
      ∀ k < s.next, (s.thread k).phase.counted ≠ some (s.tables.nfs i).parent))
  | .abandoned _ | .answered _ | .init _ | .store _ | .started _ | .readying _ | .running _
  | .stopping _ | .ended => isTrue trivial

instance (s : Family) : (e : Event) → Decidable (s.Regular e)
  | .main _ | .interrupt _ | .stop _ => isTrue trivial
  | .scale w _ _ ret => inferInstanceAs (Decidable
      (ret ≤ 0 ∧ s.childCount w + 1 < 2 ^ 15 ∧ (s.thread w).phase ≠ .running 0))
  | .advance w id => inferInstanceAs (Decidable (ReadsOwn id (s.thread w).phase))
  | .handle w => inferInstanceAs (Decidable
      (s.tables.exit = none → s.HandleRule (s.thread w).parent (s.thread w).phase))

section Steps

variable {s : Family} {w : Nat} {ph : Phase} {m : Tables}

theorem Ties.fits (h : s.Ties) (hw : w < s.next)
    (hslot : ∀ i, ph.slot = some i → (s.thread w).phase.slot = some i)
    (hasked : ∀ cfg, ph = .waiting cfg ∨ ph = .abandoned cfg → cfg.status = .waitingForId)
    (halone : ph.Alone → (s.thread w).parent = none)
    (hlaunched : ∀ i, (s.thread w).phase.Launched i → ph.Launched i)
    (hlive : (s.thread w).parent ≠ none → ph.live → (s.thread w).phase.live)
    (hstored : ∀ i, ph.settled = some i →
      (kins s.tables i).parent = parentSlot (s.thread w).parent) : s.Fits w ph where
  created := hw
  asked := hasked
  alone := halone
  active i hi := h.active w i (hslot i hi)
  unique i k hi hk := (h.unique w k i (hslot i hi) hk).symm
  sole k p hk hp hi := (h.heads k p hk hp).sole w (hslot p.slot hi)
  launched := hlaunched
  live := hlive
  stored := hstored

theorem sound_setFamily (h : m.Sound) (i parent childrenCnt : Nat) :
    (m.setFamily i parent childrenCnt).Sound := by
  refine ⟨h.pool, h.next, ?_⟩
  rw [Tables.view_setFamily]
  exact h.tidy

theorem onEvent_msg (he : m.exit = none) (msg : Tables.Msg) :
    m.onEvent (.msg msg) = m.onMsg msg := by
  unfold Tables.onEvent
  rw [he]

theorem Inv.main (h : s.Inv) (cfg : OnvmNfInitCfg) : (s.create cfg none).Inv := by
  refine ⟨h.ties.create cfg nofun, ?_⟩
  intro k i hk
  have hkn : k ≠ s.next := by
    rintro rfl
    rw [create_self] at hk
    cases hk
  rw [create_other hkn] at hk
  rw [childCount_create, Option.map_none, if_neg (by simp), Nat.add_zero]
  exact h.counted k i hk

/-! ### Scaling -/

theorem scaleInfo_valid (cfg : OnvmNfInitCfg) (pktHandler : Bool) :
    ¬ onvmNflibIsScaleInfoValid cfg pktHandler < 0 := by
  unfold onvmNflibIsScaleInfoValid
  split <;> decide

theorem kins_setChildrenCnt (s : Family) (i n : Nat) : kins (s.setChildrenCnt i n).tables =
    Function.update (kins s.tables) i { kins s.tables i with childrenCnt := n } :=
  kins_setFamily ..

theorem Ties.setChildrenCnt (h : s.Ties) (i n : Nat) : (s.setChildrenCnt i n).Ties :=
  h.tables (.update h (sound_setFamily h.sound _ _ _) (kins_setChildrenCnt s i n)
    (fun k hk => h.active k i hk) (.inl rfl) fun _ _ => rfl)

theorem inc16_small {n : Nat} (h : n + 1 < 2 ^ 15) : inc16 n = n + 1 := inc16_eq (by omega)

theorem Inv.scale (h : s.Inv) {i : Nat} {ret : Int} (hw : (s.thread w).phase = .running i)
    (hi : i ≠ 0) (hfew : s.childCount w + 1 < 2 ^ 15) (hret : ret ≤ 0) (cfg : OnvmNfInitCfg)
    (pktHandler : Bool) : (s.onvmNflibScale w i cfg pktHandler ret).Inv := by
  have hslot : (s.thread w).phase.slot = some i := by rw [hw]; rfl
  have hcounted : (s.thread w).phase.counted = some i := by rw [hw]; rfl
  have hactive := h.ties.active w i hslot
  have hid : (s.tables.nfs i).instanceId = i := ((h.ties.sound.tidy i).named hactive).1
  have hcnt : (s.tables.nfs i).childrenCnt = s.childCount w := (h.counted w i hcounted).1
  have hcreated : w < s.next := h.ties.created (by rw [hw]; rfl)
  unfold onvmNflibScale
  rw [if_neg (scaleInfo_valid cfg pktHandler)]
  dsimp only
  rw [hid, hcnt, inc16_small hfew]
  have hties := h.ties.setChildrenCnt i (s.childCount w + 1)
  have hkins := kins_setChildrenCnt s i (s.childCount w + 1)
  split
  · -- the thread could not be created: up and down again
    have hback : kins ((s.setChildrenCnt i (s.childCount w + 1)).setChildrenCnt i
        (dec16 (s.childCount w + 1))).tables = kins s.tables := by
      rw [kins_setChildrenCnt, hkins, Function.update_idem, Function.update_self,
        dec16_succ (by omega), ← hcnt]
      exact Function.update_eq_self i (kins s.tables)
    have hnow : ((s.setChildrenCnt i (s.childCount w + 1)).tables.nfs i).childrenCnt =
        s.childCount w + 1 := by
      have hupdated := congrFun hkins i
      rw [Function.update_self] at hupdated
      exact congrArg Kin.childrenCnt hupdated
    rw [hnow]
    refine ⟨hties.setChildrenCnt i _, ?_⟩
    intro k j hk
    rw [hback]
    exact h.counted k j hk
  · split
    · have hheads : (s.setChildrenCnt i (s.childCount w + 1)).Heads ⟨w, i⟩ := by
        refine ⟨hcreated, hi, ?_, ?_, ?_⟩
        · rw [hkins, Function.update_self]
          exact hid
        · show (s.thread w).phase.Launched i
          rw [hw]
          rfl
        · intro k hk
          exact h.ties.unique k w i hk hslot
      refine ⟨hties.create cfg fun p hp => ?_, ?_⟩
      · cases hp
        exact hheads
      · intro k j hk
        have hkn : k ≠ s.next := by
          rintro rfl
          rw [show ((s.setChildrenCnt i (s.childCount w + 1)).create cfg
            (some ⟨w, i⟩)).thread s.next = _ from create_self] at hk
          cases hk
        have hk' : (s.thread k).phase.counted = some j := by
          rwa [create_other (s := s.setChildrenCnt i (s.childCount w + 1)) hkn] at hk
        have hc := h.counted k j hk'
        have hsame : (s.setChildrenCnt i (s.childCount w + 1)).childCount k = s.childCount k := rfl
        rw [childCount_create, hsame]
        show (kins (s.setChildrenCnt i (s.childCount w + 1)).tables j).childrenCnt = _ ∧ _
        rw [hkins]
        by_cases hkw : k = w
        · subst hkw
          have hj : j = i := by
            rw [hcounted] at hk'
            exact (Option.some.inj hk').symm
          rw [hj, Function.update_self, Option.map_some, if_pos rfl]
          exact ⟨rfl, hfew⟩
        · have hj : j ≠ i := by
            rintro rfl
            exact hkw (h.ties.unique k w j (Phase.slot_of_counted hk') hslot)
          rw [Function.update_of_ne hj, Option.map_some, if_neg (by simpa using Ne.symm hkw)]
          exact hc
    · omega

/-! ### The NF's own steps -/

theorem Inv.move (h : s.Inv) (hf : s.Fits w ph)
    (hlive : (s.thread w).parent ≠ none → ph.live = (s.thread w).phase.live)
    (hcounted : ∀ i, ph.counted = some i → (s.thread w).phase.counted = some i) :
    (s.goto w ph).Inv :=
  ⟨h.ties.move hf, h.counted.move hlive fun i hi => h.counted w i (hcounted i hi)⟩

theorem Inv.shift (h : s.Inv) {ph' : Phase} (hw : (s.thread w).phase = ph')
    (hs : ph'.Shifts ph) : (s.goto w ph).Inv := by
  subst hw
  refine h.move ?_ (fun _ => hs.live.2.trans hs.live.1.symm) hs.counted
  refine h.ties.fits (h.ties.created hs.live.1) hs.slot ?_ ?_ hs.launched ?_ ?_
  · rintro cfg (hph | hph)
    · exact absurd hph (hs.sent cfg).1
    · exact absurd hph (hs.sent cfg).2
  · intro halone
    exact absurd halone hs.accompanied
  · intro _ _
    exact hs.live.1
  · intro i hi
    exact h.ties.stored w i (hs.settled i hi)

theorem shifts_stop (i : Nat) {ph' : Phase} (h : ph' = .started i ∨ ph' = .running i) :
    ph'.Shifts (.stopping i) := by
  rcases h with rfl | rfl
  · exact ⟨⟨rfl, rfl⟩, fun _ => ⟨nofun, nofun⟩, id, fun _ => id, nofun, fun _ => id, nofun⟩
  · exact ⟨⟨rfl, rfl⟩, fun _ => ⟨nofun, nofun⟩, id, fun _ => id, nofun, fun _ => id, fun _ => id⟩

theorem Inv.stop (h : s.Inv) (w : Nat) : (s.stop w).Inv := by
  unfold Family.stop
  split
  · rename_i i hw
    exact h.shift hw (shifts_stop i (.inl rfl))
  · rename_i i hw
    exact h.shift hw (shifts_stop i (.inr rfl))
  · exact h

theorem Inv.giveUp (h : s.Inv) (hcreated : w < s.next) (hnone : (s.thread w).parent = none)
    (hslot : ∀ i, ph.slot = some i → (s.thread w).phase.slot = some i)
    (hasked : ∀ cfg, ph = .waiting cfg ∨ ph = .abandoned cfg → cfg.status = .waitingForId)
    (hlaunched : ∀ i, (s.thread w).phase.Launched i → ph.Launched i)
    (hcounted : ph.counted = none) (hsettled : ph.settled = none) : (s.goto w ph).Inv := by
  refine h.move ?_ (fun hp => absurd hnone hp) ?_
  · refine h.ties.fits hcreated hslot hasked (fun _ => hnone) hlaunched
      (fun hp => absurd hnone hp) ?_
    intro i hi
    rw [hsettled] at hi
    cases hi
  · intro i hi
    rw [hcounted] at hi
    cases hi

theorem Inv.interrupt (h : s.Inv) (w : Nat) : (s.interrupt w).Inv := by
  unfold Family.interrupt
  split
  · rename_i cfg hw hnone
    have hcreated := h.ties.created (w := w) (by rw [hw]; rfl)
    refine h.giveUp hcreated hnone nofun ?_ ?_ rfl rfl
    · rintro c (hc | hc)
      · cases hc
      · cases hc
        exact h.ties.asked w cfg (.inl hw)
    · intro i hi
      rw [hw] at hi
      exact hi
  · rename_i cfg hw hnone
    have hcreated := h.ties.created (w := w) (by rw [hw]; rfl)
    have hlaunched : ∀ i, ¬ (s.thread w).phase.Launched i := by
      intro i hi
      rw [hw] at hi
      exact hi
    split
    · rename_i hstarting
      refine h.giveUp hcreated hnone ?_ nofun (fun i hi => absurd hi (hlaunched i)) rfl rfl
      intro i hi
      rw [hw, Phase.slot, if_pos hstarting]
      exact hi
    · exact h.giveUp hcreated hnone nofun nofun (fun i hi => absurd hi (hlaunched i)) rfl rfl
  · exact h

theorem Inv.writeOwn (h : s.Inv) {i parent childrenCnt : Nat}
    (hslot : (s.thread w).phase.slot = some i) (hsettled : (s.thread w).phase.settled = none)
    (hcounted : (s.thread w).phase.counted = none ∨
      childrenCnt = (s.tables.nfs i).childrenCnt) :
    Inv { s with tables := s.tables.setFamily i parent childrenCnt } := by
  refine h.update (sound_setFamily h.ties.sound _ _ _) (kins_setFamily ..)
    (fun k hk => h.ties.active k i hk) (.inl rfl) ?_ ?_
  · intro k hk
    have hkw := h.ties.unique k w i (Phase.slot_of_settled hk) hslot
    rw [hkw, hsettled] at hk
    cases hk
  · intro k hk
    have hkw := h.ties.unique k w i (Phase.slot_of_counted hk) hslot
    rcases hcounted with hnone | hsame
    · rw [hkw, hnone] at hk
      cases hk
    · exact hsame

theorem Ties.childless (h : s.Ties) (hw : ∀ i, ¬ (s.thread w).phase.Launched i) :
    s.childCount w = 0 := by
  refine Nat.count_iff_forall_not.mpr fun k _ hchild => ?_
  obtain ⟨p, hp, hthread⟩ := Option.map_eq_some_iff.mp hchild.2
  exact hw p.slot (hthread ▸ (h.heads k p hchild.1 hp).launched)

/-- `start_nf` clears the family fields. -/
theorem Inv.init (h : s.Inv) {i : Nat} (hw : (s.thread w).phase = .init i)
    (hph : ph = .started i ∧ (s.thread w).parent = none ∨ ph = .store i) :
    ({ s with tables := s.tables.setFamily i 0 0 }.goto w ph).Inv := by
  have hslot : (s.thread w).phase.slot = some i := by rw [hw]; rfl
  have hlive : (s.thread w).phase.live := by rw [hw]; rfl
  have hnolaunch : ∀ j, ¬ (s.thread w).phase.Launched j := by
    intro j hj
    rw [hw] at hj
    exact hj
  have hcleared : Inv { s with tables := s.tables.setFamily i 0 0 } :=
    h.writeOwn hslot (by rw [hw]; rfl) (.inl (by rw [hw]; rfl))
  have hzero : kins (s.tables.setFamily i 0 0) i =
      { kins s.tables i with parent := 0, childrenCnt := 0 } := by
    rw [kins_setFamily, Function.update_self]
  have hnone := hcleared.ties.childless (w := w) hnolaunch
  refine ⟨hcleared.ties.move ?_, hcleared.counted.move ?_ ?_⟩
  · refine hcleared.ties.fits (h.ties.created hlive) ?_ ?_ ?_
      (fun j hj => absurd hj (hnolaunch j)) (fun _ _ => hlive) ?_
    · intro j hj
      show (s.thread w).phase.slot = some j
      rcases hph with ⟨rfl, -⟩ | rfl <;> exact hslot.trans hj
    · rcases hph with ⟨rfl, -⟩ | rfl <;> exact nofun
    · rcases hph with ⟨rfl, -⟩ | rfl <;> exact nofun
    · intro j hj
      rcases hph with ⟨rfl, hparent⟩ | rfl
      · cases hj
        show (kins (s.tables.setFamily i 0 0) i).parent = parentSlot (s.thread w).parent
        rw [hzero, hparent]
        rfl
      · cases hj
  · intro _
    show ph.live = (s.thread w).phase.live
    rw [hw]
    rcases hph with ⟨rfl, -⟩ | rfl <;> rfl
  · intro j hj
    have hji : j = i := by
      rcases hph with ⟨rfl, -⟩ | rfl <;> exact (Option.some.inj hj).symm
    rw [hnone]
    subst hji
    exact ⟨congrArg Kin.childrenCnt hzero, by decide⟩

/-- `start_child` stores the parent. -/
theorem Inv.store (h : s.Inv) {i : Nat} {p : Parent} (hw : (s.thread w).phase = .store i)
    (hp : (s.thread w).parent = some p) (hm : m = s.tables.setFamily i
      (s.tables.nfs p.slot).instanceId (s.tables.nfs i).childrenCnt) :
    ({ s with tables := m }.goto w (.started i)).Inv := by
  have hslot : (s.thread w).phase.slot = some i := by rw [hw]; rfl
  have hlive : (s.thread w).phase.live := by rw [hw]; rfl
  have hid : (s.tables.nfs p.slot).instanceId = p.slot := (h.ties.heads w p hlive hp).id
  rw [hid] at hm
  have hstored : Inv { s with tables := m } :=
    hm ▸ h.writeOwn hslot (by rw [hw]; rfl) (.inr rfl)
  refine ⟨hstored.ties.move ?_, hstored.counted.move ?_ ?_⟩
  · refine hstored.ties.fits (h.ties.created hlive) ?_ nofun nofun ?_ (fun _ _ => hlive) ?_
    · intro j hj
      exact hslot.trans hj
    · intro j hj
      have hj' : (s.thread w).phase.Launched j := hj
      rw [hw] at hj'
      cases hj'
    · intro j hj
      cases hj
      show (kins m i).parent = parentSlot (s.thread w).parent
      rw [hm, kins_setFamily, Function.update_self, hp]
      rfl
  · intro _
    show _ = (s.thread w).phase.live
    rw [hw]
    rfl
  · intro j hj
    refine hstored.counted w j ?_
    show (s.thread w).phase.counted = some j
    rw [hw]
    exact hj

theorem Inv.advance (h : s.Inv) {id : Nat} (hr : s.Regular (.advance w id)) :
    (s.advance w id).Inv := by
  unfold Family.advance
  split
  · rename_i cfg hw
    have hlive : (s.thread w).phase.live := by rw [hw]; rfl
    split
    · rename_i hstarting
      refine h.shift hw ⟨⟨rfl, rfl⟩, fun _ => ⟨nofun, nofun⟩, fun hn => hn, ?_, nofun, nofun, nofun⟩
      intro i hi
      rw [Phase.slot, if_pos hstarting]
      exact hi
    · rename_i hrefused
      have hnone := h.ties.alone w (by rw [hw]; exact hrefused)
      exact h.giveUp (h.ties.created hlive) hnone nofun nofun (fun _ _ => trivial) rfl rfl
  · rename_i i hw hnone
    exact h.init hw (.inl ⟨rfl, hnone⟩)
  · rename_i i p hw hp
    exact h.init hw (.inr rfl)
  · rename_i i p hw hp
    have hid : id = i := by
      dsimp only [Regular] at hr
      rw [hw] at hr
      exact hr
    subst hid
    exact h.store hw hp rfl
  · rename_i i hw
    exact h.shift hw
      ⟨⟨rfl, rfl⟩, fun _ => ⟨nofun, nofun⟩, nofun, fun _ hi => hi, fun _ hi => hi,
        fun _ hi => hi, nofun⟩
  · exact h

/-! ### The manager's steps -/

/-- `onvm_nf_start` writes no family field and takes no slot from an NF. -/
theorem Inv.started (h : s.Inv) (he : s.tables.exit = none) (cfg : OnvmNfInitCfg) :
    Inv { s with tables := (s.tables.onvmNfStart cfg).1 } := by
  have hsound : (s.tables.onvmNfStart cfg).1.Sound := by
    have hevent := Tables.onEvent_sound h.ties.sound (.msg (.nfStarting (some cfg)))
    rwa [onEvent_msg he] at hevent
  by_cases ha : s.tables.Admits cfg
  · exact h.update hsound (kins_start_admitted ha) (fun _ _ => .inl rfl) (.inr rfl)
      (fun _ _ => rfl) fun _ _ => rfl
  · have hkins := kins_start_refused ha
    rw [← Function.update_eq_self 0 (kins s.tables)] at hkins
    exact h.update hsound hkins (fun k hk => h.ties.active k 0 hk) (.inl rfl) (fun _ _ => rfl)
      fun _ _ => rfl

theorem Inv.readied (h : s.Inv) (he : s.tables.exit = none) (i : Nat) :
    Inv { s with tables := (s.tables.onvmNfReady i).1 } := by
  have hsound : (s.tables.onvmNfReady i).1.Sound := by
    have hevent := Tables.onEvent_sound h.ties.sound (.msg (.nfReady i))
    rwa [onEvent_msg he] at hevent
  rcases kins_ready s.tables i with hkins | hkins
  · rw [← Function.update_eq_self i (kins s.tables)] at hkins
    exact h.update hsound hkins (fun k hk => h.ties.active k i hk) (.inl rfl) (fun _ _ => rfl)
      fun _ _ => rfl
  · exact h.update hsound hkins (fun _ _ => .inr (.inl rfl)) (.inl rfl) (fun _ _ => rfl)
      fun _ _ => rfl

theorem Inv.answer (h : s.Inv) (he : s.tables.exit = none) {cfg : OnvmNfInitCfg} {r : Int}
    (hw : (s.thread w).phase = .waiting cfg)
    (hret : (s.tables.onvmNfStart cfg).2.2 = some r)
    (hchild : (s.thread w).parent ≠ none → r ≠ 1)
    (horphans : r = 0 → s.NoOrphans (s.tables.targetId cfg)) :
    ({ s with tables := (s.tables.onvmNfStart cfg).1 }.goto w
      (.answered (s.tables.onvmNfStart cfg).2.1)).Inv := by
  have hstarted := h.started he cfg
  have hwait := h.ties.asked w cfg (.inl hw)
  have hlive : (s.thread w).phase.live := by rw [hw]; rfl
  have hsame : (s.thread w).parent ≠ none →
      (Phase.answered (s.tables.onvmNfStart cfg).2.1).live = (s.thread w).phase.live := by
    intro _
    rw [hw]
    rfl
  refine hstarted.move ?_ hsame nofun
  rcases start_answer hwait hret with ⟨rfl, hstarting, hid, -⟩ | ⟨rfl, hrefused⟩
  · have hslot : (Phase.answered (s.tables.onvmNfStart cfg).2.1).slot =
        some (s.tables.targetId cfg) := by
      rw [Phase.slot, if_pos hstarting, hid]
    have hvacant := start_vacant h.ties.sound he hwait hret
    refine ⟨h.ties.created hlive, nofun, ?_, ?_, ?_, ?_, ?_, fun _ _ => hlive, nofun⟩
    · intro halone
      exact absurd hstarting halone
    · intro i hi
      rw [hslot] at hi
      cases hi
      show (kins (s.tables.onvmNfStart cfg).1 (s.tables.targetId cfg)).status.Active
      rw [kins_start_admitted (Tables.admits_of_start hret), Function.update_self]
      exact .inl rfl
    · intro i k hi hk
      rw [hslot] at hi
      cases hi
      exact absurd (h.ties.active k _ hk) hvacant
    · intro k p hk hp hi
      rw [hslot] at hi
      have hnot := horphans rfl k (h.ties.created hk) hk
      refine absurd ?_ hnot
      have hp' : (s.thread k).parent = some p := hp
      rw [hp', Option.map_some]
      exact hi.symm
    · intro i hi
      have hi' : (s.thread w).phase.Launched i := hi
      rw [hw] at hi'
      cases hi'
  · have hnone : (s.thread w).parent = none := by
      by_contra hparent
      exact hchild hparent rfl
    refine hstarted.ties.fits (h.ties.created hlive) ?_ nofun (fun _ => hnone) ?_
      (fun _ _ => hlive) nofun
    · intro i hi
      rw [Phase.slot, if_neg hrefused] at hi
      cases hi
    · intro i hi
      have hi' : (s.thread w).phase.Launched i := hi
      rw [hw] at hi'
      cases hi'

theorem Inv.stopped (h : s.Inv) (he : s.tables.exit = none) {i : Nat}
    (hw : (s.thread w).phase = .stopping i ∨ (s.thread w).phase = .quitting i)
    (hquit : (s.thread w).phase = .quitting i → (s.tables.nfs i).parent ≠ 0 →
      ∀ k < s.next, (s.thread k).phase.counted ≠ some (s.tables.nfs i).parent) :
    ({ s with tables := (s.tables.onvmNfStop i).1 }.goto w .ended).Inv := by
  have hslot : (s.thread w).phase.slot = some i := by
    rcases hw with hw | hw <;> (rw [hw]; rfl)
  have hlive : (s.thread w).phase.live := by
    rcases hw with hw | hw <;> (rw [hw]; rfl)
  have hactive := h.ties.active w i hslot
  have hid : (s.tables.nfs i).instanceId = i := ((h.ties.sound.tidy i).named hactive).1
  have hsound : (s.tables.onvmNfStop i).1.Sound := by
    have hevent := Tables.onEvent_sound h.ties.sound (.msg (.nfStopping (some i)))
    rwa [onEvent_msg he] at hevent
  refine h.leave hslot hlive hsound (kins_stop hid hactive) ?_
  rcases hw with hw | hw
  · exact .inl (h.ties.stored w i (by rw [hw]; rfl))
  · have hnone := h.ties.alone w (by rw [hw]; trivial)
    by_cases hp : (s.tables.nfs i).parent = 0
    · rw [hnone]
      exact .inl hp
    · refine .inr ⟨hnone, fun k hk => ?_⟩
      have hcreated : k < s.next := by
        by_contra hge
        rw [h.ties.fresh k (by omega)] at hk
        cases hk
      exact hquit hw hp k hcreated hk

theorem Inv.handle (h : s.Inv) (hr : s.Regular (.handle w)) : (s.handle w).Inv := by
  unfold Family.handle
  split
  · exact h
  rename_i he
  have hr' := hr he
  split
  · rename_i cfg hw
    rw [hw] at hr'
    dsimp only
    cases hret : (s.tables.onvmNfStart cfg).2.2 with
    | none =>
      -- the manager has exited and the thread goes on waiting
      have hlive : (s.thread w).phase.live := by rw [hw]; rfl
      refine (h.started he cfg).move ?_ (fun _ => ?_) nofun
      · refine (h.started he cfg).ties.fits (h.ties.created hlive) nofun ?_ nofun ?_
          (fun _ _ => hlive) nofun
        · rintro c (hc | hc) <;> cases hc
          exact h.ties.asked w cfg (.inl hw)
        · intro i hi
          have hi' : (s.thread w).phase.Launched i := hi
          rw [hw] at hi'
          cases hi'
      · show _ = (s.thread w).phase.live
        rw [hw]
    | some r =>
      refine h.answer he hw hret ?_ ?_
      · intro hp hone
        exact hr'.1 hp (hone ▸ hret)
      · intro hzero
        exact hr'.2 (hzero ▸ hret)
  · rename_i cfg hw
    have hnone := h.ties.alone w (by rw [hw]; trivial)
    have hcreated : w < s.next := by
      by_contra hge
      rw [h.ties.fresh w (by omega)] at hw
      cases hw
    exact (h.started he cfg).giveUp hcreated hnone nofun nofun (fun _ _ => trivial) rfl rfl
  · rename_i i hw
    exact (h.readied he i).shift hw
      ⟨⟨rfl, rfl⟩, fun _ => ⟨nofun, nofun⟩, nofun, fun _ hi => hi, fun _ hi => hi,
        fun _ hi => hi, nofun⟩
  · rename_i i hw
    exact h.stopped he (.inl hw) fun hquit => by rw [hw] at hquit; cases hquit
  · rename_i i hw
    rw [hw] at hr'
    exact h.stopped he (.inr hw) fun _ => hr'
  · exact h

end Steps

/-! ## A run -/

theorem Inv.boot (numCores : NumCores) (enabled : Nat → Bool) : (boot numCores enabled).Inv where
  ties := {
    sound := Tables.boot_sound numCores enabled
    fresh := fun _ _ => rfl
    asked := fun _ _ => by rintro (h | h) <;> cases h
    alone := fun _ => nofun
    active := fun _ _ => nofun
    unique := fun _ _ _ => nofun
    stored := fun _ _ => nofun
    heads := fun _ _ => nofun }
  counted _ _ := nofun

theorem Inv.step {s : Family} (h : s.Inv) (e : Event) (hr : s.Regular e) : (s.step e).Inv := by
  cases e with
  | main cfg => exact h.main cfg
  | scale w cfg pktHandler ret =>
    unfold Family.step
    dsimp only
    split
    · rename_i i hw
      refine h.scale hw ?_ hr.2.1 hr.1 cfg pktHandler
      rintro rfl
      exact hr.2.2 hw
    · exact h
  | advance w id => exact h.advance hr
  | interrupt w => exact h.interrupt w
  | stop w => exact h.stop w
  | handle w => exact h.handle hr

theorem rteAtomic16Read_small {n : Nat} (h : n < 2 ^ 15) : rteAtomic16Read n = n := if_pos h

theorem Inv.childrenCounted {s : Family} (h : s.Inv) : s.ChildrenCounted := by
  intro w i hw
  obtain ⟨hcnt, hsmall⟩ := h.counted w i (by rw [hw]; rfl)
  have hcnt' : (s.tables.nfs i).childrenCnt = s.childCount w := hcnt
  rw [hcnt', rteAtomic16Read_small hsmall]
  refine ⟨rfl, Int.natCast_nonneg _, ?_⟩
  rw [Int.natCast_eq_zero]
  constructor
  · intro hzero k hchild
    exact Nat.count_iff_forall_not.mp hzero k (h.ties.created hchild.1) hchild
  · intro hnone
    exact Nat.count_iff_forall_not.mpr fun k _ => hnone k

/-- **Child accounting**: in a run of regular steps every NF that runs counts its
children. -/
theorem children_counted {numCores : NumCores} {enabled : Nat → Bool} {es : List Event}
    (h : Along step Regular (boot numCores enabled) es) :
    (exec step (boot numCores enabled) es).ChildrenCounted :=
  (h.inv (I := Inv) (fun _ e hi hr => hi.step e hr) (Inv.boot numCores enabled)).childrenCounted

def sharingCfg : OnvmNfInitCfg := { serviceId := 1, initOptions := 2, tag := some "scaling" }

/-- Up to where the NF runs. -/
def startEvents : List Event :=
  [.main sharingCfg, .handle 0, .advance 0 0, .advance 0 0, .advance 0 0, .handle 0]

/-- A child is launched, runs and stops. -/
def childEvents : List Event :=
  [.scale 0 sharingCfg true 0, .handle 1, .advance 1 0, .advance 1 0, .advance 1 2, .advance 1 0,
    .handle 1, .stop 1]

theorem children_counted_one :
    ((exec step (boot ⟨1, NumCores.one_le⟩ fun _ => true)
      (startEvents ++ childEvents)).thread 0).phase = .running 1 ∧
    (exec step (boot ⟨1, NumCores.one_le⟩ fun _ => true)
      (startEvents ++ childEvents)).ChildrenCounted :=
  ⟨by decide +kernel, children_counted (by decide +kernel)⟩

/-- The only core is not shared, so the child is refused. -/
def refusedEvents : List Event :=
  [.main { sharingCfg with initOptions := 0 }, .handle 0, .advance 0 0, .advance 0 0, .advance 0 0,
    .handle 0, .scale 0 { sharingCfg with initOptions := 0 } true 0, .handle 1, .advance 1 0]

theorem children_miscounted :
    ((exec step (boot ⟨1, NumCores.one_le⟩ fun _ => true) refusedEvents).thread 0).phase =
      .running 1 ∧
    (exec step (boot ⟨1, NumCores.one_le⟩ fun _ => true) refusedEvents).childCount 0 = 0 ∧
    ¬ (exec step (boot ⟨1, NumCores.one_le⟩ fun _ => true) refusedEvents).ChildrenCounted := by
  have hrun : ((exec step (boot ⟨1, NumCores.one_le⟩ fun _ => true) refusedEvents).thread 0).phase =
      .running 1 := by decide +kernel
  have hnone : (exec step (boot ⟨1, NumCores.one_le⟩ fun _ => true) refusedEvents).childCount 0 =
      0 := by decide +kernel
  refine ⟨hrun, hnone, fun h => ?_⟩
  have hone : rteAtomic16Read ((exec step (boot ⟨1, NumCores.one_le⟩ fun _ => true)
      refusedEvents).tables.nfs 1).childrenCnt = 1 := by decide +kernel
  have hcount := (h 0 1 hrun).1
  rw [hone, hnone] at hcount
  cases hcount

end Family

end Onvm.Msg

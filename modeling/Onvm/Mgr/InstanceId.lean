import Onvm.Mgr.Registry

/-!
# Instance IDs and their rings

An NF has its instance ID, and the rings named after it, from `onvm_nf_start`
on; but the ID counts as taken only while the NF runs, and the rings are freed
only if it ran. So a start can be for the ID of an NF that is still starting,
or for an ID whose rings were left behind, and the manager exits. These, and the
reserved ID 0 on request, are the only ways to break the rule that an ID has
one NF and its rings exist exactly as long as that NF.
-/

namespace Onvm.Mgr

open Onvm.Lib Onvm.Nflib

namespace Tables

variable {m : Tables}

/-! ## The ID a request is for -/

def searchRank (next j : Nat) : Nat := if next ≤ j then j else j + maxNfs

/-- The first ID in cyclic order from `next_instance_id` on whose NF does not
run. -/
structure FirstFree (m : Tables) (id : Nat) : Prop where
  lower : startingInstanceId ≤ id
  upper : id < maxNfs
  free : (m.nfs id).status ≠ .running
  first : ∀ j, startingInstanceId ≤ j → j < maxNfs → (m.nfs j).status ≠ .running →
    searchRank m.nextInstanceId id ≤ searchRank m.nextInstanceId j

/-- The ID a request is for: the NF's own, or else the first free one. -/
def IdFor (m : Tables) (cfg : OnvmNfInitCfg) (id : Nat) : Prop :=
  if cfg.instanceId = nfNoId then m.FirstFree id else id = cfg.instanceId

theorem FirstFree.unique {id id' : Nat} (h : m.FirstFree id) (h' : m.FirstFree id') : id = id' := by
  have heq := Nat.le_antisymm (h.first id' h'.lower h'.upper h'.free)
    (h'.first id h.lower h.upper h.free)
  have hu := h.upper
  have hu' := h'.upper
  unfold searchRank at heq
  split at heq <;> split at heq <;> omega

/-- What the search returns is the first free ID. -/
theorem firstFree_of_next (hn : 0 < m.nextInstanceId) {id : Nat}
    (hid : m.onvmNfNextInstanceId.1 = id) (hlt : id < maxNfs) : m.FirstFree id := by
  have hnum : m.numNfs < maxNfs := numNfs_lt_of_next (hid ▸ hlt)
  rcases nextInstanceId_cases hnum hid with ⟨h1, -, h3, h4⟩ | ⟨hall, ⟨h1, -, h3, h4⟩ | ⟨-, h⟩⟩
  · refine ⟨Nat.le_trans hn h1, hlt, h3, fun j hj hj' hfree => ?_⟩
    unfold searchRank
    rw [if_pos h1]
    split
    · rename_i hle
      by_contra hlt'
      exact hfree (h4 j hle (Nat.lt_of_not_le hlt'))
    · omega
  · have hbelow : ∀ j, j < maxNfs → (m.nfs j).status ≠ .running → ¬ m.nextInstanceId ≤ j :=
      fun j hj hfree hle => hfree (hall j hle hj)
    refine ⟨h1, hlt, h3, fun j hj hj' hfree => ?_⟩
    unfold searchRank
    rw [if_neg (hbelow id hlt h3), if_neg (hbelow j hj' hfree)]
    by_contra hlt'
    exact hfree (h4 j hj (by omega))
  · exact absurd h (Nat.ne_of_lt hlt)

/-- While an NF does not run, the search finds an ID. -/
theorem next_lt (hc : m.view.Counted) {id : Nat} (h : m.FirstFree id) :
    m.onvmNfNextInstanceId.1 < maxNfs := by
  have hnum : m.numNfs < maxNfs := by
    have htotal : m.numNfs = Nat.count (fun i => (m.nfs i).status = .running) maxNfs := hc.total
    rcases Nat.lt_or_ge m.numNfs maxNfs with hlt | hge
    · exact hlt
    · have hle := Nat.count_le (fun i => (m.nfs i).status = .running) (n := maxNfs)
      have hall := Nat.count_iff_forall.mp (Nat.le_antisymm hle (htotal ▸ hge))
      exact absurd (hall id h.upper) h.free
  rcases nextInstanceId_cases hnum rfl with h' | ⟨-, h' | ⟨hall, -⟩⟩
  · exact h'.2.1
  · exact h'.2.1
  · exact absurd (hall id h.lower h.upper) h.free

/-! ## The search as a whole -/

/-- Whether a call reaches the log that `num_nfs` is corrupted: the counter has
passed its check and neither pass finds an ID. -/
def logsCorrupted (m : Tables) : Bool :=
  if maxNfs ≤ m.numNfs then false
  else
    match searchId m.nfs maxNfs m.nextInstanceId with
    | (some _, _) => false
    | (none, _) =>
      match searchId m.nfs maxNfs startingInstanceId with
      | (some _, _) => false
      | (none, _) => true

/-- A pass is over after `MAX_NFS` rounds: more change nothing. -/
theorem searchId_enough (nfs : Nat → OnvmNf) {k l next : Nat} (hk : maxNfs ≤ next + k)
    (hl : k ≤ l) : searchId nfs l next = searchId nfs k next := by
  induction k generalizing l next with
  | zero =>
    have hend : ¬ next < maxNfs := by omega
    cases l with
    | zero => rfl
    | succ l => simp [searchId, hend]
  | succ k ih =>
    obtain ⟨l, rfl⟩ := Nat.exists_eq_add_of_le' (Nat.le_trans (Nat.le_add_left 1 k) hl)
    unfold searchId
    rw [@ih l (next + 1) (by omega) (by omega)]

/-- The cursor is left just past the ID found. -/
theorem searchId_cursor {nfs : Nat → OnvmNf} {k next id : Nat}
    (h : (searchId nfs k next).1 = some id) : (searchId nfs k next).2 = id + 1 := by
  induction k generalizing next with
  | zero => cases h
  | succ k ih =>
    unfold searchId at h ⊢
    split at h <;> rename_i hlt
    · rw [if_pos hlt]
      split at h <;> rename_i hv
      · rw [if_pos hv]
        exact ih h
      · rw [if_neg hv]
        exact congrArg (· + 1) (Option.some.inj h)
    · cases h

theorem next_cursor (h : m.onvmNfNextInstanceId.1 < maxNfs) :
    m.onvmNfNextInstanceId.2 = m.onvmNfNextInstanceId.1 + 1 := by
  have hnum := numNfs_lt_of_next h
  unfold onvmNfNextInstanceId at h ⊢
  rw [if_neg (Nat.not_le_of_lt hnum)] at h ⊢
  split at h
  · rename_i id next hsearch
    have := searchId_cursor (congrArg Prod.fst hsearch)
    rw [hsearch] at this
    exact this
  · split at h
    · rename_i id next hsearch
      have := searchId_cursor (congrArg Prod.fst hsearch)
      rw [hsearch] at this
      exact this
    · exact absurd h (Nat.lt_irrefl _)

/-- What a call of the search should do. -/
structure SearchRight (m : Tables) : Prop where
  /-- Both passes end by themselves. -/
  halts : ∀ next, ∀ k ≥ maxNfs, searchId m.nfs k next = searchId m.nfs maxNfs next
  found : m.onvmNfNextInstanceId.1 ≠ maxNfs → m.FirstFree m.onvmNfNextInstanceId.1 ∧
    m.onvmNfNextInstanceId.2 = m.onvmNfNextInstanceId.1 + 1
  none_iff : m.onvmNfNextInstanceId.1 = maxNfs ↔
    ∀ j, startingInstanceId ≤ j → j < maxNfs → (m.nfs j).status = .running
  counted : m.onvmNfNextInstanceId.1 = maxNfs → maxNfs ≤ m.numNfs ∧ m.logsCorrupted = false

/-- The counter never reaches `MAX_NFS`: ID 0 is not used. -/
theorem numNfs_lt (hc : m.numNfs = Nat.count (fun i => (m.nfs i).status = .running) maxNfs)
    (h0 : (m.nfs 0).status ≠ .running) : m.numNfs < maxNfs := by
  have hle := Nat.count_le (fun i => (m.nfs i).status = .running) (n := maxNfs)
  have hne : m.numNfs ≠ maxNfs := fun he =>
    absurd (Nat.count_iff_forall.mp (hc.symm.trans he) 0 (by decide)) h0
  omega

/-- **The search does what it should exactly while an ID is free**: with all of
them running the counter is one short of the limit it is compared with, and the
call reports a corrupted counter. -/
theorem searchRight_iff
    (hc : m.numNfs = Nat.count (fun i => (m.nfs i).status = .running) maxNfs)
    (h0 : (m.nfs 0).status ≠ .running) (hn : startingInstanceId ≤ m.nextInstanceId) :
    m.SearchRight ↔
      ∃ id, startingInstanceId ≤ id ∧ id < maxNfs ∧ (m.nfs id).status ≠ .running := by
  have hnum := numNfs_lt hc h0
  have hcases := nextInstanceId_cases hnum rfl
  constructor
  · intro h
    by_contra hfull
    push Not at hfull
    have := (h.counted (h.none_iff.mpr hfull)).1
    omega
  · rintro ⟨id, h1, h2, h3⟩
    have hlt : m.onvmNfNextInstanceId.1 < maxNfs := by
      rcases hcases with h | ⟨-, h | ⟨hall, -⟩⟩
      · exact h.2.1
      · exact h.2.1
      · exact absurd (hall id h1 h2) h3
    exact {
      halts := fun next k hk => searchId_enough m.nfs (Nat.le_add_left _ _) hk
      found := fun _ => ⟨firstFree_of_next hn rfl hlt, next_cursor hlt⟩
      none_iff := ⟨fun h => absurd h (Nat.ne_of_lt hlt), fun hall => absurd (hall id h1 h2) h3⟩
      counted := fun h => absurd h (Nat.ne_of_lt hlt) }

/-- All usable IDs but 3 running, and the cursor behind it. -/
def oneLeft : Tables :=
  { bootSingle with
    nfs := fun i => { status := if i = 0 ∨ i = 3 then .waitingForId else .running }
    numNfs := 126
    nextInstanceId := 120 }

/-- The second pass finds the ID. -/
theorem searchRight_iff_oneLeft : oneLeft.onvmNfNextInstanceId = (3, 4) ∧ oneLeft.SearchRight :=
  ⟨by decide +kernel,
    (searchRight_iff (m := oneLeft) (by decide +kernel) (by decide) (by decide)).mpr
      ⟨3, by decide, by decide, by decide⟩⟩

/-- All usable IDs running. -/
def fullHouse : Tables :=
  { bootSingle with
    nfs := fun i => { status := if i = 0 then .waitingForId else .running }
    numNfs := 127
    nextInstanceId := maxNfs }

theorem fullHouse_corrupted : ¬ ∀ m : Tables,
    m.numNfs = Nat.count (fun i => (m.nfs i).status = .running) maxNfs →
      (m.nfs 0).status ≠ .running → startingInstanceId ≤ m.nextInstanceId → m.SearchRight := by
  intro h
  have hright := h fullHouse (by decide +kernel) (by decide) (by decide)
  have := hright.counted (by decide +kernel)
  exact absurd this (by decide +kernel)

/-- The code's choice is the ID the request is for. -/
theorem targetId_iff (hs : m.Sound) (hc : m.view.Counted) {cfg : OnvmNfInitCfg} {id : Nat}
    (hlt : id < maxNfs) : m.targetId cfg = id ↔ m.IdFor cfg id := by
  unfold targetId chooseId IdFor
  split
  · constructor
    · intro h
      exact firstFree_of_next hs.next h hlt
    · intro h
      exact (firstFree_of_next hs.next rfl (next_lt hc h)).unique h
  · exact eq_comm

/-! ## Exclusive IDs -/

/-- The rule, at one step: an ID given out is not 0 and no NF has it; afterwards
the rings of an ID exist exactly if some NF has it; and the manager goes on. -/
def Exclusive (m : Tables) (e : Event) : Prop :=
  (∀ cfg id, e = .msg (.nfStarting (some cfg)) → m.grantedId cfg = some id →
      id ≠ 0 ∧ ¬ ∃ i < maxNfs, (m.nfs i).status.Active ∧ (m.nfs i).instanceId = id) ∧
    (∀ r, ((m.onEvent e).rings r).isSome ↔
      ∃ i < maxNfs, ((m.onEvent e).nfs i).status.Active ∧
        ((m.onEvent e).nfs i).instanceId = r.id) ∧
    (m.onEvent e).exit = none

/-- A start that passes the checks is not for ID 0 nor for the ID of an NF that
is starting, and a stop is not for an NF that is starting. -/
def SafeIds (m : Tables) (e : Event) : Prop :=
  (∀ cfg id, e = .msg (.nfStarting (some cfg)) → m.IdFor cfg id → m.Passes cfg id →
      id ≠ 0 ∧ (m.nfs id).status ≠ .starting) ∧
    ∀ i, e = .msg (.nfStopping (some i)) → (m.nfs i).status ≠ .starting

/-- The invariant of the runs that keep the rule. -/
structure RingsRight (m : Tables) : Prop where
  sound : m.Sound
  counted : m.view.Counted
  going : m.exit = none
  rings : ∀ r, m.view.live r ↔ (m.view.slots r.id).status.Active

/-- In a sound state an NF with an ID is the one in the slot of that number. -/
theorem Sound.holder_iff (hs : m.Sound) (id : Nat) :
    (∃ i < maxNfs, (m.nfs i).status.Active ∧ (m.nfs i).instanceId = id) ↔
      (m.nfs id).status.Active := by
  constructor
  · rintro ⟨i, -, hact, rfl⟩
    rwa [show (m.nfs i).instanceId = i from ((hs.tidy i).named hact).1]
  · intro hact
    obtain ⟨h1, h2, -⟩ := (hs.tidy id).named hact
    exact ⟨id, h2, hact, h1⟩

theorem boot_ringsRight (numCores : NumCores) (enabled : Nat → Bool) :
    (boot numCores enabled).RingsRight where
  sound := boot_sound numCores enabled
  counted := boot_counted numCores enabled
  going := rfl
  rings _ := iff_of_false (by simp [view, boot]) (by decide : ¬ NfStatus.Active .waitingForId)

theorem Passes.starting_of_active (hs : m.Sound) {cfg : OnvmNfInitCfg} {id : Nat}
    (h : m.Passes cfg id) (hact : (m.nfs id).status.Active) : (m.nfs id).status = .starting := by
  rcases hact with h1 | h1 | h1
  · exact h1
  · exact absurd h1 h.free
  · exact absurd h1 (hs.tidy id).paused

theorem RingsRight.onEvent (h : m.RingsRight) {e : Event} (hsafe : m.SafeIds e) :
    (m.onEvent e).RingsRight := by
  have heff := effect h.sound e
  have hfin : (m.onEvent e).view.exit = none ∧ ∀ r, (m.onEvent e).view.live r ↔
      ((m.onEvent e).view.slots r.id).status.Active := by
    generalize (m.onEvent e).view = v at heff
    cases heff with
    | quiet => exact ⟨h.going, h.rings⟩
    | granted cfg he hadm hfree hded hzero =>
      refine ⟨he, fun r => ?_⟩
      by_cases hr : r.id = m.targetId cfg
      · simp [View.grant, hr, NfStatus.Active]
      · simpa [View.grant, hr] using h.rings r
    | clashed cfg k slot v he hadm hlive hst hid hsvc hslots hnum hcnt htab hexit =>
      have hidf := (targetId_iff h.sound h.counted hadm.id).mp rfl
      have hact := (h.rings ⟨k, m.targetId cfg⟩).mp hlive
      exact absurd (hadm.starting_of_active h.sound hact) (hsafe.1 cfg _ rfl hidf hadm).2
    | readied i he hst =>
      refine ⟨he, fun r => ?_⟩
      by_cases hr : r.id = i
      · have hlive := (h.rings r).mpr (hr ▸ .inl hst)
        simpa [View.ready, hr, NfStatus.Active] using hlive
      · simpa [View.ready, hr] using h.rings r
    | aborted i he hst => exact absurd hst (hsafe.2 i rfl)
    | stopped i he hst =>
      refine ⟨he, fun r => ?_⟩
      by_cases hr : r.id = i
      · simp [View.retire, View.withdraw, View.vacate, hr, NfStatus.Active]
      · simpa [View.retire, View.withdraw, View.vacate, hr] using h.rings r
  exact ⟨onEvent_sound h.sound e, heff.counted h.sound h.counted, hfin.1, hfin.2⟩

/-- An NF stopped while it is starting leaves its slot and its core only. -/
theorem abort_view (hs : m.Sound) (he : m.exit = none) {i : Nat}
    (hst : (m.nfs i).status = .starting) :
    (m.onEvent (.msg (.nfStopping (some i)))).view = m.view.vacate i := by
  have heff := effect hs (.msg (.nfStopping (some i)))
  generalize (m.onEvent (.msg (.nfStopping (some i)))).view = v at heff
  cases heff with
  | quiet _ hq => exact absurd (.inl hst) (hq he)
  | aborted => rfl
  | stopped _ _ hrun =>
    rw [hst] at hrun
    cases hrun

/-- Under the invariant a step keeps the rule exactly if it is safe. -/
theorem exclusive_step (h : m.RingsRight) (e : Event) : m.Exclusive e ↔ m.SafeIds e := by
  constructor
  · rintro ⟨hgrant, hrings, -⟩
    constructor
    · rintro cfg id rfl hidf hpass
      have htarget := (targetId_iff h.sound h.counted hpass.id).mpr hidf
      subst htarget
      obtain ⟨h0, hno⟩ := hgrant cfg _ rfl (grantedId_admitted hpass)
      rw [h.sound.holder_iff] at hno
      exact ⟨h0, fun hst => hno (.inl hst)⟩
    · rintro i rfl hst
      -- the rings of the NF stay behind
      have hview := abort_view h.sound h.going hst
      have hlive : (m.onEvent (.msg (.nfStopping (some i)))).view.live ⟨.rx, i⟩ := by
        rw [hview]
        exact (h.rings ⟨.rx, i⟩).mpr (.inl hst)
      have hact := ((onEvent_sound h.sound _).holder_iff i).mp ((hrings ⟨.rx, i⟩).mp hlive)
      rw [show ((m.onEvent (.msg (.nfStopping (some i)))).nfs i).status = .stopped by
        have := congrArg (fun v => (v.slots i).status) hview
        simpa [slotOf, View.vacate] using this] at hact
      exact absurd hact (by decide)
  · intro hsafe
    have h' := h.onEvent hsafe
    refine ⟨?_, fun r => ?_, h'.going⟩
    · rintro cfg id rfl hid
      by_cases hadm : m.Admits cfg
      · obtain rfl : m.targetId cfg = id := Option.some.inj ((grantedId_admitted hadm).symm.trans hid)
        have hidf := (targetId_iff h.sound h.counted hadm.id).mp rfl
        obtain ⟨h0, hst⟩ := hsafe.1 cfg _ rfl hidf hadm
        refine ⟨h0, fun hex => hst (hadm.starting_of_active h.sound ?_)⟩
        exact (h.sound.holder_iff _).mp hex
      · rw [grantedId_refused hadm] at hid
        cases hid
    · rw [h'.sound.holder_iff]
      exact h'.rings r

/-- **Instance IDs.** Along a run IDs are exclusive, their rings exist exactly as
long as their NF and the manager never exits, exactly when every start that
passes the checks is for an ID other than 0 whose NF is not starting, and no NF
is stopped while it is starting. -/
theorem exclusive_ids_iff (numCores : NumCores) (enabled : Nat → Bool) (es : List Event) :
    Along onEvent Exclusive (boot numCores enabled) es ↔
      Along onEvent SafeIds (boot numCores enabled) es :=
  along_iff (I := RingsRight) (fun _ _ h hs => h.onEvent hs) (fun _ e h => exclusive_step h e)
    (boot_ringsRight numCores enabled)

/-- An NF stops before it is ready, and another asks for its ID. -/
def abortRun : List Event :=
  [.msg (.nfStarting (some { serviceId := 1 })),
    .msg (.nfStopping (some 1)),
    .msg (.nfStarting (some { serviceId := 1, instanceId := 1 }))]

theorem abort_exits : ¬ Along onEvent Exclusive (boot oneCore fun _ => true) abortRun ∧
    (exec onEvent (boot oneCore fun _ => true) abortRun).exit = some ⟨.rx, 1⟩ := by
  have hexit : (exec onEvent (boot oneCore fun _ => true) abortRun).exit = some ⟨.rx, 1⟩ := by decide
  refine ⟨?_, hexit⟩
  rintro ⟨-, -, ⟨-, -, hgo⟩, -⟩
  exact absurd (hexit.symm.trans hgo) (by decide)

end Tables

end Onvm.Mgr

import Onvm.Lib.Owned
import Onvm.Sdn.Effect

/-!
# The rules of the controller

What FLOW_MODs do to the flow directory. Each frees the key and the chain of its flow, if the
flow has an entry, and the entry points to new ones. `Directory` is that part of the state and
`Directory.Next` says all that an operation can do to it. In every run the directory has for
each flow the chain of the last FLOW_MOD for it, and every object in it has one owner
(`rules_in_force`).
-/

namespace Onvm.Sdn

open Onvm.Lib Onvm.Nflib Onvm.Pkt

/-! ## The rules in the messages -/

/-- The switch may take the message for an OFPT_FLOW_MOD: it is one, or it ends before its
type. -/
def MayBeFlowMod (msg : List Byte) : Prop :=
  msg.length < 2 ∨ msg[1]?.bind OfpType.ofCode = some .flowMod

instance (msg : List Byte) : Decidable (MayBeFlowMod msg) := inferInstanceAs (Decidable (_ ∨ _))

/-- If it is a FLOW_MOD it is as long as its type and its actions ask. -/
def Readable (rss : RteThash) (msg : List Byte) : Prop :=
  MayBeFlowMod msg → sizeofOfpFlowMod ≤ msg.length ∧ (IsRule msg → (ruleOf rss msg).isSome)

instance (rss : RteThash) (msg : List Byte) : Decidable (Readable rss msg) :=
  inferInstanceAs (Decidable (_ → _))

/-- Its type and its buffer number are its own. -/
theorem Readable.isRule_append {rss : RteThash} {msg : List Byte} (h : Readable rss msg)
    (tail : List Byte) : IsRule (msg ++ tail) ↔ IsRule msg := by
  by_cases hflow : MayBeFlowMod msg
  · exact Sdn.isRule_append (h hflow).1 tail
  · obtain ⟨hlen, htype⟩ := not_or.mp hflow
    have htype' : (msg ++ tail)[1]? = msg[1]? := List.getElem?_append_left (by omega)
    refine iff_of_false (fun hrule => htype ?_) fun hrule => htype hrule.1
    rw [← htype']
    exact hrule.1

def takeRule (rss : RteThash) (rules : HashKey → Option OnvmServiceChain) (msg : List Byte) :
    HashKey → Option OnvmServiceChain :=
  if IsRule msg then
    match ruleOf rss msg with
    | some (k, chain) => Function.update rules k (some chain)
    | none => rules
  else rules

/-- What the messages ask for: the last rule for a flow counts. -/
def rulesOf (rss : RteThash) (msgs : List (List Byte)) : HashKey → Option OnvmServiceChain :=
  msgs.foldl (takeRule rss) fun _ => none

theorem rulesOf_append (rss : RteThash) (msgs : List (List Byte)) (msg : List Byte) :
    rulesOf rss (msgs ++ [msg]) = takeRule rss (rulesOf rss msgs) msg :=
  List.foldl_concat ..

/-! ## The directory -/

variable {η : Type} {t : RteHash η} {rss : RteThash} {junk : Nat → Byte}

def keyOf (t : RteHash η) (dir : FlowDir η) (k : HashKey) : Option Nat :=
  (t.lookup dir.hash k).bind fun i => (dir.data i).key

def scOf (t : RteHash η) (dir : FlowDir η) (k : HashKey) : Option Nat :=
  (t.lookup dir.hash k).bind fun i => (dir.data i).sc

/-- The flow directory, the rules that were made and the messages that were handled. -/
structure Directory (η : Type) where
  dir : FlowDir η
  rules : HashKey → Option OnvmServiceChain
  handled : List (List Byte)

def Switch.directory (s : Switch η) : Directory η where
  dir := s.dir
  rules := s.trace.rules
  handled := s.trace.handled

namespace Directory

def ruled (p : Directory η) (dir : FlowDir η) (i key sc : Nat) (k : HashKey)
    (chain : OnvmServiceChain) (msg : List Byte) : Directory η where
  dir := Switch.setEntry dir i key sc chain
  rules := Function.update p.rules k (some chain)
  handled := p.handled ++ [msg]

inductive Next (t : RteHash η) (rss : RteThash) : Directory η → Directory η → Prop where
  | none {p : Directory η} : Next t rss p p
  | other {p : Directory η} (msg tail : List Byte) : ¬ IsRule (msg ++ tail) →
      Next t rss p { p with handled := p.handled ++ [msg] }
  | rule {p : Directory η} (msg tail : List Byte) (k : HashKey) (chain : OnvmServiceChain)
      (i key sc : Nat) (dir : FlowDir η) : IsRule (msg ++ tail) →
      ruleOf rss (msg ++ tail) = some (k, chain) → p.dir.keys key = false →
      p.dir.chains sc = Option.none → Switch.takeEntry t rss p.dir k.key = some (i, dir) →
      Next t rss p (p.ruled dir i key sc k chain msg)

end Directory

/-- **All that an operation does to the directory.** -/
theorem Switch.Effect.directory {s s' : Switch η} (h : Effect t rss s s') :
    Directory.Next t rss s.directory s'.directory := by
  cases h with
  | pass | take | queue | drop | read | leave | pollOut | wrote | buffer => exact .none
  | message hreads hother => exact .other _ _ hother
  | rule k chain i key sc l dir hreads hrule hof hkey hsc htake =>
    exact .rule _ _ k chain i key sc dir hrule hof hkey hsc htake

/-! ## Entries and what they point to -/

/-- The entry of the flow is found or made, and what it pointed to is freed. -/
structure Taken (t : RteHash η) (dir dir' : FlowDir η) (k : HashKey) (i : Nat) : Prop where
  lookup : ∀ k', t.lookup dir'.hash k' = if k' = k then some i else t.lookup dir.hash k'
  data : dir'.data = dir.data
  keys : ∀ p, dir'.keys p = true ↔ dir.keys p = true ∧ keyOf t dir k ≠ some p
  chains : ∀ c, dir'.chains c = if scOf t dir k = some c then none else dir.chains c

variable {dir dir' : FlowDir η} {i : Nat}

theorem freeKey_keys {key : Option Nat} (h : dir.freeKey key = some dir') :
    dir'.hash = dir.hash ∧ dir'.data = dir.data ∧ dir'.chains = dir.chains ∧
      ∀ p, dir'.keys p = true ↔ dir.keys p = true ∧ key ≠ some p := by
  unfold FlowDir.freeKey at h
  split at h
  · cases h
    exact ⟨rfl, rfl, rfl, fun p => by simp⟩
  · rename_i k
    split at h
    · cases h
      refine ⟨rfl, rfl, rfl, fun p => ?_⟩
      by_cases hp : p = k
      · simp [hp]
      · simp [hp, Ne.symm hp]
    · cases h

theorem freeChain_chains {sc : Option Nat} (h : dir.freeChain sc = some dir') :
    dir'.hash = dir.hash ∧ dir'.data = dir.data ∧ dir'.keys = dir.keys ∧
      ∀ c, dir'.chains c = if sc = some c then none else dir.chains c := by
  unfold FlowDir.freeChain at h
  split at h
  · cases h
    exact ⟨rfl, rfl, rfl, fun c => by simp⟩
  · rename_i c₀
    obtain ⟨chain, -, rfl⟩ := Option.map_eq_some_iff.mp h
    refine ⟨rfl, rfl, rfl, fun c => ?_⟩
    simp only [Function.update_apply, Option.some.injEq, eq_comm]

theorem taken (ht : t.Lawful) {fk : OnvmFtIpv4_5tuple}
    (h : Switch.takeEntry t rss dir fk = some (i, dir')) :
    Taken t dir dir' ⟨fk, fk.onvmSoftrss rss⟩ i := by
  obtain ⟨found, hfound, h⟩ := Option.bind_eq_some_iff.mp h
  cases hk : t.lookup dir.hash ⟨fk, fk.onvmSoftrss rss⟩ with
  | some j =>
    rw [FlowDir.get_ok_iff.mpr ⟨_, rfl, hk⟩] at hfound
    cases hfound
    obtain ⟨dir₁, hkey, h⟩ := Option.bind_eq_some_iff.mp h
    obtain ⟨dir₂, hchain, h⟩ := Option.bind_eq_some_iff.mp h
    cases h
    obtain ⟨hhash, hdata, hchains, hkeys⟩ := freeKey_keys hkey
    obtain ⟨hhash', hdata', hkeys', hchains'⟩ := freeChain_chains hchain
    refine ⟨fun k' => ?_, hdata'.trans hdata, fun p => ?_, fun c => ?_⟩
    · rw [hhash', hhash]
      split
      · rename_i he
        rw [he, hk]
      · rfl
    · rw [hkeys', hkeys, keyOf, hk]
      rfl
    · rw [hchains', hchains, hdata, scOf, hk]
      rfl
  | none =>
    have hmissing : dir.onvmFlowDirGet t rss (.key fk) = some (.error (-eNoent)) := by
      simp only [FlowDir.onvmFlowDirGet, FlowDir.hashKey, Option.bind_eq_bind, Option.bind_some, hk]
    rw [hmissing] at hfound
    cases hfound
    simp only [if_true] at h
    obtain ⟨⟨res, dir₁⟩, hadd, h⟩ := Option.bind_eq_some_iff.mp h
    cases hadd
    cases hres : (t.add dir.hash ⟨fk, fk.onvmSoftrss rss⟩).1 with
    | none =>
      simp only [hres] at h
      cases h
    | some j =>
      simp only [hres] at h
      cases h
      refine ⟨fun k' => ?_, rfl, fun p => ?_, fun c => ?_⟩
      · split
        · rename_i he
          rw [he, ht.lookup_add, hres]
        · rename_i he
          rw [ht.lookup_add_of_ne _ _ _ he]
      · rw [keyOf, hk]
        simp
      · rw [scOf, hk]
        simp

theorem Taken.entry (ht : t.Lawful) {k : HashKey} (h : Taken t dir dir' k i) {key sc : Nat}
    {chain : OnvmServiceChain} (k' : HashKey) :
    keyOf t (Switch.setEntry dir' i key sc chain) k' =
        (if k' = k then some key else keyOf t dir k') ∧
      scOf t (Switch.setEntry dir' i key sc chain) k' =
        if k' = k then some sc else scOf t dir k' := by
  have hhash : (Switch.setEntry dir' i key sc chain).hash = dir'.hash := rfl
  have hdata : (Switch.setEntry dir' i key sc chain).data =
      Function.update dir.data i ⟨some key, some sc⟩ := by
    rw [← h.data]
    rfl
  have hlookup := h.lookup k'
  rw [keyOf, scOf, keyOf, scOf, hhash, hdata, hlookup]
  split
  · simp
  · rename_i hne
    cases hj : t.lookup dir.hash k' with
    | none => exact ⟨rfl, rfl⟩
    | some j =>
      have hi : t.lookup dir'.hash k = some i := by rw [h.lookup, if_pos rfl]
      have hji : j ≠ i := by
        rintro rfl
        rw [if_neg hne, hj] at hlookup
        exact hne (ht.index_unique _ _ _ _ hlookup hi)
      simp only [Option.bind_some, Function.update_of_ne hji, and_self]

namespace Directory

variable {p p' : Directory η}

/-- The directory has the rules, and owns its keys and its chains. -/
structure Tidy (t : RteHash η) (p : Directory η) : Prop where
  keys : Owned (keyOf t p.dir) fun key => p.dir.keys key = true
  chains : Owned (scOf t p.dir) fun sc => (p.dir.chains sc).isSome
  rules : ∀ k, (scOf t p.dir k).bind p.dir.chains = p.rules k

theorem Tidy.ruled (ht : t.Lawful) (h : p.Tidy t) {k : HashKey} {key sc : Nat}
    (chain : OnvmServiceChain) (msg : List Byte) (hkey : p.dir.keys key = false)
    (hsc : p.dir.chains sc = none) (htaken : Taken t p.dir dir' k i) :
    Tidy t (p.ruled dir' i key sc k chain msg) where
  keys := by
    refine h.keys.replace k (by rw [hkey]; nofun) (fun k' => (htaken.entry ht k').1) fun q => ?_
    show Function.update dir'.keys key true q = true ↔ _
    by_cases hq : q = key
    · simp [hq]
    · simp only [Function.update_of_ne hq, htaken.keys, hq, false_or]
  chains := by
    refine h.chains.replace k (by rw [hsc]; nofun) (fun k' => (htaken.entry ht k').2) fun c => ?_
    show (Function.update dir'.chains sc (some chain) c).isSome ↔ _
    by_cases hc : c = sc
    · simp [hc]
    · rw [Function.update_of_ne hc, htaken.chains]
      split
      · rename_i hold
        simp [hold, hc]
      · rename_i hold
        simp [hold, hc]
  rules k' := by
    show (scOf t (Switch.setEntry dir' i key sc chain) k').bind
      (Function.update dir'.chains sc (some chain)) = Function.update p.rules k (some chain) k'
    rw [(htaken.entry ht k').2, Function.update_apply]
    split
    · simp
    · rename_i hne
      rw [← h.rules k']
      cases hc : scOf t p.dir k' with
      | none => rfl
      | some c =>
        have hlive := (h.chains.live_iff c).mpr ⟨k', hc⟩
        have hcsc : c ≠ sc := by
          rintro rfl
          rw [hsc] at hlive
          cases hlive
        have hother : scOf t p.dir k ≠ some c := fun hk => hne (h.chains.inj k' k c hc hk)
        simp only [Option.bind_some, Function.update_of_ne hcsc, htaken.chains, if_neg hother]

/-- **One operation** keeps it. -/
theorem Next.tidy (ht : t.Lawful) (hn : Next t rss p p') (h : p.Tidy t) : p'.Tidy t := by
  cases hn with
  | none => exact h
  | other msg tail _ => exact ⟨h.keys, h.chains, h.rules⟩
  | rule msg tail k chain i key sc dir' hrule hof hkey hsc htake =>
    obtain ⟨fk, -, hof⟩ := Option.bind_eq_some_iff.mp hof
    obtain ⟨length, -, hof⟩ := Option.bind_eq_some_iff.mp hof
    obtain ⟨chain', -, hof⟩ := Option.bind_eq_some_iff.mp hof
    cases hof
    exact h.ruled ht chain msg hkey hsc (taken ht htake)

/-- The rules are those of the messages, as long as these can be read. -/
theorem Next.rulesOf (hn : Next t rss p p') (hread : ∀ msg ∈ p'.handled, Readable rss msg)
    (h : p.rules = rulesOf rss p.handled) : p'.rules = Sdn.rulesOf rss p'.handled := by
  cases hn with
  | none => exact h
  | other msg tail hother =>
    have hmsg := hread msg (List.mem_append_right _ List.mem_cons_self)
    show p.rules = Sdn.rulesOf rss (p.handled ++ [msg])
    rw [rulesOf_append, takeRule, if_neg ((hmsg.isRule_append tail).not.mp hother), h]
  | rule msg tail k chain i key sc dir' hrule hof =>
    have hmsg := hread msg (List.mem_append_right _ List.mem_cons_self)
    have hown := (hmsg.isRule_append tail).mp hrule
    obtain ⟨rule, hrule'⟩ := Option.isSome_iff_exists.mp ((hmsg (.inr hown.1)).2 hown)
    have hsame : rule = (k, chain) :=
      Option.some.inj ((ruleOf_append tail hrule').symm.trans hof)
    show Function.update p.rules k (some chain) = Sdn.rulesOf rss (p.handled ++ [msg])
    rw [rulesOf_append, takeRule, if_pos hown, hrule', hsame, h]

theorem Next.handled (hn : Next t rss p p') : p.handled <+: p'.handled := by
  cases hn with
  | none => exact List.prefix_rfl
  | other => exact List.prefix_append _ _
  | rule => exact List.prefix_append _ _

end Directory

/-! ## All runs -/

variable {s : Switch η}

theorem Switch.Init.tidy (h : s.Init t) : s.directory.Tidy t := by
  obtain ⟨hhash, -, hchains, hkeys⟩ := h.dir
  have hkey : ∀ k, keyOf t s.dir k = none := fun k => by rw [keyOf, hhash]; rfl
  have hsc : ∀ k, scOf t s.dir k = none := fun k => by rw [scOf, hhash]; rfl
  refine ⟨.empty hkey fun p => ?_, .empty hsc fun c => ?_, fun k => ?_⟩
  · show ¬ s.dir.keys p = true
    rw [hkeys]
    nofun
  · show ¬ (s.dir.chains c).isSome = true
    rw [hchains]
    nofun
  · show (scOf t s.dir k).bind s.dir.chains = s.trace.rules k
    rw [hsc, h.trace]
    rfl

theorem reachable_tidy (ht : t.Lawful) (h : (switch t rss junk).Reachable s) :
    s.directory.Tidy t :=
  h.induct (P := fun s => s.directory.Tidy t) (fun _ => Switch.Init.tidy)
    fun _ _ _ hs ⟨_, hstep⟩ => (Switch.step_effect hstep).directory.tidy ht hs

theorem reachable_rulesOf (h : (switch t rss junk).Reachable s) :
    (∀ msg ∈ s.trace.handled, Readable rss msg) →
      s.trace.rules = rulesOf rss s.trace.handled := by
  refine h.induct (P := fun s => (∀ msg ∈ s.trace.handled, Readable rss msg) →
    s.trace.rules = rulesOf rss s.trace.handled) (fun s hinit _ => ?_)
    fun s s' _ hs hnext hread => ?_
  · rw [Switch.Init.trace hinit]
    rfl
  · obtain ⟨_, hstep⟩ := hnext
    have hn := (Switch.step_effect hstep).directory
    have hpre : s.trace.handled <+: s'.trace.handled := hn.handled
    exact hn.rulesOf hread (hs fun msg hmsg => hread msg (hpre.subset hmsg))

/-- A FLOW_MOD for a flow from port 7, buffer 0, with the action to send to port 2. -/
def flowModMsg : List Byte :=
  ofpHeader ofpVersion .flowMod 80 [0, 0, 0, 1] ++ List.replicate 36 0 ++ [0, 7, 0, 80] ++
    List.replicate 24 0 ++ encodeActions [.output 2 0]

end Onvm.Sdn

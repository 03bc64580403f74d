import Onvm.Lib.Run
import Onvm.Nflib.Rss
import Onvm.Pkt.ServiceChain

/-!
# The flow directory

`onvm_flow_dir.c`: flow entries, found by the key of a flow or by one of its packets,
that point to service chains. Several flows can share a chain, whose `ref_cnt` is meant
to count them. `rte_hash` is a parameter. Chains and keys are numbered heap objects; an
access to one that was freed, a second `rte_free` and a NULL pointer have no result.
-/

namespace Onvm.Pkt

open Onvm.Lib Onvm.Nflib

def eNoent : Int := 2

/-- A key with its hash signature, which is all that `rte_hash` sees of a flow. -/
structure HashKey where
  key : OnvmFtIpv4_5tuple
  sig : BitVec 32
  deriving DecidableEq

/-- `rte_hash_lookup_with_hash`, `rte_hash_add_key_with_hash` and
`rte_hash_del_key_with_hash` on tables of type `η`. A negative result is `none`. -/
structure RteHash (η : Type) where
  lookup : η → HashKey → Option Nat
  add : η → HashKey → Option Nat × η
  del : η → HashKey → Option Nat × η

/-- A table is a finite map that gives each live key an index of its own, which it
keeps. -/
structure RteHash.Lawful {η : Type} (t : RteHash η) : Prop where
  finite : ∀ h, {k | (t.lookup h k).isSome}.Finite
  index_unique : ∀ h k k' i, t.lookup h k = some i → t.lookup h k' = some i → k = k'
  lookup_add : ∀ h k, t.lookup (t.add h k).2 k = (t.add h k).1
  lookup_add_of_ne : ∀ h k k', k' ≠ k → t.lookup (t.add h k).2 k' = t.lookup h k'
  del_result : ∀ h k, (t.del h k).1 = t.lookup h k
  lookup_del : ∀ h k, t.lookup (t.del h k).2 k = none
  lookup_del_of_ne : ∀ h k k', k' ≠ k → t.lookup (t.del h k).2 k' = t.lookup h k'

structure OnvmFlowEntry where
  key : Option Nat := none
  sc : Option Nat := none
  deriving DecidableEq

/-- The flow table, and the heap objects its entries can point to. -/
structure FlowDir (η : Type) where
  hash : η
  data : Nat → OnvmFlowEntry
  chains : Nat → Option OnvmServiceChain
  keys : Nat → Bool

/-- A flow is named by its key or by a packet. -/
inductive FlowRef where
  | key (key : OnvmFtIpv4_5tuple)
  | pkt (pkt : RteMbuf)

namespace FlowDir

variable {η : Type} (t : RteHash η) (rss : RteThash)

/-! ## Operations -/

def empty (hash : η) (chains : Nat → Option OnvmServiceChain) (keys : Nat → Bool) : FlowDir η where
  hash := hash
  data _ := {}
  chains := chains
  keys := keys

def hashKey : FlowRef → Option (Except Int HashKey)
  | .key key => some (.ok ⟨key, key.onvmSoftrss rss⟩)
  | .pkt pkt => do
    match ← pkt.onvmFtFillKey with
    | .error err => some (.error err)
    | .ok key => some (.ok ⟨key, pkt.hashRss⟩)

/-- `onvm_flow_dir_get_key` and `onvm_flow_dir_get_pkt`: an error, or the index of the
flow entry. -/
def onvmFlowDirGet (s : FlowDir η) (r : FlowRef) : Option (Except Int Nat) := do
  match ← hashKey rss r with
  | .error err => some (.error err)
  | .ok k =>
    match t.lookup s.hash k with
    | none => some (.error (-eNoent))
    | some i => some (.ok i)

/-- `onvm_flow_dir_add_key` and `onvm_flow_dir_add_pkt`, up to the choice of the error when
there is no space. -/
def onvmFlowDirAdd (s : FlowDir η) (r : FlowRef) : Option (Except Int Nat × FlowDir η) := do
  match ← hashKey rss r with
  | .error err => some (.error err, s)
  | .ok k =>
    let (i, hash) := t.add s.hash k
    some (i.elim (.error (-eNospc)) .ok, { s with hash := hash })

/-- The caller adds a flow and points its entry to its key and a chain, which counts
it. -/
def addFlow (s : FlowDir η) (r : FlowRef) (key : Option Nat) (c : Nat) : Option (FlowDir η) := do
  match ← s.onvmFlowDirAdd t rss r with
  | (.error _, s) => some s
  | (.ok i, s) =>
    let chain ← s.chains c
    some { s with
      data := Function.update s.data i ⟨key, some c⟩
      chains := Function.update s.chains c (some { chain with refCnt := chain.refCnt + 1 }) }

def onvmFtRemove (s : FlowDir η) (r : FlowRef) : Option (Int × FlowDir η) := do
  match ← hashKey rss r with
  | .error err => some (err, s)
  | .ok k =>
    let (i, hash) := t.del s.hash k
    some (i.elim (-eNoent) fun i => i, { s with hash := hash })

def freeChain (s : FlowDir η) (sc : Option Nat) : Option (FlowDir η) :=
  match sc with
  | none => some s
  | some c => (s.chains c).map fun _ => { s with chains := Function.update s.chains c none }

def freeKey (s : FlowDir η) (key : Option Nat) : Option (FlowDir η) :=
  match key with
  | none => some s
  | some k => if s.keys k then some { s with keys := Function.update s.keys k false } else none

def onvmFlowDirDelAndFree (s : FlowDir η) (r : FlowRef) : Option (Int × FlowDir η) := do
  match ← s.onvmFlowDirGet t rss r with
  | .error err => some (err, s)
  | .ok i =>
    let s ← s.freeChain (s.data i).sc
    let s ← s.freeKey (s.data i).key
    s.onvmFtRemove t rss r

def countDown (s : FlowDir η) (c : Nat) (chain : OnvmServiceChain) : FlowDir η :=
  { s with chains := Function.update s.chains c (some { chain with refCnt := chain.refCnt - 1 }) }

/-- `onvm_flow_dir_del_key` and `onvm_flow_dir_del_pkt`. The count is tested as it was
before the decrement. -/
def onvmFlowDirDel (s : FlowDir η) (r : FlowRef) : Option (Int × FlowDir η) := do
  match ← s.onvmFlowDirGet t rss r with
  | .error err => some (err, s)
  | .ok i =>
    let c ← (s.data i).sc
    let chain ← s.chains c
    let refCnt := chain.refCnt
    let s := s.countDown c chain
    if refCnt.toInt ≤ 0 then s.onvmFlowDirDelAndFree t rss r else some (i, s)

/-! ## Tables that are used as meant -/

def users (s : FlowDir η) (c : Nat) : Set HashKey :=
  {k | ∃ i, t.lookup s.hash k = some i ∧ (s.data i).sc = some c}

/-- No entry points to a chain or a key that was freed. -/
structure NoDangling (s : FlowDir η) : Prop where
  sc : ∀ k i c, t.lookup s.hash k = some i → (s.data i).sc = some c → (s.chains c).isSome
  key : ∀ k i p, t.lookup s.hash k = some i → (s.data i).key = some p → s.keys p = true

structure Counted (s : FlowDir η) : Prop where
  noDangling : s.NoDangling t
  hasChain : ∀ k i, t.lookup s.hash k = some i → ∃ c, (s.data i).sc = some c
  refCnt : ∀ c chain, s.chains c = some chain → chain.refCnt.toInt = (s.users t c).ncard

def found (s : FlowDir η) (k : HashKey) : Option (Nat × OnvmFlowEntry) :=
  (t.lookup s.hash k).map fun i => (i, s.data i)

/-- The delete does what it is for: a flow that was deleted is no longer found, the others
are found as before, a chain is freed when its last flow is deleted and not otherwise, and
no entry is left with a pointer to a freed object. -/
def DelCorrect (s : FlowDir η) (r : FlowRef) : Prop :=
  ∃ ret s', s.onvmFlowDirDel t rss r = some (ret, s') ∧
    (0 ≤ ret → s'.onvmFlowDirGet t rss r = some (.error (-eNoent))) ∧
    (∀ k, hashKey rss r ≠ some (.ok k) → s'.found t k = s.found t k) ∧
    (∀ c, (s.chains c).isSome → (s'.chains c = none ↔
      (s.users t c).Nonempty ∧ ¬ (s'.users t c).Nonempty)) ∧
    s'.NoDangling t

def del (s : FlowDir η) (r : FlowRef) : FlowDir η :=
  ((s.onvmFlowDirDel t rss r).map Prod.snd).getD s

/-- The lookup of the flow fails. -/
def Missing (s : FlowDir η) (r : FlowRef) : Prop :=
  ∃ err : Int, s.onvmFlowDirGet t rss r = some (.error err)

variable {t} {rss} {s : FlowDir η} {r : FlowRef}

theorem del_missing {err : Int} (h : s.onvmFlowDirGet t rss r = some (.error err)) :
    s.onvmFlowDirDel t rss r = some (err, s) := by
  rw [onvmFlowDirDel, h]
  rfl

theorem get_error_neg {err : Int} (h : s.onvmFlowDirGet t rss r = some (.error err)) : err < 0 := by
  simp only [onvmFlowDirGet, Option.bind_eq_bind, Option.bind_eq_some_iff] at h
  obtain ⟨k, hk, h⟩ := h
  cases k with
  | error e =>
    cases h
    cases r with
    | key key => cases hk
    | pkt pkt =>
      simp only [hashKey, Option.bind_eq_bind, Option.bind_eq_some_iff] at hk
      obtain ⟨e', hfill, hk⟩ := hk
      cases e' with
      | error e' =>
        cases hk
        rw [RteMbuf.fillKey_error hfill]
        decide
      | ok key => cases hk
  | ok k =>
    cases hi : t.lookup s.hash k with
    | none =>
      simp only [hi, Option.some.injEq, Except.error.injEq] at h
      rw [← h]
      decide
    | some i => simp [hi] at h

theorem get_ok_iff {i : Nat} : s.onvmFlowDirGet t rss r = some (.ok i) ↔
    ∃ k, hashKey rss r = some (.ok k) ∧ t.lookup s.hash k = some i := by
  unfold onvmFlowDirGet
  cases hk : hashKey rss r with
  | none => simp
  | some e =>
    cases e with
    | error err => simp
    | ok k => cases hi : t.lookup s.hash k <;> simp [hi]

theorem users_finite (ht : t.Lawful) {c : Nat} : (s.users t c).Finite := by
  refine (ht.finite s.hash).subset ?_
  rintro k ⟨i, hk, -⟩
  simp [hk]

theorem Counted.refCnt_pos (h : s.Counted t) (ht : t.Lawful) {k : HashKey} {i c : Nat}
    {chain : OnvmServiceChain} (hk : t.lookup s.hash k = some i) (hc : (s.data i).sc = some c)
    (hchain : s.chains c = some chain) : 0 < chain.refCnt.toInt := by
  have hpos : 0 < (s.users t c).ncard := (Set.ncard_pos (users_finite ht)).mpr ⟨k, i, hk, hc⟩
  rw [h.refCnt c chain hchain]
  exact_mod_cast hpos

/-- A delete of a flow that is in the table only counts down. -/
theorem Counted.del_found (h : s.Counted t) (ht : t.Lawful) {i : Nat}
    (hg : s.onvmFlowDirGet t rss r = some (.ok i)) :
    ∃ s', s.onvmFlowDirDel t rss r = some ((i : Int), s') ∧ s'.hash = s.hash := by
  obtain ⟨k, -, hk⟩ := get_ok_iff.mp hg
  obtain ⟨c, hc⟩ := h.hasChain k i hk
  obtain ⟨chain, hchain⟩ := Option.isSome_iff_exists.mp (h.noDangling.sc k i c hk hc)
  have hpos := h.refCnt_pos ht hk hc hchain
  rw [onvmFlowDirDel, hg]
  simp only [Option.bind_eq_bind, Option.bind_some, hc, hchain, if_neg (not_le.mpr hpos)]
  exact ⟨_, rfl, rfl⟩

theorem del_eq_of_missing (h : s.Missing t rss r) : s.del t rss r = s := by
  obtain ⟨err, hg⟩ := h
  rw [del, del_missing hg]
  rfl

/-- A delete is correct when it has nothing to delete. -/
theorem Counted.delCorrect_iff (h : s.Counted t) (ht : t.Lawful) :
    s.DelCorrect t rss r ↔ s.Missing t rss r := by
  constructor
  · rintro ⟨ret, s', hdel, hgone, -⟩
    cases hg : s.onvmFlowDirGet t rss r with
    | none =>
      rw [onvmFlowDirDel, hg] at hdel
      cases hdel
    | some res =>
      cases res with
      | error err => exact ⟨err, hg⟩
      | ok i =>
        obtain ⟨s'', hdel', hhash⟩ := h.del_found ht hg
        have hsame : ret = (i : Int) ∧ s' = s'' :=
          Prod.mk.inj (Option.some.inj (hdel.symm.trans hdel'))
        have hg' : s'.onvmFlowDirGet t rss r = some (.ok i) := by
          rw [hsame.2, onvmFlowDirGet, hhash]
          exact hg
        have h0 : 0 ≤ ret := hsame.1 ▸ Int.natCast_nonneg i
        cases (hgone h0).symm.trans hg'
  · rintro ⟨err, hg⟩
    refine ⟨err, s, del_missing hg, fun h0 => ?_, fun _ _ => rfl, fun c hc => ?_, h.noDangling⟩
    · exact absurd (get_error_neg hg) (not_lt.mpr h0)
    · refine iff_of_false (fun hn => ?_) fun hu => hu.2 hu.1
      rw [hn] at hc
      cases hc

/-- **Flow deletion**: on a table whose chains count their flows, a sequence of deletes is
correct exactly when no flow it names is in the table. -/
theorem deletion_iff (ht : t.Lawful) (h : s.Counted t) (rs : List FlowRef) :
    Along (del t rss) (DelCorrect t rss) s rs ↔ ∀ r ∈ rs, s.Missing t rss r := by
  have hstep : ∀ (s : FlowDir η) (r : FlowRef), s.Counted t → s.Missing t rss r →
      (s.del t rss r).Counted t :=
    fun s r hs hr => (del_eq_of_missing hr).symm ▸ hs
  rw [along_iff hstep (fun s r hs => hs.delCorrect_iff ht) h]
  induction rs with
  | nil => simp [Along]
  | cons r rs ih =>
    simp only [Along, List.mem_cons, forall_eq_or_imp]
    refine and_congr_right fun hr => ?_
    rw [del_eq_of_missing hr]
    exact ih

/-- The entry is removed from the table, and its chain freed. -/
theorem delAndFree_found (ht : t.Lawful) {k : HashKey} {i c : Nat}
    (hk : hashKey rss r = some (.ok k)) (hi : t.lookup s.hash k = some i)
    (hc : (s.data i).sc = some c) {chain : OnvmServiceChain} (hchain : s.chains c = some chain)
    (hkey : ∀ p, (s.data i).key = some p → s.keys p = true) :
    ∃ s', s.onvmFlowDirDelAndFree t rss r = some ((i : Int), s') ∧
      s'.hash = (t.del s.hash k).2 ∧ s'.data = s.data ∧ s'.chains c = none := by
  rw [onvmFlowDirDelAndFree, get_ok_iff.mpr ⟨k, hk, hi⟩]
  simp only [Option.bind_eq_bind, Option.bind_some, hc, freeChain, hchain, Option.map_some]
  cases hp : (s.data i).key with
  | none =>
    simp only [freeKey, Option.bind_some, onvmFtRemove, hk, Option.bind_eq_bind, ht.del_result, hi,
      Option.elim_some]
    exact ⟨_, rfl, rfl, rfl, Function.update_self ..⟩
  | some p =>
    simp only [freeKey, hkey p hp, if_true, Option.bind_some, onvmFtRemove, hk,
      Option.bind_eq_bind, ht.del_result, hi, Option.elim_some]
    exact ⟨_, rfl, rfl, rfl, Function.update_self ..⟩

/-- A flow is removed, and its chain freed, when the count of the chain is no longer
positive, whichever other flows point to the chain. -/
theorem del_free (ht : t.Lawful) {i c : Nat} {chain : OnvmServiceChain}
    (hg : s.onvmFlowDirGet t rss r = some (.ok i)) (hc : (s.data i).sc = some c)
    (hchain : s.chains c = some chain) (hcnt : chain.refCnt.toInt ≤ 0)
    (hkey : ∀ p, (s.data i).key = some p → s.keys p = true) :
    ∃ s', s.onvmFlowDirDel t rss r = some ((i : Int), s') ∧ s'.chains c = none ∧
      s'.onvmFlowDirGet t rss r = some (.error (-eNoent)) ∧
      ∀ k, hashKey rss r ≠ some (.ok k) → s'.found t k = s.found t k := by
  obtain ⟨k, hk, hi⟩ := get_ok_iff.mp hg
  have hcounted : (s.countDown c chain).chains c = some { chain with refCnt := chain.refCnt - 1 } :=
    Function.update_self ..
  obtain ⟨s1, hdel, hhash, hdata, hfree⟩ :=
    delAndFree_found (s := s.countDown c chain) ht hk hi hc hcounted hkey
  refine ⟨s1, ?_, hfree, ?_, fun k' hne => ?_⟩
  · rw [onvmFlowDirDel, hg]
    simp only [Option.bind_eq_bind, Option.bind_some, hc, hchain, if_pos hcnt]
    exact hdel
  · rw [onvmFlowDirGet, hk]
    simp only [Option.bind_eq_bind, Option.bind_some, hhash, ht.lookup_del]
  · have hkk : k' ≠ k := by
      rintro rfl
      exact hne hk
    rw [found, found, hhash, ht.lookup_del_of_ne _ _ _ hkk, hdata]
    rfl

/-! ## Building a table -/

/-- `s'` is `s` with a new flow `k`, at index `i`, with this entry. -/
structure Added (t : RteHash η) (s s' : FlowDir η) (k : HashKey) (i : Nat)
    (entry : OnvmFlowEntry) : Prop where
  new : t.lookup s.hash k = none
  lookup : t.lookup s'.hash k = some i
  lookup_of_ne : ∀ k', k' ≠ k → t.lookup s'.hash k' = t.lookup s.hash k'
  data : s'.data = Function.update s.data i entry

variable {s' : FlowDir η} {k k' : HashKey} {i j : Nat} {entry : OnvmFlowEntry}

/-- A flow is in the new table when it is the new one or was there before, with the same
entry. -/
theorem Added.lookup_iff (h : Added t s s' k i entry) (ht : t.Lawful) :
    t.lookup s'.hash k' = some j ↔
      k' = k ∧ j = i ∨ (k' ≠ k ∧ j ≠ i ∧ t.lookup s.hash k' = some j) := by
  by_cases hk : k' = k
  · subst hk
    rw [h.lookup, Option.some.injEq]
    simp [eq_comm]
  · rw [h.lookup_of_ne k' hk]
    constructor
    · intro hj
      refine .inr ⟨hk, ?_, hj⟩
      rintro rfl
      exact hk (ht.index_unique s'.hash k' k j ((h.lookup_of_ne k' hk).trans hj) h.lookup)
    · rintro (⟨hk', -⟩ | ⟨-, -, hj⟩)
      · exact absurd hk' hk
      · exact hj

theorem Added.data_of_ne (h : Added t s s' k i entry) (hj : j ≠ i) : s'.data j = s.data j := by
  rw [h.data, Function.update_of_ne hj]

theorem Added.data_self (h : Added t s s' k i entry) : s'.data i = entry := by
  rw [h.data, Function.update_self]

/-- The new flow uses its chain, the others what they used. -/
theorem Added.users (h : Added t s s' k i entry) (ht : t.Lawful) (c : Nat) :
    s'.users t c = if entry.sc = some c then insert k (s.users t c) else s.users t c := by
  have hmem : ∀ k', k' ∈ s'.users t c ↔ k' = k ∧ entry.sc = some c ∨ k' ∈ s.users t c := by
    intro k'
    constructor
    · rintro ⟨j, hj, hc⟩
      obtain ⟨rfl, rfl⟩ | ⟨-, hji, hj⟩ := (h.lookup_iff ht).mp hj
      · rw [h.data_self] at hc
        exact .inl ⟨rfl, hc⟩
      · rw [h.data_of_ne hji] at hc
        exact .inr ⟨j, hj, hc⟩
    · rintro (⟨rfl, hc⟩ | ⟨j, hj, hc⟩)
      · exact ⟨i, h.lookup, h.data_self ▸ hc⟩
      · have hk : k' ≠ k := by
          rintro rfl
          rw [h.new] at hj
          cases hj
        have hj' : t.lookup s'.hash k' = some j := (h.lookup_of_ne k' hk).trans hj
        obtain ⟨hk', -⟩ | ⟨-, hji, -⟩ := (h.lookup_iff ht).mp hj'
        · exact absurd hk' hk
        · exact ⟨j, hj', (h.data_of_ne hji).symm ▸ hc⟩
  ext k'
  rw [hmem]
  split <;> simp_all

/-- Adding a flow to a table keeps it counted: the flow is new, and its chain and its key
are there. -/
theorem Counted.addFlow (h : s.Counted t) (ht : t.Lawful) (rss : RteThash) (r : FlowRef)
    (key : Option Nat) (c : Nat) {chain : OnvmServiceChain} (hchain : s.chains c = some chain)
    (hcnt : chain.refCnt.toInt + 1 < 2 ^ 31) (hkey : ∀ p, key = some p → s.keys p = true)
    (hk : hashKey rss r = some (.ok k)) (hnew : t.lookup s.hash k = none)
    (hadd : (t.add s.hash k).1 = some i) :
    ∃ s', s.addFlow t rss r key c = some s' ∧ s'.Counted t ∧ s'.found t k = some (i, ⟨key, some c⟩) ∧
      ∀ k', k' ≠ k → s'.found t k' = s.found t k' := by
  obtain ⟨s', hs', hhash, hdata, hchains, hkeys⟩ : ∃ s', s.addFlow t rss r key c = some s' ∧
      s'.hash = (t.add s.hash k).2 ∧ s'.data = Function.update s.data i ⟨key, some c⟩ ∧
      s'.chains = Function.update s.chains c (some { chain with refCnt := chain.refCnt + 1 }) ∧
      s'.keys = s.keys := by
    rw [FlowDir.addFlow, onvmFlowDirAdd, hk]
    simp only [Option.bind_eq_bind, Option.bind_some, hadd, Option.elim_some, hchain]
    exact ⟨_, rfl, rfl, rfl, rfl, rfl⟩
  have hadded : Added t s s' k i ⟨key, some c⟩ := {
    new := hnew
    lookup := by rw [hhash, ht.lookup_add, hadd]
    lookup_of_ne := fun k' hne => by rw [hhash, ht.lookup_add_of_ne _ _ _ hne]
    data := hdata }
  have hc' : s'.chains c = some { chain with refCnt := chain.refCnt + 1 } := by
    rw [hchains, Function.update_self]
  have hne' : ∀ c', c' ≠ c → s'.chains c' = s.chains c' :=
    fun c' hne => by rw [hchains, Function.update_of_ne hne]
  refine ⟨s', hs', ⟨⟨?_, ?_⟩, ?_, ?_⟩, ?_, ?_⟩
  · intro k' j c' hj hsc
    by_cases hcc : c' = c
    · rw [hcc, hc']
      rfl
    · rw [hne' c' hcc]
      obtain ⟨rfl, rfl⟩ | ⟨-, hji, hj⟩ := (hadded.lookup_iff ht).mp hj
      · rw [hadded.data_self] at hsc
        cases hsc
        exact absurd rfl hcc
      · rw [hadded.data_of_ne hji] at hsc
        exact h.noDangling.sc k' j c' hj hsc
  · intro k' j p hj hp
    rw [hkeys]
    obtain ⟨rfl, rfl⟩ | ⟨-, hji, hj⟩ := (hadded.lookup_iff ht).mp hj
    · rw [hadded.data_self] at hp
      exact hkey p hp
    · rw [hadded.data_of_ne hji] at hp
      exact h.noDangling.key k' j p hj hp
  · intro k' j hj
    obtain ⟨rfl, rfl⟩ | ⟨-, hji, hj⟩ := (hadded.lookup_iff ht).mp hj
    · exact ⟨c, by rw [hadded.data_self]⟩
    · rw [hadded.data_of_ne hji]
      exact h.hasChain k' j hj
  · intro c' chain' hchain'
    have hold := h.refCnt c chain hchain
    rw [hadded.users ht]
    by_cases hcc : c' = c
    · subst hcc
      rw [hc'] at hchain'
      cases hchain'
      have hnot : k ∉ s.users t c' := by
        rintro ⟨j, hj, -⟩
        rw [hnew] at hj
        cases hj
      rw [if_pos rfl, Set.ncard_insert_of_notMem hnot (users_finite ht), BitVec.toInt_add, hold]
      rw [hold] at hcnt
      have h1 : (1 : BitVec 32).toInt = 1 := rfl
      rw [h1, Int.bmod_eq_of_le (by omega) (by omega)]
      exact (Nat.cast_succ _).symm
    · rw [hne' c' hcc] at hchain'
      rw [if_neg fun he => hcc (Option.some.inj he).symm]
      exact h.refCnt c' chain' hchain'
  · rw [found, hadded.lookup, Option.map_some, hadded.data_self]
  · intro k' hne
    cases hk' : t.lookup s.hash k' with
    | none => rw [found, found, hadded.lookup_of_ne k' hne, hk', Option.map_none, Option.map_none]
    | some j =>
      have hj : t.lookup s'.hash k' = some j := (hadded.lookup_of_ne k' hne).trans hk'
      obtain ⟨he, -⟩ | ⟨-, hji, -⟩ := (hadded.lookup_iff ht).mp hj
      · exact absurd he hne
      · rw [found, found, hj, hk', Option.map_some, Option.map_some, hadded.data_of_ne hji]

theorem counted_empty {hash : η} (hhash : ∀ k, t.lookup hash k = none)
    {chains : Nat → Option OnvmServiceChain} {keys : Nat → Bool}
    (hchains : ∀ c chain, chains c = some chain → chain.refCnt = 0) :
    (empty hash chains keys).Counted t := by
  have hnone : ∀ k i, t.lookup (empty hash chains keys).hash k ≠ some i := fun k i h => by
    rw [show (empty hash chains keys).hash = hash from rfl, hhash] at h
    cases h
  refine ⟨⟨fun k i c h => absurd h (hnone k i), fun k i p h => absurd h (hnone k i)⟩,
    fun k i h => absurd h (hnone k i), fun c chain h => ?_⟩
  have husers : (empty hash chains keys).users t c = ∅ := by
    ext k
    refine iff_of_false ?_ (Set.notMem_empty k)
    rintro ⟨i, hk, -⟩
    exact hnone k i hk
  rw [husers, Set.ncard_empty, hchains c chain h]
  rfl

/-! ## A table with one flow -/

/-- A hash table that keeps its keys in a list, with the freed places left empty. -/
def slotHash : RteHash (List (Option HashKey)) where
  lookup h k := h.idxOf? (some k)
  add h k := match h.idxOf? (some k) with
    | some i => (some i, h)
    | none => (some h.length, h ++ [some k])
  del h k := (h.idxOf? (some k), h.map fun x => if x = some k then none else x)

theorem idxOf_concat {l : List (Option HashKey)} {a b : Option HashKey} :
    (l ++ [b]).idxOf? a =
      if l.idxOf? a = none ∧ b = a then some l.length else l.idxOf? a := by
  induction l with
  | nil => simp
  | cons x l ih =>
    rw [List.cons_append, List.idxOf?_cons, List.idxOf?_cons, ih]
    by_cases hx : x = a
    · simp [hx]
    · by_cases hb : b = a <;> cases h : l.idxOf? a <;> simp [hx, hb]

theorem idxOf_map_free {l : List (Option HashKey)} {k k' : HashKey} :
    (l.map fun x => if x = some k then none else x).idxOf? (some k') =
      if k' = k then none else l.idxOf? (some k') := by
  induction l with
  | nil => simp
  | cons x l ih =>
    rw [List.map_cons, List.idxOf?_cons, List.idxOf?_cons, ih]
    by_cases hk : k' = k
    · subst hk
      by_cases hx : x = some k' <;> simp [hx]
    · by_cases hx : x = some k
      · simp [hx, hk, Ne.symm hk]
      · simp [hx, hk]

theorem slotHash_lawful : slotHash.Lawful where
  finite h := by
    have hsub : {k | (slotHash.lookup h k).isSome} ⊆ {k | some k ∈ h} := by
      intro k hk
      simpa [slotHash, List.isSome_idxOf?] using hk
    exact ((List.finite_toSet h).preimage (Option.some_injective _).injOn).subset hsub
  index_unique h k k' i hk hk' := by
    obtain ⟨hi, h1, -⟩ := List.idxOf?_eq_some_iff.mp hk
    obtain ⟨_, h2, -⟩ := List.idxOf?_eq_some_iff.mp hk'
    exact Option.some.inj (h1.symm.trans h2)
  lookup_add h k := by
    simp only [slotHash]
    cases hk : h.idxOf? (some k) with
    | none => simp [idxOf_concat, hk]
    | some i => exact hk
  lookup_add_of_ne h k k' hne := by
    simp only [slotHash]
    cases hk : h.idxOf? (some k) with
    | none => simp [idxOf_concat, Ne.symm hne]
    | some i => rfl
  del_result h k := rfl
  lookup_del h k := by simp only [slotHash, idxOf_map_free, if_true]
  lookup_del_of_ne h k k' hne := by simp only [slotHash, idxOf_map_free, if_neg hne]

/-- A hash that does not look at its input. -/
def constThash : RteThash := ⟨fun key => key, fun _ _ => 0⟩

/-- A flow from `10.0.0.1` to `10.0.0.2`, from this port. -/
def flowFrom (port : BitVec 16) : FlowRef := .key ⟨0x0100000a, 0x0200000a, port, 80, 6⟩

/-- A table without flows, and a new chain. -/
def newTable : FlowDir (List (Option HashKey)) :=
  empty [] (fun c => if c = 0 then some OnvmServiceChain.onvmScCreate else none) fun _ => false

/-- The flow from port 1 is added and points to the chain. -/
def oneFlow : FlowDir (List (Option HashKey)) :=
  (newTable.addFlow slotHash constThash (flowFrom 1) none 0).getD newTable

theorem counted_oneFlow : oneFlow.Counted slotHash := by
  have hnew : newTable.Counted slotHash := by
    apply counted_empty
    · exact fun _ => rfl
    · intro c chain hc
      split at hc
      · cases hc
        rfl
      · cases hc
  obtain ⟨s', hs', hc, -⟩ := hnew.addFlow slotHash_lawful constThash (flowFrom 1) none 0 rfl
    (by decide) (by rintro _ ⟨⟩) rfl rfl rfl
  rw [oneFlow, hs']
  exact hc

/-- The flows from ports 2 and 3 are not in the table. -/
theorem deletion_iff_oneFlow :
    Along (del slotHash constThash) (DelCorrect slotHash constThash) oneFlow
      [flowFrom 2, flowFrom 3, flowFrom 2] :=
  (deletion_iff slotHash_lawful counted_oneFlow _).mpr (by
    simp only [List.mem_cons, List.not_mem_nil, or_false]
    rintro r (rfl | rfl | rfl) <;> exact ⟨-eNoent, by decide +kernel⟩)

/-- The only flow is deleted, which succeeds, and is still there. -/
theorem oneFlow_not_deleted : oneFlow.Counted slotHash ∧
    ¬ oneFlow.DelCorrect slotHash constThash (flowFrom 1) := by
  refine ⟨counted_oneFlow, ?_⟩
  have hget : oneFlow.onvmFlowDirGet slotHash constThash (flowFrom 1) = some (.ok 0) := by
    decide +kernel
  intro h
  obtain ⟨err, herr⟩ := (counted_oneFlow.delCorrect_iff slotHash_lawful).mp h
  cases herr.symm.trans hget

end FlowDir

end Onvm.Pkt

import Onvm.Lib.Run
import Onvm.Pkt.Plane

/-!
# Building service chains

`onvm_sc_create`, `onvm_sc_append_entry` and `onvm_sc_set_entry` on the memory of a
chain, an array of `ONVM_MAX_CHAIN_LENGTH` entries of which the first is reserved. An
access outside the array has no result. A chain is meant to be a list of entries; `Rep`
says which list it is.
-/

namespace Onvm.Pkt

open Onvm.Lib

def onvmMaxChainLength : Nat := 4

def eNospc : Int := 28

structure OnvmServiceChain where
  sc : Vector ChainEntry onvmMaxChainLength
  chainLength : BitVec 8
  refCnt : BitVec 32
  deriving DecidableEq

namespace OnvmServiceChain

/-! ## Operations -/

def onvmScCreate : OnvmServiceChain := ⟨Vector.replicate _ ⟨0, 0⟩, 0, 0⟩

def store (chain : OnvmServiceChain) (i : Int) (x : ChainEntry) : Option OnvmServiceChain :=
  if h : 0 ≤ i ∧ i.toNat < onvmMaxChainLength then
    some { chain with sc := chain.sc.set i.toNat x h.2 }
  else none

def load (chain : OnvmServiceChain) (i : Nat) : Option ChainEntry := chain.sc[i]?

def onvmScAppendEntry (chain : OnvmServiceChain) (x : ChainEntry) :
    Option (Int × OnvmServiceChain) := do
  let chainLength := chain.chainLength.toNat
  if chainLength > onvmMaxChainLength then some (eNospc, chain)
  else
    let chain := { chain with chainLength := chain.chainLength + 1 }
    some (0, ← chain.store (chainLength + 1) x)

def onvmScSetEntry (chain : OnvmServiceChain) (entry : Int) (x : ChainEntry) :
    Option (Int × OnvmServiceChain) := do
  if entry > chain.chainLength.toNat then some (-1, chain)
  else some (0, ← chain.store entry x)

/-- A field of the entry for position `cur_nf`, or the value for positions past the
end. -/
def nextField (field : ChainEntry → Nat) (past : Nat) (chain : OnvmServiceChain) (curNf : Nat) :
    Option Nat := do
  if curNf ≥ chain.chainLength.toNat then some past
  else some (field (← chain.load (curNf + 1)))

def nextAction : OnvmServiceChain → Nat → Option Nat := nextField ChainEntry.action actionDrop

def nextDestination : OnvmServiceChain → Nat → Option Nat := nextField ChainEntry.destination 0

inductive Call where
  | appendEntry (x : ChainEntry)
  | setEntry (entry : Int) (x : ChainEntry)
  deriving DecidableEq

def call (chain : OnvmServiceChain) : Call → Option (Int × OnvmServiceChain)
  | .appendEntry x => chain.onvmScAppendEntry x
  | .setEntry entry x => chain.onvmScSetEntry entry x

/-! ## The list a chain stands for -/

/-- What a call that returned `ret` means for the list: a call that was rejected
changes nothing, and entry 0 is not part of the list. -/
def record (l : List ChainEntry) (ret : Int) : Call → List ChainEntry
  | .appendEntry x => if ret = 0 then l ++ [x] else l
  | .setEntry entry x => if ret = 0 ∧ 0 < entry then l.set (entry - 1).toNat x else l

/-- The calls one after the other, with the list that they are meant to make. -/
def run (chain : OnvmServiceChain) (l : List ChainEntry) :
    List Call → Option (OnvmServiceChain × List ChainEntry)
  | [] => some (chain, l)
  | c :: cs => do
    let (ret, chain) ← chain.call c
    chain.run (record l ret c) cs

/-- The chain shows the list: its length and its reference count are right, and the next
actions and destinations are those of the list, all read inside the array. -/
structure Shows (chain : OnvmServiceChain) (l : List ChainEntry) : Prop where
  chainLength : chain.chainLength.toNat = l.length
  refCnt : chain.refCnt = 0
  nextAction : ∀ k, chain.nextAction k = some ((l[k]?.map ChainEntry.action).getD actionDrop)
  nextDestination : ∀ k,
    chain.nextDestination k = some ((l[k]?.map ChainEntry.destination).getD 0)

/-- The calls on a new chain write inside the array, and the chain shows the list. -/
def Bounded (cs : List Call) : Prop :=
  ∃ chain l, onvmScCreate.run [] cs = some (chain, l) ∧ chain.Shows l

/-- The chain holds the list behind its reserved entry. -/
structure Rep (chain : OnvmServiceChain) (l : List ChainEntry) : Prop where
  chainLength : chain.chainLength.toNat = l.length
  fits : l.length < onvmMaxChainLength
  refCnt : chain.refCnt = 0
  holds : ∀ k x, l[k]? = some x → chain.load (k + 1) = some x

theorem rep_create : onvmScCreate.Rep [] where
  chainLength := rfl
  fits := by decide
  refCnt := rfl
  holds := nofun

variable {chain : OnvmServiceChain} {l : List ChainEntry}

theorem Rep.nextField_eq (h : chain.Rep l) (field : ChainEntry → Nat) (past k : Nat) :
    nextField field past chain k = some ((l[k]?.map field).getD past) := by
  rw [nextField, h.chainLength]
  cases hk : l[k]? with
  | none =>
    rw [if_pos (List.getElem?_eq_none_iff.mp hk)]
    rfl
  | some x =>
    have hlt := (List.getElem?_eq_some_iff.mp hk).1
    rw [if_neg (not_le.mpr hlt), h.holds k x hk]
    rfl

theorem Rep.shows (h : chain.Rep l) : chain.Shows l where
  chainLength := h.chainLength
  refCnt := h.refCnt
  nextAction := h.nextField_eq ChainEntry.action actionDrop
  nextDestination := h.nextField_eq ChainEntry.destination 0

/-! ## What a call does -/

structure Replaced (chain chain' : OnvmServiceChain) (i : Nat) (x : ChainEntry) : Prop where
  chainLength : chain'.chainLength = chain.chainLength
  refCnt : chain'.refCnt = chain.refCnt
  load : ∀ k, chain'.load k = if k = i then some x else chain.load k

theorem store_inside (chain : OnvmServiceChain) {i : Int} (x : ChainEntry) (h0 : 0 ≤ i)
    (h : i.toNat < onvmMaxChainLength) :
    ∃ chain', chain.store i x = some chain' ∧ Replaced chain chain' i.toNat x := by
  refine ⟨_, dif_pos ⟨h0, h⟩, rfl, rfl, fun k => ?_⟩
  simp only [OnvmServiceChain.load, Vector.getElem?_set]
  by_cases hk : k = i.toNat
  · rw [if_pos hk.symm, if_pos hk]
  · rw [if_neg (Ne.symm hk), if_neg hk]

theorem Rep.append (h : chain.Rep l) (hl : l.length + 1 < onvmMaxChainLength) (x : ChainEntry) :
    ∃ chain', chain.onvmScAppendEntry x = some (0, chain') ∧ chain'.Rep (l ++ [x]) := by
  have hlen := h.chainLength
  have hfit := h.fits
  have hi : ((chain.chainLength.toNat + 1 : Nat) : Int).toNat = l.length + 1 := by omega
  obtain ⟨chain', hstore, hr⟩ := store_inside
    { chain with chainLength := chain.chainLength + 1 } x (Int.natCast_nonneg _) (hi ▸ hl)
  rw [hi] at hr
  refine ⟨chain', ?_, ?_, by simpa using hl, hr.refCnt.trans h.refCnt, ?_⟩
  · rw [onvmScAppendEntry, if_neg (by omega)]
    simp only [Nat.cast_add, Nat.cast_one] at hstore
    simp only [hstore, Option.bind_eq_bind, Option.bind_some]
  · rw [hr.chainLength, List.length_append, List.length_singleton, ← hlen, BitVec.toNat_add]
    simp only [onvmMaxChainLength] at hfit
    have h1 : (1 : BitVec 8).toNat = 1 := rfl
    omega
  · intro k y hk
    rw [hr.load]
    by_cases hkl : k = l.length
    · rw [if_pos (by omega)]
      rw [hkl, List.getElem?_concat_length] at hk
      exact hk
    · rw [if_neg (by omega)]
      have hlt : k < l.length := by
        have := (List.getElem?_eq_some_iff.mp hk).1
        rw [List.length_append, List.length_singleton] at this
        omega
      rw [List.getElem?_append_left hlt] at hk
      exact h.holds k y hk

theorem append_inside {chain chain' : OnvmServiceChain} {x : ChainEntry} {ret : Int}
    (h : chain.onvmScAppendEntry x = some (ret, chain'))
    (hroom : chain.chainLength.toNat < onvmMaxChainLength) :
    chain'.chainLength.toNat = chain.chainLength.toNat + 1 ∧
      chain'.chainLength.toNat < onvmMaxChainLength := by
  rw [onvmScAppendEntry, if_neg (by omega)] at h
  obtain ⟨stored, hstore, h⟩ := Option.bind_eq_some_iff.mp h
  cases h
  unfold store at hstore
  split at hstore
  · rename_i hin
    cases hstore
    have hsum : (chain.chainLength + 1).toNat = chain.chainLength.toNat + 1 := by
      rw [BitVec.toNat_add]
      simp only [onvmMaxChainLength] at hroom
      have h1 : (1 : BitVec 8).toNat = 1 := rfl
      omega
    refine ⟨hsum, ?_⟩
    show (chain.chainLength + 1).toNat < onvmMaxChainLength
    rw [hsum]
    omega
  · cases hstore

/-- The guard lets one more append pass, which is outside the array. -/
theorem Rep.append_full (h : chain.Rep l) (hl : l.length + 1 = onvmMaxChainLength)
    (x : ChainEntry) : chain.onvmScAppendEntry x = none := by
  have hlen := h.chainLength
  have hout : ({ chain with chainLength := chain.chainLength + 1 } : OnvmServiceChain).store
      (chain.chainLength.toNat + 1) x = none := dif_neg (by omega)
  rw [onvmScAppendEntry, if_neg (by omega)]
  simp only [hout, Option.bind_eq_bind, Option.bind_none]

theorem Rep.set (h : chain.Rep l) {entry : Int} (h0 : 0 ≤ entry) (x : ChainEntry) :
    ∃ ret chain', chain.onvmScSetEntry entry x = some (ret, chain') ∧
      chain'.Rep (record l ret (.setEntry entry x)) ∧
      (record l ret (.setEntry entry x)).length = l.length := by
  have hlen := h.chainLength
  have hfit := h.fits
  by_cases hgt : entry > chain.chainLength.toNat
  · exact ⟨-1, chain, if_pos hgt, h, rfl⟩
  · obtain ⟨chain', hstore, hr⟩ := store_inside chain x h0
      (by omega : entry.toNat < onvmMaxChainLength)
    have hset : chain.onvmScSetEntry entry x = some (0, chain') := by
      rw [onvmScSetEntry, if_neg hgt, hstore]
      rfl
    refine ⟨0, chain', hset, ?_⟩
    by_cases hpos : 0 < entry
    · have hrec : record l 0 (.setEntry entry x) = l.set (entry - 1).toNat x :=
        if_pos ⟨rfl, hpos⟩
      rw [hrec]
      refine ⟨⟨?_, ?_, hr.refCnt.trans h.refCnt, ?_⟩, List.length_set⟩
      · rw [hr.chainLength, hlen, List.length_set]
      · rwa [List.length_set]
      · intro k y hk
        rw [hr.load]
        rw [List.getElem?_set] at hk
        by_cases hke : (entry - 1).toNat = k
        · rw [if_pos hke, if_pos (by omega)] at hk
          rw [if_pos (by omega)]
          exact hk
        · rw [if_neg hke] at hk
          rw [if_neg (by omega)]
          exact h.holds k y hk
    · have hrec : record l 0 (.setEntry entry x) = l := if_neg fun h => hpos h.2
      rw [hrec]
      refine ⟨⟨hr.chainLength ▸ hlen, hfit, hr.refCnt.trans h.refCnt, ?_⟩, rfl⟩
      intro k y hk
      rw [hr.load, if_neg (by omega)]
      exact h.holds k y hk

theorem set_negative {entry : Int} (h0 : entry < 0) (x : ChainEntry) :
    chain.onvmScSetEntry entry x = none := by
  rw [onvmScSetEntry, if_neg (by omega), store, dif_neg (by omega)]
  rfl

/-- A rejected call leaves the chain as it is. -/
theorem call_rejected {c : Call} {ret : Int} {chain' : OnvmServiceChain}
    (h : chain.call c = some (ret, chain')) (hret : ret ≠ 0) : chain' = chain := by
  cases c with
  | appendEntry x =>
    simp only [call, onvmScAppendEntry] at h
    split at h
    · cases h
      rfl
    · simp only [Option.bind_eq_bind, Option.bind_eq_some_iff] at h
      obtain ⟨c, -, hc⟩ := h
      cases hc
      exact absurd rfl hret
  | setEntry entry x =>
    simp only [call, onvmScSetEntry] at h
    split at h
    · cases h
      rfl
    · simp only [Option.bind_eq_bind, Option.bind_eq_some_iff] at h
      obtain ⟨c, -, hc⟩ := h
      cases hc
      exact absurd rfl hret

/-! ## Sequences of calls -/

def Call.isAppend : Call → Bool
  | .appendEntry _ => true
  | .setEntry .. => false

/-- On a list of `n` entries there is room for all appends, and no entry number is
negative. -/
def InBounds (n : Nat) (cs : List Call) : Prop :=
  n + cs.countP Call.isAppend < onvmMaxChainLength ∧
    ∀ entry x, Call.setEntry entry x ∈ cs → 0 ≤ entry

theorem inBounds_append {n : Nat} {x : ChainEntry} {cs : List Call} :
    InBounds n (.appendEntry x :: cs) ↔ InBounds (n + 1) cs := by
  simp only [InBounds, List.countP_cons, Call.isAppend, if_true, List.mem_cons, reduceCtorEq,
    false_or]
  rw [Nat.add_assoc, Nat.add_comm 1]

theorem inBounds_set {n : Nat} {entry : Int} {x : ChainEntry} {cs : List Call} :
    InBounds n (.setEntry entry x :: cs) ↔ 0 ≤ entry ∧ InBounds n cs := by
  simp only [InBounds, List.countP_cons, Call.isAppend, Bool.false_eq_true, if_false, add_zero,
    List.mem_cons, Call.setEntry.injEq]
  constructor
  · rintro ⟨hn, hs⟩
    exact ⟨hs entry x (.inl ⟨rfl, rfl⟩), hn, fun e y h => hs e y (.inr h)⟩
  · rintro ⟨h0, hn, hs⟩
    refine ⟨hn, fun e y h => ?_⟩
    rcases h with ⟨rfl, rfl⟩ | h
    · exact h0
    · exact hs e y h

theorem InBounds.lt {n : Nat} {cs : List Call} (h : InBounds n cs) : n < onvmMaxChainLength := by
  have := h.1
  omega

/-- The calls stay in the array as long as they are in bounds, and then the chain holds
the list. -/
theorem Rep.run_iff (h : chain.Rep l) {cs : List Call} :
    (∃ chain' l', chain.run l cs = some (chain', l') ∧ chain'.Shows l') ↔
      InBounds l.length cs := by
  induction cs generalizing chain l with
  | nil => exact iff_of_true ⟨chain, l, rfl, h.shows⟩ ⟨h.fits, nofun⟩
  | cons c cs ih =>
    cases c with
    | appendEntry x =>
      rw [inBounds_append]
      by_cases hl : l.length + 1 < onvmMaxChainLength
      · obtain ⟨chain', happ, hrep⟩ := h.append hl x
        have hrun : chain.run l (.appendEntry x :: cs) = chain'.run (l ++ [x]) cs := by
          rw [run, call, happ]
          rfl
        rw [hrun, ih hrep, List.length_append, List.length_singleton]
      · have hfit := h.fits
        have hrun : chain.run l (.appendEntry x :: cs) = none := by
          rw [run, call, h.append_full (by omega)]
          rfl
        rw [hrun]
        exact iff_of_false (by rintro ⟨_, _, h', -⟩; cases h') fun h' => hl h'.lt
    | setEntry entry x =>
      rw [inBounds_set]
      by_cases h0 : 0 ≤ entry
      · obtain ⟨ret, chain', hset, hrep, hlen⟩ := h.set h0 x
        have hrun : chain.run l (.setEntry entry x :: cs) =
            chain'.run (record l ret (.setEntry entry x)) cs := by
          rw [run, call, hset]
          rfl
        rw [hrun, ih hrep, hlen, and_iff_right h0]
      · have hrun : chain.run l (.setEntry entry x :: cs) = none := by
          rw [run, call, set_negative (by omega)]
          rfl
        rw [hrun]
        exact iff_of_false (by rintro ⟨_, _, h', -⟩; cases h') fun h' => h0 h'.1

/-- **A service chain is a bounded list** exactly for sequences of calls with at most
three appends and without negative entry numbers. A rejected call never changes it. -/
theorem bounded_iff (cs : List Call) :
    (Bounded cs ↔ cs.countP Call.isAppend < onvmMaxChainLength ∧
      ∀ entry x, Call.setEntry entry x ∈ cs → 0 ≤ entry) ∧
    ∀ (chain chain' : OnvmServiceChain) (c : Call) (ret : Int),
      chain.call c = some (ret, chain') → ret ≠ 0 → chain' = chain := by
  refine ⟨?_, fun _ _ _ _ h hret => call_rejected h hret⟩
  rw [Bounded, rep_create.run_iff, InBounds, List.length_nil, zero_add]

/-- Four appends to a new chain. -/
theorem not_bounded_four : ¬ Bounded (List.replicate 4 (.appendEntry ⟨actionTonf, 1⟩)) := by
  have hrun : onvmScCreate.run [] (List.replicate 4 (.appendEntry ⟨actionTonf, 1⟩)) = none := by
    decide +kernel
  rintro ⟨chain, l, h, -⟩
  cases hrun.symm.trans h

end OnvmServiceChain

end Onvm.Pkt

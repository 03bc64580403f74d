import Onvm.Pkt.FlowDir

/-!
# The data of a flow table

`onvm_flow_table.c`: a table keeps its values in an array of `cnt * entry_size` bytes,
at the index that `rte_hash` has for a key. The array is allocated in `size_t`; the
offset into it is a product of two `int`. A data pointer is an offset into the array,
and a product that overflows is none.
-/

namespace Onvm.Pkt

open Onvm.Lib Onvm.Nflib

/-- The index of a key is one of the table's entries, and stays while the key does. -/
structure RteHash.Indexed {η : Type} (t : RteHash η) (entries : η → Nat) : Prop
    extends t.Lawful where
  lookup_lt : ∀ h k i, t.lookup h k = some i → i < entries h
  add_live : ∀ h k i, t.lookup h k = some i → (t.add h k).1 = some i
  entries_add : ∀ h k, entries (t.add h k).2 = entries h
  entries_del : ∀ h k, entries (t.del h k).2 = entries h

/-- A product of two `int` that are not negative. -/
def intMul (a b : Nat) : Option Nat := if a * b < 2 ^ 31 then some (a * b) else none

abbrev DataPtr := Option Nat

/-- `struct onvm_ft`, with the pointers the adds of live keys have returned, which is
history. -/
structure OnvmFt (η : Type) where
  hash : η
  cnt : Nat
  entrySize : Nat
  granted : HashKey → Option DataPtr

/-- Add, look up or remove a flow, or go on to a key with `onvm_ft_iterate`. -/
inductive FtOp where
  | add (r : FlowRef)
  | lookup (r : FlowRef)
  | remove (r : FlowRef)
  | iterate (k : HashKey)

namespace OnvmFt

variable {η : Type} (t : RteHash η) (rss : RteThash)

/-! ## Operations -/

def onvmFtCreate (hash : η) (cnt entrySize : Nat) : OnvmFt η := ⟨hash, cnt, entrySize, fun _ => none⟩

def size (ft : OnvmFt η) : Nat := ft.cnt * ft.entrySize

def onvmFtGetData (ft : OnvmFt η) (index : Nat) : DataPtr := intMul index ft.entrySize

def addKey (ft : OnvmFt η) (k : HashKey) : Except Int (Nat × DataPtr) × OnvmFt η :=
  let (index, hash) := t.add ft.hash k
  match index with
  | none => (.error (-eNospc), { ft with hash := hash })
  | some i =>
    let data := ft.onvmFtGetData i
    (.ok (i, data), { ft with
      hash := hash
      granted := Function.update ft.granted k (some data) })

def findKey (ft : OnvmFt η) (k : HashKey) : Except Int (Nat × DataPtr) :=
  match t.lookup ft.hash k with
  | none => .error (-eNoent)
  | some i => .ok (i, ft.onvmFtGetData i)

def onvmFtAdd (ft : OnvmFt η) (r : FlowRef) : Option (Except Int (Nat × DataPtr) × OnvmFt η) := do
  match ← FlowDir.hashKey rss r with
  | .error err => some (.error err, ft)
  | .ok k => some (ft.addKey t k)

def onvmFtLookup (ft : OnvmFt η) (r : FlowRef) : Option (Except Int (Nat × DataPtr)) := do
  match ← FlowDir.hashKey rss r with
  | .error err => some (.error err)
  | .ok k => some (ft.findKey t k)

def onvmFtRemove (ft : OnvmFt η) (r : FlowRef) : Option (Int × OnvmFt η) := do
  match ← FlowDir.hashKey rss r with
  | .error err => some (err, ft)
  | .ok k =>
    let (i, hash) := t.del ft.hash k
    some (i.elim (-eNoent) fun i => i, { ft with
      hash := hash
      granted := Function.update ft.granted k none })

/-- `onvm_ft_iterate` when `rte_hash_iterate` comes to key `k`. -/
def onvmFtIterate (ft : OnvmFt η) (k : HashKey) : Except Int (Nat × DataPtr) := ft.findKey t k

def step (ft : OnvmFt η) : FtOp → OnvmFt η
  | .add r => ((ft.onvmFtAdd t rss r).map Prod.snd).getD ft
  | .remove r => ((ft.onvmFtRemove t rss r).map Prod.snd).getD ft
  | .lookup _ | .iterate _ => ft

/-! ## What is returned -/

/-- The pointer returned for a live key designates the bytes of its entry: inside the
array, and apart from those of the other live keys. -/
structure SlotRight (ft : OnvmFt η) (k : HashKey) (i : Nat) (data : DataPtr) : Prop where
  exact : data = some (i * ft.entrySize)
  inside : i * ft.entrySize + ft.entrySize ≤ ft.size
  apart : ∀ k' i', k' ≠ k → t.lookup ft.hash k' = some i' →
    i * ft.entrySize + ft.entrySize ≤ i' * ft.entrySize ∨
      i' * ft.entrySize + ft.entrySize ≤ i * ft.entrySize

/-- The result of a lookup: the pointer that the add returned, if the key was added and not
removed since. -/
structure FoundRight (ft : OnvmFt η) (k : HashKey) (res : Except Int (Nat × DataPtr)) : Prop where
  slot : ∀ i data, res = .ok (i, data) → SlotRight t ft k i data
  same : ∀ data, ft.granted k = some data ↔ ∃ i, res = .ok (i, data)

def OpRight (ft : OnvmFt η) : FtOp → Prop
  | .add r => ∀ k i data ft', FlowDir.hashKey rss r = some (.ok k) →
      ft.onvmFtAdd t rss r = some (.ok (i, data), ft') →
      SlotRight t ft' k i data ∧ ∀ data', ft.granted k = some data' → data' = data
  | .lookup r => ∀ k res, FlowDir.hashKey rss r = some (.ok k) →
      ft.onvmFtLookup t rss r = some res → FoundRight t ft k res
  | .iterate k => FoundRight t ft k (ft.onvmFtIterate t k)
  | .remove _ => True

end OnvmFt

/-- Whatever the hash table and the operations, the pointers of a table of this size are
right. -/
def SlotsSafe (cnt entrySize : Nat) : Prop :=
  ∀ (η : Type) (t : RteHash η) (entries : η → Nat) (rss : RteThash) (hash : η),
    t.Indexed entries → entries hash = cnt → (∀ k, t.lookup hash k = none) →
    ∀ ops, Along (OnvmFt.step t rss) (OnvmFt.OpRight t rss)
      (OnvmFt.onvmFtCreate hash cnt entrySize) ops

namespace OnvmFt

variable {η : Type} {t : RteHash η} {rss : RteThash} {entries : η → Nat} {ft ft' : OnvmFt η}
  {cnt entrySize : Nat}

/-- The table has its size, and the live keys are those granted a pointer. -/
structure Kept (t : RteHash η) (entries : η → Nat) (cnt entrySize : Nat) (ft : OnvmFt η) :
    Prop where
  sizes : ft.cnt = cnt ∧ ft.entrySize = entrySize
  indices : entries ft.hash = cnt
  granted : ∀ k, ft.granted k = (t.lookup ft.hash k).map ft.onvmFtGetData

theorem Kept.create {hash : η} (hentries : entries hash = cnt) (hnew : ∀ k, t.lookup hash k = none)
    (entrySize : Nat) : Kept t entries cnt entrySize (onvmFtCreate hash cnt entrySize) :=
  ⟨⟨rfl, rfl⟩, hentries, fun k => by
    show none = (t.lookup hash k).map _
    rw [hnew k, Option.map_none]⟩

theorem addKey_none {k : HashKey} (hi : (t.add ft.hash k).1 = none) :
    ft.addKey t k = (.error (-eNospc), { ft with hash := (t.add ft.hash k).2 }) := by
  unfold addKey
  generalize t.add ft.hash k = added at hi ⊢
  obtain ⟨i, hash⟩ := added
  obtain rfl : i = none := hi
  rfl

theorem addKey_some {k : HashKey} {i : Nat} (hi : (t.add ft.hash k).1 = some i) :
    ft.addKey t k = (.ok (i, ft.onvmFtGetData i), { ft with
      hash := (t.add ft.hash k).2
      granted := Function.update ft.granted k (some (ft.onvmFtGetData i)) }) := by
  unfold addKey
  generalize t.add ft.hash k = added at hi ⊢
  obtain ⟨i', hash⟩ := added
  obtain rfl : i' = some i := hi
  rfl

theorem Kept.addKey (ht : t.Indexed entries) (h : Kept t entries cnt entrySize ft) (k : HashKey) :
    Kept t entries cnt entrySize (ft.addKey t k).2 := by
  have hself := ht.lookup_add ft.hash k
  have hother := ht.lookup_add_of_ne ft.hash k
  have hentries := (ht.entries_add ft.hash k).trans h.indices
  cases hi : (t.add ft.hash k).1 with
  | none =>
    rw [addKey_none hi]
    refine ⟨h.sizes, hentries, fun k' => ?_⟩
    show ft.granted k' = (t.lookup (t.add ft.hash k).2 k').map ft.onvmFtGetData
    by_cases hk : k' = k
    · -- a key that cannot be added is not live
      subst hk
      have hdead : t.lookup ft.hash k' = none := by
        cases hl : t.lookup ft.hash k' with
        | none => rfl
        | some i => exact absurd ((ht.add_live _ _ _ hl).symm.trans hi) nofun
      rw [hself, hi, h.granted k', hdead]
    · rw [hother k' hk]
      exact h.granted k'
  | some i =>
    rw [addKey_some hi]
    refine ⟨h.sizes, hentries, fun k' => ?_⟩
    show Function.update ft.granted k (some (ft.onvmFtGetData i)) k' =
      (t.lookup (t.add ft.hash k).2 k').map ft.onvmFtGetData
    by_cases hk : k' = k
    · subst hk
      rw [hself, hi, Function.update_self, Option.map_some]
    · rw [hother k' hk, Function.update_of_ne hk]
      exact h.granted k'

theorem Kept.step (ht : t.Indexed entries) (h : Kept t entries cnt entrySize ft) (op : FtOp) :
    Kept t entries cnt entrySize (ft.step t rss op) := by
  cases op with
  | lookup r => exact h
  | iterate k => exact h
  | add r =>
    cases hk : FlowDir.hashKey rss r with
    | none => simpa [OnvmFt.step, onvmFtAdd, hk] using h
    | some e =>
      cases e with
      | error err => simpa [OnvmFt.step, onvmFtAdd, hk] using h
      | ok k => simpa [OnvmFt.step, onvmFtAdd, hk] using h.addKey ht k
  | remove r =>
    cases hk : FlowDir.hashKey rss r with
    | none => simpa [OnvmFt.step, onvmFtRemove, hk] using h
    | some e =>
      cases e with
      | error err => simpa [OnvmFt.step, onvmFtRemove, hk] using h
      | ok k =>
        have hstep : ft.step t rss (.remove r) = { ft with
            hash := (t.del ft.hash k).2
            granted := Function.update ft.granted k none } := by
          simp [OnvmFt.step, onvmFtRemove, hk]
        rw [hstep]
        refine ⟨h.sizes, (ht.entries_del ft.hash k).trans h.indices, fun k' => ?_⟩
        show Function.update ft.granted k none k' =
          (t.lookup (t.del ft.hash k).2 k').map ft.onvmFtGetData
        by_cases hk' : k' = k
        · subst hk'
          rw [Function.update_self, ht.lookup_del, Option.map_none]
        · rw [Function.update_of_ne hk', ht.lookup_del_of_ne _ _ _ hk']
          exact h.granted k'

/-! ## Tables of a size that `int` can address -/

theorem entries_apart {i i' : Nat} (h : i ≠ i') (size : Nat) :
    i * size + size ≤ i' * size ∨ i' * size + size ≤ i * size := by
  rcases Nat.lt_or_gt_of_ne h with hlt | hgt
  · have hmul := Nat.mul_le_mul_right size (Nat.succ_le_of_lt hlt)
    rw [Nat.succ_mul] at hmul
    exact .inl hmul
  · have hmul := Nat.mul_le_mul_right size (Nat.succ_le_of_lt hgt)
    rw [Nat.succ_mul] at hmul
    exact .inr hmul

theorem Kept.slotRight (ht : t.Indexed entries) (h : Kept t entries cnt entrySize ft)
    (hfits : (cnt - 1) * entrySize < 2 ^ 31) {k : HashKey} {i : Nat}
    (hi : t.lookup ft.hash k = some i) : SlotRight t ft k i (ft.onvmFtGetData i) := by
  obtain ⟨⟨hcnt, hsize⟩, hentries, -⟩ := h
  have hlt : i < cnt := hentries ▸ ht.lookup_lt _ _ _ hi
  refine ⟨?_, ?_, fun k' i' hk hi' => ?_⟩
  · have hmul : i * entrySize ≤ (cnt - 1) * entrySize := Nat.mul_le_mul_right _ (by omega)
    unfold onvmFtGetData intMul
    rw [hsize, if_pos (by omega)]
  · have hmul := Nat.mul_le_mul_right ft.entrySize (Nat.succ_le_of_lt hlt)
    rw [Nat.succ_mul, ← hcnt] at hmul
    exact hmul
  · refine entries_apart (fun he => hk ?_) ft.entrySize
    exact ht.index_unique _ _ _ _ hi' (he ▸ hi)

theorem Kept.foundRight (ht : t.Indexed entries) (h : Kept t entries cnt entrySize ft)
    (hfits : (cnt - 1) * entrySize < 2 ^ 31) (k : HashKey) :
    FoundRight t ft k (ft.findKey t k) := by
  have hgranted := h.granted k
  unfold findKey
  cases hi : t.lookup ft.hash k with
  | none =>
    rw [hi] at hgranted
    exact ⟨nofun, fun data => by simp [hgranted]⟩
  | some i =>
    rw [hi] at hgranted
    refine ⟨?_, fun data => by simp [hgranted, eq_comm]⟩
    rintro _ _ ⟨⟩
    exact h.slotRight ht hfits hi

theorem Kept.opRight (ht : t.Indexed entries) (h : Kept t entries cnt entrySize ft)
    (hfits : (cnt - 1) * entrySize < 2 ^ 31) (op : FtOp) : OpRight t rss ft op := by
  cases op with
  | remove r => trivial
  | iterate k => exact h.foundRight ht hfits k
  | lookup r =>
    intro k res hk hres
    simp only [onvmFtLookup, hk, Option.bind_eq_bind, Option.bind_some, Option.some.injEq] at hres
    exact hres ▸ h.foundRight ht hfits k
  | add r =>
    intro k i data ft' hk hadd
    simp only [onvmFtAdd, hk, Option.bind_eq_bind, Option.bind_some, Option.some.injEq] at hadd
    have hkept := h.addKey ht k
    rw [hadd] at hkept
    have hself := ht.lookup_add ft.hash k
    cases hi : (t.add ft.hash k).1 with
    | none =>
      rw [addKey_none hi] at hadd
      cases hadd
    | some j =>
      rw [addKey_some hi] at hadd
      cases hadd
      refine ⟨hkept.slotRight ht hfits (hself.trans hi), fun data' hdata' => ?_⟩
      rw [h.granted k] at hdata'
      obtain ⟨j', hj, rfl⟩ := Option.map_eq_some_iff.mp hdata'
      have hsame := (ht.add_live _ _ _ hj).symm.trans hi
      rw [Option.some.inj hsame]

/-! ## A hash table that hands out its last index first -/

/-- The `j`-th of `cnt` indices from the top -/
def fromTop (cnt j : Nat) : Option Nat := if j < cnt then some (cnt - 1 - j) else none

/-- The keys are in a list, as in `slotHash`, and their indices are counted from the top. -/
def topHash (cnt : Nat) : RteHash (List (Option HashKey)) where
  lookup h k := (h.idxOf? (some k)).bind (fromTop cnt)
  add h k := match h.idxOf? (some k) with
    | some j => (fromTop cnt j, h)
    | none => if h.length < cnt then (fromTop cnt h.length, h ++ [some k]) else (none, h)
  del h k := ((h.idxOf? (some k)).bind (fromTop cnt), h.map fun x => if x = some k then none else x)

theorem fromTop_eq_some {j i : Nat} : fromTop cnt j = some i ↔ j < cnt ∧ cnt - 1 - j = i := by
  unfold fromTop
  split <;> simp_all

theorem topHash_lawful (cnt : Nat) : (topHash cnt).Lawful where
  finite h := by
    refine (FlowDir.slotHash_lawful.finite h).subset fun k hk => ?_
    obtain ⟨i, hi⟩ := Option.isSome_iff_exists.mp hk
    obtain ⟨j, hj, -⟩ := Option.bind_eq_some_iff.mp hi
    exact Option.isSome_iff_exists.mpr ⟨j, hj⟩
  index_unique h k k' i hk hk' := by
    obtain ⟨j, hj, hi⟩ := Option.bind_eq_some_iff.mp hk
    obtain ⟨j', hj', hi'⟩ := Option.bind_eq_some_iff.mp hk'
    rw [fromTop_eq_some] at hi hi'
    obtain rfl : j = j' := by omega
    exact FlowDir.slotHash_lawful.index_unique h k k' j hj hj'
  lookup_add h k := by
    simp only [topHash]
    cases hk : h.idxOf? (some k) with
    | some j => simp [hk]
    | none =>
      by_cases hl : h.length < cnt
      · simp [hl, FlowDir.idxOf_concat, hk]
      · simp [hl, hk]
  lookup_add_of_ne h k k' hne := by
    simp only [topHash]
    cases hk : h.idxOf? (some k) with
    | some j => rfl
    | none =>
      by_cases hl : h.length < cnt
      · simp [hl, FlowDir.idxOf_concat, Ne.symm hne]
      · simp [hl]
  del_result h k := rfl
  lookup_del h k := by simp [topHash, FlowDir.idxOf_map_free]
  lookup_del_of_ne h k k' hne := by simp [topHash, FlowDir.idxOf_map_free, hne]

theorem topHash_indexed (cnt : Nat) : (topHash cnt).Indexed fun _ => cnt where
  toLawful := topHash_lawful cnt
  lookup_lt h k i hi := by
    obtain ⟨j, -, hj⟩ := Option.bind_eq_some_iff.mp hi
    rw [fromTop_eq_some] at hj
    omega
  add_live h k i hi := by
    obtain ⟨j, hj, htop⟩ := Option.bind_eq_some_iff.mp hi
    simp only [topHash, hj, htop]
  entries_add h k := rfl
  entries_del h k := rfl

/-- The first flow of a table is at its last index, whose offset has to be an `int`. -/
theorem last_index_fits (hcnt : 0 < cnt) (h : SlotsSafe cnt entrySize) :
    (cnt - 1) * entrySize < 2 ^ 31 := by
  by_contra hover
  have hrun := h _ (topHash cnt) (fun _ => cnt) FlowDir.constThash [] (topHash_indexed cnt) rfl
    (fun _ => rfl) [.add (FlowDir.flowFrom 1)]
  obtain ⟨k, hk⟩ : ∃ k, FlowDir.hashKey FlowDir.constThash (FlowDir.flowFrom 1) = some (.ok k) :=
    ⟨_, rfl⟩
  have hadd : ((topHash cnt).add [] k).1 = some (cnt - 1) := by
    simp [topHash, fromTop, hcnt]
  obtain ⟨hslot, -⟩ := hrun.1 k (cnt - 1) _ _ hk (by
    simp only [onvmFtAdd, hk, Option.bind_eq_bind, Option.bind_some]
    rw [addKey_some hadd])
  have hnone : (onvmFtCreate ([] : List (Option HashKey)) cnt entrySize).onvmFtGetData (cnt - 1) =
      none := if_neg hover
  exact absurd (hnone.symm.trans hslot.exact) nofun

end OnvmFt

/-- **Flow table data**: the pointers of a table are right, in every run and with every hash
table, exactly when the offset of its last entry is an `int`. -/
theorem slots_safe_iff (cnt entrySize : Nat) (hcnt : 0 < cnt) (_ : 0 < entrySize)
    (_ : cnt < 2 ^ 31) (_ : entrySize < 2 ^ 31) :
    SlotsSafe cnt entrySize ↔ (cnt - 1) * entrySize < 2 ^ 31 := by
  refine ⟨OnvmFt.last_index_fits hcnt, fun hfits η t entries rss hash ht hentries hnew ops => ?_⟩
  exact along_of_inv (I := OnvmFt.Kept t entries cnt entrySize)
    (fun _ op h => h.step ht op) (fun _ op h => h.opRight ht hfits op)
    (.create hentries hnew entrySize) ops

/-- A table of 1024 flows -/
theorem slots_safe_small : SlotsSafe 1024 64 :=
  (slots_safe_iff 1024 64 (by decide) (by decide) (by decide) (by decide)).mpr (by decide)

/-- A table of 2 ^ 20 flows with a page of data each is not. -/
theorem large_table_overflows :
    ¬ ∀ cnt entrySize, 0 < cnt → 0 < entrySize → cnt < 2 ^ 31 → entrySize < 2 ^ 31 →
      SlotsSafe cnt entrySize := by
  intro h
  have hfits := OnvmFt.last_index_fits (by decide)
    (h 1048576 4096 (by decide) (by decide) (by decide) (by decide))
  exact absurd hfits (by decide)

end Onvm.Pkt

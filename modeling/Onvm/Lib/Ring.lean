import Mathlib

/-!
# Single-producer single-consumer rings with cached indices

A ring of `size` slots shared by two parties. Its four 32-bit indices run
freely and wrap: `producer` and `consumer` are the shared ones, `cachedProd`
and `cachedCons` are the private copies of the party the ring belongs to. A
producer keeps `cachedCons` ahead of the shared consumer by `size`, so that
`cachedCons - cachedProd` is the number of slots it knows to be free.

`ProdRep` and `ConsRep` say which list of entries such a ring holds, for a
ring whose owner is the producer and for one whose owner is the consumer.
Every operation has one lemma that says what it does to the list, so that
nothing outside this module looks at an index.
-/

namespace Onvm.Lib

/-- A ring of `size` slots, with the indices both parties share and the
owner's private copies. -/
structure Ring (α : Type) (size : Nat) where
  producer : BitVec 32
  consumer : BitVec 32
  cachedProd : BitVec 32
  cachedCons : BitVec 32
  slot : Nat → α

namespace Ring

variable {α : Type} {size : Nat}

/-- The sizes a ring can have: a power of two below `2^32` is all it takes for
masked indices to survive the wrap. -/
structure Size (size : Nat) : Prop where
  pos : 0 < size
  dvd : size ∣ 2 ^ 32
  lt : size < 2 ^ 32

/-! ## Operations -/

def get (r : Ring α size) (idx : BitVec 32) : α := r.slot (idx.toNat % size)

def set (r : Ring α size) (idx : BitVec 32) (x : α) : Ring α size :=
  { r with slot := Function.update r.slot (idx.toNat % size) x }

/-- The number of free slots: the cached count when it is at least `nb`,
otherwise the count after re-reading the shared consumer index. -/
def nbFree (r : Ring α size) (nb : Nat) : Nat × Ring α size :=
  if nb ≤ (r.cachedCons - r.cachedProd).toNat then ((r.cachedCons - r.cachedProd).toNat, r)
  else
    let cons := r.consumer + BitVec.ofNat 32 size
    ((cons - r.cachedProd).toNat, { r with cachedCons := cons })

/-- Reserve `nb` slots or none. `idx` is the caller's variable, written only on
success. -/
def reserve (r : Ring α size) (nb : Nat) (idx : BitVec 32) : Nat × BitVec 32 × Ring α size :=
  let f := r.nbFree nb
  if f.1 < nb then (0, idx, f.2)
  else (nb, f.2.cachedProd, { f.2 with cachedProd := f.2.cachedProd + BitVec.ofNat 32 nb })

def submit (r : Ring α size) (nb : Nat) : Ring α size :=
  { r with producer := r.producer + BitVec.ofNat 32 nb }

/-- The number of entries to read, at most `nb`: the cached count unless it is
`0`, in which case the shared producer index is read again. -/
def nbAvail (r : Ring α size) (nb : Nat) : Nat × Ring α size :=
  let n := (r.cachedProd - r.cachedCons).toNat
  if n = 0 then
    (min (r.producer - r.cachedCons).toNat nb, { r with cachedProd := r.producer })
  else (min n nb, r)

/-- Take up to `nb` entries for reading. `idx` is written only when there is one. -/
def peek (r : Ring α size) (nb : Nat) (idx : BitVec 32) : Nat × BitVec 32 × Ring α size :=
  let a := r.nbAvail nb
  if 0 < a.1 then
    (a.1, a.2.cachedCons, { a.2 with cachedCons := a.2.cachedCons + BitVec.ofNat 32 a.1 })
  else (0, idx, a.2)

/-- Hand `nb` entries that were read back to the producer. -/
def release (r : Ring α size) (nb : Nat) : Ring α size :=
  { r with consumer := r.consumer + BitVec.ofNat 32 nb }

def otherConsume (r : Ring α size) : Ring α size := { r with consumer := r.consumer + 1 }

def otherProduce (r : Ring α size) (x : α) : Ring α size :=
  { r.set r.producer x with producer := r.producer + 1 }

def seg (r : Ring α size) (start : BitVec 32) (n : Nat) : List α :=
  (List.range n).map fun i => r.get (start + BitVec.ofNat 32 i)

def between (r : Ring α size) (a b : BitVec 32) : List α := r.seg a (b - a).toNat

def entries (r : Ring α size) : List α := r.between r.consumer r.producer

/-! ## What a ring holds -/

def Holds (r : Ring α size) (c : Nat) (l : List α) : Prop :=
  ∀ i x, l[i]? = some x → r.slot ((c + i) % size) = x

/-- A ring whose owner produces, from virtual consumer index `c`: `pub` is
published, `res` slots are reserved of which the first hold `wr`, and the owner
knows of `free` further slots. -/
structure ProdAt (r : Ring α size) (c : Nat) (pub wr : List α) (res free : Nat) : Prop where
  consumer : r.consumer = BitVec.ofNat 32 c
  producer : r.producer = BitVec.ofNat 32 (c + pub.length)
  cachedProd : r.cachedProd = BitVec.ofNat 32 (c + pub.length + res)
  cachedCons : r.cachedCons = BitVec.ofNat 32 (c + pub.length + res + free)
  written : wr.length ≤ res
  fits : pub.length + res + free ≤ size
  holds : r.Holds c (pub ++ wr)

/-- `ProdAt` at some virtual index. -/
def ProdRep (r : Ring α size) (pub wr : List α) (res free : Nat) : Prop :=
  ∃ c, r.ProdAt c pub wr res free

/-- A ring whose owner consumes, from virtual consumer index `c`: `pk` is
peeked and not released, `av` is published behind it, of which the owner knows
the first `known`. -/
structure ConsAt (r : Ring α size) (c : Nat) (pk av : List α) (known : Nat) : Prop where
  consumer : r.consumer = BitVec.ofNat 32 c
  cachedCons : r.cachedCons = BitVec.ofNat 32 (c + pk.length)
  cachedProd : r.cachedProd = BitVec.ofNat 32 (c + pk.length + known)
  producer : r.producer = BitVec.ofNat 32 (c + pk.length + av.length)
  cached : known ≤ av.length
  fits : pk.length + av.length ≤ size
  holds : r.Holds c (pk ++ av)

/-- `ConsAt` at some virtual index and cached count. -/
def ConsRep (r : Ring α size) (pk av : List α) : Prop := ∃ c known, r.ConsAt c pk av known

theorem ofNat_sub_toNat (a n : Nat) (hn : n < 2 ^ 32) :
    (BitVec.ofNat 32 (a + n) - BitVec.ofNat 32 a).toNat = n := by
  simp only [BitVec.toNat_sub, BitVec.toNat_ofNat]
  omega

theorem ofNat_add (a n : Nat) : BitVec.ofNat 32 a + BitVec.ofNat 32 n = BitVec.ofNat 32 (a + n) := by
  rw [BitVec.ofNat_add]

theorem mod_ofNat (hs : Size size) (n : Nat) : (BitVec.ofNat 32 n).toNat % size = n % size := by
  rw [BitVec.toNat_ofNat, Nat.mod_mod_of_dvd _ hs.dvd]

theorem get_ofNat (hs : Size size) (r : Ring α size) (n : Nat) :
    r.get (BitVec.ofNat 32 n) = r.slot (n % size) := by
  rw [get, mod_ofNat hs]

theorem Holds.get (hs : Size size) {r : Ring α size} {c i : Nat} {l : List α} {x : α}
    (h : r.Holds c l) (hi : l[i]? = some x) : r.get (BitVec.ofNat 32 (c + i)) = x := by
  rw [get_ofNat hs]; exact h i x hi

theorem Holds.left {r : Ring α size} {c : Nat} {l m : List α} (h : r.Holds c (l ++ m)) :
    r.Holds c l := by
  intro i x hi
  refine h i x ?_
  rw [List.getElem?_append_left (List.getElem?_eq_some_iff.mp hi).1, hi]

theorem Holds.drop {r : Ring α size} {c : Nat} {l m : List α} (h : r.Holds c (l ++ m)) :
    r.Holds (c + l.length) m := by
  intro i x hi
  rw [Nat.add_assoc]
  refine h (l.length + i) x ?_
  rw [List.getElem?_append_right (by omega)]
  simpa using hi

/-- Two virtual indices less than a ring apart use different slots. -/
theorem mod_ne_mod {a b n : Nat} (h1 : a < b) (h2 : b < a + n) : a % n ≠ b % n := by
  intro h
  have hd : n ∣ b - a := Nat.dvd_of_mod_eq_zero (Nat.sub_mod_eq_zero_of_mod_eq h.symm)
  have := Nat.le_of_dvd (by omega) hd
  omega

theorem Holds.set_ge (hs : Size size) {r : Ring α size} {c n : Nat} {l : List α} (x : α)
    (h : r.Holds c l) (h1 : l.length ≤ n) (h2 : n < size) :
    (r.set (BitVec.ofNat 32 (c + n)) x).Holds c l := by
  intro i y hi
  have hlt := (List.getElem?_eq_some_iff.mp hi).1
  have hne : (c + i) % size ≠ (c + n) % size := mod_ne_mod (by omega) (by omega)
  simp only [set, mod_ofNat hs, Function.update_of_ne hne]
  exact h i y hi

theorem Holds.set_snoc (hs : Size size) {r : Ring α size} {c : Nat} {l : List α} (x : α)
    (h : r.Holds c l) (h2 : l.length < size) :
    (r.set (BitVec.ofNat 32 (c + l.length)) x).Holds c (l ++ [x]) := by
  intro i y hi
  rcases Nat.lt_or_ge i l.length with hlt | hge
  · rw [List.getElem?_append_left hlt] at hi
    exact h.set_ge hs x (Nat.le_refl _) h2 i y hi
  · have hil : i = l.length := by
      have := (List.getElem?_eq_some_iff.mp hi).1
      simp only [List.length_append, List.length_cons, List.length_nil] at this
      omega
    subst hil
    simp only [List.getElem?_concat_length, Option.some.injEq] at hi
    simp only [set, mod_ofNat hs, Function.update_self, hi]

theorem seg_of_holds (hs : Size size) {r : Ring α size} {c : Nat} {l : List α}
    (h : r.Holds c l) : r.seg (BitVec.ofNat 32 c) l.length = l := by
  apply List.ext_getElem?
  intro i
  rcases Nat.lt_or_ge i l.length with hlt | hge
  · simp only [seg, List.getElem?_map, List.getElem?_range hlt, Option.map_some]
    rw [List.getElem?_eq_getElem hlt, ofNat_add]
    exact congrArg some (h.get hs (List.getElem?_eq_getElem hlt))
  · rw [List.getElem?_eq_none (by simpa [seg] using hge), List.getElem?_eq_none hge]

theorem between_of_holds (hs : Size size) {r : Ring α size} {c : Nat} {l : List α}
    (h : r.Holds c l) (hl : l.length ≤ size) :
    r.between (BitVec.ofNat 32 c) (BitVec.ofNat 32 (c + l.length)) = l := by
  have := hs.lt
  rw [between, ofNat_sub_toNat _ _ (by omega), seg_of_holds hs h]

/-! ## The producer's side -/

theorem ProdRep.entries (hs : Size size) {r : Ring α size} {pub wr : List α} {res free : Nat}
    (h : r.ProdRep pub wr res free) : r.entries = pub := by
  obtain ⟨c, h⟩ := h
  have := h.fits
  rw [Ring.entries, h.consumer, h.producer]
  exact between_of_holds hs h.holds.left (by omega)

theorem ProdRep.between_written (hs : Size size) {r : Ring α size} {pub wr : List α}
    {res free : Nat} (h : r.ProdRep pub wr res free) :
    r.between r.consumer (r.producer + BitVec.ofNat 32 wr.length) = pub ++ wr := by
  obtain ⟨c, h⟩ := h
  have h1 := h.fits
  have h2 := h.written
  rw [h.consumer, h.producer, ofNat_add, Nat.add_assoc, ← List.length_append]
  exact between_of_holds hs h.holds (by simp only [List.length_append]; omega)

/-- The written entries that a submit is about to publish. -/
theorem ProdRep.seg_written (hs : Size size) {r : Ring α size} {pub wr : List α} {res free : Nat}
    (h : r.ProdRep pub wr res free) : r.seg r.producer wr.length = wr := by
  obtain ⟨c, h⟩ := h
  rw [h.producer]
  exact seg_of_holds hs h.holds.drop

theorem ProdRep.nbFree (hs : Size size) {r : Ring α size} {pub : List α} {free : Nat}
    (h : r.ProdRep pub [] 0 free) (nb : Nat) :
    (r.nbFree nb).1 = (if nb ≤ free then free else size - pub.length) ∧
      (r.nbFree nb).2.ProdRep pub [] 0 (r.nbFree nb).1 := by
  obtain ⟨c, h⟩ := h
  have hlt := hs.lt
  have hf := h.fits
  have hp := h.cachedProd
  rw [Nat.add_zero] at hp hf
  have hfree : (r.cachedCons - r.cachedProd).toNat = free := by
    rw [h.cachedCons, hp, Nat.add_zero]; exact ofNat_sub_toNat _ _ (by omega)
  have htrue : (r.consumer + BitVec.ofNat 32 size - r.cachedProd).toNat = size - pub.length := by
    rw [h.consumer, hp, ofNat_add, show c + size = c + pub.length + (size - pub.length) by omega]
    exact ofNat_sub_toNat _ _ (by omega)
  unfold Ring.nbFree
  rw [hfree]
  split
  · exact ⟨rfl, c, h⟩
  · simp only [htrue, true_and]
    refine ⟨c, ⟨h.consumer, h.producer, h.cachedProd, ?_, h.written, by omega, h.holds⟩⟩
    simp only
    rw [h.consumer, ofNat_add]
    congr 1; omega

theorem ProdRep.reserve {r : Ring α size} {pub : List α} {free nb : Nat} (hs : Size size)
    (h : r.ProdRep pub [] 0 free) (hnb : nb ≤ free) (idx : BitVec 32) :
    (r.reserve nb idx).1 = nb ∧ (r.reserve nb idx).2.1 = r.producer ∧
      (r.reserve nb idx).2.2.producer = r.producer ∧
      (r.reserve nb idx).2.2.ProdRep pub [] nb (free - nb) := by
  obtain ⟨c, h⟩ := h
  have hlt := hs.lt
  have hf := h.fits
  have hfree : (r.cachedCons - r.cachedProd).toNat = free := by
    rw [h.cachedCons, h.cachedProd]; exact ofNat_sub_toNat _ _ (by omega)
  have hn : r.nbFree nb = (free, r) := by
    unfold Ring.nbFree; rw [hfree, if_pos hnb]
  have hp : r.cachedProd = r.producer := by rw [h.cachedProd, h.producer, Nat.add_zero]
  unfold Ring.reserve
  simp only [hn, if_neg (Nat.not_lt.mpr hnb)]
  refine ⟨trivial, hp, trivial, c, ⟨h.consumer, h.producer, ?_, ?_, Nat.zero_le _, by omega, h.holds⟩⟩
  · simp only
    rw [h.cachedProd, ofNat_add, Nat.add_zero]
  · simp only
    rw [h.cachedCons]
    congr 1; omega

/-- Writing beyond the written prefix leaves the representation alone. -/
theorem ProdRep.set_ahead (hs : Size size) {r : Ring α size} {pub wr : List α} {res free : Nat}
    (h : r.ProdRep pub wr res free) (hw : wr.length < res) (x : α) :
    (r.set (r.producer + BitVec.ofNat 32 wr.length) x).ProdRep pub wr res free := by
  obtain ⟨c, h⟩ := h
  have hf := h.fits
  refine ⟨c, ⟨h.consumer, h.producer, h.cachedProd, h.cachedCons, h.written, h.fits, ?_⟩⟩
  rw [h.producer, ofNat_add, Nat.add_assoc]
  exact h.holds.set_ge hs x (by simp) (by omega)

theorem ProdRep.set (hs : Size size) {r : Ring α size} {pub wr : List α} {res free : Nat}
    (h : r.ProdRep pub wr res free) (hw : wr.length < res) (x : α) :
    (r.set (r.producer + BitVec.ofNat 32 wr.length) x).ProdRep pub (wr ++ [x]) res free := by
  obtain ⟨c, h⟩ := h
  have hf := h.fits
  refine ⟨c, ⟨h.consumer, h.producer, h.cachedProd, h.cachedCons, ?_, h.fits, ?_⟩⟩
  · simp only [List.length_append, List.length_cons, List.length_nil]; omega
  rw [h.producer, ofNat_add, Nat.add_assoc, ← List.length_append, ← List.append_assoc]
  exact h.holds.set_snoc hs x (by simp only [List.length_append]; omega)

theorem ProdRep.submit {r : Ring α size} {pub wr : List α} {res free : Nat}
    (h : r.ProdRep pub wr res free) (hw : wr.length = res) :
    (r.submit res).ProdRep (pub ++ wr) [] 0 free := by
  obtain ⟨c, h⟩ := h
  have hf := h.fits
  refine ⟨c, ⟨h.consumer, ?_, ?_, ?_, Nat.le_refl _, ?_, ?_⟩⟩
  · simp only [Ring.submit, List.length_append]
    rw [h.producer, ofNat_add, hw, Nat.add_assoc]
  · simp only [Ring.submit, List.length_append]
    rw [h.cachedProd, hw, Nat.add_zero, Nat.add_assoc]
  · simp only [Ring.submit, List.length_append]
    rw [h.cachedCons, hw, Nat.add_zero, Nat.add_assoc c]
  · simp only [List.length_append]; omega
  · rw [List.append_nil]; exact h.holds

theorem ProdRep.otherConsume (hs : Size size) {r : Ring α size} {x : α} {pub wr : List α}
    {res free : Nat} (h : r.ProdRep (x :: pub) wr res free) :
    r.get r.consumer = x ∧ r.otherConsume.ProdRep pub wr res free := by
  obtain ⟨c, h⟩ := h
  have hf := h.fits
  have hl : ∀ n, c + 1 + pub.length + n = c + (x :: pub).length + n := by
    intro n; simp only [List.length_cons]; omega
  refine ⟨?_, c + 1, ⟨?_, ?_, ?_, ?_, h.written, ?_, ?_⟩⟩
  · rw [h.consumer]; exact h.holds.get hs (i := 0) rfl
  · simp only [Ring.otherConsume]
    rw [h.consumer]; exact ofNat_add c 1
  · simp only [Ring.otherConsume]
    rw [h.producer]; exact congrArg _ (hl 0).symm
  · simp only [Ring.otherConsume]
    rw [h.cachedProd, hl]
  · simp only [Ring.otherConsume]
    rw [h.cachedCons, hl]
  · simp only [List.length_cons] at hf; omega
  · exact Holds.drop (l := [x]) h.holds

/-! ### Slots that are reserved and slots that are published -/

/-- The free-running index is that of an entry published and not yet consumed. -/
def Published (r : Ring α size) (idx : BitVec 32) : Prop :=
  (idx - r.consumer).toNat < (r.producer - r.consumer).toNat

/-- The free-running index is that of a slot reserved and not yet submitted. -/
def Reserved (r : Ring α size) (idx : BitVec 32) : Prop :=
  (idx - r.producer).toNat < (r.cachedProd - r.producer).toNat

/-- An index at distance `n` from `a` is the virtual index `a + n`. -/
theorem eq_ofNat_of_sub {a : Nat} (x : BitVec 32) :
    x = BitVec.ofNat 32 (a + (x - BitVec.ofNat 32 a).toNat) := by
  rw [← ofNat_add, BitVec.ofNat_toNat, BitVec.setWidth_eq, BitVec.add_comm, BitVec.sub_add_cancel]

theorem ProdRep.reserved (hs : Size size) {r : Ring α size} {pub wr : List α} {res free i : Nat}
    (h : r.ProdRep pub wr res free) (hi : i < res) :
    r.Reserved (r.producer + BitVec.ofNat 32 i) := by
  obtain ⟨c, h⟩ := h
  have hlt := hs.lt
  have hf := h.fits
  rw [Reserved, h.producer, h.cachedProd, ofNat_add, ofNat_sub_toNat _ _ (by omega),
    ofNat_sub_toNat _ _ (by omega)]
  exact hi

/-- **A reserved slot is no published one**, whatever the indices are. -/
theorem ProdRep.cell_ne (hs : Size size) {r : Ring α size} {pub wr : List α} {res free : Nat}
    (h : r.ProdRep pub wr res free) {x y : BitVec 32} (hx : r.Reserved x) (hy : r.Published y) :
    x.toNat % size ≠ y.toNat % size := by
  obtain ⟨c, h⟩ := h
  have hlt := hs.lt
  have hf := h.fits
  rw [Reserved, h.producer, h.cachedProd, ofNat_sub_toNat _ _ (by omega)] at hx
  rw [Published, h.producer, h.consumer, ofNat_sub_toNat _ _ (by omega)] at hy
  rw [eq_ofNat_of_sub (a := c + pub.length) x, eq_ofNat_of_sub (a := c) y, mod_ofNat hs,
    mod_ofNat hs]
  exact (mod_ne_mod (by omega) (by omega)).symm

/-! ## The consumer's side -/

theorem ConsRep.fits {r : Ring α size} {pk av : List α} (h : r.ConsRep pk av) :
    pk.length + av.length ≤ size := by
  obtain ⟨c, known, h⟩ := h
  exact h.fits

theorem ConsRep.entries (hs : Size size) {r : Ring α size} {pk av : List α}
    (h : r.ConsRep pk av) : r.entries = pk ++ av := by
  obtain ⟨c, known, h⟩ := h
  have := h.fits
  rw [Ring.entries, h.consumer, h.producer, Nat.add_assoc, ← List.length_append]
  exact between_of_holds hs h.holds (by simpa using this)

theorem ConsRep.between_drop (hs : Size size) {r : Ring α size} {pk av : List α}
    (h : r.ConsRep pk av) {n : Nat} (hn : n ≤ pk.length + av.length) :
    r.between (r.consumer + BitVec.ofNat 32 n) r.producer = (pk ++ av).drop n := by
  obtain ⟨c, known, h⟩ := h
  have hf := h.fits
  have hsplit := List.take_append_drop n (pk ++ av)
  have hlen : ((pk ++ av).take n).length = n := by simp; omega
  have hh : r.Holds (c + n) ((pk ++ av).drop n) := by
    have := h.holds
    rw [← hsplit] at this
    simpa [hlen] using this.drop
  rw [h.consumer, h.producer, ofNat_add,
    show c + pk.length + av.length = c + n + ((pk ++ av).drop n).length by simp; omega]
  exact between_of_holds hs hh (by simp; omega)

theorem ConsRep.seg_peeked (hs : Size size) {r : Ring α size} {pk av : List α}
    (h : r.ConsRep pk av) : r.seg r.consumer pk.length = pk := by
  obtain ⟨c, known, h⟩ := h
  rw [h.consumer]
  exact seg_of_holds hs h.holds.left

theorem ConsRep.get (hs : Size size) {r : Ring α size} {pk av : List α} (h : r.ConsRep pk av)
    {i : Nat} {x : α} (hi : pk[i]? = some x) :
    r.get (r.consumer + BitVec.ofNat 32 i) = x := by
  obtain ⟨c, known, h⟩ := h
  rw [h.consumer, ofNat_add]
  exact h.holds.left.get hs hi

theorem ConsAt.nbAvail {r : Ring α size} {c known : Nat} {av : List α} (hs : Size size)
    (h : r.ConsAt c [] av known) (nb : Nat) :
    ∃ known', (r.nbAvail nb).1 ≤ nb ∧ (r.nbAvail nb).1 ≤ known' ∧
      ((r.nbAvail nb).1 = 0 → 0 < nb → av = []) ∧ (r.nbAvail nb).2.ConsAt c [] av known' := by
  have hlt := hs.lt
  have hf := h.fits
  have hk := h.cached
  simp only [List.length_nil, Nat.zero_add] at hf
  have hn : (r.cachedProd - r.cachedCons).toNat = known := by
    rw [h.cachedCons, h.cachedProd]; exact ofNat_sub_toNat _ _ (by omega)
  have ht : (r.producer - r.cachedCons).toNat = av.length := by
    rw [h.cachedCons, h.producer]; exact ofNat_sub_toNat _ _ (by omega)
  unfold Ring.nbAvail
  simp only [hn]
  by_cases h0 : known = 0
  · rw [if_pos h0, ht]
    refine ⟨av.length, by omega, by omega, ?_, ⟨h.consumer, h.cachedCons, h.producer, h.producer,
      Nat.le_refl _, h.fits, h.holds⟩⟩
    intro hz hnb
    exact List.eq_nil_of_length_eq_zero (by omega)
  · rw [if_neg h0]
    exact ⟨known, by omega, by omega, by omega, h⟩

/-- A peek takes a prefix of what is published, and something if there is
anything. -/
theorem ConsRep.peek (hs : Size size) {r : Ring α size} {av : List α} (h : r.ConsRep [] av)
    (nb : Nat) (hnb : 0 < nb) (idx : BitVec 32) :
    (r.peek nb idx).1 ≤ nb ∧ (r.peek nb idx).1 ≤ av.length ∧
      ((r.peek nb idx).1 = 0 → av = []) ∧
      (0 < (r.peek nb idx).1 → (r.peek nb idx).2.1 = r.consumer) ∧
      (r.peek nb idx).2.2.consumer = r.consumer ∧
      (r.peek nb idx).2.2.ConsRep (av.take (r.peek nb idx).1) (av.drop (r.peek nb idx).1) := by
  obtain ⟨c, known, h⟩ := h
  obtain ⟨known', h1, h2, h3, h4⟩ := h.nbAvail hs nb
  have hk := h4.cached
  have hcc : (r.nbAvail nb).2.cachedCons = r.consumer := by
    rw [h4.cachedCons, h.consumer]; rfl
  have hc : (r.nbAvail nb).2.consumer = r.consumer := by rw [h4.consumer, h.consumer]
  unfold Ring.peek
  by_cases hpos : 0 < (r.nbAvail nb).1
  · simp only [if_pos hpos]
    have hlen : (av.take (r.nbAvail nb).1).length = (r.nbAvail nb).1 := by simp; omega
    refine ⟨h1, by omega, by omega, fun _ => hcc, hc, c, known' - (r.nbAvail nb).1, ⟨h4.consumer, ?_,
      ?_, ?_, by simp; omega, ?_, ?_⟩⟩
    · simp only
      rw [h4.cachedCons, ofNat_add, hlen]; rfl
    · simp only
      rw [h4.cachedProd, hlen]
      congr 1; simp only [List.length_nil]; omega
    · simp only
      rw [h4.producer, hlen]
      congr 1; simp only [List.length_nil, List.length_drop]; omega
    · have := h4.fits
      simp only [List.length_nil, Nat.zero_add] at this
      simp only [List.length_take, List.length_drop]; omega
    · rw [List.take_append_drop]; exact h4.holds
  · have hz : (r.nbAvail nb).1 = 0 := by omega
    simp only [hz, Nat.lt_irrefl, if_false]
    exact ⟨by omega, by omega, fun _ => h3 hz hnb, fun hf => hf.elim, hc, c,
      known', by simpa using h4⟩

theorem ConsRep.release {r : Ring α size} {pk av : List α} (h : r.ConsRep pk av) :
    (r.release pk.length).ConsRep [] av := by
  obtain ⟨c, known, h⟩ := h
  have hf := h.fits
  refine ⟨c + pk.length, known, ⟨?_, h.cachedCons, h.cachedProd, h.producer, h.cached, ?_,
    h.holds.drop⟩⟩
  · simp only [Ring.release]
    rw [h.consumer, ofNat_add]
  · simp only [List.length_nil]; omega

theorem ConsRep.otherProduce (hs : Size size) {r : Ring α size} {pk av : List α}
    (h : r.ConsRep pk av) (hfull : pk.length + av.length < size) (x : α) :
    (r.otherProduce x).ConsRep pk (av ++ [x]) := by
  obtain ⟨c, known, h⟩ := h
  have hk := h.cached
  refine ⟨c, known, ⟨h.consumer, h.cachedCons, h.cachedProd, ?_, ?_, ?_, ?_⟩⟩
  · simp only [Ring.otherProduce, List.length_append, List.length_cons, List.length_nil]
    rw [h.producer]; exact ofNat_add _ 1
  · simp only [List.length_append]; omega
  · simp only [List.length_append, List.length_cons, List.length_nil]; omega
  · have := h.holds.set_snoc hs x (by simpa using hfull)
    rw [List.length_append, ← Nat.add_assoc, ← h.producer] at this
    rw [← List.append_assoc]
    exact this

/-! ## Fresh rings -/

theorem prodRep_of_empty {r : Ring α size} (h1 : r.producer = r.consumer)
    (h2 : r.cachedProd = r.producer) (h3 : r.cachedCons = r.consumer + BitVec.ofNat 32 size) :
    r.ProdRep [] [] 0 size := by
  refine ⟨r.consumer.toNat, ⟨?_, ?_, ?_, ?_, Nat.le_refl _, by simp, by intro i x hi; cases hi⟩⟩
  · simp
  · simp [h1]
  · simp [h2, h1]
  · rw [h3]; simp [BitVec.ofNat_add]

theorem consRep_of_empty {r : Ring α size} (h1 : r.producer = r.consumer)
    (h2 : r.cachedProd = r.consumer) (h3 : r.cachedCons = r.consumer) : r.ConsRep [] [] := by
  refine ⟨r.consumer.toNat, 0, ⟨?_, ?_, ?_, ?_, Nat.le_refl _, by simp, by intro i x hi; cases hi⟩⟩
  all_goals simp [h1, h2, h3]

/-! ## One entry at a time

These hold of any four indices, also of ones that no ring has. -/

/-- The free slots the owner knows of. -/
def known (r : Ring α size) : Nat := (r.cachedCons - r.cachedProd).toNat

/-- The shared consumer index is read again. -/
def refresh (r : Ring α size) : Ring α size :=
  { r with cachedCons := r.consumer + BitVec.ofNat 32 size }

/-- Reserve, write and publish one slot. -/
def push (r : Ring α size) (x : α) : Ring α size :=
  { r.set r.cachedProd x with cachedProd := r.cachedProd + 1, producer := r.producer + 1 }

/-- Write entries to consecutive slots. -/
def setAll : Ring α size → BitVec 32 → List α → Ring α size
  | r, _, [] => r
  | r, idx, x :: l => (r.set idx x).setAll (idx + 1) l

theorem nbFree_eq (r : Ring α size) (nb : Nat) :
    r.nbFree nb = if nb ≤ r.known then (r.known, r) else (r.refresh.known, r.refresh) := rfl

theorem reserve_known {r : Ring α size} {nb : Nat} (h : nb ≤ r.known) (idx : BitVec 32) :
    r.reserve nb idx =
      (nb, r.cachedProd, { r with cachedProd := r.cachedProd + BitVec.ofNat 32 nb }) := by
  rw [reserve, nbFree_eq, if_pos h]
  exact if_neg (not_lt.mpr h)

theorem reserve_refresh {r : Ring α size} {nb : Nat} (h : r.known < nb) (h' : nb ≤ r.refresh.known)
    (idx : BitVec 32) : r.reserve nb idx = r.refresh.reserve nb idx := by
  rw [reserve_known h', reserve, nbFree_eq, if_neg (not_le.mpr h)]
  exact if_neg (not_lt.mpr h')

theorem reserve_full {r : Ring α size} {nb : Nat} (h : r.known < nb) (h' : r.refresh.known < nb)
    (idx : BitVec 32) : r.reserve nb idx = (0, idx, r.refresh) := by
  rw [reserve, nbFree_eq, if_neg (not_le.mpr h)]
  exact if_pos h'

theorem toNat_sub_add {a b : BitVec 32} {k : Nat} (hk : k < 2 ^ 32) :
    (a - (b + BitVec.ofNat 32 k)).toNat =
      if k ≤ (a - b).toNat then (a - b).toNat - k else 2 ^ 32 + (a - b).toNat - k := by
  simp only [BitVec.toNat_sub, BitVec.toNat_add, BitVec.toNat_ofNat]
  split <;> omega

theorem refresh_push (r : Ring α size) (x : α) : (r.push x).refresh = r.refresh.push x := rfl

/-- Writing entries does not depend on the producer's indices. -/
theorem setAll_indices (r : Ring α size) (prod cached idx : BitVec 32) (l : List α) :
    ({ r with producer := prod, cachedProd := cached } : Ring α size).setAll idx l =
      ({ r.setAll idx l with producer := prod, cachedProd := cached } : Ring α size) := by
  induction l generalizing r idx with
  | nil => rfl
  | cons x l ih => exact ih (r.set idx x) (idx + 1)

theorem add_succ {w : Nat} (a : BitVec w) (n : Nat) :
    a + 1 + BitVec.ofNat w n = a + BitVec.ofNat w (n + 1) := by
  rw [BitVec.ofNat_add, BitVec.add_assoc, BitVec.add_comm (BitVec.ofNat w n)]
  rfl

/-- Writing to consecutive slots and publishing them at once is pushing the entries. -/
theorem foldl_push (r : Ring α size) (l : List α) :
    l.foldl push r = ({ r.setAll r.cachedProd l with
      cachedProd := r.cachedProd + BitVec.ofNat 32 l.length
      producer := r.producer + BitVec.ofNat 32 l.length } : Ring α size) := by
  induction l generalizing r with
  | nil => simp [setAll]
  | cons x l ih =>
    have hset := (r.set r.cachedProd x).setAll_indices (r.producer + 1) (r.cachedProd + 1)
      (r.cachedProd + 1) l
    rw [List.foldl_cons, ih, push, hset, List.length_cons, add_succ, add_succ]
    rfl

theorem setAll_cachedCons (r : Ring α size) (idx : BitVec 32) (l : List α) :
    (r.setAll idx l).cachedCons = r.cachedCons := by
  induction l generalizing r idx with
  | nil => rfl
  | cons x l ih => exact ih (r.set idx x) (idx + 1)

theorem setAll_producer (r : Ring α size) (idx : BitVec 32) (l : List α) :
    (r.setAll idx l).producer = r.producer := by
  induction l generalizing r idx with
  | nil => rfl
  | cons x l ih => exact ih (r.set idx x) (idx + 1)

theorem known_foldl_push (r : Ring α size) {l : List α} (hl : l.length < 2 ^ 32) :
    (l.foldl push r).known =
      if l.length ≤ r.known then r.known - l.length else 2 ^ 32 + r.known - l.length := by
  rw [foldl_push, known]
  simp only [setAll_cachedCons]
  exact toNat_sub_add hl

theorem refresh_foldl_push (r : Ring α size) (l : List α) :
    (l.foldl push r).refresh = l.foldl push r.refresh := by
  induction l generalizing r with
  | nil => rfl
  | cons x l ih => rw [List.foldl_cons, List.foldl_cons, ih, refresh_push]

end Ring

end Onvm.Lib

import Onvm.Lib.Bytes

/-!
# Message buffers

`msgbuf.c`: a buffer between two indices that grows at the end and is emptied at the
start. `Msgbuf.bytes` is the queue of bytes that it stands for; the operations on it never
touch memory outside the allocation, whose end is `len`.
-/

namespace Onvm.Sdn

open Onvm.Lib

def overwrite (buf : List Byte) (i : Nat) (data : List Byte) : List Byte :=
  buf.take i ++ data ++ buf.drop (i + data.length)

theorem length_overwrite {buf data : List Byte} {i : Nat} (h : i + data.length ≤ buf.length) :
    (overwrite buf i data).length = buf.length := by
  simp only [overwrite, List.length_append, List.length_take, List.length_drop]
  omega

theorem take_overwrite {buf data : List Byte} {i : Nat} (h : i ≤ buf.length) :
    (overwrite buf i data).take (i + data.length) = buf.take i ++ data := by
  refine List.take_left' ?_
  rw [List.length_append, List.length_take, Nat.min_eq_left h]

/-- What is in front of the bytes that are overwritten stays. -/
theorem take_overwrite_of_le {buf data : List Byte} {i j : Nat} (h : j ≤ i) (hi : i ≤ buf.length) :
    (overwrite buf i data).take j = buf.take j := by
  have hlen : j ≤ (buf.take i).length := by
    rw [List.length_take]
    omega
  rw [overwrite, List.append_assoc, List.take_append_of_le_length hlen, List.take_take,
    Nat.min_eq_left h]

/-- `struct msgbuf`. The allocation has `len` bytes, an `int`; `stop` is `end`. -/
structure Msgbuf where
  buf : List Byte
  start : Nat
  stop : Nat
  start_le : start ≤ stop
  stop_le : stop ≤ buf.length
  len_pos : 0 < buf.length
  len_lt : buf.length < 2 ^ 31

namespace Msgbuf

def len (m : Msgbuf) : Nat := m.buf.length

def countBuffered (m : Msgbuf) : Nat := m.stop - m.start

def bytes (m : Msgbuf) : List Byte := (m.buf.take m.stop).drop m.start

def peeked (m : Msgbuf) : List Byte := m.buf.drop m.start

/-! ## Operations -/

def msgbufNew (mem : List Byte) (hpos : 0 < mem.length) (hlt : mem.length < 2 ^ 31) : Msgbuf where
  buf := mem
  start := 0
  stop := 0
  start_le := Nat.le_refl 0
  stop_le := Nat.zero_le _
  len_pos := hpos
  len_lt := hlt

/-- `junk i` is what byte `i` of the buffer holds when it is new. -/
def msgbufGrow (junk : Nat → Byte) (m : Msgbuf) : Option Msgbuf :=
  -- past `INT_MAX` the allocation fails, and `assert(mbuf->buf)`
  if h : 2 * m.len < 2 ^ 31 then
    some { m with
      buf := m.buf ++ (List.range m.len).map fun i => junk (m.len + i)
      stop_le := m.stop_le.trans (by simp)
      len_pos := Nat.lt_of_lt_of_le m.len_pos (by simp)
      len_lt := by simpa [len, Nat.two_mul] using h }
  else none

/-- Set both indices to the front once nothing is buffered. -/
def rewind (m : Msgbuf) : Msgbuf :=
  if m.start ≥ m.stop then
    { m with start := 0, stop := 0, start_le := Nat.le_refl 0, stop_le := Nat.zero_le _ }
  else m

def advance (m : Msgbuf) (n : Nat) (h : n ≤ m.countBuffered) : Msgbuf :=
  { m with
    start := m.start + n
    start_le := by
      have hle := m.start_le
      unfold countBuffered at h
      omega }

def store (m : Msgbuf) (data : List Byte) (h : m.stop + data.length ≤ m.len) : Msgbuf where
  buf := overwrite m.buf m.stop data
  start := m.start
  stop := m.stop + data.length
  start_le := m.start_le.trans (Nat.le_add_right _ _)
  stop_le := by rwa [length_overwrite h]
  len_pos := by
    rw [length_overwrite h]
    exact m.len_pos
  len_lt := by
    rw [length_overwrite h]
    exact m.len_lt

def got (m : Msgbuf) (data : Option (List Byte)) : List Byte :=
  (data.getD []).take (m.len - m.stop)

theorem got_fits (m : Msgbuf) (data : Option (List Byte)) :
    m.stop + (m.got data).length ≤ m.len := by
  have hle : m.stop ≤ m.len := m.stop_le
  have hgot : (m.got data).length ≤ m.len - m.stop := List.length_take_le _ _
  omega

/-- `msgbuf_read`, where `read` fails or delivers the first bytes of `data`. The result is
the count. -/
def msgbufRead (junk : Nat → Byte) (m : Msgbuf) (data : Option (List Byte)) :
    Option (Int × Msgbuf) :=
  let m' := m.store (m.got data) (m.got_fits data)
  (if m'.stop ≥ m'.len then m'.msgbufGrow junk else some m').map fun m' =>
    (if data.isSome then (m.got data).length else -1, m')

/-- `MIN(count, mbuf->end - mbuf->start)` -/
def pullable (m : Msgbuf) (count : Nat) : Nat := min count m.countBuffered

theorem pullable_le (m : Msgbuf) (count : Nat) : m.pullable count ≤ m.countBuffered :=
  Nat.min_le_right _ _

def msgbufPull (m : Msgbuf) (count : Nat) : Int × List Byte × Msgbuf :=
  if m.pullable count = 0 then (-1, [], m)
  else (m.pullable count, m.bytes.take (m.pullable count),
    (m.advance (m.pullable count) (m.pullable_le count)).rewind)

/-- The length `msgbuf_write` asks `write` for, if the buffer has as much. -/
def sendLen (m : Msgbuf) (want : Nat) : Option Nat :=
  if want > 0 then if m.countBuffered < want then none else some want
  else some m.countBuffered

/-- `msgbuf_write`, where `write` fails or takes at most `accepted` bytes. The result is
the count or -1, and the bytes that were written. -/
def msgbufWrite (m : Msgbuf) (want : Nat) (accepted : Option Nat) : Int × List Byte × Msgbuf :=
  match m.sendLen want with
  | none => (-1, [], m)
  | some sendLen =>
    let n := min (accepted.getD 0) (min sendLen m.countBuffered)
    (if accepted.isSome then n else -1, m.bytes.take n,
      (m.advance n ((Nat.min_le_right _ _).trans (Nat.min_le_right _ _))).rewind)

theorem len_grow {junk : Nat → Byte} {m m' : Msgbuf} (h : m.msgbufGrow junk = some m') :
    m'.len = 2 * m.len := by
  unfold msgbufGrow at h
  split at h
  · cases h
    simp [len, Nat.two_mul]
  · cases h

/-- The loop of `msgbuf_push`. -/
def growFor (junk : Nat → Byte) (m : Msgbuf) (count : Nat) : Option Msgbuf :=
  if m.stop + count > m.len then
    match _h : m.msgbufGrow junk with
    | none => none
    | some m' => m'.growFor junk count
  else some m
  termination_by 2 ^ 31 - m.len
  decreasing_by
    have hgrow := len_grow ‹_›
    have hpos := m.len_pos
    have hlt := m.len_lt
    unfold len at *
    omega

/-! ## The queue -/

variable {m m' : Msgbuf} {junk : Nat → Byte}

theorem length_bytes (m : Msgbuf) : m.bytes.length = m.countBuffered := by
  have hle := m.stop_le
  simp only [bytes, countBuffered, List.length_drop, List.length_take]
  omega

/-- What is buffered is the beginning of what can be seen through the pointer. -/
theorem peeked_eq (m : Msgbuf) : m.peeked = m.bytes ++ m.buf.drop m.stop := by
  have hlen : m.start ≤ (m.buf.take m.stop).length := by
    rw [List.length_take, Nat.min_eq_left m.stop_le]
    exact m.start_le
  calc m.buf.drop m.start
      = (m.buf.take m.stop ++ m.buf.drop m.stop).drop m.start := by rw [List.take_append_drop]
    _ = m.bytes ++ m.buf.drop m.stop := List.drop_append_of_le_length hlen

@[simp] theorem bytes_new (mem : List Byte) (hpos : 0 < mem.length) (hlt : mem.length < 2 ^ 31) :
    (msgbufNew mem hpos hlt).bytes = [] := rfl

theorem bytes_rewind (m : Msgbuf) : m.rewind.bytes = m.bytes := by
  unfold rewind
  split
  · rename_i h
    refine (List.drop_eq_nil_of_le ?_).symm
    rw [List.length_take]
    omega
  · rfl

@[simp] theorem bytes_advance (m : Msgbuf) (n : Nat) (h : n ≤ m.countBuffered) :
    (m.advance n h).bytes = m.bytes.drop n := by
  rw [bytes, bytes, List.drop_drop]
  rfl

@[simp] theorem bytes_store (m : Msgbuf) (data : List Byte) (h : m.stop + data.length ≤ m.len) :
    (m.store data h).bytes = m.bytes ++ data := by
  have hlen : m.start ≤ (m.buf.take m.stop).length := by
    rw [List.length_take, Nat.min_eq_left m.stop_le]
    exact m.start_le
  show ((overwrite m.buf m.stop data).take (m.stop + data.length)).drop m.start = _
  rw [take_overwrite m.stop_le, List.drop_append_of_le_length hlen]
  rfl

theorem grow_eq (h : m.msgbufGrow junk = some m') : m'.bytes = m.bytes ∧ m'.stop = m.stop := by
  unfold msgbufGrow at h
  split at h
  · cases h
    refine ⟨?_, rfl⟩
    show List.drop _ (List.take _ (_ ++ _)) = _
    rw [List.take_append_of_le_length m.stop_le]
    rfl
  · cases h

theorem growFor_eq {count : Nat} (h : m.growFor junk count = some m') :
    m'.bytes = m.bytes ∧ m'.stop + count ≤ m'.len := by
  induction m using growFor.induct junk count with
  | case1 m hgt hg =>
    rw [growFor, if_pos hgt] at h
    split at h
    · cases h
    · rename_i hs
      cases hg.symm.trans hs
  | case2 m hgt m₁ hg ih =>
    rw [growFor, if_pos hgt] at h
    split at h
    · cases h
    · rename_i hs
      cases hg.symm.trans hs
      obtain ⟨hbytes, hroom⟩ := ih h
      exact ⟨hbytes.trans (grow_eq hg).1, hroom⟩
  | case3 m hle =>
    rw [growFor, if_neg hle] at h
    cases h
    exact ⟨rfl, by omega⟩

def msgbufPush (junk : Nat → Byte) (m : Msgbuf) (data : List Byte) : Option Msgbuf :=
  match h : m.growFor junk data.length with
  | none => none
  | some m' => some (m'.store data (growFor_eq h).2)

theorem bytes_push {data : List Byte} (h : m.msgbufPush junk data = some m') :
    m'.bytes = m.bytes ++ data := by
  unfold msgbufPush at h
  split at h
  · cases h
  · rename_i hg
    cases h
    rw [bytes_store, (growFor_eq hg).1]

theorem bytes_read {data : Option (List Byte)} {count : Int}
    (h : m.msgbufRead junk data = some (count, m')) :
    m'.bytes = m.bytes ++ m.got data ∧ (data.isSome → count = (m.got data).length) := by
  unfold msgbufRead at h
  obtain ⟨m₁, hm₁, he⟩ := Option.map_eq_some_iff.mp h
  cases he
  refine ⟨?_, fun hsome => if_pos hsome⟩
  split at hm₁
  · rw [(grow_eq hm₁).1, bytes_store]
  · cases hm₁
    exact bytes_store ..

theorem bytes_pull (m : Msgbuf) (count : Nat) :
    (m.msgbufPull count).2.1 = m.bytes.take count ∧
      (m.msgbufPull count).2.2.bytes = m.bytes.drop count := by
  have hlen := length_bytes m
  unfold msgbufPull
  split
  · rename_i h
    unfold pullable at h
    by_cases hcount : count = 0
    · simp [hcount]
    · have hnil : m.bytes = [] := List.eq_nil_of_length_eq_zero (by omega)
      simp [hnil]
  · show m.bytes.take (m.pullable count) = _ ∧ (rewind _).bytes = _
    rw [bytes_rewind, bytes_advance, pullable, ← hlen]
    rcases Nat.le_total count m.bytes.length with h | h
    · rw [Nat.min_eq_left h]
      exact ⟨rfl, rfl⟩
    · rw [Nat.min_eq_right h, List.take_length, List.drop_length, List.take_of_length_le h,
        List.drop_eq_nil_of_le h]
      exact ⟨rfl, rfl⟩

theorem bytes_write (m : Msgbuf) (want : Nat) (accepted : Option Nat) :
    (m.msgbufWrite want accepted).2.1 ++ (m.msgbufWrite want accepted).2.2.bytes = m.bytes := by
  unfold msgbufWrite
  split
  · rfl
  · simp only [bytes_rewind, bytes_advance, List.take_append_drop]

end Msgbuf

end Onvm.Sdn

import Mathlib.Logic.Function.Basic
import Onvm.Lib.Run
import Onvm.Nflib.Common

/-!
# The rates of the NFs

`onvm_stats_display_nfs` makes rates of four packet counters of each NF: the
difference to what the counter was at the last display, which static arrays keep by
instance ID, divided by the time. `onvm_stats_clear_nf` clears the counters and not
the arrays. The display takes a counter of 0 for the sign that it was cleared.

A display reads the counters of an ID, shows the rates and then writes the arrays, the
received and sent packets as they are by then; the NFs and the manager go on meanwhile.
-/

namespace Onvm.Mgr

open Onvm.Lib Onvm.Nflib

inductive Counter where
  | rx
  | tx
  | rxDrop
  | txDrop
  deriving DecidableEq, Repr

/-- A counter of one NF with its entry in `nf_rx_last`, `nf_tx_last`,
`nf_rx_drop_last` or `nf_tx_drop_last`, and what the last display read. How many packets
were counted since that or a clear, and whether it was a clear, is history. -/
structure Gauge where
  stat : Nat := 0
  last : Nat := 0
  read : Nat := 0
  counted : Nat := 0
  cleared : Bool := false
  deriving DecidableEq, Repr

def sub64 (a b : Nat) : Nat := (a + 2 ^ 64 - b) % 2 ^ 64

namespace Gauge

def add (g : Gauge) (n : Nat) : Gauge :=
  { g with stat := (g.stat + n) % 2 ^ 64, counted := g.counted + n }

def clear (g : Gauge) : Gauge := { g with stat := 0, counted := 0, cleared := true }

def base (g : Gauge) : Nat := if g.stat = 0 then 0 else g.last

def rate (g : Gauge) (difftime : Nat) : Nat := sub64 g.stat g.base / difftime

def shown (g : Gauge) : Gauge :=
  { g with last := g.base, read := g.stat, counted := 0, cleared := false }

def kept (g : Gauge) : Counter → Gauge
  | .rx | .tx => { g with last := g.stat }
  | .rxDrop | .txDrop => { g with last := g.read }

end Gauge

/-- `showing` is the ID whose rates are being displayed. -/
structure Board where
  nfs : Nat → OnvmNf
  gauges : Nat → Counter → Gauge
  showing : Option Nat

/-- An NF counts packets, `onvm_stats_clear_nf` is called, a slot of `nfs` changes (an NF
starts or stops, or another one takes its ID), or the display comes to an ID and when it
has shown the rates, goes on to the next. -/
inductive StatsEvent where
  | count (id : Nat) (c : Counter) (n : Nat)
  | clear (id : Nat)
  | slot (id : Nat) (nf : OnvmNf)
  | display (id difftime : Nat)
  | goOn

namespace Board

/-- All counters and the static arrays are zero, and there is no NF. -/
def boot : Board := ⟨fun _ => {}, fun _ _ => {}, none⟩

def onvmStatsClearNf (b : Board) (id : Nat) : Board :=
  { b with gauges := Function.update b.gauges id fun c => (b.gauges id c).clear }

def Displays (b : Board) (id : Nat) : Prop :=
  b.showing = none ∧ id < maxNfs ∧ onvmNfIsValid (b.nfs id) = true

instance (b : Board) (id : Nat) : Decidable (b.Displays id) := inferInstanceAs (Decidable (_ ∧ _))

def display (b : Board) (id : Nat) : Board :=
  if b.Displays id then
    { b with
      gauges := Function.update b.gauges id fun c => (b.gauges id c).shown
      showing := some id }
  else b

def goOn (b : Board) : Board :=
  match b.showing with
  | none => b
  | some id =>
    { b with
      gauges := Function.update b.gauges id fun c => (b.gauges id c).kept c
      showing := none }

def step (b : Board) : StatsEvent → Board
  | .count id c n =>
    { b with
      gauges := Function.update b.gauges id
        (Function.update (b.gauges id) c ((b.gauges id c).add n)) }
  | .clear id => b.onvmStatsClearNf id
  | .slot id nf => { b with nfs := Function.update b.nfs id nf }
  | .display id _ => b.display id
  | .goOn => b.goOn

/-- `onvm_stats_display_nfs`, when nothing comes between. -/
def onvmStatsDisplayNfs (difftime : Nat) : List StatsEvent :=
  (List.range maxNfs).flatMap fun id => [.display id difftime, .goOn]

/-- No rate that is shown is more than was counted. -/
def RatesBounded (b : Board) : StatsEvent → Prop
  | .display id difftime => b.Displays id → ∀ c,
      (b.gauges id c).rate difftime * difftime ≤ (b.gauges id c).counted
  | .count .. | .clear _ | .slot .. | .goOn => True

/-- A counter that was cleared since the last display is still 0, or has reached its
entry of the array. -/
def ClearSeen (b : Board) : StatsEvent → Prop
  | .display id _ => b.Displays id → ∀ c, (b.gauges id c).cleared →
      (b.gauges id c).stat = 0 ∨ (b.gauges id c).last ≤ (b.gauges id c).stat
  | .count .. | .clear _ | .slot .. | .goOn => True

end Board

namespace Board

theorem exec_one (b : Board) (hb : b.showing = none) (id difftime : Nat) :
    exec step b [.display id difftime, .goOn] = { b with
      gauges := Function.update b.gauges id fun c =>
        if b.Displays id then (b.gauges id c).shown.kept c else b.gauges id c } := by
  show (b.display id).goOn = _
  unfold display
  by_cases hid : b.Displays id
  · simp [hid, goOn, hb]
  · have hgoOn : b.goOn = b := by simp [goOn, hb]
    simp [hid, hgoOn]

/-- **A whole display** writes to the arrays what it shows. -/
theorem exec_display (b : Board) (hb : b.showing = none) (difftime : Nat) :
    exec step b (onvmStatsDisplayNfs difftime) = { b with
      gauges := fun id c =>
        if b.Displays id then (b.gauges id c).shown.kept c else b.gauges id c } := by
  have hfirst : ∀ n, exec step b ((List.range n).flatMap fun id => [.display id difftime, .goOn]) =
      { b with
        gauges := fun id c =>
          if id < n ∧ b.Displays id then (b.gauges id c).shown.kept c else b.gauges id c } := by
    intro n
    induction n with
    | zero => simp [exec]
    | succ n ih =>
      rw [List.range_succ, List.flatMap_append, exec_append, ih, List.flatMap_singleton,
        exec_one _ (by exact hb)]
      congr 1
      funext id c
      by_cases hid : id = n
      · subst hid
        simp only [Function.update_self, Nat.lt_irrefl, false_and, if_false, Nat.lt_succ_self,
          true_and]
        rfl
      · have hlt : id < n + 1 ↔ id < n := by omega
        simp only [Function.update_of_ne hid, hlt]
  have hall : ∀ id, id < maxNfs ∧ b.Displays id ↔ b.Displays id := fun id =>
    and_iff_right_of_imp fun h => h.2.1
  simp only [onvmStatsDisplayNfs, hfirst, hall]

end Board

/-! ## One counter -/

/-- The counter is what the display read, or 0 after a clear, and what was counted since.
Once the display has written the array, that is what it read and a part of what was
counted. -/
structure Gauge.Right (g : Gauge) (settled : Prop) : Prop where
  stat : g.stat = ((if g.cleared then 0 else g.read) + g.counted) % 2 ^ 64
  last : g.last < 2 ^ 64
  read : g.read < 2 ^ 64
  kept : settled → g.cleared = false → ∃ k ≤ g.counted, g.last = (g.read + k) % 2 ^ 64

namespace Gauge.Right

variable {g : Gauge} {settled settled' : Prop}

theorem mono (h : g.Right settled) (hs : settled' → settled) : g.Right settled' :=
  ⟨h.stat, h.last, h.read, fun hs' => h.kept (hs hs')⟩

theorem zero : Gauge.Right {} settled := ⟨rfl, by decide, by decide, fun _ _ => ⟨0, Nat.le_refl 0, rfl⟩⟩

theorem add (h : g.Right settled) (n : Nat) : (g.add n).Right settled := by
  refine ⟨?_, h.last, h.read, fun hs hc => ?_⟩
  · show (g.stat + n) % 2 ^ 64 = ((if g.cleared then 0 else g.read) + (g.counted + n)) % 2 ^ 64
    rw [h.stat, Nat.mod_add_mod, Nat.add_assoc]
  · obtain ⟨k, hk, hlast⟩ := h.kept hs hc
    exact ⟨k, Nat.le_add_right_of_le hk, hlast⟩

theorem clear (h : g.Right settled) : g.clear.Right settled :=
  ⟨rfl, h.last, h.read, fun _ hc => Bool.noConfusion hc⟩

theorem stat_lt (h : g.Right settled) : g.stat < 2 ^ 64 := by
  rw [h.stat]
  exact Nat.mod_lt _ (by decide)

theorem shown (h : g.Right settled) (hs : ¬ settled') : g.shown.Right settled' := by
  refine ⟨(Nat.mod_eq_of_lt h.stat_lt).symm, ?_, h.stat_lt, fun hs' => absurd hs' hs⟩
  show (if g.stat = 0 then 0 else g.last) < 2 ^ 64
  split
  · decide
  · exact h.last

/-- The counter is written as it is by then, or as it was read. -/
theorem goesOn (h : g.Right settled) (c : Counter) : (g.kept c).Right settled' := by
  cases c with
  | rx | tx =>
    refine ⟨h.stat, h.stat_lt, h.read, fun _ hc => ⟨g.counted, Nat.le_refl _, ?_⟩⟩
    have hc : g.cleared = false := hc
    have hstat := h.stat
    rwa [hc] at hstat
  | rxDrop | txDrop =>
    exact ⟨h.stat, h.read, h.read, fun _ _ => ⟨0, Nat.zero_le _, (Nat.mod_eq_of_lt h.read).symm⟩⟩

/-- The difference is not more than was counted. -/
theorem rate_le (h : g.Right True) (hseen : g.cleared → g.stat = 0 ∨ g.last ≤ g.stat)
    (difftime : Nat) : g.rate difftime * difftime ≤ g.counted := by
  have hstat := h.stat
  have hlast := h.last
  unfold rate base
  refine (Nat.div_mul_le_self _ difftime).trans ?_
  unfold sub64
  by_cases hzero : g.stat = 0
  · rw [if_pos hzero, hzero]
    exact Nat.zero_le _
  rw [if_neg hzero]
  cases hc : g.cleared with
  | false =>
    obtain ⟨k, hk, hkept⟩ := h.kept trivial hc
    rw [hc] at hstat
    simp only [Bool.false_eq_true, if_false] at hstat
    omega
  | true =>
    rw [hc] at hstat
    have hle := (hseen hc).resolve_left hzero
    simp only [if_true, Nat.zero_add] at hstat
    omega

end Gauge.Right

/-! ## Runs -/

namespace Board

def Right (b : Board) : Prop := ∀ id c, (b.gauges id c).Right (b.showing ≠ some id)

theorem Right.step {b : Board} (h : b.Right) (e : StatsEvent) : (b.step e).Right := by
  intro id c
  cases e with
  | count i d n =>
    unfold Board.step
    dsimp only
    by_cases hi : id = i
    · subst hi
      by_cases hd : c = d
      · subst hd
        simpa using (h id c).add n
      · simpa [hd] using h id c
    · simpa [hi] using h id c
  | clear i =>
    unfold Board.step onvmStatsClearNf
    dsimp only
    by_cases hi : id = i
    · subst hi
      simpa using (h id c).clear
    · simpa [hi] using h id c
  | slot i nf => exact show (b.gauges id c).Right _ from h id c
  | display i difftime =>
    unfold Board.step Board.display
    dsimp only
    split
    · rename_i hshow
      by_cases hi : id = i
      · subst hi
        have hopen : ¬ some id ≠ some id := not_not.mpr rfl
        simpa using (h id c).shown hopen
      · simpa [hi, hshow.1] using (h id c).mono fun _ => by simp [hshow.1]
    · exact h id c
  | goOn =>
    unfold Board.step Board.goOn
    dsimp only
    split
    · exact h id c
    · rename_i i hi
      by_cases hid : id = i
      · subst hid
        simpa using (h id c).goesOn c
      · simpa [hid] using (h id c).mono fun _ => by simp [hi, Ne.symm hid]

/-- **Rates.** In a run in which every display finds the cleared counters 0 or past their
last value, the rates shown are not more than was counted. -/
theorem rates_bounded (es : List StatsEvent) (h : Along step ClearSeen boot es) :
    Along step RatesBounded boot es := by
  refine h.of_inv (I := Right) (fun b e hb _ => hb.step e) (fun b e hb hseen => ?_) fun _ _ => .zero
  cases e with
  | display id difftime =>
    intro hshow c
    exact ((hb id c).mono fun _ => by simp [hshow.1]).rate_le (hseen hshow c) difftime
  | count | clear | slot | goOn => trivial

/-- NF 1 runs, counts 5 packets and is displayed; it stops, and another NF takes its ID and
counts `n`. -/
def idReused (during : List StatsEvent) (n : Nat) : List StatsEvent :=
  [.slot 1 { instanceId := 1, status := .running }, .count 1 .rx 5, .display 1 1] ++ during ++
    [.goOn, .clear 1, .slot 1 {}, .slot 1 { instanceId := 1, status := .running },
      .count 1 .rx n, .display 1 1, .goOn]

/-- Two more packets come in while the rates are displayed. -/
theorem rates_bounded_idReused : Along step RatesBounded boot (idReused [.count 1 .rx 2] 9) := by
  refine rates_bounded _ ⟨trivial, trivial, fun _ c hcleared => ?_, trivial, trivial, trivial,
    trivial, trivial, trivial, fun _ c _ => ?_, trivial, trivial⟩
  · revert hcleared
    cases c <;> decide
  · cases c <;> decide

/-- With 3 packets the rate is 2^64 - 2. -/
theorem reused_id_underflows : ¬ ∀ es, Along step RatesBounded boot es := by
  intro h
  obtain ⟨-, -, -, -, -, -, -, -, hlast, -⟩ := h (idReused [] 3)
  exact absurd (hlast (by decide) .rx) (by decide)

end Board

end Onvm.Mgr

import Onvm.Lib.TransSys
import Onvm.Pkt.Plane

/-!
# The token bucket

`packet_handler_tb` of `forward_tb.c`. A packet that is longer than the bucket is deep is
dropped, another takes as many tokens as it is long. New tokens are made only when there are
too few, for the time since that was last the case, and the handler waits for them. Numbers
are 64 bits wide and may wrap around, which makes fewer tokens, never more.

The bucket is not what it is called: the time in which it was full counts too when tokens are
made, so that twice the depth can go out at once (`rate_limited`).
-/

namespace Onvm.Nf

open Onvm.Lib Onvm.Pkt

structure TbConfig where
  tbRate : BitVec 64
  tbDepth : BitVec 64
  tbTokens : BitVec 64
  lastCycle : BitVec 64
  curCycles : BitVec 64
  deriving DecidableEq, Repr

namespace TbConfig

-- `rte_get_timer_hz`
variable (hz : BitVec 64)

def tokensProduced (tb : TbConfig) (curCycles : BitVec 64) : BitVec 64 :=
  (curCycles - tb.lastCycle) * tb.tbRate * 1000000 / hz

/-- The loop that reads the clock until there are enough tokens; no result as long as there
are not. -/
def wait (tb : TbConfig) (pktLen : BitVec 64) : List (BitVec 64) → Option (BitVec 64)
  | [] => none
  | curCycles :: readings =>
    if tb.tokensProduced hz curCycles + tb.tbTokens < pktLen then wait tb pktLen readings
    else some curCycles

def produce (tb : TbConfig) (curCycles : BitVec 64) : TbConfig :=
  { tb with
    tbTokens :=
      if tb.tokensProduced hz curCycles + tb.tbTokens > tb.tbDepth then tb.tbDepth
      else tb.tbTokens + tb.tokensProduced hz curCycles
    lastCycle := curCycles
    curCycles := curCycles }

def take (tb : TbConfig) (pktLen : BitVec 64) : TbConfig :=
  { tb with tbTokens := tb.tbTokens - pktLen }

/-- `packet_handler_tb`, with what the clock shows meanwhile. -/
def packetHandlerTb (destination : Nat) (tb : TbConfig) (pktLen : BitVec 32)
    (pktMeta : OnvmPktMeta) (readings : List (BitVec 64)) : Option (TbConfig × OnvmPktMeta) :=
  let len := pktLen.setWidth 64
  let forward := { pktMeta with action := actionTonf, destination := destination }
  if len > tb.tbDepth then some (tb, { pktMeta with action := actionDrop })
  else if tb.tbTokens < len then
    (tb.wait hz len readings).map fun curCycles => ((tb.produce hz curCycles).take len, forward)
  else some (tb.take len, forward)

end TbConfig

/-! ## Runs -/

/-- The bucket, the time, and how many bytes were forwarded since the beginning. -/
structure TbState where
  tb : TbConfig
  now : Nat
  start : Nat
  sent : Nat

namespace TbState

variable (hz : BitVec 64) (destination : Nat)

/-- A packet comes at a time `t`. The clock does not go back. -/
def packet (s : TbState) (t : Nat) (pktLen : BitVec 32) (pktMeta : OnvmPktMeta)
    (readings : List (BitVec 64)) : Option TbState :=
  if s.now ≤ t ∧ ∀ c ∈ readings.map BitVec.toNat, t ≤ c then
    (s.tb.packetHandlerTb hz destination pktLen pktMeta readings).map fun (tb, pktMeta) =>
      { s with
        tb := tb
        now := max t tb.lastCycle.toNat
        sent := s.sent + if pktMeta.action = actionTonf then pktLen.toNat else 0 }
  else none

end TbState

/-- The NF with any packets: at the beginning the bucket is at most full. -/
def tokenBucket (hz : BitVec 64) (destination : Nat) : TransSys TbState where
  Init s := s.tb.tbTokens ≤ s.tb.tbDepth ∧ s.tb.lastCycle.toNat = s.now ∧ s.start = s.now ∧
    s.sent = 0
  Next s s' := ∃ t pktLen pktMeta readings,
    s.packet hz destination t pktLen pktMeta readings = some s'

/-! ## Tokens -/

namespace TbConfig

variable {hz : BitVec 64} {tb : TbConfig} {len curCycles : BitVec 64} {readings : List (BitVec 64)}

/-- Tokens a second, by the cycles that a second has. -/
def perSecond (tb : TbConfig) : Nat := tb.tbRate.toNat * 1000000

-- The fields are named before `rfl`, or the kernel compares the numbers of tokens.
theorem take_frame (tb : TbConfig) (len : BitVec 64) :
    (tb.take len).tbRate = tb.tbRate ∧ (tb.take len).tbDepth = tb.tbDepth ∧
      (tb.take len).lastCycle = tb.lastCycle := by
  obtain ⟨rate, depth, tokens, last, cur⟩ := tb
  exact ⟨@rfl _ rate, @rfl _ depth, @rfl _ last⟩

theorem produce_frame (tb : TbConfig) (curCycles : BitVec 64) :
    (tb.produce hz curCycles).tbRate = tb.tbRate ∧
      (tb.produce hz curCycles).tbDepth = tb.tbDepth ∧
      (tb.produce hz curCycles).lastCycle = curCycles := by
  obtain ⟨rate, depth, tokens, last, cur⟩ := tb
  exact ⟨@rfl _ rate, @rfl _ depth, @rfl _ curCycles⟩

theorem wait_some (h : tb.wait hz len readings = some curCycles) :
    curCycles ∈ readings ∧ len ≤ tb.tokensProduced hz curCycles + tb.tbTokens := by
  induction readings with
  | nil => cases h
  | cons c readings ih =>
    unfold wait at h
    split at h
    · obtain ⟨hmem, hle⟩ := ih h
      exact ⟨List.mem_cons_of_mem _ hmem, hle⟩
    · rename_i hle
      cases h
      exact ⟨List.mem_cons_self, BitVec.not_lt.mp hle⟩

/-- No more tokens are made than the time allows, even if the product wraps around. -/
theorem tokensProduced_le (h : tb.lastCycle.toNat ≤ curCycles.toNat) :
    hz.toNat * (tb.tokensProduced hz curCycles).toNat ≤
      tb.perSecond * (curCycles.toNat - tb.lastCycle.toNat) := by
  have hdiff : (curCycles - tb.lastCycle).toNat = curCycles.toNat - tb.lastCycle.toNat :=
    BitVec.toNat_sub_of_le h
  have hprod : ((curCycles - tb.lastCycle) * tb.tbRate * 1000000).toNat ≤
      (curCycles.toNat - tb.lastCycle.toNat) * tb.tbRate.toNat * 1000000 := by
    rw [BitVec.toNat_mul, BitVec.toNat_mul, hdiff]
    refine (Nat.mod_le _ _).trans (Nat.mul_le_mul (Nat.mod_le _ _) (Nat.le_of_eq rfl))
  calc hz.toNat * (tb.tokensProduced hz curCycles).toNat
      ≤ ((curCycles - tb.lastCycle) * tb.tbRate * 1000000).toNat := by
        rw [tokensProduced, BitVec.toNat_udiv]
        exact Nat.mul_div_le _ _
    _ ≤ (curCycles.toNat - tb.lastCycle.toNat) * tb.tbRate.toNat * 1000000 := hprod
    _ = tb.perSecond * (curCycles.toNat - tb.lastCycle.toNat) := by
        rw [perSecond, Nat.mul_comm, Nat.mul_comm (curCycles.toNat - _), ← Nat.mul_assoc,
          Nat.mul_comm 1000000]

theorem produce_tokens (hwait : len ≤ tb.tokensProduced hz curCycles + tb.tbTokens)
    (hlen : len ≤ tb.tbDepth) :
    len ≤ (tb.produce hz curCycles).tbTokens ∧
      (tb.produce hz curCycles).tbTokens ≤ tb.tbDepth ∧
      (tb.produce hz curCycles).tbTokens.toNat ≤
        tb.tbTokens.toNat + (tb.tokensProduced hz curCycles).toNat := by
  have hsum : (tb.tokensProduced hz curCycles + tb.tbTokens).toNat ≤
      tb.tbTokens.toNat + (tb.tokensProduced hz curCycles).toNat := by
    rw [BitVec.toNat_add, Nat.add_comm tb.tbTokens.toNat]
    exact Nat.mod_le _ _
  unfold produce
  dsimp only
  split
  · rename_i hover
    have hover' : tb.tbDepth.toNat < (tb.tokensProduced hz curCycles + tb.tbTokens).toNat := hover
    exact ⟨hlen, Nat.le_refl _, by omega⟩
  · rename_i hunder
    rw [BitVec.add_comm tb.tbTokens]
    exact ⟨hwait, BitVec.not_lt.mp hunder, hsum⟩

/-- The tokens that a packet takes were there. -/
theorem take_tokens (h : len ≤ tb.tbTokens) :
    (tb.take len).tbTokens.toNat + len.toNat = tb.tbTokens.toNat := by
  have hle : len.toNat ≤ tb.tbTokens.toNat := h
  rw [take, BitVec.toNat_sub_of_le h]
  omega

end TbConfig

/-! ## What a packet does -/

variable {hz : BitVec 64} {destination : Nat} {s s' : TbState}

namespace TbConfig

inductive Pays (hz : BitVec 64) (tb tb' : TbConfig) (len : Nat) (readings : List (BitVec 64)) :
    Prop where
  | spend : tb'.lastCycle = tb.lastCycle → tb'.tbTokens.toNat + len = tb.tbTokens.toNat →
      Pays hz tb tb' len readings
  | produce (made : Nat) : tb'.lastCycle ∈ readings → tb'.tbTokens.toNat + len ≤ tb.tbDepth.toNat →
      tb'.tbTokens.toNat + len ≤ tb.tbTokens.toNat + made →
      (tb.lastCycle.toNat ≤ tb'.lastCycle.toNat →
        hz.toNat * made ≤ tb.perSecond * (tb'.lastCycle.toNat - tb.lastCycle.toNat)) →
      Pays hz tb tb' len readings

/-- **The handler** drops a packet, or forwards it and takes the tokens for it. -/
theorem packetHandlerTb_cases {tb' : TbConfig} {destination : Nat} {pktLen : BitVec 32}
    {pktMeta pktMeta' : OnvmPktMeta}
    (h : tb.packetHandlerTb hz destination pktLen pktMeta readings = some (tb', pktMeta')) :
    tb'.tbRate = tb.tbRate ∧ tb'.tbDepth = tb.tbDepth ∧
      ((pktMeta'.action = actionDrop ∧ tb' = tb) ∨
        (pktMeta'.action = actionTonf ∧ tb.Pays hz tb' pktLen.toNat readings)) := by
  have hlen : (pktLen.setWidth 64).toNat = pktLen.toNat := BitVec.toNat_setWidth_of_le (by decide)
  unfold packetHandlerTb at h
  simp only at h
  split at h
  · cases h
    exact ⟨rfl, rfl, .inl ⟨rfl, rfl⟩⟩
  · rename_i hdepth
    split at h
    · obtain ⟨curCycles, hwait, h⟩ := Option.map_eq_some_iff.mp h
      cases h
      obtain ⟨hmem, henough⟩ := wait_some hwait
      obtain ⟨hle, hfull, hmade⟩ := produce_tokens henough (BitVec.not_lt.mp hdepth)
      obtain ⟨hrate, hdep, hcycle⟩ := @produce_frame hz tb curCycles
      have htake := take_tokens hle
      generalize tb.produce hz curCycles = made at *
      obtain ⟨hrate', hdep', hcycle'⟩ := take_frame made (pktLen.setWidth 64)
      have hfull' : made.tbTokens.toNat ≤ tb.tbDepth.toNat := hfull
      have hnow : ((made.take (pktLen.setWidth 64)).lastCycle) = curCycles := hcycle'.trans hcycle
      refine ⟨hrate'.trans hrate, hdep'.trans hdep, .inr ⟨rfl,
        .produce (tb.tokensProduced hz curCycles).toNat (hnow ▸ hmem) (by omega) (by omega) ?_⟩⟩
      rw [hnow]
      exact tokensProduced_le
    · rename_i henough
      cases h
      obtain ⟨hrate, hdep, hcycle⟩ := take_frame tb (pktLen.setWidth 64)
      have htake := take_tokens (BitVec.not_lt.mp henough)
      exact ⟨hrate, hdep, .inr ⟨rfl, .spend hcycle (by omega)⟩⟩

end TbConfig

/-- The bucket is at most full, and the tokens were made for a time that is past. -/
structure TbState.Sound (s : TbState) : Prop where
  tokens_le : s.tb.tbTokens.toNat ≤ s.tb.tbDepth.toNat
  last_le : s.tb.lastCycle.toNat ≤ s.now

/-- The bytes that are forwarded had their tokens, or these were made, to at most the depth and
for no more than the time that has passed. -/
inductive TbState.Account (hz : BitVec 64) (s s' : TbState) : Prop where
  | spend : s'.tb.lastCycle = s.tb.lastCycle →
      s'.sent + s'.tb.tbTokens.toNat = s.sent + s.tb.tbTokens.toNat → Account hz s s'
  | produce : s.now ≤ s'.tb.lastCycle.toNat → s'.tb.lastCycle.toNat ≤ s'.now →
      s'.sent + s'.tb.tbTokens.toNat ≤ s.sent + s.tb.tbDepth.toNat →
      hz.toNat * (s'.sent + s'.tb.tbTokens.toNat) ≤
        hz.toNat * (s.sent + s.tb.tbTokens.toNat) +
          s.tb.perSecond * (s'.tb.lastCycle.toNat - s.tb.lastCycle.toNat) → Account hz s s'

/-- What a packet leaves alone. -/
structure TbState.Frame (s s' : TbState) : Prop where
  tbRate : s'.tb.tbRate = s.tb.tbRate
  tbDepth : s'.tb.tbDepth = s.tb.tbDepth
  start : s'.start = s.start
  now_le : s.now ≤ s'.now

/-- **One packet.** -/
theorem packet_account {t : Nat} {pktLen : BitVec 32} {pktMeta : OnvmPktMeta}
    {readings : List (BitVec 64)} (hs : s.Sound)
    (h : s.packet hz destination t pktLen pktMeta readings = some s') :
    s'.Sound ∧ s.Frame s' ∧ s.Account hz s' := by
  obtain ⟨htokens, hlast⟩ := hs
  unfold TbState.packet at h
  split at h
  · rename_i htime
    obtain ⟨hnow, hreadings⟩ := htime
    obtain ⟨⟨tb, pktMeta'⟩, htb, rfl⟩ := Option.map_eq_some_iff.mp h
    obtain ⟨hrate, hdepth, hcases⟩ := TbConfig.packetHandlerTb_cases htb
    have hmax := Nat.le_max_left t tb.lastCycle.toNat
    have hmax' := Nat.le_max_right t tb.lastCycle.toNat
    have hframe : s.Frame ⟨tb, max t tb.lastCycle.toNat, s.start,
        s.sent + if pktMeta'.action = actionTonf then pktLen.toNat else 0⟩ :=
      ⟨hrate, hdepth, rfl, hnow.trans hmax⟩
    rcases hcases with ⟨haction, rfl⟩ | ⟨haction, hpays⟩
    · refine ⟨⟨htokens, hmax'⟩, hframe, .spend rfl ?_⟩
      simp only [haction, if_neg (by decide : actionDrop ≠ actionTonf), Nat.add_zero]
    · simp only [haction, if_true] at hframe ⊢
      cases hpays with
      | spend hcycle htake =>
        refine ⟨⟨?_, hmax'⟩, hframe, .spend hcycle ?_⟩
        · dsimp only
          rw [hdepth]
          omega
        · dsimp only
          omega
      | produce made hmem hfull hmade htime =>
        have hcur := hreadings _ (List.mem_map_of_mem hmem)
        have hprod := htime (by omega)
        refine ⟨⟨?_, hmax'⟩, hframe, .produce ?_ hmax' ?_ ?_⟩
        · dsimp only
          rw [hdepth]
          omega
        · dsimp only
          omega
        · dsimp only
          omega
        · calc hz.toNat * (s.sent + pktLen.toNat + tb.tbTokens.toNat)
              ≤ hz.toNat * (s.sent + s.tb.tbTokens.toNat + made) :=
                Nat.mul_le_mul_left _ (by omega)
            _ = hz.toNat * (s.sent + s.tb.tbTokens.toNat) + hz.toNat * made := Nat.mul_add ..
            _ ≤ _ := Nat.add_le_add_left hprod _
  · cases h

/-! ## All runs -/

theorem reachable_tb (h : (tokenBucket hz destination).Reachable s) :
    s.Sound ∧ hz.toNat * (s.sent + s.tb.tbTokens.toNat) ≤
      hz.toNat * s.tb.tbDepth.toNat + s.tb.perSecond * (s.tb.lastCycle.toNat - s.start) ∧
      s.start ≤ s.tb.lastCycle.toNat := by
  refine h.induct (P := fun s => s.Sound ∧ hz.toNat * (s.sent + s.tb.tbTokens.toNat) ≤
    hz.toNat * s.tb.tbDepth.toNat + s.tb.perSecond * (s.tb.lastCycle.toNat - s.start) ∧
      s.start ≤ s.tb.lastCycle.toNat) (fun s hs => ?_) fun s s' _ ih hnext => ?_
  · obtain ⟨hfull, hlast, hstart, hsent⟩ := hs
    refine ⟨⟨hfull, hlast.le⟩, ?_, by omega⟩
    rw [hsent, Nat.zero_add]
    exact (Nat.mul_le_mul_left _ hfull).trans (Nat.le_add_right _ _)
  · obtain ⟨hsound, hbound, hstart⟩ := ih
    obtain ⟨t, pktLen, pktMeta, readings, hstep⟩ := hnext
    obtain ⟨hsound', hframe, haccount⟩ := packet_account hsound hstep
    have hlast := hsound.last_le
    have hrate : s'.tb.perSecond = s.tb.perSecond := by rw [TbConfig.perSecond, hframe.tbRate]; rfl
    rw [hframe.tbDepth, hframe.start, hrate]
    refine ⟨hsound', ?_, ?_⟩
    · cases haccount with
      | spend hcycle hsum => rwa [hsum, hcycle]
      | produce hnow hcycle hdepth hsum =>
        refine hsum.trans ((Nat.add_le_add_right hbound _).trans ?_)
        rw [Nat.add_assoc, ← Nat.mul_add]
        exact Nat.add_le_add_left (Nat.mul_le_mul_left _ (by omega)) _
    · cases haccount with
      | spend hcycle _ => rwa [hcycle]
      | produce hnow => omega

/-- What a run does: it spends the tokens there are, and from the first time that tokens are
made it starts with at most the depth. -/
inductive TbState.Window (hz : BitVec 64) (s s' : TbState) : Prop where
  | spend : s'.tb.lastCycle = s.tb.lastCycle →
      s'.sent + s'.tb.tbTokens.toNat ≤ s.sent + s.tb.tbTokens.toNat → Window hz s s'
  | produce : s.now ≤ s'.tb.lastCycle.toNat →
      hz.toNat * (s'.sent + s'.tb.tbTokens.toNat) ≤
        hz.toNat * (s.sent + s.tb.tbTokens.toNat + s.tb.tbDepth.toNat) +
          s.tb.perSecond * (s'.tb.lastCycle.toNat - s.now) → Window hz s s'

theorem TbState.Window.add {s₁ : TbState} (h : s.Window hz s₁) (hs₁ : s₁.Sound)
    (hframe : s.Frame s₁) (hn : s₁.Account hz s') : s.Window hz s' := by
  have hlast := hs₁.last_le
  have hdepth : s₁.tb.tbDepth = s.tb.tbDepth := hframe.tbDepth
  have hrate : s₁.tb.perSecond = s.tb.perSecond := by
    rw [TbConfig.perSecond, hframe.tbRate, TbConfig.perSecond]
  have hnow := hframe.now_le
  cases hn with
  | spend hcycle hsum =>
    cases h with
    | spend hcycle' hsum' => exact .spend (hcycle.trans hcycle') (hsum.trans_le hsum')
    | produce hnow' hsum' =>
      rw [← hcycle] at hnow' hsum'
      rw [← hsum] at hsum'
      exact .produce hnow' hsum'
  | produce hnow' _ hfull hsum =>
    rw [hdepth] at hfull
    rw [hrate] at hsum
    cases h with
    | spend hcycle' hsum' =>
      refine .produce (hnow.trans hnow') ((Nat.mul_le_mul_left _ ?_).trans (Nat.le_add_right _ _))
      omega
    | produce hnow'' hsum' =>
      refine .produce (hnow.trans hnow') (hsum.trans ((Nat.add_le_add_right hsum' _).trans ?_))
      rw [Nat.add_assoc, ← Nat.mul_add]
      exact Nat.add_le_add_left (Nat.mul_le_mul_left _ (by omega)) _

theorem window (hs : s.Sound)
    (hrun : Relation.ReflTransGen (tokenBucket hz destination).Next s s') :
    s'.Sound ∧ s.Frame s' ∧ s.Window hz s' := by
  induction hrun with
  | refl => exact ⟨hs, ⟨rfl, rfl, rfl, Nat.le_refl _⟩, .spend rfl (Nat.le_refl _)⟩
  | tail _ hnext ih =>
    obtain ⟨hsound, hframe, hwindow⟩ := ih
    obtain ⟨t, pktLen, pktMeta, readings, hstep⟩ := hnext
    obtain ⟨hsound', hframe', haccount⟩ := packet_account hsound hstep
    exact ⟨hsound', ⟨hframe'.tbRate.trans hframe.tbRate, hframe'.tbDepth.trans hframe.tbDepth,
      hframe'.start.trans hframe.start, hframe.now_le.trans hframe'.now_le⟩,
      hwindow.add hsound hframe haccount⟩

theorem reachable_run (h : (tokenBucket hz destination).Reachable s)
    (hrun : Relation.ReflTransGen (tokenBucket hz destination).Next s s') :
    (tokenBucket hz destination).Reachable s' := by
  induction hrun with
  | refl => exact h
  | tail _ hnext ih => exact ih.step hnext

/-- **Main**: whatever packets come and whenever, the bucket is never more than full, and the
bytes that are forwarded are, from the beginning on, at most the depth and what the rate
allows for the time since then, and in any part of a run at most twice the depth and what the
rate allows for its time. -/
theorem rate_limited (h : (tokenBucket hz destination).Reachable s)
    (hrun : Relation.ReflTransGen (tokenBucket hz destination).Next s s') :
    s'.tb.tbTokens ≤ s'.tb.tbDepth ∧
    hz.toNat * s'.sent ≤
      hz.toNat * s'.tb.tbDepth.toNat + s'.tb.perSecond * (s'.now - s'.start) ∧
    hz.toNat * s'.sent ≤ hz.toNat * (s.sent + 2 * s.tb.tbDepth.toNat) +
      s.tb.perSecond * (s'.now - s.now) := by
  obtain ⟨hsound, -, -⟩ := reachable_tb h
  obtain ⟨hsound', hbound, hstart⟩ := reachable_tb (reachable_run h hrun)
  obtain ⟨-, -, hwindow⟩ := window hsound hrun
  have hfull := hsound.tokens_le
  have hlast := hsound'.last_le
  refine ⟨hsound'.tokens_le, ?_, ?_⟩
  · calc hz.toNat * s'.sent
        ≤ hz.toNat * (s'.sent + s'.tb.tbTokens.toNat) :=
          Nat.mul_le_mul_left _ (Nat.le_add_right _ _)
      _ ≤ _ := hbound
      _ ≤ _ := Nat.add_le_add_left (Nat.mul_le_mul_left _ (by omega)) _
  · cases hwindow with
    | spend _ hsum =>
      exact (Nat.mul_le_mul_left _ (by omega)).trans (Nat.le_add_right _ _)
    | produce hnow hsum =>
      calc hz.toNat * s'.sent
          ≤ hz.toNat * (s'.sent + s'.tb.tbTokens.toNat) :=
            Nat.mul_le_mul_left _ (Nat.le_add_right _ _)
        _ ≤ _ := hsum
        _ ≤ _ := Nat.add_le_add (Nat.mul_le_mul_left _ (by omega))
            (Nat.mul_le_mul_left _ (by omega))

/-- A full bucket of 10000 tokens that gets one every cycle, after 20000 cycles without
packets. -/
def idleBucket : TbState where
  tb := ⟨1, 10000, 10000, 0, 0⟩
  now := 0
  start := 0
  sent := 0

/-- Two packets of 10000 bytes, at once. -/
def burst : Option TbState :=
  (idleBucket.packet 1000000 5 20000 10000 {} []).bind fun s =>
    s.packet 1000000 5 20000 10000 {} [20000]

example : burst.map (fun s => (s.sent, s.now)) = some (20000, 20000) := by decide +kernel

/-- Its bytes, as many as the depth and the rate allow since the beginning. -/
theorem rate_limited_burst :
    ∃ s', burst = some s' ∧ 1000000 * s'.sent ≤
      1000000 * s'.tb.tbDepth.toNat + s'.tb.perSecond * (s'.now - s'.start) := by
  obtain ⟨s', hs'⟩ := Option.isSome_iff_exists.mp (by decide +kernel : burst.isSome = true)
  obtain ⟨s₁, hs₁, hs₂⟩ := Option.bind_eq_some_iff.mp hs'
  have hreach : (tokenBucket 1000000 5).Reachable idleBucket :=
    .init ⟨by decide, rfl, rfl, rfl⟩
  have hrun : Relation.ReflTransGen (tokenBucket 1000000 5).Next idleBucket s' :=
    (Relation.ReflTransGen.single ⟨_, _, _, _, hs₁⟩).tail ⟨_, _, _, _, hs₂⟩
  exact ⟨s', hs', (rate_limited hreach hrun).2.1⟩

end Onvm.Nf

import Onvm.Sdn.Effect

/-!
# Packets that wait for the controller

What the switch does with packets, apart from the messages: `Packets` is that part of the
state and `Packets.Next` says all that an operation can do to it. No packet is lost or
doubled, whatever the controller sends: those of one flow are on the list of the flow and
behind it on the ring, and are released in the order in which they came
(`returned_in_order`). A list has asked the controller once for each time it was released.
-/

namespace Onvm.Sdn

open Onvm.Lib Onvm.Nflib Onvm.Pkt

structure Packets (η : Type) where
  pktBufFt : η
  lists : Nat → SdnPktList
  ring : List SdnPkt
  hand : Option SdnPkt
  arrived : List SdnPkt
  passed : List SdnPkt
  missed : List SdnPkt
  returned : List SdnPkt
  asked : List Nat
  answered : List Nat

def Switch.packets {η : Type} (s : Switch η) : Packets η where
  pktBufFt := s.pktBufFt
  lists := s.lists
  ring := s.ringToSdn
  hand := s.hand
  arrived := s.trace.arrived
  passed := s.trace.passed
  missed := s.trace.missed
  returned := s.trace.returned
  asked := s.trace.asked
  answered := s.trace.answered

namespace Packets

variable {η : Type} {t : RteHash η} {rss : RteThash} {p p' : Packets η}

inductive Next (t : RteHash η) (rss : RteThash) : Packets η → Packets η → Prop where
  | none {p : Packets η} : Next t rss p p
  | pass {p : Packets η} (pkt pkt' : SdnPkt) : pkt'.mbuf = pkt.mbuf →
      Next t rss p { p with arrived := p.arrived ++ [pkt], passed := p.passed ++ [pkt'] }
  | take {p : Packets η} (pkt : SdnPkt) (k : HashKey) : p.hand = none → pkt.isFlow rss k →
      Next t rss p { p with arrived := p.arrived ++ [pkt], hand := some pkt }
  | queue {p : Packets η} (pkt : SdnPkt) : p.hand = some pkt →
      Next t rss p { p with hand := .none, ring := p.ring ++ [pkt], missed := p.missed ++ [pkt] }
  | drop {p : Packets η} (pkt pkt' : SdnPkt) : p.hand = some pkt → pkt'.mbuf = pkt.mbuf →
      Next t rss p { p with hand := .none, passed := p.passed ++ [pkt'] }
  | buffer {p : Packets η} (pkt : SdnPkt) (ring : List SdnPkt) (k : HashKey) (i : Nat) (ft : η) :
      p.ring = pkt :: ring → pkt.isFlow rss k → Finds t p.pktBufFt k i ft →
      Next t rss p { p with
        pktBufFt := ft
        ring := ring
        lists := Function.update p.lists i ((p.lists i).added pkt)
        asked := p.asked ++ if (p.lists i).flag = 0 then [i] else [] }
  | release {p : Packets η} (i : Nat) :
      Next t rss p { p with
        lists := Function.update p.lists i {}
        returned := p.returned ++ (p.lists i).pkts.map SdnPkt.released
        answered := p.answered ++ if (p.lists i).pkts = [] then [] else [i] }

end Packets

/-- **All that an operation does to packets.** -/
theorem Switch.Effect.packets {η : Type} {t : RteHash η} {rss : RteThash} {s s' : Switch η}
    (h : Effect t rss s s') : Packets.Next t rss s.packets s'.packets := by
  cases h with
  | pass pkt pkt' hsame => exact .pass pkt pkt' hsame
  | take pkt k hhand hk => exact .take pkt k hhand hk
  | queue pkt hhand => exact .queue pkt hhand
  | drop pkt pkt' hhand hsame => exact .drop pkt pkt' hhand hsame
  | read | message | leave | pollOut | wrote => exact .none
  | rule k chain i key sc l dir => exact .release l
  | buffer pkt ring k i ft xid msgs outbuf₁ outbuf sent _ hring hk hfinds =>
    exact .buffer pkt ring k i ft hring hk hfinds

/-! ## What always holds of packets -/

theorem SdnPkt.isFlow_unique {rss : RteThash} {pkt : SdnPkt} {k k' : HashKey}
    (h : pkt.isFlow rss k) (h' : pkt.isFlow rss k') : k = k' := by
  have hsame := (isFlow_iff.mp h).symm.trans (isFlow_iff.mp h')
  exact Except.ok.inj (Option.some.inj hsame)

@[simp] theorem SdnPkt.isFlow_released (rss : RteThash) (k : HashKey) (pkt : SdnPkt) :
    pkt.released.isFlow rss k = pkt.isFlow rss k := rfl

namespace Packets

variable {η : Type} {t : RteHash η} {rss : RteThash} {p p' : Packets η}

def pending (t : RteHash η) (p : Packets η) (k : HashKey) : List SdnPkt :=
  match t.lookup p.pktBufFt k with
  | none => []
  | some i => (p.lists i).pkts

structure Sound (t : RteHash η) (rss : RteThash) (p : Packets η) : Prop where
  /-- A list has packets of one flow, which it belongs to. -/
  owned : ∀ i, ∀ pkt ∈ (p.lists i).pkts, ∃ k, pkt.isFlow rss k ∧ t.lookup p.pktBufFt k = some i
  flag : ∀ i, (p.lists i).flag = 0 ↔ (p.lists i).pkts = []
  counter : ∀ i, (p.lists i).counter = (p.lists i).pkts.length
  given : ((p.passed ++ p.missed ++ p.hand.toList).map SdnPkt.mbuf).Perm
    (p.arrived.map SdnPkt.mbuf)
  keyed : ∀ pkt ∈ p.missed ++ p.hand.toList, ∃ k, pkt.isFlow rss k
  order : ∀ k, (p.missed.filter (·.isFlow rss k)).map SdnPkt.released =
    p.returned.filter (·.isFlow rss k) ++
      (p.pending t k ++ p.ring.filter (·.isFlow rss k)).map SdnPkt.released
  asked : ∀ i, p.asked.count i = p.answered.count i + if (p.lists i).pkts = [] then 0 else 1

theorem Sound.filter_list (ht : t.Lawful) (h : p.Sound t rss) (i : Nat) (k : HashKey) :
    (p.lists i).pkts.filter (·.isFlow rss k) =
      if t.lookup p.pktBufFt k = some i then (p.lists i).pkts else [] := by
  split
  · rename_i hi
    refine List.filter_eq_self.mpr fun pkt hpkt => ?_
    obtain ⟨k', hk', hi'⟩ := h.owned i pkt hpkt
    rwa [ht.index_unique _ _ _ _ hi hi']
  · rename_i hi
    refine List.filter_eq_nil_iff.mpr fun pkt hpkt hk => ?_
    obtain ⟨k', hk', hi'⟩ := h.owned i pkt hpkt
    rw [SdnPkt.isFlow_unique hk hk'] at hi
    exact hi hi'

theorem Sound.pending_eq (ht : t.Lawful) (h : p.Sound t rss) {k : HashKey} {i : Nat} {ft : η}
    (hfinds : Finds t p.pktBufFt k i ft) : p.pending t k = (p.lists i).pkts := by
  obtain ⟨hself, hother⟩ := hfinds.lookup ht
  unfold pending
  rcases hfinds with ⟨hi, -⟩ | ⟨hnone, -⟩
  · rw [hi]
  · rw [hnone]
    refine (List.eq_nil_iff_forall_not_mem.mpr fun pkt hpkt => ?_).symm
    obtain ⟨k', -, hi'⟩ := h.owned i pkt hpkt
    by_cases hk : k' = k
    · rw [hk, hnone] at hi'
      cases hi'
    · rw [← hother k' hk] at hi'
      exact hk (ht.index_unique _ _ _ _ hi' hself)

theorem Sound.pass (h : p.Sound t rss) {pkt pkt' : SdnPkt} (hsame : pkt'.mbuf = pkt.mbuf) :
    Sound t rss { p with arrived := p.arrived ++ [pkt], passed := p.passed ++ [pkt'] } where
  owned := h.owned
  flag := h.flag
  counter := h.counter
  keyed := h.keyed
  order := h.order
  asked := h.asked
  given := by
    have hgiven := (h.given.append_left [pkt.mbuf]).trans List.perm_append_comm
    simp only [List.map_append, List.map_cons, List.map_nil, hsame, List.append_assoc] at hgiven ⊢
    exact List.perm_middle.trans hgiven

theorem Sound.take (h : p.Sound t rss) {pkt : SdnPkt} {k : HashKey} (hhand : p.hand = none)
    (hk : pkt.isFlow rss k) :
    Sound t rss { p with arrived := p.arrived ++ [pkt], hand := some pkt } where
  owned := h.owned
  flag := h.flag
  counter := h.counter
  order := h.order
  asked := h.asked
  given := by
    have hgiven := h.given.append_right [pkt.mbuf]
    rw [hhand] at hgiven
    simpa using hgiven
  keyed := by
    have hkeyed := h.keyed
    rw [hhand, Option.toList_none, List.append_nil] at hkeyed
    intro pkt' hpkt'
    rcases List.mem_append.mp hpkt' with hmissed | hsame
    · exact hkeyed pkt' hmissed
    · rw [List.mem_singleton.mp hsame]
      exact ⟨k, hk⟩

theorem Sound.queue (h : p.Sound t rss) {pkt : SdnPkt} (hhand : p.hand = some pkt) :
    Sound t rss
      { p with hand := none, ring := p.ring ++ [pkt], missed := p.missed ++ [pkt] } where
  owned := h.owned
  flag := h.flag
  counter := h.counter
  asked := h.asked
  given := by
    have hgiven := h.given
    rw [hhand] at hgiven
    simpa using hgiven
  keyed := by
    have hkeyed := h.keyed
    rw [hhand] at hkeyed
    simpa using hkeyed
  order k := by
    have horder := h.order k
    show ((p.missed ++ [pkt]).filter _).map _ =
      _ ++ (p.pending t k ++ (p.ring ++ [pkt]).filter _).map _
    simp only [List.filter_append, List.map_append, horder, List.append_assoc]

theorem Sound.drop (h : p.Sound t rss) {pkt pkt' : SdnPkt} (hhand : p.hand = some pkt)
    (hsame : pkt'.mbuf = pkt.mbuf) :
    Sound t rss { p with hand := none, passed := p.passed ++ [pkt'] } where
  owned := h.owned
  flag := h.flag
  counter := h.counter
  order := h.order
  asked := h.asked
  given := by
    have hgiven := h.given
    rw [hhand] at hgiven
    simp only [List.map_append, List.map_cons, List.map_nil, hsame, Option.toList_some,
      Option.toList_none, List.append_nil, List.append_assoc] at hgiven ⊢
    exact (List.perm_append_comm.append_left _).trans hgiven
  keyed := by
    have hkeyed := h.keyed
    rw [hhand] at hkeyed
    intro pkt' hpkt'
    rw [Option.toList_none, List.append_nil] at hpkt'
    exact hkeyed pkt' (List.mem_append_left _ hpkt')

def buffered (p : Packets η) (pkt : SdnPkt) (ring : List SdnPkt) (i : Nat) (ft : η) : Packets η :=
  { p with
    pktBufFt := ft
    ring := ring
    lists := Function.update p.lists i ((p.lists i).added pkt)
    asked := p.asked ++ if (p.lists i).flag = 0 then [i] else [] }

theorem lists_buffered (p : Packets η) (pkt : SdnPkt) (ring : List SdnPkt) (i : Nat) (ft : η)
    (j : Nat) : (p.buffered pkt ring i ft).lists j =
      if j = i then (p.lists i).added pkt else p.lists j := Function.update_apply ..

theorem Sound.pending_buffered (ht : t.Lawful) (h : p.Sound t rss) {pkt : SdnPkt}
    {ring : List SdnPkt} {k : HashKey} {i : Nat} {ft : η} (hfinds : Finds t p.pktBufFt k i ft)
    (k' : HashKey) : (p.buffered pkt ring i ft).pending t k' =
      p.pending t k' ++ if k' = k then [pkt] else [] := by
  obtain ⟨hself, hother⟩ := hfinds.lookup ht
  have hpend := h.pending_eq ht hfinds
  by_cases hk : k' = k
  · subst hk
    rw [hpend, pending]
    show (match t.lookup ft k' with
      | none => []
      | some j => ((p.buffered pkt ring i ft).lists j).pkts) = _
    simp [hself, lists_buffered, SdnPktList.added]
  · rw [if_neg hk, List.append_nil]
    show (match t.lookup ft k' with
      | none => []
      | some j => ((p.buffered pkt ring i ft).lists j).pkts) = _
    rw [hother k' hk, pending]
    cases hj : t.lookup p.pktBufFt k' with
    | none => rfl
    | some j =>
      have hne : j ≠ i := by
        rintro rfl
        exact hk (ht.index_unique _ _ _ _ ((hother k' hk).trans hj) hself)
      simp only [lists_buffered, if_neg hne]

theorem Sound.buffer (ht : t.Lawful) (h : p.Sound t rss) {pkt : SdnPkt} {ring : List SdnPkt}
    {k : HashKey} {i : Nat} {ft : η} (hring : p.ring = pkt :: ring) (hk : pkt.isFlow rss k)
    (hfinds : Finds t p.pktBufFt k i ft) : Sound t rss (p.buffered pkt ring i ft) where
  given := h.given
  keyed := h.keyed
  owned j pkt' hpkt' := by
    have hold : ∀ j', pkt' ∈ (p.lists j').pkts → ∃ k', pkt'.isFlow rss k' ∧
        t.lookup ft k' = some j' := fun j' hmem => by
      obtain ⟨k', hk', hi'⟩ := h.owned j' pkt' hmem
      exact ⟨k', hk', hfinds.keep ht hi'⟩
    rw [lists_buffered] at hpkt'
    split at hpkt'
    · rename_i hj
      rcases List.mem_append.mp hpkt' with hmem | hnew
      · exact hj ▸ hold i hmem
      · rw [List.mem_singleton.mp hnew]
        exact ⟨k, hk, hj ▸ (hfinds.lookup ht).1⟩
    · exact hold j hpkt'
  flag j := by
    rw [lists_buffered]
    split
    · simp only [SdnPktList.added, List.append_eq_nil_iff, List.cons_ne_self, and_false, iff_false]
      split
      · exact Nat.one_ne_zero
      · assumption
    · exact h.flag j
  counter j := by
    rw [lists_buffered]
    split
    · simp [SdnPktList.added, h.counter]
    · exact h.counter j
  order k' := by
    have horder := h.order k'
    rw [hring, List.filter_cons] at horder
    rw [h.pending_buffered ht hfinds]
    show (p.missed.filter _).map _ = p.returned.filter _ ++ (_ ++ ring.filter _).map _
    rw [horder]
    by_cases hkk : k' = k
    · subst hkk
      rw [if_pos hk, if_pos rfl, List.append_assoc]
      rfl
    · have hno : ¬ pkt.isFlow rss k' := fun hk' => hkk (SdnPkt.isFlow_unique hk' hk)
      rw [if_neg hno, if_neg hkk, List.append_nil]
  asked j := by
    have hasked := h.asked j
    have hflag := h.flag i
    show (p.asked ++ if (p.lists i).flag = 0 then [i] else []).count j = p.answered.count j + _
    rw [lists_buffered, List.count_append, hasked]
    by_cases hj : j = i
    · subst hj
      by_cases hnil : (p.lists j).pkts = []
      · simp [SdnPktList.added, hnil, hflag.mpr hnil]
      · have hne : ¬ (p.lists j).flag = 0 := fun h0 => hnil (hflag.mp h0)
        simp [SdnPktList.added, hnil, hne]
    · have hcount : (if (p.lists i).flag = 0 then [i] else []).count j = 0 := by
        split
        · simp [Ne.symm hj]
        · rfl
      rw [hcount, if_neg hj, Nat.add_zero]

def flushed (p : Packets η) (i : Nat) : Packets η :=
  { p with
    lists := Function.update p.lists i {}
    returned := p.returned ++ (p.lists i).pkts.map SdnPkt.released
    answered := p.answered ++ if (p.lists i).pkts = [] then [] else [i] }

theorem lists_flushed (p : Packets η) (i j : Nat) :
    (p.flushed i).lists j = if j = i then {} else p.lists j := Function.update_apply ..

theorem pending_flushed (p : Packets η) (i : Nat) (k : HashKey) :
    (p.flushed i).pending t k = if t.lookup p.pktBufFt k = some i then [] else p.pending t k := by
  unfold pending
  show (match t.lookup p.pktBufFt k with
    | none => []
    | some j => ((p.flushed i).lists j).pkts) = _
  cases t.lookup p.pktBufFt k with
  | none => rfl
  | some j =>
    simp only [lists_flushed, Option.some.injEq]
    split <;> rfl

theorem Sound.release (ht : t.Lawful) (h : p.Sound t rss) (i : Nat) :
    Sound t rss (p.flushed i) where
  given := h.given
  keyed := h.keyed
  owned j pkt hpkt := by
    rw [lists_flushed] at hpkt
    split at hpkt
    · cases hpkt
    · exact h.owned j pkt hpkt
  flag j := by
    rw [lists_flushed]
    split
    · exact iff_of_true rfl rfl
    · exact h.flag j
  counter j := by
    rw [lists_flushed]
    split
    · rfl
    · exact h.counter j
  order k := by
    have horder := h.order k
    have hlist := h.filter_list ht i k
    rw [pending_flushed]
    show (p.missed.filter _).map _ =
      (p.returned ++ (p.lists i).pkts.map SdnPkt.released).filter _ ++ (_ ++ p.ring.filter _).map _
    have hreleased : ((p.lists i).pkts.map SdnPkt.released).filter (·.isFlow rss k) =
        ((p.lists i).pkts.filter (·.isFlow rss k)).map SdnPkt.released := List.filter_map ..
    rw [horder, List.filter_append, hreleased, hlist]
    split
    · rename_i hi
      have hpend : p.pending t k = (p.lists i).pkts := by
        unfold pending
        rw [hi]
      rw [hpend, List.map_append, List.nil_append, List.append_assoc]
    · rw [List.map_nil, List.append_nil]
  asked j := by
    have hasked := h.asked j
    show p.asked.count j =
      (p.answered ++ if (p.lists i).pkts = [] then [] else [i]).count j + _
    rw [lists_flushed, List.count_append, hasked]
    by_cases hj : j = i
    · subst hj
      by_cases hnil : (p.lists j).pkts = [] <;> simp [hnil]
    · have hcount : (if (p.lists i).pkts = [] then [] else [i]).count j = 0 := by
        split
        · rfl
        · simp [Ne.symm hj]
      rw [hcount, if_neg hj, Nat.add_zero]

/-- **One operation** keeps it. -/
theorem Next.sound (ht : t.Lawful) (hn : Next t rss p p') (h : p.Sound t rss) :
    p'.Sound t rss := by
  cases hn with
  | none => exact h
  | pass pkt pkt' hsame => exact h.pass hsame
  | take pkt k hhand hk => exact h.take hhand hk
  | queue pkt hhand => exact h.queue hhand
  | drop pkt pkt' hhand hsame => exact h.drop hhand hsame
  | buffer pkt ring k i ft hring hk hfinds => exact h.buffer ht hring hk hfinds
  | release i => exact h.release ht i

end Packets

variable {η : Type} {t : RteHash η} {rss : RteThash} {junk : Nat → Byte} {s : Switch η}

theorem Switch.Init.sound (h : s.Init t) : s.packets.Sound t rss := by
  obtain ⟨-, -, -, -, -, hft, hlists, hring, -, -, hhand, htrace⟩ := h
  have hpend : ∀ k, s.packets.pending t k = [] := fun k => by
    unfold Packets.pending
    show (match t.lookup s.pktBufFt k with | none => [] | some i => (s.packets.lists i).pkts) = []
    rw [hft]
  refine ⟨fun i pkt hpkt => ?_, fun i => ?_, fun i => ?_, ?_, fun pkt hpkt => ?_, fun k => ?_,
    fun i => ?_⟩
  · simp [Switch.packets, hlists] at hpkt
  · simp [Switch.packets, hlists]
  · simp [Switch.packets, hlists]
  · simp [Switch.packets, hhand, htrace]
  · simp [Switch.packets, hhand, htrace] at hpkt
  · rw [hpend]
    simp [Switch.packets, hring, htrace]
  · simp [Switch.packets, hlists, htrace]

theorem reachable_sound (ht : t.Lawful) (h : (switch t rss junk).Reachable s) :
    s.packets.Sound t rss :=
  h.induct (P := fun s => s.packets.Sound t rss) (fun _ => Switch.Init.sound)
    fun _ _ _ hs ⟨_, hstep⟩ => (Switch.step_effect hstep).packets.sound ht hs

end Onvm.Sdn

import Onvm.Sdn.Switch

/-!
# What an operation of the switch does

`Effect` says once what each operation does to the state and under which condition, with the
calls into the buffers and tables already resolved. What holds of the connection, of the
packets and of the flow directory rests on it and not on the operations.
-/

namespace Onvm.Sdn

open Onvm.Lib Onvm.Nflib Onvm.Pkt

def SdnPkt.isFlow (rss : RteThash) (k : HashKey) (pkt : SdnPkt) : Bool :=
  match FlowDir.hashKey rss (.pkt pkt.mbuf) with
  | some (.ok k') => k' = k
  | _ => false

theorem SdnPkt.isFlow_iff {rss : RteThash} {pkt : SdnPkt} {k : HashKey} :
    pkt.isFlow rss k ↔ FlowDir.hashKey rss (.pkt pkt.mbuf) = some (.ok k) := by
  unfold isFlow
  split
  · rename_i h
    simp [h]
  · rename_i h
    simpa using fun hk => h k hk

/-- The list after a packet was put on it and the controller was asked. -/
def SdnPktList.added (list : SdnPktList) (pkt : SdnPkt) : SdnPktList where
  pkts := list.pkts ++ [pkt]
  flag := if list.flag = 0 then 1 else list.flag
  counter := list.counter + 1

variable {η : Type}

/-- The list of a flow, new if need be. -/
def Finds (t : RteHash η) (ft : η) (k : HashKey) (i : Nat) (ft' : η) : Prop :=
  t.lookup ft k = some i ∧ ft' = ft ∨ t.lookup ft k = none ∧ t.add ft k = (some i, ft')

theorem Finds.lookup {t : RteHash η} {ft ft' : η} {k : HashKey} {i : Nat} (ht : t.Lawful)
    (h : Finds t ft k i ft') :
    t.lookup ft' k = some i ∧ ∀ k', k' ≠ k → t.lookup ft' k' = t.lookup ft k' := by
  rcases h with ⟨hi, rfl⟩ | ⟨-, hadd⟩
  · exact ⟨hi, fun _ _ => rfl⟩
  · have hself := ht.lookup_add ft k
    have hother := ht.lookup_add_of_ne ft k
    rw [hadd] at hself hother
    exact ⟨hself, hother⟩

theorem Finds.keep {t : RteHash η} {ft ft' : η} {k k' : HashKey} {i j : Nat} (ht : t.Lawful)
    (h : Finds t ft k i ft') (hj : t.lookup ft k' = some j) : t.lookup ft' k' = some j := by
  by_cases hk : k' = k
  · subst hk
    rcases h with ⟨-, rfl⟩ | ⟨hnone, -⟩
    · exact hj
    · rw [hnone] at hj
      cases hj
  · exact ((h.lookup ht).2 k' hk).trans hj

namespace Switch

/-- A message is at the head of `inbuf`, with `tail` behind it, and this is the reaction. The
buffers are as they are when it was pulled and the answer was pushed. -/
structure Reads (s : Switch η) (msg tail : List Byte) (r : Reaction) (inbuf outbuf : Msgbuf) :
    Prop where
  io : ∃ pollOut, s.io = .reading pollOut
  inbuf : s.inbuf.bytes = msg ++ inbuf.bytes
  size : ofp.size s.inbuf.bytes = some msg.length
  react : react s.id s.switchConfig (msg ++ tail) = some r
  outbuf : outbuf.bytes = s.outbuf.bytes ++ r.answer.getD []

def reacted (s : Switch η) (msg : List Byte) (r : Reaction) (inbuf outbuf : Msgbuf) : Switch η :=
  { s with
    inbuf := inbuf
    outbuf := outbuf
    switchStatus := if r.ready then .readyToSend else s.switchStatus
    switchConfig := r.switchConfig
    trace := { s.trace with
      handled := s.trace.handled ++ [msg]
      answers := s.trace.answers ++ r.answer.toList
      made := s.trace.made ++ r.answer.toList } }

def ruled (s : Switch η) (dir : FlowDir η) (i key sc : Nat) (k : HashKey)
    (chain : OnvmServiceChain) : Switch η :=
  { s with
    dir := setEntry dir i key sc chain
    trace := { s.trace with rules := Function.update s.trace.rules k (some chain) } }

/-- A packet from the ring is on the list of its flow, and the controller is asked with these
messages. -/
def buffered (s : Switch η) (pkt : SdnPkt) (i : Nat) (ft : η) (xid : BitVec 32)
    (msgs : List (List Byte)) (outbuf : Msgbuf) : Switch η :=
  { s with
    outbuf := outbuf
    xid := xid
    pktBufFt := ft
    lists := Function.update s.lists i ((s.lists i).added pkt)
    trace := { s.trace with
      asked := s.trace.asked ++ if (s.lists i).flag = 0 then [i] else []
      made := s.trace.made ++ msgs } }

/-- `datapath_handle_write` is over, with these bytes written. -/
def wrote (s : Switch η) (outbuf : Msgbuf) (sent : List Byte) : Switch η :=
  { s with
    outbuf := outbuf
    io := .poll
    trace := { s.trace with sent := s.trace.sent ++ sent } }

inductive Effect (t : RteHash η) (rss : RteThash) : Switch η → Switch η → Prop where
  | pass {s : Switch η} (pkt pkt' : SdnPkt) : pkt'.mbuf = pkt.mbuf →
      Effect t rss s { s with trace := { s.trace with
        arrived := s.trace.arrived ++ [pkt], passed := s.trace.passed ++ [pkt'] } }
  | take {s : Switch η} (pkt : SdnPkt) (k : HashKey) : s.hand = none → pkt.isFlow rss k →
      Effect t rss s { s with
        hand := some pkt
        trace := { s.trace with arrived := s.trace.arrived ++ [pkt] } }
  | queue {s : Switch η} (pkt : SdnPkt) : s.hand = some pkt →
      Effect t rss s { s with
        hand := none
        ringToSdn := s.ringToSdn ++ [pkt]
        trace := { s.trace with missed := s.trace.missed ++ [pkt] } }
  | drop {s : Switch η} (pkt pkt' : SdnPkt) : s.hand = some pkt → pkt'.mbuf = pkt.mbuf →
      Effect t rss s { s with
        hand := none
        trace := { s.trace with passed := s.trace.passed ++ [pkt'] } }
  | read {s : Switch η} (data : List Byte) (inbuf : Msgbuf) (pollOut : Bool) :
      inbuf.bytes = s.inbuf.bytes ++ data →
      Effect t rss s { s with
        inbuf := inbuf
        io := .reading pollOut
        trace := { s.trace with received := s.trace.received ++ data } }
  | message {s : Switch η} {msg tail : List Byte} {r : Reaction} {inbuf outbuf : Msgbuf} :
      s.Reads msg tail r inbuf outbuf → ¬ IsRule (msg ++ tail) →
      Effect t rss s (s.reacted msg r inbuf outbuf)
  | rule {s : Switch η} {msg tail : List Byte} {r : Reaction} {inbuf outbuf : Msgbuf}
      (k : HashKey) (chain : OnvmServiceChain) (i key sc l : Nat) (dir : FlowDir η) :
      s.Reads msg tail r inbuf outbuf → IsRule (msg ++ tail) →
      ruleOf rss (msg ++ tail) = some (k, chain) → s.dir.keys key = false →
      s.dir.chains sc = none → takeEntry t rss s.dir k.key = some (i, dir) →
      Effect t rss s
        (((s.reacted msg r inbuf outbuf).ruled dir i key sc k chain).sdnPktListFlush l)
  | leave {s : Switch η} (io : IoPc) : ¬ ofp.Whole s.inbuf.bytes → Effect t rss s { s with io := io }
  | pollOut {s : Switch η} : s.io = .poll → Effect t rss s { s with io := .writing }
  | wrote {s : Switch η} (outbuf : Msgbuf) (sent : List Byte) : s.io = .writing →
      sent ++ outbuf.bytes = s.outbuf.bytes → Effect t rss s (s.wrote outbuf sent)
  | buffer {s : Switch η} (pkt : SdnPkt) (ring : List SdnPkt) (k : HashKey) (i : Nat) (ft : η)
      (xid : BitVec 32) (msgs : List (List Byte)) (outbuf₁ outbuf : Msgbuf) (sent : List Byte) :
      s.io = .writing → s.ringToSdn = pkt :: ring → pkt.isFlow rss k → Finds t s.pktBufFt k i ft →
      (∀ msg ∈ msgs, ofp.Sized msg) → outbuf₁.bytes = s.outbuf.bytes ++ msgs.flatten →
      sent ++ outbuf.bytes = outbuf₁.bytes →
      Effect t rss s
        ((({ s with ringToSdn := ring } : Switch η).buffered pkt i ft xid msgs outbuf₁).wrote
          outbuf sent)

variable {t : RteHash η} {rss : RteThash} {junk : Nat → Byte} {s s' : Switch η}

/-! ## The packet handler -/

/-- A packet without an entry in the directory has a key. -/
theorem key_of_miss {dir : FlowDir η} {mbuf : RteMbuf}
    (h : dir.onvmFlowDirGet t rss (.pkt mbuf) = some (.error (-eNoent))) :
    ∃ k, FlowDir.hashKey rss (.pkt mbuf) = some (.ok k) := by
  simp only [FlowDir.onvmFlowDirGet, Option.bind_eq_bind, Option.bind_eq_some_iff] at h
  obtain ⟨key, hkey, h⟩ := h
  cases key with
  | ok k => exact ⟨k, hkey⟩
  | error err =>
    simp only [Option.some.injEq, Except.error.injEq] at h
    simp only [FlowDir.hashKey, Option.bind_eq_bind, Option.bind_eq_some_iff] at hkey
    obtain ⟨key, hfill, hkey⟩ := hkey
    cases key with
    | ok k => cases hkey
    | error err' =>
      cases hkey
      have herr := RteMbuf.fillKey_error hfill
      rw [herr] at h
      exact absurd h (by decide)

theorem look_effect {pkt : SdnPkt} (h : s.look t rss pkt = some s') : Effect t rss s s' := by
  unfold look at h
  split at h
  · cases h
  · rename_i hhand
    obtain ⟨isIpv4, -, h⟩ := Option.bind_eq_some_iff.mp h
    split at h
    · obtain ⟨found, hfound, h⟩ := Option.bind_eq_some_iff.mp h
      cases found with
      | ok i =>
        cases h
        exact .pass pkt _ rfl
      | error err =>
        simp only at h
        split at h
        · rename_i herr
          cases h
          obtain ⟨k, hk⟩ := key_of_miss (herr ▸ hfound)
          exact .take pkt k (Option.not_isSome_iff_eq_none.mp hhand) (SdnPkt.isFlow_iff.mpr hk)
        · cases h
    · cases h
      exact .pass pkt _ rfl

theorem miss_effect (h : s.miss = some s') : Effect t rss s s' := by
  obtain ⟨pkt, hhand, h⟩ := Option.bind_eq_some_iff.mp h
  split at h
  · cases h
    exact .queue pkt hhand
  · cases h
    exact .drop pkt _ hhand rfl

/-! ## Messages from the controller -/

theorem read_effect {data : Option (List Byte)} {pollOut : Bool}
    (h : s.read junk data pollOut = some s') : Effect t rss s s' := by
  unfold read at h
  split at h
  · obtain ⟨⟨count, inbuf⟩, hread, h⟩ := Option.bind_eq_some_iff.mp h
    simp only at h
    split at h
    · cases h
    · cases h
      exact .read (s.inbuf.got data) inbuf pollOut (Msgbuf.bytes_read hread).1
  · cases h

theorem push_eq {msg : List Byte} (h : s.push junk msg = some s') :
    ∃ outbuf : Msgbuf, outbuf.bytes = s.outbuf.bytes ++ msg ∧ s' = { s with
      outbuf := outbuf
      trace := { s.trace with made := s.trace.made ++ [msg] } } := by
  obtain ⟨outbuf, hpush, h⟩ := Option.bind_eq_some_iff.mp h
  cases h
  exact ⟨outbuf, Msgbuf.bytes_push hpush, rfl⟩

theorem apply_eq {r : Reaction} (h : s.apply junk r = some s') :
    ∃ outbuf : Msgbuf, outbuf.bytes = s.outbuf.bytes ++ r.answer.getD [] ∧
      s' = { s.configure r with
        outbuf := outbuf
        trace := { s.trace with
          answers := s.trace.answers ++ r.answer.toList
          made := s.trace.made ++ r.answer.toList } } := by
  unfold apply at h
  split at h
  · rename_i hanswer
    cases h
    exact ⟨s.outbuf, by simp [hanswer], by simp [configure, hanswer]⟩
  · rename_i answer hanswer
    obtain ⟨outbuf, hbytes, rfl⟩ := push_eq h
    exact ⟨outbuf, by rw [hbytes, hanswer]; rfl, by rw [hanswer]; rfl⟩

/-- A FLOW_MOD without a buffer number does nothing, another makes a rule. -/
theorem flowMod_eq {mem : List Byte} {key sc : Nat} (h : s.flowMod t rss mem key sc = some s') :
    (ntohl mem 64 = some (-1) ∧ s' = s) ∨
    ∃ k chain i dir l, ntohl mem 64 ≠ some (-1) ∧ ruleOf rss mem = some (k, chain) ∧
      s.dir.keys key = false ∧ s.dir.chains sc = none ∧
      takeEntry t rss s.dir k.key = some (i, dir) ∧
      s' = (s.ruled dir i key sc k chain).sdnPktListFlush l := by
  obtain ⟨bufferId, hbuffer, h⟩ := Option.bind_eq_some_iff.mp h
  split at h
  · rename_i hnone
    cases h
    exact .inl ⟨hnone ▸ hbuffer, rfl⟩
  · rename_i hsome
    split at h
    · cases h
    · rename_i hfree
      obtain ⟨hkey, hsc⟩ := not_or.mp hfree
      obtain ⟨fk, hfk, h⟩ := Option.bind_eq_some_iff.mp h
      obtain ⟨length, hlength, h⟩ := Option.bind_eq_some_iff.mp h
      obtain ⟨chain, hchain, h⟩ := Option.bind_eq_some_iff.mp h
      obtain ⟨⟨i, dir⟩, htake, h⟩ := Option.bind_eq_some_iff.mp h
      have hrule : ruleOf rss mem = some (⟨fk, fk.onvmSoftrss rss⟩, chain) := by
        rw [ruleOf, hfk, Option.bind_eq_bind, Option.bind_some, hlength, Option.bind_eq_bind,
          Option.bind_some, hchain, Option.bind_eq_bind, Option.bind_some]
      have hne : ntohl mem 64 ≠ some (-1) := fun hm =>
        hsome (Option.some.inj (hbuffer.symm.trans hm))
      refine .inr ⟨_, chain, i, dir, bufferId.toNat, hne, hrule, Bool.eq_false_iff.mpr hkey,
        Option.not_isSome_iff_eq_none.mp hsc, htake, ?_⟩
      simp only at h
      split at h
      · cases h
        rfl
      · cases h

theorem size_peeked {m : Msgbuf} {length : BitVec 16} (h8 : sizeofOfpHeader ≤ m.countBuffered)
    (h : ntohs m.peeked 2 = some length) : ofp.size m.bytes = some length.toNat := by
  have hlen := Msgbuf.length_bytes m
  have hread : ntohs m.bytes 2 = some length := by
    rw [Msgbuf.peeked_eq] at h
    obtain ⟨x, hx⟩ := load16_inside (b := m.bytes) (i := 2) (by
      unfold sizeofOfpHeader at h8
      omega)
    have hshort : ntohs m.bytes 2 = some (bswap16 x) := by rw [ntohs, hx, Option.map_some]
    rw [hshort, ← h, ntohs_append _ hshort]
  show ofpSize _ = _
  rw [ofpSize, if_pos (hlen ▸ h8), hread, Option.map_some]

theorem reads_pull {pollOut : Bool} {length : BitVec 16} {r : Reaction} {outbuf : Msgbuf}
    (hio : s.io = .reading pollOut) (h8 : sizeofOfpHeader ≤ s.inbuf.countBuffered)
    (hlength : ntohs s.inbuf.peeked 2 = some length) (hle : length.toNat ≤ s.inbuf.countBuffered)
    (hr : react s.id s.switchConfig s.inbuf.peeked = some r)
    (hout : outbuf.bytes = s.outbuf.bytes ++ r.answer.getD []) :
    s.Reads (s.inbuf.peeked.take length.toNat) (s.inbuf.peeked.drop length.toNat) r
      (s.inbuf.msgbufPull length.toNat).2.2 outbuf := by
  have hlen := Msgbuf.length_bytes s.inbuf
  have hmsg : s.inbuf.peeked.take length.toNat = s.inbuf.bytes.take length.toNat := by
    rw [Msgbuf.peeked_eq, List.take_append_of_le_length (by omega)]
  refine ⟨⟨pollOut, hio⟩, ?_, ?_, ?_, hout⟩
  · rw [hmsg, (Msgbuf.bytes_pull s.inbuf length.toNat).2, List.take_append_drop]
  · rw [hmsg, List.length_take_of_le (by omega)]
    exact size_peeked h8 hlength
  · rw [List.take_append_drop]
    exact hr

theorem parse_effect {key sc : Nat} (h : s.parse t rss junk key sc = some s') :
    Effect t rss s s' := by
  unfold parse at h
  have hlen := Msgbuf.length_bytes s.inbuf
  split at h
  · rename_i pollOut hio
    split at h
    · rename_i h8
      obtain ⟨length, hlength, h⟩ := Option.bind_eq_some_iff.mp h
      have hsize := size_peeked h8 hlength
      split at h
      · rename_i hshort
        cases h
        refine .leave _ ?_
        rintro ⟨n, hn, hle⟩
        have hn' : length.toNat = n := Option.some.inj (hsize.symm.trans hn)
        have hle' : n ≤ s.inbuf.bytes.length := hle
        omega
      · rename_i hlong
        obtain ⟨r, hr, h⟩ := Option.bind_eq_some_iff.mp h
        obtain ⟨s₁, hs₁, h⟩ := Option.bind_eq_some_iff.mp h
        obtain ⟨outbuf, hout, rfl⟩ := apply_eq hs₁
        have hreads := reads_pull hio h8 hlength (Nat.le_of_not_lt hlong) hr hout
        have hmem := List.take_append_drop length.toNat s.inbuf.peeked
        split at h
        · rename_i hflow
          rcases flowMod_eq h with ⟨hnone, rfl⟩ |
            ⟨k, chain, i, dir, l, hsome, hrule, hkey, hsc, htake, rfl⟩
          · refine .message hreads ?_
            rw [hmem]
            exact fun hrule => hrule.2 hnone
          · refine .rule k chain i key sc l dir hreads ?_ ?_ hkey hsc htake
            · rw [hmem]
              exact ⟨hflow, hsome⟩
            · rw [hmem]
              exact hrule
        · rename_i hother
          cases h
          refine .message hreads ?_
          rw [hmem]
          exact fun hrule => hother hrule.1
    · rename_i hshort
      cases h
      refine .leave _ ?_
      rintro ⟨n, hn, -⟩
      have hnone : ofpSize s.inbuf.bytes = none := if_neg (hlen ▸ hshort)
      exact absurd (hnone.symm.trans hn) nofun
  · cases h

/-! ## Messages to the controller -/

theorem findList_eq {pkt : SdnPkt} {i : Nat} (h : s.findList t rss pkt = some (i, s')) :
    ∃ k ft, pkt.isFlow rss k ∧ Finds t s.pktBufFt k i ft ∧ s' = { s with pktBufFt := ft } := by
  obtain ⟨key, hkey, h⟩ := Option.bind_eq_some_iff.mp h
  cases key with
  | error err => cases h
  | ok k =>
    refine ⟨k, ?_⟩
    simp only at h
    split at h
    · rename_i i' hi
      cases h
      exact ⟨s.pktBufFt, SdnPkt.isFlow_iff.mpr hkey, .inl ⟨hi, rfl⟩, rfl⟩
    · rename_i hnone
      obtain ⟨i', hadd, h⟩ := Option.bind_eq_some_iff.mp h
      cases h
      exact ⟨(t.add s.pktBufFt k).2, SdnPkt.isFlow_iff.mpr hkey,
        .inr ⟨hnone, Prod.ext hadd rfl⟩, rfl⟩

/-- A packet is put on a list, and a PACKET_IN may be made. -/
theorem buffer_eq {pkt : SdnPkt} (h : s.buffer t rss junk pkt = some s') :
    ∃ k i ft xid msgs outbuf, pkt.isFlow rss k ∧ Finds t s.pktBufFt k i ft ∧
      (∀ msg ∈ msgs, ofp.Sized msg) ∧ outbuf.bytes = s.outbuf.bytes ++ msgs.flatten ∧
      s' = s.buffered pkt i ft xid msgs outbuf := by
  obtain ⟨⟨i, s₁⟩, hs₁, h⟩ := Option.bind_eq_some_iff.mp h
  obtain ⟨k, ft, hk, hfinds, rfl⟩ := findList_eq hs₁
  simp only at h
  split at h
  · rename_i hflag
    have hflag' : (s.lists i).flag = 0 := hflag
    obtain ⟨outbuf, hbytes, rfl⟩ := push_eq h
    have hsized := (answers_packetIn s.xid (BitVec.ofNat 32 i)
      (BitVec.ofNat 16 pkt.pktMeta.src) pkt.length_getHeader).sized
    refine ⟨k, i, ft, s.xid + 1, [makePacketIn s.xid (BitVec.ofNat 32 i)
      (BitVec.ofNat 16 pkt.pktMeta.src) pkt.getHeader], outbuf, hk, hfinds, fun msg hmsg => ?_,
      ?_, ?_⟩
    · rwa [List.mem_singleton.mp hmsg]
    · rw [hbytes, List.flatten_singleton]
    · simp only [buffered, SdnPktList.added, hflag', if_true]
      rfl
  · rename_i hflag
    have hflag' : ¬ (s.lists i).flag = 0 := hflag
    cases h
    refine ⟨k, i, ft, s.xid, [], s.outbuf, hk, hfinds, fun msg hmsg => ?_, ?_, ?_⟩
    · cases hmsg
    · rw [List.flatten_nil, List.append_nil]
    · simp only [buffered, SdnPktList.added, hflag', if_false, List.append_nil]
      rfl

theorem flush_eq (s : Switch η) (accepted : Option Nat) :
    ∃ outbuf sent, sent ++ outbuf.bytes = s.outbuf.bytes ∧ s.flush accepted = { s with
      outbuf := outbuf
      trace := { s.trace with sent := s.trace.sent ++ sent } } := by
  unfold flush
  split
  · exact ⟨_, _, Msgbuf.bytes_write s.outbuf 0 accepted, rfl⟩
  · exact ⟨s.outbuf, [], rfl, by simp⟩

theorem write_effect {accepted : Option Nat} (h : s.write t rss junk accepted = some s') :
    Effect t rss s s' := by
  unfold write at h
  split at h
  · rename_i hio
    obtain ⟨s₁, hs₁, h⟩ := Option.bind_eq_some_iff.mp h
    cases h
    obtain ⟨outbuf, sent, hsent, hflush⟩ := flush_eq s₁ accepted
    rw [hflush]
    unfold dequeue at hs₁
    split at hs₁
    · rename_i pkt ring hstatus hring
      obtain ⟨k, i, ft, xid, msgs, outbuf₁, hk, hfinds, hsized, hbytes, rfl⟩ := buffer_eq hs₁
      exact .buffer pkt ring k i ft xid msgs outbuf₁ outbuf sent hio hring hk hfinds hsized hbytes
        hsent
    · cases hs₁
      exact .wrote outbuf sent hio hsent
  · cases h

/-- **All that an operation does.** -/
theorem step_effect {e : Event} (h : s.step t rss junk e = some s') : Effect t rss s s' := by
  cases e with
  | look pkt => exact look_effect h
  | miss => exact miss_effect h
  | read data pollOut => exact read_effect h
  | parse key sc => exact parse_effect h
  | pollOut =>
    simp only [step] at h
    split at h
    · rename_i hio
      cases h
      exact .pollOut hio
    · cases h
  | write accepted => exact write_effect h

end Switch

end Onvm.Sdn

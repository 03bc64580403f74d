import Onvm.Nflib.Common
import Onvm.Nflib.TcpudpCksum

/-!
# Generated packets

`onvm_pkt_generate_tcp` and `onvm_pkt_generate_udp`. An mbuf is taken from a
pool and the pieces of the packet are prepended to it, the payload first and
the Ethernet header last. The total length is then written to the caller's IP
header, which has been copied already, and a call whose prepend fails keeps the
mbuf. So a packet comes out right exactly when it fits, the caller's header
was complete before the call and the software checksums sum memory that is
there (`generate_iff`).
-/

namespace Onvm.Nflib

open Onvm.Lib

/-! ## Buffers -/

/-- The buffer of an mbuf: its headroom, then its data, then what can be read behind
them. `buf_len` is a `uint16_t`. -/
structure Mbuf where
  headroom : List Byte
  data : List Byte
  behind : List Byte
  short : headroom.length < 2 ^ 16

/-- `rte_pktmbuf_prepend`, whose length is a `uint16_t`. -/
def rtePktmbufPrepend (m : Mbuf) (len : Nat) : Option Mbuf :=
  if m.headroom.length < u16 len then none
  else some
    { headroom := m.headroom.take (m.headroom.length - u16 len)
      data := m.headroom.drop (m.headroom.length - u16 len) ++ m.data
      behind := m.behind
      short := Nat.lt_of_le_of_lt (List.length_take_le' _ _) m.short }

/-- `rte_memcpy` to the start of the data, as far as the data goes. -/
def rteMemcpy (dst src : List Byte) : List Byte := (src ++ dst.drop src.length).take dst.length

def copyIn (m : Mbuf) (piece : List Byte) : Option Mbuf := do
  let m ← rtePktmbufPrepend m piece.length
  some { m with data := rteMemcpy m.data piece }

/-- Once there is no room the call gives up. -/
theorem copyIn_cases (m : Mbuf) (piece : List Byte) :
    (m.headroom.length < u16 piece.length ∧ copyIn m piece = none) ∨
      (u16 piece.length ≤ m.headroom.length ∧ ∃ m', copyIn m piece = some m' ∧
        m'.headroom.length = m.headroom.length - u16 piece.length) := by
  unfold copyIn rtePktmbufPrepend
  by_cases h : m.headroom.length < u16 piece.length
  · exact .inl ⟨h, by rw [if_pos h]; rfl⟩
  · refine .inr ⟨Nat.le_of_not_lt h, _, by rw [if_neg h]; rfl, ?_⟩
    simp only [List.length_take]
    omega

theorem copyIn_fits {m : Mbuf} {piece : List Byte} (h : piece.length ≤ m.headroom.length) :
    ∃ m', copyIn m piece = some m' ∧ m'.data = piece ++ m.data ∧ m'.behind = m.behind ∧
      m'.headroom.length = m.headroom.length - piece.length := by
  have hu : u16 piece.length = piece.length :=
    Nat.mod_eq_of_lt (Nat.lt_of_le_of_lt h m.short)
  have hroom : ¬ m.headroom.length < u16 piece.length := by omega
  unfold copyIn rtePktmbufPrepend
  rw [if_neg hroom]
  refine ⟨_, rfl, ?_, rfl, ?_⟩
  · have hd : (m.headroom.drop (m.headroom.length - u16 piece.length)).length = piece.length := by
      rw [List.length_drop]
      omega
    simp only [rteMemcpy]
    rw [List.drop_append_of_le_length (Nat.le_of_eq hd.symm), List.drop_of_length_le
      (Nat.le_of_eq hd), List.nil_append, List.length_append, hd, ← List.length_append,
      List.take_length]
  · simp only [List.length_take]
    omega

/-- The prepends of a call run out of room exactly when their lengths, as
`uint16_t`, add up to more than there is. -/
theorem copyAll_none_iff (pieces : List (List Byte)) (m : Mbuf) :
    pieces.foldlM copyIn m = none ↔
      m.headroom.length < (pieces.map fun p => u16 p.length).sum := by
  induction pieces generalizing m with
  | nil => simp
  | cons p ps ih =>
    rw [List.foldlM_cons, List.map_cons, List.sum_cons]
    rcases copyIn_cases m p with ⟨hlt, hnone⟩ | ⟨hle, m', hsome, hlen⟩
    · rw [hnone]
      exact iff_of_true rfl (Nat.lt_of_lt_of_le hlt (Nat.le_add_right _ _))
    · rw [hsome, Option.bind_eq_bind, Option.bind_some, ih, hlen]
      omega

theorem copyAll_fits (pieces : List (List Byte)) (m : Mbuf)
    (h : pieces.flatten.length ≤ m.headroom.length) :
    ∃ m', pieces.foldlM copyIn m = some m' ∧ m'.data = pieces.reverse.flatten ++ m.data ∧
      m'.behind = m.behind := by
  induction pieces generalizing m with
  | nil => exact ⟨m, rfl, rfl, rfl⟩
  | cons p ps ih =>
    rw [List.flatten_cons, List.length_append] at h
    obtain ⟨m', hsome, hdata, hbehind, hlen⟩ := @copyIn_fits m p (by omega)
    obtain ⟨m'', hsome', hdata', hbehind'⟩ := ih m' (by omega)
    refine ⟨m'', ?_, ?_, hbehind'.trans hbehind⟩
    · rw [List.foldlM_cons, hsome, Option.bind_eq_bind, Option.bind_some, hsome']
    · rw [hdata', hdata, List.reverse_cons, List.flatten_append, List.append_assoc,
        List.flatten_singleton]

/-! ## The two functions -/

/-- What a call leaves: the packet it returns (NULL as `none`), the caller's IP
header and the free mbufs. -/
structure Generated where
  ret : Option RteMbuf
  iph : List Byte
  pool : List Mbuf

def rteMbufPortInvalid : Nat := 65535

/-- The mbuf as it is handed to `onvm_pkt_set_checksums`. -/
def Mbuf.pkt (m : Mbuf) (olFlags : BitVec 64) : RteMbuf where
  data := m.data
  behind := m.behind
  port := rteMbufPortInvalid
  l2Len := sizeofEtherHdr
  l3Len := sizeofIpv4Hdr
  olFlags := olFlags

/-- What the two functions share. `totalLength` is what they write to the
caller's header, from `pkt_len`. -/
def generate (d : Dpdk) (olFlags : BitVec 64) (pieces : List (List Byte)) (totalLength : Nat → Nat)
    (iph : List Byte) (pool : List Mbuf) : Option Generated :=
  match pool with
  | [] => some ⟨none, iph, []⟩
  | m :: pool =>
    match pieces.foldlM copyIn { m with data := [] } with
    | none => some ⟨none, iph, pool⟩
    | some m => do
      let pkt ← (m.pkt olFlags).onvmPktSetChecksums d
      some ⟨some pkt, put16 iph 2 (bswap16 (BitVec.ofNat 16 (totalLength m.data.length))), pool⟩

def tcpPieces (tcpHdr iph : Vector Byte 20) (ethHdr : Vector Byte 14)
    (options payload : List Byte) : List (List Byte) :=
  (if 0 < payload.length then [payload] else []) ++
    ((if 0 < options.length then [options] else []) ++
      [tcpHdr.toList, iph.toList, ethHdr.toList])

def udpPieces (udpHdr : Vector Byte 8) (iph : Vector Byte 20) (ethHdr : Vector Byte 14)
    (payload : List Byte) : List (List Byte) :=
  [payload, udpHdr.toList, iph.toList, ethHdr.toList]

def onvmPktGenerateTcp (d : Dpdk) (pool : List Mbuf) (tcpHdr iph : Vector Byte 20)
    (ethHdr : Vector Byte 14) (options payload : List Byte) : Option Generated :=
  generate d (pktTxIpCksum ||| pktTxIpv4 ||| pktTxTcpCksum)
    (tcpPieces tcpHdr iph ethHdr options payload)
    -- the Ethernet header is taken off a length that does not have it
    (fun _ => payload.length + options.length + 20 + sizeofIpv4Hdr - sizeofEtherHdr) iph.toList pool

def onvmPktGenerateUdp (d : Dpdk) (pool : List Mbuf) (udpHdr : Vector Byte 8)
    (iph : Vector Byte 20) (ethHdr : Vector Byte 14) (payload : List Byte) : Option Generated :=
  generate d (pktTxIpCksum ||| pktTxIpv4 ||| pktTxUdpCksum) (udpPieces udpHdr iph ethHdr payload)
    (fun pktLen => pktLen - sizeofEtherHdr) iph.toList pool

/-! ## What a call should do -/

def L4.hdr (pkt : RteMbuf) : L4 → Option (Option Nat)
  | .tcp => pkt.onvmPktTcpHdr
  | .udp => pkt.onvmPktUdpHdr

theorem L4.hdr_eq (pkt : RteMbuf) (k : L4) : k.hdr pkt = pkt.l4Hdr k.protocol := by
  cases k <;> rfl

/-- A packet of these bytes, but for the checksums, which are filled in. -/
structure PacketOf (k : L4) (bytes : List Byte) (pkt : RteMbuf) : Prop where
  length : pkt.data.length = bytes.length
  bytes : ∀ i, i ≠ 24 → i ≠ 25 → i ≠ 34 + k.cksumOff → i ≠ 34 + k.cksumOff + 1 →
    pkt.data[i]? = bytes[i]?
  total : pkt.totalLength + sizeofEtherHdr = pkt.data.length
  ipv4Hdr : pkt.onvmPktIpv4Hdr = some (some sizeofEtherHdr)
  l4Hdr : k.hdr pkt = some (some (sizeofEtherHdr + sizeofIpv4Hdr))

/-- A call that has got the mbuf `m`: what fits the headroom is returned as a
packet; if a prepend fails, NULL is, and the mbuf is free again. -/
structure GenerateRight (k : L4) (bytes : List Byte) (pieces : List (List Byte)) (m : Mbuf)
    (pool : List Mbuf) (r : Option Generated) : Prop where
  made : bytes.length ≤ m.headroom.length →
    ∃ g pkt, r = some g ∧ g.ret = some pkt ∧ PacketOf k bytes pkt
  freed : pieces.foldlM copyIn { m with data := [] } = none →
    ∃ g, r = some g ∧ g.ret = none ∧ g.pool.Perm (m :: pool)

/-- The fields of the caller's IP header are those of a packet of `len` bytes. -/
def IphRight (k : L4) (iph : List Byte) (len : Nat) : Prop :=
  RteMbuf.version (iph.getD 0 0) = 4 ∧ iph.getD 9 0 = k.protocol ∧
    256 * (iph.getD 2 0).toNat + (iph.getD 3 0).toNat + sizeofEtherHdr = len

/-- How many bytes the software sums for the transport checksum: the bytes of the total
length are swapped. -/
def iphSummed (iph : List Byte) : Nat :=
  (RteMbuf.tcpudpLen (BitVec.ofNat 16 (256 * (iph.getD 3 0).toNat + (iph.getD 2 0).toNat))
    (RteMbuf.ihl (iph.getD 0 0) * 4)).toNat

/-- What the checksums are summed over can be read, unless port 255 computes them. -/
structure SumsFit (d : Dpdk) (k : L4) (iph : List Byte) (memory : Nat) : Prop where
  l4 : k.offload d (rteMbufPortInvalid % 2 ^ 8) = false → 34 + iphSummed iph ≤ memory
  ip : d.txOffloadIpv4Cksum (rteMbufPortInvalid % 2 ^ 8) = false →
    sizeofEtherHdr + RteMbuf.ihl (iph.getD 0 0) * 4 ≤ memory

/-- No prepend fails, and the caller's IP header has the version, the protocol
and the total length already, for which the sums end in memory. -/
def GenerateFits (d : Dpdk) (k : L4) (iph : List Byte) (len : Nat) (pieces : List (List Byte))
    (m : Mbuf) : Prop :=
  (pieces.map fun p => u16 p.length).sum ≤ m.headroom.length ∧
    (len ≤ m.headroom.length → IphRight k iph len ∧ SumsFit d k iph (len + m.behind.length))

section
variable {k : L4} {eth iph rest : List Byte}

theorem getD_iph (heth : eth.length = 14) (hiph : iph.length = 20) {i : Nat} (hi : i < 20) :
    (eth ++ (iph ++ rest)).getD (14 + i) 0 = iph.getD i 0 := by
  rw [List.getD_eq_getElem?_getD, List.getElem?_append_right (by omega), heth,
    Nat.add_sub_cancel_left, List.getElem?_append_left (by omega), ← List.getD_eq_getElem?_getD]

/-- The header fields the accessors read are those of the bytes. -/
theorem PacketOf.getD_eq {bytes : List Byte} {pkt : RteMbuf} (h : ∀ i, i ≠ 24 → i ≠ 25 →
    i ≠ 34 + k.cksumOff → i ≠ 34 + k.cksumOff + 1 → pkt.data[i]? = bytes[i]?) {i : Nat}
    (hi : i < 24) : pkt.data.getD i 0 = bytes.getD i 0 := by
  rw [List.getD_eq_getElem?_getD, List.getD_eq_getElem?_getD,
    h i (by omega) (by omega) (by omega) (by omega)]

/-- A packet with these bytes but for the checksums is well formed if the IP
header among them is. -/
theorem packetOf_iff (heth : eth.length = 14) (hiph : iph.length = 20) {pkt : RteMbuf}
    (hlen : pkt.data.length = (eth ++ (iph ++ rest)).length)
    (h : ∀ i, i ≠ 24 → i ≠ 25 → i ≠ 34 + k.cksumOff → i ≠ 34 + k.cksumOff + 1 →
      pkt.data[i]? = (eth ++ (iph ++ rest))[i]?) :
    PacketOf k (eth ++ (iph ++ rest)) pkt ↔ IphRight k iph (eth ++ (iph ++ rest)).length := by
  have h34 : 34 ≤ pkt.data.length := by
    rw [hlen, List.length_append, List.length_append, heth, hiph]
    omega
  have hb : ∀ i, i < 10 → pkt.data.getD (14 + i) 0 = iph.getD i 0 := fun i hi =>
    (PacketOf.getD_eq h (by omega)).trans (getD_iph heth hiph (by omega))
  have hver : pkt.data.getD sizeofEtherHdr 0 = iph.getD 0 0 := hb 0 (by omega)
  have hproto : pkt.protocolOf = iph.getD 9 0 := hb 9 (by omega)
  have htotal : pkt.totalLength = 256 * (iph.getD 2 0).toNat + (iph.getD 3 0).toNat := by
    rw [← hb 2 (by omega), ← hb 3 (by omega)]
    rfl
  have hip := RteMbuf.ipv4Hdr_eq h34
  have hl4 := RteMbuf.l4Hdr_eq h34 k.protocol
  rw [hver] at hip hl4
  rw [hproto] at hl4
  constructor
  · intro hp
    have hv : RteMbuf.version (iph.getD 0 0) = 4 := by
      by_contra hne
      rw [if_neg hne, hp.ipv4Hdr] at hip
      cases hip
    have hk : iph.getD 9 0 = k.protocol := by
      by_contra hne
      rw [if_neg fun hc => hne hc.2, ← k.hdr_eq, hp.l4Hdr] at hl4
      cases hl4
    exact ⟨hv, hk, by rw [← htotal, hp.total, hlen]⟩
  · rintro ⟨hv, hk, ht⟩
    rw [if_pos hv] at hip
    rw [if_pos ⟨hv, hk⟩] at hl4
    exact ⟨hlen, h, by rw [htotal, ht, hlen], hip, (k.hdr_eq pkt).trans hl4⟩

/-- What `onvm_pkt_set_checksums` reads of the header first. -/
theorem pkt_hdr {flags : BitVec 64} {m : Mbuf} (heth : eth.length = 14) (hiph : iph.length = 20)
    (hdata : m.data = eth ++ (iph ++ rest)) :
    34 ≤ (m.pkt flags).data.length ∧
      (∀ i, i < 10 → (m.pkt flags).data.getD (14 + i) 0 = iph.getD i 0) ∧
      (iph.getD 9 0 = k.protocol → (m.pkt flags).l4Of = some k) := by
  have hb : ∀ i, i < 10 → (m.pkt flags).data.getD (14 + i) 0 = iph.getD i 0 := fun i hi =>
    (congrArg (·.getD (14 + i) 0) hdata).trans (getD_iph heth hiph (by omega))
  refine ⟨?_, hb, fun hk => ?_⟩
  · rw [show (m.pkt flags).data = _ from hdata, List.length_append, List.length_append, heth, hiph]
    omega
  · have hp : (m.pkt flags).protocolOf = k.protocol := (hb 9 (by omega)).trans hk
    unfold RteMbuf.l4Of
    rw [hp]
    cases k <;> decide

/-- The checksums of the packet, before the caller's header is patched. -/
theorem setChecksums_pkt_iff {d : Dpdk} {flags : BitVec 64} {m : Mbuf}
    (heth : eth.length = 14) (hiph : iph.length = 20) (hrest : k.cksumOff + 2 ≤ rest.length)
    (hdata : m.data = eth ++ (iph ++ rest)) (hv : RteMbuf.version (iph.getD 0 0) = 4)
    (hk : iph.getD 9 0 = k.protocol) :
    (∃ pkt, (m.pkt flags).onvmPktSetChecksums d = some pkt) ↔
      SumsFit d k iph ((eth ++ (iph ++ rest)).length + m.behind.length) := by
  have hlen : (eth ++ (iph ++ rest)).length = 34 + rest.length := by
    rw [List.length_append, List.length_append, heth, hiph]
    omega
  obtain ⟨h34, hb, hl4⟩ := pkt_hdr heth hiph hdata
  have h0 : (m.pkt flags).data.getD sizeofEtherHdr 0 = iph.getD 0 0 := hb 0 (by omega)
  have hhdr : (m.pkt flags).ipHdrLen = RteMbuf.ihl (iph.getD 0 0) * 4 := by
    rw [RteMbuf.ipHdrLen, h0]
  have hsummed : (m.pkt flags).l4Summed = iphSummed iph := by
    rw [RteMbuf.l4Summed, hhdr, iphSummed, ← hb 3 (by omega), ← hb 2 (by omega)]
    rfl
  have hmem : (m.pkt flags).mem.length = (eth ++ (iph ++ rest)).length + m.behind.length := by
    rw [RteMbuf.mem, List.length_append, ← hdata]
    rfl
  have hdlen : (m.pkt flags).data.length = (eth ++ (iph ++ rest)).length :=
    congrArg List.length hdata
  rw [RteMbuf.setChecksums_some_iff h34 (h0 ▸ hv), hl4 hk, hhdr, hmem]
  simp only [Option.mem_def, Option.some.injEq, forall_eq']
  constructor
  · rintro ⟨hf, hip⟩
    exact ⟨fun hoff => hsummed ▸ hmem ▸ hf.sum hoff, hip⟩
  · intro hf
    exact ⟨⟨by omega, fun hoff => hsummed.symm ▸ hmem.symm ▸ hf.l4 hoff⟩, hf.ip⟩

/-- The call with the mbuf `m` in the pool. -/
theorem generate_right_iff {d : Dpdk} {flags : BitVec 64} {pieces : List (List Byte)}
    {total : Nat → Nat} {m : Mbuf} {pool : List Mbuf}
    (hflat : pieces.reverse.flatten = eth ++ (iph ++ rest)) (heth : eth.length = 14)
    (hiph : iph.length = 20) (hrest : k.cksumOff + 2 ≤ rest.length) :
    GenerateRight k (eth ++ (iph ++ rest)) pieces m pool
        (generate d flags pieces total iph (m :: pool)) ↔
      GenerateFits d k iph (eth ++ (iph ++ rest)).length pieces m := by
  have hnone := copyAll_none_iff pieces { m with data := [] }
  simp only at hnone
  have hlen : pieces.flatten.length = (eth ++ (iph ++ rest)).length := by
    rw [← hflat, List.length_flatten, List.length_flatten, List.map_reverse, List.sum_reverse]
  -- the mbuf with all the pieces in it
  have hcopied : (eth ++ (iph ++ rest)).length ≤ m.headroom.length →
      ∃ m', pieces.foldlM copyIn { m with data := [] } = some m' ∧
        m'.data = eth ++ (iph ++ rest) ∧ m'.behind = m.behind := by
    intro hfit
    obtain ⟨m', hm', hdata, hbehind⟩ :=
      copyAll_fits pieces { m with data := [] } (by rw [hlen]; exact hfit)
    rw [hflat, List.append_nil] at hdata
    exact ⟨m', hm', hdata, hbehind⟩
  constructor
  · intro h
    refine ⟨?_, fun hfit => ?_⟩
    · by_contra hout
      have hfail := hnone.mpr (Nat.lt_of_not_le hout)
      obtain ⟨g, hg, -, hperm⟩ := h.freed hfail
      simp only [generate, hfail, Option.some.injEq] at hg
      -- the mbuf has left the pool and does not come back
      rw [← hg] at hperm
      exact absurd hperm.length_eq (by simp)
    · obtain ⟨m', hm', hdata, hbehind⟩ := hcopied hfit
      obtain ⟨g, pkt, hg, -, hpkt⟩ := h.made hfit
      have hright := (packetOf_iff heth hiph hpkt.length hpkt.bytes).mp hpkt
      simp only [generate, hm', Option.bind_eq_bind] at hg
      obtain ⟨pkt', hset, -⟩ := Option.bind_eq_some_iff.mp hg
      rw [← hbehind]
      exact ⟨hright, (setChecksums_pkt_iff heth hiph hrest hdata hright.1 hright.2.1).mp
        ⟨pkt', hset⟩⟩
  · rintro ⟨hroom, hhdr⟩
    refine ⟨fun hfit => ?_, fun hfail => absurd (hnone.mp hfail) (Nat.not_lt_of_le hroom)⟩
    obtain ⟨m', hm', hdata, hbehind⟩ := hcopied hfit
    obtain ⟨hright, hsums⟩ := hhdr hfit
    rw [← hbehind] at hsums
    obtain ⟨pkt, hset⟩ :=
      (setChecksums_pkt_iff heth hiph hrest hdata hright.1 hright.2.1).mpr hsums
    obtain ⟨h34, hb, hl4⟩ := pkt_hdr heth hiph hdata
    have hver : RteMbuf.version ((m'.pkt flags).data.getD sizeofEtherHdr 0) = 4 := by
      rw [show (m'.pkt flags).data.getD sizeofEtherHdr 0 = _ from hb 0 (by omega), hright.1]
    obtain ⟨x, y, hpkt⟩ := RteMbuf.setChecksums_frame h34 hver (hl4 hright.2.1) hset
    rw [show (m'.pkt flags).data = _ from hdata] at hpkt
    refine ⟨⟨some pkt, _, pool⟩, pkt, by simp only [generate, hm', hset]; rfl, rfl,
      (packetOf_iff heth hiph ?_ ?_).mpr hright⟩
    · rw [hpkt, length_put16, length_put16]
    · intro i h1 h2 h3 h4
      rw [hpkt, getElem?_put16_of_ne _ h1 h2, getElem?_put16_of_ne _ h3 h4]

end

theorem udpPieces_flatten (udpHdr : Vector Byte 8) (iph : Vector Byte 20) (ethHdr : Vector Byte 14)
    (payload : List Byte) : (udpPieces udpHdr iph ethHdr payload).reverse.flatten =
      ethHdr.toList ++ (iph.toList ++ (udpHdr.toList ++ payload)) := by simp [udpPieces]

theorem tcpPieces_flatten (tcpHdr iph : Vector Byte 20) (ethHdr : Vector Byte 14)
    (options payload : List Byte) : (tcpPieces tcpHdr iph ethHdr options payload).reverse.flatten =
      ethHdr.toList ++ (iph.toList ++ (tcpHdr.toList ++ (options ++ payload))) := by
  have hopt : ∀ l : List Byte, (if 0 < l.length then [l] else []).reverse.flatten = l := by
    intro l
    cases l <;> simp
  simp [tcpPieces, hopt]

/-- **A generated packet comes out right, and an mbuf that does not make one is
freed, exactly when no prepend fails, the caller's IP header has the total
length of the packet already**, besides the version and the protocol, **and the
software checksums of that header sum only what can be read.** -/
theorem generate_iff (d : Dpdk) (m : Mbuf) (pool : List Mbuf) (iph : Vector Byte 20)
    (ethHdr : Vector Byte 14) :
    (∀ (udpHdr : Vector Byte 8) (payload : List Byte),
      GenerateRight .udp (ethHdr.toList ++ (iph.toList ++ (udpHdr.toList ++ payload)))
          (udpPieces udpHdr iph ethHdr payload) m pool
          (onvmPktGenerateUdp d (m :: pool) udpHdr iph ethHdr payload) ↔
        GenerateFits d .udp iph.toList (42 + payload.length) (udpPieces udpHdr iph ethHdr payload)
          m) ∧
    (∀ (tcpHdr : Vector Byte 20) (options payload : List Byte),
      GenerateRight .tcp
          (ethHdr.toList ++ (iph.toList ++ (tcpHdr.toList ++ (options ++ payload))))
          (tcpPieces tcpHdr iph ethHdr options payload) m pool
          (onvmPktGenerateTcp d (m :: pool) tcpHdr iph ethHdr options payload) ↔
        GenerateFits d .tcp iph.toList (54 + options.length + payload.length)
          (tcpPieces tcpHdr iph ethHdr options payload) m) := by
  constructor
  · intro udpHdr payload
    have hlen : (ethHdr.toList ++ (iph.toList ++ (udpHdr.toList ++ payload))).length =
        42 + payload.length := by
      simp only [List.length_append, Vector.length_toList]
      omega
    rw [← hlen]
    exact generate_right_iff (udpPieces_flatten udpHdr iph ethHdr payload) (Vector.length_toList)
      (Vector.length_toList) (by simp [L4.cksumOff])
  · intro tcpHdr options payload
    have hlen : (ethHdr.toList ++ (iph.toList ++ (tcpHdr.toList ++ (options ++ payload)))).length =
        54 + options.length + payload.length := by
      simp only [List.length_append, Vector.length_toList]
      omega
    rw [← hlen]
    exact generate_right_iff (tcpPieces_flatten tcpHdr iph ethHdr options payload)
      (Vector.length_toList) (Vector.length_toList) (by simp [L4.cksumOff]; omega)

/-- The IP header that `onvm_pkt_fill_ipv4` makes of a zeroed one. -/
def filledIph : Vector Byte 20 :=
  #v[0x45, 0, 0, 0, 0, 0, 0, 0, 64, 17, 0, 0, 10, 0, 0, 1, 10, 0, 0, 2]

/-- The total length of this packet is 0. -/
theorem generate_no_length : ¬ ∀ (d : Dpdk) (m : Mbuf) (pool : List Mbuf) (iph : Vector Byte 20)
    (ethHdr : Vector Byte 14) (udpHdr : Vector Byte 8) (payload : List Byte),
    GenerateRight .udp (ethHdr.toList ++ (iph.toList ++ (udpHdr.toList ++ payload)))
      (udpPieces udpHdr iph ethHdr payload) m pool
      (onvmPktGenerateUdp d (m :: pool) udpHdr iph ethHdr payload) := by
  intro h
  have hright := h softDpdk ⟨List.replicate 128 0, [], List.replicate 2048 0, by simp⟩ [] filledIph
    (Vector.replicate 14 0) (Vector.replicate 8 0) [1, 2, 3, 4]
  obtain ⟨g, pkt, -, -, hpkt⟩ := hright.made (by simp)
  have htotal := ((packetOf_iff (by simp) (by simp) hpkt.length hpkt.bytes).mp hpkt).2.2
  have hzero : 256 * (filledIph.toList.getD 2 0).toNat + (filledIph.toList.getD 3 0).toNat = 0 := by
    decide
  rw [hzero] at htotal
  simp [sizeofEtherHdr] at htotal

end Onvm.Nflib

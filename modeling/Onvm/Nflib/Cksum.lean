import Onvm.Lib.OnesSum
import Onvm.Nflib.PktHelper

/-!
# The stages of `onvm_pkt_set_checksums`

The call begins with the header lengths, stores the TCP or UDP checksum and then
that of the IP header. It comes to its end when the memory that the transport
checksum is summed over is there (`setChecksums_some_iff`): the length of that
is a difference that wraps for small and for byte-swapped total lengths. A call
that comes to its end leaves an IP header that verifies, which is one whose
words have the ones'-complement sum `0xffff` (`ip_cksum_iff`).
-/

namespace Onvm.Nflib

open Onvm.Lib

/-- What DPDK promises of `rte_raw_cksum`: the folded sum of the words of its buffer. -/
structure Dpdk.RawCksum (d : Dpdk) : Prop where
  raw : ∀ b : List Byte, b.length < 2 ^ 16 → d.rteRawCksum b = BitVec.ofNat 16 (ones (wordSum b))

/-- `rte_raw_cksum` and ports that offload nothing. -/
def softDpdk : Dpdk where
  rteRawCksum b := BitVec.ofNat 16 (ones (wordSum b))
  rteIpv4PhdrCksum _ _ _ := 0
  txOffloadIpv4Cksum _ := false
  txOffloadTcpCksum _ := false
  txOffloadUdpCksum _ := false

theorem softDpdk_rawCksum : softDpdk.RawCksum := ⟨fun _ _ => rfl⟩

theorem toNat_ofNat_ones (n : Nat) : (BitVec.ofNat 16 (ones n)).toNat = ones n :=
  BitVec.toNat_ofNat _ _ |>.trans (Nat.mod_eq_of_lt (ones_lt n))

theorem toNat_not_ones (n : Nat) : (~~~ BitVec.ofNat 16 (ones n)).toNat = 0xffff - ones n := by
  rw [toNat_not, toNat_ofNat_ones]

namespace RteMbuf

variable {d : Dpdk} {pkt p p' : RteMbuf}

/-! ## The IP header -/

/-- The header checksum is a value once the header can be read. -/
theorem calculateIpCksum_some_iff {mem : List Byte} {ip n : Nat} :
    (∃ c, calculateIpCksum d mem ip n = some c) ↔ ip + n ≤ mem.length := by
  unfold calculateIpCksum
  constructor
  · rintro ⟨c, h⟩
    obtain ⟨b, hb, -⟩ := Option.bind_eq_some_iff.mp h
    exact (readBytes_eq_some_iff.mp hb).1
  · intro h
    rw [readBytes_inside h]
    exact ⟨_, rfl⟩

/-- Computed with its field cleared, it makes the header verify. -/
theorem calculateIpCksum_valid (hd : d.RawCksum) {b behind : List Byte} {ip n : Nat}
    {c : BitVec 16} (hn : 12 ≤ n) (hn' : n < 2 ^ 16) (hb : ip + n ≤ b.length)
    (hc : calculateIpCksum d (put16 b (ip + 10) 0 ++ behind) ip n = some c) :
    ones (wordSum (bytesAt (put16 b (ip + 10) c) ip n)) = 0xffff := by
  have hin : ip + n ≤ (put16 b (ip + 10) 0).length := by rw [length_put16]; exact hb
  have hread : readBytes (put16 b (ip + 10) 0 ++ behind) ip n =
      some (bytesAt (put16 b (ip + 10) 0) ip n) := by
    rw [readBytes_inside (by rw [List.length_append]; omega), bytesAt_append hin]
  have hlen := length_bytesAt hb
  have hraw := hd.raw (bytesAt (put16 b (ip + 10) 0) ip n) (by rw [length_bytesAt hin]; exact hn')
  rw [calculateIpCksum, hread, Option.bind_eq_bind, Option.bind_some, Option.some.injEq, hraw] at hc
  subst hc
  rw [bytesAt_put16, bytesAt_put16, wordSum_put16 _ (by decide) (by omega)]
  generalize wordSum (put16 (bytesAt b ip n) 10 0) = w
  -- the sum of the other words is taken as it is if it is `0xffff`, else complemented
  by_cases hw : ones w = 0xffff
  · have hc : BitVec.ofNat 16 (ones w) = 0xffff := by rw [hw]; rfl
    rw [if_pos hc, hc]
    exact ones_add_self hw
  · have hc : BitVec.ofNat 16 (ones w) ≠ 0xffff := by
      intro he
      rw [← toNat_ofNat_ones, he] at hw
      exact hw rfl
    rw [if_neg hc, toNat_not_ones]
    exact ones_add_compl w

/-! ## Lengths -/

/-- The length of the IP header, with its options. -/
def ipHdrLen (pkt : RteMbuf) : Nat := ihl (pkt.data.getD sizeofEtherHdr 0) * 4

/-- `total_length` as a little-endian machine reads it. -/
def hostLength (pkt : RteMbuf) : Nat :=
  256 * (pkt.data.getD 17 0).toNat + (pkt.data.getD 16 0).toNat

/-- How many bytes `calculate_tcpudp_cksum` sums. -/
def l4Summed (pkt : RteMbuf) : Nat :=
  (tcpudpLen (BitVec.ofNat 16 pkt.hostLength) pkt.ipHdrLen).toNat

theorem hostLength_lt (pkt : RteMbuf) : pkt.hostLength < 2 ^ 16 := by
  have h1 := (pkt.data.getD 16 0).isLt
  have h2 := (pkt.data.getD 17 0).isLt
  unfold hostLength
  omega

theorem ipHdrLen_le (pkt : RteMbuf) : pkt.ipHdrLen ≤ 60 := by
  have h : ihl (pkt.data.getD sizeofEtherHdr 0) ≤ 15 := by
    unfold ihl
    rw [BitVec.toNat_and]
    exact Nat.and_le_right
  unfold ipHdrLen
  omega

/-- A difference of `uint32_t`. -/
theorem l4Summed_eq (pkt : RteMbuf) :
    pkt.l4Summed = (pkt.hostLength + 2 ^ 32 - pkt.ipHdrLen) % 2 ^ 32 := by
  have h1 := pkt.hostLength_lt
  have h2 := pkt.ipHdrLen_le
  unfold l4Summed tcpudpLen
  simp only [BitVec.toNat_sub, BitVec.toNat_setWidth, BitVec.toNat_ofNat]
  omega

/-! ## The transport part -/

def begun (pkt : RteMbuf) : RteMbuf :=
  { pkt with
    data := put16 pkt.data 24 0
    l2Len := sizeofEtherHdr
    l3Len := pkt.ipHdrLen
    olFlags := pkt.olFlags ||| pktTxIpv4
    summed := [] }

theorem beginCksum_eq (h : 34 ≤ pkt.data.length) :
    pkt.beginCksum sizeofEtherHdr = some pkt.begun := by
  have hbyte : pkt.versionIhl sizeofEtherHdr = some (pkt.data.getD sizeofEtherHdr 0) :=
    getElem?_getD (by unfold sizeofEtherHdr; omega)
  unfold beginCksum
  rw [hbyte, store16_eq_put16 0 (by unfold sizeofEtherHdr; omega)]
  rfl

/-- What is summed comes out as a value if it can be read. -/
theorem calculateTcpudpCksum_some_iff {mem : List Byte} {l4Hdr l3Len : Nat} {protocol : Byte}
    {tl : BitVec 16} (htl : load16 mem 16 = some tl) (h34 : 34 ≤ mem.length) :
    (∃ r, calculateTcpudpCksum d mem sizeofEtherHdr l4Hdr l3Len protocol = some r) ↔
      l4Hdr + (tcpudpLen tl l3Len).toNat ≤ mem.length := by
  unfold calculateTcpudpCksum
  rw [show sizeofEtherHdr + 2 = 16 from rfl, htl,
    readBytes_inside (show sizeofEtherHdr + 12 + 4 ≤ mem.length by unfold sizeofEtherHdr; omega),
    readBytes_inside (show sizeofEtherHdr + 16 + 4 ≤ mem.length by unfold sizeofEtherHdr; omega)]
  simp only [Option.bind_eq_bind, Option.bind_some]
  constructor
  · rintro ⟨c, h⟩
    obtain ⟨b, hb, -⟩ := Option.bind_eq_some_iff.mp h
    exact (readBytes_eq_some_iff.mp hb).1
  · intro h
    rw [readBytes_inside h]
    exact ⟨_, rfl⟩

/-- The transport part has stored the word `x` in a packet, and kept what the IP part reads. -/
structure Stored (d : Dpdk) (off l4 : Nat) (protocol : Byte) (offload : Bool) (p p' : RteMbuf)
    (x : BitVec 16) : Prop where
  data : p'.data = put16 p.data (l4 + off) x
  behind : p'.behind = p.behind
  port : p'.port = p.port
  l2Len : p'.l2Len = p.l2Len
  l3Len : p'.l3Len = p.l3Len
  software : offload = false → ∃ r, p'.summed = p.summed ++ [r] ∧
    calculateTcpudpCksum d (put16 p.data (l4 + off) 0 ++ p.behind) sizeofEtherHdr l4 p.l3Len
      protocol = some (x, r)

theorem setL4Cksum_some {protocol : Byte} {off l4Len : Nat} {offload : Bool} {flag : BitVec 64}
    {l4 : Nat} (h : pkt.setL4Cksum d protocol off l4Len offload flag sizeofEtherHdr l4 = some p) :
    l4 + off + 2 ≤ pkt.data.length ∧ ∃ x, Stored d off l4 protocol offload pkt p x := by
  have hin : l4 + off + 2 ≤ pkt.data.length := by
    by_contra hout
    have hstore : store16 pkt.data (l4 + off) 0 = none := if_neg hout
    unfold setL4Cksum at h
    rw [hstore] at h
    cases h
  refine ⟨hin, ?_⟩
  unfold setL4Cksum at h
  rw [store16_eq_put16 0 hin, Option.bind_eq_bind, Option.bind_some] at h
  cases offload with
  | true =>
    simp only [if_true] at h
    rw [store16_eq_put16 _ (by rw [length_put16]; exact hin), put16_put16] at h
    cases h
    exact ⟨_, rfl, rfl, rfl, rfl, rfl, nofun⟩
  | false =>
    simp only [Bool.false_eq_true, if_false] at h
    obtain ⟨⟨c, r⟩, hc, h⟩ := Option.bind_eq_some_iff.mp h
    simp only [store16_eq_put16 _ (show l4 + off + 2 ≤ (put16 pkt.data (l4 + off) 0).length by
      rw [length_put16]; exact hin), put16_put16, Option.bind_some] at h
    cases h
    exact ⟨c, rfl, rfl, rfl, rfl, rfl, fun _ => ⟨r, rfl, hc⟩⟩

theorem setL4Cksum_exists {protocol : Byte} {off l4Len : Nat} {offload : Bool}
    {flag : BitVec 64} {l4 : Nat} (h : l4 + off + 2 ≤ pkt.data.length)
    (hsum : offload = false → ∃ r, calculateTcpudpCksum d (put16 pkt.data (l4 + off) 0 ++ pkt.behind)
      sizeofEtherHdr l4 pkt.l3Len protocol = some r) :
    ∃ p, pkt.setL4Cksum d protocol off l4Len offload flag sizeofEtherHdr l4 = some p := by
  have hin : l4 + off + 2 ≤ (put16 pkt.data (l4 + off) 0).length := by rw [length_put16]; exact h
  unfold setL4Cksum
  rw [store16_eq_put16 0 h, Option.bind_eq_bind, Option.bind_some]
  cases offload with
  | true =>
    simp only [if_true, store16_eq_put16 _ hin]
    exact ⟨_, rfl⟩
  | false =>
    obtain ⟨⟨c, r⟩, hc⟩ := hsum rfl
    have hc' : calculateTcpudpCksum d
        ({ pkt with data := put16 pkt.data (l4 + off) 0, l4Len := l4Len } : RteMbuf).mem
        sizeofEtherHdr l4 pkt.l3Len protocol = some (c, r) := hc
    simp only [Bool.false_eq_true, if_false, hc', Option.bind_eq_bind, Option.bind_some,
      store16_eq_put16 _ hin]
    exact ⟨_, rfl⟩

end RteMbuf

/-- The two transport protocols with a checksum. -/
inductive L4 where
  | tcp
  | udp
  deriving DecidableEq, Repr

namespace L4

def protocol : L4 → Byte
  | tcp => ipProtocolTcp
  | udp => ipProtocolUdp

/-- The offset of the checksum field in the header. -/
def cksumOff : L4 → Nat
  | tcp => 16
  | udp => 6

def offload (d : Dpdk) (port : Nat) : L4 → Bool
  | tcp => d.txOffloadTcpCksum port
  | udp => d.txOffloadUdpCksum port

/-- The transport part of `onvm_pkt_set_checksums`. -/
def setCksum (d : Dpdk) (pkt : RteMbuf) : L4 → Option RteMbuf
  | tcp => pkt.setTcpCksum d sizeofEtherHdr (sizeofEtherHdr + sizeofIpv4Hdr)
  | udp => pkt.setUdpCksum d sizeofEtherHdr (sizeofEtherHdr + sizeofIpv4Hdr)

variable {d : Dpdk} {pkt p : RteMbuf} {k : L4}

theorem setCksum_some (h : k.setCksum d pkt = some p) :
    34 + k.cksumOff + 2 ≤ pkt.data.length ∧
      ∃ x, RteMbuf.Stored d k.cksumOff 34 k.protocol (k.offload d pkt.portId) pkt p x := by
  cases k with
  | tcp =>
    obtain ⟨dataOff, -, h⟩ := Option.bind_eq_some_iff.mp h
    exact RteMbuf.setL4Cksum_some h
  | udp => exact RteMbuf.setL4Cksum_some h

theorem setCksum_exists (h : 34 + k.cksumOff + 2 ≤ pkt.data.length)
    (hsum : k.offload d pkt.portId = false → ∃ r, RteMbuf.calculateTcpudpCksum d
      (put16 pkt.data (34 + k.cksumOff) 0 ++ pkt.behind) sizeofEtherHdr 34 pkt.l3Len k.protocol =
        some r) : ∃ p, k.setCksum d pkt = some p := by
  cases k with
  | tcp =>
    change 34 + 16 + 2 ≤ pkt.data.length at h
    obtain ⟨dataOff, hdo⟩ := byte_inside (b := pkt.data) (i := 34 + 12) (by omega)
    simp only [setCksum, RteMbuf.setTcpCksum, sizeofIpv4Hdr, Option.bind_eq_bind]
    rw [show sizeofEtherHdr + 20 = 34 from rfl, hdo, Option.bind_some]
    exact RteMbuf.setL4Cksum_exists h hsum
  | udp => exact RteMbuf.setL4Cksum_exists h hsum

end L4

namespace RteMbuf

variable {d : Dpdk} {pkt p p' : RteMbuf} {k : L4}

def protocolOf (pkt : RteMbuf) : Byte := pkt.data.getD 23 0

def l4Of (pkt : RteMbuf) : Option L4 :=
  if pkt.protocolOf = ipProtocolTcp then some .tcp
  else if pkt.protocolOf = ipProtocolUdp then some .udp
  else none

/-- The accessors on a packet that holds a header without options. -/
theorem ipv4Hdr_eq (h : 34 ≤ pkt.data.length) : pkt.onvmPktIpv4Hdr =
    some (if version (pkt.data.getD sizeofEtherHdr 0) = 4 then some sizeofEtherHdr else none) := by
  have hbyte : pkt.versionIhl sizeofEtherHdr = some (pkt.data.getD sizeofEtherHdr 0) :=
    getElem?_getD (by unfold sizeofEtherHdr; omega)
  unfold onvmPktIpv4Hdr
  rw [hbyte, Option.bind_eq_bind, Option.bind_some]
  by_cases hv : version (pkt.data.getD sizeofEtherHdr 0) = 4
  · rw [if_neg (not_not.mpr hv), if_pos hv]
  · rw [if_pos hv, if_neg hv]

theorem l4Hdr_eq (h : 34 ≤ pkt.data.length) (protocol : Byte) : pkt.l4Hdr protocol =
    some (if version (pkt.data.getD sizeofEtherHdr 0) = 4 ∧ pkt.protocolOf = protocol then some 34
      else none) := by
  have hproto : pkt.nextProtoId sizeofEtherHdr = some pkt.protocolOf :=
    getElem?_getD (by unfold sizeofEtherHdr; omega)
  unfold RteMbuf.l4Hdr
  rw [ipv4Hdr_eq h]
  by_cases hv : version (pkt.data.getD sizeofEtherHdr 0) = 4
  · simp only [hv, true_and, if_true, Option.bind_eq_bind, Option.bind_some, hproto]
    by_cases hp : pkt.protocolOf = protocol
    · rw [if_neg (not_not.mpr hp), if_pos hp]
      rfl
    · rw [if_pos hp, if_neg hp]
  · simp only [hv, false_and, if_false, Option.bind_eq_bind, Option.bind_some]

def transported (d : Dpdk) (pkt : RteMbuf) : Option RteMbuf :=
  match pkt.l4Of with
  | some k => k.setCksum d pkt.begun
  | none => some pkt.begun

/-- `onvm_pkt_set_checksums` on an IPv4 packet: begin, transport part, IP part. -/
theorem setChecksums_eq (h : 34 ≤ pkt.data.length)
    (hv : version (pkt.data.getD sizeofEtherHdr 0) = 4) :
    pkt.onvmPktSetChecksums d = (pkt.transported d).bind (setIpCksum d sizeofEtherHdr) := by
  unfold onvmPktSetChecksums onvmPktTcpHdr onvmPktUdpHdr transported l4Of
  rw [ipv4Hdr_eq h, l4Hdr_eq h, l4Hdr_eq h]
  simp only [hv, true_and, if_true, Option.bind_eq_bind, Option.bind_some, beginCksum_eq h]
  by_cases ht : pkt.protocolOf = ipProtocolTcp
  · have hu : pkt.protocolOf ≠ ipProtocolUdp := by rw [ht]; decide
    simp only [if_pos ht, if_neg hu, Option.elim_some, Option.elim_none, Option.bind_some]
    rfl
  · by_cases hu : pkt.protocolOf = ipProtocolUdp
    · simp only [if_neg ht, if_pos hu, Option.elim_some, Option.elim_none, Option.bind_some]
      rfl
    · simp only [if_neg ht, if_neg hu, Option.elim_none, Option.bind_some]

/-- The transport checksum can be stored: its field is in the packet, and what the
software sums for it is memory. -/
structure L4Fits (d : Dpdk) (k : L4) (pkt : RteMbuf) : Prop where
  field : 34 + k.cksumOff + 2 ≤ pkt.data.length
  sum : k.offload d pkt.portId = false → 34 + pkt.l4Summed ≤ pkt.mem.length

theorem begun_summed_iff (h : 34 ≤ pkt.data.length) :
    (∃ r, calculateTcpudpCksum d (put16 pkt.begun.data (34 + k.cksumOff) 0 ++ pkt.begun.behind)
      sizeofEtherHdr 34 pkt.begun.l3Len k.protocol = some r) ↔
        34 + pkt.l4Summed ≤ pkt.mem.length := by
  have hlen : (put16 (put16 pkt.data 24 0) (34 + k.cksumOff) 0 ++ pkt.behind).length =
      pkt.mem.length := by
    rw [mem, List.length_append, List.length_append, length_put16, length_put16]
  have htl : load16 (put16 (put16 pkt.data 24 0) (34 + k.cksumOff) 0 ++ pkt.behind) 16 =
      some (BitVec.ofNat 16 pkt.hostLength) := by
    have hkeep : ∀ i, i < 24 →
        (put16 (put16 pkt.data 24 0) (34 + k.cksumOff) 0 ++ pkt.behind)[i]? = pkt.data[i]? := by
      intro i hi
      rw [List.getElem?_append_left (by rw [length_put16, length_put16]; omega),
        getElem?_put16_of_ne _ (by omega) (by omega), getElem?_put16_of_ne _ (by omega) (by omega)]
    rw [load16_congr (hkeep 16 (by omega)) (hkeep 17 (by omega)), load16_eq (by omega)]
    rfl
  have h34 : 34 ≤ (put16 (put16 pkt.data 24 0) (34 + k.cksumOff) 0 ++ pkt.behind).length := by
    rw [hlen, mem, List.length_append]
    omega
  rw [← hlen]
  exact calculateTcpudpCksum_some_iff htl h34

theorem transported_some_iff (h : 34 ≤ pkt.data.length) :
    (∃ p, pkt.transported d = some p) ↔ ∀ k ∈ pkt.l4Of, L4Fits d k pkt := by
  unfold transported
  cases pkt.l4Of with
  | none => exact iff_of_true ⟨_, rfl⟩ nofun
  | some k =>
    simp only [Option.mem_def, Option.some.injEq, forall_eq']
    have hlen : pkt.begun.data.length = pkt.data.length := length_put16 _ _ _
    constructor
    · rintro ⟨p, hp⟩
      obtain ⟨hin, x, hst⟩ := L4.setCksum_some hp
      refine ⟨hlen ▸ hin, fun hoff => ?_⟩
      obtain ⟨r, -, hr⟩ := hst.software hoff
      exact (begun_summed_iff h).mp ⟨_, hr⟩
    · intro hf
      exact L4.setCksum_exists (hlen.symm ▸ hf.field) fun hoff =>
        (begun_summed_iff h).mpr (hf.sum hoff)

/-! ## The IP part -/

/-- What the IP part starts from: its checksum field is cleared. -/
structure Begun (pkt p : RteMbuf) : Prop where
  data : ∃ b, p.data = put16 b 24 0 ∧ b.length = pkt.data.length
  behind : p.behind = pkt.behind
  port : p.port = pkt.port
  l2Len : p.l2Len = sizeofEtherHdr
  l3Len : p.l3Len = pkt.ipHdrLen

theorem Begun.of_transported (h : pkt.transported d = some p) : Begun pkt p := by
  unfold transported at h
  cases hk : pkt.l4Of with
  | none =>
    rw [hk] at h
    cases h
    exact ⟨⟨pkt.data, rfl, rfl⟩, rfl, rfl, rfl, rfl⟩
  | some k =>
    rw [hk] at h
    obtain ⟨-, x, hst⟩ := L4.setCksum_some h
    refine ⟨⟨put16 pkt.data (34 + k.cksumOff) x, ?_, length_put16 _ _ _⟩, hst.behind, hst.port,
      hst.l2Len, hst.l3Len⟩
    rw [hst.data]
    exact put16_comm _ _ (by omega)

theorem Begun.length (h : Begun pkt p) :
    p.data.length = pkt.data.length ∧ p.mem.length = pkt.mem.length := by
  obtain ⟨b, hb, hlen⟩ := h.data
  have hdata : p.data.length = pkt.data.length := by rw [hb, length_put16, hlen]
  rw [mem, mem, List.length_append, List.length_append, hdata, h.behind]
  exact ⟨rfl, rfl⟩

/-- The IP part stores at most its own checksum. -/
theorem setIpCksum_some (h : p.setIpCksum d sizeofEtherHdr = some p') :
    (p'.data = p.data ∨ ∃ y, calculateIpCksum d p.mem sizeofEtherHdr p.l3Len = some y ∧
      p'.data = put16 p.data 24 y) ∧
    (d.txOffloadIpv4Cksum p.portId = false → ∃ y,
      calculateIpCksum d p.mem sizeofEtherHdr p.l3Len = some y ∧ p'.data = put16 p.data 24 y) ∧
    p'.l2Len = p.l2Len ∧ p'.l3Len = p.l3Len ∧ p'.summed = p.summed := by
  unfold setIpCksum at h
  cases hoff : d.txOffloadIpv4Cksum p.portId with
  | true =>
    rw [hoff, if_pos rfl] at h
    cases h
    exact ⟨.inl rfl, nofun, rfl, rfl, rfl⟩
  | false =>
    rw [hoff, if_neg Bool.false_ne_true] at h
    obtain ⟨y, hy, h⟩ := Option.bind_eq_some_iff.mp h
    obtain ⟨data, hdata, h⟩ := Option.bind_eq_some_iff.mp h
    have hput : data = put16 p.data 24 y := by
      unfold store16 at hdata
      split at hdata
      · exact (Option.some.inj hdata).symm
      · cases hdata
    cases h
    exact ⟨.inr ⟨y, hy, hput⟩, fun _ => ⟨y, hy, hput⟩, rfl, rfl, rfl⟩

theorem setIpCksum_some_iff (h : Begun pkt p) (h34 : 34 ≤ pkt.data.length) :
    (∃ p', p.setIpCksum d sizeofEtherHdr = some p') ↔
      (d.txOffloadIpv4Cksum pkt.portId = false →
        sizeofEtherHdr + pkt.ipHdrLen ≤ pkt.mem.length) := by
  have hport : p.portId = pkt.portId := by rw [portId, h.port]; rfl
  have hlen := h.length
  rw [← h.l3Len, ← hlen.2, ← hport, ← @calculateIpCksum_some_iff d]
  unfold setIpCksum
  cases d.txOffloadIpv4Cksum p.portId with
  | true => exact iff_of_true ⟨_, rfl⟩ nofun
  | false =>
    rw [if_neg Bool.false_ne_true]
    constructor
    · rintro ⟨p', hp'⟩ -
      obtain ⟨y, hy, -⟩ := Option.bind_eq_some_iff.mp hp'
      exact ⟨y, hy⟩
    · intro hy
      obtain ⟨y, hy⟩ := hy rfl
      rw [hy, Option.bind_eq_bind, Option.bind_some,
        store16_eq_put16 _ (by rw [hlen.1]; unfold sizeofEtherHdr; omega)]
      exact ⟨_, rfl⟩

/-! ## The whole call -/

theorem setChecksums_stages (h : 34 ≤ pkt.data.length)
    (hv : version (pkt.data.getD sizeofEtherHdr 0) = 4)
    (hset : pkt.onvmPktSetChecksums d = some p') :
    ∃ p, pkt.transported d = some p ∧ p.setIpCksum d sizeofEtherHdr = some p' := by
  rw [setChecksums_eq h hv] at hset
  exact Option.bind_eq_some_iff.mp hset

/-- **When the call comes to its end**: what the software sums can be read, and a
transport checksum has its field in the packet. -/
theorem setChecksums_some_iff (h : 34 ≤ pkt.data.length)
    (hv : version (pkt.data.getD sizeofEtherHdr 0) = 4) :
    (∃ p', pkt.onvmPktSetChecksums d = some p') ↔
      (∀ k ∈ pkt.l4Of, L4Fits d k pkt) ∧
      (d.txOffloadIpv4Cksum pkt.portId = false →
        sizeofEtherHdr + pkt.ipHdrLen ≤ pkt.mem.length) := by
  constructor
  · rintro ⟨p', hset⟩
    obtain ⟨p, hp, hp'⟩ := setChecksums_stages h hv hset
    exact ⟨(transported_some_iff h).mp ⟨p, hp⟩,
      (setIpCksum_some_iff (.of_transported hp) h).mp ⟨p', hp'⟩⟩
  · rintro ⟨hl4, hip⟩
    obtain ⟨p, hp⟩ := (transported_some_iff h).mpr hl4
    obtain ⟨p', hp'⟩ := (setIpCksum_some_iff (.of_transported hp) h).mpr hip
    exact ⟨p', by rw [setChecksums_eq h hv, hp, Option.bind_some, hp']⟩

/-- The header lengths that a call leaves in the packet. -/
theorem setChecksums_lens (h : 34 ≤ pkt.data.length)
    (hv : version (pkt.data.getD sizeofEtherHdr 0) = 4)
    (hset : pkt.onvmPktSetChecksums d = some p') :
    p'.l2Len = sizeofEtherHdr ∧ p'.l3Len = pkt.ipHdrLen := by
  obtain ⟨p, hp, hp'⟩ := setChecksums_stages h hv hset
  have hb := Begun.of_transported hp
  obtain ⟨-, -, h2, h3, -⟩ := setIpCksum_some hp'
  exact ⟨h2.trans hb.l2Len, h3.trans hb.l3Len⟩

/-- Nothing but the two checksum fields changes. -/
theorem setChecksums_frame (h : 34 ≤ pkt.data.length)
    (hv : version (pkt.data.getD sizeofEtherHdr 0) = 4) (hk : pkt.l4Of = some k)
    (hset : pkt.onvmPktSetChecksums d = some p') :
    ∃ x y, p'.data = put16 (put16 pkt.data (34 + k.cksumOff) x) 24 y := by
  obtain ⟨p, hp, hp'⟩ := setChecksums_stages h hv hset
  rw [transported, hk] at hp
  obtain ⟨-, x, hst⟩ := L4.setCksum_some hp
  have hd0 : p.data = put16 (put16 pkt.data (34 + k.cksumOff) x) 24 0 := by
    rw [hst.data]
    exact put16_comm _ _ (by omega)
  obtain ⟨hdata, -⟩ := setIpCksum_some hp'
  rcases hdata with hdata | ⟨y, -, hdata⟩
  · exact ⟨x, 0, hdata.trans hd0⟩
  · exact ⟨x, y, by rw [hdata, hd0, put16_put16]⟩

structure IsIpv4 (pkt : RteMbuf) : Prop where
  version : version (pkt.data.getD sizeofEtherHdr 0) = 4
  ihl : 5 ≤ ihl (pkt.data.getD sizeofEtherHdr 0)
  fits : sizeofEtherHdr + pkt.ipHdrLen ≤ pkt.data.length

theorem IsIpv4.length (h : pkt.IsIpv4) : 20 ≤ pkt.ipHdrLen ∧ 34 ≤ pkt.data.length := by
  have h1 := h.ihl
  have h2 := h.fits
  unfold ipHdrLen sizeofEtherHdr at *
  omega

/-- The header of `pkt`, in the bytes of `pkt'`, verifies. -/
def IpVerifies (pkt pkt' : RteMbuf) : Prop :=
  ones (wordSum (bytesAt pkt'.data sizeofEtherHdr pkt.ipHdrLen)) = 0xffff

instance (pkt pkt' : RteMbuf) : Decidable (IpVerifies pkt pkt') := inferInstanceAs (Decidable (_ = _))

theorem IsIpv4.verifies (hd : d.RawCksum) (h : pkt.IsIpv4)
    (hoff : d.txOffloadIpv4Cksum pkt.portId = false)
    (hset : pkt.onvmPktSetChecksums d = some p') : IpVerifies pkt p' := by
  have h20 := h.length
  have hle := pkt.ipHdrLen_le
  obtain ⟨p, hp, hp'⟩ := setChecksums_stages h20.2 h.version hset
  have hb := Begun.of_transported hp
  obtain ⟨b, hdata, hlen⟩ := hb.data
  have hport : p.portId = pkt.portId := by rw [portId, hb.port]; rfl
  obtain ⟨-, hsoft, -⟩ := setIpCksum_some hp'
  obtain ⟨y, hy, hstored⟩ := hsoft (hport ▸ hoff)
  rw [mem, hdata, hb.l3Len] at hy
  rw [IpVerifies, hstored, hdata, put16_put16]
  exact calculateIpCksum_valid hd (by omega) (by omega) (hlen ▸ h.fits) hy

/-- An empty UDP datagram: 28 bytes behind the Ethernet header. -/
def emptyUdp : RteMbuf where
  data := List.replicate 12 0 ++ [8, 0,
    0x45, 0, 0, 28, 0, 0, 0, 0, 64, 17, 0, 0, 10, 0, 0, 1, 10, 0, 0, 2,
    4, 0, 8, 0, 0, 8, 0, 0]
  behind := List.replicate 8192 0

/-- A UDP datagram of 256 bytes in a buffer with 2048 more. -/
def longUdp : RteMbuf where
  data := List.replicate 12 0 ++ [8, 0,
    0x45, 0, 1, 0, 0, 0, 0, 0, 64, 17, 0, 0, 10, 0, 0, 1, 10, 0, 0, 2,
    4, 0, 8, 0, 0, 236, 0, 0] ++ List.replicate 228 0
  behind := List.replicate 2048 0

theorem emptyUdp_isIpv4 : emptyUdp.IsIpv4 := ⟨by decide, by decide, by decide⟩

end RteMbuf

end Onvm.Nflib

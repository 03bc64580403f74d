import Onvm.Afxdp.XdpProg
import Onvm.Nflib.Cksum
import Onvm.Nflib.FlowTable

/-!
# Where the transport header starts

Four places compute the offset of the TCP or UDP header: `onvm_pkt_tcp_hdr` and
`onvm_pkt_udp_hdr`, and through them `onvm_ft_fill_key`, add the size of an IPv4 header
without options; `xdp_sock_prog` and `onvm_pkt_set_checksums` use the length in the
header. They agree on packets without options, and on packets that are neither TCP nor
UDP.
-/

namespace Onvm.Nflib.RteMbuf

open Onvm.Lib Onvm.Afxdp

namespace Ipv4

variable {pkt : RteMbuf} {versionIhl proto : Byte}

theorem tcpHdr_eq (h : pkt.Ipv4 versionIhl proto) : pkt.onvmPktTcpHdr =
    some (if proto = ipProtocolTcp then some (sizeofEtherHdr + sizeofIpv4Hdr) else none) :=
  h.l4Hdr_eq ipProtocolTcp

theorem udpHdr_eq (h : pkt.Ipv4 versionIhl proto) : pkt.onvmPktUdpHdr =
    some (if proto = ipProtocolUdp then some (sizeofEtherHdr + sizeofIpv4Hdr) else none) :=
  h.l4Hdr_eq ipProtocolUdp

/-- What `onvm_pkt_set_checksums` records before it sums anything, and leaves in the packet
if it comes to its end. -/
theorem setChecksums_lens (h : pkt.Ipv4 versionIhl proto) (d : Dpdk) :
    (∃ p, pkt.beginCksum sizeofEtherHdr = some p ∧ p.l2Len = sizeofEtherHdr ∧
      p.l3Len = RteMbuf.ihl versionIhl * 4) ∧
    ∀ pkt', pkt.onvmPktSetChecksums d = some pkt' → pkt'.l2Len = sizeofEtherHdr ∧
      pkt'.l3Len = RteMbuf.ihl versionIhl * 4 := by
  have h34 : 34 ≤ pkt.data.length := Nat.le_of_add_right_le h.length_le_min
  have hbyte : pkt.data.getD sizeofEtherHdr 0 = versionIhl := by
    rw [List.getD_eq_getElem?_getD, show pkt.data[sizeofEtherHdr]? = _ from h.readsVersionIhl]
    rfl
  have hlen : pkt.ipHdrLen = RteMbuf.ihl versionIhl * 4 := by rw [ipHdrLen, hbyte]
  refine ⟨⟨_, beginCksum_eq h34, rfl, hlen⟩, fun pkt' hset => ?_⟩
  rw [← hlen]
  exact RteMbuf.setChecksums_lens h34 (hbyte.symm ▸ h.version) hset

end Ipv4

/-! ## The transport header -/

/-- The header of the protocol, if it is the packet's, is where a function says. -/
def HdrAt (hdr : Option (Option Nat)) (protocol proto : Byte) (l4 : Nat) : Prop :=
  hdr = some (if proto = protocol then some l4 else none)

def Records (pkt pkt' : RteMbuf) (proto : Byte) : Prop :=
  HdrAt pkt.onvmPktTcpHdr ipProtocolTcp proto (pkt'.l2Len + pkt'.l3Len) ∧
    HdrAt pkt.onvmPktUdpHdr ipProtocolUdp proto (pkt'.l2Len + pkt'.l3Len)

/-- All places agree with the packet on where its transport header starts, and the key
is that of its flow. -/
structure HeaderFound (d : Dpdk) (pkt : RteMbuf) (versionIhl proto : Byte) : Prop where
  fillKey : ∃ f, pkt.flow = some f ∧ pkt.onvmFtFillKey = some (.ok f.key)
  tcpHdr : HdrAt pkt.onvmPktTcpHdr ipProtocolTcp proto (sizeofEtherHdr + ihl versionIhl * 4)
  udpHdr : HdrAt pkt.onvmPktUdpHdr ipProtocolUdp proto (sizeofEtherHdr + ihl versionIhl * 4)
  xdp : HdrAt pkt.onvmPktTcpHdr ipProtocolTcp proto (tcphOff versionIhl)
  /-- The lengths that `onvm_pkt_set_checksums` records before it sums anything. -/
  recorded : ∃ p, pkt.beginCksum sizeofEtherHdr = some p ∧ Records pkt p proto
  checksums : ∀ pkt', pkt.onvmPktSetChecksums d = some pkt' → Records pkt pkt' proto

/-- **The transport header** is found exactly in packets without IP options and packets
that are neither TCP nor UDP. -/
theorem headerFound_iff (d : Dpdk) {pkt : RteMbuf} {versionIhl proto : Byte}
    (h : pkt.Ipv4 versionIhl proto) :
    HeaderFound d pkt versionIhl proto ↔ PortsInPlace versionIhl proto := by
  constructor
  · intro hf
    by_cases ht : proto = ipProtocolTcp
    · have h1 := hf.tcpHdr
      rw [HdrAt, h.tcpHdr_eq, if_pos ht, if_pos ht] at h1
      refine .inl ?_
      simp only [Option.some.injEq, sizeofIpv4Hdr] at h1
      omega
    · by_cases hu : proto = ipProtocolUdp
      · have h1 := hf.udpHdr
        rw [HdrAt, h.udpHdr_eq, if_pos hu, if_pos hu] at h1
        refine .inl ?_
        simp only [Option.some.injEq, sizeofIpv4Hdr] at h1
        omega
      · exact .inr ⟨ht, hu⟩
  · intro hp
    have htcp : HdrAt pkt.onvmPktTcpHdr ipProtocolTcp proto
        (sizeofEtherHdr + ihl versionIhl * 4) := by
      rw [HdrAt, h.tcpHdr_eq]
      rcases hp with hp | hp
      · rw [hp]
        rfl
      · rw [if_neg hp.1, if_neg hp.1]
    have hudp : HdrAt pkt.onvmPktUdpHdr ipProtocolUdp proto
        (sizeofEtherHdr + ihl versionIhl * 4) := by
      rw [HdrAt, h.udpHdr_eq]
      rcases hp with hp | hp
      · rw [hp]
        rfl
      · rw [if_neg hp.2, if_neg hp.2]
    obtain ⟨f, hf, -⟩ := h.flow_inside
    obtain ⟨⟨p, hbegin, hl2, hl3⟩, hset⟩ := h.setChecksums_lens d
    have hrecords : ∀ p' : RteMbuf, p'.l2Len = sizeofEtherHdr → p'.l3Len = ihl versionIhl * 4 →
        Records pkt p' proto := by
      intro p' h2 h3
      rw [Records, h2, h3]
      exact ⟨htcp, hudp⟩
    exact ⟨⟨f, hf, h.fillKey_eq ((h.flowRead_eq hp).trans hf)⟩, htcp, hudp, htcp,
      ⟨p, hbegin, hrecords p hl2 hl3⟩,
      fun pkt' h' => hrecords pkt' (hset pkt' h').1 (hset pkt' h').2⟩

/-- A TCP segment with one word of IP options. -/
def optionsSegment : RteMbuf where
  data := [0, 0, 0, 0, 0, 0, 0, 0, 0, 0, 0, 0, 0x08, 0x00,
    0x46, 0, 0, 44, 0, 0, 0, 0, 64, 6, 0, 0, 10, 0, 0, 1, 10, 0, 0, 2, 1, 1, 1, 1,
    0, 80, 0, 90, 0, 0, 0, 0, 0, 0, 0, 0, 0x50, 0, 0, 0, 0, 0, 0, 0]

theorem ipv4_optionsSegment : optionsSegment.Ipv4 0x46 ipProtocolTcp where
  etherType := rfl
  readsVersionIhl := rfl
  version := rfl
  ihl := by decide
  readsProto := rfl
  totalLength := ⟨44, rfl, by decide, Nat.le_refl 58⟩

theorem headerFound_iff_segment : HeaderFound softDpdk (segment 1 80 2 90) 0x45 ipProtocolTcp :=
  (headerFound_iff softDpdk (ipv4_segment 1 80 2 90)).mpr (by decide)

/-- The options are taken for the ports. -/
theorem optionsSegment_wrong_ports : optionsSegment.Ipv4 0x46 ipProtocolTcp ∧
    optionsSegment.flow = some ⟨6, ⟨0x0100000a, 0x5000⟩, ⟨0x0200000a, 0x5a00⟩⟩ ∧
    optionsSegment.onvmFtFillKey = some (.ok ⟨0x0100000a, 0x0200000a, 0x0101, 0x0101, 6⟩) ∧
    optionsSegment.onvmPktTcpHdr = some (some 34) ∧ tcphOff 0x46 = 38 ∧
    ¬ HeaderFound softDpdk optionsSegment 0x46 ipProtocolTcp := by
  refine ⟨ipv4_optionsSegment, rfl, rfl, rfl, rfl, fun h => ?_⟩
  have h38 : optionsSegment.onvmPktTcpHdr = some (some 38) := h.tcpHdr
  have h34 : optionsSegment.onvmPktTcpHdr = some (some 34) := rfl
  exact absurd (h34.symm.trans h38) (by decide)

end Onvm.Nflib.RteMbuf

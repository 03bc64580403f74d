import Onvm.Lib.Bytes

/-!
# Headers and checksums of packets

The header accessors of `onvm_pkt_helper.c` and `onvm_pkt_set_checksums` on the bytes
of a packet. A pointer into the packet is its offset from `rte_pktmbuf_mtod`; a
function that returns a pointer has no value when it reads behind the last byte, and
the value `none` when the pointer is NULL. `rte_raw_cksum` is given lengths that lead
out of the packet: it reads on as far as there is memory, and behind that the call
does not return.
-/

namespace Onvm.Nflib

open Onvm.Lib

def sizeofEtherHdr : Nat := 14

/-- `sizeof(struct rte_ipv4_hdr)`: the header without options. -/
def sizeofIpv4Hdr : Nat := 20

def ipProtocolTcp : Byte := 6

def ipProtocolUdp : Byte := 17

/-- `struct rte_mbuf`, with its data in one segment. -/
structure RteMbuf where
  data : List Byte
  /-- What can be read behind the data: the rest of the buffer and what is mapped there. -/
  behind : List Byte := []
  port : Nat := 0
  l2Len : Nat := 0
  l3Len : Nat := 0
  l4Len : Nat := 0
  olFlags : BitVec 64 := 0
  /-- `hash.rss` -/
  hashRss : BitVec 32 := 0
  /-- What the last `onvm_pkt_set_checksums` summed of the packet for a transport checksum:
  first bytes and lengths. No function of the program reads it. -/
  summed : List (Nat × Nat) := []

namespace RteMbuf

def mem (pkt : RteMbuf) : List Byte := pkt.data ++ pkt.behind

/-! ## Headers -/

def versionIhl (pkt : RteMbuf) (ip : Nat) : Option Byte := pkt.data[ip]?

def nextProtoId (pkt : RteMbuf) (ip : Nat) : Option Byte := pkt.data[ip + 9]?

def srcAddr (pkt : RteMbuf) (ip : Nat) : Option (BitVec 32) := load32 pkt.data (ip + 12)

def dstAddr (pkt : RteMbuf) (ip : Nat) : Option (BitVec 32) := load32 pkt.data (ip + 16)

def srcPort (pkt : RteMbuf) (l4 : Nat) : Option (BitVec 16) := load16 pkt.data l4

def dstPort (pkt : RteMbuf) (l4 : Nat) : Option (BitVec 16) := load16 pkt.data (l4 + 2)

/-- The upper and the lower half of `version_ihl`. -/
def version (b : Byte) : Byte := (b >>> 4) &&& 0b1111

def ihl (b : Byte) : Nat := (b &&& 0b1111).toNat

def onvmPktIpv4Hdr (pkt : RteMbuf) : Option (Option Nat) := do
  let versionIhl ← pkt.versionIhl sizeofEtherHdr
  if version versionIhl ≠ 4 then some none else some (some sizeofEtherHdr)

/-- The header after an IPv4 header without options, for packets of one protocol. -/
def l4Hdr (protocol : Byte) (pkt : RteMbuf) : Option (Option Nat) := do
  match ← pkt.onvmPktIpv4Hdr with
  | none => some none
  | some ipv4 =>
    if (← pkt.nextProtoId ipv4) ≠ protocol then some none
    else some (some (sizeofEtherHdr + sizeofIpv4Hdr))

def onvmPktTcpHdr (pkt : RteMbuf) : Option (Option Nat) := pkt.l4Hdr ipProtocolTcp

def onvmPktUdpHdr (pkt : RteMbuf) : Option (Option Nat) := pkt.l4Hdr ipProtocolUdp

def onvmPktIsIpv4 (pkt : RteMbuf) : Option Bool := do some (← pkt.onvmPktIpv4Hdr).isSome

end RteMbuf

/-! ## Checksums -/

/-- What the checksum functions take from DPDK. `rteRawCksum b` is `rte_raw_cksum` of a
buffer that holds `b`, `rteIpv4PhdrCksum b i flags` the pseudo-header checksum for the IPv4
header at `i`; the rest is `tx_offload_capa` of a port. -/
structure Dpdk where
  rteRawCksum : List Byte → BitVec 16
  rteIpv4PhdrCksum : List Byte → Nat → BitVec 64 → BitVec 16
  txOffloadIpv4Cksum : Nat → Bool
  txOffloadTcpCksum : Nat → Bool
  txOffloadUdpCksum : Nat → Bool

def pktTxIpv4 : BitVec 64 := 1 <<< 55

def pktTxIpCksum : BitVec 64 := 1 <<< 54

def pktTxTcpCksum : BitVec 64 := 1 <<< 52

def pktTxUdpCksum : BitVec 64 := 3 <<< 52

/-- The loop that adds the upper half of a sum to the lower one. -/
def foldCksum (cksum : Nat) : Nat :=
  if 2 ^ 16 ≤ cksum then foldCksum (cksum / 2 ^ 16 + cksum % 2 ^ 16) else cksum
  termination_by cksum
  decreasing_by omega

namespace RteMbuf

/-- `l4_len` of `calculate_tcpudp_cksum`. `total_length` is not converted to the byte
order of the machine, and the difference is one of `uint32_t`. -/
def tcpudpLen (totalLength : BitVec 16) (l3Len : Nat) : BitVec 32 :=
  totalLength.setWidth 32 - BitVec.ofNat 32 l3Len

def pseudoHdr (saddr daddr : List Byte) (protocol : Byte) (l4Len : BitVec 32) : List Byte :=
  saddr ++ daddr ++ [0, protocol, l4Len.extractLsb' 0 8, l4Len.extractLsb' 8 8]

/-- The checksum, and the bytes that were summed for it. -/
def calculateTcpudpCksum (d : Dpdk) (mem : List Byte) (ip l4Hdr l3Len : Nat) (protocol : Byte) :
    Option (BitVec 16 × Nat × Nat) := do
  let l4Len := tcpudpLen (← load16 mem (ip + 2)) l3Len
  let ph := pseudoHdr (← readBytes mem (ip + 12) 4) (← readBytes mem (ip + 16) 4) protocol l4Len
  let l4 ← readBytes mem l4Hdr l4Len.toNat
  let cksum := (d.rteRawCksum ph).toNat + (d.rteRawCksum l4).toNat
  some (~~~ BitVec.ofNat 16 (foldCksum cksum), l4Hdr, l4Len.toNat)

def calculateIpCksum (d : Dpdk) (mem : List Byte) (ip l3Len : Nat) : Option (BitVec 16) := do
  let cksum := d.rteRawCksum (← readBytes mem ip l3Len)
  some (if cksum = 0xffff then cksum else ~~~ cksum)

/-- `port_id` of `onvm_pkt_get_checksum_offload_flags`, a `uint8_t`. -/
def portId (pkt : RteMbuf) : Nat := pkt.port % 2 ^ 8

/-- The TCP or UDP part of `onvm_pkt_set_checksums`: the checksum field is at
`l4 + off`, and `offload` says whether the port computes the checksum. -/
def setL4Cksum (d : Dpdk) (protocol : Byte) (off : Nat) (l4Len : Nat) (offload : Bool)
    (flag : BitVec 64) (ip l4 : Nat) (pkt : RteMbuf) : Option RteMbuf := do
  let data ← store16 pkt.data (l4 + off) 0
  let pkt := { pkt with data := data, l4Len := l4Len }
  if offload then
    let data ← store16 data (l4 + off) (d.rteIpv4PhdrCksum data ip pkt.olFlags)
    some { pkt with data := data, olFlags := pkt.olFlags ||| flag }
  else
    let (cksum, summed) ← calculateTcpudpCksum d pkt.mem ip l4 pkt.l3Len protocol
    some { pkt with data := ← store16 data (l4 + off) cksum, summed := pkt.summed ++ [summed] }

/-- `l4_len` of a TCP packet is `data_off`, a number of words. -/
def setTcpCksum (d : Dpdk) (ip tcp : Nat) (pkt : RteMbuf) : Option RteMbuf := do
  let dataOff ← pkt.data[tcp + 12]?
  pkt.setL4Cksum d ipProtocolTcp 16 ((dataOff >>> 4) &&& 0b1111).toNat
    (d.txOffloadTcpCksum pkt.portId) pktTxTcpCksum ip tcp

def setUdpCksum (d : Dpdk) (ip udp : Nat) (pkt : RteMbuf) : Option RteMbuf :=
  pkt.setL4Cksum d ipProtocolUdp 6 8 (d.txOffloadUdpCksum pkt.portId) pktTxUdpCksum ip udp

def setIpCksum (d : Dpdk) (ip : Nat) (pkt : RteMbuf) : Option RteMbuf := do
  if d.txOffloadIpv4Cksum pkt.portId then some { pkt with olFlags := pkt.olFlags ||| pktTxIpCksum }
  else
    let cksum ← calculateIpCksum d pkt.mem ip pkt.l3Len
    some { pkt with data := ← store16 pkt.data (ip + 10) cksum }

/-- The checksum cleared, and where the headers end. -/
def beginCksum (ip : Nat) (pkt : RteMbuf) : Option RteMbuf := do
  let versionIhl ← pkt.versionIhl ip
  some { pkt with
    data := ← store16 pkt.data (ip + 10) 0
    l2Len := sizeofEtherHdr
    l3Len := ihl versionIhl * 4
    olFlags := pkt.olFlags ||| pktTxIpv4
    summed := [] }

def onvmPktSetChecksums (d : Dpdk) (pkt : RteMbuf) : Option RteMbuf := do
  let ip ← pkt.onvmPktIpv4Hdr
  let tcp ← pkt.onvmPktTcpHdr
  let udp ← pkt.onvmPktUdpHdr
  match ip with
  | none => some pkt
  | some ip =>
    let pkt ← pkt.beginCksum ip
    let pkt ← tcp.elim (some pkt) fun tcp => pkt.setTcpCksum d ip tcp
    let pkt ← udp.elim (some pkt) fun udp => pkt.setUdpCksum d ip udp
    pkt.setIpCksum d ip

end RteMbuf

end Onvm.Nflib

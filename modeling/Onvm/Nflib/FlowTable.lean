import Onvm.Nflib.PktHelper

/-!
# Flow keys

The keys of `onvm_flow_table.h`: `onvm_ft_fill_key` reads the addresses, the protocol
and the ports of a packet, `onvm_ft_fill_key_symmetric` is meant to give both
directions of a connection the same key. Addresses and ports are the words that are
in the packet, in network byte order.

`flowAt` is the flow of a packet whose ports are taken from a given offset. The flow
the packet belongs to has its ports behind the whole IPv4 header (`flow`); the flow
that the key is made of has them behind the first 20 bytes (`flowRead`).
-/

namespace Onvm.Nflib

open Onvm.Lib

def eProtonosupport : Int := 93

structure OnvmFtIpv4_5tuple where
  srcAddr : BitVec 32
  dstAddr : BitVec 32
  srcPort : BitVec 16
  dstPort : BitVec 16
  proto : Byte
  deriving DecidableEq, Repr

namespace RteMbuf

def keyFields (pkt : RteMbuf) : Option OnvmFtIpv4_5tuple := do
  let ipv4Hdr ← (← pkt.onvmPktIpv4Hdr)
  let proto ← pkt.nextProtoId ipv4Hdr
  let srcAddr ← pkt.srcAddr ipv4Hdr
  let dstAddr ← pkt.dstAddr ipv4Hdr
  if proto = ipProtocolTcp then
    let tcpHdr ← (← pkt.onvmPktTcpHdr)
    some ⟨srcAddr, dstAddr, ← pkt.srcPort tcpHdr, ← pkt.dstPort tcpHdr, proto⟩
  else if proto = ipProtocolUdp then
    let udpHdr ← (← pkt.onvmPktUdpHdr)
    some ⟨srcAddr, dstAddr, ← pkt.srcPort udpHdr, ← pkt.dstPort udpHdr, proto⟩
  else some ⟨srcAddr, dstAddr, 0, 0, proto⟩

def onvmFtFillKey (pkt : RteMbuf) : Option (Except Int OnvmFtIpv4_5tuple) := do
  if (← pkt.onvmPktIsIpv4) = false then some (.error (-eProtonosupport))
  else some (.ok (← pkt.keyFields))

theorem fillKey_error {pkt : RteMbuf} {err : Int} (h : pkt.onvmFtFillKey = some (.error err)) :
    err = -eProtonosupport := by
  simp only [onvmFtFillKey, Option.bind_eq_bind, Option.bind_eq_some_iff] at h
  obtain ⟨isIpv4, -, h⟩ := h
  split at h
  · cases h
    rfl
  · simp only [Option.bind_eq_some_iff] at h
    obtain ⟨key, -, h⟩ := h
    cases h

end RteMbuf

namespace OnvmFtIpv4_5tuple

/-- The larger address becomes the source address. -/
def orderAddrs (key : OnvmFtIpv4_5tuple) : OnvmFtIpv4_5tuple :=
  if key.dstAddr > key.srcAddr then
    { key with dstAddr := key.srcAddr, srcAddr := key.dstAddr }
  else key

/-- The larger port becomes the source port. -/
def orderPorts (key : OnvmFtIpv4_5tuple) : OnvmFtIpv4_5tuple :=
  if key.dstPort > key.srcPort then
    { key with dstPort := key.srcPort, srcPort := key.dstPort }
  else key

end OnvmFtIpv4_5tuple

def RteMbuf.onvmFtFillKeySymmetric (pkt : RteMbuf) : Option (Except Int OnvmFtIpv4_5tuple) := do
  match ← pkt.onvmFtFillKey with
  | .error _ => some (.error (-eProtonosupport))
  | .ok key => some (.ok key.orderAddrs.orderPorts)

/-! ## IPv4 packets -/

/-- What a TCP or UDP header takes; other packets have no ports. -/
def l4HdrLen (proto : Byte) : Nat :=
  if proto = ipProtocolTcp then 20 else if proto = ipProtocolUdp then 8 else 0

/-- A well-formed IPv4 packet in an Ethernet frame: the header has at least five words,
and `total_length` covers it and the transport header and lies in the frame. -/
structure RteMbuf.Ipv4 (pkt : RteMbuf) (versionIhl proto : Byte) : Prop where
  etherType : load16 pkt.data 12 = some (bswap16 0x0800)
  readsVersionIhl : pkt.versionIhl sizeofEtherHdr = some versionIhl
  version : RteMbuf.version versionIhl = 4
  ihl : 5 ≤ RteMbuf.ihl versionIhl
  readsProto : pkt.nextProtoId sizeofEtherHdr = some proto
  totalLength : ∃ len, load16 pkt.data (sizeofEtherHdr + 2) = some (bswap16 len) ∧
    RteMbuf.ihl versionIhl * 4 + l4HdrLen proto ≤ len.toNat ∧
    sizeofEtherHdr + len.toNat ≤ pkt.data.length

structure Endpoint where
  addr : BitVec 32
  port : BitVec 16
  deriving DecidableEq, Repr

structure Flow where
  proto : Byte
  src : Endpoint
  dst : Endpoint
  deriving DecidableEq, Repr

namespace Flow

def Same (f g : Flow) : Prop :=
  f.proto = g.proto ∧ (f.src = g.src ∧ f.dst = g.dst ∨ f.src = g.dst ∧ f.dst = g.src)

instance (f g : Flow) : Decidable (f.Same g) := inferInstanceAs (Decidable (_ ∧ _))

def crossPorts (f : Flow) : Flow where
  proto := f.proto
  src := ⟨f.src.addr, f.dst.port⟩
  dst := ⟨f.dst.addr, f.src.port⟩

/-- Two connections between the same two hosts, over the same two ports, each of which
is at the other host. -/
def Crossed (f g : Flow) : Prop :=
  f.src.addr ≠ f.dst.addr ∧ f.src.port ≠ f.dst.port ∧ f.crossPorts.Same g

instance (f g : Flow) : Decidable (f.Crossed g) := inferInstanceAs (Decidable (_ ∧ _ ∧ _))

def key (f : Flow) : OnvmFtIpv4_5tuple :=
  ⟨f.src.addr, f.dst.addr, f.src.port, f.dst.port, f.proto⟩

theorem not_same_of_crossed {f g : Flow} (h : f.Crossed g) : ¬ f.Same g := by
  obtain ⟨ha, hp, -, h | h⟩ := h
  · rintro ⟨-, h' | h'⟩
    · have hs := congrArg Endpoint.port (h'.1.trans h.1.symm)
      exact hp hs
    · have hs := congrArg Endpoint.addr (h'.1.trans h.2.symm)
      exact ha hs
  · rintro ⟨-, h' | h'⟩
    · have hs := congrArg Endpoint.addr (h'.1.trans h.2.symm)
      exact ha hs
    · have hs := congrArg Endpoint.port (h'.1.trans h.1.symm)
      exact hp hs

end Flow

namespace RteMbuf

/-- The flow of an IPv4 packet when its TCP or UDP header is at `l4`. -/
def flowAt (pkt : RteMbuf) (l4 : Nat) : Option Flow := do
  let proto ← pkt.nextProtoId sizeofEtherHdr
  let src ← pkt.srcAddr sizeofEtherHdr
  let dst ← pkt.dstAddr sizeofEtherHdr
  if proto = ipProtocolTcp ∨ proto = ipProtocolUdp then
    some ⟨proto, ⟨src, ← pkt.srcPort l4⟩, ⟨dst, ← pkt.dstPort l4⟩⟩
  else some ⟨proto, ⟨src, 0⟩, ⟨dst, 0⟩⟩

/-- The flow an IPv4 packet belongs to: the ports are behind the header and its
options. -/
def flow (pkt : RteMbuf) : Option Flow := do
  pkt.flowAt (sizeofEtherHdr + ihl (← pkt.versionIhl sizeofEtherHdr) * 4)

/-- The flow that `onvm_ft_fill_key` reads. -/
def flowRead (pkt : RteMbuf) : Option Flow := pkt.flowAt (sizeofEtherHdr + sizeofIpv4Hdr)

namespace Ipv4

variable {pkt : RteMbuf} {versionIhl proto : Byte}

/-- The header and the transport header lie in the frame. -/
theorem length_le (h : pkt.Ipv4 versionIhl proto) :
    sizeofEtherHdr + RteMbuf.ihl versionIhl * 4 + l4HdrLen proto ≤ pkt.data.length := by
  obtain ⟨len, -, h1, h2⟩ := h.totalLength
  omega

theorem length_le_min (h : pkt.Ipv4 versionIhl proto) :
    sizeofEtherHdr + sizeofIpv4Hdr + l4HdrLen proto ≤ pkt.data.length := by
  have h1 := h.length_le
  have h2 := h.ihl
  simp only [sizeofIpv4Hdr]
  omega

theorem flowAt_inside (h : pkt.Ipv4 versionIhl proto) {l4 : Nat}
    (hl : l4 + l4HdrLen proto ≤ pkt.data.length) :
    ∃ f, pkt.flowAt l4 = some f ∧ f.proto = proto := by
  have hlen := h.length_le_min
  simp only [sizeofEtherHdr, sizeofIpv4Hdr] at hlen
  obtain ⟨src, hsrc⟩ := load32_inside (by omega : 14 + 12 + 4 ≤ pkt.data.length)
  obtain ⟨dst, hdst⟩ := load32_inside (by omega : 14 + 16 + 4 ≤ pkt.data.length)
  have hsrc' : pkt.srcAddr sizeofEtherHdr = some src := hsrc
  have hdst' : pkt.dstAddr sizeofEtherHdr = some dst := hdst
  simp only [flowAt, h.readsProto, hsrc', hdst', Option.bind_eq_bind, Option.bind_some]
  by_cases hp : proto = ipProtocolTcp ∨ proto = ipProtocolUdp
  · have h8 : 8 ≤ l4HdrLen proto := by
      rcases hp with rfl | rfl <;> decide
    obtain ⟨sport, hs⟩ := load16_inside (by omega : l4 + 2 ≤ pkt.data.length)
    obtain ⟨dport, hd⟩ := load16_inside (by omega : l4 + 2 + 2 ≤ pkt.data.length)
    have hs' : pkt.srcPort l4 = some sport := hs
    have hd' : pkt.dstPort l4 = some dport := hd
    rw [if_pos hp, hs', hd']
    exact ⟨_, rfl, rfl⟩
  · rw [if_neg hp]
    exact ⟨_, rfl, rfl⟩

theorem flow_eq (h : pkt.Ipv4 versionIhl proto) :
    pkt.flow = pkt.flowAt (sizeofEtherHdr + RteMbuf.ihl versionIhl * 4) := by
  rw [flow, h.readsVersionIhl]
  rfl

theorem flow_inside (h : pkt.Ipv4 versionIhl proto) : ∃ f, pkt.flow = some f ∧ f.proto = proto := by
  rw [h.flow_eq]
  exact h.flowAt_inside h.length_le

theorem flowRead_inside (h : pkt.Ipv4 versionIhl proto) :
    ∃ f, pkt.flowRead = some f ∧ f.proto = proto := h.flowAt_inside h.length_le_min

theorem ipv4Hdr_eq (h : pkt.Ipv4 versionIhl proto) :
    pkt.onvmPktIpv4Hdr = some (some sizeofEtherHdr) := by
  rw [onvmPktIpv4Hdr, h.readsVersionIhl, Option.bind_eq_bind, Option.bind_some,
    if_neg (not_not.mpr h.version)]

theorem l4Hdr_eq (h : pkt.Ipv4 versionIhl proto) (protocol : Byte) :
    pkt.l4Hdr protocol = some (if proto = protocol then
      some (sizeofEtherHdr + sizeofIpv4Hdr) else none) := by
  rw [l4Hdr, h.ipv4Hdr_eq]
  simp only [Option.bind_eq_bind, Option.bind_some, h.readsProto]
  by_cases hp : proto = protocol
  · rw [if_neg (not_not.mpr hp), if_pos hp]
  · rw [if_pos hp, if_neg hp]

/-- **The key of a packet** is that of the flow read behind the first 20 bytes of its
header. -/
theorem fillKey_eq (h : pkt.Ipv4 versionIhl proto) {f : Flow} (hf : pkt.flowRead = some f) :
    pkt.onvmFtFillKey = some (.ok f.key) := by
  have htcp : pkt.onvmPktTcpHdr = _ := h.l4Hdr_eq ipProtocolTcp
  have hudp : pkt.onvmPktUdpHdr = _ := h.l4Hdr_eq ipProtocolUdp
  simp only [flowRead, flowAt, h.readsProto, Option.bind_eq_bind, Option.bind_some,
    Option.bind_eq_some_iff] at hf
  obtain ⟨src, hsrc, dst, hdst, hf⟩ := hf
  simp only [onvmFtFillKey, keyFields, onvmPktIsIpv4, h.ipv4Hdr_eq, h.readsProto, hsrc, hdst,
    htcp, hudp, Option.bind_eq_bind, Option.bind_some, Option.isSome_some, Bool.true_eq_false,
    if_false]
  by_cases hp : proto = ipProtocolTcp ∨ proto = ipProtocolUdp
  · rw [if_pos hp] at hf
    simp only [Option.bind_eq_some_iff] at hf
    obtain ⟨sport, hs, dport, hd, hf⟩ := hf
    cases hf
    rcases hp with hp | hp
    · rw [if_pos hp, if_pos hp, Option.bind_some, hs, hd]
      rfl
    · have hne : proto ≠ ipProtocolTcp := by
        rw [hp]
        decide
      rw [if_neg hne, if_pos hp, if_pos hp, Option.bind_some, hs, hd]
      rfl
  · rw [if_neg hp] at hf
    cases hf
    rw [if_neg fun h => hp (.inl h), if_neg fun h => hp (.inr h)]
    rfl

end Ipv4

end RteMbuf

/-! ## The symmetric key -/

def largerFirst {w : Nat} (x y : BitVec w) : BitVec w × BitVec w := if y > x then (y, x) else (x, y)

theorem largerFirst_eq_iff {w : Nat} {a b c d : BitVec w} :
    largerFirst a b = largerFirst c d ↔ a = c ∧ b = d ∨ a = d ∧ b = c := by
  constructor
  · intro h
    unfold largerFirst at h
    split at h <;> split at h <;> cases h <;> simp
  · rintro (⟨rfl, rfl⟩ | ⟨rfl, rfl⟩)
    · rfl
    · unfold largerFirst
      rcases BitVec.lt_trichotomy a b with h | rfl | h
      · rw [if_pos h, if_neg (BitVec.lt_asymm h)]
      · rfl
      · rw [if_neg (BitVec.lt_asymm h), if_pos h]

namespace Flow

theorem key_ordered (f : Flow) : f.key.orderAddrs.orderPorts =
    ⟨(largerFirst f.src.addr f.dst.addr).1, (largerFirst f.src.addr f.dst.addr).2,
      (largerFirst f.src.port f.dst.port).1, (largerFirst f.src.port f.dst.port).2, f.proto⟩ := by
  unfold OnvmFtIpv4_5tuple.orderPorts OnvmFtIpv4_5tuple.orderAddrs largerFirst key
  split <;> split <;> rfl

/-- The ordered keys of two flows are equal when the unordered addresses and the
unordered ports are. -/
theorem key_ordered_eq_iff {f g : Flow} :
    f.key.orderAddrs.orderPorts = g.key.orderAddrs.orderPorts ↔
      f.proto = g.proto ∧
      largerFirst f.src.addr f.dst.addr = largerFirst g.src.addr g.dst.addr ∧
      largerFirst f.src.port f.dst.port = largerFirst g.src.port g.dst.port := by
  rw [key_ordered, key_ordered, OnvmFtIpv4_5tuple.mk.injEq, Prod.ext_iff, Prod.ext_iff]
  tauto

/-- **What the symmetric key identifies**: the two directions of a flow, and flows whose
ports are crossed. -/
theorem key_ordered_eq_iff_same {f g : Flow} :
    f.key.orderAddrs.orderPorts = g.key.orderAddrs.orderPorts ↔ f.Same g ∨ f.Crossed g := by
  obtain ⟨p, ⟨a, x⟩, ⟨b, y⟩⟩ := f
  obtain ⟨q, ⟨c, z⟩, ⟨d, w⟩⟩ := g
  rw [key_ordered_eq_iff, largerFirst_eq_iff, largerFirst_eq_iff]
  simp only [Same, Crossed, crossPorts, Endpoint.mk.injEq]
  constructor
  · rintro ⟨hp, ha, hx⟩
    by_cases hab : a = b
    · grind
    · by_cases hxy : x = y
      · grind
      · grind
  · grind

end Flow

namespace RteMbuf

/-- `onvm_ft_fill_key_symmetric` gives both packets the same key. -/
def SameKey (p q : RteMbuf) : Prop :=
  ∃ key, p.onvmFtFillKeySymmetric = some (.ok key) ∧ q.onvmFtFillKeySymmetric = some (.ok key)

/-- The packets belong to one connection. -/
def SameFlow (p q : RteMbuf) : Prop := ∃ f ∈ p.flow, ∃ g ∈ q.flow, f.Same g

/-- The packets are between the same two hosts over the same two ports, each of which is at
the other host. -/
def Crossed (p q : RteMbuf) : Prop := ∃ f ∈ p.flow, ∃ g ∈ q.flow, f.Crossed g

/-- The packet has no ports, or its header no options. -/
def PortsInPlace (versionIhl proto : Byte) : Prop :=
  ihl versionIhl = 5 ∨ proto ≠ ipProtocolTcp ∧ proto ≠ ipProtocolUdp

instance (versionIhl proto : Byte) : Decidable (PortsInPlace versionIhl proto) :=
  inferInstanceAs (Decidable (_ ∨ _))

variable {p q : RteMbuf} {vp pp vq pq : Byte}

/-- Then the flow that is read is the packet's own. -/
theorem Ipv4.flowRead_eq (h : p.Ipv4 vp pp) (hp : PortsInPlace vp pp) : p.flowRead = p.flow := by
  rw [h.flow_eq, flowRead]
  rcases hp with hp | ⟨ht, hu⟩
  · rw [hp]
    rfl
  · have hn : ¬ (pp = ipProtocolTcp ∨ pp = ipProtocolUdp) := by
      rintro (h' | h')
      · exact ht h'
      · exact hu h'
    simp only [flowAt, h.readsProto, Option.bind_eq_bind, Option.bind_some, if_neg hn]

theorem Ipv4.fillKeySymmetric_eq (h : p.Ipv4 vp pp) {f : Flow} (hf : p.flowRead = some f) :
    p.onvmFtFillKeySymmetric = some (.ok f.key.orderAddrs.orderPorts) := by
  rw [onvmFtFillKeySymmetric, h.fillKey_eq hf]
  rfl

theorem Ipv4.sameKey_iff (hp : p.Ipv4 vp pp) (hq : q.Ipv4 vq pq) {f g : Flow}
    (hf : p.flowRead = some f) (hg : q.flowRead = some g) :
    SameKey p q ↔ f.key.orderAddrs.orderPorts = g.key.orderAddrs.orderPorts := by
  rw [SameKey, hp.fillKeySymmetric_eq hf, hq.fillKeySymmetric_eq hg]
  constructor
  · rintro ⟨key, h1, h2⟩
    simp only [Option.some.injEq, Except.ok.injEq] at h1 h2
    rw [h1, h2]
  · intro h
    exact ⟨_, rfl, by rw [h]⟩

/-! ### Ports in place -/

/-- Packets get the same key when their flows are the same or crossed. -/
theorem Ipv4.sameKey_iff_same (hp : p.Ipv4 vp pp) (hq : q.Ipv4 vq pq)
    (hpp : PortsInPlace vp pp) (hpq : PortsInPlace vq pq) :
    SameKey p q ↔ SameFlow p q ∨ Crossed p q := by
  obtain ⟨f, hf, -⟩ := hp.flow_inside
  obtain ⟨g, hg, -⟩ := hq.flow_inside
  rw [hp.sameKey_iff hq ((hp.flowRead_eq hpp).trans hf) ((hq.flowRead_eq hpq).trans hg),
    Flow.key_ordered_eq_iff_same]
  simp [SameFlow, Crossed, hf, hg]

theorem Crossed.not_sameFlow (h : Crossed p q) : ¬ SameFlow p q := by
  obtain ⟨f, hf, g, hg, hc⟩ := h
  rintro ⟨f', hf', g', hg', hs⟩
  obtain rfl : f = f' := Option.mem_unique hf hf'
  obtain rfl : g = g' := Option.mem_unique hg hg'
  exact Flow.not_same_of_crossed hc hs

/-! ### Options in the place of the ports -/

/-- The packet with another byte behind the first 20 of its IP header. -/
def otherByte (pkt : RteMbuf) : RteMbuf :=
  { pkt with data := pkt.data.set 34 (~~~ pkt.data.getD 34 0) }

theorem otherByte_byte (pkt : RteMbuf) {i : Nat} (h : i ≠ 34) :
    pkt.otherByte.data[i]? = pkt.data[i]? := List.getElem?_set_ne h.symm

theorem otherByte_load16 (pkt : RteMbuf) {i : Nat} (h : i ≠ 34) (h' : i + 1 ≠ 34) :
    load16 pkt.otherByte.data i = load16 pkt.data i :=
  load16_congr (pkt.otherByte_byte h) (pkt.otherByte_byte h')

theorem append_not_ne (x y : Byte) : x ++ y ≠ x ++ ~~~ y := by
  intro h
  have hbit := congrArg (·.getLsbD 0) h
  simp only [BitVec.getLsbD_append, BitVec.getLsbD_not, Nat.ofNat_pos, if_true, decide_true,
    Bool.true_and] at hbit
  exact Bool.not_ne_self _ hbit.symm

theorem otherByte_flowAt (pkt : RteMbuf) {l4 : Nat} (h : 34 < l4) :
    pkt.otherByte.flowAt l4 = pkt.flowAt l4 := by
  have hload : ∀ i, i ≠ 34 → i + 1 ≠ 34 → load16 pkt.otherByte.data i = load16 pkt.data i :=
    fun i h1 h2 => pkt.otherByte_load16 h1 h2
  have hproto : pkt.otherByte.nextProtoId sizeofEtherHdr = pkt.nextProtoId sizeofEtherHdr :=
    pkt.otherByte_byte (by decide)
  have haddr : ∀ i, i + 3 < 34 → load32 pkt.otherByte.data i = load32 pkt.data i := by
    intro i hi
    unfold load32
    rw [hload i (by omega) (by omega), hload (i + 2) (by omega) (by omega)]
  have hsrc : pkt.otherByte.srcAddr sizeofEtherHdr = pkt.srcAddr sizeofEtherHdr :=
    haddr _ (by decide)
  have hdst : pkt.otherByte.dstAddr sizeofEtherHdr = pkt.dstAddr sizeofEtherHdr :=
    haddr _ (by decide)
  have hsport : pkt.otherByte.srcPort l4 = pkt.srcPort l4 := hload _ (by omega) (by omega)
  have hdport : pkt.otherByte.dstPort l4 = pkt.dstPort l4 := hload _ (by omega) (by omega)
  unfold flowAt
  rw [hproto, hsrc, hdst, hsport, hdport]

theorem Ipv4.otherByte (h : p.Ipv4 vp pp) : p.otherByte.Ipv4 vp pp where
  etherType := (p.otherByte_load16 (by decide) (by decide)).trans h.etherType
  readsVersionIhl := (p.otherByte_byte (by decide)).trans h.readsVersionIhl
  version := h.version
  ihl := h.ihl
  readsProto := (p.otherByte_byte (by decide)).trans h.readsProto
  totalLength := by
    obtain ⟨len, hlen, hcover, hfit⟩ := h.totalLength
    have hsame : p.otherByte.data.length = p.data.length := List.length_set
    exact ⟨len, (p.otherByte_load16 (by decide) (by decide)).trans hlen, hcover, hsame ▸ hfit⟩

theorem Ipv4.otherByte_flowRead (h : p.Ipv4 vp pp) (hports : pp = ipProtocolTcp ∨ pp = ipProtocolUdp)
    {f g : Flow} (hf : p.flowRead = some f) (hg : p.otherByte.flowRead = some g) :
    f.src.port ≠ g.src.port ∧ f.dst.port = g.dst.port := by
  have h8 : 8 ≤ l4HdrLen pp := by
    rcases hports with rfl | rfl <;> decide
  have hlen := h.length_le_min
  unfold sizeofEtherHdr sizeofIpv4Hdr at hlen
  simp only [flowRead, flowAt, h.readsProto, h.otherByte.readsProto, Option.bind_eq_bind,
    Option.bind_some, if_pos hports, Option.bind_eq_some_iff] at hf hg
  obtain ⟨src, -, dst, -, sport, hs, dport, hd, hf⟩ := hf
  obtain ⟨src', -, dst', -, sport', hs', dport', hd', hg⟩ := hg
  cases hf
  cases hg
  constructor
  · rintro rfl
    have h34 : p.otherByte.data[34]? = some (~~~ p.data[34]) := by
      rw [RteMbuf.otherByte, List.getElem?_set_self (by omega), List.getD_eq_getElem _ _ (by omega)]
    have h34' : p.data[34]? = some p.data[34] := List.getElem?_eq_getElem (by omega)
    have h35 : p.data[35]? = some p.data[35] := List.getElem?_eq_getElem (by omega)
    have h35' : p.otherByte.data[35]? = some p.data[35] :=
      (p.otherByte_byte (by decide)).trans h35
    have hload : load16 p.data 34 = some (p.data[35] ++ p.data[34]) := by rw [load16, h34', h35]
    have hload' : load16 p.otherByte.data 34 = some (p.data[35] ++ ~~~ p.data[34]) := by
      rw [load16, h34, h35']
    exact append_not_ne _ _ (Option.some.inj ((hload.symm.trans hs).trans (hs'.symm.trans hload')))
  · exact Option.some.inj (hd.symm.trans
      ((p.otherByte_load16 (by decide) (by decide)).symm.trans hd'))

/-- **The symmetric key** identifies a connection exactly for packets that are not crossed,
where the ports are read from the right place. A packet with options there has a key unlike
that of some packet of its own connection. -/
theorem symmetric_key_iff (hp : p.Ipv4 vp pp) :
    (PortsInPlace vp pp → ∀ {q : RteMbuf} {vq pq : Byte}, q.Ipv4 vq pq → PortsInPlace vq pq →
      ((SameKey p q ↔ SameFlow p q) ↔ ¬ Crossed p q)) ∧
    (¬ PortsInPlace vp pp → ∃ q : RteMbuf, q.Ipv4 vp pp ∧ SameFlow p q ∧ ¬ SameKey p q) := by
  constructor
  · intro hpp q vq pq hq hpq
    rw [hp.sameKey_iff_same hq hpp hpq]
    constructor
    · intro h hc
      exact hc.not_sameFlow (h.mp (.inr hc))
    · intro hc
      exact ⟨fun h => h.resolve_right hc, .inl⟩
  · intro hout
    obtain ⟨hihl, hports⟩ := not_or.mp hout
    have hports : pp = ipProtocolTcp ∨ pp = ipProtocolUdp := by
      by_contra hno
      exact hports (not_or.mp hno)
    have h5 := hp.ihl
    refine ⟨p.otherByte, hp.otherByte, ?_, fun hkey => ?_⟩
    · obtain ⟨f, hf, -⟩ := hp.flow_inside
      have hg : p.otherByte.flow = some f := by
        rw [hp.otherByte.flow_eq, p.otherByte_flowAt (by unfold sizeofEtherHdr; omega),
          ← hp.flow_eq, hf]
      exact ⟨f, hf, f, hg, rfl, .inl ⟨rfl, rfl⟩⟩
    · obtain ⟨f, hf, -⟩ := hp.flowRead_inside
      obtain ⟨g, hg, -⟩ := hp.otherByte.flowRead_inside
      obtain ⟨hs, hd⟩ := hp.otherByte_flowRead hports hf hg
      obtain ⟨-, -, heq⟩ := Flow.key_ordered_eq_iff.mp ((hp.sameKey_iff hp.otherByte hf hg).mp hkey)
      rcases largerFirst_eq_iff.mp heq with ⟨h, -⟩ | ⟨h, h'⟩
      · exact hs h
      · exact hs (h.trans (hd.symm.trans h'))

/-- A TCP segment from `10.0.0.src` to `10.0.0.dst`, without options and payload. -/
def segment (src sport dst dport : Byte) : RteMbuf where
  data := [0, 0, 0, 0, 0, 0, 0, 0, 0, 0, 0, 0, 0x08, 0x00,
    0x45, 0, 0, 40, 0, 0, 0, 0, 64, 6, 0, 0, 10, 0, 0, src, 10, 0, 0, dst,
    0, sport, 0, dport, 0, 0, 0, 0, 0, 0, 0, 0, 0x50, 0, 0, 0, 0, 0, 0, 0]

theorem ipv4_segment (src sport dst dport : Byte) :
    (segment src sport dst dport).Ipv4 0x45 ipProtocolTcp where
  etherType := rfl
  readsVersionIhl := rfl
  version := rfl
  ihl := by decide
  readsProto := rfl
  totalLength := ⟨40, rfl, by decide, Nat.le_refl 54⟩

/-- A segment and the answer to it. -/
theorem symmetric_key_iff_answer :
    SameKey (segment 1 80 2 90) (segment 2 90 1 80) ↔
      SameFlow (segment 1 80 2 90) (segment 2 90 1 80) :=
  ((symmetric_key_iff (ipv4_segment 1 80 2 90)).1 (by decide) (ipv4_segment 2 90 1 80)
    (by decide)).mpr (by unfold Crossed; decide)

/-- From port 80 to port 90 and from port 90 to port 80 of the same two hosts. -/
theorem symmetric_key_merges :
    (segment 1 80 2 90).Ipv4 0x45 ipProtocolTcp ∧ (segment 1 90 2 80).Ipv4 0x45 ipProtocolTcp ∧
      SameKey (segment 1 80 2 90) (segment 1 90 2 80) ∧
      ¬ SameFlow (segment 1 80 2 90) (segment 1 90 2 80) := by
  refine ⟨ipv4_segment 1 80 2 90, ipv4_segment 1 90 2 80, ?_, ?_⟩
  · exact ⟨_, rfl, by decide⟩
  · unfold SameFlow
    decide

end RteMbuf

end Onvm.Nflib

import Onvm.Nflib.Cksum

/-!
# What the software TCP and UDP checksum is worth

A segment verifies when its words and those of its pseudo header have the
ones'-complement sum `0xffff`. `calculate_tcpudp_cksum` takes the total length in
the byte order of the wire, and the transport header where it is in a packet
without IP options. So the checksum is right only for packets on which both
happen not to matter (`tcpudp_cksum_iff`).
-/

namespace Onvm.Nflib

open Onvm.Lib

def L4.hdrLen : L4 → Nat
  | .tcp => 20
  | .udp => 8

structure Dpdk.NoOffload (d : Dpdk) (port : Nat) : Prop where
  ipv4 : d.txOffloadIpv4Cksum port = false
  tcp : d.txOffloadTcpCksum port = false
  udp : d.txOffloadUdpCksum port = false

theorem softDpdk_noOffload (port : Nat) : softDpdk.NoOffload port := ⟨rfl, rfl, rfl⟩

theorem Dpdk.NoOffload.l4 {d : Dpdk} {port : Nat} (h : d.NoOffload port) (k : L4) :
    k.offload d port = false := by
  cases k with
  | tcp => exact h.tcp
  | udp => exact h.udp

/-- The loop of `calculate_tcpudp_cksum` folds all the carries in. -/
theorem foldCksum_eq (n : Nat) : foldCksum n = ones n := by
  induction n using foldCksum.induct with
  | case1 n h ih => rw [foldCksum, if_pos h, ih, ones_fold h]
  | case2 n h => rw [foldCksum, if_neg h, ones_of_lt (Nat.lt_of_not_le h)]

namespace RteMbuf

variable {d : Dpdk} {pkt pkt' : RteMbuf} {k : L4}

/-! ## The segment -/

def totalLength (pkt : RteMbuf) : Nat :=
  256 * (pkt.data.getD 16 0).toNat + (pkt.data.getD 17 0).toNat

/-- A whole packet of one of the two protocols. -/
structure WellFormed (k : L4) (pkt : RteMbuf) : Prop where
  version : version (pkt.data.getD sizeofEtherHdr 0) = 4
  ihl : 5 ≤ ihl (pkt.data.getD sizeofEtherHdr 0)
  carries : pkt.protocolOf = k.protocol
  total : pkt.ipHdrLen + k.hdrLen ≤ pkt.totalLength
  whole : sizeofEtherHdr + pkt.totalLength ≤ pkt.data.length

def beWord (n : Nat) : Nat := 256 * (n % 256) + n / 256

def l4Length (pkt : RteMbuf) : Nat := pkt.totalLength - pkt.ipHdrLen

/-- The transport header and its data, in the bytes of a packet with these headers. -/
def l4Segment (pkt : RteMbuf) (b : List Byte) : List Byte :=
  bytesAt b (sizeofEtherHdr + pkt.ipHdrLen) pkt.l4Length

def rfcPseudoHdr (pkt : RteMbuf) (k : L4) : List Byte :=
  bytesAt pkt.data 26 4 ++ (bytesAt pkt.data 30 4 ++
    [0, k.protocol, BitVec.ofNat 8 (pkt.l4Length / 256), BitVec.ofNat 8 pkt.l4Length])

/-- What the call should leave behind. -/
structure CksumRight (k : L4) (pkt pkt' : RteMbuf) : Prop where
  valid : ones (wordSum (pkt.rfcPseudoHdr k ++ pkt.l4Segment pkt'.data)) = 0xffff
  inside : ∀ r ∈ pkt'.summed, ∀ i, r.1 ≤ i → i < r.1 + r.2 →
    sizeofEtherHdr + pkt.ipHdrLen ≤ i ∧ i < sizeofEtherHdr + pkt.totalLength
  frame : ∀ i, i ≠ 24 → i ≠ 25 → i ≠ sizeofEtherHdr + pkt.ipHdrLen + k.cksumOff →
    i ≠ sizeofEtherHdr + pkt.ipHdrLen + k.cksumOff + 1 → pkt'.data[i]? = pkt.data[i]?

def addrSum (k : L4) (b : List Byte) : Nat :=
  wordSum (bytesAt b 26 4) + wordSum (bytesAt b 30 4) + 256 * k.protocol.toNat

/-- The segment of a packet without IP options, its checksum field cleared. -/
def clearedSegment (pkt : RteMbuf) (k : L4) : List Byte :=
  pkt.l4Segment (put16 pkt.data (34 + k.cksumOff) 0)

/-- The words behind the first `n` bytes of that segment. -/
def leftOut (pkt : RteMbuf) (k : L4) (n : Nat) : Nat :=
  wordSum (List.replicate n 0 ++ (pkt.clearedSegment k).drop n)

/-- The packets it does so for. Without options: the swapped length is no longer than the
true one, and the bytes that it leaves out add up to the error that it makes in the pseudo
header. With options: the swapped length is that of the IP header alone, and the word where
the checksum field is without options is the complement of addresses and protocol, and what
the segment and its length add up to. -/
def CksumFits (k : L4) (pkt : RteMbuf) : Prop :=
  if pkt.ipHdrLen = sizeofIpv4Hdr then
    sizeofIpv4Hdr ≤ pkt.hostLength ∧ pkt.hostLength ≤ pkt.totalLength ∧
      (beWord pkt.l4Length + pkt.leftOut k (pkt.hostLength - sizeofIpv4Hdr)) % 0xffff =
        (pkt.hostLength - sizeofIpv4Hdr) % 0xffff
  else
    pkt.hostLength = pkt.ipHdrLen ∧ ∃ w, load16 pkt.data (34 + k.cksumOff) = some w ∧
      w.toNat = 0xffff - ones (addrSum k pkt.data) ∧
      (beWord pkt.l4Length + wordSum (pkt.l4Segment pkt.data)) % 0xffff = w.toNat % 0xffff

/-! ## What the call does -/

theorem totalLength_lt (pkt : RteMbuf) : pkt.totalLength < 2 ^ 16 := by
  have h1 := (pkt.data.getD 16 0).isLt
  have h2 := (pkt.data.getD 17 0).isLt
  unfold totalLength
  omega

/-- The code's sum: addresses and protocol, the length it has computed, and that
many bytes from the pointer it has. -/
theorem calculateTcpudpCksum_eq (hd : d.RawCksum) {mem : List Byte} {l3Len : Nat}
    {protocol : Byte} {tl c : BitVec 16} {r : Nat × Nat} (htl : load16 mem 16 = some tl)
    (hc : calculateTcpudpCksum d mem sizeofEtherHdr 34 l3Len protocol = some (c, r)) :
    r = (34, (tcpudpLen tl l3Len).toNat) ∧ 34 + r.2 ≤ mem.length ∧ (r.2 < 2 ^ 16 →
      c.toNat = 0xffff - ones (wordSum (bytesAt mem 26 4) + wordSum (bytesAt mem 30 4) +
        256 * protocol.toNat + r.2 + wordSum (bytesAt mem 34 r.2))) := by
  unfold calculateTcpudpCksum at hc
  rw [show sizeofEtherHdr + 2 = 16 from rfl, htl, show sizeofEtherHdr + 12 = 26 from rfl,
    show sizeofEtherHdr + 16 = 30 from rfl] at hc
  simp only [Option.bind_eq_bind, Option.bind_some, Option.bind_eq_some_iff,
    readBytes_eq_some_iff] at hc
  obtain ⟨-, ⟨h1, rfl⟩, -, ⟨h2, rfl⟩, -, ⟨h3, rfl⟩, hc⟩ := hc
  cases hc
  refine ⟨rfl, h3, fun hlt => ?_⟩
  generalize tcpudpLen tl l3Len = l4Len at h3 hlt ⊢
  have hsrc : (bytesAt mem 26 4).length % 2 = 0 := by rw [length_bytesAt h1]
  have hdst : (bytesAt mem 30 4).length % 2 = 0 := by rw [length_bytesAt h2]
  have hph : wordSum (pseudoHdr (bytesAt mem 26 4) (bytesAt mem 30 4) protocol l4Len) =
      wordSum (bytesAt mem 26 4) + wordSum (bytesAt mem 30 4) + 256 * protocol.toNat +
        l4Len.toNat := by
    have h0 : (0 : Byte).toNat = 0 := rfl
    rw [pseudoHdr, List.append_assoc, wordSum_append _ hsrc, wordSum_append _ hdst]
    simp only [wordSum, BitVec.extractLsb'_toNat, Nat.shiftRight_eq_div_pow]
    omega
  have hraw := hd.raw (bytesAt mem 34 l4Len.toNat) (by rw [length_bytesAt h3]; exact hlt)
  have hraw' := hd.raw (pseudoHdr (bytesAt mem 26 4) (bytesAt mem 30 4) protocol l4Len) (by
    simp only [pseudoHdr, List.length_append, length_bytesAt h1, length_bytesAt h2,
      List.length_cons, List.length_nil]
    omega)
  rw [hph] at hraw'
  rw [hraw, hraw', toNat_ofNat_ones, toNat_ofNat_ones, foldCksum_eq, ones_ones_add,
    toNat_not_ones]

theorem addrSum_pos (k : L4) (b : List Byte) : 0 < addrSum k b := by
  unfold addrSum
  cases k
  · exact Nat.lt_of_lt_of_le (by decide : 0 < 256 * (6 : Byte).toNat) (Nat.le_add_left _ _)
  · exact Nat.lt_of_lt_of_le (by decide : 0 < 256 * (17 : Byte).toNat) (Nat.le_add_left _ _)

theorem leftOut_add (h5 : pkt.ipHdrLen = sizeofIpv4Hdr) {n : Nat} (hn : n ≤ pkt.l4Length) :
    wordSum (bytesAt (put16 pkt.data (34 + k.cksumOff) 0) 34 n) + pkt.leftOut k n =
      wordSum (pkt.clearedSegment k) := by
  have hseg : bytesAt (put16 pkt.data (34 + k.cksumOff) 0) 34 n =
      (pkt.clearedSegment k).take n := by
    rw [clearedSegment, l4Segment, h5]
    show _ = (bytesAt (put16 pkt.data (34 + k.cksumOff) 0) 34 pkt.l4Length).take n
    rw [bytesAt, bytesAt, List.take_take, Nat.min_eq_left hn]
  rw [hseg, leftOut, wordSum_take_add]

namespace WellFormed

theorem isIpv4 (h : WellFormed k pkt) : pkt.IsIpv4 := by
  have h1 := h.total
  have h2 := h.whole
  exact ⟨h.version, h.ihl, by omega⟩

theorem l4Of (h : WellFormed k pkt) : pkt.l4Of = some k := by
  unfold RteMbuf.l4Of
  rw [h.carries]
  cases k <;> decide

theorem field_inside (h : WellFormed k pkt) : 34 + k.cksumOff + 2 ≤ pkt.data.length := by
  have h20 := h.isIpv4.length
  have htotal := h.total
  have hwhole := h.whole
  unfold sizeofEtherHdr at hwhole
  cases k <;> simp only [L4.hdrLen, L4.cksumOff] at htotal ⊢ <;> omega

/-- The call comes to its end if what it sums is there. -/
theorem setChecksums_exists (h : WellFormed k pkt) (hsum : 34 + pkt.l4Summed ≤ pkt.mem.length) :
    ∃ pkt', pkt.onvmPktSetChecksums d = some pkt' := by
  have hip := h.isIpv4
  refine (setChecksums_some_iff hip.length.2 hip.version).mpr ⟨fun k' hk' => ?_, fun _ => ?_⟩
  · obtain rfl : k = k' := Option.some.inj (h.l4Of.symm.trans hk')
    exact ⟨h.field_inside, fun _ => hsum⟩
  · have := hip.fits
    rw [mem, List.length_append]
    omega

/-- **What the call stores and reads** on a port without offload: a word in each of the two
places, and one range of bytes. -/
theorem setChecksums (hd : d.RawCksum) (h : WellFormed k pkt) (hno : d.NoOffload pkt.portId)
    (hset : pkt.onvmPktSetChecksums d = some pkt') :
    pkt'.summed = [(34, pkt.l4Summed)] ∧ ∃ c ck,
      pkt'.data = put16 (put16 pkt.data (34 + k.cksumOff) c) 24 ck ∧
      (pkt.l4Summed < 2 ^ 16 → 34 + pkt.l4Summed ≤ pkt.data.length →
        c.toNat = 0xffff - ones (addrSum k pkt.data + pkt.l4Summed +
          wordSum (bytesAt (put16 pkt.data (34 + k.cksumOff) 0) 34 pkt.l4Summed))) := by
  have hip := h.isIpv4
  have h34 := hip.length.2
  obtain ⟨p, hp, hp'⟩ := setChecksums_stages h34 hip.version hset
  have hport : p.portId = pkt.portId := by rw [portId, (Begun.of_transported hp).port]; rfl
  rw [transported, h.l4Of] at hp
  obtain ⟨hin, c, hst⟩ := L4.setCksum_some hp
  obtain ⟨r, hr, hc⟩ := hst.software (hno.l4 k)
  obtain ⟨-, hsoft, -, -, hsummed⟩ := setIpCksum_some hp'
  obtain ⟨ck, -, hdata⟩ := hsoft (hport ▸ hno.ipv4)
  -- the memory that is read, up to the two cleared fields
  have hswap : put16 (put16 pkt.data 24 0) (34 + k.cksumOff) 0 =
      put16 (put16 pkt.data (34 + k.cksumOff) 0) 24 0 := put16_comm _ _ (by omega)
  have hmem : put16 pkt.begun.data (34 + k.cksumOff) 0 ++ pkt.begun.behind =
      put16 (put16 pkt.data (34 + k.cksumOff) 0) 24 0 ++ pkt.behind := congrArg (· ++ _) hswap
  have hlen : (put16 (put16 pkt.data (34 + k.cksumOff) 0) 24 0).length = pkt.data.length := by
    rw [length_put16, length_put16]
  have htl : load16 (put16 (put16 pkt.data (34 + k.cksumOff) 0) 24 0 ++ pkt.behind) 16 =
      some (BitVec.ofNat 16 pkt.hostLength) := by
    have hkeep : ∀ i, i < 24 → (put16 (put16 pkt.data (34 + k.cksumOff) 0) 24 0 ++
        pkt.behind)[i]? = pkt.data[i]? := by
      intro i hi
      rw [List.getElem?_append_left (by omega), getElem?_put16_of_ne _ (by omega) (by omega),
        getElem?_put16_of_ne _ (by omega) (by omega)]
    rw [load16_congr (hkeep 16 (by omega)) (hkeep 17 (by omega)), load16_eq (by omega)]
    rfl
  rw [hmem] at hc
  obtain ⟨hrange, -, hcksum⟩ := calculateTcpudpCksum_eq hd htl hc
  have hn : r.2 = pkt.l4Summed := by rw [hrange]; rfl
  refine ⟨?_, c, ck, ?_, fun hlt hsum => ?_⟩
  · rw [hsummed, hr, hrange]
    rfl
  · have hswap' : put16 (put16 pkt.data 24 0) (34 + k.cksumOff) c =
        put16 (put16 pkt.data (34 + k.cksumOff) c) 24 0 := put16_comm _ _ (by omega)
    have hp0 : p.data = put16 (put16 pkt.data (34 + k.cksumOff) c) 24 0 := hst.data.trans hswap'
    rw [hdata, hp0, put16_put16]
  · -- neither store touches the addresses
    have haddr : ∀ j, 26 ≤ j → j + 4 ≤ 34 →
        bytesAt (put16 (put16 pkt.data (34 + k.cksumOff) 0) 24 0 ++ pkt.behind) j 4 =
          bytesAt pkt.data j 4 := by
      intro j h1 h2
      rw [bytesAt_append (by omega), bytesAt_put16_of_ge _ (by omega),
        bytesAt_put16_of_le _ (by omega)]
    rw [hcksum (hn ▸ hlt), hn, haddr 26 (by omega) (by omega), haddr 30 (by omega) (by omega),
      bytesAt_append (by rw [hlen]; exact hsum), bytesAt_put16_of_ge _ (by omega)]
    rfl

theorem pseudoSum (h : WellFormed k pkt) (l : List Byte) :
    wordSum (pkt.rfcPseudoHdr k ++ l) = addrSum k pkt.data + beWord pkt.l4Length + wordSum l := by
  have h34 := h.isIpv4.length.2
  have htl := pkt.totalLength_lt
  have hlen : pkt.l4Length < 2 ^ 16 := by unfold l4Length; omega
  have hsrc : (bytesAt pkt.data 26 4).length % 2 = 0 := by rw [length_bytesAt (by omega)]
  have hdst : (bytesAt pkt.data 30 4).length % 2 = 0 := by rw [length_bytesAt (by omega)]
  have h0 : (0 : Byte).toNat = 0 := rfl
  rw [rfcPseudoHdr, List.append_assoc, List.append_assoc, wordSum_append _ hsrc,
    wordSum_append _ hdst]
  simp only [List.cons_append, List.nil_append, wordSum, BitVec.toNat_ofNat, addrSum, beWord]
  omega

/-- A segment verifies when its words cancel those of the pseudo header. -/
theorem valid_iff (h : WellFormed k pkt) (l : List Byte) :
    ones (wordSum (pkt.rfcPseudoHdr k ++ l)) = 0xffff ↔
      (addrSum k pkt.data + beWord pkt.l4Length + wordSum l) % 0xffff = 0 := by
  have hpos := addrSum_pos k pkt.data
  rw [h.pseudoSum, ones_eq_iff]
  exact and_iff_right (by omega)

/-! ## Where the bytes that are summed lie -/

/-- Options are a multiple of 4 bytes. -/
theorem options_lt (h : WellFormed k pkt) (h5 : pkt.ipHdrLen ≠ sizeofIpv4Hdr) :
    38 ≤ sizeofEtherHdr + pkt.ipHdrLen := by
  have h20 := h.isIpv4.length
  unfold sizeofIpv4Hdr at h5
  unfold ipHdrLen sizeofEtherHdr at *
  omega

/-- What is summed starts behind 20 bytes of IP header, and has the wrong length. -/
theorem summed_inside_plain (h : WellFormed k pkt) (h5 : pkt.ipHdrLen = sizeofIpv4Hdr) :
    (∀ i, 34 ≤ i → i < 34 + pkt.l4Summed →
      sizeofEtherHdr + pkt.ipHdrLen ≤ i ∧ i < sizeofEtherHdr + pkt.totalLength) ↔
        20 ≤ pkt.hostLength ∧ pkt.hostLength ≤ pkt.totalLength := by
  have hlen : pkt.ipHdrLen = 20 := h5
  have htotal := h.total
  have hhost := pkt.hostLength_lt
  have htl := pkt.totalLength_lt
  have hsummed := pkt.l4Summed_eq
  rw [hlen] at htotal hsummed
  rw [hlen]
  unfold sizeofEtherHdr
  constructor
  · intro hi
    by_contra hout
    have := hi (34 + pkt.l4Summed - 1) (by omega) (by omega)
    omega
  · intro hle i h1 h2
    omega

/-- Behind 20 bytes there are options, none of which may be summed. -/
theorem summed_inside_options (h : WellFormed k pkt) (h5 : pkt.ipHdrLen ≠ sizeofIpv4Hdr) :
    (∀ i, 34 ≤ i → i < 34 + pkt.l4Summed →
      sizeofEtherHdr + pkt.ipHdrLen ≤ i ∧ i < sizeofEtherHdr + pkt.totalLength) ↔
        pkt.hostLength = pkt.ipHdrLen := by
  have h38 := h.options_lt h5
  have hhost := pkt.hostLength_lt
  have hsummed := pkt.l4Summed_eq
  have hle := pkt.ipHdrLen_le
  constructor
  · intro hi
    by_contra hne
    have := (hi 34 (Nat.le_refl _) (by omega)).1
    omega
  · intro heq i h1 h2
    omega

/-! ## Without options -/

/-- Without options the checksum field is where the code looks for it. -/
theorem right_iff_plain (hd : d.RawCksum) (h : WellFormed k pkt) (hno : d.NoOffload pkt.portId)
    (h5 : pkt.ipHdrLen = sizeofIpv4Hdr) (hset : pkt.onvmPktSetChecksums d = some pkt') :
    CksumRight k pkt pkt' ↔ CksumFits k pkt := by
  have hlen : pkt.ipHdrLen = 20 := h5
  have htotal := h.total
  have hwhole := h.whole
  have htl := pkt.totalLength_lt
  have hn := pkt.l4Summed_eq
  have hoff : k.cksumOff % 2 = 0 ∧ k.cksumOff + 2 ≤ k.hdrLen := by cases k <;> decide
  have hl4 : pkt.l4Length = pkt.totalLength - 20 := by rw [l4Length, hlen]
  obtain ⟨hsummed, c, ck, hdata, hc⟩ := h.setChecksums hd hno hset
  rw [hlen] at htotal hn
  unfold sizeofEtherHdr at hwhole
  have hsum : wordSum (pkt.l4Segment pkt'.data) = wordSum (pkt.clearedSegment k) + c.toNat := by
    rw [clearedSegment, l4Segment, l4Segment, hdata, hlen, show sizeofEtherHdr + 20 = 34 from rfl,
      bytesAt_put16_of_ge _ (by omega), bytesAt_put16, bytesAt_put16,
      wordSum_put16 c hoff.1 (by rw [length_bytesAt (by omega)]; omega)]
  have hframe : ∀ i, i ≠ 24 → i ≠ 25 → i ≠ sizeofEtherHdr + pkt.ipHdrLen + k.cksumOff →
      i ≠ sizeofEtherHdr + pkt.ipHdrLen + k.cksumOff + 1 → pkt'.data[i]? = pkt.data[i]? := by
    intro i h1 h2 h3 h4
    rw [hlen] at h3 h4
    unfold sizeofEtherHdr at h3 h4
    rw [hdata, getElem?_put16_of_ne _ h1 h2, getElem?_put16_of_ne _ (by omega) (by omega)]
  have hinside : (∀ r ∈ pkt'.summed, ∀ i, r.1 ≤ i → i < r.1 + r.2 →
      sizeofEtherHdr + pkt.ipHdrLen ≤ i ∧ i < sizeofEtherHdr + pkt.totalLength) ↔
        20 ≤ pkt.hostLength ∧ pkt.hostLength ≤ pkt.totalLength := by
    rw [hsummed, List.forall_mem_singleton]
    exact h.summed_inside_plain h5
  -- once the bytes lie in the segment, the stored word cancels what is left out or not
  have hvalid : 20 ≤ pkt.hostLength → pkt.hostLength ≤ pkt.totalLength →
      ((addrSum k pkt.data + beWord pkt.l4Length + wordSum (pkt.l4Segment pkt'.data)) % 0xffff = 0 ↔
        (beWord pkt.l4Length + pkt.leftOut k (pkt.hostLength - 20)) % 0xffff =
          (pkt.hostLength - 20) % 0xffff) := by
    intro h1 h2
    have hs : pkt.l4Summed = pkt.hostLength - 20 := by omega
    have hcn := hc (by omega) (by omega)
    have hleft := leftOut_add (k := k) h5 (n := pkt.hostLength - 20) (by omega)
    rw [hs] at hcn
    have hm := ones_mod (addrSum k pkt.data + (pkt.hostLength - 20) +
      wordSum (bytesAt (put16 pkt.data (34 + k.cksumOff) 0) 34 (pkt.hostLength - 20)))
    have hlt := ones_lt (addrSum k pkt.data + (pkt.hostLength - 20) +
      wordSum (bytesAt (put16 pkt.data (34 + k.cksumOff) 0) 34 (pkt.hostLength - 20)))
    rw [hsum]
    omega
  unfold CksumFits
  rw [if_pos h5, show sizeofIpv4Hdr = 20 from rfl]
  constructor
  · rintro ⟨hv, hi, -⟩
    obtain ⟨h1, h2⟩ := hinside.mp hi
    exact ⟨h1, h2, (hvalid h1 h2).mp ((h.valid_iff _).mp hv)⟩
  · rintro ⟨h1, h2, h3⟩
    exact ⟨(h.valid_iff _).mpr ((hvalid h1 h2).mpr h3), hinside.mpr ⟨h1, h2⟩, hframe⟩

/-! ## With options -/

/-- The stored word is in nobody's checksum field: the packet keeps its bytes when the
word was there before. -/
theorem frame_options (h : WellFormed k pkt) (h5 : pkt.ipHdrLen ≠ sizeofIpv4Hdr)
    {c ck : BitVec 16} (hdata : pkt'.data = put16 (put16 pkt.data (34 + k.cksumOff) c) 24 ck) :
    (∀ i, i ≠ 24 → i ≠ 25 → i ≠ sizeofEtherHdr + pkt.ipHdrLen + k.cksumOff →
      i ≠ sizeofEtherHdr + pkt.ipHdrLen + k.cksumOff + 1 → pkt'.data[i]? = pkt.data[i]?) ↔
        load16 pkt.data (34 + k.cksumOff) = some c := by
  have h38 := h.options_lt h5
  rw [load16_eq_some_iff h.field_inside]
  constructor
  · intro hfr
    apply List.ext_getElem?
    intro j
    by_cases hj : j = 34 + k.cksumOff ∨ j = 34 + k.cksumOff + 1
    · have hkeep := hfr j (by omega) (by omega) (by omega) (by omega)
      rw [hdata, getElem?_put16_of_ne _ (by omega) (by omega)] at hkeep
      exact hkeep
    · rw [getElem?_put16_of_ne _ (by omega) (by omega)]
  · intro hput i h1 h2 _ _
    rw [hdata, hput, getElem?_put16_of_ne _ h1 h2]

/-- The field is not where the code looks for it, and whatever is summed is none of the
segment. -/
theorem right_iff_options (hd : d.RawCksum) (h : WellFormed k pkt) (hno : d.NoOffload pkt.portId)
    (h5 : pkt.ipHdrLen ≠ sizeofIpv4Hdr) (hset : pkt.onvmPktSetChecksums d = some pkt') :
    CksumRight k pkt pkt' ↔ CksumFits k pkt := by
  have h38 := h.options_lt h5
  have hn := pkt.l4Summed_eq
  have hin := h.field_inside
  obtain ⟨hsummed, c, ck, hdata, hc⟩ := h.setChecksums hd hno hset
  have hinside : (∀ r ∈ pkt'.summed, ∀ i, r.1 ≤ i → i < r.1 + r.2 →
      sizeofEtherHdr + pkt.ipHdrLen ≤ i ∧ i < sizeofEtherHdr + pkt.totalLength) ↔
        pkt.hostLength = pkt.ipHdrLen := by
    rw [hsummed, List.forall_mem_singleton]
    exact h.summed_inside_options h5
  have hword : pkt.hostLength = pkt.ipHdrLen → c.toNat = 0xffff - ones (addrSum k pkt.data) := by
    intro heq
    have hs : pkt.l4Summed = 0 := by omega
    have hcn := hc (by omega) (by omega)
    rw [hs] at hcn
    exact hcn
  have hframe := h.frame_options h5 hdata
  have hseg : load16 pkt.data (34 + k.cksumOff) = some c →
      pkt.l4Segment pkt'.data = pkt.l4Segment pkt.data := by
    intro hl
    rw [l4Segment, hdata, (load16_eq_some_iff hin).mp hl, bytesAt_put16_of_ge _ (by omega)]
    rfl
  have hvalid : ∀ w : BitVec 16, w.toNat = 0xffff - ones (addrSum k pkt.data) →
      ((addrSum k pkt.data + beWord pkt.l4Length + wordSum (pkt.l4Segment pkt.data)) % 0xffff = 0 ↔
        (beWord pkt.l4Length + wordSum (pkt.l4Segment pkt.data)) % 0xffff = w.toNat % 0xffff) := by
    intro w hw
    have hm := ones_mod (addrSum k pkt.data)
    have hlt := ones_lt (addrSum k pkt.data)
    omega
  unfold CksumFits
  rw [if_neg h5]
  constructor
  · rintro ⟨hv, hi, hfr⟩
    have heq := hinside.mp hi
    have hl := hframe.mp hfr
    rw [hseg hl] at hv
    exact ⟨heq, c, hl, hword heq, (hvalid c (hword heq)).mp ((h.valid_iff _).mp hv)⟩
  · rintro ⟨heq, w, hl, hw, hv⟩
    obtain rfl : w = c := BitVec.eq_of_toNat_eq (hw.trans (hword heq).symm)
    refine ⟨?_, hinside.mpr heq, hframe.mpr hl⟩
    rw [hseg hl]
    exact (h.valid_iff _).mpr ((hvalid w hw).mpr hv)

/-- What fits is in the packet, so that the call comes to its end. -/
theorem summed_of_fits (h : WellFormed k pkt) (hf : CksumFits k pkt) :
    34 + pkt.l4Summed ≤ pkt.mem.length := by
  have h34 := h.isIpv4.length.2
  have hwhole := h.whole
  have hn := pkt.l4Summed_eq
  unfold sizeofEtherHdr at hwhole
  rw [mem, List.length_append]
  unfold CksumFits at hf
  split at hf
  · rename_i h5
    unfold sizeofIpv4Hdr at h5 hf
    omega
  · omega

end WellFormed

/-- **The software TCP and UDP checksum verifies, is taken over the segment and
changes nothing else, exactly for the packets on which the swapped length and
the pointer to the header happen not to matter.** -/
theorem tcpudp_cksum_iff (hd : d.RawCksum) (h : WellFormed k pkt) (hno : d.NoOffload pkt.portId) :
    (∃ pkt', pkt.onvmPktSetChecksums d = some pkt' ∧ CksumRight k pkt pkt') ↔
      CksumFits k pkt := by
  have hright : ∀ pkt', pkt.onvmPktSetChecksums d = some pkt' →
      (CksumRight k pkt pkt' ↔ CksumFits k pkt) := by
    intro pkt' hset
    by_cases h5 : pkt.ipHdrLen = sizeofIpv4Hdr
    · exact h.right_iff_plain hd hno h5 hset
    · exact h.right_iff_options hd hno h5 hset
  constructor
  · rintro ⟨pkt', hset, hr⟩
    exact (hright pkt' hset).mp hr
  · intro hf
    obtain ⟨pkt', hset⟩ := h.setChecksums_exists (d := d) (h.summed_of_fits hf)
    exact ⟨pkt', hset, (hright pkt' hset).mpr hf⟩

/-- A UDP datagram of 513 bytes, of which the first 258 are summed; the bytes `ec 13`
are among those left out. -/
def luckyUdp : RteMbuf where
  data := List.replicate 12 0 ++ [8, 0,
    0x45, 0, 2, 1, 0, 0, 0, 0, 64, 17, 0, 0, 10, 0, 0, 1, 10, 0, 0, 2,
    4, 0, 8, 0, 1, 237, 0, 0] ++ List.replicate 232 0 ++ [0xec, 0x13] ++ List.replicate 251 0

theorem tcpudp_cksum_iff_luckyUdp : ∃ pkt', luckyUdp.onvmPktSetChecksums softDpdk = some pkt' ∧
    CksumRight .udp luckyUdp pkt' :=
  (tcpudp_cksum_iff softDpdk_rawCksum
    ⟨by decide, by decide, by decide, by decide, by decide +kernel⟩ (softDpdk_noOffload _)).mpr
      (by unfold CksumFits; decide +kernel)

theorem emptyUdp_wellFormed : WellFormed .udp emptyUdp :=
  ⟨by decide, by decide, by decide, by decide, by decide⟩

/-- Of this packet 7148 bytes are summed. -/
theorem emptyUdp_overread : ¬ ∀ (d : Dpdk) (k : L4) (pkt : RteMbuf), d.RawCksum →
    WellFormed k pkt → d.NoOffload pkt.portId →
      ∃ pkt', pkt.onvmPktSetChecksums d = some pkt' ∧ CksumRight k pkt pkt' := by
  intro h
  obtain ⟨pkt', hset, hright⟩ :=
    h softDpdk .udp emptyUdp softDpdk_rawCksum emptyUdp_wellFormed (softDpdk_noOffload _)
  obtain ⟨hsummed, -⟩ :=
    emptyUdp_wellFormed.setChecksums softDpdk_rawCksum (softDpdk_noOffload _) hset
  have hlen : emptyUdp.l4Summed = 7148 := by decide +kernel
  rw [hlen] at hsummed
  have hbyte := hright.inside (34, 7148) (by rw [hsummed]; exact List.mem_singleton_self _) 42
    (by decide) (by decide)
  exact absurd hbyte.2 (by decide)

end RteMbuf

end Onvm.Nflib

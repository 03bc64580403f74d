import Onvm.Lib.Bytes

/-!
# The XDP program

`xdp_sock_prog` of `af_xdp_kern.c` on the bytes of a frame. ARP and SSH frames, and
frames that end within a header, are left to the kernel. Other frames are counted for
their queue and redirected to its AF_XDP socket, if there is one. A run that reads
behind the end of the frame has no result.
-/

namespace Onvm.Afxdp

open Onvm.Lib

/-! ## The program -/

def xdpMaxEntries : Nat := 64

/-- `xsks_map`, and the entries of `xdp_stats_map` for the CPU that runs the program. -/
structure XdpMaps where
  xsksMap : Nat → Option Nat
  xdpStatsMap : Nat → BitVec 32

/-- `struct xdp_md`: the frame, from `data` up to `data_end`, and its queue. -/
structure XdpMd where
  data : List Byte
  rxQueueIndex : BitVec 32

/-- `XDP_REDIRECT` is to the socket of an entry of `xsks_map`. -/
inductive XdpAction where
  | aborted
  | pass
  | redirect (xsk : Nat)
  deriving DecidableEq, Repr

def sizeofEthhdr : Nat := 14

def sizeofIphdr : Nat := 20

def sizeofTcphdr : Nat := 20

/-- `ETH_P_ARP` and `ETH_P_IP` -/
def ethPArp : BitVec 16 := 0x0806

def ethPIp : BitVec 16 := 0x0800

def ipprotoTcp : Byte := 6

def iphIhl (b : Byte) : Nat := (b &&& 0b1111).toNat

def tcphOff (b : Byte) : Nat := sizeofEthhdr + iphIhl b * 4

def bpfHtons (x : BitVec 16) : BitVec 16 := bswap16 x

namespace XdpMaps

/-- `bpf_map_lookup_elem(&xdp_stats_map, &index)`, and the increment of what it finds. -/
def countPacket (m : XdpMaps) (index : BitVec 32) : XdpMaps :=
  if index.toNat < xdpMaxEntries then
    { m with
      xdpStatsMap := Function.update m.xdpStatsMap index.toNat (m.xdpStatsMap index.toNat + 1) }
  else m

def lookupXsk (m : XdpMaps) (index : BitVec 32) : Option Nat :=
  if index.toNat < xdpMaxEntries then m.xsksMap index.toNat else none

def bpfRedirectMap (m : XdpMaps) (index : BitVec 32) : XdpAction :=
  match m.lookupXsk index with
  | some xsk => .redirect xsk
  | none => .aborted

end XdpMaps

/-- The part of the program that looks at a TCP header, for the first byte of the IP
header. -/
def passTcp (data : List Byte) (b : Byte) : Option Bool := do
  let tcph := tcphOff b
  if data.length < tcph + sizeofTcphdr then some true
  else if (← load16 data (tcph + 2)) = bpfHtons 22 then some true
  else some (decide ((← load16 data tcph) = bpfHtons 22))

/-- The part that looks at an IP header. -/
def passIp (data : List Byte) : Option Bool := do
  if data.length < sizeofEthhdr + sizeofIphdr then some true
  else if (← data[sizeofEthhdr + 9]?) = ipprotoTcp then passTcp data (← data[sizeofEthhdr]?)
  else some false

/-- Whether the frame is passed before its queue is looked at. -/
def passEarly (data : List Byte) : Option Bool := do
  if data.length < sizeofEthhdr then some true
  else
    let hProto ← load16 data 12
    if hProto = bpfHtons ethPArp then some true
    else if hProto = bpfHtons ethPIp then passIp data
    else some false

def xdpSockProg (m : XdpMaps) (ctx : XdpMd) : Option (XdpAction × XdpMaps) := do
  if ← passEarly ctx.data then some (.pass, m)
  else
    let index := ctx.rxQueueIndex
    let m := m.countPacket index
    if (m.lookupXsk index).isSome then some (m.bpfRedirectMap index, m) else some (.pass, m)

/-! ## Which frames are passed early -/

def HasType (data : List Byte) (t : BitVec 16) : Prop := load16 data 12 = some (bpfHtons t)

def TcpIn (data : List Byte) (b : Byte) : Prop :=
  HasType data ethPIp ∧ data[sizeofEthhdr]? = some b ∧ data[sizeofEthhdr + 9]? = some ipprotoTcp

/-- The frame ends within a header that the program reads. -/
def Truncated (data : List Byte) : Prop :=
  data.length < sizeofEthhdr ∨
    (HasType data ethPIp ∧ data.length < sizeofEthhdr + sizeofIphdr) ∨
    ∃ b, TcpIn data b ∧ data.length < tcphOff b + sizeofTcphdr

/-- The source or the destination port, as they are found behind the IP header, is 22. -/
def Ssh (data : List Byte) : Prop :=
  ∃ b, TcpIn data b ∧
    (load16 data (tcphOff b) = some (bpfHtons 22) ∨
      load16 data (tcphOff b + 2) = some (bpfHtons 22))

/-- The frames that are left to the kernel whatever their queue. -/
def LeftToKernel (data : List Byte) : Prop :=
  Truncated data ∨ HasType data ethPArp ∨ Ssh data

theorem not_hasType_both {data : List Byte} {t u : BitVec 16} (h : HasType data t) (hne : t ≠ u) :
    ¬ HasType data u := by
  intro h'
  exact hne (bswap16_inj.mp (Option.some.inj (h.symm.trans h')))

theorem TcpIn.unique {data : List Byte} {b b' : Byte} (h : TcpIn data b) (h' : TcpIn data b') :
    b = b' := Option.some.inj (h.2.1.symm.trans h'.2.1)

theorem passTcp_spec {data : List Byte} {b : Byte} (h : TcpIn data b)
    (hip : sizeofEthhdr + sizeofIphdr ≤ data.length) :
    ∃ pass, passTcp data b = some pass ∧ (pass = true ↔ LeftToKernel data) := by
  have harp : ¬ HasType data ethPArp := not_hasType_both h.1 (by decide)
  by_cases hlen : data.length < tcphOff b + sizeofTcphdr
  · refine ⟨true, by rw [passTcp, if_pos hlen], ?_⟩
    exact iff_of_true rfl (.inl (.inr (.inr ⟨b, h, hlen⟩)))
  · have hlen' : tcphOff b + 20 ≤ data.length := not_lt.mp hlen
    obtain ⟨dest, hdest⟩ := load16_inside (by omega : tcphOff b + 2 + 2 ≤ data.length)
    obtain ⟨source, hsource⟩ := load16_inside (by omega : tcphOff b + 2 ≤ data.length)
    have hleft : LeftToKernel data ↔ source = bpfHtons 22 ∨ dest = bpfHtons 22 := by
      constructor
      · rintro ((hs | ⟨-, hs⟩ | ⟨b', h', hs⟩) | ha | ⟨b', h', hs⟩)
        · simp only [sizeofEthhdr] at hs hip
          omega
        · omega
        · rw [h'.unique h] at hs
          exact absurd hs hlen
        · exact absurd ha harp
        · rw [h'.unique h, hsource, hdest] at hs
          exact hs.imp Option.some.inj Option.some.inj
      · intro hs
        refine .inr (.inr ⟨b, h, ?_⟩)
        rw [hsource, hdest]
        exact hs.imp (congrArg some) (congrArg some)
    rw [passTcp, if_neg hlen, hdest, hsource, hleft]
    by_cases hd : dest = bpfHtons 22
    · exact ⟨true, if_pos hd, iff_of_true rfl (.inr hd)⟩
    · refine ⟨_, if_neg hd, ?_⟩
      rw [decide_eq_true_iff]
      exact ⟨.inl, fun h => h.resolve_right hd⟩

theorem passIp_spec {data : List Byte} (h : HasType data ethPIp) :
    ∃ pass, passIp data = some pass ∧ (pass = true ↔ LeftToKernel data) := by
  have harp : ¬ HasType data ethPArp := not_hasType_both h (by decide)
  by_cases hip : data.length < sizeofEthhdr + sizeofIphdr
  · refine ⟨true, by rw [passIp, if_pos hip], ?_⟩
    exact iff_of_true rfl (.inl (.inr (.inl ⟨h, hip⟩)))
  · have hlen : 34 ≤ data.length := not_lt.mp hip
    obtain ⟨b, hb⟩ := byte_inside (by omega : 14 < data.length)
    obtain ⟨proto, hproto⟩ := byte_inside (by omega : 14 + 9 < data.length)
    have hb' : data[sizeofEthhdr]? = some b := hb
    have hproto' : data[sizeofEthhdr + 9]? = some proto := hproto
    rw [passIp, if_neg hip, hproto', hb']
    by_cases htcp : proto = ipprotoTcp
    · obtain ⟨pass, hpass, hiff⟩ := passTcp_spec ⟨h, hb', htcp ▸ hproto'⟩ hlen
      exact ⟨pass, (if_pos htcp).trans hpass, hiff⟩
    · refine ⟨false, if_neg htcp, iff_of_false Bool.false_ne_true ?_⟩
      have hno : ∀ b, ¬ TcpIn data b :=
        fun b h' => htcp (Option.some.inj (hproto'.symm.trans h'.2.2))
      rintro ((hs | ⟨-, hs⟩ | ⟨b', h', -⟩) | ha | ⟨b', h', -⟩)
      · simp only [sizeofEthhdr] at hs
        omega
      · exact hip hs
      · exact hno b' h'
      · exact harp ha
      · exact hno b' h'

theorem passEarly_spec (data : List Byte) :
    ∃ pass, passEarly data = some pass ∧ (pass = true ↔ LeftToKernel data) := by
  by_cases hlen : data.length < sizeofEthhdr
  · refine ⟨true, by rw [passEarly, if_pos hlen], ?_⟩
    exact iff_of_true rfl (.inl (.inl hlen))
  · have hlen' : 14 ≤ data.length := not_lt.mp hlen
    obtain ⟨hProto, hh⟩ := load16_inside (by omega : 12 + 2 ≤ data.length)
    rw [passEarly, if_neg hlen, hh]
    by_cases harp : hProto = bpfHtons ethPArp
    · exact ⟨true, if_pos harp, iff_of_true rfl (.inr (.inl (hh.trans (congrArg some harp))))⟩
    · by_cases hip : hProto = bpfHtons ethPIp
      · obtain ⟨pass, hpass, hiff⟩ := passIp_spec (hh.trans (congrArg some hip))
        exact ⟨pass, ((if_neg harp).trans (if_pos hip)).trans hpass, hiff⟩
      · refine ⟨false, (if_neg harp).trans (if_neg hip), iff_of_false Bool.false_ne_true ?_⟩
        have hno : ¬ HasType data ethPIp := fun h' => hip (Option.some.inj (hh.symm.trans h'))
        rintro ((hs | ⟨h', -⟩ | ⟨b, h', -⟩) | ha | ⟨b, h', -⟩)
        · exact hlen hs
        · exact hno h'
        · exact hno h'.1
        · exact harp (Option.some.inj (hh.symm.trans ha))
        · exact hno h'.1

/-! ## The decision -/

/-- The counter of the queue goes up by one, if there is one. -/
theorem XdpMaps.countPacket_xdpStatsMap (m : XdpMaps) (index : BitVec 32) (q : Nat) :
    (m.countPacket index).xdpStatsMap q =
      if q = index.toNat ∧ q < xdpMaxEntries then m.xdpStatsMap q + 1 else m.xdpStatsMap q := by
  unfold countPacket
  by_cases hi : index.toNat < xdpMaxEntries
  · rw [if_pos hi]
    by_cases hq : q = index.toNat
    · subst hq
      simp [hi]
    · simp [hq]
  · rw [if_neg hi, if_neg]
    rintro ⟨rfl, h⟩
    exact hi h

theorem XdpMaps.lookupXsk_countPacket (m : XdpMaps) (i index : BitVec 32) :
    (m.countPacket i).lookupXsk index = m.lookupXsk index := by
  unfold countPacket
  split <;> rfl

/-- **Steering**: the program never reads behind the end of a frame. The frames of
`LeftToKernel` are passed and not counted; each other frame is counted once and goes to
the socket of its queue, or on to the kernel when the queue has none. -/
theorem xdp_steering (m : XdpMaps) (ctx : XdpMd) : ∃ action m',
    xdpSockProg m ctx = some (action, m') ∧
    (LeftToKernel ctx.data → action = .pass ∧ m' = m) ∧
    (¬ LeftToKernel ctx.data →
      m'.xsksMap = m.xsksMap ∧
      (∀ q, m'.xdpStatsMap q = if q = ctx.rxQueueIndex.toNat ∧ q < xdpMaxEntries then
        m.xdpStatsMap q + 1 else m.xdpStatsMap q) ∧
      action = match m.lookupXsk ctx.rxQueueIndex with
        | some xsk => .redirect xsk
        | none => .pass) := by
  obtain ⟨pass, hpass, hiff⟩ := passEarly_spec ctx.data
  rw [← hiff, xdpSockProg, hpass]
  cases pass with
  | true => exact ⟨.pass, m, rfl, fun _ => ⟨rfl, rfl⟩, fun h => absurd rfl h⟩
  | false =>
    have hx : (m.countPacket ctx.rxQueueIndex).xsksMap = m.xsksMap := by
      unfold XdpMaps.countPacket
      split <;> rfl
    have hq := m.countPacket_xdpStatsMap ctx.rxQueueIndex
    simp only [Option.bind_eq_bind, Option.bind_some, Bool.false_eq_true, if_false,
      XdpMaps.bpfRedirectMap, XdpMaps.lookupXsk_countPacket]
    cases m.lookupXsk ctx.rxQueueIndex with
    | none => exact ⟨_, _, rfl, nofun, fun _ => ⟨hx, hq, rfl⟩⟩
    | some xsk => exact ⟨_, _, rfl, nofun, fun _ => ⟨hx, hq, rfl⟩⟩

/-- A TCP segment with `ihl >= 5` and fragment offset 0 whose source or destination port
is 22. -/
def SshSegment (data : List Byte) : Prop :=
  ∃ b fragOff, TcpIn data b ∧ 5 ≤ iphIhl b ∧
    load16 data (sizeofEthhdr + 6) = some fragOff ∧ bswap16 fragOff &&& 0x1fff = 0 ∧
    (load16 data (tcphOff b) = some (bpfHtons 22) ∨
      load16 data (tcphOff b + 2) = some (bpfHtons 22))

theorem SshSegment.leftToKernel {data : List Byte} (h : SshSegment data) : LeftToKernel data := by
  obtain ⟨b, _, hb, -, -, -, hs⟩ := h
  exact .inr (.inr ⟨b, hb, hs⟩)

/-- A later fragment of a TCP segment, with the bytes 0 and 22 first. -/
def laterFragment : List Byte :=
  [0, 0, 0, 0, 0, 0, 0, 0, 0, 0, 0, 0, 0x08, 0x00,
    0x45, 0, 0, 40, 0, 0, 0, 1, 64, 6, 0, 0, 10, 0, 0, 1, 10, 0, 0, 2,
    0, 22, 0, 0, 0, 0, 0, 0, 0, 0, 0, 0, 0, 0, 0, 0, 0, 0, 0, 0]

/-- It is none of the frames that are meant to be passed early, and is not counted. -/
theorem laterFragment_not_counted :
    (¬ Truncated laterFragment ∧ ¬ HasType laterFragment ethPArp ∧ ¬ SshSegment laterFragment) ∧
      ∃ m', xdpSockProg ⟨fun _ => some 0, fun _ => 0⟩ ⟨laterFragment, 0⟩ = some (.pass, m') ∧
        m'.xdpStatsMap 0 = 0 := by
  refine ⟨⟨?_, by unfold HasType; decide, ?_⟩, ⟨_, rfl, rfl⟩⟩
  · rintro (h | ⟨-, h⟩ | ⟨b, h, hl⟩)
    · exact absurd h (by decide)
    · exact absurd h (by decide)
    · obtain rfl : 0x45 = b := Option.some.inj h.2.1
      exact absurd hl (by decide)
  · rintro ⟨b, fragOff, -, -, hf, h0, -⟩
    obtain rfl : 0x0100 = fragOff := Option.some.inj hf
    exact absurd h0 (by decide)

end Onvm.Afxdp

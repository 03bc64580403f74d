import Onvm.Lib.Toeplitz
import Onvm.Nflib.Common
import Onvm.Nflib.FlowTable

/-!
# Receive side scaling in software

`onvm_softrss` hashes a flow key with `rss_symmetric_key`. The key repeats with a period
of 16 bits, and every field of the tuple starts at a multiple of 16: the two directions
of a connection differ in the order of blocks of 16 bits, which the hash does not see.
-/

namespace Onvm.Nflib

open Onvm.Lib

def rssSymmetricKey : List Byte :=
  [0x6d, 0x5a, 0x6d, 0x5a, 0x6d, 0x5a, 0x6d, 0x5a, 0x6d, 0x5a, 0x6d, 0x5a, 0x6d, 0x5a,
    0x6d, 0x5a, 0x6d, 0x5a, 0x6d, 0x5a, 0x6d, 0x5a, 0x6d, 0x5a, 0x6d, 0x5a, 0x6d, 0x5a,
    0x6d, 0x5a, 0x6d, 0x5a, 0x6d, 0x5a, 0x6d, 0x5a, 0x6d, 0x5a, 0x6d, 0x5a]

/-- The functions of DPDK that compute the hash: `rte_convert_rss_key`, and
`rte_softrss_be` on a list of words. -/
structure RteThash where
  rteConvertRssKey : List Byte → List Byte
  rteSoftrssBe : List (BitVec 32) → List Byte → BitVec 32

/-- With a converted key, which is a number of words and longer than the input,
`rte_softrss_be` is the Toeplitz hash. -/
def RteThash.IsToeplitz (t : RteThash) : Prop :=
  ∀ (words : List (BitVec 32)) (key : List Byte), 4 ∣ key.length → 4 * words.length < key.length →
    t.rteSoftrssBe words (t.rteConvertRssKey key) =
      Toeplitz.hash 32 (key.flatMap Toeplitz.bits) (words.flatMap Toeplitz.bits)

namespace OnvmFtIpv4_5tuple

/-- `union rte_thash_tuple` as words. The destination port comes before the source port,
in the lower half of its word. -/
def thashTuple (key : OnvmFtIpv4_5tuple) : List (BitVec 32) :=
  [bswap32 key.srcAddr, bswap32 key.dstAddr, bswap16 key.srcPort ++ bswap16 key.dstPort]

def onvmSoftrss (t : RteThash) (key : OnvmFtIpv4_5tuple) : BitVec 32 :=
  t.rteSoftrssBe key.thashTuple (t.rteConvertRssKey rssSymmetricKey)

/-- The key of the other direction. -/
def exchange (key : OnvmFtIpv4_5tuple) : OnvmFtIpv4_5tuple where
  srcAddr := key.dstAddr
  dstAddr := key.srcAddr
  srcPort := key.dstPort
  dstPort := key.srcPort
  proto := key.proto

/-- The two halves of an address, as they are hashed. -/
def addrBlocks (addr : BitVec 32) : List (List Bool) :=
  [Toeplitz.bits (bswap16 (addr.extractLsb' 0 16)),
    Toeplitz.bits (bswap16 (addr.extractLsb' 16 16))]

/-- The blocks of 16 bits of the tuple. -/
def blocks (key : OnvmFtIpv4_5tuple) : List (List Bool) :=
  (addrBlocks key.srcAddr ++ addrBlocks key.dstAddr) ++
    ([Toeplitz.bits (bswap16 key.srcPort)] ++ [Toeplitz.bits (bswap16 key.dstPort)])

theorem bits_word (x y : BitVec 16) :
    Toeplitz.bits (x ++ y : BitVec 32) = Toeplitz.bits x ++ Toeplitz.bits y :=
  Toeplitz.bits_append x y

theorem flatten_blocks (key : OnvmFtIpv4_5tuple) :
    key.thashTuple.flatMap Toeplitz.bits = key.blocks.flatten := by
  simp [thashTuple, blocks, addrBlocks, bswap32, bits_word]

theorem length_of_mem_blocks {key : OnvmFtIpv4_5tuple} {b : List Bool} (h : b ∈ key.blocks) :
    b.length = 16 := by
  simp only [blocks, addrBlocks, List.mem_append, List.mem_cons, List.not_mem_nil, or_false] at h
  rcases h with ((rfl | rfl) | rfl | rfl) | rfl | rfl <;> exact Toeplitz.length_bits _

theorem blocks_exchange (key : OnvmFtIpv4_5tuple) : key.exchange.blocks.Perm key.blocks :=
  List.perm_append_comm.append List.perm_append_comm

/-- The windows of the key that the 96 bits of a tuple meet repeat every 16 bits. -/
theorem periodic_rssSymmetricKey :
    Toeplitz.Periodic (Toeplitz.window 32 (rssSymmetricKey.flatMap Toeplitz.bits)) 16 96 :=
  Toeplitz.periodic_window (by decide +kernel)

theorem softrss_eq {t : RteThash} (h : t.IsToeplitz) (key : OnvmFtIpv4_5tuple) :
    key.onvmSoftrss t = Toeplitz.hashFrom
      (Toeplitz.window 32 (rssSymmetricKey.flatMap Toeplitz.bits)) 0 key.blocks.flatten := by
  rw [onvmSoftrss, h key.thashTuple rssSymmetricKey (by decide) (by decide : 4 * 3 < 40),
    flatten_blocks]
  rfl

theorem softrss_exchange {t : RteThash} (h : t.IsToeplitz) (key : OnvmFtIpv4_5tuple) :
    key.exchange.onvmSoftrss t = key.onvmSoftrss t := by
  rw [softrss_eq h, softrss_eq h]
  apply periodic_rssSymmetricKey.hashFrom_perm key.blocks_exchange
  · exact fun b hb => length_of_mem_blocks hb
  · rw [← flatten_blocks]
    simp [thashTuple]

/-- **Both directions of a connection** have the same hash, and a service sends them to
the same instance. -/
theorem softrss_direction_independent {t : RteThash} (h : t.IsToeplitz)
    (key : OnvmFtIpv4_5tuple) :
    key.exchange.onvmSoftrss t = key.onvmSoftrss t ∧
      ∀ (nfPerServiceCount : Nat → Nat) (services : Nat → Nat → Nat) (serviceId : Nat),
        onvmScServiceToNfMap nfPerServiceCount services serviceId
            (some (UInt32.ofBitVec (key.exchange.onvmSoftrss t))) =
          onvmScServiceToNfMap nfPerServiceCount services serviceId
            (some (UInt32.ofBitVec (key.onvmSoftrss t))) := by
  have hrss := softrss_exchange h key
  refine ⟨hrss, fun nfPerServiceCount services serviceId => ?_⟩
  rw [hrss]

end OnvmFtIpv4_5tuple

def swapWords : List Byte → List Byte
  | a :: b :: c :: d :: rest => d :: c :: b :: a :: swapWords rest
  | rest => rest

theorem swapWords_swapWords (b : List Byte) : swapWords (swapWords b) = b := by
  fun_induction swapWords b with
  | case1 a b c d rest ih => rw [swapWords, ih]
  | case2 rest h =>
    rw [swapWords.eq_def]
    split
    · exact absurd rfl (h _ _ _ _ _)
    · rfl

def swappedToeplitz : RteThash where
  rteConvertRssKey := swapWords
  rteSoftrssBe words key :=
    Toeplitz.hash 32 ((swapWords key).flatMap Toeplitz.bits) (words.flatMap Toeplitz.bits)

theorem swappedToeplitz_isToeplitz : swappedToeplitz.IsToeplitz := by
  intro words key _ _
  simp only [swappedToeplitz, swapWords_swapWords]

theorem softrss_direction_independent_swapped :
    (OnvmFtIpv4_5tuple.mk 1 2 80 90 6).exchange.onvmSoftrss swappedToeplitz =
      (OnvmFtIpv4_5tuple.mk 1 2 80 90 6).onvmSoftrss swappedToeplitz :=
  (OnvmFtIpv4_5tuple.softrss_direction_independent swappedToeplitz_isToeplitz _).1

end Onvm.Nflib

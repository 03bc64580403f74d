import Onvm.Lib.Ring

/-!
# UMEM frames and the free list

The tunables of `onvm_afxdp_config.h`, the socket state of
`onvm_afxdp_types.h` and the stack allocator of `onvm_afxdp.c`. An address is
an offset into the UMEM; frame `k` is the addresses `a` with
`a / AFXDP_FRAME_SIZE = k`, since a received packet starts behind the
headroom and its address comes back unaligned.
-/

namespace Onvm.Afxdp

open Onvm.Lib

/-! ## Configuration -/

def afxdpNumFrames : Nat := 32768

/-- `AFXDP_FRAME_SIZE`, the library's `XSK_UMEM__DEFAULT_FRAME_SIZE`. -/
def afxdpFrameSize : Nat := 4096

/-- `AFXDP_INVALID_UMEM_FRAME`, i.e. `UINT64_MAX`. -/
def afxdpInvalidUmemFrame : Nat := 2 ^ 64 - 1

def afxdpRxRingSize : Nat := 8192

def afxdpTxRingSize : Nat := 8192

def afxdpFillRingSize : Nat := 8192

def afxdpCompRingSize : Nat := 8192

def afxdpRxBatchSize : Nat := 64

theorem ringSize : Ring.Size 8192 := ⟨by decide, by decide, by decide⟩

def InUmem (addr : Nat) : Prop := addr < afxdpNumFrames * afxdpFrameSize

instance (addr : Nat) : Decidable (InUmem addr) := inferInstanceAs (Decidable (_ < _))

def frameOf (addr : Nat) : Nat := addr / afxdpFrameSize

theorem inUmem_iff_frameOf {addr : Nat} : InUmem addr ↔ frameOf addr < afxdpNumFrames := by
  rw [InUmem, frameOf, Nat.div_lt_iff_lt_mul (by decide)]

theorem not_inUmem_invalid : ¬ InUmem afxdpInvalidUmemFrame := by decide

/-! ## The socket state -/

structure XdpDesc where
  addr : Nat
  len : Nat
  deriving DecidableEq, Repr

/-- The packet lies in the frame of its address. -/
def XdpDesc.InFrame (d : XdpDesc) : Prop := d.addr % afxdpFrameSize + d.len ≤ afxdpFrameSize

instance (d : XdpDesc) : Decidable d.InFrame := inferInstanceAs (Decidable (_ ≤ _))

/-- The counters of `struct afxdp_stats_record` that the datapath writes. -/
structure AfxdpStatsRecord where
  rxPackets : BitVec 64
  rxBytes : BitVec 64
  txPackets : BitVec 64
  txBytes : BitVec 64
  deriving DecidableEq, Repr

structure AfxdpSocketInfo where
  umemFrameAddr : Nat → Nat
  umemFrameFree : Nat
  outstandingTx : BitVec 32
  stats : AfxdpStatsRecord

/-- The free list, bottom of the stack first. -/
def AfxdpSocketInfo.freeList (xsk : AfxdpSocketInfo) : List Nat :=
  (List.range xsk.umemFrameFree).map xsk.umemFrameAddr

/-! ## The allocator -/

def afxdpAllocUmemFrame (xsk : AfxdpSocketInfo) : Nat × AfxdpSocketInfo :=
  if xsk.umemFrameFree = 0 then (afxdpInvalidUmemFrame, xsk)
  else
    let n := xsk.umemFrameFree - 1
    (xsk.umemFrameAddr n,
      { xsk with
        umemFrameFree := n
        umemFrameAddr := Function.update xsk.umemFrameAddr n afxdpInvalidUmemFrame })

/-- `none` when the `assert` fails. -/
def afxdpFreeUmemFrame (xsk : AfxdpSocketInfo) (frame : Nat) : Option AfxdpSocketInfo :=
  if xsk.umemFrameFree < afxdpNumFrames then
    some { xsk with
      umemFrameAddr := Function.update xsk.umemFrameAddr xsk.umemFrameFree frame
      umemFrameFree := xsk.umemFrameFree + 1 }
  else none

def afxdpUmemFreeFrames (xsk : AfxdpSocketInfo) : Nat := xsk.umemFrameFree

theorem map_range_update (f : Nat → Nat) (n x : Nat) :
    (List.range n).map (Function.update f n x) = (List.range n).map f := by
  apply List.map_congr_left
  intro i hi
  exact Function.update_of_ne (by have := List.mem_range.mp hi; omega) _ _

/-- Allocating from an empty list hands out the sentinel. -/
theorem alloc_nil (xsk : AfxdpSocketInfo) (h : xsk.freeList = []) :
    afxdpAllocUmemFrame xsk = (afxdpInvalidUmemFrame, xsk) := by
  have hz : xsk.umemFrameFree = 0 := by
    simpa [AfxdpSocketInfo.freeList, List.range_eq_nil] using h
  rw [afxdpAllocUmemFrame, if_pos hz]

/-- Allocating pops the top of the stack and touches nothing else. -/
theorem alloc_concat (xsk : AfxdpSocketInfo) (l : List Nat) (x : Nat)
    (h : xsk.freeList = l ++ [x]) :
    (afxdpAllocUmemFrame xsk).1 = x ∧ (afxdpAllocUmemFrame xsk).2.freeList = l ∧
      (afxdpAllocUmemFrame xsk).2.outstandingTx = xsk.outstandingTx ∧
      (afxdpAllocUmemFrame xsk).2.stats = xsk.stats := by
  obtain ⟨n, hn⟩ : ∃ n, xsk.umemFrameFree = n + 1 := by
    refine ⟨xsk.umemFrameFree - 1, ?_⟩
    have := congrArg List.length h
    simp [AfxdpSocketInfo.freeList] at this
    omega
  have hl : (List.range n).map xsk.umemFrameAddr ++ [xsk.umemFrameAddr n] = l ++ [x] := by
    rw [← h, AfxdpSocketInfo.freeList, hn, List.range_succ, List.map_append]; rfl
  obtain ⟨h1, h2⟩ := List.append_inj' hl rfl
  have hx : xsk.umemFrameAddr n = x := by simpa using h2
  simp only [afxdpAllocUmemFrame, hn, Nat.succ_ne_zero, if_false, Nat.add_sub_cancel,
    AfxdpSocketInfo.freeList, map_range_update, hx, h1, and_self]

/-- Freeing pushes on the stack when there is room, and aborts otherwise. -/
theorem free_spec (xsk : AfxdpSocketInfo) (frame : Nat) :
    (xsk.freeList.length < afxdpNumFrames ∧ ∃ xsk', afxdpFreeUmemFrame xsk frame = some xsk' ∧
      xsk'.freeList = xsk.freeList ++ [frame] ∧ xsk'.outstandingTx = xsk.outstandingTx ∧
      xsk'.stats = xsk.stats) ∨
    (¬ xsk.freeList.length < afxdpNumFrames ∧ afxdpFreeUmemFrame xsk frame = none) := by
  have hlen : xsk.freeList.length = xsk.umemFrameFree := by simp [AfxdpSocketInfo.freeList]
  rw [hlen]
  by_cases h : xsk.umemFrameFree < afxdpNumFrames
  · refine .inl ⟨h, _, if_pos h, ?_, rfl, rfl⟩
    simp [AfxdpSocketInfo.freeList, List.range_succ, map_range_update]
  · exact .inr ⟨h, if_neg h⟩

end Onvm.Afxdp

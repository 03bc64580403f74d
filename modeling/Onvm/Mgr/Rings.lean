import Onvm.Mgr.Nf

/-!
# Rings and their kinds

The pointers of a slot are to rings of the right kind: whatever happens to the
tables, packets for an NF, packets from it and messages never share a ring.
-/

namespace Onvm.Mgr

open Onvm.Lib Onvm.Nflib

structure Wired (nf : OnvmNf) : Prop where
  rx : ∀ q ∈ nf.rxQ, q.kind = .rx
  tx : ∀ q ∈ nf.txQ, q.kind = .tx
  msg : ∀ q ∈ nf.msgQ, q.kind = .msg

def AllWired (m : Tables) : Prop := ∀ i, Wired (m.nfs i)

theorem AllWired.setNf {m : Tables} (h : AllWired m) (i : Nat) {nf : OnvmNf} (hnf : Wired nf) :
    AllWired (m.setNf i nf) := fun j => by
  unfold Tables.setNf
  by_cases hj : j = i
  · subst hj
    simpa using hnf
  · simpa [hj] using h j

theorem wired_setQ {nf : OnvmNf} (h : Wired nf) (k : RingKind) {q : Option RingName}
    (hq : ∀ name ∈ q, name.kind = k) : Wired (Tables.setQ nf k q) := by
  cases k with
  | rx => exact ⟨hq, h.tx, h.msg⟩
  | tx => exact ⟨h.rx, hq, h.msg⟩
  | msg => exact ⟨h.rx, h.tx, hq⟩

theorem AllWired.createRing {m : Tables} (h : AllWired m) (i : Nat) (k : RingKind) :
    AllWired (m.createRing i k) := by
  unfold Tables.createRing
  split
  · exact h
  · dsimp only
    split
    · exact h.setNf i (wired_setQ (h i) k (by simp))
    · exact h.setNf i (wired_setQ (h i) k (by simp))

theorem AllWired.initRings {m : Tables} (h : AllWired m) (i : Nat) :
    AllWired (m.onvmNfInitRings i) :=
  ((h.createRing i .rx).createRing i .tx).createRing i .msg

theorem AllWired.start {m : Tables} (h : AllWired m) (cfg : OnvmNfInitCfg) :
    AllWired (m.onvmNfStart cfg).1 := by
  unfold Tables.onvmNfStart
  dsimp only
  split
  · exact h
  split
  · exact h
  split
  · exact h
  split
  · exact h
  split
  · exact h
  split
  · exact h
  · split
    all_goals
      apply AllWired.initRings
      apply AllWired.setNf
      · exact h
      · exact ⟨(h _).rx, (h _).tx, (h _).msg⟩

theorem AllWired.setStatus {m : Tables} (h : AllWired m) (i : Nat) (status : NfStatus) :
    AllWired (m.setStatus i status) :=
  h.setNf i ⟨(h i).rx, (h i).tx, (h i).msg⟩

theorem AllWired.tellParent {m : Tables} (h : AllWired m) (nfId : Nat) :
    AllWired (m.tellParent nfId) := by
  unfold Tables.tellParent
  dsimp only
  split
  · have hparent := h (m.nfs nfId).parent
    exact h.setNf _ ⟨hparent.rx, hparent.tx, hparent.msg⟩
  · exact h

theorem AllWired.ready {m : Tables} (h : AllWired m) (i : Nat) : AllWired (m.onvmNfReady i).1 := by
  unfold Tables.onvmNfReady
  split
  · exact h
  · exact h.setNf i ⟨(h i).rx, (h i).tx, (h i).msg⟩

theorem AllWired.freeTag {m : Tables} (h : AllWired m) (i : Nat) : AllWired (m.freeTag i) :=
  h.setNf i ⟨(h i).rx, (h i).tx, (h i).msg⟩

theorem AllWired.setFamily {m : Tables} (h : AllWired m) (i parent childrenCnt : Nat) :
    AllWired (m.setFamily i parent childrenCnt) :=
  h.setNf i ⟨(h i).rx, (h i).tx, (h i).msg⟩

theorem allWired_boot (numCores : NumCores) (enabled : Nat → Bool) :
    AllWired (Tables.boot numCores enabled) :=
  fun _ => ⟨by rintro _ ⟨⟩, by rintro _ ⟨⟩, by rintro _ ⟨⟩⟩

theorem AllWired.stop {m : Tables} (h : AllWired m) (i : Nat) : AllWired (m.onvmNfStop i).1 := by
  have hreleased : AllWired ((m.freeTag i).release i) :=
    (((h.freeTag i).setStatus _ _).setStatus _ _).tellParent _
  unfold Tables.onvmNfStop
  dsimp only
  split
  · exact h.freeTag i
  split
  · exact hreleased
  split
  · exact hreleased
  · exact fun j => hreleased j

theorem AllWired.onEvent {m : Tables} (h : AllWired m) (e : Tables.Event) :
    AllWired (m.onEvent e) := by
  unfold Tables.onEvent
  split
  · exact h
  cases e with
  | msg msg =>
    dsimp only
    unfold Tables.onMsg
    split
    · exact h.start _
    · exact h.ready _
    · exact h.stop _
    all_goals exact h
  | family i parent childrenCnt => exact h.setFamily i parent childrenCnt
  | traffic name queued => exact fun j => h j

end Onvm.Mgr

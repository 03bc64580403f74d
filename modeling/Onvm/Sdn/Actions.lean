import Onvm.Nflib.FlowTable
import Onvm.Pkt.FlowDir
import Onvm.Pkt.ServiceChain
import Onvm.Sdn.OpenFlow

/-!
# Flow rules in messages

`flow_key_extract` and `flow_action_extract` of `sdn.c`: the key and the service chain of
an OFPT_FLOW_MOD. The loop over the actions goes by the lengths that the actions have, and
takes no notice of the end of the message unless they lead to it; `ruleOf` is what it makes of
the message, which does not change with what is behind it. `extract_encode` is the
round trip: a list of actions as a controller writes it becomes the chain of its outputs
and queues.
-/

namespace Onvm.Sdn

open Onvm.Lib Onvm.Nflib Onvm.Pkt

/-! ## The source -/

def sizeofOfpFlowMod : Nat := 72

/-- `flow_key_extract` of the `struct ofp_match` behind the header. -/
def flowKeyExtract (mem : List Byte) : Option OnvmFtIpv4_5tuple := do
  some ⟨← load32 mem 36, ← load32 mem 40, ← load16 mem 44, ← load16 mem 46, ← mem[33]?⟩

def ofpatOutput : BitVec 16 := 0

def ofpatEnqueue : BitVec 16 := 11

/-- How `flow_action_extract` goes astray. -/
inductive Stray where
  /-- An entry is stored behind the array of the chain. -/
  | overflow
  /-- The loop comes back to the same action for ever. -/
  | endless
  /-- The loop reads behind the memory. -/
  | outside
  deriving DecidableEq, Repr

/-- What a read finds, if it is inside the memory. -/
def fetch {α : Type} (x : Option α) : Except Stray α :=
  match x with
  | none => .error .outside
  | some a => .ok a

/-- `onvm_sc_append_entry`, whose result is not looked at. -/
def appendEntry (chain : OnvmServiceChain) (x : ChainEntry) : Except Stray OnvmServiceChain :=
  match chain.onvmScAppendEntry x with
  | none => .error .overflow
  | some (_, chain) => .ok chain

def extractAction (mem : List Byte) (p : Nat) (type : BitVec 16) (chain : OnvmServiceChain) :
    Except Stray OnvmServiceChain := do
  if type = ofpatOutput then
    let port ← fetch (ntohs mem (p + 4))
    appendEntry chain ⟨actionOut, port.toNat⟩
  else if type = ofpatEnqueue then
    let queueId ← fetch (ntohl mem (p + 12))
    appendEntry chain ⟨actionTonf, (queueId.setWidth 16).toNat⟩
  else .ok chain

/-- The loop of `flow_action_extract`, `n` times at most. `actions_len` is a `size_t`. -/
def extractActions (mem : List Byte) : Nat → Nat → Nat → OnvmServiceChain →
    Except Stray OnvmServiceChain
  | 0, _, _, _ => .error .endless
  | n + 1, p, actionsLen, chain => do
    if actionsLen = 0 then .ok chain
    else
      let type ← fetch (ntohs mem p)
      let len ← fetch (ntohs mem (p + 2))
      let chain ← extractAction mem p type chain
      extractActions mem n (p + len.toNat) ((actionsLen + 2 ^ 64 - len.toNat) % 2 ^ 64) chain

/-- Each round but the last goes on in the memory or adds an entry, or comes back for ever. -/
def maxRounds (mem : List Byte) : Nat := mem.length + onvmMaxChainLength + 1

def flowActionExtract (mem : List Byte) (p actionsLen : Nat) : Except Stray OnvmServiceChain :=
  if actionsLen = 0 then appendEntry .onvmScCreate ⟨actionDrop, 0⟩
  else extractActions mem (maxRounds mem) p actionsLen .onvmScCreate

def actionsLen (length : BitVec 16) : Nat := (length.toNat + 2 ^ 64 - sizeofOfpFlowMod) % 2 ^ 64

/-! ## The rounds of the loop -/

theorem bind_eq_ok {α β : Type} {x : Except Stray α} {f : α → Except Stray β} {b : β}
    (h : (x >>= f) = .ok b) : ∃ a, x = .ok a ∧ f a = .ok b := by
  cases x with
  | error e => cases h
  | ok a => exact ⟨a, rfl, h⟩

theorem toOption_eq_some {α : Type} {x : Except Stray α} {a : α} (h : x.toOption = some a) :
    x = .ok a := by
  cases x with
  | error e => cases h
  | ok b =>
    cases h
    rfl

theorem fetch_eq_ok {α : Type} {x : Option α} {a : α} (h : fetch x = .ok a) : x = some a := by
  cases x with
  | none => cases h
  | some b =>
    cases h
    rfl

@[simp] theorem fetch_some {α : Type} (a : α) : fetch (some a) = .ok a := rfl

@[simp] theorem ok_bind {α β : Type} (a : α) (f : α → Except Stray β) : (.ok a >>= f) = f a := rfl

/-- An action adds an entry inside the chain or nothing. -/
theorem extractAction_ok {mem : List Byte} {p : Nat} {type : BitVec 16}
    {chain chain' : OnvmServiceChain} (h : extractAction mem p type chain = .ok chain')
    (hroom : chain.chainLength.toNat < onvmMaxChainLength) :
    chain' = chain ∨ chain'.chainLength.toNat = chain.chainLength.toNat + 1 ∧
      chain'.chainLength.toNat < onvmMaxChainLength := by
  have happend : ∀ {x}, appendEntry chain x = .ok chain' →
      chain'.chainLength.toNat = chain.chainLength.toNat + 1 ∧
        chain'.chainLength.toNat < onvmMaxChainLength := by
    intro x hx
    unfold appendEntry at hx
    split at hx
    · cases hx
    · rename_i res
      cases hx
      exact OnvmServiceChain.append_inside res hroom
  unfold extractAction at h
  split at h
  · obtain ⟨port, -, h⟩ := bind_eq_ok h
    exact .inr (happend h)
  split at h
  · obtain ⟨queueId, -, h⟩ := bind_eq_ok h
    exact .inr (happend h)
  · cases h
    exact .inl rfl

/-- A round that changes nothing. -/
theorem extractActions_stuck {mem : List Byte} {p actionsLen : Nat} {type : BitVec 16}
    {chain : OnvmServiceChain} (hpos : actionsLen ≠ 0) (hlt : actionsLen < 2 ^ 64)
    (htype : ntohs mem p = some type) (hlen : ntohs mem (p + 2) = some 0)
    (hact : extractAction mem p type chain = .ok chain) (n : Nat) :
    extractActions mem n p actionsLen chain = .error .endless := by
  induction n with
  | zero => rfl
  | succ n ih =>
    have hsame : (actionsLen + 2 ^ 64 - (0 : BitVec 16).toNat) % 2 ^ 64 = actionsLen := by
      have hzero : (0 : BitVec 16).toNat = 0 := rfl
      omega
    rw [extractActions, if_neg hpos, htype, hlen, fetch_some, ok_bind, fetch_some, ok_bind, hact,
      ok_bind, hsame]
    exact ih

/-- **More rounds change nothing**, so that a loop cut off does not end. The measure is what is
left of the memory and of the chain. -/
theorem extractActions_settled {mem : List Byte} {n m p actionsLen : Nat}
    {chain : OnvmServiceChain} (hlt : actionsLen < 2 ^ 64)
    (hroom : chain.chainLength.toNat < onvmMaxChainLength)
    (hn : mem.length - p + (onvmMaxChainLength - chain.chainLength.toNat) < n) (hm : n ≤ m) :
    extractActions mem m p actionsLen chain = extractActions mem n p actionsLen chain := by
  induction n generalizing m p actionsLen chain with
  | zero => omega
  | succ n ih =>
    obtain ⟨m, rfl⟩ := Nat.exists_eq_succ_of_ne_zero (by omega : m ≠ 0)
    by_cases hzero : actionsLen = 0
    · rw [extractActions, extractActions, if_pos hzero, if_pos hzero]
    cases htype : ntohs mem p with
    | none => rw [extractActions, extractActions, if_neg hzero, if_neg hzero, htype]; rfl
    | some type =>
    cases hlen : ntohs mem (p + 2) with
    | none =>
      rw [extractActions, extractActions, if_neg hzero, if_neg hzero, htype, hlen]
      rfl
    | some len =>
    cases hact : extractAction mem p type chain with
    | error stray =>
      have hstray : ∀ k, extractActions mem (k + 1) p actionsLen chain = .error stray := fun k => by
        rw [extractActions, if_neg hzero, htype, hlen, fetch_some, ok_bind, fetch_some, ok_bind,
          hact]
        rfl
      rw [hstray, hstray]
    | ok chain' =>
      have hinside := ntohs_inside htype
      have hleft : (actionsLen + 2 ^ 64 - len.toNat) % 2 ^ 64 < 2 ^ 64 :=
        Nat.mod_lt _ (by decide)
      have hnext : ∀ k, extractActions mem (k + 1) p actionsLen chain =
          extractActions mem k (p + len.toNat) ((actionsLen + 2 ^ 64 - len.toNat) % 2 ^ 64)
            chain' := fun k => by
        rw [extractActions, if_neg hzero, htype, hlen, fetch_some, ok_bind, fetch_some, ok_bind,
          hact, ok_bind]
      rcases extractAction_ok hact hroom with rfl | ⟨hlonger, hroom'⟩
      · by_cases hlen0 : len = 0
        · subst hlen0
          rw [extractActions_stuck hzero hlt htype hlen hact,
            extractActions_stuck hzero hlt htype hlen hact]
        · have hpos : 0 < len.toNat := Nat.pos_of_ne_zero fun h =>
            hlen0 (BitVec.eq_of_toNat_eq (by simpa using h))
          rw [hnext, hnext]
          exact ih hleft hroom (by omega) (by omega)
      · rw [hnext, hnext]
        exact ih hleft hroom' (by omega) (by omega)

/-- **The loop does not end** exactly if it goes on after any number of rounds. -/
theorem flowActionExtract_endless {mem : List Byte} {p actionsLen : Nat}
    (hpos : actionsLen ≠ 0) (hlt : actionsLen < 2 ^ 64) :
    flowActionExtract mem p actionsLen = .error .endless ↔
      ∀ n ≥ maxRounds mem, extractActions mem n p actionsLen .onvmScCreate = .error .endless := by
  have hroom : OnvmServiceChain.onvmScCreate.chainLength.toNat < onvmMaxChainLength := by decide
  rw [flowActionExtract, if_neg hpos]
  refine ⟨fun h n hn => ?_, fun h => h _ (Nat.le_refl _)⟩
  rw [extractActions_settled hlt hroom (by unfold maxRounds; omega) hn, h]

/-! ## The rule in a message -/

theorem load32_append {mem : List Byte} {i : Nat} {x : BitVec 32} (tail : List Byte)
    (h : load32 mem i = some x) : load32 (mem ++ tail) i = some x := by
  unfold load32 at h ⊢
  split at h
  · rename_i lo hi hlo hhi
    rw [load16_append tail hlo, load16_append tail hhi]
    exact h
  · cases h

theorem ntohl_append {mem : List Byte} {i : Nat} {x : BitVec 32} (tail : List Byte)
    (h : ntohl mem i = some x) : ntohl (mem ++ tail) i = some x := by
  obtain ⟨y, hy, rfl⟩ := Option.map_eq_some_iff.mp h
  rw [ntohl, load32_append tail hy, Option.map_some]

theorem getElem?_append {mem : List Byte} {i : Nat} {x : Byte} (tail : List Byte)
    (h : mem[i]? = some x) : (mem ++ tail)[i]? = some x := by
  rw [List.getElem?_append_left (List.getElem?_eq_some_iff.mp h).1, h]

theorem flowKeyExtract_append {mem : List Byte} {fk : OnvmFtIpv4_5tuple} (tail : List Byte)
    (h : flowKeyExtract mem = some fk) : flowKeyExtract (mem ++ tail) = some fk := by
  obtain ⟨src, hsrc, h⟩ := Option.bind_eq_some_iff.mp h
  obtain ⟨dst, hdst, h⟩ := Option.bind_eq_some_iff.mp h
  obtain ⟨sport, hsport, h⟩ := Option.bind_eq_some_iff.mp h
  obtain ⟨dport, hdport, h⟩ := Option.bind_eq_some_iff.mp h
  obtain ⟨proto, hproto, h⟩ := Option.bind_eq_some_iff.mp h
  simp only [flowKeyExtract, load32_append tail hsrc, load32_append tail hdst,
    load16_append tail hsport, load16_append tail hdport, getElem?_append tail hproto,
    Option.bind_eq_bind, Option.bind_some]
  exact h

theorem extractAction_append {mem : List Byte} {p : Nat} {type : BitVec 16}
    {chain chain' : OnvmServiceChain} (tail : List Byte)
    (h : extractAction mem p type chain = .ok chain') :
    extractAction (mem ++ tail) p type chain = .ok chain' := by
  unfold extractAction at h ⊢
  split at h
  · rename_i htype
    obtain ⟨port, hport, h⟩ := bind_eq_ok h
    rwa [if_pos htype, ntohs_append tail (fetch_eq_ok hport), fetch_some, ok_bind]
  · rename_i htype
    rw [if_neg htype]
    split at h
    · rename_i htype'
      obtain ⟨queueId, hqueue, h⟩ := bind_eq_ok h
      rwa [if_pos htype', ntohl_append tail (fetch_eq_ok hqueue), fetch_some, ok_bind]
    · rename_i htype'
      rwa [if_neg htype']

theorem extractActions_append {mem : List Byte} {n m p len : Nat} {chain chain' : OnvmServiceChain}
    (tail : List Byte) (hnm : n ≤ m) (h : extractActions mem n p len chain = .ok chain') :
    extractActions (mem ++ tail) m p len chain = .ok chain' := by
  induction n generalizing m p len chain with
  | zero => cases h
  | succ n ih =>
    obtain ⟨m, rfl⟩ := Nat.exists_eq_succ_of_ne_zero (by omega : m ≠ 0)
    unfold extractActions at h ⊢
    split at h
    · rename_i h0
      rwa [if_pos h0]
    · rename_i h0
      obtain ⟨type, htype, h⟩ := bind_eq_ok h
      obtain ⟨size, hsize, h⟩ := bind_eq_ok h
      obtain ⟨chain₁, hchain, h⟩ := bind_eq_ok h
      rw [if_neg h0, ntohs_append tail (fetch_eq_ok htype), fetch_some, ok_bind,
        ntohs_append tail (fetch_eq_ok hsize), fetch_some, ok_bind,
        extractAction_append tail hchain, ok_bind]
      exact ih (by omega) h

theorem flowActionExtract_append {mem : List Byte} {p len : Nat} {chain : OnvmServiceChain}
    (tail : List Byte) (h : flowActionExtract mem p len = .ok chain) :
    flowActionExtract (mem ++ tail) p len = .ok chain := by
  unfold flowActionExtract at h ⊢
  split at h
  · rename_i h0
    rwa [if_pos h0]
  · rename_i h0
    rw [if_neg h0]
    exact extractActions_append tail (by simp [maxRounds]) h

def ruleOf (rss : RteThash) (mem : List Byte) : Option (HashKey × OnvmServiceChain) := do
  let fk ← flowKeyExtract mem
  let length ← ntohs mem 2
  let chain ← (flowActionExtract mem sizeofOfpFlowMod (actionsLen length)).toOption
  some (⟨fk, fk.onvmSoftrss rss⟩, chain)

theorem ruleOf_append {rss : RteThash} {mem : List Byte} {rule : HashKey × OnvmServiceChain}
    (tail : List Byte) (h : ruleOf rss mem = some rule) :
    ruleOf rss (mem ++ tail) = some rule := by
  obtain ⟨fk, hfk, h⟩ := Option.bind_eq_some_iff.mp h
  obtain ⟨length, hlength, h⟩ := Option.bind_eq_some_iff.mp h
  obtain ⟨chain, hchain, h⟩ := Option.bind_eq_some_iff.mp h
  have hchain' := flowActionExtract_append tail (toOption_eq_some hchain)
  rw [ruleOf, flowKeyExtract_append tail hfk, Option.bind_eq_bind, Option.bind_some,
    ntohs_append tail hlength, Option.bind_eq_bind, Option.bind_some,
    hchain']
  exact h

def IsRule (msg : List Byte) : Prop :=
  msg[1]?.bind OfpType.ofCode = some .flowMod ∧ ntohl msg 64 ≠ some (-1)

instance (msg : List Byte) : Decidable (IsRule msg) := inferInstanceAs (Decidable (_ ∧ _))

/-- The type and the buffer number are those of the message when it is long enough. -/
theorem isRule_append {msg : List Byte} (h : sizeofOfpFlowMod ≤ msg.length) (tail : List Byte) :
    IsRule (msg ++ tail) ↔ IsRule msg := by
  unfold sizeofOfpFlowMod at h
  have htype : (msg ++ tail)[1]? = msg[1]? := List.getElem?_append_left (by omega)
  obtain ⟨lo, hlo⟩ := load16_inside (by omega : 64 + 2 ≤ msg.length)
  obtain ⟨hi, hhi⟩ := load16_inside (by omega : 66 + 2 ≤ msg.length)
  have hread : ntohl msg 64 = some (bswap32 (hi ++ lo)) := by
    rw [ntohl, load32, hlo, hhi]
    rfl
  unfold IsRule
  rw [htype, ntohl_append tail hread, hread]

/-! ## What a controller writes -/

/-- An action. Those of another type have a body of at least four bytes. -/
inductive OfpAction where
  | output (port maxLen : BitVec 16)
  | enqueue (port : BitVec 16) (queueId : BitVec 32)
  | other (type : BitVec 16) (body : List Byte)
  deriving DecidableEq

namespace OfpAction

def encode : OfpAction → List Byte
  | output port maxLen => htons ofpatOutput ++ htons 8 ++ htons port ++ htons maxLen
  | enqueue port queueId =>
    htons ofpatEnqueue ++ htons 16 ++ htons port ++ List.replicate 6 0 ++ htonl queueId
  | other type body => htons type ++ htons (BitVec.ofNat 16 (4 + body.length)) ++ body

def Fits : OfpAction → Prop
  | output .. | enqueue .. => True
  | other type body => type ≠ ofpatOutput ∧ type ≠ ofpatEnqueue ∧ 4 + body.length < 2 ^ 16

instance : DecidablePred Fits
  | output .. | enqueue .. => isTrue trivial
  | other .. => inferInstanceAs (Decidable (_ ∧ _))

/-- The entry of a service chain that an action asks for. A queue is an NF. -/
def entry : OfpAction → Option ChainEntry
  | output port _ => some ⟨actionOut, port.toNat⟩
  | enqueue _ queueId => some ⟨actionTonf, (queueId.setWidth 16).toNat⟩
  | other .. => none

def type : OfpAction → BitVec 16
  | output .. => ofpatOutput
  | enqueue .. => ofpatEnqueue
  | other type _ => type

theorem encode_eq (a : OfpAction) : ∃ body, a.encode = htons a.type ++
    (htons (BitVec.ofNat 16 a.encode.length) ++ body) := by
  cases a with
  | output port maxLen => exact ⟨htons port ++ htons maxLen, rfl⟩
  | enqueue port queueId => exact ⟨htons port ++ (List.replicate 6 0 ++ htonl queueId), rfl⟩
  | other type body =>
    refine ⟨body, ?_⟩
    have hlen : (encode (other type body)).length = 4 + body.length := by
      simp [encode]
      omega
    rw [hlen, encode, List.append_assoc]
    rfl

theorem length_encode_lt {a : OfpAction} (h : a.Fits) : 4 ≤ a.encode.length ∧
    a.encode.length < 2 ^ 16 := by
  cases a with
  | output => simp [encode]
  | enqueue => simp [encode]
  | other type body =>
    have hlen : (encode (other type body)).length = 4 + body.length := by
      simp [encode]
      omega
    rw [hlen]
    exact ⟨Nat.le_add_right _ _, h.2.2⟩

end OfpAction

theorem ntohs_action (a : OfpAction) (pre post : List Byte) :
    ntohs (pre ++ (a.encode ++ post)) pre.length = some a.type ∧
      ntohs (pre ++ (a.encode ++ post)) (pre.length + 2) =
        some (BitVec.ofNat 16 a.encode.length) := by
  obtain ⟨body, hbody⟩ := a.encode_eq
  generalize a.encode.length = n at hbody
  constructor
  · have hread := ntohs_behind pre (a.encode ++ post) 0
    rw [hbody, List.append_assoc, ntohs_htons] at hread
    rw [hbody, List.append_assoc]
    exact hread
  · have hread := ntohs_behind (pre ++ htons a.type)
      (htons (BitVec.ofNat 16 n) ++ (body ++ post)) 0
    rw [ntohs_htons] at hread
    simpa [hbody] using hread

theorem extractAction_encode {a : OfpAction} (h : a.Fits) (pre post : List Byte)
    (chain : OnvmServiceChain) :
    extractAction (pre ++ (a.encode ++ post)) pre.length a.type chain =
      match a.entry with
      | none => .ok chain
      | some x => appendEntry chain x := by
  cases a with
  | output port maxLen =>
    have hread := ntohs_behind (pre ++ (htons ofpatOutput ++ htons 8))
      (htons port ++ (htons maxLen ++ post)) 0
    rw [ntohs_htons] at hread
    have hport : ntohs (pre ++ ((OfpAction.output port maxLen).encode ++ post))
        (pre.length + 4) = some port := by
      simpa [OfpAction.encode] using hread
    rw [extractAction, OfpAction.type, if_pos rfl, hport, fetch_some, ok_bind]
    rfl
  | enqueue port queueId =>
    have hread := ntohl_behind (pre ++ (htons ofpatEnqueue ++ (htons 16 ++ (htons port ++
      List.replicate 6 0)))) (htonl queueId ++ post) 0
    rw [ntohl_htonl] at hread
    have hqueue : ntohl (pre ++ ((OfpAction.enqueue port queueId).encode ++ post))
        (pre.length + 12) = some queueId := by
      simpa [OfpAction.encode] using hread
    have hne : ofpatEnqueue ≠ ofpatOutput := by decide
    rw [extractAction, OfpAction.type, if_neg hne, if_pos rfl, hqueue, fetch_some, ok_bind]
    rfl
  | other type body =>
    obtain ⟨hout, hqueue, -⟩ := h
    simp only [extractAction, OfpAction.type, hout, hqueue, if_false, OfpAction.entry]

/-! ## The round trip -/

def encodeActions (acts : List OfpAction) : List Byte := (acts.map OfpAction.encode).flatten

def entries (acts : List OfpAction) : List ChainEntry := acts.filterMap OfpAction.entry

variable {chain : OnvmServiceChain} {l : List ChainEntry}

theorem extractActions_cons {a : OfpAction} (h : a.Fits) (acts : List OfpAction)
    (pre post : List Byte) (n : Nat) (hlen : (encodeActions (a :: acts)).length < 2 ^ 64) :
    extractActions (pre ++ (encodeActions (a :: acts) ++ post)) (n + 1) pre.length
        (encodeActions (a :: acts)).length chain =
      (match a.entry with
        | none => Except.ok chain
        | some x => appendEntry chain x) >>=
      fun chain => extractActions (pre ++ a.encode ++ (encodeActions acts ++ post)) n
        (pre ++ a.encode).length (encodeActions acts).length chain := by
  obtain ⟨h4, h16⟩ := OfpAction.length_encode_lt h
  have hcons : encodeActions (a :: acts) = a.encode ++ encodeActions acts := rfl
  have hmem : pre ++ (encodeActions (a :: acts) ++ post) =
      pre ++ (a.encode ++ (encodeActions acts ++ post)) := by
    rw [hcons, List.append_assoc]
  rw [hcons, List.length_append] at hlen
  obtain ⟨htype, hsize⟩ := ntohs_action a pre (encodeActions acts ++ post)
  have hact := extractAction_encode h pre (encodeActions acts ++ post) chain
  have hlast : (a.encode.length + (encodeActions acts).length + 2 ^ 64 -
      (BitVec.ofNat 16 a.encode.length).toNat) % 2 ^ 64 = (encodeActions acts).length := by
    rw [BitVec.toNat_ofNat, Nat.mod_eq_of_lt h16]
    omega
  have hnext : pre.length + (BitVec.ofNat 16 a.encode.length).toNat =
      (pre ++ a.encode).length := by
    rw [BitVec.toNat_ofNat, Nat.mod_eq_of_lt h16, List.length_append]
  have hpos : ¬ a.encode.length + (encodeActions acts).length = 0 := by omega
  rw [hmem, hcons, List.length_append, extractActions, if_neg hpos, htype, hsize, fetch_some,
    ok_bind, fetch_some, ok_bind, hact, hlast, hnext, List.append_assoc]

/-- The loop appends the entries, as long as there is room for them. -/
theorem extractActions_encode {acts : List OfpAction} (h : ∀ a ∈ acts, a.Fits)
    (pre post : List Byte) {n : Nat} (hn : acts.length < n)
    (hlen : (encodeActions acts).length < 2 ^ 64) (hrep : chain.Rep l) :
    (l.length + (entries acts).length < onvmMaxChainLength →
      ∃ chain', extractActions (pre ++ (encodeActions acts ++ post)) n pre.length
        (encodeActions acts).length chain = .ok chain' ∧ chain'.Rep (l ++ entries acts)) ∧
    (onvmMaxChainLength ≤ l.length + (entries acts).length →
      extractActions (pre ++ (encodeActions acts ++ post)) n pre.length
        (encodeActions acts).length chain = .error .overflow) := by
  induction acts generalizing pre chain l n with
  | nil =>
    obtain ⟨n, rfl⟩ := Nat.exists_eq_succ_of_ne_zero (by omega : n ≠ 0)
    have hfits := hrep.fits
    refine ⟨fun _ => ⟨chain, rfl, by simpa [entries] using hrep⟩, fun hfull => ?_⟩
    rw [entries, List.filterMap_nil, List.length_nil] at hfull
    omega
  | cons a acts ih =>
    obtain ⟨n, rfl⟩ := Nat.exists_eq_succ_of_ne_zero (by omega : n ≠ 0)
    have hfit := h a List.mem_cons_self
    have hacts : ∀ a ∈ acts, a.Fits := fun a ha => h a (List.mem_cons_of_mem _ ha)
    have hn' : acts.length < n := by
      rw [List.length_cons] at hn
      omega
    have hlen' : (encodeActions acts).length < 2 ^ 64 := by
      have hcons : encodeActions (a :: acts) = a.encode ++ encodeActions acts := rfl
      rw [hcons, List.length_append] at hlen
      omega
    rw [extractActions_cons hfit acts pre post n hlen]
    cases hentry : a.entry with
    | none =>
      have hskip : entries (a :: acts) = entries acts := List.filterMap_cons_none hentry
      rw [hskip]
      exact ih hacts (pre ++ a.encode) hn' hlen' hrep
    | some x =>
      have htake : entries (a :: acts) = x :: entries acts := List.filterMap_cons_some hentry
      rw [htake, List.length_cons]
      have hfits := hrep.fits
      by_cases hroom : l.length + 1 < onvmMaxChainLength
      · obtain ⟨chain', happ, hrep'⟩ := hrep.append hroom x
        obtain ⟨hfit, hover⟩ := ih hacts (pre ++ a.encode) hn' hlen' hrep'
        simp only [List.length_append, List.length_singleton] at hfit hover
        have happ' : appendEntry chain x = .ok chain' := by rw [appendEntry, happ]
        simp only [happ', ok_bind, List.length_append]
        refine ⟨fun hlt => ?_, fun hfull => hover (by omega)⟩
        obtain ⟨chain'', hrun, hrep''⟩ := hfit (by omega)
        exact ⟨chain'', hrun, by rwa [List.append_assoc] at hrep''⟩
      · have hfull : appendEntry chain x = .error .overflow := by
          rw [appendEntry, hrep.append_full (by omega) x]
        refine ⟨fun hlt => absurd hlt (by omega), fun _ => ?_⟩
        simp only [hfull]
        rfl

/-- The list that a chain made from the actions is to have: no action means drop. -/
def chainOf (acts : List OfpAction) : List ChainEntry :=
  if acts = [] then [⟨actionDrop, 0⟩] else entries acts

theorem length_encodeActions {acts : List OfpAction} (h : ∀ a ∈ acts, a.Fits) :
    acts.length ≤ (encodeActions acts).length := by
  induction acts with
  | nil => exact Nat.le_refl 0
  | cons a acts ih =>
    have h4 := (OfpAction.length_encode_lt (h a List.mem_cons_self)).1
    have hih := ih fun a ha => h a (List.mem_cons_of_mem _ ha)
    have hcons : encodeActions (a :: acts) = a.encode ++ encodeActions acts := rfl
    rw [hcons, List.length_append, List.length_cons]
    omega

/-- **The actions are read as they were written**: `flow_action_extract` makes the chain of
the outputs and queues of a list of actions if there are at most three of them, and stores the
fourth behind the chain. -/
theorem extract_encode {acts : List OfpAction} (h : ∀ a ∈ acts, a.Fits) (pre post : List Byte)
    (hlen : (encodeActions acts).length < 2 ^ 64) :
    ((entries acts).length < onvmMaxChainLength →
      ∃ chain, flowActionExtract (pre ++ (encodeActions acts ++ post)) pre.length
        (encodeActions acts).length = .ok chain ∧ chain.Rep (chainOf acts)) ∧
    (onvmMaxChainLength ≤ (entries acts).length →
      flowActionExtract (pre ++ (encodeActions acts ++ post)) pre.length
        (encodeActions acts).length = .error .overflow) := by
  have hcreate := OnvmServiceChain.rep_create
  by_cases hnil : acts = []
  · subst hnil
    obtain ⟨chain, happ, hrep⟩ := hcreate.append (by decide) ⟨actionDrop, 0⟩
    refine ⟨fun _ => ⟨chain, ?_, hrep⟩, fun hfull => absurd hfull (by decide)⟩
    simp [flowActionExtract, encodeActions, appendEntry, happ]
  · have hcount := length_encodeActions h
    have hpos := List.length_pos_iff.mpr hnil
    have hn : acts.length < maxRounds (pre ++ (encodeActions acts ++ post)) := by
      simp only [maxRounds, List.length_append]
      omega
    have hloop := extractActions_encode h pre post hn hlen hcreate
    rw [List.length_nil, Nat.zero_add, List.nil_append] at hloop
    rw [flowActionExtract, if_neg (by omega), chainOf, if_neg hnil]
    exact hloop

/-- To port 2 and to the NF 5, with an action of another type between them. -/
theorem extract_encode_three :
    ∃ chain, flowActionExtract (List.replicate 72 0 ++ (encodeActions
        [.output 2 0, .other 3 [1, 0, 0, 0], .enqueue 1 5] ++ [0xff])) 72 32 = .ok chain ∧
      chain.Rep [⟨actionOut, 2⟩, ⟨actionTonf, 5⟩] :=
  have hfits : ∀ a ∈ [OfpAction.output 2 0, .other 3 [1, 0, 0, 0], .enqueue 1 5], a.Fits := by decide
  (extract_encode hfits (List.replicate 72 0) [0xff] (by decide)).1 (by decide)

/-- An action of length 0 is looked at for ever if it adds nothing, and overflows the chain if
it does; one behind the memory is neither. -/
example : flowActionExtract [0, 3, 0, 0] 0 8 = .error .endless ∧
    flowActionExtract (List.replicate 8 0) 0 8 = .error .overflow ∧
    flowActionExtract [0, 3, 0, 4] 0 8 = .error .outside := by
  decide +kernel

end Onvm.Sdn

import Onvm.Sdn.Effect

/-!
# The channel to the controller

What the switch does with the two byte streams, apart from packets and flows: `Streams` is
that part of the state and `Streams.Next` says all that an operation can do to it. The
messages that the switch handles are the frames of what it received, however `read` cut
it (`handled_of_received`), and the controller finds in what it gets the messages that
were made (`made_of_sent`).
-/

namespace Onvm.Sdn

open Onvm.Lib Onvm.Nflib Onvm.Pkt

def typeOf (msg : List Byte) : Option OfpType := msg[1]?.bind OfpType.ofCode

/-- The connection. What goes out are the bytes that were sent and then those in
`outbuf`. -/
structure Streams where
  io : IoPc
  id : BitVec 32
  switchConfig : List Byte
  inbuf : List Byte
  out : List Byte
  received : List Byte
  handled : List (List Byte)
  answers : List (List Byte)
  made : List (List Byte)

def Switch.streams {η : Type} (s : Switch η) : Streams where
  io := s.io
  id := s.id
  switchConfig := s.switchConfig
  inbuf := s.inbuf.bytes
  out := s.trace.sent ++ s.outbuf.bytes
  received := s.trace.received
  handled := s.trace.handled
  answers := s.trace.answers
  made := s.trace.made

namespace Streams

def reacted (p : Streams) (msg rest : List Byte) (r : Reaction) : Streams :=
  { p with
    inbuf := rest
    handled := p.handled ++ [msg]
    switchConfig := r.switchConfig
    answers := p.answers ++ r.answer.toList
    made := p.made ++ r.answer.toList
    out := p.out ++ r.answer.getD [] }

inductive Next : Streams → Streams → Prop where
  | none {p : Streams} : Next p p
  | read {p : Streams} (data : List Byte) (pollOut : Bool) :
      Next p { p with
        io := .reading pollOut
        inbuf := p.inbuf ++ data
        received := p.received ++ data }
  | message {p : Streams} (msg rest tail : List Byte) (r : Reaction) (pollOut : Bool) :
      p.io = .reading pollOut → p.inbuf = msg ++ rest → ofp.size p.inbuf = some msg.length →
      react p.id p.switchConfig (msg ++ tail) = some r → Next p (p.reacted msg rest r)
  | leave {p : Streams} (io : IoPc) : ¬ ofp.Whole p.inbuf → Next p { p with io := io }
  | pollOut {p : Streams} : p.io = .poll → Next p { p with io := .writing }
  | packetIns {p : Streams} (msgs : List (List Byte)) : p.io = .writing →
      (∀ msg ∈ msgs, ofp.Sized msg) →
      Next p { p with io := .poll, made := p.made ++ msgs, out := p.out ++ msgs.flatten }

end Streams

namespace Switch

variable {η : Type} {t : RteHash η} {rss : RteThash} {s s' : Switch η}

theorem Reads.next {msg tail : List Byte} {r : Reaction} {inbuf outbuf : Msgbuf}
    (h : s.Reads msg tail r inbuf outbuf) :
    Streams.Next s.streams (s.reacted msg r inbuf outbuf).streams := by
  obtain ⟨pollOut, hio⟩ := h.io
  have hnext : Streams.Next s.streams _ :=
    .message msg inbuf.bytes tail r pollOut hio h.inbuf h.size h.react
  simp only [Streams.reacted, streams, List.append_assoc, ← h.outbuf] at hnext
  exact hnext

/-- Writing moves bytes that were on their way already. -/
theorem wrote_streams {outbuf : Msgbuf} {sent : List Byte}
    (h : sent ++ outbuf.bytes = s.outbuf.bytes) :
    (s.wrote outbuf sent).streams = { s.streams with io := .poll } := by
  simp only [streams, wrote, List.append_assoc, h]

theorem buffered_streams {pkt : SdnPkt} {i : Nat} {ft : η} {xid : BitVec 32}
    {msgs : List (List Byte)} {outbuf : Msgbuf}
    (h : outbuf.bytes = s.outbuf.bytes ++ msgs.flatten) :
    (s.buffered pkt i ft xid msgs outbuf).streams = { s.streams with
      made := s.streams.made ++ msgs, out := s.streams.out ++ msgs.flatten } := by
  simp only [streams, buffered, List.append_assoc, h]

/-- **All that an operation does to the streams.** -/
theorem Effect.streams (h : Effect t rss s s') : Streams.Next s.streams s'.streams := by
  cases h with
  | pass | take | queue | drop => exact .none
  | read data inbuf pollOut hbytes =>
    have hnext := Streams.Next.read (p := s.streams) data pollOut
    simp only [Switch.streams, ← hbytes] at hnext
    exact hnext
  | message hreads => exact hreads.next
  | rule k chain i key sc l dir hreads => exact hreads.next
  | leave io hrest => exact .leave io hrest
  | pollOut hio => exact .pollOut hio
  | wrote outbuf sent hio hbytes =>
    have hnext := Streams.Next.packetIns (p := s.streams) [] hio nofun
    rw [wrote_streams hbytes]
    simpa only [List.append_nil, List.flatten_nil] using hnext
  | buffer pkt ring k i ft xid msgs outbuf₁ outbuf sent hio _ _ _ hsized hout hbytes =>
    have hbuffered : (buffered { s with ringToSdn := ring } pkt i ft xid msgs outbuf₁).streams = _ :=
      buffered_streams hout
    rw [wrote_streams hbytes, hbuffered]
    exact .packetIns msgs hio hsized

end Switch

/-! ## The messages that are handled -/

def converse (id : BitVec 32) :
    List Byte → List (List Byte) → Option (List Byte × List (List Byte))
  | switchConfig, [] => some (switchConfig, [])
  | switchConfig, msg :: msgs => do
    let r ← react id switchConfig msg
    let (switchConfig, answers) ← converse id r.switchConfig msgs
    some (switchConfig, r.answer.toList ++ answers)

theorem converse_append {id : BitVec 32} {switchConfig : List Byte} {msgs : List (List Byte)}
    {c : List Byte} {answers : List (List Byte)} {msg : List Byte} {r : Reaction}
    (h : converse id switchConfig msgs = some (c, answers)) (hr : react id c msg = some r) :
    converse id switchConfig (msgs ++ [msg]) =
      some (r.switchConfig, answers ++ r.answer.toList) := by
  induction msgs generalizing switchConfig answers with
  | nil =>
    cases h
    simp only [List.nil_append, converse, hr, Option.bind_eq_bind, Option.bind_some,
      List.append_nil]
  | cons msg' msgs ih =>
    obtain ⟨r', hr', h⟩ := Option.bind_eq_some_iff.mp h
    obtain ⟨⟨c', answers'⟩, hconv, h⟩ := Option.bind_eq_some_iff.mp h
    cases h
    simp only [List.cons_append, converse, hr', ih hconv, Option.bind_eq_bind, Option.bind_some,
      List.append_assoc]

/-- The messages are as long as their types ask, a SET_CONFIG is no longer, and the controller
asks for the configuration only when it has set one. -/
structure Proper (msgs : List (List Byte)) : Prop where
  complete : ∀ msg ∈ msgs, Complete msg
  setConfig : ∀ msg ∈ msgs, typeOf msg = some .setConfig → msg.length = 12
  getConfig : ∀ pre msg post, msgs = pre ++ msg :: post → typeOf msg = some .getConfigRequest →
    ∃ m ∈ pre, typeOf m = some .setConfig

theorem Proper.init {msgs : List (List Byte)} {msg : List Byte} (h : Proper (msgs ++ [msg])) :
    Proper msgs where
  complete m hm := h.complete m (List.mem_append_left _ hm)
  setConfig m hm := h.setConfig m (List.mem_append_left _ hm)
  getConfig pre m post hsplit :=
    h.getConfig pre m (post ++ [msg]) (by rw [hsplit, List.append_assoc, List.cons_append])

namespace Streams

variable {p p' : Streams}

/-- What holds of the streams whatever the controller sends. -/
structure Right (p : Streams) : Prop where
  id : p.id = 1
  cuts : ofp.Cuts p.received p.handled p.inbuf
  rest : (∀ pollOut, p.io ≠ .reading pollOut) → ¬ ofp.Whole p.inbuf
  out : p.out = p.made.flatten
  answers : p.answers.Sublist p.made
  converse : (∀ msg ∈ p.handled, Complete msg) →
    converse 1 switchConfigInit p.handled = some (p.switchConfig, p.answers)

theorem Right.wait (h : p.Right) (io : IoPc) (hrest : ¬ ofp.Whole p.inbuf) :
    Right { p with io := io } where
  id := h.id
  cuts := h.cuts
  rest _ := hrest
  out := h.out
  answers := h.answers
  converse := h.converse

/-- **One operation** keeps it. -/
theorem Next.right (hn : Next p p') (h : p.Right) : p'.Right := by
  cases hn with
  | none => exact h
  | read data pollOut =>
    exact ⟨h.id, h.cuts.more data, fun hio => absurd rfl (hio pollOut), h.out, h.answers, h.converse⟩
  | message msg rest tail r pollOut hio hinbuf hsize hr =>
    have hcuts := h.cuts
    rw [hinbuf] at hcuts hsize
    refine ⟨h.id, hcuts.next hsize, fun hio' => absurd hio (hio' pollOut), ?_, ?_, fun hall => ?_⟩
    · show p.out ++ _ = (p.made ++ _).flatten
      rw [h.out, List.flatten_append]
      cases r.answer <;> simp
    · exact h.answers.append (List.Sublist.refl _)
    · have hmsg : Complete msg := hall msg (List.mem_append_right _ List.mem_cons_self)
      have hold := h.converse fun m hm => hall m (List.mem_append_left _ hm)
      rw [react_append hmsg tail, h.id] at hr
      exact converse_append hold hr
  | leave io hrest => exact h.wait io hrest
  | pollOut hio => exact h.wait .writing (h.rest fun _ => by rw [hio]; nofun)
  | packetIns msgs hio _ =>
    refine ⟨h.id, h.cuts, fun _ => h.rest fun _ => by rw [hio]; nofun, ?_, ?_, h.converse⟩
    · show p.out ++ msgs.flatten = (p.made ++ msgs).flatten
      rw [h.out, List.flatten_append]
    · exact h.answers.trans (List.sublist_append_left _ _)

/-- What holds of them as long as the messages are proper. -/
structure Clear (p : Streams) : Prop where
  sized : ∀ msg ∈ p.made, ofp.Sized msg
  config : (∃ msg ∈ p.handled, typeOf msg = some .setConfig) → ConfigRight p.switchConfig
  requests : ∃ requests : List (List Byte), requests.Sublist p.handled ∧
    List.Forall₂ (fun answer request => Answers answer (xidOf request)) p.answers requests

/-- A SET_CONFIG that is as long as it is to be says so. -/
theorem right_setConfig {msg rest : List Byte} (hlen : msg.length = 12)
    (hsize : ofp.size (msg ++ rest) = some msg.length) : ConfigRight msg := by
  refine ⟨hlen, ?_⟩
  have hle : sizeofOfpHeader ≤ (msg ++ rest).length := by
    rw [List.length_append, hlen, sizeofOfpHeader]
    omega
  obtain ⟨x, hx⟩ := load16_inside (by omega : 2 + 2 ≤ msg.length)
  have hread : ntohs msg 2 = some (bswap16 x) := by rw [ntohs, hx, Option.map_some]
  have hsize' : ofpSize (msg ++ rest) = some 12 := hlen ▸ hsize
  rw [ofpSize, if_pos hle, ntohs_append rest hread, Option.map_some] at hsize'
  have hx12 : bswap16 x = 12 := BitVec.eq_of_toNat_eq (Option.some.inj hsize')
  rw [hread, hx12]

/-- **One operation** keeps it, as long as the messages are proper. -/
theorem Next.clear (hn : Next p p') (h : p.Clear) (hproper : Proper p'.handled) : p'.Clear := by
  cases hn with
  | none | read | leave | pollOut => exact ⟨h.sized, h.config, h.requests⟩
  | packetIns msgs hio hmsgs =>
    refine ⟨fun m hm => ?_, h.config, h.requests⟩
    rcases List.mem_append.mp hm with hm | hm
    · exact h.sized m hm
    · exact hmsgs m hm
  | message msg rest tail r pollOut hio hinbuf hsize hr =>
    have hmem : msg ∈ p.handled ++ [msg] := List.mem_append_right _ List.mem_cons_self
    have hmsg : Complete msg := hproper.complete msg hmem
    have h8 := (eight_le_leastSize _).trans hmsg
    rw [react_append hmsg tail] at hr
    have hconfig : typeOf msg = some .getConfigRequest → ConfigRight p.switchConfig := fun hget =>
      h.config (hproper.getConfig p.handled msg [] rfl hget)
    refine ⟨?_, ?_, ?_⟩
    · intro m hm
      rcases List.mem_append.mp hm with hm | hm
      · exact h.sized m hm
      · exact (react_answers hr h8 hconfig (Option.mem_toList.mp hm)).sized
    · rintro ⟨m, hm, hset⟩
      by_cases hmset : typeOf msg = some .setConfig
      · have hlen := hproper.setConfig msg hmem hmset
        have htake : r.switchConfig = msg := by
          rw [react_setConfig hr hmset, ← hlen, List.take_length]
        show ConfigRight r.switchConfig
        rw [htake]
        exact right_setConfig hlen (hinbuf ▸ hsize)
      · have hold : ConfigRight p.switchConfig := by
          rcases List.mem_append.mp hm with hm | hm
          · exact h.config ⟨m, hm, hset⟩
          · exact absurd (List.mem_singleton.mp hm ▸ hset) hmset
        exact react_config hr hmset (length_xidOf h8) hold
    · obtain ⟨requests, hsub, hall⟩ := h.requests
      cases hans : r.answer with
      | none =>
        refine ⟨requests, hsub.trans (List.sublist_append_left _ _), ?_⟩
        show List.Forall₂ _ (p.answers ++ r.answer.toList) _
        rwa [hans, Option.toList_none, List.append_nil]
      | some answer =>
        refine ⟨requests ++ [msg], hsub.append (List.Sublist.refl _), ?_⟩
        show List.Forall₂ _ (p.answers ++ r.answer.toList) _
        rw [hans, Option.toList_some]
        have hone : List.Forall₂ (fun answer request => Answers answer (xidOf request))
            [answer] [msg] := .cons (react_answers hr h8 hconfig hans) .nil
        exact List.rel_append hall hone

end Streams

/-! ## All runs -/

variable {η η' : Type} {t : RteHash η} {t' : RteHash η'} {rss rss' : RteThash}
  {junk junk' : Nat → Byte} {s : Switch η} {s' : Switch η'}

theorem Switch.Init.right (h : s.Init t) : s.streams.Right := by
  obtain ⟨hid, hinbuf, houtbuf, -, hconfig, -, -, -, -, -, -, htrace⟩ := h
  have hstreams : s.streams = { io := s.io, id := 1, switchConfig := switchConfigInit
                                inbuf := [], out := helloMsg, received := [], handled := []
                                answers := [], made := [helloMsg] } := by
    simp only [Switch.streams, htrace, hid, hinbuf, houtbuf, hconfig, List.nil_append]
  rw [hstreams]
  exact ⟨rfl, .done [], fun _ ⟨n, hn, _⟩ => absurd hn nofun, (List.append_nil helloMsg).symm,
    List.nil_sublist _, fun _ => rfl⟩

theorem Switch.Init.clear (h : s.Init t) : s.streams.Clear := by
  have hhello : ofp.Sized helloMsg :=
    (answers_headerReply .hello (length_htonl 1)).sized
  refine ⟨fun msg hmsg => ?_, fun ⟨msg, hmsg, _⟩ => ?_, [], List.nil_sublist _, ?_⟩
  · simp only [Switch.streams, h.trace, List.mem_singleton] at hmsg
    rwa [hmsg]
  · simp [Switch.streams, h.trace] at hmsg
  · simp [Switch.streams, h.trace]

theorem reachable_right (h : (switch t rss junk).Reachable s) : s.streams.Right :=
  h.induct (P := fun s => s.streams.Right) (fun _ => Switch.Init.right)
    fun _ _ _ hs ⟨_, hstep⟩ => (Switch.step_effect hstep).streams.right hs

theorem Streams.Next.handled {p p' : Streams} (hn : Next p p') : p.handled <+: p'.handled := by
  cases hn with
  | message msg => exact List.prefix_append _ _
  | _ => exact List.prefix_rfl

theorem Proper.of_prefix {msgs msgs' : List (List Byte)} (h : Proper msgs')
    (hpre : msgs <+: msgs') : Proper msgs := by
  obtain ⟨tail, rfl⟩ := hpre
  induction tail using List.reverseRecOn with
  | nil => rwa [List.append_nil] at h
  | append_singleton tail msg ih =>
    rw [← List.append_assoc] at h
    exact ih h.init

theorem reachable_clear (h : (switch t rss junk).Reachable s) :
    Proper s.trace.handled → s.streams.Clear :=
  h.induct (P := fun s => Proper s.trace.handled → s.streams.Clear)
    (fun _ hinit _ => Switch.Init.clear hinit) fun s s' _ hs ⟨_, hstep⟩ hproper => by
      have hn := (Switch.step_effect hstep).streams
      have hpre : s.trace.handled <+: s'.trace.handled := hn.handled
      exact hn.clear (hs (hproper.of_prefix hpre)) hproper

/-- **Main**: what the switch makes of the stream from the controller does not depend on how
`read` cuts it, on the packets or on the order of the threads. Two switches that have received
the same and are not in their loop over the messages have handled the same messages, which are
the frames of the stream; if these are as long as their types ask, the answers are the same. -/
theorem handled_of_received (h : (switch t rss junk).Reachable s)
    (h' : (switch t' rss' junk').Reachable s') (hio : ∀ pollOut, s.io ≠ .reading pollOut)
    (hio' : ∀ pollOut, s'.io ≠ .reading pollOut)
    (hreceived : s.trace.received = s'.trace.received) :
    ofp.Cuts s.trace.received s.trace.handled s.inbuf.bytes ∧
    s.trace.handled = s'.trace.handled ∧ s.inbuf.bytes = s'.inbuf.bytes ∧
    ((∀ msg ∈ s.trace.handled, Complete msg) →
      s.switchConfig = s'.switchConfig ∧ s.trace.answers = s'.trace.answers) := by
  have hs := reachable_right h
  have hs' := reachable_right h'
  have hcuts' : ofp.Cuts s.trace.received s'.trace.handled s'.inbuf.bytes :=
    hreceived ▸ hs'.cuts
  obtain ⟨hhandled, hrest⟩ := hs.cuts.unique hcuts' (hs.rest hio) (hs'.rest hio')
  refine ⟨hs.cuts, hhandled, hrest, fun hall => ?_⟩
  have hconv := hs.converse hall
  have hconv' : converse 1 switchConfigInit s.trace.handled =
      some (s'.switchConfig, s'.trace.answers) := by
    have hhandled' : s.trace.handled = s'.trace.handled := hhandled
    rw [hhandled'] at hall ⊢
    exact hs'.converse hall
  have hsame := Option.some.inj (hconv.symm.trans hconv')
  exact ⟨congrArg Prod.fst hsame, congrArg Prod.snd hsame⟩

/-- The two messages in one read and in two. -/
theorem handled_of_received_twice :
    ∃ s s', Switch.after [.read (some helloEcho) false, .parse 0 0, .parse 0 0, .parse 0 0] =
        some s ∧
      Switch.after [.read (some (helloEcho.take 5)) false, .parse 0 0,
        .read (some (helloEcho.drop 5)) false, .parse 0 0, .parse 0 0, .parse 0 0] = some s' ∧
      s.trace.handled = s'.trace.handled := by
  obtain ⟨s, hs, hsame⟩ := Option.map_eq_some_iff.mp (by decide +kernel :
    (Switch.after [.read (some helloEcho) false, .parse 0 0, .parse 0 0, .parse 0 0]).map
      (fun s => (s.io, s.trace.received)) = some (.poll, helloEcho))
  obtain ⟨s', hs', hsame'⟩ := Option.map_eq_some_iff.mp (by decide +kernel :
    (Switch.after [.read (some (helloEcho.take 5)) false, .parse 0 0,
      .read (some (helloEcho.drop 5)) false, .parse 0 0, .parse 0 0, .parse 0 0]).map
      (fun s => (s.io, s.trace.received)) = some (.poll, helloEcho))
  simp only [Prod.mk.injEq] at hsame hsame'
  exact ⟨s, s', hs, hs', (handled_of_received (Switch.after_reachable hs)
    (Switch.after_reachable hs') (fun _ => by rw [hsame.1]; nofun)
    (fun _ => by rw [hsame'.1]; nofun) (hsame.2.trans hsame'.2.symm)).2.1⟩

/-- **Main**: the bytes that have gone out and those in `outbuf` are the messages that were
made, one after the other, the answers among them in their order. As long as the messages of
the controller are proper, it finds all of them by their sizes, and each answer has the
transaction of its request. -/
theorem made_of_sent (h : (switch t rss junk).Reachable s) :
    s.trace.sent ++ s.outbuf.bytes = s.trace.made.flatten ∧
    s.trace.answers.Sublist s.trace.made ∧
    (Proper s.trace.handled →
      ofp.Cuts (s.trace.sent ++ s.outbuf.bytes) s.trace.made [] ∧
      ∃ requests : List (List Byte), requests.Sublist s.trace.handled ∧
        List.Forall₂ (fun answer request => Answers answer (xidOf request))
          s.trace.answers requests) := by
  have hs := reachable_right h
  refine ⟨hs.out, hs.answers, fun hproper => ?_⟩
  have hclear := reachable_clear h hproper
  refine ⟨?_, hclear.requests⟩
  have hcuts := Framing.cuts_flatten hclear.sized []
  rw [List.append_nil] at hcuts
  have hout : s.trace.sent ++ s.outbuf.bytes = s.trace.made.flatten := hs.out
  rw [hout]
  exact hcuts

/-- The answer to the ECHO_REQUEST is on its way. -/
theorem made_of_sent_echo :
    ∃ s, Switch.after [.read (some helloEcho) true, .parse 0 0, .parse 0 0, .parse 0 0,
        .write (some 3)] = some s ∧
      s.trace.sent ++ s.outbuf.bytes = s.trace.made.flatten := by
  obtain ⟨s, hs⟩ := Option.isSome_iff_exists.mp (by decide +kernel :
    (Switch.after [.read (some helloEcho) true, .parse 0 0, .parse 0 0, .parse 0 0,
      .write (some 3)]).isSome = true)
  exact ⟨s, hs, (made_of_sent (Switch.after_reachable hs)).1⟩

end Onvm.Sdn

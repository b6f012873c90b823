import BitcoinCrawl.Proofs.Peering.Writing
import BitcoinCrawl.Proofs.Transport.Framing

set_option autoImplicit false

/-! # Two handshakes with each other

A `Pair` is a connection with a handshake of ours on both ends. What one end writes is on its way to the other
until it arrives there, in order, in pieces of any size and at any time; `Pair.run` is any interleaving of that
with the steps of the two. At every moment both are where their conversations are, and the bytes between them
are the frames that one has sent and the other has not received (`Pair.Coupled`). -/

namespace BitcoinCrawl

/-! ## The system -/

/-- More bytes arrive on a stream that stays open, behind those that are there. -/
def Link.arrive (chunk : Bytes) (link : Link) : Link :=
  { link with script := ⟨link.script.events.dropLast ++ [.bytes chunk, .hold], none⟩ }

/-- Who takes part in a connection: how it presents itself, what it knows of the other, its nonce and its
    clock. -/
structure Party where
  config : ConnectionConfig
  peer : Peer
  nonce : UInt64
  time : Int64

namespace Party

/-- How the party introduces itself. -/
def introduction (a : Party) : VersionMessage := a.config.introduction a.peer a.nonce a.time

def handshake (a : Party) : Handshake := .begin a.config a.peer a.nonce a.time

/-- All that the party says to one from which it has received some results. -/
def speech (a : Party) (read : List Received) : List Message :=
  .version a.introduction :: Handshake.answers a.config a.nonce read

end Party

/-- One end of a connection. -/
structure Side where
  exchange : Exchange
  /-- The bytes on their way to it. -/
  coming : Bytes := []

/-- A connection between two handshakes. -/
structure Pair where
  near : Side
  far : Side

namespace Pair

/-- The same connection seen from the other end. -/
def swap (p : Pair) : Pair := ⟨p.far, p.near⟩

/-- What can happen at one end. -/
inductive Move where
  /-- The handshake takes a step at an instant. What it writes is on its way then. -/
  | step (now : Nat)
  /-- Some of the bytes on their way arrive, as many as that if there are so many. -/
  | arrive (count : Nat)

/-- The near end takes a step. -/
def step (now : Nat) (p : Pair) : Pair where
  near := { p.near with exchange := p.near.exchange.step now }
  far := { p.far with
    coming := p.far.coming ++
      ((p.near.exchange.step now).link.sent.toList.drop p.near.exchange.link.sent.size).flatten }

/-- Bytes arrive at the near end. -/
def arrive (count : Nat) (p : Pair) : Pair :=
  match p.near.coming.take count with
  | [] => p
  | b :: bytes => { p with near := {
      exchange := { p.near.exchange with link := p.near.exchange.link.arrive (b :: bytes) }
      coming := p.near.coming.drop count } }

/-- A move of the near end. -/
def move (p : Pair) : Move → Pair
  | .step now => p.step now
  | .arrive count => p.arrive count

/-- One thing that can happen to a connection. -/
inductive Event where
  | near (move : Move)
  | far (move : Move)

/-- A connection after one event. -/
def apply (p : Pair) : Event → Pair
  | .near move => p.move move
  | .far move => (p.swap.move move).swap

/-- A connection after some events. -/
def run (p : Pair) (events : List Event) : Pair := events.foldl apply p

/-- A connection on a network whose ends are about to begin. -/
def start (magic : Magic) (a b : Party) : Pair where
  near := { exchange := { handshake := a.handshake, link := { magic, script := ⟨[.hold], none⟩ } } }
  far := { exchange := { handshake := b.handshake, link := { magic, script := ⟨[.hold], none⟩ } } }

/-- Nothing that can happen changes anything. -/
def Stuck (p : Pair) : Prop := ∀ event, p.apply event = p

end Pair

/-! ## One direction -/

/-- What a side has received of the frames that the other end has sent, and how those it has not received are
    spread over its reader, its stream and the way to it. -/
structure Carries (magic : Magic) (sent : List Bytes) (side : Side) (got left chunks : List Bytes) : Prop where
  sent : sent = got ++ left
  received : side.exchange.received = got.map fun frame => (Frame.decode magic frame).mapError .transport
  part : side.exchange.link.reader.Waits
  script : side.exchange.link.script = ⟨chunks.map .bytes ++ [.hold], none⟩
  unread : side.exchange.link.reader.held ++ chunks.flatten ++ side.coming = left.flatten

/-- No byte gets lost on the way to a side. -/
def Hears (magic : Magic) (sent : List Bytes) (side : Side) : Prop :=
  ∃ got left chunks, Carries magic sent side got left chunks

/-- Frames that are read as the messages they were made for. -/
def Spoken (magic : Magic) (sent : List Bytes) : Prop :=
  ∀ frame ∈ sent, ∃ m : Message, m.Plain ∧ frame = Frame.encode magic m

namespace Carries

variable {magic : Magic} {sent got left chunks : List Bytes} {side : Side}

theorem length_events (hc : Carries magic sent side got left chunks) :
    side.exchange.link.script.events.length = chunks.length + 1 := by
  rw [hc.script, List.length_append, List.length_map, List.length_singleton]

/-- A result at the front of what is unread is that of the oldest frame not received. -/
theorem next? (hc : Carries magic sent side got left chunks) (spoken : Spoken magic sent) {r : Reader.Result}
    {rest : Bytes}
    (h : Frame.next? magic (side.exchange.link.reader.held ++ chunks.flatten) = some (r, rest)) :
    ∃ frame left', left = frame :: left' ∧ Frame.decode magic frame = r ∧
      rest ++ side.coming = left'.flatten := by
  have hnext := Frame.next?_append side.coming h
  rw [hc.unread] at hnext
  cases left with
  | nil => cases hnext
  | cons frame left' =>
      obtain ⟨m, hplain, rfl⟩ := spoken frame (hc.sent ▸ List.mem_append_right _ List.mem_cons_self)
      rw [List.flatten_cons, hplain.next?_append magic] at hnext
      obtain ⟨hr, hrest⟩ := Prod.ext_iff.mp (Option.some.inj hnext)
      exact ⟨_, left', rfl, (hplain.decode magic).trans hr, hrest.symm⟩

/-- If nothing is on the way, an unread frame is there to be received. -/
theorem next?_isSome (hc : Carries magic sent side got left chunks) (spoken : Spoken magic sent)
    (arrived : side.coming = []) (some : left ≠ []) :
    (Frame.next? magic (side.exchange.link.reader.held ++ chunks.flatten)).isSome = true := by
  have hunread := hc.unread
  rw [arrived, List.append_nil] at hunread
  cases left with
  | nil => exact absurd rfl some
  | cons frame left' =>
      obtain ⟨m, hplain, rfl⟩ := spoken frame (hc.sent ▸ List.mem_append_right _ List.mem_cons_self)
      rw [hunread, List.flatten_cons, hplain.next?_append magic]
      rfl

end Carries

/-- What a read makes of a stream that stays open: the first result in its bytes, or none, and then all of them
    are taken. -/
inductive OpenRead (link : Link) (chunks : List Bytes) : Link × Poll Reader.Result → Prop
  | ready (r : Reader.Result) (rest : Bytes) (left : List Bytes)
      (next : Frame.next? link.magic (link.reader.held ++ chunks.flatten) = some (r, rest))
      (behind : left.flatten = rest) (fewer : left.length ≤ chunks.length) :
      OpenRead link chunks
        ({ link with reader := .start, script := ⟨left.map .bytes ++ [.hold], none⟩ }, .ready r)
  | waits (reader : Reader) (next : Frame.next? link.magic (link.reader.held ++ chunks.flatten) = none)
      (part : reader.Waits) (held : reader.held = link.reader.held ++ chunks.flatten) :
      OpenRead link chunks ({ link with reader, script := ⟨[.hold], none⟩ }, .waiting none)

theorem Link.receive_open {link : Link} {chunks : List Bytes} (hw : link.reader.Waits)
    (hscript : link.script = ⟨chunks.map .bytes ++ [.hold], none⟩) (now : Nat) :
    OpenRead link chunks (link.receive now) := by
  cases hnext : Frame.next? link.magic (link.reader.held ++ chunks.flatten) with
  | some found =>
      obtain ⟨left, hleft, hfewer, hread⟩ := Script.read_chunks_of_some link.heard now hw chunks [.hold] hnext
      simp only [Link.receive, hscript, hread]
      exact .ready found.1 found.2 left hnext hleft hfewer
  | none =>
      obtain ⟨reader, hwaits, hheld, hread⟩ := Script.read_chunks_of_none link.heard now hw chunks [.hold] hnext
      simp only [Link.receive, hscript, hread, Script.read]
      exact .waits reader hnext hwaits hheld

/-- A stream on which nothing has arrived stays as it is. -/
theorem Link.receive_hold {link : Link} (hscript : link.script = ⟨[.hold], none⟩) (now : Nat) :
    link.receive now = (link, .waiting none) := by
  simp only [Link.receive, hscript, Script.read]
  rw [← hscript]

namespace Hears

variable {magic : Magic} {sent : List Bytes} {side : Side}

/-- The other end sends more. -/
theorem send (hh : Hears magic sent side) (more : List Bytes) :
    Hears magic (sent ++ more) { side with coming := side.coming ++ more.flatten } := by
  obtain ⟨got, left, chunks, hc⟩ := hh
  refine ⟨got, left ++ more, chunks, ?_, hc.received, hc.part, hc.script, ?_⟩
  · rw [hc.sent, List.append_assoc]
  · rw [List.flatten_append, ← hc.unread]
    simp only [List.append_assoc]

/-- Bytes arrive. -/
theorem arrive (hh : Hears magic sent side) {chunk coming : Bytes} (hsplit : side.coming = chunk ++ coming) :
    Hears magic sent
      { exchange := { side.exchange with link := side.exchange.link.arrive chunk }, coming } := by
  obtain ⟨got, left, chunks, hc⟩ := hh
  refine ⟨got, left, chunks ++ [chunk], hc.sent, hc.received, hc.part, ?_, ?_⟩
  · simp only [Link.arrive, hc.script, List.dropLast_concat]
    simp
  · have hunread := hc.unread
    rw [hsplit] at hunread
    simpa [Link.arrive] using hunread

/-- The side takes a step. -/
theorem step (hh : Hears magic sent side) (hw : side.exchange.link.writeFault = none)
    (hmagic : side.exchange.link.magic = magic) (spoken : Spoken magic sent) (now : Nat) :
    Hears magic sent { side with exchange := side.exchange.step now } := by
  obtain ⟨got, left, chunks, hc⟩ := hh
  have hstepped := Exchange.step_stepped hw now
  have hopen := Link.receive_open hc.part hc.script now
  generalize side.exchange.step now = x' at hstepped
  cases hstepped with
  | ended => exact ⟨got, left, chunks, hc⟩
  | writes m rest =>
      rw [Link.send_written hw]
      exact ⟨got, left, chunks, hc.sent, hc.received, hc.part, hc.script, hc.unread⟩
  | done => exact ⟨got, left, chunks, hc.sent, hc.received, hc.part, hc.script, hc.unread⟩
  | receives link r _ _ _ hready =>
      rw [hready] at hopen
      cases hopen with
      | ready _ rest behind hnext hbehind _ =>
          rw [hmagic] at hnext
          obtain ⟨frame, left', rfl, hdecode, hrest⟩ := hc.next? spoken hnext
          refine ⟨got ++ [frame], left', behind, ?_, ?_, Reader.waits_start, rfl, ?_⟩
          · rw [hc.sent, List.append_assoc]
            rfl
          · rw [hc.received, List.map_append, List.map_singleton, hdecode]
          · rw [hbehind]
            exact hrest
  | waits link wake _ _ _ hunready =>
      rw [hunready] at hopen
      cases hopen with
      | waits reader _ hpart hheld =>
          refine ⟨got, left, [], hc.sent, hc.received, hpart, rfl, ?_⟩
          rw [← hc.unread, ← hheld, List.flatten_nil, List.append_nil]

end Hears

/-! ## Both directions -/

namespace Exchange

variable {magic : Magic} {a : Party} {x : Exchange}

/-- A handshake has read all that it has received. -/
theorem Follows.judged (hf : x.Follows a.handshake magic) :
    Handshake.Judged a.config a.peer a.nonce a.time x.received (a.handshake.converse x.received) := by
  obtain ⟨⟨read, hread, hj⟩, -⟩ := Handshake.converse_judged a.config a.peer a.nonce a.time x.received
  have hunread : ((Handshake.begin a.config a.peer a.nonce a.time).converse x.received).unread = [] :=
    hf.matches.unread
  rw [hunread, List.append_nil] at hread
  rw [← hread] at hj
  exact hj

/-- What a handshake has written and still has to write is its introduction and its answers. -/
theorem Follows.said (hf : x.Follows a.handshake magic) :
    x.link.sent.toList ++ x.handshake.outbox.map (Frame.encode magic)
      = (a.speech x.received).map (Frame.encode magic) := by
  have hsent := hf.matches.sent
  rw [hf.magic, hf.judged.sent] at hsent
  exact hsent

end Exchange

/-- Every answer is one of two messages. -/
theorem Handshake.mem_answers {config : ConnectionConfig} {nonce : UInt64} {read : List Received} {m : Message}
    (h : m ∈ answers config nonce read) : m = .sendAddrV2 ∨ m = .verack := by
  unfold answers at h
  cases haccepted : accepted? nonce read with
  | none =>
      rw [haccepted] at h
      cases h
  | some v =>
      rw [haccepted] at h
      simp only [Option.elim_some, replies] at h
      split_ifs at h
      · simpa using h
      · exact .inr (List.mem_singleton.mp h)

theorem sendAddrV2_plain : Message.sendAddrV2.Plain where
  regular := trivial
  small := by decide

/-- If the introduction fits into a frame, all that a party says comes back from its frame. -/
theorem Party.speech_plain {a : Party} (fits : (Message.version a.introduction).Plain) {read : List Received}
    {m : Message} (h : m ∈ a.speech read) : m.Plain := by
  rcases List.mem_cons.mp h with rfl | hanswer
  · exact fits
  · rcases Handshake.mem_answers hanswer with rfl | rfl
    · exact sendAddrV2_plain
    · exact verack_plain

namespace Pair

variable {magic : Magic} {a b : Party} {p : Pair}

/-- The near end is where its conversation is, and hears what the far end says. Its introduction fits into a
    frame. -/
structure Attends (magic : Magic) (a : Party) (p : Pair) : Prop where
  plain : (Message.version a.introduction).Plain
  follows : p.near.exchange.Follows a.handshake magic
  hears : Hears magic p.far.exchange.link.sent.toList p.near

/-- What holds of a connection between two parties at every moment. -/
structure Coupled (magic : Magic) (a b : Party) (p : Pair) : Prop where
  near : p.Attends magic a
  far : p.swap.Attends magic b

theorem Coupled.swap (h : p.Coupled magic a b) : p.swap.Coupled magic b a := ⟨h.far, h.near⟩

theorem Attends.spoken (h : p.Attends magic a) : Spoken magic p.near.exchange.link.sent.toList := by
  intro frame hmem
  have hsaid : frame ∈ p.near.exchange.link.sent.toList
      ++ p.near.exchange.handshake.outbox.map (Frame.encode magic) := List.mem_append_left _ hmem
  rw [h.follows.said] at hsaid
  obtain ⟨m, hm, rfl⟩ := List.mem_map.mp hsaid
  exact ⟨m, Party.speech_plain h.plain hm, rfl⟩

theorem Coupled.step (h : p.Coupled magic a b) (now : Nat) : (p.step now).Coupled magic a b := by
  have hfollows := h.near.follows
  obtain ⟨more, hmore⟩ : ∃ more,
      (p.near.exchange.step now).link.sent.toList = p.near.exchange.link.sent.toList ++ more :=
    ⟨_, (p.near.exchange.hands_step now).sent⟩
  refine ⟨⟨h.near.plain, hfollows.step now, ?_⟩, ⟨h.far.plain, h.far.follows, ?_⟩⟩
  · exact h.near.hears.step hfollows.writes hfollows.magic h.far.spoken now
  · have hnew : (p.near.exchange.link.sent.toList ++ more).drop p.near.exchange.link.sent.size = more :=
      List.drop_left' Array.length_toList
    have hheard := h.far.hears.send more
    simp only [Pair.swap, Pair.step, hmore, hnew]
    exact hheard

theorem Coupled.arrive (h : p.Coupled magic a b) (count : Nat) : (p.arrive count).Coupled magic a b := by
  unfold Pair.arrive
  split
  · exact h
  · rename_i byte bytes htake
    have hf := h.near.follows
    refine ⟨⟨h.near.plain, ⟨hf.writes, hf.magic, hf.ended, hf.converse⟩, ?_⟩,
      ⟨h.far.plain, h.far.follows, h.far.hears⟩⟩
    refine h.near.hears.arrive ?_
    rw [← htake, List.take_append_drop]

theorem Coupled.apply (h : p.Coupled magic a b) (event : Event) : (p.apply event).Coupled magic a b := by
  cases event with
  | near move =>
      cases move with
      | step now => exact h.step now
      | arrive count => exact h.arrive count
  | far move =>
      cases move with
      | step now => exact (h.swap.step now).swap
      | arrive count => exact (h.swap.arrive count).swap

theorem Coupled.run (h : p.Coupled magic a b) (events : List Event) : (p.run events).Coupled magic a b := by
  induction events generalizing p with
  | nil => exact h
  | cons event rest ih => exact ih (h.apply event)

/-- In the beginning nothing is written. -/
theorem attends_start (magic : Magic) (a b : Party) (plain : (Message.version a.introduction).Plain) :
    (start magic a b).Attends magic a where
  plain := plain
  follows := @Exchange.follows_begin { magic, script := ⟨[.hold], none⟩ } rfl rfl a.handshake
  hears := ⟨[], [], [], rfl, rfl, Reader.waits_start, rfl, rfl⟩

theorem coupled_start (magic : Magic) (a b : Party) (near : (Message.version a.introduction).Plain)
    (far : (Message.version b.introduction).Plain) : (start magic a b).Coupled magic a b :=
  ⟨attends_start magic a b near, attends_start magic b a far⟩

end Pair

end BitcoinCrawl

import BitcoinCrawl.Log
import BitcoinCrawl.Peering.Config
import BitcoinCrawl.Peering.Fault
import BitcoinCrawl.Transport.Link

set_option autoImplicit false

/-! # The handshake

Both sides send a version message and acknowledge the other's. `Handshake` is one side as a machine over
received results: it keeps the messages that still have to be written and how far the exchange has come.
`Handshake.receive` is its whole logic; `Handshake.step` runs it over a link. -/

namespace BitcoinCrawl

/-- How far a handshake has come. -/
inductive HandshakeStage where
  /-- Our version is out, nothing has come back. -/
  | versionSent
  /-- The peer's version has come. -/
  | versionReceived
  /-- The peer acknowledged before its own version came. -/
  | verackReceived
  | complete
  deriving DecidableEq

namespace HandshakeStage

def name : HandshakeStage → String
  | versionSent => "VersionSent"
  | versionReceived => "VersionReceived"
  | verackReceived => "VerackReceived"
  | complete => "Complete"

/-- Whether the peer's version has been accepted. -/
def hasVersion : HandshakeStage → Bool
  | versionReceived | complete => true
  | versionSent | verackReceived => false

/-- The stage after the peer's version was accepted. -/
def onVersion : HandshakeStage → HandshakeStage
  | verackReceived => complete
  | _ => versionReceived

/-- The stage after an acknowledgement. A repeated one changes nothing. -/
def onVerack : HandshakeStage → HandshakeStage
  | versionSent => verackReceived
  | versionReceived => complete
  | stage => stage

end HandshakeStage

/-- One side of a handshake. -/
structure Handshake where
  config : ConnectionConfig
  peer : Peer
  /-- The nonce of our version message. -/
  nonce : UInt64
  stage : HandshakeStage := .versionSent
  /-- Messages to write before anything else is read, in order. -/
  outbox : List Message

namespace Handshake

/-- A handshake that is about to send our version message. -/
def begin (config : ConnectionConfig) (peer : Peer) (nonce : UInt64) (time : Int64) : Handshake where
  config := config
  peer := peer
  nonce := nonce
  outbox := [.version (config.introduction peer nonce time)]

/-- Whether both versions are exchanged and acknowledged and nothing is left to write. -/
def isDone (h : Handshake) : Bool := h.stage == .complete && h.outbox.isEmpty

/-! ## Reactions -/

/-- What a handshake makes of a received result. -/
structure Reaction where
  handshake : Handshake
  log : Log := #[]
  /-- Set if the handshake has failed. -/
  fault : Option ConnectionFault := none

/-- What to answer to an accepted version: a request for the newer address format if both sides know it
    and we want it, then the acknowledgement. -/
def replies (config : ConnectionConfig) (version : UInt32) : List Message :=
  let common := min config.advertisedVersion version
  if config.requestAddrV2 && addrV2ProtocolVersion ≤ common then [.sendAddrV2, .verack] else [.verack]

/-- Judge the peer's first version message: our own nonce means that we dialed ourselves, and an old
    protocol is refused. Otherwise the peer is as it says. -/
def onVersion (h : Handshake) (v : VersionMessage) : Reaction :=
  if v.nonce = h.nonce then { handshake := h, fault := some .selfDialed }
  else if v.version < minProtocolVersion then { handshake := h, fault := some (.obsolete v.version) }
  else
    let peer := { h.peer with
      services := some v.services, version := some v.version, userAgent := some v.userAgent }
    { handshake := { h with
        peer, stage := h.stage.onVersion, outbox := h.outbox ++ replies h.config v.version } }

/-- React to a received message. Only the first version message and acknowledgements count. -/
def onMessage (h : Handshake) : Message → Reaction
  | .version v =>
    if h.stage.hasVersion then
      { handshake := h
        log := #[.debug s!"Received duplicate version message in state {h.stage.name}, ignoring"] }
    else h.onVersion v
  | .verack =>
    let stage := h.stage.onVerack
    let log := if stage = h.stage
      then #[.debug s!"Received duplicate verack message in state {h.stage.name}, ignoring"] else #[]
    { handshake := { h with stage }, log }
  | m =>
    { handshake := h
      log := #[.debug s!"Received {m.command} from {h.peer.endpoint} during handshake, ignoring"] }

/-- React to a received result. A frame that could not be decoded is skipped, every other fault ends the
    handshake. -/
def receive (h : Handshake) : Received → Reaction
  | .ok m => h.onMessage m
  | .error fault =>
    if fault.isRecoverable then
      { handshake := h
        log := #[.warn
          s!"Skipping frame from {h.peer.endpoint} during handshake: {fault.message}"] }
    else { handshake := h, fault := some fault }

/-- The handshake after the first message of the outbox was written. -/
def wrote (h : Handshake) (m : Message) : Reaction :=
  let log := match m with
    | .version _ => #[.debug s!"Sent version message to {h.peer.endpoint}"]
    | _ => #[]
  { handshake := { h with outbox := h.outbox.tail }, log }

/-! ## Over a link -/

/-- A handshake and its link after one step. -/
structure Progress where
  handshake : Handshake
  link : Link
  log : Log := #[]
  outcome : Advance (Except ConnectionFault Unit)

/-- Go on after a reaction, or stop at its fault. -/
def Reaction.proceed (r : Reaction) (link : Link) : Progress :=
  { handshake := r.handshake, link, log := r.log
    outcome := match r.fault with
      | some fault => .finished (.error fault)
      | none => .moved }

/-- One step: write the next message of the outbox, or finish, or receive. -/
def step (now : Nat) (h : Handshake) (link : Link) : Progress :=
  match h.outbox with
  | m :: _ =>
    match link.send m with
    | (link, .ready (.ok ())) => (h.wrote m).proceed link
    | (link, .ready (.error fault)) =>
      { handshake := h, link, outcome := .finished (.error (.transport fault)) }
    | (link, .waiting wake) => { handshake := h, link, outcome := .waiting wake }
  | [] =>
    if h.stage = .complete then
      { handshake := h, link, log := #[.debug s!"Handshake with {h.peer} complete"]
        outcome := .finished (.ok ()) }
    else
      match link.receive now with
      | (link, .ready r) => (h.receive (r.mapError .transport)).proceed link
      | (link, .waiting wake) => { handshake := h, link, outcome := .waiting wake }

/-! ## Alone on a clock -/

/-- A handshake that ran on its own. -/
structure Run where
  handshake : Handshake
  link : Link
  log : Log := #[]
  /-- The instant it has come to. -/
  now : Nat := 0
  /-- How it ended, if it did. -/
  result : Option (Except ConnectionFault Unit) := none

/-- Run on until there is a result or nothing more can happen up to the given instant. Something that
    becomes ready at that very instant still counts. -/
def Run.resume (limit : Nat) : Nat → Run → Run
  | 0, run => run
  | fuel + 1, run =>
    let p := run.handshake.step run.now run.link
    let run := { run with handshake := p.handshake, link := p.link, log := run.log ++ p.log }
    match p.outcome with
    | .finished result => { run with result := some result }
    | .moved => Run.resume limit fuel run
    | .waiting (some wake) =>
      if limit < wake then { run with now := limit }
      else Run.resume limit fuel { run with now := max wake run.now }
    | .waiting none => { run with now := limit }

/-- Run a handshake over a link until it ends or the given time has passed. Every step writes one of at
    most three messages or uses up a part of the script, which bounds their number. -/
def runFor (limit : Millis) (h : Handshake) (link : Link) : Run :=
  Run.resume limit (16 + 4 * Script.weight link.script.events) { handshake := h, link }

end Handshake

end BitcoinCrawl

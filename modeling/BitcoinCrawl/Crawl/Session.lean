import BitcoinCrawl.Crawl.Notice
import BitcoinCrawl.Crawl.Shared
import BitcoinCrawl.Peering.Fault
import BitcoinCrawl.Transport.Link

set_option autoImplicit false

/-! # Sessions

What happens on a connection after its handshake: read until the peer hangs up, falls silent for too long
or the crawl is stopped, and record what the peer says. A session never sends anything; discovery only
comes from what peers announce of their own accord. -/

namespace BitcoinCrawl

/-! ## Where messages come from -/

/-- One thing a list of ready-made results brings. -/
inductive Delivery where
  | result (r : Received)
  /-- A pause, counted from when it is first reached. -/
  | delay (span : Millis)
  /-- Nothing, for ever. -/
  | hold

/-- Results that come without a byte stream. Behind the last one the stream is at its end. -/
structure Inbox where
  deliveries : List Delivery
  /-- When the pause at the front ends, if it was reached. -/
  until? : Option Nat := none

namespace Inbox

/-- The next result, or when there may be one. -/
def poll (now : Nat) (pauseEnd : Option Nat) : List Delivery → Inbox × Poll Received
  | [] => (⟨[], none⟩, .ready (.error (.transport .endOfStream)))
  | .result r :: rest => (⟨rest, none⟩, .ready r)
  | .delay span :: rest =>
    let wake := pauseEnd.getD (now + span)
    if wake ≤ now then poll now none rest
    else (⟨.delay span :: rest, some wake⟩, .waiting (some wake))
  | .hold :: rest => (⟨.hold :: rest, none⟩, .waiting none)

end Inbox

/-- The near end of a connection. -/
inductive Line where
  | link (link : Link)
  | inbox (inbox : Inbox)

namespace Line

/-- The next message from the peer. -/
def receive (now : Nat) : Line → Line × Poll Received
  | link l =>
    match l.receive now with
    | (l, .ready r) => (link l, .ready (r.mapError .transport))
    | (l, .waiting wake) => (link l, .waiting wake)
  | inbox i =>
    let (i, r) := Inbox.poll now i.until? i.deliveries
    (inbox i, r)

/-- Frames sent. -/
def sent : Line → Array Bytes
  | link l => l.sent
  | inbox _ => #[]

end Line

/-! ## Results and notices -/

/-- Why a session ended. -/
inductive SessionEnd where
  | closed
  | cancelled
  /-- Nothing came for too long. -/
  | idle
  /-- The stream can no longer be made sense of, or the socket failed. -/
  | failed
  deriving DecidableEq

namespace SessionEnd

def text : SessionEnd → String
  | closed => "closed by peer"
  | cancelled => "cancelled"
  | idle => "idle timeout"
  | failed => "connection failed"

instance : ToString SessionEnd := ⟨text⟩

end SessionEnd

namespace Shared

/-- What a session does with a received result: go on, act on a notice, or end. Only messages count as
    received. -/
inductive Verdict where
  | goOn
  | handle (notice : Notice)
  | finish (reason : SessionEnd)

/-- Judge a received result. -/
def judge (endpoint : Endpoint) (r : Received) (s : Shared) : Shared × Verdict :=
  match r with
  | .ok m => ({ s with metrics := s.metrics.countIn }, .handle (.ofMessage m))
  | .error fault =>
    if fault.isRecoverable then
      (s.report (.warn s!"Skipping message from {endpoint}: {fault.message}"), .goOn)
    else if fault.isEndOfStream then (s, .finish .closed)
    else
      (s.report (.debug s!"Connection to {endpoint} failed: {fault.message}"), .finish .failed)

/-- Record a pong. -/
def handlePong (endpoint : Endpoint) (nonce : UInt64) (s : Shared) : Shared :=
  match s.registry.recordPong endpoint nonce with
  | .error fault => s.report (.error s!"Failed to record pong: {fault.message}")
  | .ok (registry, outcome) =>
    let line := match outcome with
      | .matched count => LogLine.debug s!"Pong from {endpoint}, {count} round trips"
      | .mismatched expected =>
        .warn s!"Pong from {endpoint} has nonce {nonce}, expected {expected}"
      | .unsolicited => .warn s!"Unsolicited pong from {endpoint}"
    ({ s with registry }).report line

/-- Record announced endpoints. The flag says whether any were new, so that a signal is due. -/
def handleAnnounced (endpoint : Endpoint) (endpoints : List Endpoint) (s : Shared) :
    Shared × Bool :=
  let (s, added) := s.add endpoints
  (s.report (.info s!"{endpoint} announced {endpoints.length} addresses, {added} new"), 0 < added)

/-- Act on a notice from the node behind an endpoint. The flag says whether a signal is due. Pings stay
    unanswered. -/
def handle (endpoint : Endpoint) (notice : Notice) (s : Shared) : Shared × Bool :=
  match notice with
  | .addr endpoints | .addrV2 endpoints => s.handleAnnounced endpoint endpoints
  | .pong nonce => (s.handlePong endpoint nonce, false)
  | .version | .verack =>
    (s.report (.debug s!"Late handshake message from {endpoint}, ignoring"), false)
  | .ping nonce => (s.report (.debug s!"Ping {nonce} from {endpoint}"), false)
  | .inventory count =>
    (s.report (.debug s!"{endpoint} announced {count} inventory items"), false)
  | .feeFilter rate => (s.report (.debug s!"{endpoint} set fee filter {rate}"), false)
  | .getHeaders locators =>
    (s.report (.debug s!"{endpoint} asked for headers with {locators} locators"), false)
  | .other command => (s.report (.debug s!"Ignoring {command} from {endpoint}"), false)

end Shared

/-! ## The session as a task -/

/-- Where a session is. -/
inductive SessionPhase where
  /-- Waiting for the next result until the deadline. -/
  | awaiting (deadline : Option Nat)
  | handling (notice : Notice)
  /-- New endpoints were added, and a signal is due. -/
  | signalling

/-- A session with the node behind an endpoint. -/
structure Session where
  endpoint : Endpoint
  line : Line
  phase : SessionPhase

namespace Session

/-- When a session that starts to wait now has been silent for too long. -/
def deadline (idle : Option Millis) (s : Shared) : Option Nat := idle.map (s.now + ·)

/-- A session that starts to wait now. -/
def start (endpoint : Endpoint) (line : Line) (idle : Option Millis) (s : Shared) : Session :=
  ⟨endpoint, line, .awaiting (deadline idle s)⟩

/-- The same session, waiting from now on. -/
def await (idle : Option Millis) (s : Shared) (session : Session) : Session :=
  { session with phase := .awaiting (deadline idle s) }

/-- Wait for the next result. A stop comes first, a result before the deadline. -/
def stepAwaiting (idle : Option Millis) (session : Session) (deadline : Option Nat) (s : Shared) :
    Session × Shared × Advance SessionEnd :=
  if s.cancelled then (session, s, .finished .cancelled)
  else
    let (line, r) := session.line.receive s.now
    let session := { session with line }
    match r with
    | .ready r =>
      match s.judge session.endpoint r with
      | (s, .goOn) => (session.await idle s, s, .moved)
      | (s, .handle notice) => ({ session with phase := .handling notice }, s, .moved)
      | (s, .finish reason) => (session, s, .finished reason)
    | .waiting wake =>
      if deadline.any (· ≤ s.now) then (session, s, .finished .idle)
      else (session, s, .waiting (earlier wake deadline))

/-- One step of a session. -/
def step (idle : Option Millis) (session : Session) (s : Shared) :
    Session × Shared × Advance SessionEnd :=
  match session.phase with
  | .awaiting deadline => session.stepAwaiting idle deadline s
  | .handling notice =>
    match s.handle session.endpoint notice with
    | (s, true) => ({ session with phase := .signalling }, s, .moved)
    | (s, false) => (session.await idle s, s, .moved)
  | .signalling => (session.await idle s, s.signal, .moved)

/-! ## Alone on a clock -/

/-- A session that ran on its own. -/
structure Run where
  session : Session
  shared : Shared
  /-- Why it ended, if it did. -/
  reason : Option SessionEnd := none

/-- Run on until the session ends or nothing more can happen. The crawl is stopped at the given instant,
    if at all. -/
def Run.resume (idle : Option Millis) (stopAt : Option Nat) : Nat → Run → Run
  | 0, run => run
  | fuel + 1, run =>
    let due := stopAt.any (· ≤ run.shared.now)
    let s := if due then { run.shared with cancelled := true } else run.shared
    match run.session.step idle s with
    | (session, s, .finished reason) => { session, shared := s, reason := some reason }
    | (session, s, .moved) => Run.resume idle stopAt fuel { session, shared := s }
    | (session, s, .waiting wake) =>
      match earlier wake stopAt with
      | none => { session, shared := s }
      | some t => Run.resume idle stopAt fuel { session, shared := { s with now := max t s.now } }

/-- How often a line can be asked at most before it is at its end. -/
def weight : Line → Nat
  | .link l => Script.weight l.script.events
  | .inbox i => i.deliveries.length

/-- Run a session from now on until it ends. Every step uses up a part of what the peer sends, acts on
    such a part, or is the last before a pause ends. -/
def runToEnd (idle : Option Millis) (stopAt : Option Nat) (endpoint : Endpoint) (line : Line)
    (s : Shared) : Run :=
  Run.resume idle stopAt (16 + 8 * weight line)
    { session := start endpoint line idle s, shared := s }

end Session

end BitcoinCrawl

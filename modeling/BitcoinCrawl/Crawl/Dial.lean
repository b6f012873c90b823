import BitcoinCrawl.Crawl.Shared
import BitcoinCrawl.Crawl.World
import BitcoinCrawl.Peering.Handshake

set_option autoImplicit false

/-! # Dials

A dial waits for an answer, and if that is a connection it goes on with the handshake. -/

namespace BitcoinCrawl

/-- An attempt to connect to an endpoint. -/
inductive Dial where
  /-- No answer yet. It is due at the given instant, known once the dial has begun. -/
  | unanswered (due : Option Nat)
  | shaking (handshake : Handshake) (link : Link)

namespace Dial

/-- A connection whose handshake is complete. -/
structure Connected where
  peer : Peer
  link : Link

/-- Frames sent on the way. -/
def sent : Dial → Array Bytes
  | unanswered _ => #[]
  | shaking _ link => link.sent

/-- The answer is there: give up, or begin the handshake under a new nonce. -/
def answered (world : World) (endpoint : Endpoint) (due : Nat) (s : Shared) :
    Dial × Shared × Advance (Except ConnectionFault Connected) :=
  match (world.remote endpoint).answer with
  | .refuse fault => (unanswered (some due), s, .finished (.error fault))
  | .silence => (unanswered (some due), s, .waiting none)
  | .accept events writeFault =>
    let (nonce, s) := s.drawNonce
    let handshake := Handshake.begin world.connection { endpoint } nonce s.host.unixTime
    let link : Link := { magic := world.config.chain.magic, script := ⟨events, none⟩, writeFault }
    (shaking handshake link, s, .moved)

/-- One step of a dial. -/
def step (world : World) (endpoint : Endpoint) (dial : Dial) (s : Shared) :
    Dial × Shared × Advance (Except ConnectionFault Connected) :=
  match dial with
  | unanswered due =>
    let due := due.getD (s.now + (world.remote endpoint).delay)
    if due ≤ s.now then answered world endpoint due s
    else (unanswered (some due), s, .waiting (some due))
  | shaking handshake link =>
    let p := handshake.step s.now link
    let s := s.reportAll p.log
    let dial := shaking p.handshake p.link
    match p.outcome with
    | .finished (.ok ()) => (dial, s, .finished (.ok ⟨p.handshake.peer, p.link⟩))
    | .finished (.error fault) => (dial, s, .finished (.error fault))
    | .moved => (dial, s, .moved)
    | .waiting wake => (dial, s, .waiting wake)

end Dial

end BitcoinCrawl

import BitcoinCrawl.Peer

set_option autoImplicit false

/-! # Nodes

One known endpoint and what has become of it. A node only moves forward, from discovered over queued and
connecting to good or dead, and a ping that was sent to it is matched with at most one pong. -/

namespace BitcoinCrawl

/-- Where a node is in the crawl. -/
inductive NodeState where
  /-- Announced, waiting in the discovery queue. -/
  | discovered
  /-- Handed to the work queue. -/
  | queued
  /-- Being dialed. -/
  | connecting
  /-- Has completed a handshake. -/
  | good
  /-- Could not be reached. -/
  | dead
  deriving DecidableEq, Inhabited

namespace NodeState

def name : NodeState → String
  | discovered => "discovered"
  | queued => "queued"
  | connecting => "connecting"
  | good => "good"
  | dead => "dead"

instance : ToString NodeState := ⟨name⟩

/-- All states. -/
def all : List NodeState := [discovered, queued, connecting, good, dead]

/-- The state of a given name. -/
def ofName? (text : String) : Option NodeState := all.find? (·.name == text)

/-- Whether no further state follows. -/
def isTerminal : NodeState → Bool
  | good | dead => true
  | _ => false

/-- Whether one state directly follows another. -/
def precedes : NodeState → NodeState → Bool
  | discovered, queued => true
  | queued, connecting => true
  | connecting, good => true
  | connecting, dead => true
  | _, _ => false

end NodeState

/-- What a pong turned out to be. -/
inductive PongOutcome where
  /-- It answers the ping that was out; `count` answers have come by now. -/
  | matched (count : UInt64)
  /-- Another ping is out. -/
  | mismatched (expected : UInt64)
  /-- No ping is out. -/
  | unsolicited
  deriving DecidableEq

/-- A misuse of the registry. -/
inductive RegistryFault where
  | unknownEndpoint (endpoint : Endpoint)
  | invalidTransition (endpoint : Endpoint) (current target : NodeState)
  /-- The node is neither being dialed nor connected. -/
  | notLive (endpoint : Endpoint) (state : NodeState)
  deriving DecidableEq

namespace RegistryFault

def message : RegistryFault → String
  | unknownEndpoint endpoint => s!"Endpoint {endpoint} is not in the registry"
  | invalidTransition endpoint current target =>
    s!"Invalid transition for {endpoint}: {current} -> {target}"
  | notLive endpoint state => s!"No live connection to {endpoint}, node is {state}"

end RegistryFault

/-- One endpoint known to the registry. -/
structure Node where
  endpoint : Endpoint
  state : NodeState := .discovered
  /-- Nonce of the ping that is out, zero if none is. -/
  pingNonce : UInt64 := 0
  /-- How many pings were answered. -/
  pingCount : UInt64 := 0
  /-- What the peer said about itself, once it has completed a handshake. -/
  peer : Option Peer := none
  deriving DecidableEq

namespace Node

/-- Move to a state that directly follows. -/
def advance (next : NodeState) (node : Node) : Except RegistryFault Node :=
  if node.state.precedes next then .ok { node with state := next }
  else .error (.invalidTransition node.endpoint node.state next)

/-- Whether a connection to the node may be open. -/
def isLive (node : Node) : Bool := node.state == .connecting || node.state == .good

/-- Match a pong with the ping that is out. Only a match changes the node. -/
def recordPong (nonce : UInt64) (node : Node) : Node × PongOutcome :=
  if node.pingNonce = 0 then (node, .unsolicited)
  else if node.pingNonce = nonce then
    let count := node.pingCount + 1
    ({ node with pingNonce := 0, pingCount := count }, .matched count)
  else (node, .mismatched node.pingNonce)

end Node

end BitcoinCrawl

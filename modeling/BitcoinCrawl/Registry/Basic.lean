import BitcoinCrawl.NodeFile.Record
import Std.Data.HashMap

set_option autoImplicit false

/-! # The registry

The set of every endpoint a crawl has heard of. Nodes are never removed, only advanced through their
states. `known` lists the endpoints in the order in which they were first announced; as they leave the
discovery queue in that order too, the queue is what is left of the list behind the first `taken`
entries. An operation that fails leaves the registry as it was. -/

namespace BitcoinCrawl

/-- Every known node, the discovery queue, and how many nodes are in each state. -/
structure Registry where
  /-- Known endpoints, first announced first. -/
  known : Array Endpoint := #[]
  /-- How many of them have left the discovery queue. -/
  taken : Nat := 0
  nodes : Std.HashMap Endpoint Node := {}
  /-- Good endpoints in the order in which they were classified. -/
  good : Array Endpoint := #[]
  queued : Nat := 0
  connecting : Nat := 0
  dead : Nat := 0

/-- Nodes per state at one instant. -/
structure Counts where
  total : Nat
  /-- Nodes waiting in the discovery queue. -/
  discovered : Nat
  queued : Nat
  connecting : Nat
  good : Nat
  dead : Nat
  deriving DecidableEq

namespace Counts

/-- Nodes that are not classified yet. -/
def pending (counts : Counts) : Nat := counts.discovered + counts.queued + counts.connecting

end Counts

namespace Registry

/-! ## Views -/

/-- The node of an endpoint, if it is known. -/
def node? (registry : Registry) (endpoint : Endpoint) : Option Node := registry.nodes[endpoint]?

/-- Endpoints waiting to be taken, oldest first. -/
def discoveryQueue (registry : Registry) : List Endpoint := registry.known.toList.drop registry.taken

def counts (registry : Registry) : Counts where
  total := registry.nodes.size
  discovered := registry.known.size - registry.taken
  queued := registry.queued
  connecting := registry.connecting
  good := registry.good.size
  dead := registry.dead

/-- Records of the good nodes in the order in which they were classified. -/
def goodRecords (registry : Registry) : List NodeRecord :=
  registry.good.toList.filterMap fun endpoint => (registry.node? endpoint).map Node.record

/-! ## Discovery -/

/-- Add an endpoint unless it is known in any state, and count it if it was new. -/
def addOne (acc : Registry × Nat) (endpoint : Endpoint) : Registry × Nat :=
  let (registry, added) := acc
  if registry.nodes.contains endpoint then (registry, added)
  else
    ({ registry with
        known := registry.known.push endpoint
        nodes := registry.nodes.insert endpoint { endpoint } }, added + 1)

/-- Add announced endpoints. The number says how many were new. -/
def add (endpoints : List Endpoint) (registry : Registry) : Registry × Nat :=
  endpoints.foldl addOne (registry, 0)

/-- What leaving the discovery queue gave. -/
structure Taken where
  registry : Registry
  /-- Entries that were not waiting for a visit and were dropped. -/
  stale : List Endpoint := []
  endpoint : Option Endpoint := none

/-- Try the entries of the discovery queue from the front, `room` of them at most. -/
def takeUpTo : Nat → Registry → Taken
  | 0, registry => { registry }
  | room + 1, registry =>
    match registry.known[registry.taken]? with
    | none => { registry }
    | some endpoint =>
      let registry := { registry with taken := registry.taken + 1 }
      match (registry.node? endpoint).map (Node.advance .queued) with
      | some (.ok node) =>
        { registry := { registry with
            nodes := registry.nodes.insert endpoint node, queued := registry.queued + 1 }
          endpoint := some endpoint }
      | _ =>
        let next := takeUpTo room registry
        { next with stale := endpoint :: next.stale }

/-- Take the oldest discovered endpoint and mark it queued. -/
def takeNext (registry : Registry) : Taken :=
  takeUpTo (registry.known.size - registry.taken) registry

/-! ## Visits -/

/-- The node of an endpoint, which has to be known. -/
def require (endpoint : Endpoint) (registry : Registry) : Except RegistryFault Node :=
  match registry.node? endpoint with
  | some node => .ok node
  | none => .error (.unknownEndpoint endpoint)

/-- Replace the node of an endpoint. -/
def put (endpoint : Endpoint) (node : Node) (registry : Registry) : Registry :=
  { registry with nodes := registry.nodes.insert endpoint node }

/-- A queued node is being dialed. -/
def markConnecting (endpoint : Endpoint) (registry : Registry) : Except RegistryFault Registry := do
  let node ← (← registry.require endpoint).advance .connecting
  return { registry.put endpoint node with
    queued := registry.queued - 1, connecting := registry.connecting + 1 }

/-- A dialed node has completed its handshake as the given peer. -/
def markGood (endpoint : Endpoint) (peer : Peer) (registry : Registry) :
    Except RegistryFault Registry := do
  let node ← (← registry.require endpoint).advance .good
  return { registry.put endpoint { node with peer := some peer } with
    connecting := registry.connecting - 1, good := registry.good.push endpoint }

/-- A dialed node could not be reached. -/
def markDead (endpoint : Endpoint) (registry : Registry) : Except RegistryFault Registry := do
  let node ← (← registry.require endpoint).advance .dead
  return { registry.put endpoint node with
    connecting := registry.connecting - 1, dead := registry.dead + 1 }

/-! ## Keepalive -/

/-- Note the nonce of a ping to a live node. -/
def setPingNonce (endpoint : Endpoint) (nonce : UInt64) (registry : Registry) :
    Except RegistryFault Registry := do
  let node ← registry.require endpoint
  if node.isLive then return registry.put endpoint { node with pingNonce := nonce }
  else throw (.notLive endpoint node.state)

/-- Match a pong with the ping that is out. -/
def recordPong (endpoint : Endpoint) (nonce : UInt64) (registry : Registry) :
    Except RegistryFault (Registry × PongOutcome) := do
  let (node, outcome) := (← registry.require endpoint).recordPong nonce
  return (registry.put endpoint node, outcome)

end Registry

end BitcoinCrawl

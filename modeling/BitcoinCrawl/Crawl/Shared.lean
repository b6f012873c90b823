import BitcoinCrawl.Crawl.Snapshot
import BitcoinCrawl.Log
import BitcoinCrawl.Nonce
import BitcoinCrawl.Registry.Signal

set_option autoImplicit false

/-! # What the tasks of a crawl share

The registry with the signal that announces new entries of its discovery queue, the counters, the log,
the clock and the stop flag. Every operation here is one that a task performs without being interrupted;
adding endpoints and signalling them are two. -/

namespace BitcoinCrawl

/-- The terminal result of a visit. -/
inductive Outcome where
  /-- The handshake completed. -/
  | good (peer : Peer)
  /-- The dial or the handshake failed. -/
  | dead (endpoint : Endpoint)
  deriving DecidableEq

namespace Outcome

/-- The endpoint a result is about. -/
def endpoint : Outcome → Endpoint
  | good peer => peer.endpoint
  | dead endpoint => endpoint

end Outcome

/-- State shared by all tasks of a crawl. -/
structure Shared where
  /-- The present instant. -/
  now : Nat := 0
  /-- Whether the crawl was told to stop. -/
  cancelled : Bool := false
  registry : Registry := {}
  /-- Signals that the discovery queue has gained entries. -/
  arrivals : Signal := {}
  metrics : Metrics := {}
  host : Host
  /-- How many nonces were drawn. -/
  noncesDrawn : UInt64 := 0
  log : Log := #[]

namespace Shared

/-- Append to the log. -/
def report (line : LogLine) (s : Shared) : Shared := { s with log := s.log.push line }

/-- Append several lines to the log. -/
def reportAll (lines : Log) (s : Shared) : Shared := { s with log := s.log ++ lines }

/-- Draw the next nonce. -/
def drawNonce (s : Shared) : UInt64 × Shared :=
  (s.host.nonce s.noncesDrawn, { s with noncesDrawn := s.noncesDrawn + 1 })

/-- Progress at the present instant. -/
def snapshot (s : Shared) : Snapshot := .capture s.registry s.metrics

/-! ## Discovery -/

/-- Add announced endpoints to the registry, without telling anybody. -/
def add (endpoints : List Endpoint) (s : Shared) : Shared × Nat :=
  let (registry, added) := s.registry.add endpoints
  ({ s with registry }, added)

/-- Tell whoever waits for new entries. -/
def signal (s : Shared) : Shared := { s with arrivals := s.arrivals.notify }

/-- Add announced endpoints, and tell about them if any were new. -/
def discover (endpoints : List Endpoint) (s : Shared) : Shared × Nat :=
  let (s, added) := s.add endpoints
  (if 0 < added then s.signal else s, added)

/-- Take the oldest entry of the discovery queue, if there is one. -/
def takeNext (s : Shared) : Shared × Option Endpoint :=
  let taken := s.registry.takeNext
  let lines := taken.stale.map fun e => LogLine.debug s!"Dropping stale discovery entry {e}"
  (({ s with registry := taken.registry }).reportAll lines.toArray, taken.endpoint)

/-- Ask once for an entry of the discovery queue as a listener that does not wait yet. Without an entry a
    kept signal is used up before the listener waits. -/
def awaitNext (listener : Listener) (s : Shared) : Shared × Option Endpoint :=
  match s.takeNext with
  | (s, some endpoint) => (s, some endpoint)
  | (s, none) =>
    match s.arrivals.listen listener with
    | (arrivals, true) => ({ s with arrivals }, none)
    | (arrivals, false) =>
      match ({ s with arrivals } : Shared).takeNext with
      | (s, some endpoint) => (s, some endpoint)
      | (s, none) => ({ s with arrivals := (s.arrivals.listen listener).1 }, none)

/-- Ask again as a listener that waits. Only one that was woken looks at the queue. -/
def askAgain (listener : Listener) (s : Shared) : Shared × Option Endpoint :=
  if s.arrivals.isWoken listener then
    ({ s with arrivals := s.arrivals.accept listener }).awaitNext listener
  else (s, none)

/-- A listener goes away. -/
def forget (listener : Listener) (s : Shared) : Shared :=
  { s with arrivals := s.arrivals.leave listener }

/-! ## Results -/

/-- Record the result of a visit. Nothing a crawl does makes that fail. -/
def settle (outcome : Outcome) (s : Shared) : Shared :=
  let result := match outcome with
    | .good peer => s.registry.markGood peer.endpoint peer
    | .dead endpoint => s.registry.markDead endpoint
  match result with
  | .ok registry => { s with registry }
  | .error fault => s.report (.error s!"Crawl invariant violated: {fault.message}")

/-- Record the results of visits in order, and say when that begins and ends. -/
def settleAll (outcomes : List Outcome) (s : Shared) : Shared :=
  let s := s.report (.debug "Result aggregator started")
  (outcomes.foldl (fun s outcome => s.settle outcome) s).report (.debug "Result aggregator exited")

end Shared

end BitcoinCrawl

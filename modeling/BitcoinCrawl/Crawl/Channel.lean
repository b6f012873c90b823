import BitcoinCrawl.Crawl.Snapshot
import BitcoinCrawl.Crawl.Shared

set_option autoImplicit false

/-! # Queues between tasks

The work queue holds as many endpoints as there are workers, so little leaves the discovery queue before
its turn. Outcomes are never held back. Snapshots are dropped when their consumer is behind. -/

namespace BitcoinCrawl

/-! ## Endpoints on their way to the workers -/

/-- Endpoints that left the discovery queue and that no worker has taken yet. -/
structure WorkQueue where
  capacity : Nat
  items : List Endpoint := []
  /-- Whether somebody may still take them. -/
  isOpen : Bool := true
  deriving DecidableEq

namespace WorkQueue

/-- Whether a place can be reserved, if no other place is. -/
def hasRoom (queue : WorkQueue) : Bool := queue.items.length < queue.capacity

/-- Fill a reserved place. -/
def push (endpoint : Endpoint) (queue : WorkQueue) : WorkQueue :=
  { queue with items := queue.items ++ [endpoint] }

/-- Nobody takes anything any more. -/
def close (queue : WorkQueue) : WorkQueue := { queue with isOpen := false }

end WorkQueue

/-! ## Outcomes on their way to the registry -/

/-- Outcomes that are reported and not recorded yet. -/
structure OutcomeQueue where
  items : List Outcome := []
  /-- Whether anybody will record them. -/
  isOpen : Bool := true
  deriving DecidableEq

namespace OutcomeQueue

def push (outcome : Outcome) (queue : OutcomeQueue) : OutcomeQueue :=
  { queue with items := queue.items ++ [outcome] }

end OutcomeQueue

/-! ## Snapshots on their way to the consumer -/

/-- Snapshots that were published and not consumed yet. -/
structure SnapshotQueue where
  capacity : Nat
  items : List Snapshot := []
  /-- Whether there is a consumer. -/
  isOpen : Bool := true
  deriving DecidableEq

/-- What became of an offered snapshot. -/
inductive Offer where
  | taken
  | full
  | closed
  deriving DecidableEq

namespace SnapshotQueue

/-- Offer a snapshot without waiting for room. -/
def offer (snapshot : Snapshot) (queue : SnapshotQueue) : SnapshotQueue × Offer :=
  if !queue.isOpen then (queue, .closed)
  else if queue.items.length < queue.capacity then
    ({ queue with items := queue.items ++ [snapshot] }, .taken)
  else (queue, .full)

/-- The consumer is gone, and what it has not consumed with it. -/
def close (queue : SnapshotQueue) : SnapshotQueue := { queue with items := [], isOpen := false }

end SnapshotQueue

end BitcoinCrawl

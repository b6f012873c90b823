import BitcoinCrawl.Crawl.Schedule

set_option autoImplicit false

/-! # Starting and stopping a crawl

A crawl starts with a task for each of its roles. To stop it, everybody is told and has some time left to
come to an end; whoever has not after that is cut off. -/

namespace BitcoinCrawl

/-- Why a crawl cannot start. -/
inductive StartFault where
  /-- A queue cannot be that long. -/
  | tooManyConnections
  deriving DecidableEq

/-- Why a shutdown was not clean. -/
inductive ShutdownFault where
  /-- So many tasks were cut off. -/
  | graceExceeded (remaining : Nat)
  deriving DecidableEq

namespace ShutdownFault

def message : ShutdownFault → String
  | graceExceeded remaining => s!"{remaining} crawl tasks aborted after grace period"

end ShutdownFault

namespace Crawl

/-! ## Starting -/

/-- Snapshots kept for a slow consumer. -/
def snapshotBuffer : Nat := 16

/-- The longest a queue can be. -/
def maxQueue : Nat := Nat.pow 2 61 - 1

/-- How many workers a limit on connections gives. -/
def poolSize (limit : Nat) : Nat := max limit 1

/-- Start a crawl from seeds. Seeds that are already known are ignored. -/
def start (world : World) (seeds : List Endpoint) (shared : Shared) : Except StartFault Crawl :=
  let (shared, added) := shared.discover seeds
  let limit := world.config.connectionLimit
  let size := poolSize limit
  if maxQueue < size then .error .tooManyConnections
  else
    .ok {
      shared := shared.report
        (.info s!"Crawling {world.config.chain} with {limit} connections from {added} seeds")
      queue := { capacity := size }
      workers := (Array.range size).map fun id => { id }
      snapshots := { capacity := snapshotBuffer } }

/-- The tasks of a crawl in the order in which they are started. -/
def tasks (c : Crawl) : List Actor :=
  [.feeder] ++ (List.range c.workers.size).map Actor.worker ++ [.aggregator, .publisher, .saver]

/-! ## Stopping -/

/-- Number of tasks that have not come to an end. -/
def unfinished (c : Crawl) : Nat :=
  let feeder := match c.feeder with | .exited => 0 | _ => 1
  let workers := (c.workers.filter fun worker => !worker.phase.isExited).size
  let aggregator := match c.aggregator with | .exited => 0 | _ => 1
  let publisher := match c.publisher with | .exited | .crashed => 0 | _ => 1
  feeder + workers + aggregator + publisher

/-- Cut off every task. What it was in the middle of is over at once. -/
def abort (c : Crawl) : Crawl :=
  let active := (c.workers.filter (·.phase.isActive)).size
  let dialing := (c.workers.filter (·.phase.isDialing)).size
  { c with
    shared := { c.shared with
      metrics := { c.shared.metrics with active := c.shared.metrics.active - .ofNat active } }
    feeder := .exited
    workers := c.workers.map fun worker => { worker with phase := .exited }
    aggregator := .exited
    publisher := .exited
    dials := { c.dials with running := c.dials.running - dialing } }

/-- What a shutdown came to. -/
structure Shutdown where
  crawl : Crawl
  /-- How long it took. -/
  elapsed : Millis
  fault : Option ShutdownFault := none

/-- Stop a crawl, with some time left for its tasks to come to an end. -/
def shutdown (world : World) (grace : Millis) (c : Crawl) : Shutdown :=
  let begun := c.shared.now
  let c := c.cancel.settle world c.tasks (some (begun + grace))
  let remaining := c.unfinished
  if remaining = 0 then
    { crawl := c.report (.debug "Crawl stopped"), elapsed := c.shared.now - begun }
  else
    let c := c.report (.warn s!"Aborting {remaining} crawl tasks")
    { crawl := c.abort.passTo (begun + grace), elapsed := grace, fault := some (.graceExceeded remaining) }

end Crawl

end BitcoinCrawl

import BitcoinCrawl.Crawl.Channel
import BitcoinCrawl.Crawl.Dial
import BitcoinCrawl.Crawl.Session
import BitcoinCrawl.NodeFile.Store

set_option autoImplicit false

/-! # The state of a crawl

A crawl is a set of tasks: a feeder that moves endpoints from the discovery queue into the work queue,
workers that visit them, an aggregator that records what the visits gave, a publisher of snapshots, and a
saver that writes node files in the background. The state of a crawl is what they share and where each of
them stands. A task stands between two of its steps, and a step is something that no other task can
interrupt. -/

namespace BitcoinCrawl

/-! ## Where each task stands -/

/-- Where the feeder stands. Except in `starting`, `reserving` and `exited` it has a place in the work queue
    reserved. -/
inductive Feeder where
  | starting
  /-- Waiting for room in the work queue. -/
  | reserving
  | searching
  /-- The discovery queue was empty, and a signal is to be awaited. -/
  | arming
  /-- Waiting for a signal. -/
  | listening
  /-- About to fill the reserved place. -/
  | handing (endpoint : Endpoint)
  | exited

/-- Where a worker stands. -/
inductive WorkerPhase where
  | starting
  /-- Waiting for an endpoint. -/
  | idle
  | claimed (endpoint : Endpoint)
  /-- The endpoint is marked as connecting. -/
  | marked (endpoint : Endpoint)
  | dialing (endpoint : Endpoint) (dial : Dial) (deadline : Nat)
  /-- About to report an outcome, and then to go on with the connection, if there is one. -/
  | reporting (endpoint : Endpoint) (outcome : Outcome) (link : Option Link)
  /-- About to note the nonce of a ping. -/
  | noting (endpoint : Endpoint) (link : Link)
  | pinging (endpoint : Endpoint) (link : Link) (nonce : UInt64)
  | serving (session : Session)
  /-- The visit is over. -/
  | leaving
  | exited

namespace WorkerPhase

/-- Whether the visit counts as active. -/
def isActive : WorkerPhase → Bool
  | dialing .. | reporting .. | noting .. | pinging .. | serving _ | leaving => true
  | starting | idle | claimed _ | marked _ | exited => false

def isDialing : WorkerPhase → Bool
  | dialing .. => true
  | _ => false

def isExited : WorkerPhase → Bool
  | exited => true
  | _ => false

end WorkerPhase

/-- A worker of a given number. -/
structure Worker where
  id : Nat
  phase : WorkerPhase := .starting

/-- Where the aggregator stands. -/
inductive Aggregator where
  | starting
  | recording
  | exited
  deriving DecidableEq

/-- Where the publisher stands. -/
inductive Publisher where
  | starting
  /-- Waiting for the next tick. -/
  | ticking (next : Nat)
  /-- A snapshot with good nodes went out, so a save is due. -/
  | storing (next : Nat)
  /-- Told to stop; waiting until all outcomes are recorded. -/
  | settling
  /-- Waiting for a running save before the last one. -/
  | flushing
  /-- Waiting for the last save. -/
  | finishing
  | exited
  /-- The interval between ticks was zero. -/
  | crashed
  deriving DecidableEq

/-! ## What they share -/

/-- Whether all outcomes are recorded, as far as the publisher knows. -/
inductive Settled where
  | pending
  | announced
  /-- There will be no announcement. -/
  | abandoned
  deriving DecidableEq

/-- Who may save. -/
inductive SaveLock where
  | free
  /-- Somebody outside the crawl has it. -/
  | taken
  /-- A save of these records runs. -/
  | saving (records : List NodeRecord)
  deriving DecidableEq

/-- What was saved. -/
structure Archive where
  tree : FileTree := {}
  /-- The records of every save, also of those that failed. -/
  saves : Array (List NodeRecord) := #[]

/-- What the dials of a crawl came to. -/
structure DialLog where
  /-- Dialed endpoints in order. -/
  attempts : Array Endpoint := #[]
  running : Nat := 0
  /-- Most dials at once. -/
  most : Nat := 0
  /-- Frames sent on connections that are over. -/
  frames : Array Bytes := #[]

namespace DialLog

/-- A dial begins. -/
def start (endpoint : Endpoint) (log : DialLog) : DialLog :=
  { log with
    attempts := log.attempts.push endpoint
    running := log.running + 1
    most := max log.most (log.running + 1) }

/-- A dial is over. -/
def finish (log : DialLog) : DialLog := { log with running := log.running - 1 }

/-- A connection is over. -/
def hangUp (frames : Array Bytes) (log : DialLog) : DialLog := { log with frames := log.frames ++ frames }

end DialLog

/-- A crawl between two steps. -/
structure Crawl where
  shared : Shared
  queue : WorkQueue
  feeder : Feeder := .starting
  workers : Array Worker := #[]
  outcomes : OutcomeQueue := {}
  aggregator : Aggregator := .starting
  settled : Settled := .pending
  publisher : Publisher := .starting
  snapshots : SnapshotQueue
  /-- Snapshots that were consumed. -/
  received : Array Snapshot := #[]
  lock : SaveLock := .free
  archive : Archive := {}
  dials : DialLog := {}

/-- What a step of a task came to. -/
inductive Motion where
  | moved
  /-- The task waits. Time alone changes that at the given instant, or never. -/
  | blocked (wake : Option Nat)

namespace Crawl

/-- Append to the log. -/
def report (line : LogLine) (c : Crawl) : Crawl := { c with shared := c.shared.report line }

/-- A task waits until the given instant. One that may go on at once has moved. -/
def await (wake : Option Nat) (c : Crawl) : Crawl × Motion :=
  if wake.any (· ≤ c.shared.now) then (c, .moved) else (c, .blocked wake)

/-- Whether no worker will ever do anything again. -/
def workersGone (c : Crawl) : Bool := c.workers.all (·.phase.isExited)

end Crawl

end BitcoinCrawl

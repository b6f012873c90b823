import BitcoinCrawl.Crawl.Aggregator
import BitcoinCrawl.Crawl.Feeder
import BitcoinCrawl.Crawl.Publisher
import BitcoinCrawl.Crawl.Worker

set_option autoImplicit false

/-! # Steps of a crawl

`Crawl.step` is one step of one task. Everything a crawl can do is some order of such steps, with a stop or
the passing of time in between; which order is up to whoever runs it. -/

namespace BitcoinCrawl

/-- Who takes a step. -/
inductive Actor where
  | feeder
  /-- The worker at a place in the pool. -/
  | worker (place : Nat)
  | aggregator
  | publisher
  | saver
  /-- Whoever reads the snapshots. -/
  | consumer
  deriving DecidableEq

namespace Crawl

/-- Consume the oldest snapshot. -/
def stepConsumer (c : Crawl) : Crawl × Motion :=
  match c.snapshots.items with
  | snapshot :: items =>
    ({ c with
        snapshots := { c.snapshots with items }, received := c.received.push snapshot }, .moved)
  | [] => (c, .blocked none)

/-- One step of one task. -/
def step (world : World) (actor : Actor) (c : Crawl) : Crawl × Motion :=
  match actor with
  | .feeder => c.stepFeeder
  | .worker place => c.stepWorker world place
  | .aggregator => c.stepAggregator
  | .publisher => c.stepPublisher world
  | .saver => c.stepSaver world
  | .consumer => c.stepConsumer

/-- Tell every task to stop. -/
def cancel (c : Crawl) : Crawl := { c with shared := { c.shared with cancelled := true } }

/-- Time passes until the given instant. -/
def passTo (t : Nat) (c : Crawl) : Crawl := { c with shared := { c.shared with now := max t c.shared.now } }

/-- One thing that can happen to a crawl. -/
inductive Event where
  | act (actor : Actor)
  | cancel
  | pass (t : Nat)

/-- A crawl after one event. -/
def apply (world : World) (c : Crawl) : Event → Crawl
  | .act actor => (c.step world actor).1
  | .cancel => c.cancel
  | .pass t => c.passTo t

/-- A crawl after some events. -/
def run (world : World) (c : Crawl) (events : List Event) : Crawl := events.foldl (apply world) c

end Crawl

end BitcoinCrawl

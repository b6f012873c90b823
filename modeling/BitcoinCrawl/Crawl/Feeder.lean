import BitcoinCrawl.Crawl.State

set_option autoImplicit false

/-! # The feeder

A place in the work queue is reserved before an endpoint leaves the discovery queue, so a stop between the
two loses no endpoint. -/

namespace BitcoinCrawl.Crawl

/-- The number under which the feeder listens for signals. -/
def feederListener : Listener := 0

/-- The feeder goes away. Nobody fills the work queue any more. -/
def stopFeeder (c : Crawl) : Crawl × Motion :=
  ({ c with
      shared := (c.shared.forget feederListener).report (.debug "Queue feeder exited")
      feeder := .exited }, .moved)

/-- One step of the feeder. -/
def stepFeeder (c : Crawl) : Crawl × Motion :=
  match c.feeder with
  | .starting => ({ c.report (.debug "Queue feeder started") with feeder := .reserving }, .moved)
  | .reserving =>
    if c.shared.cancelled || !c.queue.isOpen then c.stopFeeder
    else if c.queue.hasRoom then ({ c with feeder := .searching }, .moved)
    else (c, .blocked none)
  | .searching =>
    if c.shared.cancelled then c.stopFeeder
    else
      match c.shared.takeNext with
      | (shared, some endpoint) => ({ c with shared, feeder := .handing endpoint }, .moved)
      | (shared, none) => ({ c with shared, feeder := .arming }, .moved)
  | .arming =>
    let (arrivals, waits) := c.shared.arrivals.listen feederListener
    let feeder := if waits then Feeder.listening else .searching
    ({ c with shared := { c.shared with arrivals }, feeder }, .moved)
  | .listening =>
    if c.shared.cancelled then c.stopFeeder
    else if c.shared.arrivals.isWoken feederListener then
      let arrivals := c.shared.arrivals.accept feederListener
      ({ c with shared := { c.shared with arrivals }, feeder := .searching }, .moved)
    else (c, .blocked none)
  | .handing endpoint =>
    ({ c.report (.debug s!"Queued {endpoint}") with
        queue := c.queue.push endpoint, feeder := .reserving }, .moved)
  | .exited => (c, .blocked none)

end BitcoinCrawl.Crawl

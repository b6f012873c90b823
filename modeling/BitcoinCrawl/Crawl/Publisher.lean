import BitcoinCrawl.Crawl.State

set_option autoImplicit false

/-! # The publisher and the saver

At every tick the publisher offers a snapshot, and once there are good nodes it has them saved in the
background, unless the save before still runs. After a stop it waits until all outcomes are recorded and
saves one last time. -/

namespace BitcoinCrawl.Crawl

/-! ## Ticks -/

/-- How late a tick may be before the ones it has missed are left out. -/
def tickTolerance : Millis := 5

/-- The tick after one that was due at a given instant and is served now. -/
def tickAfter (interval : Millis) (due now : Nat) : Nat :=
  if due + tickTolerance < now then now + interval - (now - due) % interval else due + interval

/-! ## The publisher -/

/-- Offer a snapshot of the present instant. -/
def publish (c : Crawl) : Crawl :=
  let snapshot := c.shared.snapshot
  let c := c.report (.debug snapshot.text)
  match c.snapshots.offer snapshot with
  | (snapshots, .taken) => { c with snapshots }
  | (_, .full) => c.report (.debug "Snapshot consumer is behind, dropping tick")
  | (_, .closed) => c

/-- The publisher goes away. -/
def stopPublisher (c : Crawl) : Crawl × Motion :=
  ({ c.report (.debug "Snapshot publisher exited") with publisher := .exited }, .moved)

/-- Wait for the next tick and serve it. A stop comes first. -/
def stepTicking (world : World) (next : Nat) (c : Crawl) : Crawl × Motion :=
  if c.shared.cancelled then ({ c with publisher := .settling }, .moved)
  else if next ≤ c.shared.now then
    let next := tickAfter world.config.snapshotInterval next c.shared.now
    let publisher :=
      if 0 < c.shared.registry.counts.good then Publisher.storing next else .ticking next
    ({ c.publish with publisher }, .moved)
  else (c, .blocked (some next))

/-- Start a save, unless one runs. -/
def stepStoring (world : World) (next : Nat) (c : Crawl) : Crawl × Motion :=
  let c := { c with publisher := .ticking next }
  match world.persistence, c.lock with
  | none, _ => (c, .moved)
  | some _, .free => ({ c with lock := .saving c.shared.registry.goodRecords }, .moved)
  | some _, _ => (c.report (.debug "Previous save still running, skipping"), .moved)

/-- Wait until all outcomes are recorded, or never will be. -/
def stepSettling (c : Crawl) : Crawl × Motion :=
  match c.settled with
  | .pending => (c, .blocked none)
  | .announced => ({ c with publisher := .flushing }, .moved)
  | .abandoned =>
    ({ c.report (.debug "Result aggregator stopped early, saving what was recorded") with
        publisher := .flushing }, .moved)

/-- Start the last save, if anything is to be saved. -/
def stepFlushing (world : World) (c : Crawl) : Crawl × Motion :=
  match world.persistence, c.lock with
  | none, _ => c.stopPublisher
  | some _, .free =>
    let records := c.shared.registry.goodRecords
    if records.isEmpty then c.stopPublisher
    else ({ c with lock := .saving records, publisher := .finishing }, .moved)
  | some _, _ => (c, .blocked none)

/-- Wait for the last save. -/
def stepFinishing (c : Crawl) : Crawl × Motion :=
  match c.lock with
  | .saving _ => (c, .blocked none)
  | _ => c.stopPublisher

/-- One step of the publisher. -/
def stepPublisher (world : World) (c : Crawl) : Crawl × Motion :=
  match c.publisher with
  | .starting =>
    let publisher :=
      if world.config.snapshotInterval = 0 then Publisher.crashed else .ticking c.shared.now
    ({ c.report (.debug "Snapshot publisher started") with publisher }, .moved)
  | .ticking next => c.stepTicking world next
  | .storing next => c.stepStoring world next
  | .settling => c.stepSettling
  | .flushing => c.stepFlushing world
  | .finishing => c.stepFinishing
  | .exited | .crashed => (c, .blocked none)

/-! ## The saver -/

/-- Save records, and say how that went. -/
def save (persistence : Persistence) (records : List NodeRecord) (archive : Archive) :
    Archive × Log :=
  let archive := { archive with saves := archive.saves.push records }
  let failed (fault : NodeFile.StoreFault) : LogLine :=
    .error s!"Failed to save good nodes to {persistence.path}: {fault.message}"
  match persistence.store with
  | .memory => (archive, #[])
  | .failing fault => (archive, #[failed (.io fault)])
  | .file =>
    match NodeFile.save (.ofText persistence.path) records archive.tree with
    | (tree, none) =>
      ({ archive with tree },
        #[.debug s!"Saved {records.length} nodes to {persistence.path}"])
    | (tree, some fault) => ({ archive with tree }, #[failed fault])

/-- Perform the save that is due, and free the lock. -/
def stepSaver (world : World) (c : Crawl) : Crawl × Motion :=
  match world.persistence, c.lock with
  | some persistence, .saving records =>
    let (archive, lines) := save persistence records c.archive
    ({ c with shared := c.shared.reportAll lines, archive, lock := .free }, .moved)
  | _, _ => (c, .blocked none)

end BitcoinCrawl.Crawl

import BitcoinCrawl.Registry.Basic

set_option autoImplicit false

/-! # Metrics and snapshots

Counters that every worker adds to, and the progress of a crawl at one instant. -/

namespace BitcoinCrawl

/-- Counters of a crawl. They wrap around. -/
structure Metrics where
  /-- Visits in progress. -/
  active : UInt64 := 0
  messagesIn : UInt64 := 0
  messagesOut : UInt64 := 0
  deriving DecidableEq, Inhabited

namespace Metrics

/-- A visit begins. -/
def enter (m : Metrics) : Metrics := { m with active := m.active + 1 }

/-- A visit is over. -/
def leave (m : Metrics) : Metrics := { m with active := m.active - 1 }

/-- A message came in. -/
def countIn (m : Metrics) : Metrics := { m with messagesIn := m.messagesIn + 1 }

/-- A message went out. -/
def countOut (m : Metrics) : Metrics := { m with messagesOut := m.messagesOut + 1 }

end Metrics

/-- Progress of a crawl at one instant. -/
structure Snapshot where
  active : UInt64
  total : Nat
  /-- Endpoints waiting in the discovery queue. -/
  queued : Nat
  good : Nat
  dead : Nat
  messagesIn : UInt64
  messagesOut : UInt64
  deriving DecidableEq, Inhabited

namespace Snapshot

/-- The progress that a registry and the counters show. -/
def capture (registry : Registry) (metrics : Metrics) : Snapshot :=
  let counts := registry.counts
  { active := metrics.active
    total := counts.total
    queued := counts.discovered
    good := counts.good
    dead := counts.dead
    messagesIn := metrics.messagesIn
    messagesOut := metrics.messagesOut }

def text (s : Snapshot) : String :=
  s!"total: {s.total}, queued: {s.queued}, connected: {s.active}, good: {s.good}, dead: {s.dead}, " ++
    s!"msgs in/out: {s.messagesIn}/{s.messagesOut}"

instance : ToString Snapshot := ⟨text⟩

end Snapshot

end BitcoinCrawl

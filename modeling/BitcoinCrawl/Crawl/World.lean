import BitcoinCrawl.Crawl.Config
import BitcoinCrawl.Peering.Fault
import BitcoinCrawl.Transport.Link

set_option autoImplicit false

/-! # The world of a crawl

What stays the same while a crawl runs: its settings, where it saves, and what the network out there does
when an endpoint is dialed. -/

namespace BitcoinCrawl

/-- How an endpoint answers to a dial. -/
inductive DialAnswer where
  | refuse (fault : ConnectionFault)
  /-- There is never an answer. -/
  | silence
  /-- A connection to a scripted peer. -/
  | accept (events : List StreamEvent) (writeFault : Option WriteFault)

/-- An endpoint as seen from outside: what it answers, and after how long. -/
structure Remote where
  delay : Millis := 0
  answer : DialAnswer

namespace Remote

/-- An endpoint where nobody listens. -/
def absent : Remote where
  answer := .refuse (.socket ⟨.connectionRefused, none⟩)

/-- Number of events behind an endpoint, and of the bytes they carry. -/
def weight (remote : Remote) : Nat :=
  match remote.answer with
  | .accept events _ => Script.weight events
  | _ => 0

end Remote

/-- What takes the records of good nodes. -/
inductive NodeStore where
  /-- They are written to a node file. -/
  | file
  /-- They are kept in memory. -/
  | memory
  /-- They are kept in memory, and then the save fails. -/
  | failing (fault : IoFault)
  deriving DecidableEq

/-- Where good nodes are saved. -/
structure Persistence where
  store : NodeStore := .file
  path : String

/-- What stays the same during a crawl: its settings and the network out there. -/
structure World where
  config : CrawlConfig
  /-- How connections present us. -/
  connection : ConnectionConfig := config.connection
  /-- Endpoints where somebody listens, or at least answers. -/
  remotes : List (Endpoint × Remote) := []
  persistence : Option Persistence := none

namespace World

/-- What is behind an endpoint. -/
def remote (world : World) (endpoint : Endpoint) : Remote :=
  (world.remotes.lookup endpoint).getD .absent

end World

end BitcoinCrawl

import BitcoinCrawl.Net.Chain
import BitcoinCrawl.Peering.Config

set_option autoImplicit false

/-! # Crawl configuration

Everything a crawl needs to know up front. A configuration starts from the defaults of its network and is
changed one setting at a time; a setting that is refused leaves it as it was. -/

namespace BitcoinCrawl

/-- The settings of a crawl. -/
structure CrawlConfig where
  chain : Chain
  userAgent : Option UserAgent := none
  protocolVersion : UInt32 := 70016
  /-- Number of workers, which bounds the connections open at once. -/
  connectionLimit : Nat := 8
  /-- Time allowed for a dial with its handshake. -/
  peerTimeout : Millis := 20000
  /-- How long a session may stay silent. Without a limit only the peer or a stop ends it. -/
  idleTimeout : Option Millis := some 1200000
  snapshotInterval : Millis := 1000
  /-- Where good nodes are saved, if anywhere. -/
  outputPath : Option String := none

/-- Why a setting is refused. -/
inductive ConfigFault where
  | invalidUserAgent (fault : UserAgentFault)
  | zeroConnectionLimit
  deriving DecidableEq

namespace ConfigFault

def message : ConfigFault → String
  | invalidUserAgent fault => s!"Invalid user agent: {fault.message}"
  | zeroConnectionLimit => "Connection limit must be at least 1"

/-- What lies behind the fault, if anything does. -/
def cause? : ConfigFault → Option String
  | invalidUserAgent fault => some fault.message
  | zeroConnectionLimit => none

end ConfigFault

/-- One change to a configuration. -/
inductive Setting where
  | userAgent (text : String)
  | protocolVersion (version : UInt32)
  | connectionLimit (limit : Nat)
  | peerTimeout (span : Millis)
  | idleTimeout (span : Option Millis)
  | snapshotInterval (span : Millis)
  | outputPath (path : String)
  deriving DecidableEq

namespace CrawlConfig

/-- Change one setting. A user agent must have the shape `/name:version/`, and a crawl needs at least one
    connection. -/
def set (setting : Setting) (config : CrawlConfig) : Except ConfigFault CrawlConfig :=
  match setting with
  | .userAgent text =>
    match UserAgent.parse text with
    | .ok agent => .ok { config with userAgent := some agent }
    | .error fault => .error (.invalidUserAgent fault)
  | .protocolVersion version => .ok { config with protocolVersion := version }
  | .connectionLimit limit =>
    if limit = 0 then .error .zeroConnectionLimit else .ok { config with connectionLimit := limit }
  | .peerTimeout span => .ok { config with peerTimeout := span }
  | .idleTimeout span => .ok { config with idleTimeout := span }
  | .snapshotInterval span => .ok { config with snapshotInterval := span }
  | .outputPath path => .ok { config with outputPath := some path }

/-- How each connection presents the crawler. The dial may not take longer than dial and handshake
    together. -/
def connection (config : CrawlConfig) : ConnectionConfig where
  protocolVersion := some config.protocolVersion
  userAgent := config.userAgent
  dialTimeout := min defaultDialTimeout config.peerTimeout

end CrawlConfig

end BitcoinCrawl

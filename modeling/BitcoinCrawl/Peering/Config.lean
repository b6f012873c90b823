import BitcoinCrawl.Peer
import BitcoinCrawl.Text.Duration
import BitcoinCrawl.UserAgent
import BitcoinCrawl.Wire.Message

set_option autoImplicit false

/-! # How the crawler presents itself

The fields of our own version message that do not depend on the peer, and how long a dial may take. By
default nobody is told to connect to us: no services and the unspecified address. -/

namespace BitcoinCrawl

/-- Lowest protocol version a peer may speak, and ours when none is configured. -/
def minProtocolVersion : UInt32 := 70001

/-- Lowest protocol version that knows announcements in the newer address format. -/
def addrV2ProtocolVersion : UInt32 := 70016

/-- User agent sent when none is configured. -/
def defaultUserAgent : UserAgent := .ofParts "nodescan" "0.1.0"

/-- Time allowed for a dial unless configured otherwise. -/
def defaultDialTimeout : Millis := 10000

/-- How we present ourselves on a connection. -/
structure ConnectionConfig where
  /-- Protocol version to advertise, the lowest possible one if unknown. -/
  protocolVersion : Option UInt32 := none
  userAgent : Option UserAgent := none
  services : Services := .none
  sender : SocketAddress := .v4 .unspecified 0
  startHeight : Int32 := 0
  /-- Whether peers should relay transactions to us. -/
  relay : Bool := false
  /-- Whether to ask for announcements in the newer address format. -/
  requestAddrV2 : Bool := true
  dialTimeout : Millis := defaultDialTimeout

namespace ConnectionConfig

/-- The user agent to advertise. -/
def agentText (config : ConnectionConfig) : String :=
  (config.userAgent.getD defaultUserAgent).text

/-- The protocol version to advertise. -/
def advertisedVersion (config : ConnectionConfig) : UInt32 :=
  config.protocolVersion.getD minProtocolVersion

/-- Our version message for a peer. -/
def introduction (config : ConnectionConfig) (peer : Peer) (nonce : UInt64) (time : Int64) :
    VersionMessage where
  version := config.advertisedVersion
  services := config.services
  timestamp := time
  receiver := .ofSocket peer.endpoint.socket (peer.services.getD .none)
  sender := .ofSocket config.sender config.services
  nonce := nonce
  userAgent := config.agentText
  startHeight := config.startHeight
  relay := config.relay

def text (config : ConnectionConfig) : String :=
  s!"protocol {versionText config.protocolVersion}, user agent {config.agentText}, " ++
    s!"services {config.services}, addrv2 {config.requestAddrV2}, relay {config.relay}"

instance : ToString ConnectionConfig := ⟨text⟩

end ConnectionConfig

end BitcoinCrawl

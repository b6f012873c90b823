import BitcoinCrawl.Net.Endpoint
import BitcoinCrawl.Services

set_option autoImplicit false

/-! # Peers

What is known about the node behind an endpoint. Everything but the endpoint stays unknown until the
node has said it in its version message. -/

namespace BitcoinCrawl

/-- A node and what it told about itself. -/
structure Peer where
  endpoint : Endpoint
  services : Option Services := none
  version : Option UInt32 := none
  userAgent : Option String := none
  deriving DecidableEq

/-- Text of a protocol version that may be unknown. -/
def versionText : Option UInt32 → String
  | some v => toString v
  | none => "unknown"

namespace Peer

/-- Whether the peer is known to offer every wanted service. -/
def hasService (peer : Peer) (wanted : Services) : Bool :=
  peer.services.any (·.has wanted)

def text (peer : Peer) : String :=
  let services := (peer.services.map toString).getD "unknown"
  let agent := peer.userAgent.getD "unknown"
  s!"{peer.endpoint} ([peer] services: {services}, version: {versionText peer.version}, " ++
    s!"agent: {agent})"

instance : ToString Peer := ⟨text⟩

end Peer

end BitcoinCrawl

import BitcoinCrawl.Registry.Node

set_option autoImplicit false

/-! # Node records

A good node as it is written to disk: the text of its endpoint and what the peer said about itself. -/

namespace BitcoinCrawl

/-- A saved node. -/
structure NodeRecord where
  /-- Host and port. -/
  endpoint : String
  /-- Service bits. -/
  services : Option UInt64 := none
  protocolVersion : Option UInt32 := none
  userAgent : Option String := none
  pingCount : UInt64 := 0
  deriving DecidableEq, Inhabited

namespace Node

/-- What is saved of a node. -/
def record (node : Node) : NodeRecord where
  endpoint := toString node.endpoint
  services := node.peer.bind fun peer => peer.services.map Services.bits
  protocolVersion := node.peer.bind Peer.version
  userAgent := node.peer.bind Peer.userAgent
  pingCount := node.pingCount

end Node

end BitcoinCrawl

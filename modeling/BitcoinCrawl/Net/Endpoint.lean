import BitcoinCrawl.Net.SocketAddress

set_option autoImplicit false

/-! # Endpoints

An endpoint is where a node can be dialed, and is the identity of the node: a host address that is never
an IPv6 spelling of an IPv4 one, and a port. Its text is that of the socket address. -/

namespace BitcoinCrawl

/-- A dialable address, with IPv4 hosts always in IPv4 form. -/
structure Endpoint where
  ip : IpAddress
  port : UInt16
  notMapped : ip.isMapped = false
  deriving DecidableEq

namespace Endpoint

/-- The endpoint of a host and port, collapsing an IPv6 spelling of an IPv4 host. -/
def of (ip : IpAddress) (port : UInt16) : Endpoint :=
  ⟨ip.collapse, port, ip.isMapped_collapse⟩

/-- The endpoint of a socket address. A scope is dropped. -/
def ofSocket (address : SocketAddress) : Endpoint := of address.ip address.port

/-- The socket address to dial. -/
def socket (e : Endpoint) : SocketAddress := .ofIp e.ip e.port

/-- Text of an endpoint as characters. -/
def chars (e : Endpoint) : List Char := e.socket.chars

instance : ToString Endpoint := ⟨fun e => String.ofList e.chars⟩

/-- The endpoint a text spells, if the whole text is a socket address. -/
def parse? (text : String) : Option Endpoint :=
  (SocketAddress.parse? text.toList).map ofSocket

/-- What is said about a text that is no endpoint. -/
def parseMessage (text : String) : String :=
  s!"Invalid endpoint '{text}', expected host:port"

/-- The endpoint of an announced host, unless nobody could dial it: port zero and the unspecified
    address are refused, the latter after collapsing. -/
def announced? (ip : IpAddress) (port : UInt16) : Option Endpoint :=
  let e := of ip port
  if e.port == 0 || e.ip.isUnspecified then none else some e

instance : Hashable Endpoint := ⟨fun e => mixHash (hash e.ip) (hash e.port)⟩

/-- IPv4 before IPv6, then by address, then by port. -/
instance : Ord Endpoint :=
  ⟨fun e f => (compare e.ip f.ip).then (compare e.port f.port)⟩

instance : Inhabited Endpoint := ⟨⟨.v4 .unspecified, 0, rfl⟩⟩

theorem of_ip_port (e : Endpoint) : of e.ip e.port = e := by
  cases e with
  | mk ip port h => simp [of, IpAddress.collapse_of_not_mapped h]

/-- Endpoints in ascending order, equal ones kept. -/
def sort (es : List Endpoint) : List Endpoint := es.mergeSort fun e f => (compare e f).isLE

/-- Endpoints in ascending order, each once. -/
def distinct (es : List Endpoint) : List Endpoint := (sort es).eraseReps

end Endpoint

end BitcoinCrawl

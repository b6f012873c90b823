import BitcoinCrawl.Net.Endpoint
import BitcoinCrawl.Services
import BitcoinCrawl.Wire.Decoder

set_option autoImplicit false

/-! # Announced addresses

Nodes announce each other in two formats. `NetAddress` is the older one, sixteen octets of IPv6 that also
spell IPv4 hosts; `HostAddress` names the network first and so covers hosts that have no IP. Both lead to
the same endpoint for the same host, or to none where nobody could dial. -/

namespace BitcoinCrawl

/-! ## Sixteen octets -/

/-- Services, host and port of a node in the older format. -/
structure NetAddress where
  services : Services
  host : Ipv6
  port : UInt16
  deriving DecidableEq

namespace NetAddress

/-- The entry for a socket address: IPv4 hosts in their IPv6 spelling, others as they are. -/
def ofSocket (address : SocketAddress) (services : Services) : NetAddress :=
  let host := match address with
    | .v4 ip _ => ip.toMapped
    | .v6 ip _ _ => ip
  ⟨services, host, address.port⟩

/-- The IP address an entry stands for. Wrapped onion names have none; both IPv6 spellings of an IPv4
    host, `::ffff:a.b.c.d` and the retired `::a.b.c.d`, mean that host. -/
def ip? (address : NetAddress) : Option IpAddress :=
  let host := address.host
  if host.isOnionCat then none
  else if host.isMapped || host.isCompatible then some (.v4 host.lastFour)
  else some (.v6 host)

/-- The endpoint to dial for an entry, if it can be dialed. -/
def endpoint? (address : NetAddress) : Option Endpoint :=
  address.ip?.bind (Endpoint.announced? · address.port)

def encode (address : NetAddress) : Bytes :=
  Bytes.ofNatLE 8 address.services.bits.toNat ++ address.host.octets ++ Bytes.ofPort address.port

end NetAddress

namespace Decoder

/-- Sixteen octets as an IPv6 address. -/
def ipv6 : Decoder Ipv6 := do
  return (Ipv6.ofOctets? (← block 16).bytes).getD .unspecified

def netAddress : Decoder NetAddress := do
  let services ← word64
  let host ← ipv6
  let port ← port
  return ⟨⟨services⟩, host, port⟩

end Decoder

/-! ## Hosts of any network -/

/-- A host of any of the networks that nodes announce. -/
inductive HostAddress where
  | ipv4 (ip : Ipv4)
  | ipv6 (ip : Ipv6)
  | torV2 (key : Octets 10)
  | torV3 (key : Octets 32)
  | i2p (hash : Octets 32)
  | cjdns (ip : Ipv6)
  /-- A network without a meaning here, kept as it came. -/
  | unknown (network : UInt8) (bytes : Bytes)
  deriving DecidableEq

namespace HostAddress

/-- The IP address a host can be reached at without a further network. -/
def ip? : HostAddress → Option IpAddress
  | ipv4 ip => some (.v4 ip)
  | ipv6 ip => some (.v6 ip)
  | _ => none

/-- The endpoint to dial for a host at a port, if it can be dialed. -/
def endpoint? (host : HostAddress) (port : UInt16) : Option Endpoint :=
  host.ip?.bind (Endpoint.announced? · port)

/-- Number of the network a host belongs to. -/
def network : HostAddress → UInt8
  | ipv4 _ => 1
  | ipv6 _ => 2
  | torV2 _ => 3
  | torV3 _ => 4
  | i2p _ => 5
  | cjdns _ => 6
  | unknown network _ => network

/-- The bytes of the host within its network. -/
def payload : HostAddress → Bytes
  | ipv4 ip => ip.octets
  | ipv6 ip => ip.octets
  | torV2 key => key.bytes
  | torV3 key => key.bytes
  | i2p hash => hash.bytes
  | cjdns ip => ip.octets
  | unknown _ bytes => bytes

def encode (host : HostAddress) : Bytes := host.network :: Bytes.sized host.payload

end HostAddress

/-- Time, services, host and port of a node in the newer format. -/
structure HostEntry where
  time : UInt32
  services : Services
  host : HostAddress
  port : UInt16
  deriving DecidableEq

namespace HostEntry

def endpoint? (entry : HostEntry) : Option Endpoint := entry.host.endpoint? entry.port

def encode (entry : HostEntry) : Bytes :=
  Bytes.ofNatLE 4 entry.time.toNat ++ Bytes.compactSize entry.services.bits ++ entry.host.encode ++
    Bytes.ofPort entry.port

end HostEntry

namespace Decoder

/-- A block whose announced length must be the one its network asks for. -/
def hostBlock (kind : HostKind) (n : Nat) (length : UInt64) : Decoder (Octets n) := do
  if length.toNat ≠ n then refuse (.hostLength kind)
  block n

/-- The IPv4 address of a block of four octets. -/
def ipv4Of (octets : Octets 4) : Ipv4 := (Ipv4.ofOctets? octets.bytes).getD .unspecified

/-- The IPv6 address of a block of sixteen octets. -/
def ipv6Of (octets : Octets 16) : Ipv6 := (Ipv6.ofOctets? octets.bytes).getD .unspecified

/-- A host behind its network number. The length is tested against the network before any byte of the
    host is read, and an IPv6 host must not spell an onion name or an IPv4 host. -/
def hostAddress : Decoder HostAddress := do
  let network ← byte
  let length ← compactSize
  if 512 < length then refuse .hostTooLong
  match network with
  | 1 => return .ipv4 (ipv4Of (← hostBlock .ipv4 4 length))
  | 2 =>
    let ip := ipv6Of (← hostBlock .ipv6 16 length)
    if ip.isOnionCat then refuse .onionCatAsIpv6
    if ip.isMapped then refuse .mappedAsIpv6
    return .ipv6 ip
  | 3 => return .torV2 (← hostBlock .torV2 10 length)
  | 4 => return .torV3 (← hostBlock .torV3 32 length)
  | 5 => return .i2p (← hostBlock .i2p 32 length)
  | 6 =>
    let ip := ipv6Of (← hostBlock .cjdns 16 length)
    if ip.g0 >>> 8 ≠ 0xfc then refuse .cjdnsRange
    return .cjdns ip
  | other => return .unknown other (← block length.toNat).bytes

def hostEntry : Decoder HostEntry := do
  let time ← word32
  let services ← compactSize
  let host ← hostAddress
  let port ← port
  return ⟨time, ⟨services⟩, host, port⟩

end Decoder

end BitcoinCrawl

import BitcoinCrawl.Wire.Bytes

set_option autoImplicit false

/-! # The networks that can be crawled

Every network has a magic number that opens each frame, a port its nodes listen on by default, and a
list of DNS names that bootstrap a crawl. -/

namespace BitcoinCrawl

/-- A Bitcoin network. -/
inductive Chain where
  | bitcoin
  | testnet
  | testnet4
  | signet
  | regtest
  deriving DecidableEq, Inhabited

namespace Chain

def name : Chain → String
  | bitcoin => "bitcoin"
  | testnet => "testnet"
  | testnet4 => "testnet4"
  | signet => "signet"
  | regtest => "regtest"

instance : ToString Chain := ⟨name⟩

/-- All networks. -/
def all : List Chain := [bitcoin, testnet, testnet4, signet, regtest]

/-- The network of a given name. -/
def ofName? (text : String) : Option Chain := all.find? (·.name == text)

/-- The four bytes that open every frame of the network. -/
def magic : Chain → Octets 4
  | bitcoin => ⟨[0xf9, 0xbe, 0xb4, 0xd9], rfl⟩
  | testnet => ⟨[0x0b, 0x11, 0x09, 0x07], rfl⟩
  | testnet4 => ⟨[0x1c, 0x16, 0x3f, 0x28], rfl⟩
  | signet => ⟨[0x0a, 0x03, 0xcf, 0x40], rfl⟩
  | regtest => ⟨[0xfa, 0xbf, 0xb5, 0xda], rfl⟩

/-- Names that resolve to nodes of the network. Some networks have none. -/
def dnsSeeds : Chain → List String
  | bitcoin =>
    ["seed.bitcoin.sipa.be",
     "dnsseed.bluematt.me",
     "seed.bitcoinstats.com",
     "seed.bitcoin.jonasschnelli.ch",
     "seed.btc.petertodd.net",
     "seed.bitcoin.sprovoost.nl",
     "dnsseed.emzy.de",
     "seed.bitcoin.wiz.biz",
     "seed.mainnet.achownodes.xyz"]
  | testnet =>
    ["testnet-seed.bitcoin.jonasschnelli.ch",
     "seed.tbtc.petertodd.net",
     "seed.testnet.bitcoin.sprovoost.nl",
     "testnet-seed.bluematt.me"]
  | signet =>
    ["seed.signet.bitcoin.sprovoost.nl",
     "seed.signet.achownodes.xyz"]
  | testnet4 => []
  | regtest => []

/-- The port nodes of the network listen on unless told otherwise. -/
def defaultPort : Chain → UInt16
  | bitcoin => 8333
  | testnet => 18333
  | testnet4 => 8333
  | signet => 38333
  | regtest => 18444

end Chain

end BitcoinCrawl

set_option autoImplicit false

/-! # Nonces

Version messages and pings carry 64-bit nonces. A nonce mixes the wall clock, the process id and a
counter that is stretched over the whole word, and is never zero: zero means that no ping is out. -/

namespace BitcoinCrawl

/-- What the machine contributes to a crawl. -/
structure Host where
  /-- Nanoseconds since the Unix epoch. -/
  wallNanos : UInt64
  processId : UInt32
  deriving Inhabited

namespace Host

/-- Seconds since the Unix epoch. -/
def unixTime (host : Host) : Int64 := (host.wallNanos / 1000000000).toInt64

/-- The process id moved into the upper half of a word. -/
def processWord (host : Host) : UInt64 := host.processId.toUInt64 <<< 32

/-- The odd factor that spreads the counter over the word. -/
def stride : UInt64 := 0x9e3779b97f4a7c15

/-- The word drawn for a counter value, before zero is excluded. -/
def rawNonce (host : Host) (count : UInt64) : UInt64 :=
  host.wallNanos ^^^ host.processWord ^^^ count * stride

/-- The nonce drawn for a counter value: the raw word, with one in place of zero. -/
def nonce (host : Host) (count : UInt64) : UInt64 :=
  max (host.rawNonce count) 1

end Host

end BitcoinCrawl

import BitcoinCrawl.Wire.Message

set_option autoImplicit false

/-! # Notices

What a session makes of a message. Announced addresses become endpoints, those that nobody could dial are
left out, and everything a crawl does not act on is reduced to its name. -/

namespace BitcoinCrawl

/-- A message as far as a crawl cares about it. -/
inductive Notice where
  | version
  | verack
  | ping (nonce : UInt64)
  | pong (nonce : UInt64)
  /-- Endpoints announced in the older address format. -/
  | addr (endpoints : List Endpoint)
  /-- Endpoints announced in the newer address format. -/
  | addrV2 (endpoints : List Endpoint)
  /-- Number of announced inventory items. -/
  | inventory (count : Nat)
  /-- Lowest fee rate the peer relays. -/
  | feeFilter (rate : Int64)
  /-- Number of hashes in a request for headers. -/
  | getHeaders (count : Nat)
  /-- Any other message, by its command. -/
  | other (command : String)
  deriving DecidableEq

namespace Notice

/-- The notice of a message. -/
def ofMessage : Message → Notice
  | .version _ => version
  | .verack => verack
  | .ping nonce => ping nonce
  | .pong nonce => pong nonce
  | .addr entries => addr (entries.filterMap fun entry => entry.2.endpoint?)
  | .addrV2 entries => addrV2 (entries.filterMap HostEntry.endpoint?)
  | .inv items => inventory items.length
  | .feeFilter rate => feeFilter rate
  | .getHeaders locator => getHeaders locator.hashes.length
  | m => other m.command

/-- The endpoints a notice announces. -/
def announced : Notice → List Endpoint
  | addr endpoints | addrV2 endpoints => endpoints
  | _ => []

end Notice

end BitcoinCrawl

import BitcoinCrawl.Wire.Address

set_option autoImplicit false

/-! # Messages

Everything two nodes can say to each other, each kind with its command name, the layout of its payload
and the reader of that layout. -/

namespace BitcoinCrawl

/-! ## Parts of messages -/

/-- How a node introduces itself. -/
structure VersionMessage where
  version : UInt32
  services : Services
  timestamp : Int64
  receiver : NetAddress
  sender : NetAddress
  nonce : UInt64
  userAgent : String
  startHeight : Int32
  relay : Bool
  deriving DecidableEq

/-- A hash with the kind of object it belongs to. -/
structure InventoryItem where
  kind : UInt32
  hash : Octets 32
  deriving DecidableEq

/-- A position in the chain of blocks, as hashes from its tip backwards, and where to stop. -/
structure Locator where
  version : UInt32
  hashes : List (Octets 32)
  stop : Octets 32
  deriving DecidableEq

/-- Why a node rejected a message. -/
inductive RejectReason where
  | malformed
  | invalid
  | obsolete
  | duplicate
  | nonStandard
  | dust
  | fee
  | checkpoint
  deriving DecidableEq

namespace RejectReason

def code : RejectReason → UInt8
  | malformed => 0x01
  | invalid => 0x10
  | obsolete => 0x11
  | duplicate => 0x12
  | nonStandard => 0x40
  | dust => 0x41
  | fee => 0x42
  | checkpoint => 0x43

/-- All reasons. -/
def all : List RejectReason :=
  [malformed, invalid, obsolete, duplicate, nonStandard, dust, fee, checkpoint]

/-- The reason with a given code. -/
def ofCode? (code : UInt8) : Option RejectReason := all.find? (·.code == code)

end RejectReason

/-- A rejected message: its command, why, and the object it was about. -/
structure Rejection where
  message : String
  reason : RejectReason
  text : String
  hash : Octets 32
  deriving DecidableEq

/-- Kinds of message whose payload is carried without being looked into. Any payload is accepted, also one that
    does not follow the layout of its kind. -/
inductive BulkKind where
  | tx
  | block
  | merkleBlock
  | filterLoad
  | filterAdd
  | getCFilters
  | cFilter
  | getCFHeaders
  | cFHeaders
  | getCFCheckpt
  | cFCheckpt
  | cmpctBlock
  | getBlockTxn
  | blockTxn
  deriving DecidableEq

namespace BulkKind

def command : BulkKind → String
  | tx => "tx"
  | block => "block"
  | merkleBlock => "merkleblock"
  | filterLoad => "filterload"
  | filterAdd => "filteradd"
  | getCFilters => "getcfilters"
  | cFilter => "cfilter"
  | getCFHeaders => "getcfheaders"
  | cFHeaders => "cfheaders"
  | getCFCheckpt => "getcfcheckpt"
  | cFCheckpt => "cfcheckpt"
  | cmpctBlock => "cmpctblock"
  | getBlockTxn => "getblocktxn"
  | blockTxn => "blocktxn"

/-- All kinds. -/
def all : List BulkKind :=
  [tx, block, merkleBlock, filterLoad, filterAdd, getCFilters, cFilter, getCFHeaders, cFHeaders,
   getCFCheckpt, cFCheckpt, cmpctBlock, getBlockTxn, blockTxn]

/-- The kind with a given command. -/
def ofCommand? (command : String) : Option BulkKind := all.find? (·.command == command)

end BulkKind

/-! ## Messages -/

/-- A message between two nodes. -/
inductive Message where
  | version (m : VersionMessage)
  | verack
  | addr (entries : List (UInt32 × NetAddress))
  | addrV2 (entries : List HostEntry)
  | inv (items : List InventoryItem)
  | getData (items : List InventoryItem)
  | notFound (items : List InventoryItem)
  | getBlocks (locator : Locator)
  | getHeaders (locator : Locator)
  | headers (all : List (Octets 80))
  | memPool
  | getAddr
  | ping (nonce : UInt64)
  | pong (nonce : UInt64)
  | sendHeaders
  | filterClear
  | feeFilter (rate : Int64)
  | sendCmpct (announce : Bool) (version : UInt64)
  | wtxidRelay
  | sendAddrV2
  | alert (bytes : Bytes)
  | reject (rejection : Rejection)
  | bulk (kind : BulkKind) (payload : Bytes)
  deriving DecidableEq

namespace Message

/-- Command name of a message. -/
def command : Message → String
  | version _ => "version"
  | verack => "verack"
  | addr _ => "addr"
  | addrV2 _ => "addrv2"
  | inv _ => "inv"
  | getData _ => "getdata"
  | notFound _ => "notfound"
  | getBlocks _ => "getblocks"
  | getHeaders _ => "getheaders"
  | headers _ => "headers"
  | memPool => "mempool"
  | getAddr => "getaddr"
  | ping _ => "ping"
  | pong _ => "pong"
  | sendHeaders => "sendheaders"
  | filterClear => "filterclear"
  | feeFilter _ => "feefilter"
  | sendCmpct _ _ => "sendcmpct"
  | wtxidRelay => "wtxidrelay"
  | sendAddrV2 => "sendaddrv2"
  | alert _ => "alert"
  | reject _ => "reject"
  | bulk kind _ => kind.command

end Message

/-! ## Layout of payloads -/

namespace VersionMessage

def encode (m : VersionMessage) : Bytes :=
  Bytes.ofNatLE 4 m.version.toNat ++ Bytes.ofNatLE 8 m.services.bits.toNat ++
    Bytes.ofNatLE 8 m.timestamp.toUInt64.toNat ++ m.receiver.encode ++ m.sender.encode ++
    Bytes.ofNatLE 8 m.nonce.toNat ++ Bytes.sized (Bytes.ofText m.userAgent) ++
    Bytes.ofNatLE 4 m.startHeight.toUInt32.toNat ++ [if m.relay then 1 else 0]

end VersionMessage

namespace InventoryItem

def encode (item : InventoryItem) : Bytes := Bytes.ofNatLE 4 item.kind.toNat ++ item.hash.bytes

end InventoryItem

namespace Locator

def encode (locator : Locator) : Bytes :=
  Bytes.ofNatLE 4 locator.version.toNat ++ Bytes.counted Octets.bytes locator.hashes ++
    locator.stop.bytes

end Locator

namespace Rejection

def encode (r : Rejection) : Bytes :=
  Bytes.sized (Bytes.ofText r.message) ++ [r.reason.code] ++ Bytes.sized (Bytes.ofText r.text) ++
    r.hash.bytes

end Rejection

namespace Message

/-- The payload of a message. -/
def encode : Message → Bytes
  | version m => m.encode
  | addr entries =>
    Bytes.counted (fun entry => Bytes.ofNatLE 4 entry.1.toNat ++ entry.2.encode) entries
  | addrV2 entries => Bytes.counted HostEntry.encode entries
  | inv items | getData items | notFound items => Bytes.counted InventoryItem.encode items
  | getBlocks locator | getHeaders locator => locator.encode
  | headers all => Bytes.counted (fun header => header.bytes ++ [0]) all
  | ping nonce | pong nonce => Bytes.ofNatLE 8 nonce.toNat
  | feeFilter rate => Bytes.ofNatLE 8 rate.toUInt64.toNat
  | sendCmpct announce v => (if announce then 1 else 0) :: Bytes.ofNatLE 8 v.toNat
  | alert bytes => Bytes.sized bytes
  | reject rejection => rejection.encode
  | bulk _ payload => payload
  | verack | memPool | getAddr | sendHeaders | filterClear | wtxidRelay | sendAddrV2 => []

end Message

namespace Decoder

def versionMessage : Decoder VersionMessage := do
  let version ← word32
  let services ← word64
  let timestamp ← word64
  let receiver ← netAddress
  let sender ← netAddress
  let nonce ← word64
  let userAgent ← text
  let startHeight ← word32
  let relay ← byte
  return { version, services := ⟨services⟩, timestamp := timestamp.toInt64, receiver, sender, nonce,
           userAgent, startHeight := startHeight.toInt32, relay := relay != 0 }

def timedAddress : Decoder (UInt32 × NetAddress) := do
  return (← word32, ← netAddress)

def inventoryItem : Decoder InventoryItem := do
  return ⟨← word32, ← block 32⟩

def locator : Decoder Locator := do
  return ⟨← word32, ← list (block 32), ← block 32⟩

/-- A block header and the number of transactions behind it, which must be zero. -/
def header : Decoder (Octets 80) := do
  let header ← block 80
  if (← byte) ≠ 0 then refuse .headersWithTransactions
  return header

/-- Largest fee rate that may be announced, in satoshi per kilobyte. -/
def maxFee : Int64 := 2100000000000000

def feeFilter : Decoder Message := do
  let rate := (← word64).toInt64
  if rate < 0 ∨ maxFee < rate then refuse .feeOutOfRange
  return .feeFilter rate

/-- A flag that must be zero or one, tested after the version behind it is read. -/
def sendCmpct : Decoder Message := do
  let flag ← byte
  let version ← word64
  if 1 < flag then refuse .announceFlag
  return .sendCmpct (flag == 1) version

def reject : Decoder Message := do
  let message ← text
  match RejectReason.ofCode? (← byte) with
  | none => refuse .rejectCode
  | some reason => return .reject ⟨message, reason, ← text, ← block 32⟩

/-- All bytes up to the end. -/
def remainder : Decoder Bytes := fun bytes => .ok (bytes, [])

/-- Reader of the payload that goes with a command, for the commands known here. For the kinds that are not looked
    into it never fails. -/
def payload? (command : String) : Option (Decoder Message) :=
  match command with
  | "version" => some (Message.version <$> versionMessage)
  | "verack" => some (pure .verack)
  | "addr" => some (Message.addr <$> list timedAddress)
  | "addrv2" => some (Message.addrV2 <$> list hostEntry)
  | "inv" => some (Message.inv <$> list inventoryItem)
  | "getdata" => some (Message.getData <$> list inventoryItem)
  | "notfound" => some (Message.notFound <$> list inventoryItem)
  | "getblocks" => some (Message.getBlocks <$> locator)
  | "getheaders" => some (Message.getHeaders <$> locator)
  | "headers" => some (Message.headers <$> list header)
  | "mempool" => some (pure .memPool)
  | "getaddr" => some (pure .getAddr)
  | "ping" => some (Message.ping <$> word64)
  | "pong" => some (Message.pong <$> word64)
  | "sendheaders" => some (pure .sendHeaders)
  | "filterclear" => some (pure .filterClear)
  | "feefilter" => some feeFilter
  | "sendcmpct" => some sendCmpct
  | "wtxidrelay" => some (pure .wtxidRelay)
  | "sendaddrv2" => some (pure .sendAddrV2)
  | "alert" => some (Message.alert <$> bytes)
  | "reject" => some reject
  | other => (BulkKind.ofCommand? other).map fun kind => Message.bulk kind <$> remainder

end Decoder

end BitcoinCrawl

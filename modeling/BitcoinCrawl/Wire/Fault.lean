import BitcoinCrawl.IoFault
import BitcoinCrawl.Text.Numeral
import BitcoinCrawl.Wire.Bytes

set_option autoImplicit false

/-! # Faults on the wire

`DecodeFault` says why a complete frame is not a message, `TransportFault` why reading or writing gave no
message. Only a fault that used up a whole frame of trusted length leaves the reader on a frame boundary;
those are the recoverable ones. -/

namespace BitcoinCrawl

/-- Largest payload a frame may announce. -/
def maxPayload : Nat := 4000000

/-! ## Decoding -/

/-- The kinds of host a node can announce with a network number. -/
inductive HostKind where
  | ipv4
  | ipv6
  | torV2
  | torV3
  | i2p
  | cjdns
  deriving DecidableEq

namespace HostKind

def name : HostKind → String
  | ipv4 => "IPv4"
  | ipv6 => "IPv6"
  | torV2 => "TorV2"
  | torV3 => "TorV3"
  | i2p => "I2P"
  | cjdns => "CJDNS"

end HostKind

/-- A rule of the message formats that a payload breaks. -/
inductive Malformation where
  | commandNotAscii
  | leftover
  | notUtf8
  | feeOutOfRange
  | announceFlag
  | headersWithTransactions
  | rejectCode
  | hostTooLong
  | hostLength (kind : HostKind)
  | onionCatAsIpv6
  | mappedAsIpv6
  | cjdnsRange
  /-- Any other breach, in the words of whoever noticed it. -/
  | noted (text : String)
  deriving DecidableEq

namespace Malformation

def message : Malformation → String
  | commandNotAscii => "Command string must be ASCII"
  | leftover => "extra bytes after network message payload"
  | notUtf8 => "String was not valid UTF8"
  | feeOutOfRange => "feefilter value out of range"
  | announceFlag => "first byte was not 0 or 1"
  | headersWithTransactions => "Headers message should not contain transactions"
  | rejectCode => "unknown reject code"
  | hostTooLong => "IP must be <= 512 bytes"
  | hostLength kind => s!"Invalid {kind.name} address"
  | onionCatAsIpv6 => "OnionCat address sent with IPv6 network id"
  | mappedAsIpv6 => "IPV4 wrapped address sent with IPv6 network id"
  | cjdnsRange => "Invalid CJDNS address"
  | noted text => text

end Malformation

/-- Why a complete frame is not a message. -/
inductive DecodeFault where
  /-- The payload ends inside a field. -/
  | truncated
  /-- A compact size is not in its shortest form. -/
  | nonMinimal
  | checksum (expected actual : Bytes)
  | malformed (cause : Malformation)
  deriving DecidableEq

namespace DecodeFault

def message : DecodeFault → String
  | truncated => "IO error"
  | nonMinimal => "non-minimal varint"
  | checksum expected actual =>
    s!"invalid checksum: expected {Numeral.hexText expected}, actual {Numeral.hexText actual}"
  | malformed cause => s!"parse failed: {cause.message}"

end DecodeFault

/-! ## Reading and writing frames -/

/-- Why reading or writing gave no message. -/
inductive TransportFault where
  | io (fault : IoFault)
  /-- The peer closed the stream, possibly inside a frame. -/
  | endOfStream
  /-- A complete frame that is not a message. -/
  | decode (fault : DecodeFault)
  /-- A complete frame with a command nobody here knows. -/
  | unknownCommand (command : String)
  /-- A complete frame of another network. -/
  | wrongMagic
  /-- A header announced more than `maxPayload` bytes. -/
  | oversized (length : Nat)
  deriving DecidableEq

namespace TransportFault

def message : TransportFault → String
  | io fault => s!"IO error: {fault.message}"
  | endOfStream => "Peer closed the stream"
  | decode fault => s!"Message deserialization error: {fault.message}"
  | unknownCommand command => s!"Unknown message '{command}'"
  | wrongMagic => "Network magic mismatch"
  | oversized length => s!"Payload of {length} bytes exceeds {maxPayload}"

/-- What lies behind the fault, if anything does. -/
def cause? : TransportFault → Option String
  | io fault => some fault.message
  | decode fault => some fault.message
  | _ => none

/-- Whether the reader stands on a frame boundary, so that the next read can go on. -/
def isRecoverable : TransportFault → Bool
  | decode _ | unknownCommand _ | wrongMagic => true
  | io _ | endOfStream | oversized _ => false

/-- Whether the peer hung up. -/
def isEndOfStream : TransportFault → Bool
  | endOfStream => true
  | io fault => fault.kind.isHangUp
  | _ => false

end TransportFault

end BitcoinCrawl

import BitcoinCrawl.Wire.Message

set_option autoImplicit false

/-! # Faults of a connection

Why a dial, a handshake or a session with a peer failed. -/

namespace BitcoinCrawl

/-- Why dealing with a peer failed. -/
inductive ConnectionFault where
  /-- The connection could not be set up. -/
  | socket (fault : IoFault)
  | transport (fault : TransportFault)
  /-- The peer answered with our own nonce. -/
  | selfDialed
  /-- The peer's protocol version is too low. -/
  | obsolete (version : UInt32)
  deriving DecidableEq

namespace ConnectionFault

def message : ConnectionFault → String
  | socket fault => s!"Socket error: {fault.message}"
  | transport fault => s!"Peer transport failed: {fault.message}"
  | selfDialed => "Dialed ourselves, version nonce matches our own"
  | obsolete version => s!"Peer protocol version {version} is too old"

/-- What lies behind the fault, if anything does. -/
def cause? : ConnectionFault → Option String
  | socket fault => some fault.message
  | transport fault => some fault.message
  | selfDialed | obsolete _ => none

/-- Whether the connection can go on reading. -/
def isRecoverable : ConnectionFault → Bool
  | transport fault => fault.isRecoverable
  | _ => false

/-- Whether the peer hung up. -/
def isEndOfStream : ConnectionFault → Bool
  | socket fault => fault.kind.isHangUp
  | transport fault => fault.isEndOfStream
  | _ => false

end ConnectionFault

/-- What receiving from a peer gave. -/
abbrev Received := Except ConnectionFault Message

end BitcoinCrawl

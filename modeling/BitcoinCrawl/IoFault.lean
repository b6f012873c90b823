set_option autoImplicit false

/-! # Input and output faults

The kinds of failure a byte stream or a file system reports, each with a standard wording that a custom
text may replace. -/

namespace BitcoinCrawl

/-- Kind of an input or output failure. -/
inductive IoKind where
  | unexpectedEof
  | connectionReset
  | connectionAborted
  | connectionRefused
  | brokenPipe
  | permissionDenied
  | notConnected
  | timedOut
  | interrupted
  | wouldBlock
  | invalidData
  | writeZero
  | other
  deriving DecidableEq, Inhabited

namespace IoKind

def message : IoKind → String
  | unexpectedEof => "unexpected end of file"
  | connectionReset => "connection reset"
  | connectionAborted => "connection aborted"
  | connectionRefused => "connection refused"
  | brokenPipe => "broken pipe"
  | permissionDenied => "permission denied"
  | notConnected => "not connected"
  | timedOut => "timed out"
  | interrupted => "operation interrupted"
  | wouldBlock => "operation would block"
  | invalidData => "invalid data"
  | writeZero => "write zero"
  | other => "other error"

/-- Whether a failure of this kind means that the far side hung up. -/
def isHangUp : IoKind → Bool
  | unexpectedEof | connectionReset | connectionAborted | brokenPipe => true
  | _ => false

end IoKind

/-- A failure, possibly with a text of its own. -/
structure IoFault where
  kind : IoKind
  text : Option String := none
  deriving DecidableEq

namespace IoFault

def message (fault : IoFault) : String := fault.text.getD fault.kind.message

end IoFault

end BitcoinCrawl

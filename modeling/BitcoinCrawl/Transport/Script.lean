import BitcoinCrawl.Text.Duration
import BitcoinCrawl.Wire.Frame

set_option autoImplicit false

/-! # Scripted peers

How the far side of a connection behaves, as data: a list of events that its bytes, pauses and failures
come from, and a rule for what happens to our writes. A script may send back a nonce that it learned from
us, so its bytes can depend on what it has heard. -/

namespace BitcoinCrawl

/-! ## What the peer sends -/

/-- Which of our messages a nonce is taken from. -/
inductive NonceSource where
  | version
  | ping
  deriving DecidableEq

/-- The nonces a peer has heard from us, zero before the first. -/
structure Heard where
  version : UInt64 := 0
  ping : UInt64 := 0
  deriving DecidableEq, Inhabited

namespace Heard

def nonce (heard : Heard) : NonceSource → UInt64
  | .version => heard.version
  | .ping => heard.ping

/-- What a peer knows after one more message from us. -/
def hear (heard : Heard) : Message → Heard
  | .version m => { heard with version := m.nonce }
  | .ping nonce => { heard with ping := nonce }
  | _ => heard

end Heard

/-- A nonce written over eight bytes of a payload: the one heard, plus a constant. -/
structure NonceEcho where
  offset : Nat
  source : NonceSource
  add : UInt64
  deriving DecidableEq

/-- A frame to send, under any magic and command. -/
structure FrameScript where
  magic : Bytes
  command : Bytes
  payload : Bytes
  echo : Option NonceEcho := none
  deriving DecidableEq

namespace FrameScript

/-- The payload as sent to someone whose nonces are known. -/
def payloadFor (frame : FrameScript) (heard : Heard) : Bytes :=
  match frame.echo with
  | none => frame.payload
  | some echo =>
    let nonce := heard.nonce echo.source + echo.add
    frame.payload.take echo.offset ++ Bytes.ofNatLE 8 nonce.toNat ++
      frame.payload.drop (echo.offset + 8)

def bytes (frame : FrameScript) (heard : Heard) : Bytes :=
  Frame.build frame.magic frame.command (frame.payloadFor heard)

end FrameScript

/-- One thing a reader of the stream meets. -/
inductive StreamEvent where
  | bytes (bytes : Bytes)
  | frame (frame : FrameScript)
  /-- One read that returns nothing, as at the end of the stream. -/
  | eof
  /-- One read that fails. -/
  | fault (kind : IoKind)
  /-- A pause, counted from when a read first reaches it. -/
  | delay (span : Millis)
  /-- One poll that finds the stream not ready. -/
  | notReady
  /-- Nothing, for ever. -/
  | hold
  deriving DecidableEq

/-- The events still to come. Behind the last one every read finds the end of the stream. -/
structure Script where
  events : List StreamEvent
  /-- When the pause at the front ends, if a read has reached it. -/
  until? : Option Nat := none
  deriving DecidableEq

/-! ## What happens to our writes -/

/-- When writes to the peer go wrong, counted in writes that were accepted. -/
inductive WriteFault where
  /-- Further writes fail after so many. -/
  | failAfter (writes : Nat) (kind : IoKind)
  /-- The flush behind a write fails once more than so many writes were accepted. -/
  | flushFailAfter (writes : Nat) (kind : IoKind)
  /-- Further writes accept no byte. -/
  | zeroAfter (writes : Nat)
  /-- Further writes never finish. -/
  | stallAfter (writes : Nat)
  deriving DecidableEq

/-- What happens to one write. -/
inductive WriteOutcome where
  | written
  /-- Nothing was written. -/
  | refused (kind : IoKind)
  /-- Everything was written, but the flush failed. -/
  | unflushed (kind : IoKind)
  | stalled
  deriving DecidableEq

namespace WriteFault

/-- What happens to a write after `done` accepted ones. -/
def outcome (done : Nat) : Option WriteFault → WriteOutcome
  | none => .written
  | some (failAfter n kind) => if n ≤ done then .refused kind else .written
  | some (flushFailAfter n kind) => if n ≤ done then .unflushed kind else .written
  | some (zeroAfter n) => if n ≤ done then .refused .writeZero else .written
  | some (stallAfter n) => if n ≤ done then .stalled else .written

end WriteFault

end BitcoinCrawl

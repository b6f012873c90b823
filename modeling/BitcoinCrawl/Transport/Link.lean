import BitcoinCrawl.Poll
import BitcoinCrawl.Transport.Reader
import BitcoinCrawl.Transport.Script

set_option autoImplicit false

/-! # Links

A link is a connection to a scripted peer: the frame reader and what is left of the peer's script in one
direction, the frames written so far in the other. Everything happens at a given instant; what is not
ready says when it could be. -/

namespace BitcoinCrawl

/-! ## Reading a script -/

/-- A reader after it met some events, the events left over, and what came of it. -/
structure ScriptRead where
  reader : Reader
  script : Script
  outcome : Poll Reader.Result

namespace Script

/-- Continue the current frame with the events of a script until there is a result or nothing is ready.
    The bytes behind a result stay at the front of the script. -/
def read (magic : Magic) (heard : Heard) (now : Nat) (reader : Reader) (pauseEnd : Option Nat) :
    List StreamEvent → ScriptRead
  | [] => ⟨reader, ⟨[], none⟩, .ready (.error .endOfStream)⟩
  | .bytes chunk :: rest =>
    match reader.absorb magic chunk with
    | .all reader => read magic heard now reader none rest
    | .result r left => ⟨.start, ⟨.bytes left :: rest, none⟩, .ready r⟩
  | .frame frame :: rest =>
    match reader.absorb magic (frame.bytes heard) with
    | .all reader => read magic heard now reader none rest
    | .result r left => ⟨.start, ⟨.bytes left :: rest, none⟩, .ready r⟩
  | .eof :: rest => ⟨reader, ⟨rest, none⟩, .ready (.error .endOfStream)⟩
  | .fault kind :: rest => ⟨reader, ⟨rest, none⟩, .ready (.error (.io ⟨kind, none⟩))⟩
  | .delay span :: rest =>
    let wake := pauseEnd.getD (now + span)
    if wake ≤ now then read magic heard now reader none rest
    else ⟨reader, ⟨.delay span :: rest, some wake⟩, .waiting (some wake)⟩
  | .notReady :: rest => ⟨reader, ⟨rest, none⟩, .waiting (some now)⟩
  | .hold :: rest => ⟨reader, ⟨.hold :: rest, none⟩, .waiting none⟩

/-- Number of events and of the bytes they carry: a bound on how often a script can be asked. -/
def weight (events : List StreamEvent) : Nat :=
  events.foldl (fun n event => n + 1 + size event) 0
where
  size : StreamEvent → Nat
    | .bytes bytes => bytes.length
    | .frame frame => Frame.headerSize + frame.payload.length
    | _ => 0

end Script

/-! ## Links -/

/-- A connection to a scripted peer. -/
structure Link where
  magic : Magic
  script : Script
  reader : Reader := .start
  writeFault : Option WriteFault := none
  heard : Heard := {}
  /-- Frames written to the peer. -/
  sent : Array Bytes := #[]

namespace Link

/-- The next message from the peer. A read that is not ready keeps the bytes it took for the next one. -/
def receive (now : Nat) (link : Link) : Link × Poll Reader.Result :=
  let r := Script.read link.magic link.heard now link.reader link.script.until? link.script.events
  ({ link with reader := r.reader, script := r.script }, r.outcome)

/-- Write and flush the frame of a message. -/
def send (m : Message) (link : Link) : Link × Poll (Except TransportFault Unit) :=
  let frame := Frame.encode link.magic m
  let wrote := { link with sent := link.sent.push frame, heard := link.heard.hear m }
  match WriteFault.outcome link.sent.size link.writeFault with
  | .written => (wrote, .ready (.ok ()))
  | .refused kind => (link, .ready (.error (.io ⟨kind, none⟩)))
  | .unflushed kind => (wrote, .ready (.error (.io ⟨kind, none⟩)))
  | .stalled => (link, .waiting none)

end Link

end BitcoinCrawl

import BitcoinCrawl.Wire.Message
import BitcoinCrawl.Wire.Sha256

set_option autoImplicit false

/-! # Frames

A message travels as a header of 24 bytes and a payload: four bytes of network magic, twelve of command
name padded with zeros, the payload's length and the first four bytes of its double hash. -/

namespace BitcoinCrawl

/-- The four bytes that open the frames of a network. -/
abbrev Magic := Octets 4

namespace Frame

/-- Number of bytes in a header. -/
def headerSize : Nat := 24

/-- The four bytes that guard a payload. -/
def checksum (payload : Bytes) : Bytes := (Sha256.hashTwice payload).take 4

/-! ## Writing -/

/-- A command name in its field of twelve bytes. -/
def commandField (command : Bytes) : Bytes := (command ++ List.replicate 12 0).take 12

/-- The frame of a payload under any command. -/
def build (magic : Bytes) (command : Bytes) (payload : Bytes) : Bytes :=
  magic ++ commandField command ++ Bytes.ofNatLE 4 payload.length ++ checksum payload ++ payload

/-- The frame of a message. -/
def encode (magic : Magic) (m : Message) : Bytes :=
  build magic.bytes (Bytes.ofText m.command) m.encode

/-! ## The fields of a frame -/

def magicOf (frame : Bytes) : Bytes := frame.take 4

/-- The command without the zeros behind it. Zeros inside belong to it. -/
def commandOf (frame : Bytes) : Bytes :=
  (((frame.drop 4).take 12).reverse.dropWhile (· == 0)).reverse

/-- The payload length a header announces. -/
def lengthOf (header : Bytes) : Nat := Bytes.toNatLE ((header.drop 16).take 4)

def checksumOf (frame : Bytes) : Bytes := (frame.drop 20).take 4

def payloadOf (frame : Bytes) : Bytes := frame.drop headerSize

/-! ## Reading -/

/-- What a complete frame holds. -/
inductive Content where
  | known (m : Message)
  | unknown (command : String)

/-- The content of a complete frame of any network. The command must be ASCII, then the checksum must
    fit, then the payload must follow the layout of its command to its last byte. -/
def content (frame : Bytes) : Except DecodeFault Content :=
  let command := commandOf frame
  let payload := payloadOf frame
  let expected := checksum payload
  let actual := checksumOf frame
  if command.any (128 ≤ ·) then .error (.malformed .commandNotAscii)
  else if expected ≠ actual then .error (.checksum expected actual)
  else
    let name := String.ofList (command.map fun b => Char.ofUInt8 b)
    match Decoder.payload? name with
    | none => .ok (.unknown name)
    | some decoder =>
      match decoder payload with
      | .error fault => .error fault
      | .ok (m, []) => .ok (.known m)
      | .ok (_, _ :: _) => .error (.malformed .leftover)

/-- The message in a complete frame of the network with the given magic. -/
def decode (magic : Magic) (frame : Bytes) : Except TransportFault Message :=
  match content frame with
  | .error fault => .error (.decode fault)
  | .ok content =>
    if magicOf frame ≠ magic.bytes then .error .wrongMagic
    else match content with
      | .known m => .ok m
      | .unknown command => .error (.unknownCommand command)

end Frame

end BitcoinCrawl

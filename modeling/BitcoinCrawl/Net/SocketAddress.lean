import BitcoinCrawl.Net.Ip
import BitcoinCrawl.Text.Numeral

set_option autoImplicit false

/-! # Socket addresses and their text

A socket address is a host address and a port; an IPv6 one may also name a scope. Its text is
`a.b.c.d:port` or `[groups]:port`. Printing writes IPv6 in lower case without leading zeros and replaces
the longest run of at least two zero groups (the first of equals) by `::`. Reading accepts every
spelling of the standard: either case, up to four digits a group, one `::` for at least one group, a
dotted quad in place of the last two groups, and a decimal scope after `%`. -/

namespace BitcoinCrawl

/-- A host address with a port. The flow label of an IPv6 one has no part here: no text gives it, and an endpoint
    is the same whatever it is. -/
inductive SocketAddress where
  | v4 (ip : Ipv4) (port : UInt16)
  | v6 (ip : Ipv6) (port : UInt16) (scope : UInt32)
  deriving DecidableEq, Inhabited

namespace SocketAddress

def ip : SocketAddress → IpAddress
  | v4 ip _ => .v4 ip
  | v6 ip _ _ => .v6 ip

def port : SocketAddress → UInt16
  | v4 _ port => port
  | v6 _ port _ => port

/-- A socket address without a scope. -/
def ofIp (ip : IpAddress) (port : UInt16) : SocketAddress :=
  match ip with
  | .v4 ip => v4 ip port
  | .v6 ip => v6 ip port 0

end SocketAddress

/-! ## Printing -/

/-- Decimal octets with points between them. -/
def Ipv4.chars (ip : Ipv4) : List Char :=
  ['.'].intercalate (ip.octets.map fun o => Numeral.decimal o.toNat)

namespace Ipv6

/-- How many groups at the front are zero. -/
def zerosAtFront : List UInt16 → Nat
  | [] => 0
  | g :: rest => if g = 0 then zerosAtFront rest + 1 else 0

/-- Start and length of the longest run of zero groups, the first of equals. -/
def longestZeroRun : List UInt16 → Nat × Nat
  | [] => (0, 0)
  | g :: rest =>
    let here := zerosAtFront (g :: rest)
    let (start, length) := longestZeroRun rest
    if here < length then (start + 1, length) else (0, here)

/-- Hexadecimal groups with colons between them. -/
def groupChars (groups : List UInt16) : List Char :=
  [':'].intercalate (groups.map fun g => Numeral.hex g.toNat)

/-- The groups with the longest run of zeros left out. A spelling of an IPv4 address ends in a
    dotted quad. -/
def chars (ip : Ipv6) : List Char :=
  if ip.isMapped then "::ffff:".toList ++ ip.lastFour.chars
  else
    let (start, length) := longestZeroRun ip.groups
    if 2 ≤ length then
      groupChars (ip.groups.take start) ++ [':', ':'] ++ groupChars (ip.groups.drop (start + length))
    else groupChars ip.groups

end Ipv6

namespace SocketAddress

/-- Text of a socket address as characters. -/
def chars : SocketAddress → List Char
  | v4 ip port => ip.chars ++ ':' :: Numeral.decimal port.toNat
  | v6 ip port scope =>
    let zone := if scope = 0 then [] else '%' :: Numeral.decimal scope.toNat
    '[' :: ip.chars ++ zone ++ "]:".toList ++ Numeral.decimal port.toNat

instance : ToString SocketAddress := ⟨fun a => String.ofList a.chars⟩

end SocketAddress

/-! ## Reading -/

/-- Read one given character. -/
def expectChar (c : Char) : List Char → Option (List Char)
  | [] => none
  | x :: rest => if x = c then some rest else none

/-- Read an octet: at most three decimal digits, no leading zero, at most 255. -/
def readOctet (text : List Char) : Option (UInt8 × List Char) := do
  let (n, rest) ← Numeral.read
    { base := 10, width := some 3, leadingZeros := false, max := 255 } text
  return (UInt8.ofNat n, rest)

/-- Read a point and then an octet. -/
def readNextOctet (text : List Char) : Option (UInt8 × List Char) := do
  readOctet (← expectChar '.' text)

/-- Read a dotted quad. -/
def Ipv4.read (text : List Char) : Option (Ipv4 × List Char) := do
  let (a, text) ← readOctet text
  let (b, text) ← readNextOctet text
  let (c, text) ← readNextOctet text
  let (d, text) ← readNextOctet text
  return (⟨a, b, c, d⟩, text)

namespace Ipv6

/-- Read one group of one to four hexadecimal digits. -/
def readGroup (text : List Char) : Option (UInt16 × List Char) := do
  let (n, rest) ← Numeral.read { base := 16, width := some 4, max := 0xffff } text
  return (UInt16.ofNat n, rest)

/-- The text behind the colon that separates a group from the one before it. -/
def skipSeparator (isFirst : Bool) (text : List Char) : Option (List Char) :=
  if isFirst then some text else expectChar ':' text

/-- The outcome of reading groups: the groups, whether they end in a dotted quad, and the rest. -/
structure GroupRun where
  groups : List UInt16
  endsInQuad : Bool
  rest : List Char

/-- Read up to `room` groups separated by colons. Wherever two groups have room a dotted quad may stand
    for them, and ends the run. -/
def readGroups (room : Nat) (isFirst : Bool) (text : List Char) : GroupRun :=
  match room with
  | 0 => ⟨[], false, text⟩
  | room + 1 =>
    match skipSeparator isFirst text with
    | none => ⟨[], false, text⟩
    | some behind =>
      let quad := if room = 0 then none else Ipv4.read behind
      match quad with
      | some (ip, rest) => ⟨[groupOf ip.a ip.b, groupOf ip.c ip.d], true, rest⟩
      | none =>
        match readGroup behind with
        | some (g, rest) =>
          let run := readGroups room false rest
          ⟨g :: run.groups, run.endsInQuad, run.rest⟩
        | none => ⟨[], false, text⟩

/-- Read an IPv6 address: eight groups, or fewer on both sides of one `::`. -/
def read (text : List Char) : Option (Ipv6 × List Char) := do
  let front := readGroups 8 true text
  if front.groups.length = 8 then
    return (← ofGroups? front.groups, front.rest)
  if front.endsInQuad then none
  let behind ← expectChar ':' (← expectChar ':' front.rest)
  let back := readGroups (7 - front.groups.length) true behind
  let zeros := List.replicate (8 - front.groups.length - back.groups.length) 0
  return (← ofGroups? (front.groups ++ zeros ++ back.groups), back.rest)

/-- Read an optional scope, `%` and a decimal number. Without one the text is left alone. -/
def readScope (text : List Char) : UInt32 × List Char :=
  let scope := do
    Numeral.read { base := 10, max := 0xffffffff } (← expectChar '%' text)
  match scope with
  | some (n, rest) => (UInt32.ofNat n, rest)
  | none => (0, text)

end Ipv6

namespace SocketAddress

/-- Read a colon and a port. -/
def readPort (text : List Char) : Option (UInt16 × List Char) := do
  let (n, rest) ← Numeral.read { base := 10, max := 0xffff } (← expectChar ':' text)
  return (UInt16.ofNat n, rest)

/-- Read an IPv4 address and a port. -/
def readV4 (text : List Char) : Option (SocketAddress × List Char) := do
  let (ip, text) ← Ipv4.read text
  let (port, text) ← readPort text
  return (v4 ip port, text)

/-- Read a bracketed IPv6 address and a port. -/
def readV6 (text : List Char) : Option (SocketAddress × List Char) := do
  let (ip, text) ← Ipv6.read (← expectChar '[' text)
  let (scope, text) := Ipv6.readScope text
  let (port, text) ← readPort (← expectChar ']' text)
  return (v6 ip port scope, text)

/-- The socket address a whole text spells. -/
def parse? (text : List Char) : Option SocketAddress := do
  let (address, rest) ← (readV4 text).or (readV6 text)
  if rest.isEmpty then return address else none

end SocketAddress

end BitcoinCrawl

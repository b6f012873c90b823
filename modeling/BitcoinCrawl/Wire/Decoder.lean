import BitcoinCrawl.Wire.Fault

set_option autoImplicit false

/-! # Decoders

A decoder takes a value off the front of a byte string and hands back the rest, or says which rule the
bytes break. Faults come in reading order. -/

namespace BitcoinCrawl

/-- Read an `α` from the front of a byte string. -/
abbrev Decoder (α : Type) := StateT Bytes (Except DecodeFault) α

namespace Decoder

variable {α : Type}

/-- Refuse the bytes for breaking a rule of their format. -/
def refuse (cause : Malformation) : Decoder α := throw (.malformed cause)

/-- The next byte. -/
def byte : Decoder UInt8
  | [] => .error .truncated
  | b :: rest => .ok (b, rest)

/-- The next `n` bytes. -/
def block (n : Nat) : Decoder (Octets n) := fun bytes =>
  let front := bytes.take n
  if h : front.length = n then .ok (⟨front, h⟩, bytes.drop n) else .error .truncated

/-- The next `n` bytes as a number, least significant first. -/
def number (n : Nat) : Decoder Nat := do
  return (← block n).bytes.toNatLE

def word32 : Decoder UInt32 := do return UInt32.ofNat (← number 4)

def word64 : Decoder UInt64 := do return UInt64.ofNat (← number 8)

/-- A port, most significant byte first. -/
def port : Decoder UInt16 := do
  let high ← byte
  let low ← byte
  return (high.toUInt16 <<< 8) ||| low.toUInt16

/-- `n` items in a row. -/
def many (item : Decoder α) (n : Nat) : Decoder (List α) := go n #[]
where
  /-- Read `n` more items behind the ones already read. -/
  go : Nat → Array α → Bytes → Except DecodeFault (List α × Bytes)
    | 0, items, bytes => .ok (items.toList, bytes)
    | n + 1, items, bytes =>
      match item bytes with
      | .ok (a, rest) => go n (items.push a) rest
      | .error fault => .error fault

/-! ## Compact sizes -/

/-- A number in the variable-width form: one byte below `fd`, or a marker and two, four or eight bytes.
    Only the shortest form of a number is accepted. -/
def compactSize : Decoder UInt64 := do
  match ← byte with
  | 0xff => wide 8 0x100000000
  | 0xfe => wide 4 0x10000
  | 0xfd => wide 2 0xfd
  | small => return small.toUInt64
where
  /-- A number of the given width that needs it. -/
  wide (width least : Nat) : Decoder UInt64 := do
    let n ← number width
    if n < least then throw .nonMinimal
    return UInt64.ofNat n

/-- As many items as a compact size says. -/
def list (item : Decoder α) : Decoder (List α) := do
  many item (← compactSize).toNat

/-- As many bytes as a compact size says. -/
def bytes : Decoder Bytes := do
  return (← block (← compactSize).toNat).bytes

/-- A text with its length in front. -/
def text : Decoder String := do
  match Bytes.toText? (← bytes) with
  | some text => return text
  | none => refuse .notUtf8

end Decoder

/-! ## Encoding -/

namespace Bytes

/-- The shortest compact size of a number. -/
def compactSize (n : UInt64) : Bytes :=
  if n < 0xfd then [n.toUInt8]
  else if n < 0x10000 then 0xfd :: ofNatLE 2 n.toNat
  else if n < 0x100000000 then 0xfe :: ofNatLE 4 n.toNat
  else 0xff :: ofNatLE 8 n.toNat

/-- Items with their number in front. -/
def counted {α : Type} (item : α → Bytes) (items : List α) : Bytes :=
  compactSize (UInt64.ofNat items.length) ++ items.flatMap item

/-- Bytes with their number in front. -/
def sized (bytes : Bytes) : Bytes := compactSize (UInt64.ofNat bytes.length) ++ bytes

end Bytes

end BitcoinCrawl

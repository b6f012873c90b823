set_option autoImplicit false

/-! # Bytes

Byte strings as lists, blocks of a fixed size, and numbers of a fixed width in either byte order. -/

namespace BitcoinCrawl

/-- A byte string. -/
abbrev Bytes := List UInt8

/-- A block of exactly `n` bytes. -/
structure Octets (n : Nat) where
  bytes : Bytes
  length_eq : bytes.length = n
  deriving DecidableEq

namespace Octets

/-- The block of these bytes, if their number is right. -/
def ofBytes? (n : Nat) (bytes : Bytes) : Option (Octets n) :=
  if h : bytes.length = n then some ⟨bytes, h⟩ else none

/-- A block of zeros. -/
def zero (n : Nat) : Octets n := ⟨List.replicate n 0, List.length_replicate⟩

instance (n : Nat) : Inhabited (Octets n) := ⟨zero n⟩

end Octets

namespace Bytes

/-- The number of a byte string, least significant byte first. -/
def toNatLE : Bytes → Nat
  | [] => 0
  | b :: rest => b.toNat + 256 * toNatLE rest

/-- The lowest `width` bytes of a number, least significant first. -/
def ofNatLE : Nat → Nat → Bytes
  | 0, _ => []
  | width + 1, n => UInt8.ofNat n :: ofNatLE width (n / 256)

theorem length_ofNatLE (width n : Nat) : (ofNatLE width n).length = width := by
  induction width generalizing n with
  | zero => rfl
  | succ width ih => simp [ofNatLE, ih]

/-- The two bytes of a port, most significant first. -/
def ofPort (port : UInt16) : Bytes := [(port >>> 8).toUInt8, port.toUInt8]

/-- The UTF-8 bytes of a text. -/
def ofText (text : String) : Bytes := text.toUTF8.data.toList

/-- The text whose UTF-8 bytes these are, if they are any. -/
def toText? (bytes : Bytes) : Option String := String.fromUTF8? ⟨bytes.toArray⟩

end Bytes

end BitcoinCrawl

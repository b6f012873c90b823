set_option autoImplicit false

/-! # Numerals

Positional numerals in any base up to sixteen, as they occur in endpoints, node files and hexadecimal
dumps. A numeral is read from the front of a character list and the characters behind it are handed
back, so that readers of larger texts can be chained. -/

namespace BitcoinCrawl.Numeral

/-! ## Digits -/

/-- The value of `c` as a digit in any case, if it is one in `base`. -/
def digit? (base : Nat) (c : Char) : Option Nat :=
  let value :=
    if '0' ≤ c ∧ c ≤ '9' then some (c.toNat - '0'.toNat)
    else if 'a' ≤ c ∧ c ≤ 'f' then some (c.toNat - 'a'.toNat + 10)
    else if 'A' ≤ c ∧ c ≤ 'F' then some (c.toNat - 'A'.toNat + 10)
    else none
  value.filter (· < base)

/-- The values of the longest run of digits at the front, and what follows that run. -/
def digits (base : Nat) : List Char → List Nat × List Char
  | [] => ([], [])
  | c :: rest =>
    match digit? base c with
    | some d => let (ds, tail) := digits base rest; (d :: ds, tail)
    | none => ([], c :: rest)

/-- The number a run of digits stands for, most significant digit first. -/
def value (base : Nat) (ds : List Nat) : Nat :=
  ds.foldl (fun n d => n * base + d) 0

/-! ## Reading -/

/-- What a numeral may look like at some place of a text. -/
structure Form where
  base : Nat
  /-- Most digits allowed, if there is a limit. -/
  width : Option Nat := none
  /-- Whether a numeral of several digits may start with zero. -/
  leadingZeros : Bool := true
  /-- Largest value allowed. -/
  max : Nat

/-- Read one numeral of the given form. All digits at the front belong to it, so a numeral that is too
    long or too large is refused and never cut short. -/
def read (form : Form) (text : List Char) : Option (Nat × List Char) :=
  let (ds, rest) := digits form.base text
  let tooLong := match form.width with
    | some w => w < ds.length
    | none => false
  let padded := !form.leadingZeros && ds.head? == some 0 && 1 < ds.length
  let n := value form.base ds
  if ds.isEmpty || tooLong || padded || form.max < n then none else some (n, rest)

/-! ## Printing -/

/-- Decimal digits without leading zeros. -/
def decimal (n : Nat) : List Char := Nat.toDigits 10 n

/-- Lower case hexadecimal digits without leading zeros. -/
def hex (n : Nat) : List Char := Nat.toDigits 16 n

/-- Two lower case hexadecimal digits. -/
def hexByte (b : UInt8) : List Char :=
  [Nat.digitChar (b.toNat / 16), Nat.digitChar (b.toNat % 16)]

/-- Bytes as lower case hexadecimal text. -/
def hexText (bytes : List UInt8) : String :=
  String.ofList (bytes.foldl (fun acc b => acc ++ (hexByte b).toArray) (#[] : Array Char)).toList

/-- Read pairs of hexadecimal digits up to the end of the text. -/
def hexBytes? (text : List Char) : Option (List UInt8) :=
  go text #[]
where
  go : List Char → Array UInt8 → Option (List UInt8)
    | [], acc => some acc.toList
    | h :: l :: rest, acc =>
      match digit? 16 h, digit? 16 l with
      | some hi, some lo => go rest (acc.push (UInt8.ofNat (hi * 16 + lo)))
      | _, _ => none
    | [_], _ => none

end BitcoinCrawl.Numeral

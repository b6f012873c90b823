import BitcoinCrawl.Text.Numeral

set_option autoImplicit false

/-! # JSON tokens

Blanks, words, strings and numbers of JSON. A text is refused for the first fault met from left to right:
it ends too early, it is not JSON, or a value is of another kind than the one that is due. -/

namespace BitcoinCrawl.NodeFile

/-- Why a text is not a node file. -/
inductive Fault where
  /-- The text ends inside a value. -/
  | endOfText
  /-- A value of the wrong kind or range, or a field that is missing or repeated. -/
  | mismatch
  /-- Not JSON. -/
  | malformed
  deriving DecidableEq

/-- Read an `α` from the front of a text. -/
abbrev Scan (α : Type) := StateT (List Char) (Except Fault) α

namespace Scan

/-- Skip spaces, tabs and line ends. -/
def blank : Scan Unit := modify fun text =>
  text.dropWhile fun c => c == ' ' || c == '\n' || c == '\t' || c == '\r'

/-- The next character that is no blank, left in place. -/
def peek : Scan Char := do
  blank
  match ← get with
  | [] => throw .endOfText
  | c :: _ => return c

/-- Pass over the next character. -/
def skip : Scan Unit := modify List.tail

/-- Read the given characters. -/
def word : List Char → Scan Unit
  | [] => return
  | c :: rest => do
    match ← get with
    | [] => throw .endOfText
    | d :: text =>
      if d ≠ c then throw .malformed
      set text
      word rest

end Scan

/-! ## Strings -/

/-- What a string reader has seen of the character it is in. A leading surrogate waits for its trailing
    one. -/
inductive StringMode where
  | plain
  /-- Behind a backslash. -/
  | escape
  /-- Inside the four digits of a code unit. -/
  | unit (digits value : Nat) (leading : Option Nat)
  /-- Behind a leading surrogate, before a backslash. -/
  | surrogate (leading : Nat)
  /-- Behind a leading surrogate and a backslash. -/
  | surrogateEscape (leading : Nat)

namespace StringMode

/-- The character of an escape of one letter. -/
def letter? (c : Char) : Option Char :=
  match c with
  | '"' => some '"'
  | '\\' => some '\\'
  | '/' => some '/'
  | 'b' => some '\x08'
  | 'f' => some '\x0c'
  | 'n' => some '\n'
  | 'r' => some '\r'
  | 't' => some '\t'
  | _ => none

/-- Number of bytes of a text. -/
def byteSize (text : List Char) : Nat := text.foldl (fun n c => n + c.utf8Size) 0

/-- What follows the four digits of a code unit: a mode, and a character if one is complete. A reader
    that is not strict lets lone surrogates pass. -/
def onUnit (strict : Bool) (value : Nat) : Option Nat → Except Fault (StringMode × Option Char)
  | none =>
    if strict && 0xdc00 ≤ value && value ≤ 0xdfff then .error .malformed
    else if strict && 0xd800 ≤ value && value ≤ 0xdbff then .ok (surrogate value, none)
    else .ok (plain, some (Char.ofNat value))
  | some leading =>
    if value < 0xdc00 || 0xdfff < value then .error .malformed
    else .ok (plain, some (Char.ofNat ((leading - 0xd800) * 0x400 + (value - 0xdc00) + 0x10000)))

/-- Take one character inside a string, except a closing quote. `rest` starts with that character: four
    digits are due as a whole, so a text too short for them ends too early whatever it holds. -/
def take (strict : Bool) (mode : StringMode) (c : Char) (rest : List Char) :
    Except Fault (StringMode × Option Char) :=
  match mode with
  | plain =>
    if c = '\\' then .ok (escape, none)
    else if c.toNat < 0x20 then .error .malformed
    else .ok (plain, some c)
  | escape =>
    if c = 'u' then .ok (unit 0 0 none, none)
    else match letter? c with
      | some d => .ok (plain, some d)
      | none => .error .malformed
  | unit digits value leading =>
    match Numeral.digit? 16 c with
    | none => .error (if digits + byteSize rest < 4 then .endOfText else .malformed)
    | some d =>
      if digits = 3 then onUnit strict (value * 16 + d) leading
      else .ok (unit (digits + 1) (value * 16 + d) leading, none)
  | surrogate leading =>
    if c = '\\' then .ok (surrogateEscape leading, none) else .error .malformed
  | surrogateEscape leading =>
    if c = 'u' then .ok (unit 0 0 (some leading), none) else .error .malformed

end StringMode

/-- Read the inside of a string up to and with its closing quote. -/
def stringBody (strict : Bool) (mode : StringMode) (acc : Array Char) :
    List Char → Except Fault (String × List Char)
  | [] => .error .endOfText
  | c :: rest =>
    match mode, c with
    | .plain, '"' => .ok (String.ofList acc.toList, rest)
    | mode, c =>
      match mode.take strict c (c :: rest) with
      | .error fault => .error fault
      | .ok (mode, some d) => stringBody strict mode (acc.push d) rest
      | .ok (mode, none) => stringBody strict mode acc rest

namespace Scan

/-- Read a string behind its opening quote. -/
def string : Scan String := fun text => stringBody true .plain #[] text

/-- Pass over a string behind its opening quote, without asking what its code units mean. -/
def skipString : Scan Unit := fun text =>
  match stringBody false .plain #[] text with
  | .ok (_, rest) => .ok ((), rest)
  | .error fault => .error fault

end Scan

/-! ## Numbers -/

/-- A number as far as anyone here cares. -/
inductive Number where
  | natural (value : Nat)
  | negative
  | real

/-- Largest integer that is kept exactly. -/
def maxWord : Nat := Nat.pow 2 64 - 1

/-- Round to 53 significant bits, a half to the even neighbour. -/
def roundDouble (n : Nat) : Nat :=
  let shift := Nat.log2 n + 1 - 53
  let unit := Nat.pow 2 shift
  let low := n % unit
  let floor := n / unit
  if 2 * low < unit || (2 * low = unit && floor % 2 = 0) then floor * unit else (floor + 1) * unit

/-- Whether a number in double precision is too large, given its first digits as an integer and the power
    of ten behind them. -/
def isOutOfRange (significand : Nat) (exponent : Int) : Bool :=
  if significand = 0 || exponent < 0 then false
  else if 308 < exponent then true
  else Nat.pow 2 1024 ≤ roundDouble (roundDouble significand * roundDouble (Nat.pow 10 exponent.toNat))

namespace Number

/-- Digits at the front, and the rest. -/
def digits (text : List Char) : List Nat × List Char := Numeral.digits 10 text

/-- The number of a significand and a power of ten. -/
def scaled (significand : Nat) (exponent : Int) (rest : List Char) :
    Except Fault (Number × List Char) :=
  if isOutOfRange significand exponent then .error .malformed else .ok (real, rest)

/-- Largest exponent that is worked out. A larger one makes every number but zero too large, or nothing
    at all if it is negative. -/
def maxExponent : Nat := Nat.pow 2 31 - 1

/-- Read an exponent behind its letter. -/
def exponent (significand : Nat) (start : Int) (text : List Char) :
    Except Fault (Number × List Char) :=
  let (isNegative, behind) := match text with
    | '+' :: rest => (false, rest)
    | '-' :: rest => (true, rest)
    | text => (false, text)
  match digits behind with
  | ([], []) => .error .endOfText
  | ([], _ :: _) => .error .malformed
  | (ds, rest) =>
    let e := Numeral.value 10 ds
    if maxExponent < e then
      if significand ≠ 0 && !isNegative then .error .malformed else .ok (real, rest)
    else scaled significand (if isNegative then start - e else start + e) rest

/-- What follows the digits behind a point. -/
def afterFraction (significand : Nat) (start : Int) (text : List Char) :
    Except Fault (Number × List Char) :=
  match text with
  | 'e' :: rest | 'E' :: rest => exponent significand start rest
  | text => scaled significand start text

/-- Add digits to a significand as long as it fits into a word. The number says how many were added. -/
def extend : Nat → Nat → List Nat → Nat × Nat × List Nat
  | significand, added, [] => (significand, added, [])
  | significand, added, d :: ds =>
    if maxWord < significand * 10 + d then (significand, added, d :: ds)
    else extend (significand * 10 + d) (added + 1) ds

/-- Read digits behind a point. There has to be one. -/
def fraction (significand : Nat) (start : Int) (text : List Char) :
    Except Fault (Number × List Char) :=
  match digits text with
  | ([], []) => .error .endOfText
  | ([], _ :: _) => .error .malformed
  | (ds, rest) =>
    let (significand, added, _) := extend significand 0 ds
    afterFraction significand (start - added) rest

/-- What follows the digits of the whole part; `dropped` of them did not fit into the significand. -/
def afterWhole (isNegative : Bool) (significand dropped : Nat) (text : List Char) :
    Except Fault (Number × List Char) :=
  match text with
  | '.' :: rest => fraction significand dropped rest
  | 'e' :: rest | 'E' :: rest => exponent significand dropped rest
  | text =>
    if 0 < dropped then scaled significand dropped text
    else if isNegative then
      .ok (if significand = 0 || Nat.pow 2 63 < significand then real else Number.negative, text)
    else .ok (natural significand, text)

/-- Read a number behind its sign. -/
def unsigned (isNegative : Bool) (text : List Char) : Except Fault (Number × List Char) :=
  match digits text with
  | ([], []) => .error .endOfText
  | ([], _ :: _) => .error .malformed
  | (0 :: _ :: _, _) => .error .malformed
  | (ds, rest) =>
    let (significand, _, dropped) := extend 0 0 ds
    afterWhole isNegative significand dropped.length rest

end Number

namespace Scan

/-- Read a number. -/
def number : Scan Number := fun text =>
  match text with
  | '-' :: rest => Number.unsigned true rest
  | text => Number.unsigned false text

/-- Pass over digits. -/
def skipDigits : Scan (List Nat) := fun text => .ok (Numeral.digits 10 text)

/-- Pass over a number. Nothing is asked of its size, and it is not JSON if it ends too early. -/
def skipNumber : Scan Unit := do
  match ← get with
  | '-' :: rest => set rest
  | _ => pure ()
  match ← skipDigits with
  | [] => throw .malformed
  | 0 :: _ :: _ => throw .malformed
  | _ => pure ()
  match ← get with
  | '.' :: rest =>
    set rest
    if (← skipDigits).isEmpty then throw .malformed
  | _ => pure ()
  match ← get with
  | 'e' :: rest | 'E' :: rest =>
    match rest with
    | '+' :: rest | '-' :: rest => set rest
    | rest => set rest
    if (← skipDigits).isEmpty then throw .malformed
  | _ => pure ()

/-- The fault of a value of another kind than the one that is due. What can be told apart from JSON only
    by reading on is read first. -/
def wrongKind {α : Type} : Scan α := do
  match ← peek with
  | 'n' => word "null".toList; throw .mismatch
  | 't' => word "true".toList; throw .mismatch
  | 'f' => word "false".toList; throw .mismatch
  | '"' => skip; let _ ← string; throw .mismatch
  | '[' => throw .mismatch
  | '\x7b' => throw .mismatch
  | c =>
    if c = '-' || c.isDigit then
      let _ ← number
    else throw .malformed
    throw .mismatch

end Scan

/-! ## Values nobody asks for -/

/-- What encloses a value. -/
inductive Bracket where
  | list
  | object
  deriving DecidableEq

namespace Bracket

def closing : Bracket → Char
  | list => ']'
  | object => '\x7d'

end Bracket

/-- Where a reader of any value is. -/
inductive SkipMode where
  /-- A value is due. -/
  | value
  /-- Behind an opening bracket. -/
  | opened
  /-- Behind a value. -/
  | behind

namespace Scan

/-- A key and its colon, before a value in an object. -/
def skipKey : Scan Unit := do
  match ← peek with
  | '"' =>
    skip
    skipString
    match ← peek with
    | ':' => skip
    | _ => throw .malformed
  | _ => throw .malformed

/-- The key of an object, nothing in a list. -/
def skipLabel : Bracket → Scan Unit
  | .object => skipKey
  | .list => return

/-- Pass over a value that is no list and no object, starting with the given character. -/
def skipScalar (c : Char) : Scan Unit :=
  match c with
  | 'n' => word "null".toList
  | 't' => word "true".toList
  | 'f' => word "false".toList
  | '"' => do skip; skipString
  | c => if c = '-' || c.isDigit then skipNumber else throw .malformed

/-- Pass over a value of any kind and depth. `outer` are the brackets it stands in, innermost first; all
    of them are passed over. -/
def skipValue : Nat → SkipMode → List Bracket → Scan Unit
  | 0, _, _ => throw .malformed
  | fuel + 1, .value, outer => do
    match ← peek with
    | '[' => skip; skipValue fuel .opened (.list :: outer)
    | '\x7b' => skip; skipValue fuel .opened (.object :: outer)
    | c => skipScalar c; skipValue fuel .behind outer
  | _ + 1, _, [] => return
  | fuel + 1, mode, inner :: outer => do
    let c ← peek
    if c = inner.closing then
      skip
      skipValue fuel .behind outer
    else
      match mode with
      | .behind =>
        if c = ',' then skip else throw .malformed
      | _ => pure ()
      skipLabel inner
      skipValue fuel .value (inner :: outer)

/-- Pass over one value. Every step takes a character, or follows one that did. -/
def anyValue : Scan Unit := do
  skipValue (3 * (← get).length + 3) .value []

end Scan

end BitcoinCrawl.NodeFile

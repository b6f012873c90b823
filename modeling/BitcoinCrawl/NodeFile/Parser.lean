import BitcoinCrawl.NodeFile.Record
import BitcoinCrawl.NodeFile.Scanner

set_option autoImplicit false

/-! # Reading node files

A node file holds an array of records. A record is an object, in which fields may come in any order and
unknown ones are passed over, or an array with the fields in their written order. Only the endpoint must
be there. -/

namespace BitcoinCrawl.NodeFile

/-! ## Values of fields -/

namespace Scan

/-- A string that has to be there. -/
def text : Scan String := do
  match ← peek with
  | '"' => skip; string
  | _ => wrongKind

/-- An integer up to a limit that has to be there. -/
def integer (max : Nat) : Scan Nat := do
  let c ← peek
  if c = '-' || c.isDigit then
    match ← number with
    | .natural n => if n ≤ max then return n else throw .mismatch
    | _ => throw .mismatch
  else wrongKind

/-- A value or `null`. -/
def optional {α : Type} (value : Scan α) : Scan (Option α) := do
  match ← peek with
  | 'n' => word "null".toList; return none
  | _ => return some (← value)

def word64 : Scan UInt64 := do return UInt64.ofNat (← integer maxWord)

def word32 : Scan UInt32 := do return UInt32.ofNat (← integer (Nat.pow 2 32 - 1))

end Scan

/-! ## Records as objects -/

/-- The fields of an object read so far. -/
structure Draft where
  endpoint : Option String := none
  services : Option (Option UInt64) := none
  protocolVersion : Option (Option UInt32) := none
  userAgent : Option (Option String) := none
  pingCount : Option UInt64 := none

namespace Draft

/-- The record of a complete object. -/
def record? (draft : Draft) : Option NodeRecord :=
  draft.endpoint.map fun endpoint =>
    { endpoint
      services := draft.services.join
      protocolVersion := draft.protocolVersion.join
      userAgent := draft.userAgent.join
      pingCount := draft.pingCount.getD 0 }

end Draft

namespace Scan

/-- The colon behind a key. -/
def colon : Scan Unit := do
  match ← peek with
  | ':' => skip
  | _ => throw .malformed

/-- A value behind its colon, for a field that must not have been there before. -/
def once {α : Type} (seen : Option α) (value : Scan α) : Scan (Option α) := do
  if seen.isSome then throw .mismatch
  colon
  return some (← value)

/-- The field of a given key. -/
def field (key : String) (draft : Draft) : Scan Draft := do
  match key with
  | "endpoint" => return { draft with endpoint := ← once draft.endpoint text }
  | "services" => return { draft with services := ← once draft.services (optional word64) }
  | "protocol_version" =>
    return { draft with protocolVersion := ← once draft.protocolVersion (optional word32) }
  | "user_agent" => return { draft with userAgent := ← once draft.userAgent (optional text) }
  | "ping_count" => return { draft with pingCount := ← once draft.pingCount word64 }
  | _ =>
    colon
    anyValue
    return draft

/-- Go to the opening quote of the next key, which must be there behind a comma. -/
def nextKey (isFirst : Bool) (c : Char) : Scan Unit := do
  if isFirst then
    if c ≠ '"' then throw .malformed
  else
    if c ≠ ',' then throw .malformed
    skip
    if (← peek) ≠ '"' then throw .malformed

/-- The fields of an object and its closing bracket. -/
def objectFields : Nat → Bool → Draft → Scan NodeRecord
  | 0, _, _ => throw .malformed
  | fuel + 1, isFirst, draft => do
    let c ← peek
    if c = '\x7d' then
      match draft.record? with
      | none => throw .mismatch
      | some record =>
        skip
        return record
    else
      nextKey isFirst c
      skip
      let key ← string
      objectFields fuel false (← field key draft)

/-! ## Records as arrays -/

/-- Go to the next element of an array. There is none at a closing bracket. -/
def nextElement (isFirst : Bool) : Scan Bool := do
  let c ← peek
  if c = ']' then return false
  else if isFirst then return true
  else if c = ',' then
    skip
    if (← peek) = ']' then throw .malformed
    return true
  else throw .malformed

/-- A value at its place in an array, or what stands for it if the array is over. -/
def element {α : Type} (missing : α) (value : Scan α) : Scan α := do
  if ← nextElement false then value else return missing

/-- The closing bracket of an array that must hold nothing more. -/
def endOfArray : Scan Unit := do
  match ← peek with
  | ']' => skip
  | _ => throw .malformed

/-- The elements of a record and the closing bracket. -/
def arrayFields : Scan NodeRecord := do
  if !(← nextElement true) then throw .mismatch
  let endpoint ← text
  let services ← element none (optional word64)
  let protocolVersion ← element none (optional word32)
  let userAgent ← element none (optional text)
  let pingCount ← element 0 word64
  endOfArray
  return { endpoint, services, protocolVersion, userAgent, pingCount }

/-! ## Whole files -/

/-- One record. The fuel has to exceed the length of the text. -/
def record (fuel : Nat) : Scan NodeRecord := do
  match ← peek with
  | '\x7b' => skip; objectFields fuel true {}
  | '[' => skip; arrayFields
  | _ => wrongKind

/-- Records up to the closing bracket. Each of them takes a character and one from the fuel. -/
def records : Nat → Bool → Array NodeRecord → Scan (List NodeRecord)
  | 0, _, _ => throw .malformed
  | fuel + 1, isFirst, acc => do
    if ← nextElement isFirst then
      records fuel false (acc.push (← record fuel))
    else
      skip
      return acc.toList

/-- An array of records. -/
def file : Scan (List NodeRecord) := do
  match ← peek with
  | '[' => skip; records ((← get).length + 2) true #[]
  | _ => wrongKind

end Scan

/-- The records in the text of a node file. Only blanks may follow them. -/
def parse (text : String) : Except Fault (List NodeRecord) :=
  match Scan.file text.toList with
  | .error fault => .error fault
  | .ok (records, rest) =>
    match Scan.blank rest with
    | .ok ((), []) => .ok records
    | _ => .error .malformed

end BitcoinCrawl.NodeFile

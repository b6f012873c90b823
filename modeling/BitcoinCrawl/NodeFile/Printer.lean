import BitcoinCrawl.NodeFile.Record
import BitcoinCrawl.Text.Numeral

set_option autoImplicit false

/-! # Writing node files

A node file is a JSON array of objects, two blanks of indent a level, `"key": value`, and no newline at
its end. An unknown field is left out, the ping count is always there. Strings escape quotes, backslashes
and control characters and nothing else. -/

namespace BitcoinCrawl.NodeFile

/-! ## Strings -/

/-- How a character stands in a string. -/
def escaped (c : Char) : List Char :=
  if c = '"' then ['\\', '"']
  else if c = '\\' then ['\\', '\\']
  else if c = '\x08' then ['\\', 'b']
  else if c = '\t' then ['\\', 't']
  else if c = '\n' then ['\\', 'n']
  else if c = '\x0c' then ['\\', 'f']
  else if c = '\r' then ['\\', 'r']
  else if c.toNat < 0x20 then
    ['\\', 'u', '0', '0', Nat.digitChar (c.toNat / 16), Nat.digitChar (c.toNat % 16)]
  else [c]

/-- A string in quotes. -/
def quoted (text : String) : List Char := '"' :: text.toList.flatMap escaped ++ ['"']

/-! ## Objects -/

/-- The values of the fields that are written, with their keys, in order. -/
def fields (r : NodeRecord) : List (String × List Char) :=
  [("endpoint", quoted r.endpoint)] ++
    (r.services.map fun v => ("services", Numeral.decimal v.toNat)).toList ++
    (r.protocolVersion.map fun v => ("protocol_version", Numeral.decimal v.toNat)).toList ++
    (r.userAgent.map fun v => ("user_agent", quoted v)).toList ++
    [("ping_count", Numeral.decimal r.pingCount.toNat)]

/-- One field on its line. -/
def fieldLine (field : String × List Char) : List Char :=
  "    ".toList ++ quoted field.1 ++ [':', ' '] ++ field.2

/-- Parts on lines of their own, with a comma behind all but the last. -/
def lines (parts : List (List Char)) : List Char := [',', '\n'].intercalate parts

/-- One object. -/
def object (r : NodeRecord) : List Char :=
  "  \x7b\n".toList ++ lines ((fields r).map fieldLine) ++ "\n  \x7d".toList

/-- The whole file. -/
def chars (records : List NodeRecord) : List Char :=
  if records.isEmpty then ['[', ']']
  else ['[', '\n'] ++ lines (records.map object) ++ ['\n', ']']

/-- Text of a node file. -/
def print (records : List NodeRecord) : String := String.ofList (chars records)

end BitcoinCrawl.NodeFile

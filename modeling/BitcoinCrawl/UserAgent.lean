set_option autoImplicit false

/-! # User agents

A node announces the software it runs as `/name:version/`. `UserAgent.check` accepts exactly that shape:
both parts are non-empty and hold no colon. An agent put together from its parts is taken as it is. -/

namespace BitcoinCrawl

/-- Why a text is not a user agent. -/
inductive UserAgentFault where
  /-- Not wrapped in two slashes, or not one name and one version between them. -/
  | format
  | missingName
  | missingVersion
  deriving DecidableEq

namespace UserAgentFault

def message : UserAgentFault → String
  | format => "User agent must look like /name:version/"
  | missingName => "User agent has an empty name"
  | missingVersion => "User agent has an empty version"

end UserAgentFault

/-- A user agent to advertise. -/
structure UserAgent where
  text : String
  deriving DecidableEq

namespace UserAgent

/-- What stands between a slash at the start and another one at the end. -/
def interior? : List Char → Option (List Char)
  | [] => none
  | c :: rest =>
    if c = '/' ∧ rest.getLast? = some '/' then some rest.dropLast else none

/-- The parts before and behind the first colon. -/
def splitColon? : List Char → Option (List Char × List Char)
  | [] => none
  | c :: rest =>
    if c = ':' then some ([], rest)
    else (splitColon? rest).map fun (name, version) => (c :: name, version)

/-- Check the shape `/name:version/` and return both parts. -/
def check (text : List Char) : Except UserAgentFault (List Char × List Char) :=
  match (interior? text).bind splitColon? with
  | none => .error .format
  | some (name, version) =>
    if version.contains ':' then .error .format
    else if name.isEmpty then .error .missingName
    else if version.isEmpty then .error .missingVersion
    else .ok (name, version)

/-- The user agent of a text that has the required shape. -/
def parse (text : String) : Except UserAgentFault UserAgent :=
  (check text.toList).map fun _ => ⟨text⟩

/-- The user agent with the given parts, whatever they are. -/
def ofParts (name version : String) : UserAgent := ⟨s!"/{name}:{version}/"⟩

instance : ToString UserAgent := ⟨text⟩

end UserAgent

end BitcoinCrawl

import BitcoinCrawl.IoFault
import BitcoinCrawl.NodeFile.FileTree
import BitcoinCrawl.NodeFile.Parser
import BitcoinCrawl.NodeFile.Printer

set_option autoImplicit false

/-! # Saving and loading node files

A save writes the whole file next to its target and moves it into place as the last step, so whoever
reads the target finds either the file before or the file after. -/

namespace BitcoinCrawl.NodeFile

/-- Why a node file could not be read or written. -/
inductive StoreFault where
  | tree (fault : TreeFault)
  | io (fault : IoFault)
  /-- The file is not UTF-8. -/
  | notText
  | json (fault : Fault)
  deriving DecidableEq

namespace StoreFault

/-- What kind of thing went wrong. -/
def heading : StoreFault → String
  | tree _ | io _ | notText => "Node file IO error"
  | json _ => "Node file JSON error"

/-- What went wrong in detail. -/
def detail : StoreFault → String
  | tree fault => fault.message
  | io fault => fault.message
  | notText => "stream did not contain valid UTF-8"
  | json .endOfText => "unexpected end of text"
  | json .mismatch => "unexpected value"
  | json .malformed => "not JSON"

def message (fault : StoreFault) : String := s!"{fault.heading}: {fault.detail}"

end StoreFault

/-- All directories above a path, the highest first. -/
def directoriesAbove (path : WrittenPath) : List (List String) :=
  (List.range path.parent.length).map fun n => path.parent.take (n + 1)

/-- Make all directories above a path. If something else stands in the way of the lowest, that is found first. -/
def directorySteps (path : WrittenPath) : List FileStep :=
  match path.parent with
  | [] => []
  | parent => .follow parent :: (directoriesAbove path).map .makeDirectory

/-- The steps of a save: the directories above the file, the whole text in a temporary file, and the move
    into place. -/
def saveSteps (path : WrittenPath) (content : Bytes) : List FileStep :=
  directorySteps path ++
    [.create path.temporary, .append path.temporary content, .sync path.temporary,
     .rename path.temporary path]

/-- Replace the file at a path by one with the given records. -/
def save (path : WrittenPath) (records : List NodeRecord) (tree : FileTree) :
    FileTree × Option StoreFault :=
  let (tree, fault) := tree.performAll (saveSteps path (Bytes.ofText (print records)))
  (tree, fault.map .tree)

/-- The records in the file at a path. -/
def load (path : WrittenPath) (tree : FileTree) : Except StoreFault (List NodeRecord) :=
  match tree.read path with
  | .error fault => .error (.tree fault)
  | .ok content =>
    match Bytes.toText? content with
    | none => .error .notText
    | some text =>
      match parse text with
      | .error fault => .error (.json fault)
      | .ok records => .ok records

end BitcoinCrawl.NodeFile

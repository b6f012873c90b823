import BitcoinCrawl.Wire.Bytes

set_option autoImplicit false

/-! # File trees

A file system as a tree of directories and files, kept as a list of paths with what is there, and the
steps that change it. A step that fails leaves the tree as it was. -/

namespace BitcoinCrawl

/-- Names from the root down. -/
abbrev TreePath := List String

/-- What is at a path. -/
inductive TreeEntry where
  | file (content : Bytes)
  | directory
  deriving DecidableEq

/-- Why a step on a tree fails. -/
inductive TreeFault where
  | notFound
  | alreadyThere
  | notDirectory
  | isDirectory
  | nameTooLong
  | busy
  deriving DecidableEq

namespace TreeFault

def message : TreeFault → String
  | notFound => "No such file or directory (os error 2)"
  | alreadyThere => "File exists (os error 17)"
  | notDirectory => "Not a directory (os error 20)"
  | isDirectory => "Is a directory (os error 21)"
  | nameTooLong => "File name too long (os error 36)"
  | busy => "Device or resource busy (os error 16)"

end TreeFault

/-- Files and directories below a root, which is always a directory. -/
structure FileTree where
  entries : List (TreePath × TreeEntry) := []
  deriving DecidableEq

/-- What a path is written with behind its last name. -/
inductive PathTail where
  | nothing
  | slash
  /-- A single point, perhaps with slashes behind it. -/
  | point
  deriving DecidableEq

/-- A path as it is written. -/
structure WrittenPath where
  names : List String
  tail : PathTail := .nothing
  deriving DecidableEq

namespace WrittenPath

/-- The path of a text. Empty names and single points lead nowhere else. -/
def ofText (text : String) : WrittenPath where
  names := (text.splitOn "/").filter fun name => name ≠ "" ∧ name ≠ "."
  tail :=
    if ((text.splitOn "/").filter (· ≠ "")).getLast? = some "." then .point
    else if text.endsWith "/" then .slash
    else .nothing

/-- The path without its last name. -/
def parent (path : WrittenPath) : List String := path.names.dropLast

/-- The name of the file that a path is about. Two points are not the name of a file. -/
def fileName? (path : WrittenPath) : Option String := path.names.getLast?.filter (· ≠ "..")

/-- The same directory, with `.tmp` behind the name of the file. -/
def temporary (path : WrittenPath) : WrittenPath where
  names :=
    match path.fileName? with
    | some name => path.parent ++ [name ++ ".tmp"]
    | none => path.names ++ [".tmp"]

/-- Whether nothing is written. -/
def isEmpty (path : WrittenPath) : Bool := path.names.isEmpty && path.tail = .nothing

/-- Why nothing can take the place of a directory. The place of a directory that is not called by its name is
    never given up. -/
def occupied (path : WrittenPath) : TreeFault :=
  if path.isEmpty then .notFound
  else if path.fileName?.isNone ∨ path.tail = .point then .busy
  else if path.tail = .slash then .notDirectory
  else .isDirectory

end WrittenPath

namespace FileTree

/-! ## Looking -/

/-- What is at a path. -/
def entry? (tree : FileTree) : TreePath → Option TreeEntry
  | [] => some .directory
  | path => tree.entries.lookup path

/-- Longest name a directory can hold, in bytes. -/
def maxName : Nat := 255

/-- The place of written names, from a directory down. Every name but the last has to be one of a
    directory; two points lead up. -/
def locate (tree : FileTree) (place : TreePath) : List String → Except TreeFault TreePath
  | [] => .ok place
  | name :: rest =>
    match tree.entry? place with
    | none => .error .notFound
    | some (.file _) => .error .notDirectory
    | some .directory =>
      if name = ".." then locate tree place.dropLast rest
      else if maxName < name.utf8ByteSize then .error .nameTooLong
      else locate tree (place ++ [name]) rest

/-- All paths, directories with a slash behind them, in byte order. -/
def listing (tree : FileTree) : List String :=
  let text (e : TreePath × TreeEntry) : String :=
    "/".intercalate e.1 ++ (if e.2 = .directory then "/" else "")
  (tree.entries.map text).mergeSort fun a b => a ≤ b

/-- The content of a file. -/
def read (tree : FileTree) (path : WrittenPath) : Except TreeFault Bytes := do
  let place ← tree.locate [] path.names
  match tree.entry? place with
  | none => throw .notFound
  | some .directory => throw (if path.isEmpty then .notFound else .isDirectory)
  | some (.file content) =>
    if path.tail = .nothing then return content else throw .notDirectory

/-! ## Changing -/

/-- Put something at a path. -/
def put (tree : FileTree) (place : TreePath) (entry : TreeEntry) : FileTree :=
  ⟨tree.entries.filter (fun e => e.1 ≠ place) ++ [(place, entry)]⟩

/-- Take away what is at a path. -/
def remove (tree : FileTree) (place : TreePath) : FileTree :=
  ⟨tree.entries.filter fun e => e.1 ≠ place⟩

end FileTree

/-- One step on a tree. -/
inductive FileStep where
  /-- Follow names as far as there is something. -/
  | follow (names : List String)
  /-- Make a directory, unless there is one. -/
  | makeDirectory (names : List String)
  /-- Make an empty file, or empty the one that is there. -/
  | create (path : WrittenPath)
  /-- Write behind the end of a file. -/
  | append (path : WrittenPath) (bytes : Bytes)
  /-- Wait until a file is on disk. -/
  | sync (path : WrittenPath)
  /-- Move a file, replacing one that is there. -/
  | rename (source target : WrittenPath)
  deriving DecidableEq

namespace FileTree

/-- Perform one step. -/
def perform (tree : FileTree) : FileStep → Except TreeFault FileTree
  | .follow names =>
    match tree.locate [] names with
    | .ok _ | .error .notFound => .ok tree
    | .error fault => .error fault
  | .makeDirectory names => do
    let place ← tree.locate [] names
    match tree.entry? place with
    | none => return tree.put place .directory
    | some .directory => return tree
    | some (.file _) => throw .alreadyThere
  | .create path => do
    let place ← tree.locate [] path.names
    match tree.entry? place with
    | some .directory => throw .isDirectory
    | _ => return tree.put place (.file [])
  | .append path bytes => do
    let place ← tree.locate [] path.names
    match tree.entry? place with
    | none => throw .notFound
    | some .directory => throw .isDirectory
    | some (.file content) => return tree.put place (.file (content ++ bytes))
  | .sync path => do
    let place ← tree.locate [] path.names
    if (tree.entry? place).isNone then throw .notFound
    return tree
  | .rename source target => do
    let start ← tree.locate [] source.names
    let goal ← tree.locate [] target.names
    match tree.entry? start, tree.entry? goal with
    | none, _ => throw .notFound
    | some _, some .directory => throw target.occupied
    | some entry, other =>
      match target.tail with
      | .nothing => return (tree.remove start).put goal entry
      | .slash => throw .notDirectory
      | .point => throw (if other.isNone then .notFound else .notDirectory)

/-- Perform steps in order up to the first that fails. The tree is as that step found it. -/
def performAll (tree : FileTree) : List FileStep → FileTree × Option TreeFault
  | [] => (tree, none)
  | step :: rest =>
    match tree.perform step with
    | .ok tree => performAll tree rest
    | .error fault => (tree, some fault)

end FileTree

end BitcoinCrawl

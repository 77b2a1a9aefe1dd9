import Shiba.Text.Path

/-!
# A tree of files

The files a run can see, as a value.  A path is followed component by component from the root,
so that a component that does not exist or is no directory stops it even when `..` comes next.
-/

namespace Shiba

/-- A file with its text, a file that may not be read, or a directory. -/
inductive FileNode where
  | file (text : String)
  | sealedFile
  | directory

/-- Files and directories by their components from the root. -/
structure FileSystem where
  nodes : List (List String × FileNode)

/-- Why a path cannot be followed or read. -/
inductive AccessError where
  | missing
  | notDirectory
  | isDirectory
  | nameTooLong
  | permissionDenied
deriving DecidableEq

/-- The wording of an access error. -/
def AccessError.message : AccessError → String
  | .missing => "No such file or directory"
  | .notDirectory => "Not a directory"
  | .isDirectory => "Is a directory"
  | .nameTooLong => "File name too long"
  | .permissionDenied => "Permission denied"

namespace FileSystem

/-- The tree with nothing but its root. -/
def empty : FileSystem := ⟨[]⟩

/-- The greatest number of bytes in a component. -/
def nameLimit : Nat := 255

/-- The greatest number of bytes in a path. -/
def pathLimit : Nat := 4095

/-- What stands at a place; the root is always a directory. -/
def node? (fs : FileSystem) (place : List String) : Option FileNode :=
  if place = [] then some .directory
  else (fs.nodes.find? fun n => n.1 = place).map (·.2)

/-- The tree with a node at a place, and directories above it where there is nothing yet. -/
def add (fs : FileSystem) (place : List String) (node : FileNode) : FileSystem :=
  let above := (List.range place.length).map fun n => place.take n
  let missing := above.filter fun p => (fs.node? p).isNone
  ⟨(place, node) :: missing.map (fun p => (p, .directory)) ++ fs.nodes⟩

/-- The tree with a node at an absolute path in normal form. -/
def addPath (fs : FileSystem) (path : String) (node : FileNode) : FileSystem :=
  fs.add (Path.collapse (Path.components path) []) node

/-- Follows components from a place. -/
def follow (fs : FileSystem) : List String → (place : List String) → Except AccessError FileNode
  | [], place =>
    match fs.node? place with
    | some node => .ok node
    | none => .error .missing
  | part :: rest, place =>
    match fs.node? place with
    | none => .error .missing
    | some (.file _) | some .sealedFile => .error .notDirectory
    | some .directory =>
      if part = "" ∨ part = "." then follow fs rest place
      else if part = ".." then follow fs rest place.dropLast
      else if nameLimit < part.utf8ByteSize then .error .nameTooLong
      else follow fs rest (place ++ [part])

/-- What an absolute path leads to.  A path that is too long is not followed at all. -/
def lookup (fs : FileSystem) (path : String) : Except AccessError FileNode :=
  if pathLimit < path.utf8ByteSize then .error .nameTooLong
  else fs.follow (Path.components path) []

/-- Whether an absolute path leads to a file, which need not be one that can be read. -/
def isFile (fs : FileSystem) (path : String) : Bool :=
  match fs.lookup path with
  | .ok (.file _) | .ok .sealedFile => true
  | _ => false

/-- A text with every line end written as a newline. -/
def newlines : List Char → List Char
  | '\r' :: '\n' :: cs => '\n' :: newlines cs
  | '\r' :: cs => '\n' :: newlines cs
  | c :: cs => c :: newlines cs
  | [] => []

/-- The text of the file an absolute path leads to, with its line ends as newlines. -/
def read (fs : FileSystem) (path : String) : Except AccessError String :=
  match fs.lookup path with
  | .ok (.file text) => .ok (String.ofList (newlines text.toList))
  | .ok .sealedFile => .error .permissionDenied
  | .ok .directory => .error .isDirectory
  | .error e => .error e

end FileSystem

end Shiba

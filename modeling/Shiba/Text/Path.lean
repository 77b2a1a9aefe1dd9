/-!
# Paths

Paths are texts whose components are divided by slashes.  These functions look only at the text:
a directory and a name are joined, an absolute path is brought into its normal form, a path is
split into its directory and its last component.
-/

namespace Shiba.Path

/-- The components of a path, with an empty one wherever a slash has nothing beside it. -/
def splitSlash : List Char → List (List Char)
  | [] => [[]]
  | '/' :: cs => [] :: splitSlash cs
  | c :: cs =>
    match splitSlash cs with
    | part :: rest => (c :: part) :: rest
    | [] => [[c]]

/-- The components of a path. -/
def components (path : String) : List String := (splitSlash path.toList).map String.ofList

/-- The paths of everything an absolute path passes through, from the root to its end. -/
def along (path : String) : List String :=
  let parts := components path
  (List.range parts.length).map fun n => "/".intercalate (parts.take (n + 1))

/-- A name seen from a directory: an absolute name stands by itself. -/
def join (directory name : String) : String :=
  if name.toList.head? = some '/' then name
  else if directory.isEmpty ∨ directory.toList.getLast? = some '/' then directory ++ name
  else directory ++ "/" ++ name

/-- Drops empty and `.` components, and lets `..` take away the one before it; `kept` holds the
components kept so far, the last one first. -/
def collapse : List String → (kept : List String) → List String
  | [], kept => kept.reverse
  | part :: rest, kept =>
    if part = "" ∨ part = "." then collapse rest kept
    else if part = ".." then collapse rest kept.tail
    else collapse rest (part :: kept)

/-- The slashes an absolute path starts with in its normal form: exactly two stay two, any other
number is one. -/
def leading (path : String) : String :=
  match path.toList with
  | '/' :: '/' :: '/' :: _ => "/"
  | '/' :: '/' :: _ => "//"
  | _ => "/"

/-- The normal form of an absolute path. -/
def normalize (path : String) : String :=
  leading path ++ "/".intercalate (collapse (components path) [])

/-- The normal form of a path seen from a directory. -/
def absolute (directory path : String) : String := normalize (join directory path)

/-- A path without the slashes at its end, unless it is nothing but slashes. -/
def trimSlashes (path : List Char) : List Char :=
  let kept := (path.reverse.dropWhile (· = '/')).reverse
  if kept.isEmpty then path else kept

/-- The directory and the last component of a path. -/
def split (path : String) : String × String :=
  let cs := path.toList.reverse
  let base := (cs.takeWhile (· ≠ '/')).reverse
  let directory := (cs.dropWhile (· ≠ '/')).reverse
  (String.ofList (trimSlashes directory), String.ofList base)

/-- What stands behind the last slash of a path. -/
def base (path : String) : String := (split path).2

/-- The ending of module files. -/
def extension : String := ".sb"

/-- A path with the ending of module files, added when it is missing. -/
def withExtension (path : String) : String :=
  if extension.toList.isSuffixOf path.toList then path else path ++ extension

/-- A name without the ending of module files. -/
def dropExtension (name : String) : String :=
  String.ofList (name.toList.take (name.length - extension.length))

end Shiba.Path

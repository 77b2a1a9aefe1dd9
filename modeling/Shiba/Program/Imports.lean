import Shiba.Program
import Shiba.Text.Path

/-!
# The imports of a text

Which modules a text may import can be read off its tokens, without running it.
`Tokens.importNames` lists the names of all imports wherever they stand, and `importPaths` the
places where the files of these modules would be.
-/

namespace Shiba

/-- The names of the imports in a sequence of tokens, wherever they stand. -/
def Tokens.importNames (ts : Tokens) : List String :=
  namesIn ts.list
where
  /-- The names of the imports among the tokens that are left. -/
  namesIn : List Token → List String
    | [] => []
    | t :: rest =>
      if t.lexeme = .keyword .importWord then
        match (Stmt.importPath (rest.length + 1)).run ⟨rest, ts.ending⟩ with
        | .ok (name, _) => name :: namesIn rest
        | .error _ => namesIn rest
      else namesIn rest

/-- Where the module files are that a text in a directory may import: beside it, or in the standard
directory. -/
def importPaths (standardDirectory directory text : String) : List String :=
  (Tokens.ofText text).importNames.flatMap fun name =>
    [directory, standardDirectory].map fun d => Path.join d (Path.withExtension name)

end Shiba

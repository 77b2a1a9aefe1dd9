import Shiba.Eval
import Shiba.Library.Seq

/-!
# Running modules

A module is run one top-level statement after another.  A program's request to exit, wherever it
comes up, ends the statement that was running; calls or data nested too deep are an error at the
place of that statement; and a jump that reaches the top level is an error.
-/

namespace Shiba

/-- How a top-level statement ended. -/
inductive Outcome where
  | done
  | value (b : BoxId)
  | exit (code : Int64)
deriving DecidableEq

namespace Config

/-- The directory the standard modules are found in unless another is given. -/
def bundledDirectory : String := "/stdlib"

/-- The standard modules in their directory. -/
def bundledFiles : FileSystem :=
  Library.files.foldl
    (fun fs e => fs.addPath (Path.join bundledDirectory e.1) (.file e.2)) .empty

/-- A configuration without tracing, with the standard modules and nothing else to import. -/
def standard : Config where
  debugLevel := 0
  standardDirectory := bundledDirectory
  files := bundledFiles
  callLimit := 1500
  dataLimit := 5000
  fuel := 1000000000000

end Config

namespace Run

open Eval

/-- The outcome of a statement that ended with a flow. -/
def outcome : Flow → Outcome
  | .value b => .value b
  | _ => .done

/-- Runs one top-level statement of a module. -/
def statement (cfg : Config) (m : ModuleId) (s : Stmt) : Eval Outcome := do
  traceStatement cfg m s
  match ← observe (evalStmt cfg cfg.fuel ⟨m, cfg.callLimit⟩ s) with
  | .ok flow =>
    checkTopLevel m s flow
    return outcome flow
  | .error (.exit code) => return .exit code
  | .error .tooDeep => raiseAt m s.position .tooDeep
  | .error stop => throw stop

/-- Runs top-level statements up to the first exit. -/
def statements (cfg : Config) (m : ModuleId) : Block → Eval (Option Int64)
  | [] => return none
  | s :: rest => do
    match ← statement cfg m s with
    | .exit code => return some code
    | _ => statements cfg m rest

/-- Registers a module and runs it as the main one; answers the exit code. -/
def program (cfg : Config) (m : Module) : Eval Int64 := do
  let id ← addModule m
  trace cfg 1 (return "run module " ++ m.key)
  let p := Program.ofText m.content
  match ← statements cfg id p.statements with
  | some code => return code
  | none =>
    checkEnding id p.ending
    return 0

/-- The module in the file at a path seen from a directory, with the ending of module files
added when it is missing. -/
def file (files : FileSystem) (directory path : String) : Except AccessError Module := do
  let path := Path.absolute directory (Path.withExtension path)
  return moduleOfFile path (← files.read path)

end Run

end Shiba

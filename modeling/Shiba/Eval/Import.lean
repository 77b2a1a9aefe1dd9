import Shiba.Eval.Basic
import Shiba.Builtin.Math
import Shiba.Program

/-!
# Imports

A name is looked for as a file beside the importing module, then as a file of the standard
directory, then among the modules without a file.  A module runs when it is loaded first, and is
registered before it runs, so that modules may import one another.  A file is read only when its
module is not registered yet.
-/

namespace Shiba.Eval

/-- A jump must not leave the top level of a module. -/
def checkTopLevel (m : ModuleId) (s : Stmt) (flow : Flow) : Eval Unit :=
  match flow.jump? with
  | some jump => raiseAt m s.position (.jumpOutside jump)
  | none => return

/-- The line that traces a top-level statement. -/
def traceStatement (cfg : Config) (m : ModuleId) (s : Stmt) : Eval Unit :=
  trace cfg 2 do
    let name := ((← get).registry.module m).name
    return Location.text ⟨name, s.position⟩ ++ ": " ++ s.form

/-- Runs the top level of a module that is being imported. -/
def runTopLevel (ev : Evaluators) (cfg : Config) (ctx : Context) : Block → Eval Unit
  | [] => return
  | s :: rest => do
    traceStatement cfg ctx.module s
    let flow ← ev.stmt ctx s
    checkTopLevel ctx.module s flow
    runTopLevel ev cfg ctx rest

/-- Stops with the failure a program ends with, if it does. -/
def checkEnding (m : ModuleId) (ending : Ending) : Eval Unit := do
  match ending with
  | .complete _ => return
  | .failed failure =>
    throw (.ofFailure ((← get).registry.module m).name failure)

/-- Adds a module to the registry and registers it. -/
def addModule (m : Module) : Eval ModuleId := do
  let (id, registry) := (← get).registry.add m
  modify fun s => { s with registry := registry.register id }
  return id

/-- The module in the file at an absolute path. -/
def moduleOfFile (path content : String) : Module :=
  let (directory, base) := Path.split (Path.normalize path)
  .ofSource (Path.dropExtension base) directory content

/-- The key of the module in the file at an absolute path. -/
def keyOfFile (path : String) : String :=
  let (directory, base) := Path.split (Path.normalize path)
  Path.join directory (Path.dropExtension base)

theorem key_moduleOfFile (path content : String) : (moduleOfFile path content).key = keyOfFile path := by
  rw [moduleOfFile, keyOfFile]
  generalize Path.split (Path.normalize path) = parts
  rfl

/-- Runs the top level of a module that has just been registered. -/
def runLoaded (ev : Evaluators) (cfg : Config) (calls : Nat) (m : Module) (id : ModuleId) :
    Eval ModuleId := do
  trace cfg 1 (return "load module " ++ m.key)
  let program := Program.ofText m.content
  runTopLevel ev cfg ⟨id, calls⟩ program.statements
  checkEnding id program.ending
  return id

/-- The module of the file at an absolute path, which is read and run unless that was done before. -/
def loadFile (ev : Evaluators) (cfg : Config) (calls : Nat) (path : String) : Eval ModuleId := do
  match (← get).registry.find? (keyOfFile path) with
  | some loaded =>
    trace cfg 1 (return "module " ++ keyOfFile path ++ " is already loaded")
    return loaded
  | none =>
    match cfg.files.read path with
    | .error failure => raise (.moduleUnreadable path failure)
    | .ok content =>
      let m := moduleOfFile path content
      runLoaded ev cfg calls m (← addModule m)

/-- The modules that no file holds: what they define, in order. -/
def hostModules : List (String × List (String × Value)) := [("math", Math.members)]

/-- A module that no file holds, made when it is imported first. -/
def loadHost (cfg : Config) (name : String) : Eval ModuleId := do
  match (← get).registry.find? (Path.join Module.hostDirectory name) with
  | some loaded => return loaded
  | none =>
    match hostModules.lookup name with
    | none => raise (.moduleNotFound name)
    | some members =>
      let objs ← members.mapM fun e => do return (e.1, ← alloc e.2)
      let id ← addModule (.ofObjects name objs)
      trace cfg 1 (return "import host module " ++ name)
      return id

/-- The path of a module file of a name, in the first of some directories that holds one. -/
def findFile (files : FileSystem) (name : String) : List String → Option String
  | [] => none
  | directory :: rest =>
    let path := Path.join directory (Path.withExtension name)
    if files.isFile path then some path else findFile files name rest

/-- The first directory holds the file, or the others are looked through. -/
theorem findFile_cons_eq (files : FileSystem) (name directory : String) (rest : List String) :
    findFile files name (directory :: rest) =
      if files.isFile (Path.join directory (Path.withExtension name)) then
        some (Path.join directory (Path.withExtension name))
      else findFile files name rest := (rfl)

theorem findFile_cons {files : FileSystem} {name path directory : String} {rest : List String}
    (found : findFile files name (directory :: rest) = some path) :
    (path = Path.join directory (Path.withExtension name) ∧ files.isFile path = true) ∨
      findFile files name rest = some path := by
  rw [findFile_cons_eq] at found
  split at found
  · next isFile =>
    cases found
    exact .inl ⟨rfl, isFile⟩
  · exact .inr found

/-- Imports a module by name. -/
def importModule (ev : Evaluators) (cfg : Config) (ctx : Context) (name : String) :
    Eval ModuleId := do
  let directory := ((← get).registry.module ctx.module).directory
  match findFile cfg.files name [directory, cfg.standardDirectory] with
  | some path => loadFile ev cfg ctx.calls path
  | none => loadHost cfg name

/-- An import statement: the module is bound to the last part of its name. -/
def importStatement (ev : Evaluators) (cfg : Config) (ctx : Context) (target : String) :
    Eval Unit := do
  let m ← importModule ev cfg ctx target
  let name := ((← get).registry.module m).name
  setObj ctx.module (Path.base target) (← alloc (.module m name))

end Shiba.Eval

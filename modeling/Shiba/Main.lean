import Shiba.CommandLine
import Shiba.Program.Imports

/-!
# The command

Reads the words of the command line and the environment, looks up on disk the module files that
a run may import, and writes what the run answers.
-/

namespace Shiba.Main

/-- What stands on disk at a path: a directory, a file, or nothing. -/
def nodeOnDisk? (path : String) : IO (Option FileNode) := do
  if ← ((← IO.currentDir) / path).isDir then
    return some .directory
  match ← (IO.FS.readFile path).toBaseIO with
  | .ok text => return some (.file text)
  | .error _ => return if ← ((← IO.currentDir) / path).pathExists then some .sealedFile else none

/-- A tree of files with what stands on disk along an absolute path. -/
def look (files : FileSystem) (path : String) : IO FileSystem := do
  let mut files := files
  for place in Path.along path do
    if let some node ← nodeOnDisk? place then
      files := files.addPath place node
  return files

/-- A tree of files with the modules that a text in a directory may import, and with those that they
may import themselves. -/
partial def lookForImports (standardDirectory directory text : String) (files : FileSystem) :
    IO FileSystem := do
  let mut files := files
  for path in importPaths standardDirectory directory text do
    unless files.isFile path do
      files ← look files path
      if let .ok content := files.read path then
        let directory := (Path.split (Path.normalize path)).1
        files ← lookForImports standardDirectory directory content files
  return files

/-- A configuration that sees the modules a text in a directory may import. -/
def seeImports (cfg : Config) (directory text : String) : IO Config := do
  return { cfg with files := ← lookForImports cfg.standardDirectory directory text cfg.files }

/-- The code that a process ends with: the last eight bits of an exit code. -/
def processCode (code : Int64) : UInt32 := (code.toUInt64 &&& 0xff).toUInt32

/-- Writes a result. -/
def finish (result : CommandLine.Result) : IO UInt32 := do
  IO.print result.out
  IO.eprint result.err
  return processCode result.finish.exitCode

/-- Runs a program file. -/
def execute (cfg : Config) (directory program : String) : IO UInt32 := do
  let path := Path.absolute directory (Path.withExtension program)
  let cfg := { cfg with files := ← look cfg.files path }
  let cfg ← match cfg.files.read path with
    | .ok text => seeImports cfg (Path.split path).1 text
    | .error _ => pure cfg
  finish (CommandLine.execute cfg directory program)

/-- Asks for lines until the session ends. -/
partial def interact (cfg : Config) (directory : String) (session : Repl) : IO UInt32 := do
  let stdout ← IO.getStdout
  stdout.putStr session.prompt
  stdout.flush
  let line ← (← IO.getStdin).getLine
  let text := String.ofList (line.toList.takeWhile (· ≠ '\n'))
  let input : Input := if line.isEmpty then .endOfInput else .line text
  let cfg ← seeImports cfg directory (session.buffer ++ text)
  let (reply, next) := session.step cfg input
  stdout.putStr reply.out
  stdout.flush
  IO.eprint reply.err
  match next with
  | .error finish => return processCode finish.exitCode
  | .ok session => interact cfg directory session

end Shiba.Main

open Shiba in
/-- Runs the program named on the command line, or asks for lines. -/
def main (args : List String) : IO UInt32 := do
  let directory := (← IO.currentDir).toString
  let settings : CommandLine.Settings :=
    ⟨← IO.getEnv "SHIBA_DBG", ← IO.getEnv "SHIBA_STDMOD_DIR"⟩
  match CommandLine.plan Config.bundledFiles directory settings args with
  | .finish result => Main.finish result
  | .interact cfg => Main.interact cfg directory (.start directory)
  | .execute cfg program => Main.execute cfg directory program

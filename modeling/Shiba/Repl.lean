import Shiba.Run

/-!
# The prompt

Lines are collected until they make up whole statements, which are then run in one module that
lasts as long as the session.  A text that only ended too early asks for more lines at the
continuation prompt.  The value of an expression is written unless it is nil.  A session ends with
an exit code, or with a crash: a value nested too deep to be written, or a literal too long to be
read.
-/

namespace Shiba

/-- What a person enters at the prompt. -/
inductive Input where
  | line (text : String)
  | interrupt
  | endOfInput

/-- What is written in answer to one input. -/
structure Reply where
  out : String
  err : String
deriving DecidableEq

/-- How a session or a command ends.  What the system writes of a crash is left out. -/
inductive Finish where
  | exit (code : Int64)
  | crash (reason : Crash)
deriving DecidableEq

/-- The exit code a process ends with; a crash is told by the code 1. -/
def Finish.exitCode : Finish → Int64
  | .exit code => code
  | .crash _ => 1

/-- A session: the state of its module's run, and the text that is not yet complete. -/
structure Repl where
  state : State
  module : ModuleId
  buffer : String

namespace Repl

/-- The name of the module of a session. -/
def moduleName : String := "<repl>"

/-- A session in a directory, with nothing entered yet. -/
def start (directory : String) : Repl :=
  let (id, registry) := Registry.empty.add (.ofSource moduleName directory "")
  ⟨{ State.initial with registry := registry.register id }, id, ""⟩

/-- What a session asks with. -/
def prompt (r : Repl) : String := if r.buffer.isEmpty then "shiba>>> " else "shiba... "

/-- The written lines as one text. -/
def outputText (lines : Array Line) : String := String.join (lines.toList.map Line.text)

/-- What is told about a stop. -/
def stopText : Stop → String
  | .error e => e.text
  | .exit code => "exit " ++ intText code
  | .tooDeep => Cause.tooDeep.message
  | .crash _ => ""
  | .outOfFuel => "out of fuel"

/-- Writes the value of an expression, unless it is nil.  No statement is running any more, so
nothing makes an error of a value that is nested too deep. -/
def echo (cfg : Config) (b : BoxId) : Eval Unit := do
  match ← Eval.read b with
  | .nil => return
  | _ =>
    match ← Eval.observe (Eval.display cfg b) with
    | .ok text => Eval.print text
    | .error .tooDeep => throw (.crash .shownTooDeep)
    | .error stop => throw stop

/-- Runs statements one after another up to the first exit. -/
def evaluate (cfg : Config) (m : ModuleId) : Block → Eval (Option Int64)
  | [] => return none
  | s :: rest => do
    match ← Run.statement cfg m s with
    | .exit code => return some code
    | .value b =>
      echo cfg b
      evaluate cfg m rest
    | .done => evaluate cfg m rest

/-- Runs the statements of a complete text: what is written, and the session that goes on or how it
ends. -/
def runBlock (cfg : Config) (r : Repl) (block : Block) : Reply × Except Finish Repl :=
  let (result, state) := (evaluate cfg r.module block).run r.state
  let out := outputText state.output
  let r := { r with state := { state with output := #[] }, buffer := "" }
  match result with
  | .ok (some code) => (⟨out, ""⟩, .error (.exit code))
  | .ok none => (⟨out, ""⟩, .ok r)
  | .error (.crash reason) => (⟨out, ""⟩, .error (.crash reason))
  | .error stop => (⟨out, stopText stop ++ "\n"⟩, .ok r)

/-- What becomes of a text that cannot be read: more lines are asked for, or the failure is told and
the text given up, or the session crashes. -/
def refuse (r : Repl) (buffer : String) (failure : Source.Failure) : Reply × Except Finish Repl :=
  match Stop.ofFailure moduleName failure with
  | .crash reason => (⟨"", ""⟩, .error (.crash reason))
  | stop =>
    if failure.fault.incomplete then (⟨"", ""⟩, .ok { r with buffer })
    else (⟨"", stopText stop ++ "\n"⟩, .ok { r with buffer := "" })

/-- Takes one input: what is written, and the session that goes on or how it ends. -/
def step (cfg : Config) (r : Repl) : Input → Reply × Except Finish Repl
  | .endOfInput => (⟨"\n", ""⟩, .error (.exit 0))
  | .interrupt =>
    (⟨"\n", ""⟩, if r.buffer.isEmpty then .error (.exit 0) else .ok { r with buffer := "" })
  | .line text =>
    let buffer := r.buffer ++ text ++ " "
    match Program.parse buffer with
    | .ok block => runBlock cfg r block
    | .error failure => refuse r buffer failure

theorem step_line (cfg : Config) (r : Repl) (text : String) :
    r.step cfg (.line text) =
      match Program.parse (r.buffer ++ text ++ " ") with
      | .ok block => r.runBlock cfg block
      | .error failure => r.refuse (r.buffer ++ text ++ " ") failure := by
  delta step
  rfl

theorem step_interrupt (cfg : Config) (r : Repl) :
    r.step cfg .interrupt =
      (⟨"\n", ""⟩,
        if r.buffer.isEmpty then .error (.exit 0) else .ok { r with buffer := "" }) :=
  rfl

/-- Takes inputs one after another, and the end of input behind them, until the session ends: each
prompt with the reply it got, and how the session ends. -/
def run (cfg : Config) (r : Repl) : List Input → List (String × Reply) × Finish
  | [] => ([(r.prompt, (r.step cfg .endOfInput).1)], .exit 0)
  | input :: rest =>
    let (reply, next) := r.step cfg input
    match next with
    | .error finish => ([(r.prompt, reply)], finish)
    | .ok r' =>
      let (replies, finish) := run cfg r' rest
      ((r.prompt, reply) :: replies, finish)

end Repl

end Shiba

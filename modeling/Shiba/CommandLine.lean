import Shiba.Repl
import Shiba.Text.Blank

/-!
# The command line

The words of a command line are flags, other words, or a double dash behind which nothing is a
flag.  Short flags can stand together behind one dash, also with an equals sign behind the first
of them; a long flag can be cut short.  No flag takes a value.  One word names the program file;
words that are left over are an error.  Settings come from the environment.
-/

namespace Shiba.CommandLine

/-- The flags. -/
inductive Flag where
  | help
  | verbose
deriving DecidableEq

namespace Flag

/-- How a diagnostic names a flag. -/
def text : Flag → String
  | .help => "-h/--help"
  | .verbose => "-v"

/-- The flag a short form stands for. -/
def ofShort? : Char → Option Flag
  | 'h' => some .help
  | 'v' => some .verbose
  | _ => none

/-- The one long form, behind its dashes. -/
def longForm : List Char := ['h', 'e', 'l', 'p']

end Flag

/-- A word of the command line.  A flag has the text attached to it, which stands behind its name or
behind an equals sign. -/
inductive Word where
  | plain (text : String)
  | separator
  | unknown (text : String)
  | flag (flag : Flag) (long : Bool) (attached : Option (List Char))

/-- The text of a word that is left over. -/
def Word.text : Word → String
  | .plain text => text
  | .separator => "--"
  | .unknown text => text
  | .flag f _ _ => f.text

/-- Whether characters are at least one digit, with at most a newline behind them. -/
def isDigitLine (cs : List Char) : Bool :=
  cs.takeWhile Text.isDecimalDigit ≠ [] &&
    (cs.dropWhile Text.isDecimalDigit = [] || cs.dropWhile Text.isDecimalDigit = ['\n'])

/-- Whether a word reads as a negative number, which is no flag. -/
def isNegativeNumber : List Char → Bool
  | '-' :: rest =>
    isDigitLine rest ||
      match rest.dropWhile Text.isDecimalDigit with
      | '.' :: fraction => isDigitLine fraction
      | _ => false
  | _ => false

/-- The text attached to a long flag: what stands behind an equals sign. -/
def behindLong : List Char → Option (List Char)
  | '=' :: text => some text
  | _ => none

/-- The text attached to a short flag: what stands behind it, or behind an equals sign. -/
def behindShort : List Char → Option (List Char)
  | [] => none
  | '=' :: text => some text
  | text => some text

/-- What a word is, when no double dash stands before it. -/
def classify (s : String) : Word :=
  let other : Word :=
    if isNegativeNumber s.toList || s.toList.contains ' ' then .plain s else .unknown s
  match s.toList with
  | '-' :: '-' :: rest =>
    let name := rest.takeWhile (· ≠ '=')
    if name.isPrefixOf Flag.longForm then
      .flag .help true (behindLong (rest.dropWhile (· ≠ '=')))
    else other
  | ['-'] => .plain s
  | '-' :: c :: rest =>
    match Flag.ofShort? c with
    | some flag => .flag flag false (behindShort rest)
    | none => other
  | _ => .plain s

/-- The words of a command line. -/
def words : List String → List Word
  | [] => []
  | "--" :: rest => .separator :: rest.map .plain
  | s :: rest => classify s :: words rest

/-- Why a command line is refused. -/
inductive Refusal where
  | ignoredValue (flag : Flag) (text : String)
  | unrecognized (words : List String)

/-- The wording of a refusal. -/
def Refusal.message : Refusal → String
  | .ignoredValue flag text =>
    "argument " ++ flag.text ++ ": ignored explicit argument " ++ Text.inspect text
  | .unrecognized words => "unrecognized arguments: " ++ " ".intercalate words

/-- A short flag and those written behind it, each by one character. -/
def shortFlags (flag : Flag) : List Char → Except Refusal (List Flag)
  | [] => .ok [flag]
  | c :: rest =>
    match Flag.ofShort? c with
    | some next => return flag :: (← shortFlags next rest)
    | none => .error (.ignoredValue flag (String.ofList (c :: rest)))

/-- The flags written in one word.  What is attached to a short flag is more of them; a long flag
takes nothing, and an empty text is attached in vain. -/
def flagsOf (flag : Flag) (long : Bool) : Option (List Char) → Except Refusal (List Flag)
  | none => .ok [flag]
  | some text =>
    if long || text.isEmpty then .error (.ignoredValue flag (String.ofList text))
    else shortFlags flag text

/-- What a command line asks for. -/
inductive Request where
  | help
  | execute (verbosity : Nat) (program : Option String)

/-- What has been read of a command line. -/
structure Progress where
  verbosity : Nat
  /-- The program word, once its place has been passed. -/
  program : Option (Option String)
  leftOver : List String

/-- The program word at the front of some words: a double dash may stand on either side of it. -/
def takeProgram (ws : List Word) : Option String × List Word :=
  let skip : List Word → List Word
    | .separator :: rest => rest
    | rest => rest
  match skip ws with
  | .plain s :: rest => (some s, skip rest)
  | rest => (none, rest)

/-- Reads the words from left to right.  The request for help is met at once. -/
def readWords : (fuel : Nat) → List Word → Progress → Except Refusal Request
  | 0, _, p => .ok (.execute p.verbosity p.program.join)
  | fuel + 1, ws, p =>
    match ws with
    | [] =>
      if p.leftOver.isEmpty then .ok (.execute p.verbosity p.program.join)
      else .error (.unrecognized p.leftOver)
    | .unknown s :: rest => readWords fuel rest { p with leftOver := p.leftOver ++ [s] }
    | .flag flag long attached :: rest => do
      let flags ← flagsOf flag long attached
      if flags.contains .help then return .help
      else readWords fuel rest { p with verbosity := p.verbosity + flags.length }
    | word :: rest =>
      if p.program.isNone then
        let (program, rest) := takeProgram (word :: rest)
        readWords fuel rest { p with program := some program }
      else readWords fuel rest { p with leftOver := p.leftOver ++ [word.text] }

/-- What a command line asks for. -/
def request (args : List String) : Except Refusal Request :=
  readWords (args.length + 1) (words args) ⟨0, none, []⟩

/-- The line that shows how the command is called. -/
def usage : String := "usage: shiba [-h] [-v] [program]\n"

/-- The help text. -/
def helpText : String :=
  usage ++ "\nShiba language interpreter\n\npositional arguments:\n" ++
    "  program     Shiba program file (.sb) to execute\n\noptions:\n" ++
    "  -h, --help  show this help message and exit\n" ++
    "  -v          increase debug verbosity (can be repeated)\n"

/-- The settings a run takes from the environment. -/
structure Settings where
  /-- How much is traced: a number, or anything else for the first level. -/
  debug : Option String
  /-- The directory of standard modules. -/
  standardDirectory : Option String

/-- How much a setting asks to be traced. -/
def debugLevel : Option String → Int
  | none => 0
  | some s => if s.isEmpty then 0 else max ((Text.readInt? s).getD 1) 1

/-- What is written by a command, and how it ends. -/
structure Result where
  out : String
  err : String
  finish : Finish

/-- What is left to do once a command line has been read. -/
inductive Plan where
  | finish (result : Result)
  | interact (cfg : Config)
  | execute (cfg : Config) (program : String)

/-- The configuration of a run in a directory. -/
def configure (files : FileSystem) (directory : String) (settings : Settings) (verbosity : Nat) :
    Config :=
  { Config.standard with
    debugLevel := verbosity + debugLevel settings.debug
    standardDirectory := match settings.standardDirectory with
      | none | some "" => Config.bundledDirectory
      | some path => Path.absolute directory path
    files := files }

/-- Reads a command line.  Without a program, or with an empty name, a person is asked. -/
def plan (files : FileSystem) (directory : String) (settings : Settings) (args : List String) :
    Plan :=
  match request args with
  | .error refusal =>
    .finish ⟨"", usage ++ "shiba: error: " ++ refusal.message ++ "\n", .exit 2⟩
  | .ok .help => .finish ⟨helpText, "", .exit 0⟩
  | .ok (.execute verbosity program) =>
    let cfg := configure files directory settings verbosity
    match program with
    | none | some "" => .interact cfg
    | some program => .execute cfg program

/-- Runs a program file. -/
def execute (cfg : Config) (directory program : String) : Result :=
  match Run.file cfg.files directory program with
  | .error e => ⟨"", program ++ ": cannot load: " ++ e.message ++ "\n", .exit 1⟩
  | .ok m =>
    let (result, state) := (Run.program cfg m).run State.initial
    let out := Repl.outputText state.output
    match result with
    | .ok code => ⟨out, "", .exit code⟩
    | .error (.crash reason) => ⟨out, "", .crash reason⟩
    | .error stop => ⟨out, Repl.stopText stop ++ "\n", .exit 1⟩

end Shiba.CommandLine

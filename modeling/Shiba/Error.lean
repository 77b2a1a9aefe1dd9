import Shiba.FileSystem
import Shiba.Source.Fault
import Shiba.Value.Basic

/-!
# Errors

A `Cause` says what went wrong, an `Error` adds where.  `Cause.message` is the only place where
errors are put into words.  A cause belongs to a `Category`, whose name stands in front of the
message.

Evaluation stops for other reasons as well: `Stop` adds a program's request to exit, a nesting
of calls or of data that went too deep, a crash, which nothing reports as an error and which ends
the whole run, and the end of the fuel of a run.
-/

namespace Shiba

/-- The constructs that may only stand inside a loop or a function. -/
inductive Jump where
  | breakLoop
  | continueLoop
  | returnValue
deriving DecidableEq

/-- Where such a construct is missing its surroundings. -/
def Jump.message : Jump → String
  | .breakLoop => "break outside loop"
  | .continueLoop => "continue outside loop"
  | .returnValue => "return outside function"

/-- What a number outside its range did to a mathematical function. -/
inductive MathFault where
  | domain
  | range
  | infinityToInteger
  | nanToInteger
deriving DecidableEq

/-- The wording of a mathematical fault. -/
def MathFault.message : MathFault → String
  | .domain => "math domain error"
  | .range => "math range error"
  | .infinityToInteger => "cannot convert float infinity to integer"
  | .nanToInteger => "cannot convert float NaN to integer"

/-- Failures of the machine itself, which no program should be able to reach. -/
inductive Invariant where
  | noBlockToPop
  | noFunctionToPop
  | moduleUndefined (key : String)
  | notASequence (kind : Kind)
  | outOfRange (index size : Nat)
  | missingField (field : String)
  | missingArgument (function : String)
  | zeroDivisor
deriving DecidableEq

/-- The wording of a failure of the machine. -/
def Invariant.message : Invariant → String
  | .noBlockToPop => "no block scope to pop"
  | .noFunctionToPop => "no function scope to pop"
  | .moduleUndefined key => "module undefined: " ++ key
  | .notASequence kind => kind.text ++ " cannot be viewed as a sequence"
  | .outOfRange index size =>
    "no element " ++ toString index ++ " in a sequence of " ++ toString size
  | .missingField field => "no field " ++ field
  | .missingArgument function => "no argument left for " ++ function
  | .zeroDivisor => "integer division by zero"

/-- What went wrong. -/
inductive Cause where
  | source (fault : Source.Fault)
  | undefined (name : String)
  | keyNotFound (container key : Value) (shown : String)
  | typeMismatch (expected actual : String)
  | invalidIndex (index : Int64) (length : Nat)
  | invalidBinaryOp (op left right : String)
  | invalidUnaryOp (op operand : String)
  | invalidAssignOp (op left right : String)
  | moduleNotFound (name : String)
  | moduleUnreadable (path : String) (failure : AccessError)
  | moduloByZero
  | divisionByZero
  | negativeShift (count : Int64)
  | assignmentSize (left right : Nat)
  | unpackOperands
  | unpackSize (left : Nat) (shown : String)
  | multipleTargets (op : String)
  | multipleValues (op : String)
  | sliceTarget
  | invalidTarget (form : String)
  | textElement
  | noField (structName field : String)
  | noMember (structName member : String)
  | unknownField (structName field : String)
  | duplicateField (structName field : String)
  | arity (name : String) (expected given : Nat)
  | jumpOutside (jump : Jump)
  | jumpOutsideIn (jump : Jump) (function : String)
  | mathematical (name : String) (fault : MathFault)
  | tooDeep
  | invariant (failure : Invariant)

/-- The families of causes. -/
inductive Category where
  | tokenize | parse | undefinedIdent | dictKeyNotFound | typeMismatch | invalidIndex
  | invalidBinaryOp | invalidUnaryOp | invalidAssignOp | importing | evaluation | internal
deriving DecidableEq

/-- The name of a family. -/
def Category.text : Category → String
  | .tokenize => "Tokenize"
  | .parse => "Parse"
  | .undefinedIdent => "UndefinedIdent"
  | .dictKeyNotFound => "DictKeyNotFound"
  | .typeMismatch => "TypeMismatch"
  | .invalidIndex => "InvalidIndex"
  | .invalidBinaryOp => "InvalidBinaryOp"
  | .invalidUnaryOp => "InvalidUnaryOp"
  | .invalidAssignOp => "InvalidAssignOp"
  | .importing => "Import"
  | .evaluation => "Eval"
  | .internal => "Internal"

namespace Cause

/-- The family a cause belongs to. -/
def category : Cause → Category
  | .source (.lexical _) => .tokenize
  | .source (.grammatical _) => .parse
  | .undefined _ => .undefinedIdent
  | .keyNotFound .. => .dictKeyNotFound
  | .typeMismatch .. => .typeMismatch
  | .invalidIndex .. => .invalidIndex
  | .invalidBinaryOp .. => .invalidBinaryOp
  | .invalidUnaryOp .. => .invalidUnaryOp
  | .invalidAssignOp .. => .invalidAssignOp
  | .moduleNotFound _ => .importing
  | .moduleUnreadable .. => .importing
  | .invariant _ => .internal
  | _ => .evaluation

/-- The wording of a cause. -/
def message : Cause → String
  | .source fault => fault.message
  | .undefined name => "identifier " ++ name ++ " is undefined"
  | .keyNotFound _ _ shown => "key " ++ shown ++ " is not found in dict"
  | .typeMismatch expected actual => expected ++ " is expected but got " ++ actual
  | .invalidIndex index length =>
    "index " ++ toString index.toInt ++ " out of range (length " ++ toString length ++ ")"
  | .invalidBinaryOp op left right => "invalid operation " ++ left ++ " [" ++ op ++ "] " ++ right
  | .invalidUnaryOp op operand => "invalid operation [" ++ op ++ "]" ++ operand
  | .invalidAssignOp op left right => "invalid assignment " ++ left ++ " [" ++ op ++ "] " ++ right
  | .moduleNotFound name => "module " ++ name ++ " is not found"
  | .moduleUnreadable path failure => "cannot load module " ++ path ++ ": " ++ failure.message
  | .moduloByZero => "modulo by zero"
  | .divisionByZero => "division by zero"
  | .negativeShift count => "negative shift count " ++ toString count.toInt
  | .assignmentSize left right =>
    "assignment size mismatch: " ++ toString left ++ " = " ++ toString right
  | .unpackOperands => ":= cannot have multiple operands on the right side"
  | .unpackSize left shown => "unpack size mismatch: " ++ toString left ++ " := " ++ shown
  | .multipleTargets op => "cannot assign to multiple values by " ++ op
  | .multipleValues op => "cannot assign multiple values with " ++ op
  | .sliceTarget => "cannot assign to a slice"
  | .invalidTarget form => "cannot assign to " ++ form
  | .textElement => "str does not support item assignment"
  | .noField structName field => structName ++ " has no field " ++ field
  | .noMember structName member => structName ++ " has no field or method " ++ member
  | .unknownField structName field => "struct " ++ structName ++ " has no field " ++ field
  | .duplicateField structName field => "duplicate field " ++ field ++ " in struct " ++ structName
  | .arity name expected given =>
    name ++ " takes " ++ toString expected ++ " argument(s) but " ++ toString given ++ " given"
  | .jumpOutside jump => jump.message
  | .jumpOutsideIn jump function => jump.message ++ " in " ++ function
  | .mathematical name fault => name ++ ": " ++ fault.message
  | .tooDeep => "maximum recursion depth exceeded"
  | .invariant failure => failure.message

end Cause

/-- What no error is made of, so that it ends the whole run. -/
inductive Crash where
  /-- A value that is shown at the prompt is nested too deep. -/
  | shownTooDeep
  /-- An integer literal has more digits than are ever read. -/
  | literalTooLong
deriving DecidableEq

/-- The crash that a fault is instead of an error. -/
def Source.Fault.crash? : Source.Fault → Option Crash
  | .grammatical (.literalTooLong _) => some .literalTooLong
  | _ => none

/-- Nothing in a text crashes but a literal that is too long. -/
theorem Source.Fault.eq_of_crash? {reason : Crash} (fault : Source.Fault)
    (isCrash : fault.crash? = some reason) : reason = .literalTooLong := by
  unfold crash? at isCrash
  split at isCrash <;> cases isCrash
  rfl

/-- More text never mends what crashes. -/
theorem Source.Fault.not_incomplete_of_crash? {fault : Source.Fault} {reason : Crash}
    (isCrash : fault.crash? = some reason) : fault.incomplete = false := by
  unfold crash? at isCrash
  split at isCrash
  · rfl
  · cases isCrash

/-- What went wrong and where, if that is known. -/
structure Error where
  cause : Cause
  location : Option Location

namespace Error

/-- An error whose place is not known yet. -/
def ofCause (cause : Cause) : Error := ⟨cause, none⟩

/-- Gives a place to an error that has none: the innermost place wins. -/
def locate (e : Error) (l : Location) : Error := ⟨e.cause, some (e.location.getD l)⟩

/-- The fault of a source text as an error of the module it belongs to. -/
def ofFailure (module : String) (f : Source.Failure) : Error :=
  ⟨.source f.fault, some ⟨module, f.position⟩⟩

/-- The full text of an error: the place, the family and the message. -/
def text (e : Error) : String :=
  let shown := e.cause.category.text ++ ": " ++ e.cause.message
  let placed := match e.location with
    | none => shown
    | some l => l.text ++ ": " ++ shown
  if e.cause.category = .internal then "shiba internal error: " ++ placed else placed

end Error

/-- Why an evaluation stops before its end. -/
inductive Stop where
  | error (e : Error)
  | exit (code : Int64)
  | tooDeep
  | crash (reason : Crash)
  | outOfFuel

namespace Stop

/-- A stop for a cause whose place is not known yet. -/
def ofCause (cause : Cause) : Stop := .error (.ofCause cause)

/-- What the failure of a source text stops the module it belongs to with. -/
def ofFailure (module : String) (f : Source.Failure) : Stop :=
  match f.fault.crash? with
  | some reason => .crash reason
  | none => .error (.ofFailure module f)

/-- The failure of a source text is an error at the place of its fault, or it is a crash. -/
theorem ofFailure_eq (module : String) (f : Source.Failure) :
    (∃ reason, f.fault.crash? = some reason ∧ ofFailure module f = .crash reason) ∨
      f.fault.crash? = none ∧ ofFailure module f = .error (.ofFailure module f) := by
  cases crashes : f.fault.crash? with
  | some reason => exact .inl ⟨reason, rfl, by simp only [ofFailure, crashes]⟩
  | none => exact .inr ⟨rfl, by simp only [ofFailure, crashes]⟩

/-- Gives a place to an error that has none. -/
def locate (l : Location) : Stop → Stop
  | .error e => .error (e.locate l)
  | stop => stop

section

variable {α : Type} {result : Except Stop α}

/-- The error that a result is, if it is one. -/
def error? : Except Stop α → Option Error
  | .error (.error e) => some e
  | _ => none

theorem eq_of_error? {e : Error} (given : error? result = some e) : result = .error (.error e) := by
  unfold error? at given
  split at given
  · cases given
    rfl
  · cases given

theorem eq_of_toOption {x : α} (given : result.toOption = some x) : result = .ok x := by
  cases result with
  | ok y => exact congrArg Except.ok (Option.some.inj given)
  | error stop => cases given

end

end Stop

end Shiba

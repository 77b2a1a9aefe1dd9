import Shiba.Token.Basic

/-!
# Faults of a source text

What can be wrong with a text before anything runs: a `Lexical` fault lies inside one token, a
`Grammatical` fault is a token at a place where it cannot stand.  A fault is *incomplete* when
it only says that the text ended too early, so that more text could still make it right: that is
an open string, or a grammatical fault found at the end of the input.
-/

namespace Shiba

namespace Source

/-- What can be wrong inside a token. -/
inductive Lexical where
  | unterminatedString
  | invalidEscape (c : Char)
  | invalidDecimal (text : String)
  | invalidToken (c : Char)
deriving DecidableEq

/-- What can be wrong in the order of tokens; `found` is the token that cannot stand there. -/
inductive Grammatical where
  | expected (wanted : String) (found : Lexeme)
  | moduleNameExpected (found : Lexeme)
  | memberExpected (structName : String) (found : Lexeme)
  | unterminatedBlock
  | rightSideMissing (operator : String) (found : Lexeme)
  | assignmentExpected
  | unexpected (found : Lexeme)
  | literalOverflow (text : String)
  | literalTooLong (text : String)
  | nestingExhausted
deriving DecidableEq

/-- What can be wrong with a text. -/
inductive Fault where
  | lexical (fault : Lexical)
  | grammatical (fault : Grammatical)
deriving DecidableEq

/-- A fault and the place it is reported at. -/
structure Failure where
  fault : Fault
  position : Position
deriving DecidableEq

namespace Lexical

/-- Whether more text could mend the fault. -/
def incomplete : Lexical → Bool
  | .unterminatedString => true
  | _ => false

/-- The wording of a fault. -/
def message : Lexical → String
  | .unterminatedString => "string unterminated"
  | .invalidEscape c => "invalid escape sequence \\" ++ String.singleton c
  | .invalidDecimal text => "invalid decimal expression " ++ text
  | .invalidToken c => "invalid token " ++ Text.inspect (String.singleton c)

end Lexical

namespace Grammatical

/-- Whether more text could mend the fault. -/
def incomplete : Grammatical → Bool
  | .expected _ found => found = .eof
  | .moduleNameExpected found => found = .eof
  | .memberExpected _ found => found = .eof
  | .unterminatedBlock => true
  | .rightSideMissing _ found => found = .eof
  | .assignmentExpected => false
  | .unexpected found => found = .eof
  | .literalOverflow _ => false
  | .literalTooLong _ => false
  | .nestingExhausted => false

/-- The wording of a fault. -/
def message : Grammatical → String
  | .expected wanted found => wanted ++ " is expected but found " ++ found.describe
  | .moduleNameExpected found => "module name is expected but found " ++ found.describe
  | .memberExpected structName found =>
    "field or method is expected in struct " ++ structName ++ " but found " ++ found.describe
  | .unterminatedBlock => "unterminated block"
  | .rightSideMissing operator _ => "right side of " ++ operator ++ " is missing"
  | .assignmentExpected => "an assignment operator is expected after multiple expressions"
  | .unexpected found => "unexpected " ++ found.describe
  | .literalOverflow text => "integer literal " ++ text ++ " overflows i64"
  | .literalTooLong text =>
    "integer literal of " ++ toString text.length ++ " digits cannot be converted"
  | .nestingExhausted => "nesting is too deep"

end Grammatical

namespace Fault

/-- Whether more text could mend the fault. -/
def incomplete : Fault → Bool
  | .lexical fault => fault.incomplete
  | .grammatical fault => fault.incomplete

/-- The wording of a fault. -/
def message : Fault → String
  | .lexical fault => fault.message
  | .grammatical fault => fault.message

end Fault

end Source

end Shiba

import Shiba.Token.Scan
import Shiba.Expr.Basic

/-!
# Taking tokens

A `Parser` takes tokens off the front of a sequence and answers something made of them, or the
failure that stopped it.  How a parser looks at the front depends on its `Mode`: inside brackets
newlines between tokens mean nothing and are skipped, and in the header of a conditional or a
loop a brace after a name opens the body and not a struct initialiser.
-/

namespace Shiba

/-- A parser: tokens in, an answer and the tokens left over out. -/
abbrev Parser := StateT Tokens (Except Source.Failure)

/-- How the front of the tokens is looked at. -/
structure Mode where
  /-- Newlines are skipped. -/
  multiline : Bool
  /-- A brace after a name opens a body. -/
  header : Bool
deriving DecidableEq

namespace Mode

/-- The mode of a statement on its own line. -/
def plain : Mode := ⟨false, false⟩

/-- The mode of what stands inside brackets. -/
def bracketed : Mode := ⟨true, false⟩

/-- The mode of the header of a conditional or a loop. -/
def heading : Mode := ⟨false, true⟩

end Mode

namespace Parser

/-- Skips newlines; a lexical fault behind them is met at once. -/
def skipNewlines : Parser Unit := do
  modify Tokens.skipNewlines
  let _ ← MonadExcept.ofExcept (← get).front

/-- The token at the front. -/
def peek (mode : Mode) : Parser Token := do
  if mode.multiline then modify Tokens.skipNewlines
  MonadExcept.ofExcept (← get).front

/-- Takes the token at the front. -/
def next (mode : Mode) : Parser Token := do
  let t ← peek mode
  modify Tokens.rest
  return t

/-- Reports a fault of the grammar at a token. -/
def fail {α : Type} (fault : Source.Grammatical) (t : Token) : Parser α :=
  throw ⟨.grammatical fault, t.position⟩

/-- Whether the token at the front says `lexeme`. -/
def atLexeme (mode : Mode) (lexeme : Lexeme) : Parser Bool := do
  return (← peek mode).lexeme = lexeme

/-- Whether the token at the front is a given punctuator. -/
def atMark (mode : Mode) (mark : Punctuator) : Parser Bool := atLexeme mode (.punct mark)

/-- Takes a token that has to say `lexeme`. -/
def consume (mode : Mode) (lexeme : Lexeme) : Parser Token := do
  let t ← peek mode
  if t.lexeme = lexeme then next mode else fail (.expected lexeme.className t.lexeme) t

/-- Takes a punctuator. -/
def consumeMark (mode : Mode) (mark : Punctuator) : Parser Token := consume mode (.punct mark)

/-- Takes a name. -/
def consumeName (mode : Mode) : Parser Ident := do
  let t ← peek mode
  match t.lexeme with
  | .ident name =>
    let _ ← next mode
    return ⟨t.position, name⟩
  | found => fail (.expected "IDENT" found) t

/-- Reports that the fuel of a loop or of the nesting has run out. -/
def exhausted {α : Type} : Parser α := do
  fail .nestingExhausted (← peek .plain)

/-- Items divided by commas up to a closing bracket, which is not taken.  A comma may follow the
last item. -/
def separated {α : Type} (item : Parser α) (close : Punctuator) : (fuel : Nat) → Parser (List α)
  | 0 => exhausted
  | fuel + 1 => do
    if ← atMark .bracketed close then return []
    let x ← item
    if ← atMark .bracketed .comma then
      let _ ← next .bracketed
      let xs ← separated item close fuel
      return x :: xs
    else return [x]

/-- Items divided by commas between two brackets, and the token of the opening bracket. -/
def enclosed {α : Type} (item : Parser α) (opening close : Punctuator) (fuel : Nat) :
    Parser (Token × List α) := do
  let t ← consumeMark .bracketed opening
  let xs ← separated item close fuel
  let _ ← consumeMark .bracketed close
  return (t, xs)

end Parser

end Shiba

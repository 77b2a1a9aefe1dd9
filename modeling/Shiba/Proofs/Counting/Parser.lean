import Shiba.Program

/-!
# Parsing with a count of open brackets

A parser is told the mode it looks at the front in.  The parser of this module keeps in its state what
the mode is made of: how many brackets are open, and whether a brace after a name opens a body.  Brackets
raise the count and lower it again, the header of a conditional or a loop sets the mark and puts it back,
and a block starts afresh and then puts both back (`within`), also when the parser fails inside.

`Counting.statement` moreover notes down what each call has done that answered a statement, so that
something can be said of all the calls, those for the statements of a block included.
-/

namespace Shiba.Counting

open Shiba.Expr (greatestLiteral unaryOp? binaryOp?)
open Shiba.Stmt (assignOp? endsAt)

/-- What a place in a text asks of the parser. -/
structure Flags where
  /-- How many brackets are open. -/
  nesting : Nat
  /-- A brace after a name opens a body. -/
  header : Bool
deriving DecidableEq

namespace Flags

/-- Between two statements. -/
def plain : Flags := ⟨0, false⟩

/-- Inside one more bracket. -/
def bracketed (flags : Flags) : Flags := ⟨flags.nesting + 1, false⟩

/-- In the header of a conditional or a loop. -/
def heading (flags : Flags) : Flags := { flags with header := true }

end Flags

/-- A call that answered a statement: the tokens it was given and those it left, and the flags behind
it. -/
structure Call where
  before : Tokens
  after : Tokens
  flags : Flags

/-- What the parser keeps. -/
structure Cursor where
  tokens : Tokens
  flags : Flags
  calls : List Call

/-- At the start of a text. -/
def Cursor.ofText (s : String) : Cursor := ⟨Tokens.ofText s, .plain, []⟩

/-- A parser that keeps its place also when it fails. -/
abbrev CountingParser := ExceptT Source.Failure (StateM Cursor)

/-! ## Taking tokens -/

/-- Drops the newlines at the front. -/
def dropNewlines : CountingParser Unit := modify fun c => { c with tokens := c.tokens.skipNewlines }

/-- The token at the front, whatever it is. -/
def front : CountingParser Token := do MonadExcept.ofExcept (← get).tokens.front

/-- Skips newlines; a lexical fault behind them is met at once. -/
def skipNewlines : CountingParser Unit := do
  dropNewlines
  let _ ← front

/-- The token at the front; inside brackets newlines are skipped. -/
def peek : CountingParser Token := do
  if 0 < (← get).flags.nesting then dropNewlines
  front

/-- Takes the token at the front. -/
def next : CountingParser Token := do
  let t ← peek
  modify fun c => { c with tokens := c.tokens.rest }
  return t

/-- Whether a brace after a name opens a body. -/
def inHeader? : CountingParser Bool := do return (← get).flags.header

/-- The place in the text, to come back to. -/
def mark : CountingParser Tokens := do return (← get).tokens

/-- Comes back to a place in the text. -/
def reset (place : Tokens) : CountingParser Unit := modify fun c => { c with tokens := place }

/-- Reports a fault of the grammar at a token. -/
def fail {α : Type} (fault : Source.Grammatical) (t : Token) : CountingParser α :=
  throw ⟨.grammatical fault, t.position⟩

/-- Reports that the fuel of a loop or of the nesting has run out. -/
def exhausted {α : Type} : CountingParser α := do
  fail .nestingExhausted (← front)

/-- Whether the token at the front says `lexeme`. -/
def atLexeme (lexeme : Lexeme) : CountingParser Bool := do
  return (← peek).lexeme = lexeme

/-- Whether the token at the front is a given punctuator. -/
def atMark (mark : Punctuator) : CountingParser Bool := atLexeme (.punct mark)

/-- Takes a token that has to say `lexeme`. -/
def consume (lexeme : Lexeme) : CountingParser Token := do
  let t ← peek
  if t.lexeme = lexeme then next else fail (.expected lexeme.className t.lexeme) t

/-- Takes a punctuator. -/
def consumeMark (mark : Punctuator) : CountingParser Token := consume (.punct mark)

/-- Takes a name. -/
def consumeName : CountingParser Ident := do
  let t ← peek
  match t.lexeme with
  | .ident name =>
    let _ ← next
    return ⟨t.position, name⟩
  | found => fail (.expected "IDENT" found) t

/-! ## Flags that hold for a while -/

/-- A parser for which the flags are changed; behind it, whether it failed or not, they are put right
from what they were before and what they are now. -/
def within {α : Type} (enter : Flags → Flags) (leave : Flags → Flags → Flags) (p : CountingParser α) :
    CountingParser α :=
  ExceptT.mk do
    let before := (← get).flags
    modify fun c => { c with flags := enter before }
    let answer ← p.run
    modify fun c => { c with flags := leave before c.flags }
    return answer

/-- What stands inside brackets. -/
def nested {α : Type} : CountingParser α → CountingParser α :=
  within .bracketed fun before now => ⟨now.nesting - 1, before.header⟩

/-- What stands in a header. -/
def inHeader {α : Type} : CountingParser α → CountingParser α :=
  within .heading fun before now => { now with header := before.header }

/-- What stands in a block behind its opening brace. -/
def inBlock {α : Type} : CountingParser α → CountingParser α :=
  within (fun _ => .plain) fun before _ => before

/-! ## Expressions -/

/-- Items divided by commas up to a closing bracket, which is not taken.  A comma may follow the
last item. -/
def separated {α : Type} (item : CountingParser α) (close : Punctuator) :
    (fuel : Nat) → CountingParser (List α)
  | 0 => exhausted
  | fuel + 1 => do
    if ← atMark close then return []
    let x ← item
    if ← atMark .comma then
      let _ ← next
      let xs ← separated item close fuel
      return x :: xs
    else return [x]

/-- Items divided by commas between two brackets, and the token of the opening bracket. -/
def enclosed {α : Type} (item : CountingParser α) (opening close : Punctuator) (fuel : Nat) :
    CountingParser (Token × List α) :=
  nested do
    let t ← consumeMark opening
    let xs ← separated item close fuel
    let _ ← consumeMark close
    return (t, xs)

/-- The value a number token writes: a float when it has a point, else an integer that has to
fit.  An integer of too many digits is not read at all. -/
def number (t : Token) (text : String) : CountingParser Expr :=
  let digits := text.toList
  if digits.contains '.' then
    return .literal t.position (.float (Decimal.ofDigits digits).toFloat)
  else if Text.digitLimit < digits.length then fail (.literalTooLong text) t
  else
    let n := Decimal.digitsValue digits
    if n ≤ greatestLiteral then return .literal t.position (.int (Int64.ofNat n))
    else fail (.literalOverflow text) t

section Expr

variable (expression : CountingParser Expr)

/-- A key, a colon and a value. -/
def dictEntry : CountingParser (Expr × Expr) := do
  let key ← expression
  let _ ← consumeMark .colon
  let value ← expression
  return (key, value)

/-- A field name, a colon and a value. -/
def fieldEntry : CountingParser (Ident × Expr) := do
  let name ← consumeName
  let _ ← consumeMark .colon
  let value ← expression
  return (name, value)

/-- An expression that is no operation: a literal, a name, a struct initialiser or something in
brackets. -/
def primary (fuel : Nat) : CountingParser Expr := do
  let t ← peek
  match t.lexeme with
  | .number text =>
    let _ ← next
    number t text
  | .string value =>
    let _ ← next
    return .literal t.position (.str value)
  | .keyword .trueWord =>
    let _ ← next
    return .literal t.position (.bool true)
  | .keyword .falseWord =>
    let _ ← next
    return .literal t.position (.bool false)
  | .ident name =>
    let _ ← next
    let brace ← atMark .leftBrace
    let header ← inHeader?
    if brace && !header then
      let (opening, fields) ← enclosed (fieldEntry expression) .leftBrace .rightBrace fuel
      return .structInit t.position name opening.position fields
    else return .ident t.position name
  | .punct .leftParen =>
    nested do
      let _ ← next
      let e ← expression
      let _ ← consumeMark .rightParen
      return e
  | .punct .leftBracket =>
    let (_, elements) ← enclosed expression .leftBracket .rightBracket fuel
    return .list t.position elements
  | .punct .leftBrace =>
    let (_, entries) ← enclosed (dictEntry expression) .leftBrace .rightBrace fuel
    return .dict t.position entries
  | found => fail (.unexpected found) t

/-- The rest of a slice of `target`, from the colon on. -/
def sliceRest (opening : Token) (target : Expr) (first : Option Expr) : CountingParser Expr := do
  let _ ← consumeMark .colon
  let last ← if ← atMark .rightBracket then pure none else some <$> expression
  let _ ← consumeMark .rightBracket
  return .slice opening.position target first last

/-- What stands in square brackets behind `target`: an index, or a slice with either bound left
out. -/
def subscript (target : Expr) : CountingParser Expr :=
  nested do
    let t ← consumeMark .leftBracket
    if ← atMark .colon then sliceRest expression t target none
    else
      let first ← expression
      if ← atMark .colon then sliceRest expression t target (some first)
      else
        let _ ← consumeMark .rightBracket
        return .index t.position target first

/-- The calls, indices and selections behind an expression. -/
def suffixes : (fuel : Nat) → Expr → CountingParser Expr
  | 0, _ => exhausted
  | fuel + 1, e => do
    let t ← peek
    match t.lexeme with
    | .punct .leftParen =>
      let (opening, args) ← enclosed expression .leftParen .rightParen fuel
      suffixes fuel (.call opening.position e args)
    | .punct .leftBracket =>
      let e ← subscript expression e
      suffixes fuel e
    | .punct .dot =>
      let _ ← next
      let name ← consumeName
      suffixes fuel (.select t.position e name.name)
    | _ => return e

/-- An operand behind any number of unary operators. -/
def operand : (fuel : Nat) → CountingParser Expr
  | 0 => exhausted
  | fuel + 1 => do
    let t ← peek
    match unaryOp? t.lexeme with
    | some op =>
      let _ ← next
      let e ← operand fuel
      return .unary t.position op e
    | none =>
      let e ← primary expression (fuel + 1)
      suffixes expression (fuel + 1) e

/-- The operators of one level behind a left operand, each with its right operand. -/
def chain (right : CountingParser Expr) (level : Nat) : (fuel : Nat) → Expr → CountingParser Expr
  | 0, _ => exhausted
  | fuel + 1, e => do
    let t ← peek
    match binaryOp? t.lexeme with
    | some op =>
      if op.level = level then
        let _ ← next
        let r ← right
        chain right level fuel (.binary t.position op e r)
      else return e
    | none => return e

/-- Operands joined by the operators of the last `count` levels of the table. -/
def operation (operand : CountingParser Expr) (fuel : Nat) : (count : Nat) → CountingParser Expr
  | 0 => operand
  | count + 1 => do
    let tighter := operation operand fuel count
    let e ← tighter
    chain tighter (BinaryOp.levels - (count + 1)) fuel e

end Expr

/-- An expression with at most `fuel` nested brackets. -/
def expression : (fuel : Nat) → CountingParser Expr
  | 0 => exhausted
  | fuel + 1 => operation (operand (expression fuel) (fuel + 1)) (fuel + 1) BinaryOp.levels

/-! ## Statements -/

/-- The condition or target in the header of a conditional or a loop. -/
def heading (fuel : Nat) : CountingParser Expr := inHeader (expression fuel)

/-- The names behind further slashes of an import path. -/
def importParts : (fuel : Nat) → CountingParser (List String)
  | 0 => exhausted
  | fuel + 1 => do
    if ← atMark .slash then
      let _ ← next
      let name ← consumeName
      let more ← importParts fuel
      return name.name :: more
    else return []

/-- The rest of an import statement: a quoted path, or names divided by slashes. -/
def importPath (fuel : Nat) : CountingParser String := do
  let t ← peek
  match t.lexeme with
  | .string value =>
    let _ ← next
    return value
  | .ident name =>
    let _ ← next
    let more ← importParts fuel
    return "/".intercalate (name :: more)
  | found => fail (.moduleNameExpected found) t

/-- Expressions divided by commas; a comma may follow the last one. -/
def exprList (bound : Nat) : (fuel : Nat) → CountingParser (List Expr)
  | 0 => exhausted
  | fuel + 1 => do
    let e ← expression bound
    if ← atMark .comma then
      let _ ← next
      let t ← peek
      if (assignOp? t.lexeme).isSome || endsAt t.lexeme then return [e]
      else
        let more ← exprList bound fuel
        return e :: more
    else return [e]

/-- An assignment, or an expression by itself. -/
def simpleStatement (fuel : Nat) : CountingParser Stmt := do
  let left ← exprList fuel fuel
  let t ← peek
  match assignOp? t.lexeme with
  | some op =>
    let _ ← next
    let behind ← peek
    if endsAt behind.lexeme then fail (.rightSideMissing op.text behind.lexeme) behind
    else
      let right ← exprList fuel fuel
      return .assign t.position op left right
  | none =>
    match left with
    | _ :: second :: _ => throw ⟨.grammatical .assignmentExpected, second.position⟩
    | [e] => return .expr e
    | [] => exhausted

/-- A return statement. -/
def returnStatement (fuel : Nat) : CountingParser Stmt := do
  let t ← consume (.keyword .returnWord)
  if endsAt (← peek).lexeme then return .returnValue t.position none
  else
    let e ← expression fuel
    return .returnValue t.position (some e)

/-- The token at the front as a name, which is taken. -/
def name? : CountingParser (Option Ident) := do
  let t ← peek
  match t.lexeme with
  | .ident name =>
    let _ ← next
    return some ⟨t.position, name⟩
  | _ => return none

/-- Takes the loop variables of a loop over a sequence and the word behind them, as far as they are
there. -/
def tryLoopNames : CountingParser (Option (Ident × Ident)) := do
  let some counter ← name? | return none
  if !(← atMark .comma) then return none
  let _ ← next
  let some element ← name? | return none
  if !(← atLexeme (.keyword .inWord)) then return none
  let _ ← next
  return some (counter, element)

/-- The loop variables of a loop over a sequence, with the word behind them.  When the header
does not start that way, the parser goes back to its start. -/
def loopNames? : CountingParser (Option (Ident × Ident)) := do
  let place ← mark
  let found ← tryLoopNames
  if found.isNone then reset place
  return found

section Stmt

variable (statement : CountingParser (Except Position Stmt))

/-- The statements of a block up to its closing brace, which is taken. -/
def blockRest : (fuel : Nat) → CountingParser Block
  | 0 => exhausted
  | fuel + 1 => do
    skipNewlines
    let t ← peek
    if t.lexeme = .punct .rightBrace then
      let _ ← next
      return []
    else if t.lexeme = .eof then fail .unterminatedBlock t
    else
      match ← statement with
      | .ok s =>
        let rest ← blockRest fuel
        return s :: rest
      | .error _ => fail .unterminatedBlock t

/-- Statements in braces. -/
def block (fuel : Nat) : CountingParser Block := do
  let _ ← consumeMark .leftBrace
  inBlock (blockRest statement fuel)

/-- A function declaration. -/
def functionDecl (fuel : Nat) : CountingParser FunctionDecl := do
  let t ← consume (.keyword .defWord)
  let name ← consumeName
  let (_, params) ← enclosed consumeName .leftParen .rightParen fuel
  let body ← block statement fuel
  return .mk t.position name.name (params.map (·.name)) body

/-- The fields and methods of a struct up to the closing brace, which is taken. -/
def members (structName : String) (bound : Nat) :
    (fuel : Nat) → CountingParser (List String × List FunctionDecl)
  | 0 => exhausted
  | fuel + 1 => do
    skipNewlines
    let t ← peek
    match t.lexeme with
    | .punct .rightBrace =>
      let _ ← next
      return ([], [])
    | .ident name =>
      let _ ← next
      let (fields, methods) ← members structName bound fuel
      return (name :: fields, methods)
    | .punct .comma | .comment _ =>
      let _ ← next
      members structName bound fuel
    | .keyword .defWord =>
      let method ← functionDecl statement bound
      let (fields, methods) ← members structName bound fuel
      return (fields, method :: methods)
    | found => fail (.memberExpected structName found) t

/-- A struct declaration. -/
def structDeclaration (fuel : Nat) : CountingParser Stmt := do
  let t ← consume (.keyword .structWord)
  let name ← consumeName
  let _ ← consumeMark .leftBrace
  let (fields, methods) ← members statement name.name fuel fuel
  return .structDecl t.position name.name fields methods

/-- The further branches of a conditional.  They may start on a later line; when there is none, the
parser goes back in front of the newlines it has looked past. -/
def branches (bound : Nat) : (fuel : Nat) → CountingParser (List (Expr × Block) × Option Block)
  | 0 => exhausted
  | fuel + 1 => do
    let place ← mark
    skipNewlines
    let t ← peek
    match t.lexeme with
    | .keyword .elifWord =>
      let _ ← next
      let condition ← heading bound
      let body ← block statement bound
      let (more, otherwise) ← branches bound fuel
      return ((condition, body) :: more, otherwise)
    | .keyword .elseWord =>
      let _ ← next
      let body ← block statement bound
      return ([], some body)
    | _ =>
      reset place
      return ([], none)

/-- A conditional. -/
def ifStatement (fuel : Nat) : CountingParser Stmt := do
  let t ← consume (.keyword .ifWord)
  let condition ← heading fuel
  let body ← block statement fuel
  let (more, otherwise) ← branches statement fuel fuel
  return .conditional t.position ((condition, body) :: more) otherwise

/-- A loop over a sequence, or a loop with a condition. -/
def forStatement (fuel : Nat) : CountingParser Stmt := do
  let t ← consume (.keyword .forWord)
  match ← loopNames? with
  | some (counter, element) =>
    let target ← heading fuel
    let body ← block statement fuel
    return .forIn t.position target counter element body
  | none =>
    let condition ← heading fuel
    let body ← block statement fuel
    return .loop t.position condition body

/-- The statement that starts with a token, when `statement` is for those one block deeper. -/
def statementAt (fuel : Nat) (t : Token) : CountingParser Stmt := do
  match t.lexeme with
  | .comment text =>
    let _ ← next
    return .comment t.position text
  | .keyword .importWord =>
    let _ ← next
    let target ← importPath fuel
    return .importModule t.position target
  | .keyword .defWord => return .function (← functionDecl statement fuel)
  | .keyword .structWord => structDeclaration statement fuel
  | .keyword .ifWord => ifStatement statement fuel
  | .keyword .forWord => forStatement statement fuel
  | .keyword .returnWord => returnStatement fuel
  | .keyword .breakWord =>
    let _ ← next
    return .breakLoop t.position
  | .keyword .continueWord =>
    let _ ← next
    return .continueLoop t.position
  | _ => simpleStatement fuel

end Stmt

/-- A call: behind newlines, the place of the end of the input, or a statement, and then the call is
noted down. -/
def calling (body : Token → CountingParser Stmt) : CountingParser (Except Position Stmt) := do
  let before ← mark
  skipNewlines
  let t ← peek
  if t.lexeme = .eof then return .error t.position
  else
    let s ← body t
    modify fun c => { c with calls := c.calls ++ [⟨before, c.tokens, c.flags⟩] }
    return .ok s

/-- The next statement, with at most `fuel` nested blocks and brackets, or the end of the input. -/
def statement : (fuel : Nat) → CountingParser (Except Position Stmt)
  | 0 => calling fun _ => exhausted
  | fuel + 1 => calling (statementAt (statement fuel) (fuel + 1))

/-- The statements of a text, at most `fuel` of them, each with at most `bound` nested blocks and
brackets. -/
def program (bound : Nat) : (fuel : Nat) → CountingParser Block
  | 0 => exhausted
  | fuel + 1 => do
    match ← statement bound with
    | .error _ => return []
    | .ok s =>
      let rest ← program bound fuel
      return s :: rest

end Shiba.Counting

import Shiba.Expr.Parser
import Shiba.Stmt.Basic

/-!
# Parsing statements

One level of blocks is parsed by `Stmt.parseLevel`, which is given the parser for the statements one
block deeper; `Stmt.parse` ties the two together.  As for expressions the number of tokens is fuel
enough.
-/

namespace Shiba.Stmt

open Shiba.Parser

/-- Whether a statement ends before such a token. -/
def endsAt : Lexeme → Bool
  | .newline | .eof | .punct .rightBrace | .comment _ => true
  | _ => false

/-- The assignment operator a token spells. -/
def assignOp? : Lexeme → Option AssignOp
  | .punct mark => AssignOp.ofMark? mark
  | _ => none

/-- The statements of a block up to its closing brace, which is taken. -/
def blockRest (stmt : Parser Stmt) : (fuel : Nat) → Parser Block
  | 0 => exhausted
  | fuel + 1 => do
    skipNewlines
    let t ← peek .plain
    if t.lexeme = .punct .rightBrace then
      let _ ← next .plain
      return []
    else if t.lexeme = .eof then fail .unterminatedBlock t
    else
      let s ← stmt
      let rest ← blockRest stmt fuel
      return s :: rest

/-- Statements in braces. -/
def block (stmt : Parser Stmt) (fuel : Nat) : Parser Block := do
  let _ ← consumeMark .plain .leftBrace
  blockRest stmt fuel

/-- The condition or target in the header of a conditional or a loop. -/
def heading (fuel : Nat) : Parser Expr := Expr.parse fuel .heading

/-- The rest of an import statement: a quoted path, or names divided by slashes. -/
def importPath (fuel : Nat) : Parser String := do
  let t ← peek .plain
  match t.lexeme with
  | .string value =>
    let _ ← next .plain
    return value
  | .ident name =>
    let _ ← next .plain
    let more ← parts fuel
    return "/".intercalate (name :: more)
  | found => fail (.moduleNameExpected found) t
where
  /-- The names behind further slashes. -/
  parts : (fuel : Nat) → Parser (List String)
    | 0 => exhausted
    | fuel + 1 => do
      if ← atMark .plain .slash then
        let _ ← next .plain
        let name ← consumeName .plain
        let more ← parts fuel
        return name.name :: more
      else return []

/-- A function declaration. -/
def functionDecl (stmt : Parser Stmt) (fuel : Nat) : Parser FunctionDecl := do
  let t ← consume .plain (.keyword .defWord)
  let name ← consumeName .plain
  let (_, params) ← enclosed (consumeName .bracketed) .leftParen .rightParen fuel
  let body ← block stmt fuel
  return .mk t.position name.name (params.map (·.name)) body

/-- The fields and methods of a struct up to the closing brace, which is taken. -/
def members (stmt : Parser Stmt) (structName : String) (bound : Nat) :
    (fuel : Nat) → Parser (List String × List FunctionDecl)
  | 0 => exhausted
  | fuel + 1 => do
    skipNewlines
    let t ← peek .plain
    match t.lexeme with
    | .punct .rightBrace =>
      let _ ← next .plain
      return ([], [])
    | .ident name =>
      let _ ← next .plain
      let (fields, methods) ← members stmt structName bound fuel
      return (name :: fields, methods)
    | .punct .comma | .comment _ =>
      let _ ← next .plain
      members stmt structName bound fuel
    | .keyword .defWord =>
      let method ← functionDecl stmt bound
      let (fields, methods) ← members stmt structName bound fuel
      return (fields, method :: methods)
    | found => fail (.memberExpected structName found) t

/-- A struct declaration. -/
def structDeclaration (stmt : Parser Stmt) (fuel : Nat) : Parser Stmt := do
  let t ← consume .plain (.keyword .structWord)
  let name ← consumeName .plain
  let _ ← consumeMark .plain .leftBrace
  let (fields, methods) ← members stmt name.name fuel fuel
  return .structDecl t.position name.name fields methods

/-- The further branches of a conditional.  They may start on a later line; when there is none, the
newlines looked past are left for the next statement. -/
def branches (stmt : Parser Stmt) (bound : Nat) :
    (fuel : Nat) → Parser (List (Expr × Block) × Option Block)
  | 0 => exhausted
  | fuel + 1 => do
    let place ← get
    skipNewlines
    let t ← peek .plain
    match t.lexeme with
    | .keyword .elifWord =>
      let _ ← next .plain
      let condition ← heading bound
      let body ← block stmt bound
      let (more, otherwise) ← branches stmt bound fuel
      return ((condition, body) :: more, otherwise)
    | .keyword .elseWord =>
      let _ ← next .plain
      let body ← block stmt bound
      return ([], some body)
    | _ =>
      set place
      return ([], none)

/-- A conditional. -/
def ifStatement (stmt : Parser Stmt) (fuel : Nat) : Parser Stmt := do
  let t ← consume .plain (.keyword .ifWord)
  let condition ← heading fuel
  let body ← block stmt fuel
  let (more, otherwise) ← branches stmt fuel fuel
  return .conditional t.position ((condition, body) :: more) otherwise

/-- The token at the front as a name, which is taken. -/
def name? : Parser (Option Ident) := do
  let t ← peek .plain
  match t.lexeme with
  | .ident name =>
    let _ ← next .plain
    return some ⟨t.position, name⟩
  | _ => return none

/-- The loop variables of a loop over a sequence, with the word behind them.  When the header
does not start that way, nothing is taken. -/
def loopNames? : Parser (Option (Ident × Ident)) := do
  let place ← get
  let found ← attempt
  if found.isNone then set place
  return found
where
  /-- Takes the loop variables as far as they are there. -/
  attempt : Parser (Option (Ident × Ident)) := do
    let some counter ← name? | return none
    if !(← atMark .plain .comma) then return none
    let _ ← next .plain
    let some element ← name? | return none
    if !(← atLexeme .plain (.keyword .inWord)) then return none
    let _ ← next .plain
    return some (counter, element)

/-- A loop over a sequence, or a loop with a condition. -/
def forStatement (stmt : Parser Stmt) (fuel : Nat) : Parser Stmt := do
  let t ← consume .plain (.keyword .forWord)
  match ← loopNames? with
  | some (counter, element) =>
    let target ← heading fuel
    let body ← block stmt fuel
    return .forIn t.position target counter element body
  | none =>
    let condition ← heading fuel
    let body ← block stmt fuel
    return .loop t.position condition body

/-- A return statement. -/
def returnStatement (fuel : Nat) : Parser Stmt := do
  let t ← consume .plain (.keyword .returnWord)
  if endsAt (← peek .plain).lexeme then return .returnValue t.position none
  else
    let e ← Expr.parse fuel .plain
    return .returnValue t.position (some e)

/-- Expressions divided by commas; a comma may follow the last one. -/
def exprList (bound : Nat) : (fuel : Nat) → Parser (List Expr)
  | 0 => exhausted
  | fuel + 1 => do
    let e ← Expr.parse bound .plain
    if ← atMark .plain .comma then
      let _ ← next .plain
      let t ← peek .plain
      if (assignOp? t.lexeme).isSome || endsAt t.lexeme then return [e]
      else
        let more ← exprList bound fuel
        return e :: more
    else return [e]

/-- An assignment, or an expression by itself. -/
def simpleStatement (fuel : Nat) : Parser Stmt := do
  let left ← exprList fuel fuel
  let t ← peek .plain
  match assignOp? t.lexeme with
  | some op =>
    let _ ← next .plain
    let behind ← peek .plain
    if endsAt behind.lexeme then fail (.rightSideMissing op.text behind.lexeme) behind
    else
      let right ← exprList fuel fuel
      return .assign t.position op left right
  | none =>
    match left with
    | _ :: second :: _ => throw ⟨.grammatical .assignmentExpected, second.position⟩
    | [e] => return .expr e
    | [] => exhausted

/-- One level of blocks of a statement. -/
def parseLevel (stmt : Parser Stmt) (fuel : Nat) : Parser Stmt := do
  let t ← peek .plain
  match t.lexeme with
  | .comment text =>
    let _ ← next .plain
    return .comment t.position text
  | .keyword .importWord =>
    let _ ← next .plain
    let target ← importPath fuel
    return .importModule t.position target
  | .keyword .defWord => return .function (← functionDecl stmt fuel)
  | .keyword .structWord => structDeclaration stmt fuel
  | .keyword .ifWord => ifStatement stmt fuel
  | .keyword .forWord => forStatement stmt fuel
  | .keyword .returnWord => returnStatement fuel
  | .keyword .breakWord =>
    let _ ← next .plain
    return .breakLoop t.position
  | .keyword .continueWord =>
    let _ ← next .plain
    return .continueLoop t.position
  | _ => simpleStatement fuel

/-- Parses a statement with at most `fuel` nested blocks. -/
def parse : (fuel : Nat) → Parser Stmt
  | 0 => exhausted
  | fuel + 1 => parseLevel (parse fuel) (fuel + 1)

end Shiba.Stmt

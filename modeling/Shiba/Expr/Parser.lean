import Shiba.Source.Parser
import Shiba.Decimal.Notation
import Shiba.Text.Blank

/-!
# Parsing expressions

One level of brackets of an expression is parsed by `Expr.parseLevel`, which is given the parser
for what stands inside brackets one level deeper; `Expr.parse` ties the two together.  Every
deeper level takes an opening bracket, so that the number of tokens is fuel enough, both for the
nesting and for the loops inside one level.

Inside one level an operand is a primary with its suffixes (calls, indices, selections) behind any
number of unary operators, and binary operators follow the table of `BinaryOp.level`.
-/

namespace Shiba.Expr

open Shiba.Parser

/-- The greatest integer a literal can write, `2 ^ 63 - 1`. -/
def greatestLiteral : Nat := 0x7fffffffffffffff

/-- The value a number token writes: a float when it has a point, else an integer that has to
fit.  An integer of too many digits is not read at all. -/
def number (t : Token) (text : String) : Parser Expr :=
  let digits := text.toList
  if digits.contains '.' then
    return .literal t.position (.float (Decimal.ofDigits digits).toFloat)
  else if Text.digitLimit < digits.length then fail (.literalTooLong text) t
  else
    let n := Decimal.digitsValue digits
    if n ≤ greatestLiteral then return .literal t.position (.int (Int64.ofNat n))
    else fail (.literalOverflow text) t

/-- A key, a colon and a value. -/
def dictEntry (nested : Parser Expr) : Parser (Expr × Expr) := do
  let key ← nested
  let _ ← consumeMark .bracketed .colon
  let value ← nested
  return (key, value)

/-- A field name, a colon and a value. -/
def fieldEntry (nested : Parser Expr) : Parser (Ident × Expr) := do
  let name ← consumeName .bracketed
  let _ ← consumeMark .bracketed .colon
  let value ← nested
  return (name, value)

/-- An expression that is no operation: a literal, a name, a struct initialiser or something in
brackets. -/
def primary (nested : Parser Expr) (mode : Mode) (fuel : Nat) : Parser Expr := do
  let t ← peek mode
  match t.lexeme with
  | .number text =>
    let _ ← next mode
    number t text
  | .string value =>
    let _ ← next mode
    return .literal t.position (.str value)
  | .keyword .trueWord =>
    let _ ← next mode
    return .literal t.position (.bool true)
  | .keyword .falseWord =>
    let _ ← next mode
    return .literal t.position (.bool false)
  | .ident name =>
    let _ ← next mode
    let brace ← atMark mode .leftBrace
    if brace && !mode.header then
      let (opening, fields) ← enclosed (fieldEntry nested) .leftBrace .rightBrace fuel
      return .structInit t.position name opening.position fields
    else return .ident t.position name
  | .punct .leftParen =>
    let _ ← next .bracketed
    let e ← nested
    let _ ← consumeMark .bracketed .rightParen
    return e
  | .punct .leftBracket =>
    let (_, elements) ← enclosed nested .leftBracket .rightBracket fuel
    return .list t.position elements
  | .punct .leftBrace =>
    let (_, entries) ← enclosed (dictEntry nested) .leftBrace .rightBrace fuel
    return .dict t.position entries
  | found => fail (.unexpected found) t

/-- The rest of a slice of `target`, from the colon on. -/
def sliceRest (nested : Parser Expr) (opening : Token) (target : Expr) (first : Option Expr) :
    Parser Expr := do
  let _ ← consumeMark .bracketed .colon
  let last ← if ← atMark .bracketed .rightBracket then pure none else some <$> nested
  let _ ← consumeMark .bracketed .rightBracket
  return .slice opening.position target first last

/-- What stands in square brackets behind `target`: an index, or a slice with either bound left
out. -/
def subscript (nested : Parser Expr) (target : Expr) : Parser Expr := do
  let t ← consumeMark .bracketed .leftBracket
  if ← atMark .bracketed .colon then sliceRest nested t target none
  else
    let first ← nested
    if ← atMark .bracketed .colon then sliceRest nested t target (some first)
    else
      let _ ← consumeMark .bracketed .rightBracket
      return .index t.position target first

/-- The calls, indices and selections behind an expression. -/
def suffixes (nested : Parser Expr) (mode : Mode) : (fuel : Nat) → Expr → Parser Expr
  | 0, _ => exhausted
  | fuel + 1, e => do
    let t ← peek mode
    match t.lexeme with
    | .punct .leftParen =>
      let (opening, args) ← enclosed nested .leftParen .rightParen fuel
      suffixes nested mode fuel (.call opening.position e args)
    | .punct .leftBracket =>
      let e ← subscript nested e
      suffixes nested mode fuel e
    | .punct .dot =>
      let _ ← next mode
      let name ← consumeName mode
      suffixes nested mode fuel (.select t.position e name.name)
    | _ => return e

/-- The unary operator a token spells. -/
def unaryOp? : Lexeme → Option UnaryOp
  | .punct mark => UnaryOp.ofMark? mark
  | _ => none

/-- The binary operator a token spells. -/
def binaryOp? : Lexeme → Option BinaryOp
  | .punct mark => BinaryOp.ofMark? mark
  | _ => none

/-- An operand behind any number of unary operators. -/
def operand (nested : Parser Expr) (mode : Mode) : (fuel : Nat) → Parser Expr
  | 0 => exhausted
  | fuel + 1 => do
    let t ← peek mode
    match unaryOp? t.lexeme with
    | some op =>
      let _ ← next mode
      let e ← operand nested mode fuel
      return .unary t.position op e
    | none =>
      let e ← primary nested mode (fuel + 1)
      suffixes nested mode (fuel + 1) e

/-- The operators of one level behind a left operand, each with its right operand. -/
def chain (right : Parser Expr) (mode : Mode) (level : Nat) : (fuel : Nat) → Expr → Parser Expr
  | 0, _ => exhausted
  | fuel + 1, e => do
    let t ← peek mode
    match binaryOp? t.lexeme with
    | some op =>
      if op.level = level then
        let _ ← next mode
        let r ← right
        chain right mode level fuel (.binary t.position op e r)
      else return e
    | none => return e

/-- Operands joined by the operators of the last `count` levels of the table. -/
def operation (operand : Parser Expr) (mode : Mode) (fuel : Nat) : (count : Nat) → Parser Expr
  | 0 => operand
  | count + 1 => do
    let tighter := operation operand mode fuel count
    let e ← tighter
    chain tighter mode (BinaryOp.levels - (count + 1)) fuel e

/-- One level of brackets of an expression. -/
def parseLevel (nested : Parser Expr) (mode : Mode) (fuel : Nat) : Parser Expr :=
  operation (operand nested mode fuel) mode fuel BinaryOp.levels

/-- Parses an expression with at most `fuel` nested brackets. -/
def parse : (fuel : Nat) → Mode → Parser Expr
  | 0, _ => exhausted
  | fuel + 1, mode => parseLevel (parse fuel .bracketed) mode (fuel + 1)

end Shiba.Expr

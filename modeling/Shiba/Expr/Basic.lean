import Shiba.Operator.Basic

/-!
# Expressions

An expression node carries the position of the token that introduces it, which is where an error of
that node is reported: the operator of an operation, the opening bracket of a call, an index or a
literal list, the dot of a selection.
-/

namespace Shiba

/-- The values that can be written directly. -/
inductive Literal where
  | int (n : Int64)
  | float (x : Float)
  | str (s : String)
  | bool (b : Bool)

/-- A name and where it stands. -/
structure Ident where
  position : Position
  name : String
deriving DecidableEq

/-- Expressions.  The entries of a dictionary and of a struct initialiser are in source order; a
struct initialiser also keeps the place of its opening brace. -/
inductive Expr where
  | literal (position : Position) (value : Literal)
  | list (position : Position) (elements : List Expr)
  | dict (position : Position) (entries : List (Expr × Expr))
  | ident (position : Position) (name : String)
  | index (position : Position) (target index : Expr)
  | slice (position : Position) (target : Expr) (first last : Option Expr)
  | select (position : Position) (target : Expr) (name : String)
  | unary (position : Position) (op : UnaryOp) (operand : Expr)
  | binary (position : Position) (op : BinaryOp) (left right : Expr)
  | structInit (position : Position) (name : String) (brace : Position)
      (fields : List (Ident × Expr))
  | call (position : Position) (callee : Expr) (args : List Expr)

namespace Expr

/-- Where an expression is reported. -/
def position : Expr → Position
  | .literal p _ => p
  | .list p _ => p
  | .dict p _ => p
  | .ident p _ => p
  | .index p _ _ => p
  | .slice p _ _ _ => p
  | .select p _ _ => p
  | .unary p _ _ => p
  | .binary p _ _ _ => p
  | .structInit p _ _ _ => p
  | .call p _ _ => p

/-- The name of an expression's form, as trace lines and diagnostics show it. -/
def form : Expr → String
  | .literal .. => "Literal"
  | .list .. => "ListLit"
  | .dict .. => "DictLit"
  | .ident .. => "Ident"
  | .index .. => "Index"
  | .slice .. => "Slice"
  | .select .. => "Selector"
  | .unary .. => "UnaryOp"
  | .binary .. => "BinaryOp"
  | .structInit .. => "StructInit"
  | .call .. => "Call"

end Expr

end Shiba

import Shiba.Expr.Basic

/-!
# Statements

A block is a list of statements.  A conditional has one branch for each condition, in order, and
perhaps a block for the case that none holds.  A function declaration stands by itself or as a
method inside a struct declaration.
-/

namespace Shiba

mutual

/-- Statements. -/
inductive Stmt where
  | comment (position : Position) (text : String)
  | importModule (position : Position) (target : String)
  | expr (e : Expr)
  | assign (position : Position) (op : AssignOp) (left right : List Expr)
  | conditional (position : Position) (branches : List (Expr × List Stmt))
      (otherwise : Option (List Stmt))
  | forIn (position : Position) (target : Expr) (counter element : Ident) (body : List Stmt)
  | loop (position : Position) (condition : Expr) (body : List Stmt)
  | function (decl : FunctionDecl)
  | structDecl (position : Position) (name : String) (fields : List String)
      (methods : List FunctionDecl)
  | returnValue (position : Position) (value : Option Expr)
  | breakLoop (position : Position)
  | continueLoop (position : Position)

/-- A declared function. -/
inductive FunctionDecl where
  | mk (position : Position) (name : String) (params : List String) (body : List Stmt)

end

/-- A sequence of statements. -/
abbrev Block := List Stmt

namespace FunctionDecl

/-- Where a declaration starts. -/
def position : FunctionDecl → Position
  | .mk p _ _ _ => p

/-- The name of a function. -/
def name : FunctionDecl → String
  | .mk _ name _ _ => name

/-- The names of the parameters, in order. -/
def params : FunctionDecl → List String
  | .mk _ _ params _ => params

/-- The statements of a function. -/
def body : FunctionDecl → Block
  | .mk _ _ _ body => body

end FunctionDecl

namespace Stmt

/-- Where a statement is reported. -/
def position : Stmt → Position
  | .comment p _ => p
  | .importModule p _ => p
  | .expr e => e.position
  | .assign p _ _ _ => p
  | .conditional p _ _ => p
  | .forIn p _ _ _ _ => p
  | .loop p _ _ => p
  | .function decl => decl.position
  | .structDecl p _ _ _ => p
  | .returnValue p _ => p
  | .breakLoop p => p
  | .continueLoop p => p

/-- The name of a statement's form, as trace lines show it. -/
def form : Stmt → String
  | .comment .. => "Comment"
  | .importModule .. => "ImportStmt"
  | .expr e => e.form
  | .assign .. => "Assign"
  | .conditional .. => "IfStmt"
  | .forIn .. => "ForStmt"
  | .loop .. => "WhileStmt"
  | .function .. => "FuncDecl"
  | .structDecl .. => "StructDecl"
  | .returnValue .. => "ReturnStmt"
  | .breakLoop .. => "BreakStmt"
  | .continueLoop .. => "ContinueStmt"

end Stmt

end Shiba

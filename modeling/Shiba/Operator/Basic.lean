import Shiba.Token.Basic

/-!
# Operators

The closed vocabularies of operators and the table of precedence.  `BinaryOp.level` is the place
of an operator in the table, from zero for the operator that binds least; operators of one level
associate to the left.
-/

namespace Shiba

/-- The binary operators. -/
inductive BinaryOp where
  | or | and | equal | notEqual | less | lessEqual | greater | greaterEqual
  | bitOr | bitXor | bitAnd | shiftLeft | shiftRight
  | add | sub | mul | div | mod
deriving DecidableEq

namespace BinaryOp

/-- The punctuator that spells an operator. -/
def mark : BinaryOp → Punctuator
  | .or => .orOr
  | .and => .andAnd
  | .equal => .equalEqual
  | .notEqual => .notEqual
  | .less => .less
  | .lessEqual => .lessEqual
  | .greater => .greater
  | .greaterEqual => .greaterEqual
  | .bitOr => .bar
  | .bitXor => .caret
  | .bitAnd => .amp
  | .shiftLeft => .shiftLeft
  | .shiftRight => .shiftRight
  | .add => .plus
  | .sub => .minus
  | .mul => .star
  | .div => .slash
  | .mod => .percent

/-- The spelling of an operator. -/
def text (op : BinaryOp) : String := op.mark.text

/-- The place of an operator in the table of precedence. -/
def level : BinaryOp → Nat
  | .or => 0
  | .and => 1
  | .equal | .notEqual => 2
  | .less | .lessEqual | .greater | .greaterEqual => 3
  | .bitOr => 4
  | .bitXor => 5
  | .bitAnd => 6
  | .shiftLeft | .shiftRight => 7
  | .add | .sub => 8
  | .mul | .div | .mod => 9

/-- The number of levels of the table. -/
def levels : Nat := 10

/-- All binary operators. -/
def all : List BinaryOp :=
  [.or, .and, .equal, .notEqual, .less, .lessEqual, .greater, .greaterEqual,
   .bitOr, .bitXor, .bitAnd, .shiftLeft, .shiftRight, .add, .sub, .mul, .div, .mod]

theorem mem_all (op : BinaryOp) : op ∈ all := by cases op <;> decide

/-- The binary operator a punctuator spells. -/
def ofMark? (mark : Punctuator) : Option BinaryOp := all.find? fun op => op.mark = mark

/-- The binary operator with a given spelling. -/
def ofText? (s : String) : Option BinaryOp := all.find? fun op => op.text = s

theorem level_lt (op : BinaryOp) : op.level < levels := by cases op <;> decide

@[simp] theorem ofMark?_mark (op : BinaryOp) : ofMark? op.mark = some op := by cases op <;> decide

end BinaryOp

/-- The unary operators. -/
inductive UnaryOp where
  | plus | minus | not | complement
deriving DecidableEq

namespace UnaryOp

/-- The punctuator that spells an operator. -/
def mark : UnaryOp → Punctuator
  | .plus => .plus
  | .minus => .minus
  | .not => .bang
  | .complement => .caret

/-- The spelling of an operator. -/
def text (op : UnaryOp) : String := op.mark.text

/-- All unary operators. -/
def all : List UnaryOp := [.plus, .minus, .not, .complement]

/-- The unary operator a punctuator spells. -/
def ofMark? (mark : Punctuator) : Option UnaryOp := all.find? fun op => op.mark = mark

/-- The unary operator with a given spelling. -/
def ofText? (s : String) : Option UnaryOp := all.find? fun op => op.text = s

@[simp] theorem ofMark?_mark (op : UnaryOp) : ofMark? op.mark = some op := by cases op <;> decide

end UnaryOp

/-- The operators that can be joined to an assignment. -/
inductive ComputeOp where
  | add | sub | mul | div | mod | bitAnd | bitOr | bitXor
deriving DecidableEq

namespace ComputeOp

/-- The binary operator a computing assignment applies. -/
def binary : ComputeOp → BinaryOp
  | .add => .add
  | .sub => .sub
  | .mul => .mul
  | .div => .div
  | .mod => .mod
  | .bitAnd => .bitAnd
  | .bitOr => .bitOr
  | .bitXor => .bitXor

end ComputeOp

/-- The assignment operators: plain, unpacking and computing. -/
inductive AssignOp where
  | plain
  | unpack
  | compute (op : ComputeOp)
deriving DecidableEq

namespace AssignOp

/-- The punctuator that spells an operator. -/
def mark : AssignOp → Punctuator
  | .plain => .equal
  | .unpack => .colonEqual
  | .compute .add => .plusEqual
  | .compute .sub => .minusEqual
  | .compute .mul => .starEqual
  | .compute .div => .slashEqual
  | .compute .mod => .percentEqual
  | .compute .bitAnd => .ampEqual
  | .compute .bitOr => .barEqual
  | .compute .bitXor => .caretEqual

/-- The spelling of an operator. -/
def text (op : AssignOp) : String := op.mark.text

/-- All assignment operators. -/
def all : List AssignOp :=
  [.plain, .unpack, .compute .add, .compute .sub, .compute .mul, .compute .div, .compute .mod,
   .compute .bitAnd, .compute .bitOr, .compute .bitXor]

/-- The assignment operator a punctuator spells. -/
def ofMark? (mark : Punctuator) : Option AssignOp := all.find? fun op => op.mark = mark

@[simp] theorem ofMark?_mark (op : AssignOp) : ofMark? op.mark = some op := by
  rcases op with _ | _ | op
  · decide
  · decide
  · cases op <;> decide

end AssignOp

end Shiba

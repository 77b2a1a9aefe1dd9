import Shiba.Operator.Integer
import Shiba.Value.Equality

/-!
# Applying operators to values

Arithmetic takes two numbers, and two strings or two lists can be added.  An integer meets a
float as the nearest float in arithmetic, but in a comparison by its exact value.  Strings are
compared character by character.  Bitwise operators take integers, logical ones booleans, and
equality takes anything.  Every result is new: adding lists copies their elements into new
boxes.
-/

namespace Shiba

namespace HeapM

/-- Stops because an operator does not take operands of these kinds. -/
def invalidOperands {α : Type} (op : String) (l r : Value) : HeapM α :=
  raise (.invalidBinaryOp op l.kind.text r.kind.text)

/-- The answer of an operation that can fail for a cause. -/
def ofCause {α : Type} : Except Cause α → HeapM α
  | .ok a => return a
  | .error cause => raise cause

end HeapM

namespace BinaryOp

open HeapM

/-- The result of an arithmetic operator on floats; there is no remainder of floats. -/
def floats? (op : BinaryOp) (a b : Float) : Option (Except Cause Float) :=
  match op with
  | .add => some (.ok (a + b))
  | .sub => some (.ok (a - b))
  | .mul => some (.ok (a * b))
  | .div => some (if b == 0.0 then .error .divisionByZero else .ok (a / b))
  | _ => none

/-- Arithmetic and bitwise operators. -/
def compute (op : BinaryOp) (l r : Value) : HeapM Value :=
  let onFloats (a b : Float) : HeapM Value :=
    match op.floats? a b with
    | some result => return .float (← ofCause result)
    | none => invalidOperands op.text l r
  match l, r with
  | .int a, .int b =>
    match Integer.compute? op a b with
    | some result => return .int (← ofCause result)
    | none => invalidOperands op.text l r
  | .int a, .float b => onFloats a.toFloat b
  | .float a, .int b => onFloats a b.toFloat
  | .float a, .float b => onFloats a b
  | .str a, .str b => if op = .add then return .str (a ++ b) else invalidOperands op.text l r
  | .list a, .list b =>
    if op = .add then do
      let h ← get
      let copies ← (h.items a ++ h.items b).toList.mapM copy
      return .list (← allocList copies.toArray)
    else invalidOperands op.text l r
  | _, _ => invalidOperands op.text l r

/-- The order of two floats; a NaN has none. -/
def orderFloats (a b : Float) : Option Ordering :=
  if a < b then some .lt else if a == b then some .eq else if b < a then some .gt else none

/-- The order of two values that can be compared: numbers by their exact value, strings by their
characters. -/
def order? : Value → Value → Option (Option Ordering)
  | .int a, .int b => some (some (compare a.toInt b.toInt))
  | .int a, .float b => some ((Binary64.ofFloat b).compareInt a.toInt)
  | .float a, .int b => some (((Binary64.ofFloat a).compareInt b.toInt).map Ordering.swap)
  | .float a, .float b => some (orderFloats a b)
  | .str a, .str b =>
    some (some (if a < b then .lt else if a = b then .eq else .gt))
  | _, _ => none

/-- Whether a comparison holds of two values in a given order. -/
def holds (op : BinaryOp) : Option Ordering → Bool
  | none => false
  | some o =>
    match op with
    | .less => o.isLT
    | .lessEqual => o.isLE
    | .greater => o.isGT
    | .greaterEqual => o.isGE
    | _ => false

/-- The result of a binary operator. -/
def apply (limit : Nat) (op : BinaryOp) (l r : Value) : HeapM Value :=
  match op with
  | .equal => return .bool (← answer fun h => h.equal limit l r)
  | .notEqual => return .bool (!(← answer fun h => h.equal limit l r))
  | .less | .lessEqual | .greater | .greaterEqual =>
    match order? l r with
    | some o => return .bool (op.holds o)
    | none => invalidOperands op.text l r
  | .and =>
    match l, r with
    | .bool a, .bool b => return .bool (a && b)
    | _, _ => invalidOperands op.text l r
  | .or =>
    match l, r with
    | .bool a, .bool b => return .bool (a || b)
    | _, _ => invalidOperands op.text l r
  | op => op.compute l r

/-- The result of the binary operator with a given spelling, if there is one. -/
def applyText (limit : Nat) (op : String) (l r : Value) : HeapM Value :=
  match ofText? op with
  | some op => op.apply limit l r
  | none => invalidOperands op l r

end BinaryOp

namespace UnaryOp

open HeapM

/-- The result of a unary operator. -/
def apply (op : UnaryOp) (v : Value) : HeapM Value :=
  match op, v with
  | .plus, .int n => return .int n
  | .plus, .float x => return .float x
  | .minus, .int n => return .int (Integer.negate n)
  | .minus, .float x => return .float (-x)
  | .not, v => return .bool (!(← get).truthy v)
  | .complement, .int n => return .int (Integer.complement n)
  | op, v => raise (.invalidUnaryOp op.text v.kind.text)

/-- The result of the unary operator with a given spelling, if there is one. -/
def applyText (op : String) (v : Value) : HeapM Value :=
  match ofText? op with
  | some op => op.apply v
  | none => raise (.invalidUnaryOp op v.kind.text)

end UnaryOp

end Shiba

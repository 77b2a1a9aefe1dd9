import Shiba.Error
import Shiba.Operator.Basic

/-!
# Operators on integers

Integers are 64-bit words with a sign.  An operation computes the integer it is named for and
keeps the word that is left of it (`Int64.ofInt` reduces modulo `2 ^ 64`).  Division and
remainder go toward zero.  A left shift by the width or more leaves nothing, a right shift by
more only the sign.
-/

namespace Shiba.Integer

/-- The quotient toward zero; the divisor must not be zero. -/
def quotient (a b : Int64) : Except Cause Int64 :=
  if b = 0 then .error (.invariant .zeroDivisor) else .ok (.ofInt (a.toInt.tdiv b.toInt))

/-- The remainder of the quotient toward zero; the divisor must not be zero. -/
def remainder (a b : Int64) : Except Cause Int64 :=
  if b = 0 then .error (.invariant .zeroDivisor) else .ok (.ofInt (a.toInt.tmod b.toInt))

/-- The result of an arithmetic or bitwise operator on integers; none for the other operators. -/
def compute? (op : BinaryOp) (a b : Int64) : Option (Except Cause Int64) :=
  match op with
  | .add => some (.ok (.ofInt (a.toInt + b.toInt)))
  | .sub => some (.ok (.ofInt (a.toInt - b.toInt)))
  | .mul => some (.ok (.ofInt (a.toInt * b.toInt)))
  | .div => some (if b = 0 then .error .divisionByZero else quotient a b)
  | .mod => some (if b = 0 then .error .moduloByZero else remainder a b)
  | .bitAnd => some (.ok (a &&& b))
  | .bitOr => some (.ok (a ||| b))
  | .bitXor => some (.ok (a ^^^ b))
  | .shiftLeft => some (
    if b < 0 then .error (.negativeShift b)
    else if b.toInt < 64 then .ok (.ofInt (a.toInt * (Nat.pow 2 b.toInt.toNat : Nat)))
    else .ok 0)
  | .shiftRight => some (
    if b < 0 then .error (.negativeShift b)
    else .ok (.ofInt (a.toInt >>> min b.toInt.toNat 63)))
  | _ => none

/-- The negation of an integer. -/
def negate (a : Int64) : Int64 := .ofInt (-a.toInt)

/-- The integer with every bit turned over. -/
def complement (a : Int64) : Int64 := ~~~a

end Shiba.Integer

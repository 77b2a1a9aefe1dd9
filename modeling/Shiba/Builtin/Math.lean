import Shiba.Value.Heap
import Shiba.Decimal.Shortest

/-!
# The module `math`

Integer functions answer the word that is left of the exact integer, as the operators do.  A
function of floats whose result is no number, or too great for one, is an error.
-/

namespace Shiba.Math

/-- The greatest number of binary digits of an exponent. -/
def exponentBits : Nat := 64

/-- `acc · base ^ n` as a word, by squaring; `fuel` bounds the binary digits of `n`. -/
def powerWord : (fuel : Nat) → (base acc : Int64) → (n : Nat) → Int64
  | 0, _, acc, _ => acc
  | fuel + 1, base, acc, n =>
    if n = 0 then acc
    else powerWord fuel (base * base) (if n % 2 = 1 then acc * base else acc) (n / 2)

/-- The power of an integer as a word. -/
def power (x : Int64) (n : Nat) : Int64 := powerWord exponentBits x 1 n

/-- The power of a float.  Finite numbers without a power are outside the domain; a power of finite
numbers beyond the greatest float is outside the range, and one of zero outside the domain. -/
def powerFloat (x y : Float) : Except MathFault Float :=
  let r := Float.pow x y
  if x.isFinite && y.isFinite then
    if r.isNaN then .error .domain
    else if r.isInf then (if x == 0.0 then .error .domain else .error .range)
    else .ok r
  else .ok r

/-- The square root of a float that has one. -/
def squareRoot (x : Float) : Except MathFault Float :=
  let r := Float.sqrt x
  if r.isNaN && !x.isNaN then .error .domain else .ok r

/-- The greatest integer that is not above a float, as a word. -/
def floorWord (x : Float) : Except MathFault Int64 :=
  match Binary64.ofFloat x with
  | .nan => .error .nanToInteger
  | .infinite _ => .error .infinityToInteger
  | .finite negative mantissa exponent =>
    .ok (Int64.ofInt (Binary64.floor negative mantissa exponent))

open HeapM

/-- A number as a float. -/
def number (v : Value) : HeapM Float := do
  match v with
  | .int n => return n.toFloat
  | .float x => return x
  | v => raise (.typeMismatch "i64 or f64" ((← get).typeName v))

/-- The answer of a function that can fault. -/
def checked {α : Type} (b : Builtin) : Except MathFault α → HeapM α
  | .ok a => return a
  | .error fault => raise (.mathematical b.name fault)

/-- The sum of integers, each of which has to be one. -/
def total (sum : Int) : List Value → HeapM Int
  | [] => return sum
  | .int n :: rest => total (sum + n.toInt) rest
  | v :: _ => do raise (.typeMismatch "i64" ((← get).typeName v))

/-- `add`: the sum of any number of integers. -/
def add (args : List Value) : HeapM Value := return .int (.ofInt (← total 0 args))

/-- `sqrt`: the square root of a number. -/
def sqrt (v : Value) : HeapM Value := do
  let x ← number v
  return .float (← checked .mathSqrt (squareRoot x))

/-- `floor`: the greatest integer that is not above a number. -/
def floor (v : Value) : HeapM Value :=
  match v with
  | .int n => return .int n
  | v => do
    let x ← number v
    return .int (← checked .mathFloor (floorWord x))

/-- `pow`: exact for integers with an exponent that is not negative, else a power of floats. -/
def pow (v w : Value) : HeapM Value := do
  let onFloats : HeapM Value := do
    let x ← number v
    let y ← number w
    return .float (← checked .mathPow (powerFloat x y))
  match v, w with
  | .int x, .int y => if 0 ≤ y then return .int (power x y.toInt.toNat) else onFloats
  | _, _ => onFloats

/-- The ratio of a circle's circumference to its diameter. -/
def pi : Float := 3.141592653589793

/-- The base of the natural logarithm. -/
def e : Float := 2.718281828459045

/-- What the module defines, in order. -/
def members : List (String × Value) :=
  [("pi", .float pi), ("e", .float e)] ++
    [Builtin.mathAdd, .mathSqrt, .mathFloor, .mathPow].map fun b => (b.name, .builtin b)

end Shiba.Math

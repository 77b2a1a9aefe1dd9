import Shiba.Decimal.Shortest

/-!
# The written form of a float

The digits come from `Decimal.shortest`; a `Layout` says how they are set: between which powers of
ten the point is written among the digits, and how the exponent looks elsewhere.
-/

namespace Shiba.Decimal

/-- How the digits of a float are set. -/
structure Layout where
  /-- The least power of ten of a leading digit that is written with a point only. -/
  leastPositional : Int
  /-- The greatest such power. -/
  greatestPositional : Int
  /-- The least number of digits of a written exponent. -/
  exponentWidth : Nat

/-- The text of a natural number. -/
def digitChars (n : Nat) : List Char := Nat.toDigits 10 n

/-- Digits with the point after the first `whole` of them, at least one digit on either side. -/
def positional (digits : List Char) (whole : Int) : List Char :=
  if whole ≤ 0 then '0' :: '.' :: (List.replicate (-whole).toNat '0' ++ digits)
  else if digits.length ≤ whole.toNat then
    digits ++ List.replicate (whole.toNat - digits.length) '0' ++ ['.', '0']
  else digits.take whole.toNat ++ '.' :: digits.drop whole.toNat

/-- Digits with the point after the first of them, followed by a signed exponent. -/
def exponential (width : Nat) (digits : List Char) (power : Int) : List Char :=
  let fraction := match digits with
    | first :: [] => [first]
    | first :: rest => first :: '.' :: rest
    | [] => []
  let size := digitChars power.natAbs
  fraction ++ 'e' :: (if power < 0 then '-' else '+') ::
    (List.replicate (width - size.length) '0' ++ size)

/-- The magnitude of a finite float. -/
def Layout.magnitude (layout : Layout) (mantissa : Nat) (exponent : Int) : List Char :=
  let (digits, power) := shortest mantissa exponent
  let digits := digitChars digits
  let leading := if mantissa = 0 then 0 else power + digits.length - 1
  if layout.leastPositional ≤ leading ∧ leading ≤ layout.greatestPositional then
    positional digits (leading + 1)
  else exponential layout.exponentWidth digits leading

/-- The written form of a float. -/
def Layout.write (layout : Layout) (x : Float) : String :=
  match Binary64.ofFloat x with
  | .nan => "nan"
  | .infinite negative => if negative then "-inf" else "inf"
  | .finite negative mantissa exponent =>
    let size := layout.magnitude mantissa exponent
    String.ofList (if negative then '-' :: size else size)

/-- The digits of a text, read as one number; every character must be a digit. -/
def digitsValue (cs : List Char) : Nat :=
  cs.foldl (fun n c => 10 * n + (c.toNat - '0'.toNat)) 0

/-- The decimal written by digits with at most one point among them. -/
def ofDigits (cs : List Char) : Decimal :=
  let whole := cs.takeWhile (· ≠ '.')
  let fraction := (cs.dropWhile (· ≠ '.')).drop 1
  ⟨false, digitsValue (whole ++ fraction), -(fraction.length : Int)⟩

end Shiba.Decimal

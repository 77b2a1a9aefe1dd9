/-!
# Binary floating point, exactly

A finite 64-bit float is `± mantissa · 2 ^ exponent`.  This module takes a float apart into those
numbers and rounds a quotient of natural numbers to the nearest float, halves to the even mantissa.
Everything between the two is exact integer arithmetic: the order of an integer and a float, and the
integer below a float, never pass through a rounded value.
-/

namespace Shiba

/-- A float taken apart. -/
inductive Binary64 where
  | nan
  | infinite (negative : Bool)
  | finite (negative : Bool) (mantissa : Nat) (exponent : Int)
deriving DecidableEq

namespace Binary64

/-- The bit of the sign, `2 ^ 63`. -/
def signBit : Nat := 0x8000000000000000

/-- The bit above the fraction, `2 ^ 52`: the leading bit of every mantissa of full length. -/
def leadingBit : Nat := 0x10000000000000

/-- The parts of a float, read off its bits. -/
def ofFloat (x : Float) : Binary64 :=
  let bits := x.toBits.toNat
  let negative := decide (signBit ≤ bits)
  let biased : Nat := bits / leadingBit % 2048
  let fraction := bits % leadingBit
  if biased = 2047 then
    if fraction = 0 then .infinite negative else .nan
  else if biased = 0 then .finite negative fraction (-1074)
  else .finite negative (fraction + leadingBit) ((biased : Int) - 1075)

/-- The quotient `num / den` rounded to the nearest natural number, a half to the even one. -/
def divHalfEven (num den : Nat) : Nat :=
  let q := num / den
  let r := num % den
  if 2 * r < den then q
  else if den < 2 * r then q + 1
  else if q % 2 = 0 then q else q + 1

/-- The numerator and denominator of `n · base ^ e`. -/
def scaled (n base : Nat) (e : Int) : Nat × Nat :=
  if 0 ≤ e then (n * Nat.pow base e.toNat, 1) else (n, Nat.pow base (-e).toNat)

/-- The exponent at which the mantissa of `num / den` has 53 bits, or the least exponent of all. -/
def exponentOf (num den : Nat) : Int :=
  let guess : Int := (num.log2 : Int) - (den.log2 : Int) - 52
  let fits := if 0 ≤ guess then den * leadingBit * Nat.pow 2 guess.toNat ≤ num
    else den * leadingBit ≤ num * Nat.pow 2 (-guess).toNat
  max (if fits then guess else guess - 1) (-1074)

/-- The bits of the float nearest to `num / den`, for a positive `den`; a quotient beyond the
greatest float gives the bits of infinity. -/
def nearestBits (num den : Nat) : Nat :=
  if num = 0 then 0
  else
    let e := exponentOf num den
    let mantissa :=
      if 0 ≤ e then divHalfEven num (den * Nat.pow 2 e.toNat)
      else divHalfEven (num * Nat.pow 2 (-e).toNat) den
    min ((e + 1074).toNat * leadingBit + mantissa) (2047 * leadingBit)

/-- The float nearest to `± num / den`. -/
def nearest (negative : Bool) (num den : Nat) : Float :=
  Float.ofBits (UInt64.ofNat (nearestBits num den + if negative then signBit else 0))

/-- The greatest integer that is not above a finite float. -/
def floor (negative : Bool) (mantissa : Nat) (exponent : Int) : Int :=
  let m : Int := if negative then -(mantissa : Int) else mantissa
  if 0 ≤ exponent then m * (Nat.pow 2 exponent.toNat : Nat)
  else m / (Nat.pow 2 (-exponent).toNat : Nat)

/-- The order of an integer and a float, exactly; nothing is in order with a NaN. -/
def compareInt (n : Int) : Binary64 → Option Ordering
  | .nan => none
  | .infinite negative => some (if negative then .gt else .lt)
  | .finite negative mantissa exponent =>
    let m : Int := if negative then -(mantissa : Int) else mantissa
    if 0 ≤ exponent then some (compare n (m * (Nat.pow 2 exponent.toNat : Nat)))
    else some (compare (n * (Nat.pow 2 (-exponent).toNat : Nat)) m)

end Binary64

end Shiba

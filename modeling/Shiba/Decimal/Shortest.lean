import Shiba.Decimal.Binary64

/-!
# Decimals and floats

A `Decimal` is `± digits · 10 ^ exponent`.  `Decimal.toFloat` is the float nearest to it, and
`Decimal.shortest` is, for a positive finite float, the decimal with the fewest digits whose
nearest float is that float: for one digit, two digits and so on it tries the two neighbours of
the value on that decimal grid, and takes the first grid on which one of them reads back.
Seventeen digits always read back, so the search ends there.
-/

namespace Shiba

/-- A decimal number. -/
structure Decimal where
  negative : Bool
  digits : Nat
  exponent : Int
deriving DecidableEq

namespace Decimal

/-- The number of decimal digits of `n`, one for zero. -/
def width (n : Nat) : Nat := (Nat.toDigits 10 n).length

/-- The float nearest to a decimal.  Decimals far outside the range of floats are settled by their
magnitude alone. -/
def toFloat (d : Decimal) : Float :=
  let magnitude : Int := d.exponent + width d.digits
  if d.digits = 0 ∨ magnitude < -400 then Binary64.nearest d.negative 0 1
  else if 400 < magnitude then Binary64.nearest d.negative (Nat.pow 2 1024) 1
  else
    let (num, den) := Binary64.scaled d.digits 10 d.exponent
    Binary64.nearest d.negative num den

/-- The power of ten at the leading digit of the positive quotient `num / den`. -/
def leadingPower (num den : Nat) : Int :=
  if den ≤ num then (width (num / den) : Int) - 1 else -(width ((den - 1) / num) : Int)

/-- Removes the zeros at the end of the digits, at most `fuel` of them. -/
def trim : Nat → Nat → Int → Nat × Int
  | 0, digits, exponent => (digits, exponent)
  | fuel + 1, digits, exponent =>
    if digits ≠ 0 ∧ digits % 10 = 0 then trim fuel (digits / 10) (exponent + 1)
    else (digits, exponent)

/-- The neighbour of `num / den` on the grid of multiples of `10 ^ power` that reads back as the
float with the given bits; of two, the nearer, and of two equally near, the even one. -/
def onGrid (bits num den : Nat) (power : Int) : Option Nat :=
  let (scaledNum, scaledDen) :=
    if 0 ≤ power then (num, den * Nat.pow 10 power.toNat)
    else (num * Nat.pow 10 (-power).toNat, den)
  let below := scaledNum / scaledDen
  let remainder := scaledNum % scaledDen
  let readsBack (n : Nat) : Bool :=
    let (num, den) := Binary64.scaled n 10 power
    Binary64.nearestBits num den == bits
  let nearer := Binary64.divHalfEven scaledNum scaledDen
  let farther := if nearer = below then (if remainder = 0 then below else below + 1) else below
  if readsBack nearer then some nearer else if readsBack farther then some farther else none

/-- Tries `count` grids, the first of which has `digits` digits. -/
def search (bits num den : Nat) (leading : Int) : (count digits : Nat) → Nat × Int
  | 0, digits =>
    let power := leading + 1 - digits
    ((onGrid bits num den power).getD 0, power)
  | count + 1, digits =>
    let power := leading + 1 - digits
    match onGrid bits num den power with
    | some n => (n, power)
    | none => search bits num den leading count (digits + 1)

/-- The digits and exponent of the shortest decimal that reads back as `mantissa · 2 ^ exponent`. -/
def shortest (mantissa : Nat) (exponent : Int) : Nat × Int :=
  if mantissa = 0 then (0, 0)
  else
    let (num, den) := Binary64.scaled mantissa 2 exponent
    let (digits, power) :=
      search (Binary64.nearestBits num den) num den (leadingPower num den) 16 1
    trim 20 digits power

end Decimal

end Shiba

import Shiba.Text.Digit

/-!
# Blank characters and the numbers between them

The characters that surround a number in a setting without counting are those of the Unicode
property White_Space.  The number itself is written in digits of any script.
-/

namespace Shiba.Text

/-- Whether a character is blank. -/
def isBlank (c : Char) : Bool :=
  let n := c.toNat
  (0x09 ≤ n && n ≤ 0x0d) || n = 0x20 || n = 0x85 || n = 0xa0 || n = 0x1680 ||
    (0x2000 ≤ n && n ≤ 0x200a) || n = 0x2028 || n = 0x2029 || n = 0x202f || n = 0x205f ||
    n = 0x3000

/-- A text without the blanks around it. -/
def trimBlanks (cs : List Char) : List Char :=
  ((cs.dropWhile isBlank).reverse.dropWhile isBlank).reverse

/-- The values of the digits of a number in which single underscores may stand between digits; none
when the text is no such number. -/
def groupedDigits : List Char → Option (List Nat)
  | [] => none
  | [c] => (digit? c).map ([·])
  | c :: '_' :: rest => do return (← digit? c) :: (← groupedDigits rest)
  | c :: rest => do return (← digit? c) :: (← groupedDigits rest)

/-- The greatest number of digits of an integer that is read from a text. -/
def digitLimit : Nat := 4300

/-- The integer a setting holds, with blanks around it and a sign in front. -/
def readInt? (s : String) : Option Int := do
  let (negative, digits) := match trimBlanks s.toList with
    | '-' :: rest => (true, rest)
    | '+' :: rest => (false, rest)
    | rest => (false, rest)
  let digits ← groupedDigits digits
  guard (digits.length ≤ digitLimit)
  let n : Nat := digits.foldl (fun n d => 10 * n + d) 0
  return if negative then -(n : Int) else n

end Shiba.Text

import Shiba.Text.Printable

/-!
# Quoted text

Two quoted forms of a text.  `quote` is the form in which the language itself writes strings: double
quotes, with the backslash, the double quote, the newline and the tab escaped and every other
character as it is, so that reading the form back gives the text.  `inspect` is the form used by
diagnostics: single quotes unless only the single quote occurs in the text, and every character
without a visible form written by its number.
-/

namespace Shiba.Text

/-- How one character stands inside a double-quoted form. -/
def quoteChar : Char → List Char
  | '\\' => ['\\', '\\']
  | '"' => ['\\', '"']
  | '\n' => ['\\', 'n']
  | '\t' => ['\\', 't']
  | c => [c]

/-- The double-quoted form, as characters. -/
def quoteChars (cs : List Char) : List Char := '"' :: (cs.flatMap quoteChar ++ ['"'])

/-- The double-quoted form of a text. -/
def quote (s : String) : String := String.ofList (quoteChars s.toList)

/-- The lower-case hexadecimal digits of `n`, filled up with zeros to at least `width`. -/
def hexadecimal (width n : Nat) : List Char :=
  let digits := Nat.toDigits 16 n
  List.replicate (width - digits.length) '0' ++ digits

/-- A character written by its number, in the shortest of the three widths. -/
def numbered (c : Char) : List Char :=
  if c.toNat < 0x100 then '\\' :: 'x' :: hexadecimal 2 c.toNat
  else if c.toNat < 0x10000 then '\\' :: 'u' :: hexadecimal 4 c.toNat
  else '\\' :: 'U' :: hexadecimal 8 c.toNat

/-- How one character stands inside the diagnostic form that is closed by `delimiter`. -/
def inspectChar (delimiter c : Char) : List Char :=
  if c = delimiter || c = '\\' then ['\\', c]
  else if c = '\n' then ['\\', 'n']
  else if c = '\r' then ['\\', 'r']
  else if c = '\t' then ['\\', 't']
  else if isPrintable c then [c]
  else numbered c

/-- The diagnostic form of a text. -/
def inspect (s : String) : String :=
  let cs := s.toList
  let delimiter := if cs.contains '\'' && !cs.contains '"' then '"' else '\''
  String.ofList (delimiter :: (cs.flatMap (inspectChar delimiter) ++ [delimiter]))

/-- The diagnostic form of a sequence of texts. -/
def inspectAll (ss : List String) : String := "[" ++ ", ".intercalate (ss.map inspect) ++ "]"

end Shiba.Text

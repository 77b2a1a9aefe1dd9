import Shiba.Source.Fault

/-!
# Reading one token

A `Reader` is the text still to be read and the place where it starts.  `Reader.read` skips
blanks and reads the longest token that starts there; at the end of the text it answers the
end-of-input token and stays.  It also answers the reader that is left.  After a fault that
reader stands where reading stopped, inside the faulty token.
-/

namespace Shiba

/-- The text still to be read and the place where it starts. -/
structure Reader where
  rest : List Char
  position : Position
deriving DecidableEq

namespace Reader

/-- A reader at the start of a text. -/
def ofText (s : String) : Reader := ⟨s.toList, .start⟩

/-- The reader that has passed `cs`, of which `rest` is what follows. -/
def past (p : Position) (cs rest : List Char) : Reader := ⟨rest, p.afterAll cs⟩

/-- Blanks separate tokens and mean nothing else; a newline is no blank. -/
def isBlank (c : Char) : Bool := c = ' ' || c = '\t' || c = '\r'

/-- The characters of names: the ASCII letters and digits and the underscore. -/
def isNameChar (c : Char) : Bool := c.isAlphanum || c = '_'

/-- The characters of numbers. -/
def isNumberChar (c : Char) : Bool := c.isDigit || c = '.'

/-- The character an escape stands for. -/
def escape? : Char → Option Char
  | '"' => some '"'
  | '\\' => some '\\'
  | 'n' => some '\n'
  | 't' => some '\t'
  | 'r' => some '\r'
  | '0' => some '\x00'
  | _ => none

/-- A result of reading: a token or a fault, and the reader that is left. -/
abbrev Answer (α : Type) := Except Source.Failure α × Reader

/-- A fault inside a token, reported at `p`. -/
def fault (f : Source.Lexical) (p : Position) : Source.Failure := ⟨.lexical f, p⟩

/-- Reads the rest of a string whose opening quote stands at `opening`; `done` holds the characters
read so far, the last one first. -/
def readString (opening : Position) : List Char → Position → List Char → Answer String
  | [], p, _ => (.error (fault .unterminatedString opening), ⟨[], p⟩)
  | '"' :: cs, p, done => (.ok (String.ofList done.reverse), ⟨cs, p.after '"'⟩)
  | ['\\'], p, _ => (.error (fault .unterminatedString opening), ⟨[], p.after '\\'⟩)
  | '\\' :: e :: cs, p, done =>
    match escape? e with
    | some c => readString opening cs ((p.after '\\').after e) (c :: done)
    | none => (.error (fault (.invalidEscape e) p), ⟨e :: cs, p.after '\\'⟩)
  | c :: cs, p, done => readString opening cs (p.after c) (c :: done)

/-- Reads a number. -/
def readNumber (cs : List Char) (p : Position) : Answer Lexeme :=
  let digits := cs.takeWhile isNumberChar
  let text := String.ofList digits
  let left := past p digits (cs.dropWhile isNumberChar)
  if 2 ≤ digits.count '.' then (.error (fault (.invalidDecimal text) p), left)
  else (.ok (.number text), left)

/-- Reads a name or a reserved word. -/
def readName (cs : List Char) (p : Position) : Answer Lexeme :=
  let letters := cs.takeWhile isNameChar
  let text := String.ofList letters
  let lexeme := match Keyword.ofText? text with
    | some word => .keyword word
    | none => .ident text
  (.ok lexeme, past p letters (cs.dropWhile isNameChar))

/-- Reads a comment whose hash has been passed. -/
def readComment (cs : List Char) (p : Position) : Answer Lexeme :=
  let text := cs.takeWhile (· ≠ '\n')
  (.ok (.comment (String.ofList text)), past p text (cs.dropWhile (· ≠ '\n')))

/-- The longest punctuator at the start of a text, and what follows it. -/
def punctuator? : List Char → Option (Punctuator × List Char × List Char)
  | c :: d :: cs =>
    match Punctuator.pair? c d with
    | some mark => some (mark, [c, d], cs)
    | none => (Punctuator.single? c).map fun mark => (mark, [c], d :: cs)
  | [c] => (Punctuator.single? c).map fun mark => (mark, [c], [])
  | [] => none

/-- Reads the lexeme that starts with the first character of a text without leading blanks. -/
def readLexeme : List Char → Position → Answer Lexeme
  | [], p => (.ok .eof, ⟨[], p⟩)
  | c :: cs, p =>
    if c = '"' then
      let (result, left) := readString p cs (p.after c) []
      (result.map .string, left)
    else if c.isDigit then readNumber (c :: cs) p
    else if c = '\n' then (.ok .newline, ⟨cs, p.after c⟩)
    else if c = '#' then readComment cs (p.after c)
    else match punctuator? (c :: cs) with
      | some (mark, passed, rest) => (.ok (.punct mark), past p passed rest)
      | none =>
        if isNameChar c then readName (c :: cs) p
        else (.error (fault (.invalidToken c) p), ⟨c :: cs, p⟩)

/-- The reader at the next character that is no blank. -/
def skipBlanks (r : Reader) : Reader :=
  past r.position (r.rest.takeWhile isBlank) (r.rest.dropWhile isBlank)

/-- Reads one token. -/
def read (r : Reader) : Answer Token :=
  let start := r.skipBlanks
  let (result, left) := readLexeme start.rest start.position
  (result.map fun lexeme => ⟨lexeme, start.position⟩, left)

end Reader

end Shiba

import Shiba.Source.Position
import Shiba.Text.Quoted

/-!
# Tokens

A `Lexeme` is what a token says, a `Token` adds where it stands.  Keywords and punctuators are
closed vocabularies with one spelling each.  A newline is a token, because it ends a statement,
and so is a comment, which carries its text without the leading hash.
-/

namespace Shiba

/-- The reserved words. -/
inductive Keyword where
  | trueWord | falseWord | ifWord | elifWord | elseWord | forWord | inWord | defWord
  | continueWord | breakWord | returnWord | importWord | structWord
deriving DecidableEq

namespace Keyword

/-- All reserved words. -/
def all : List Keyword :=
  [.trueWord, .falseWord, .ifWord, .elifWord, .elseWord, .forWord, .inWord, .defWord,
   .continueWord, .breakWord, .returnWord, .importWord, .structWord]

/-- The spelling of a reserved word. -/
def text : Keyword → String
  | .trueWord => "true"
  | .falseWord => "false"
  | .ifWord => "if"
  | .elifWord => "elif"
  | .elseWord => "else"
  | .forWord => "for"
  | .inWord => "in"
  | .defWord => "def"
  | .continueWord => "continue"
  | .breakWord => "break"
  | .returnWord => "return"
  | .importWord => "import"
  | .structWord => "struct"

/-- The reserved word with a given spelling. -/
def ofText? (s : String) : Option Keyword := all.find? fun k => k.text = s

theorem mem_all (k : Keyword) : k ∈ all := by cases k <;> decide

end Keyword

/-- The operators and brackets. -/
inductive Punctuator where
  | andAnd | orOr | equalEqual | notEqual | lessEqual | greaterEqual
  | plusEqual | minusEqual | starEqual | slashEqual | percentEqual
  | ampEqual | barEqual | caretEqual | colonEqual | shiftLeft | shiftRight
  | less | greater | dot | colon | equal | plus | minus | star | slash | percent | comma
  | leftParen | rightParen | leftBracket | rightBracket | leftBrace | rightBrace
  | amp | bar | caret | bang
deriving DecidableEq

namespace Punctuator

/-- The spelling of a punctuator. -/
def text : Punctuator → String
  | .andAnd => "&&"
  | .orOr => "||"
  | .equalEqual => "=="
  | .notEqual => "!="
  | .lessEqual => "<="
  | .greaterEqual => ">="
  | .plusEqual => "+="
  | .minusEqual => "-="
  | .starEqual => "*="
  | .slashEqual => "/="
  | .percentEqual => "%="
  | .ampEqual => "&="
  | .barEqual => "|="
  | .caretEqual => "^="
  | .colonEqual => ":="
  | .shiftLeft => "<<"
  | .shiftRight => ">>"
  | .less => "<"
  | .greater => ">"
  | .dot => "."
  | .colon => ":"
  | .equal => "="
  | .plus => "+"
  | .minus => "-"
  | .star => "*"
  | .slash => "/"
  | .percent => "%"
  | .comma => ","
  | .leftParen => "("
  | .rightParen => ")"
  | .leftBracket => "["
  | .rightBracket => "]"
  | .leftBrace => "\x7b"
  | .rightBrace => "\x7d"
  | .amp => "&"
  | .bar => "|"
  | .caret => "^"
  | .bang => "!"

/-- The punctuator spelled by two characters. -/
def pair? (c d : Char) : Option Punctuator :=
  match c, d with
  | '&', '&' => some .andAnd
  | '|', '|' => some .orOr
  | '=', '=' => some .equalEqual
  | '!', '=' => some .notEqual
  | '<', '=' => some .lessEqual
  | '>', '=' => some .greaterEqual
  | '+', '=' => some .plusEqual
  | '-', '=' => some .minusEqual
  | '*', '=' => some .starEqual
  | '/', '=' => some .slashEqual
  | '%', '=' => some .percentEqual
  | '&', '=' => some .ampEqual
  | '|', '=' => some .barEqual
  | '^', '=' => some .caretEqual
  | ':', '=' => some .colonEqual
  | '<', '<' => some .shiftLeft
  | '>', '>' => some .shiftRight
  | _, _ => none

/-- The punctuator spelled by one character. -/
def single? : Char → Option Punctuator
  | '<' => some .less
  | '>' => some .greater
  | '.' => some .dot
  | ':' => some .colon
  | '=' => some .equal
  | '+' => some .plus
  | '-' => some .minus
  | '*' => some .star
  | '/' => some .slash
  | '%' => some .percent
  | ',' => some .comma
  | '(' => some .leftParen
  | ')' => some .rightParen
  | '[' => some .leftBracket
  | ']' => some .rightBracket
  | '\x7b' => some .leftBrace
  | '\x7d' => some .rightBrace
  | '&' => some .amp
  | '|' => some .bar
  | '^' => some .caret
  | '!' => some .bang
  | _ => none

end Punctuator

/-- What a token says. -/
inductive Lexeme where
  | ident (name : String)
  | string (value : String)
  | number (text : String)
  | keyword (word : Keyword)
  | punct (mark : Punctuator)
  | comment (text : String)
  | newline
  | eof
deriving DecidableEq, Inhabited

namespace Lexeme

/-- The class of a token, as diagnostics name it. -/
def className : Lexeme → String
  | .ident _ => "IDENT"
  | .string _ => "STRING"
  | .number _ => "NUMBER"
  | .keyword word => word.text
  | .punct mark => mark.text
  | .comment _ => "#"
  | .newline => "\n"
  | .eof => "EOF"

/-- The text a token carries. -/
def value : Lexeme → String
  | .ident name => name
  | .string value => value
  | .number text => text
  | .keyword word => word.text
  | .punct mark => mark.text
  | .comment text => text
  | .newline => "\n"
  | .eof => ""

/-- How a diagnostic describes a token. -/
def describe : Lexeme → String
  | .ident name => "ident " ++ Text.inspect name
  | .string value => "string " ++ Text.inspect value
  | .number text => "number " ++ Text.inspect text
  | .newline => "newline"
  | .eof => "end of input"
  | lexeme => Text.inspect lexeme.className

end Lexeme

/-- A token: what it says and where it starts. -/
structure Token where
  lexeme : Lexeme
  position : Position
deriving DecidableEq, Inhabited

end Shiba

import Shiba.Token.Reader

/-!
# The tokens of a text

`Tokens.ofText` is the whole sequence of tokens of a text up to its end or to the first lexical
fault.  The end of the input is not one of the listed tokens: it is the `Ending`, so that
nothing can stand behind it.  A parser takes tokens off the front of such a sequence, and meets
a lexical fault only when it asks for the token that is faulty.
-/

namespace Shiba

/-- How a sequence of tokens ends. -/
inductive Ending where
  | complete (position : Position)
  | failed (failure : Source.Failure)
deriving DecidableEq

/-- A sequence of tokens and how it ends. -/
structure Tokens where
  list : List Token
  ending : Ending
deriving DecidableEq

namespace Tokens

/-- A sequence with one more token in front. -/
def cons (t : Token) (ts : Tokens) : Tokens := ⟨t :: ts.list, ts.ending⟩

/-- The tokens from a reader on.  Every token but the last takes a character away, so that the
number of characters left is fuel enough. -/
def scan : (fuel : Nat) → Reader → Tokens
  | 0, r => ⟨[], .complete r.position⟩
  | fuel + 1, r =>
    match r.read with
    | (.error failure, _) => ⟨[], .failed failure⟩
    | (.ok t, left) =>
      if t.lexeme = .eof then ⟨[], .complete t.position⟩ else cons t (scan fuel left)

/-- The tokens of a text. -/
def ofText (s : String) : Tokens :=
  let r := Reader.ofText s
  scan (r.rest.length + 1) r

/-- The first token, which is the end of input when no other is left, or the fault met instead. -/
def front (ts : Tokens) : Except Source.Failure Token :=
  match ts.list, ts.ending with
  | t :: _, _ => .ok t
  | [], .complete p => .ok ⟨.eof, p⟩
  | [], .failed failure => .error failure

/-- The sequence without its first token; nothing can be taken from behind the end. -/
def rest (ts : Tokens) : Tokens := ⟨ts.list.tail, ts.ending⟩

/-- The sequence without the newlines at its front. -/
def skipNewlines (ts : Tokens) : Tokens := ⟨ts.list.dropWhile (·.lexeme = .newline), ts.ending⟩

end Tokens

end Shiba

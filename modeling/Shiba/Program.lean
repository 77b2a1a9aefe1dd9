import Shiba.Stmt.Parser

/-!
# Programs

A `Program` is the sequence of top-level statements of a text up to its end, or up to the first
failure: the statements before a failure are there and can be run before it is reported.
-/

namespace Shiba

/-- The top-level statements of a text and how the text ends. -/
structure Program where
  statements : Block
  ending : Ending

namespace Program

/-- A program with one more statement in front. -/
def cons (s : Stmt) (p : Program) : Program := ⟨s :: p.statements, p.ending⟩

/-- The next top-level statement, or the place of the end of the input. -/
def statement? (bound : Nat) : Parser (Except Position Stmt) := do
  Parser.skipNewlines
  let t ← Parser.peek .plain
  if t.lexeme = .eof then return .error t.position
  else return .ok (← Stmt.parse bound)

/-- The statements made of a sequence of tokens, at most `fuel` of them, each with at most `bound`
nested blocks and brackets. -/
def ofTokensWith (bound : Nat) : (fuel : Nat) → Tokens → Program
  | 0, _ => ⟨[], .failed ⟨.grammatical .nestingExhausted, .start⟩⟩
  | fuel + 1, ts =>
    match (statement? bound).run ts with
    | .error failure => ⟨[], .failed failure⟩
    | .ok (.error position, _) => ⟨[], .complete position⟩
    | .ok (.ok s, rest) => cons s (ofTokensWith bound fuel rest)

/-- The statements made of a sequence of tokens.  Every statement takes a token away, so that the
number of tokens is fuel enough. -/
def ofTokens (ts : Tokens) : Program :=
  ofTokensWith (ts.list.length + 1) (ts.list.length + 1) ts

/-- The program written by a text. -/
def ofText (s : String) : Program := ofTokens (Tokens.ofText s)

/-- All statements of a text, or the failure that stops before its end. -/
def parse (s : String) : Except Source.Failure Block :=
  let p := ofText s
  match p.ending with
  | .complete _ => .ok p.statements
  | .failed failure => .error failure

end Program

end Shiba

import Shiba.Proofs.Stepwise.Erase
import Shiba.Proofs.Stepwise.Nesting
import Shiba.Proofs.Stepwise.Stmt

/-!
# Newlines inside brackets

Where a parenthesis, a square bracket, or a brace of a dictionary or a struct initialiser is open, a newline
means nothing.  Which brackets are open is told by the tokens before the place (`Nesting.take`).

* `Nesting.Respaced` relates sequences that differ in newlines at such places only.
* `Program.ofTokens_respaced`: such sequences make the same program up to places in the text.
-/

namespace Shiba

open Stepwise

/-- Behind the tokens that `n` tells of, two sequences differ at most in newlines where a bracket is open. -/
inductive Nesting.Respaced : Nesting → List Lexeme → List Lexeme → Prop
  | nil {n : Nesting} : Respaced n [] []
  | token {n : Nesting} {ls ls' : List Lexeme} (l : Lexeme) : Respaced (n.take l) ls ls' →
    Respaced n (l :: ls) (l :: ls')
  | insert {n : Nesting} {ls ls' : List Lexeme} : n.enclosed = true → Respaced n ls ls' →
    Respaced n ls (.newline :: ls')
  | remove {n : Nesting} {ls ls' : List Lexeme} : n.enclosed = true → Respaced n ls ls' →
    Respaced n (.newline :: ls) ls'

/-- What the tokens of a sequence say. -/
def Tokens.said (ts : Tokens) : List Lexeme := ts.list.map (·.lexeme)

/-- Tokens that say what is given, without places. -/
def Tokens.ofLexemes (ls : List Lexeme) (ending : Ending) : Tokens := ⟨ls.map (⟨·, .start⟩), ending⟩

theorem Tokens.erase_eq (ts : Tokens) : ts.erase = .ofLexemes ts.said ts.ending.erase := by
  rw [erase, ofLexemes, said, List.map_map]
  rfl

namespace Stepwise.Reading

variable {n : Nesting} {r : Reading} {ls ls' : List Lexeme} {ending : Ending}

/-- A newline that is skipped changes nothing. -/
theorem run_newline_of_skips (skips : r.now.skips = true) :
    r.run (.ofLexemes (.newline :: ls) ending) = r.run (.ofLexemes ls ending) := by
  simp [run, run.runFrom, Tokens.ofLexemes, advance, skips]

/-- A reading goes on alike.  The induction is on how the sequences differ; with a common token both go on
to a reading of whose brackets the tokens tell. -/
theorem run_respaced (respaced : n.Respaced ls ls') (tracks : Tracks n r) :
    r.run (.ofLexemes ls' ending) = r.run (.ofLexemes ls ending) := by
  induction respaced generalizing r with
  | nil => rfl
  | token l _ ih =>
    have next := advance_tracks tracks ⟨l, .start⟩
    simp only [run, run.runFrom, Tokens.ofLexemes, List.map_cons]
    cases step : r.advance ⟨l, .start⟩ with
    | error program => rfl
    | ok r' =>
      rw [step] at next
      exact ih next
  | insert enclosed _ ih => rw [run_newline_of_skips (tracks.skips enclosed), ih tracks]
  | remove enclosed _ ih => rw [run_newline_of_skips (tracks.skips enclosed), ih tracks]

end Stepwise.Reading

/-- Newlines inside brackets do not matter: sequences of tokens that differ in newlines at such places
only, and in where their tokens stand, make the same program up to places.  So one of them is a program as a
whole exactly when the other is, with the same statements. -/
theorem Program.ofTokens_respaced {ts ts' : Tokens}
    (respaced : Nesting.start.Respaced ts.said ts'.said)
    (ending : ts'.ending.erase = ts.ending.erase) :
    (Program.ofTokens ts').erase = (Program.ofTokens ts).erase := by
  rw [ofTokens_eq_run, ofTokens_eq_run, ← Reading.run_erase, ← Reading.run_erase, ts.erase_eq, ts'.erase_eq,
    ending]
  exact Reading.run_respaced respaced tracks_initial

/-- Newlines are put into the parentheses and the braces of a call in the header of a block. -/
theorem Program.ofTokens_respaced_call :
    let ts := Tokens.ofText "if f(P\x7b\x7d) \x7b\n\x7d"
    let ts' := Tokens.ofText "if f(\nP\x7b\n\n\x7d) \x7b\n\x7d"
    Nesting.start.Respaced ts.said ts'.said ∧ ts'.ending.erase = ts.ending.erase ∧
      (Program.ofTokens ts').erase = (Program.ofTokens ts).erase := by
  intro ts ts'
  have said : ts.said = [.keyword .ifWord, .ident "f", .punct .leftParen, .ident "P", .punct .leftBrace,
      .punct .rightBrace, .punct .rightParen, .punct .leftBrace, .newline, .punct .rightBrace] := by
    decide +kernel
  have said' : ts'.said = [.keyword .ifWord, .ident "f", .punct .leftParen, .newline, .ident "P",
      .punct .leftBrace, .newline, .newline, .punct .rightBrace, .punct .rightParen, .punct .leftBrace,
      .newline, .punct .rightBrace] := by
    decide +kernel
  have respaced : Nesting.start.Respaced ts.said ts'.said := by
    rw [said, said']
    exact .token _ (.token _ (.token _ (.insert rfl (.token _ (.token _ (.insert rfl (.insert rfl
      (.token _ (.token _ (.token _ (.token _ (.token _ .nil))))))))))))
  have ending : ts'.ending.erase = ts.ending.erase := by decide +kernel
  exact ⟨respaced, ending, ofTokens_respaced respaced ending⟩

end Shiba

import Shiba.Proofs.Counting.Stmt
import Shiba.Proofs.Stepwise.Extension
import Shiba.Proofs.Stepwise.Steps
import Shiba.Proofs.Stepwise.Stmt

/-!
# Parsing ends and advances

Whatever the text, parsing ends with its statements or a fault of the text: more fuel than there are tokens
makes no difference, and never runs out.  Every call for a statement, at the top level or in a block, takes
tokens away when it answers one, and behind it no bracket is open and no header is being read
(`Counting.parsing_ends_and_advances`).

The parser in question counts its open brackets; it does what the parser of the library does
(`Counting.Mirrors.statement`), of which the rest is known: it reads the tokens one by one
(`Program.run_start_eq`), without fuel (`Stepwise.Reading.run_possible`).
-/

namespace Shiba

open Stepwise

/-- The statements of a program that is whole, or the failure that stops it. -/
def Program.result (program : Program) : Except Source.Failure Block :=
  match program.ending with
  | .complete _ => .ok program.statements
  | .failed failure => .error failure

theorem Program.parse_eq_result (s : String) : parse s = (ofText s).result := rfl

theorem Program.result_cons (s : Stmt) (program : Program) :
    (cons s program).result = (s :: ·) <$> program.result := by
  rcases program with ⟨statements, place | failure⟩ <;> rfl

/-- Fuel beyond the number of tokens makes no difference. -/
theorem Program.ofTokensWith_eq {bound fuel : Nat} {ts : Tokens} (deep : ts.list.length < bound)
    (enough : ts.list.length < fuel) : ofTokensWith bound fuel ts = ofTokens ts := by
  rw [ofTokens_eq_run]
  exact (run_start_eq bound fuel [] enough deep).symm

/-- No text is too deep. -/
theorem Program.parse_ne_exhausted (s : String) (place : Position) :
    parse s ≠ .error ⟨.grammatical .nestingExhausted, place⟩ := by
  have possible : (Tokens.ofText s).ending.Possible := by
    cases ending : (Tokens.ofText s).ending with
    | complete place => trivial
    | failed failure =>
      -- a fault inside a token is none of the grammar
      obtain ⟨fault, same⟩ := Reader.tokens_lexical (r := Reader.ofText s) ending
      intro exhausted
      cases same.symm.trans exhausted
  have whole : (ofText s).ending.Possible := by
    rw [ofText, ofTokens_eq_run]
    exact Reading.run_possible trivial possible
  rw [parse_eq_result, result]
  split
  · nofun
  · rename_i failure ending
    rw [ending] at whole
    rintro ⟨⟩
    exact whole rfl

namespace Counting

/-- With more fuel than tokens, counting brackets makes the same program, by sound calls. -/
theorem outcome_program (bound fuel : Nat) {ts : Tokens} (enough : ts.list.length < fuel)
    (calls : List Call) : ∃ rest new, (∀ call ∈ new, call.Sound) ∧
      outcome (program bound fuel) ⟨ts, .plain, calls⟩ =
        ((Program.ofTokensWith bound fuel ts).result, ⟨rest, .plain, calls ++ new⟩) := by
  induction fuel generalizing ts calls with
  | zero => exact absurd enough (Nat.not_lt_zero _)
  | succ fuel ih =>
    unfold program Program.ofTokensWith
    rw [outcome_bind]
    obtain ⟨new, sound, ⟨found, rest, told, run, takes⟩ | ⟨failure, rest, told, run⟩⟩ :=
      Mirrors.statement bound ts calls
    · rw [told, run]
      cases found with
      | error place => exact ⟨rest, new, sound, rfl⟩
      | ok s =>
        have fewer : rest.list.length < fuel := Nat.lt_of_lt_of_le (takes s rfl) (Nat.le_of_lt_succ enough)
        obtain ⟨left, new', sound', later⟩ := ih fewer (calls ++ new)
        refine ⟨left, new ++ new', List.forall_mem_append.2 ⟨sound, sound'⟩, ?_⟩
        simp only [outcome_bind, later, Program.result_cons, List.append_assoc]
        cases (Program.ofTokensWith bound fuel rest).result <;> rfl
    · rw [told, run]
      exact ⟨rest, new, sound, rfl⟩

/-- Parses a text, counting brackets, with fuel to `spare` beyond the number of its tokens. -/
def parse (s : String) (spare : Nat) : Except Source.Failure Block × Cursor :=
  let fuel := (Tokens.ofText s).list.length + 1 + spare
  outcome (program fuel fuel) (Cursor.ofText s)

/-- Parsing a text ends with its statements or with a fault of the text, however much fuel there is beyond
the number of tokens; and every call that answers a statement takes tokens away and leaves no bracket open
and no header begun. -/
theorem parsing_ends_and_advances (s : String) (spare : Nat) :
    (parse s spare).1 = Program.parse s ∧
      (∀ place, Program.parse s ≠ .error ⟨.grammatical .nestingExhausted, place⟩) ∧
      ∀ call ∈ (parse s spare).2.calls, call.after.list.length < call.before.list.length ∧
        call.flags.nesting = 0 ∧ call.flags.header = false := by
  have enough : (Tokens.ofText s).list.length < (Tokens.ofText s).list.length + 1 + spare := by omega
  obtain ⟨rest, new, sound, run⟩ := outcome_program _ _ enough []
  have same : parse s spare = ((Program.ofText s).result, ⟨rest, .plain, new⟩) := by
    rw [Program.ofTokensWith_eq enough enough] at run
    exact run
  refine ⟨by rw [same, Program.parse_eq_result], Program.parse_ne_exhausted s, fun call member => ?_⟩
  rw [same] at member
  have here := sound call member
  rw [here.plain]
  exact ⟨here.fewer, rfl, rfl⟩

/-- The calls for the statements of a block are noted down before that of the statement it belongs to. -/
example : ((parse "for x \x7b\ny()\n\x7d" 0).2.calls.map fun call =>
    (call.before.list.length, call.after.list.length, call.flags)) = [(5, 2, .plain), (9, 0, .plain)] := by
  rfl

end Counting

end Shiba

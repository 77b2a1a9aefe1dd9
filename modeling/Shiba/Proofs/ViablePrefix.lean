import Shiba.Proofs.Stepwise.Extension
import Shiba.Proofs.Stepwise.Stmt
import Shiba.Proofs.Stepwise.Verdict

/-!
# Prefixes of valid texts

A text that can still become valid should not be refused: its failure, if it has one, should say that
the text only ended too early.  That is so for every text that ends in a blank, with one exception
(`Program.CutShort`).  Behind several targets of an assignment the parser asks for an operator, and
behind loop variables it falls back to a condition; in both places it reports the end of input like a
wrong token.

* `Program.incomplete_iff_not_cutShort`: among the prefixes of valid texts, those that are cut short are
  exactly the ones whose failure does not say that the text ended too early.
-/

namespace Shiba

open Stepwise

/-- The last character of a text is a blank. -/
def EndsInBlank (s : String) : Prop := ∃ c ∈ s.toList.getLast?, Reader.isBlank c = true

namespace Program

/-- The text ends behind several targets of an assignment, or behind loop variables, before the token that
says so. -/
def CutShort (s : String) : Prop :=
  ∃ place r, (Tokens.ofText s).ending = .complete place ∧
    Reading.initial.reads (Tokens.ofText s).list = .ok r ∧ r.now.cutShort = true

variable {s t : String} {block : Block} {r : Reading}

theorem ofText_eq_run (s : String) : ofText s = Reading.initial.run (Tokens.ofText s) :=
  ofTokens_eq_run _

theorem parse_eq_ok_iff : parse s = .ok block ↔ (ofText s).statements = block ∧
    ∃ place, (ofText s).ending = .complete place := by
  unfold parse
  rcases ofText s with ⟨statements, - | -⟩ <;> simp

theorem parse_eq_error_iff {failure : Source.Failure} :
    parse s = .error failure ↔ (ofText s).ending = .failed failure := by
  unfold parse
  rcases ofText s with ⟨statements, - | -⟩ <;> simp

/-- A text with a token that cannot stand where it does is not valid. -/
theorem parse_ne_ok_of_reads_error {program : Program}
    (error : Reading.initial.reads (Tokens.ofText s).list = .error program) :
    parse s ≠ .ok block := by
  intro valid
  obtain ⟨-, place, complete⟩ := parse_eq_ok_iff.1 valid
  have blamed : Blamed program :=
    Reading.blamed_of_reads (fun _ member => Reader.ne_eof_of_mem_tokens member) error
  obtain ⟨failure, failed, -⟩ := blamed
  rw [ofText_eq_run, Reading.run_of_reads_error error, failed] at complete
  cases complete

theorem apart_of_endsInBlank (blank : EndsInBlank s) (rest : List Char) :
    Reader.Apart (Reader.ofText s).rest rest := .inr blank

theorem tokens_ofText_append (s t : String) :
    Tokens.ofText (s ++ t) = ((Reader.ofText s).append t.toList).tokens := by
  rw [← Reader.tokens_ofText, Reader.ofText, String.toList_append]
  rfl

/-- The tokens of a text that can become valid can all stand where they do. -/
theorem reads_of_valid (blank : EndsInBlank s) (valid : parse (s ++ t) = .ok block) :
    ∃ r, Reading.initial.reads (Tokens.ofText s).list = .ok r := by
  cases reads : Reading.initial.reads (Tokens.ofText s).list with
  | ok r => exact ⟨r, rfl⟩
  | error program =>
    -- the token that cannot stand there is still there in the longer text
    refine absurd valid ?_
    suffices ∃ program, Reading.initial.reads (Tokens.ofText (s ++ t)).list = .error program by
      obtain ⟨program, error⟩ := this
      exact parse_ne_ok_of_reads_error error
    rw [tokens_ofText_append]
    rcases Reader.tokens_append_list (apart_of_endsInBlank blank t.toList) with
      ⟨more, longer⟩ | ⟨before, text, text', p, more, same, longer⟩
    · rw [← longer]
      exact ⟨program, Reading.reads_append_error reads⟩
    · rw [← Reader.tokens_ofText, same] at reads
      rw [longer]
      cases first : Reading.initial.reads before with
      | error program' => exact ⟨program', Reading.reads_append_error first⟩
      | ok r =>
        rw [Reading.reads_append_ok first] at reads ⊢
        rcases r.advance_comment p with never | ⟨next, always⟩
        · obtain ⟨program', error⟩ := never text'
          exact ⟨program', by rw [Reading.reads, error]⟩
        · rw [Reading.reads, (always text).1] at reads
          cases reads

/-- A lexical fault in a text that can become valid is an open string. -/
theorem open_string_of_valid {failure : Source.Failure} (blank : EndsInBlank s)
    (valid : parse (s ++ t) = .ok block) (failed : (Tokens.ofText s).ending = .failed failure) :
    failure.fault = .lexical .unterminatedString := by
  refine Decidable.byContradiction fun closed => ?_
  have same : Tokens.ofText (s ++ t) = Tokens.ofText s :=
    (tokens_ofText_append s t).trans
      (Reader.tokens_append_failed (apart_of_endsInBlank blank t.toList) failed closed)
  obtain ⟨r, reads⟩ := reads_of_valid blank valid
  obtain ⟨-, place, complete⟩ := parse_eq_ok_iff.1 valid
  rw [ofText_eq_run, same, Reading.run_of_reads_ok reads, failed] at complete
  cases complete

/-- Among the prefixes of valid texts, those whose failure does not say that the text ended too early are
the ones that are cut short. -/
theorem incomplete_iff_not_cutShort (blank : EndsInBlank s) (valid : parse (s ++ t) = .ok block) :
    (∀ failure, parse s = .error failure → failure.fault.incomplete = true) ↔ ¬CutShort s := by
  obtain ⟨r, reads⟩ := reads_of_valid blank valid
  have program := (ofText_eq_run s).trans (Reading.run_of_reads_ok reads)
  simp only [parse_eq_error_iff, program]
  cases ending : (Tokens.ofText s).ending with
  | failed failure =>
    -- an open string is told, and a text with a lexical fault is not cut short
    have open_string := open_string_of_valid blank valid ending
    constructor
    · rintro - ⟨place, r', complete, -⟩
      cases ending.symm.trans complete
    · rintro - failure' ⟨⟩
      rw [open_string]
      rfl
  | complete place =>
    obtain ⟨whole, ends, -, verdict⟩ := r.advance_eof place
    have cutShort : CutShort s ↔ r.now.cutShort = true := by
      constructor
      · rintro ⟨place', r', -, reads', cut⟩
        cases reads.symm.trans reads'
        exact cut
      · exact fun cut => ⟨place, r, ending, reads, cut⟩
    rw [Reading.run_nil_complete ends, cutShort]
    split at verdict
    · rename_i cut
      obtain ⟨failure, failed, unflagged⟩ := verdict
      constructor
      · intro flagged
        rw [flagged failure failed] at unflagged
        cases unflagged
      · exact fun whole => absurd cut whole
    · rename_i cut
      refine ⟨fun _ => cut, fun _ failure failed => ?_⟩
      rcases verdict with ⟨failure', failed', fault, same, tells⟩ | ⟨-, place', complete⟩
      · cases failed.symm.trans failed'
        rw [same]
        exact tells
      · cases failed.symm.trans complete

/-- Behind two targets an operator can come, but its absence at the end of input is told as an error. -/
theorem incomplete_iff_not_cutShort_targets :
    EndsInBlank "a, b " ∧ (∃ block, parse ("a, b " ++ "= 1, 2") = .ok block) ∧
      ((∀ failure, parse "a, b " = .error failure → failure.fault.incomplete = true) ↔
        ¬CutShort "a, b ") := by
  have blank : EndsInBlank "a, b " := ⟨' ', rfl, rfl⟩
  have valid : ∃ block, parse ("a, b " ++ "= 1, 2") = .ok block := ⟨_, rfl⟩
  obtain ⟨block, parsed⟩ := valid
  exact ⟨blank, ⟨block, parsed⟩, incomplete_iff_not_cutShort blank parsed⟩

example : CutShort "a, b " := ⟨_, _, rfl, rfl, rfl⟩

example : CutShort "for i, x " := ⟨_, _, rfl, rfl, rfl⟩

end Program

end Shiba

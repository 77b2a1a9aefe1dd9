import Shiba.Proofs.Stepwise.Newline
import Shiba.Proofs.Stepwise.Relocation
import Shiba.Proofs.Stepwise.Steps
import Shiba.Proofs.TokenTiling
import Shiba.Proofs.ViablePrefix

/-!
# Texts one below the other

The program of two texts with a newline between them is the program of the first and then that of the
second, further down (`Program.parse_append_newline`).

* `Reader.tokens_relocate`: a text has the same tokens wherever it starts, as many lines and characters
  further on.
* `Reading.advance_newline_of_over`: newlines are skipped inside brackets only, so a newline ends a
  statement that the end of input would end.
* `Reading.run_newline`: what follows the newline is read as a text by itself, behind the statements that
  were complete.  A conditional may still wait for a further branch there, but a text by itself does not
  start with one.
-/

namespace Shiba

/-! ## Places further on -/

namespace Position

/-- The place so many lines and characters further on, in the same column. -/
def shift (lines offset : Nat) (p : Position) : Position := ⟨p.line + lines, p.column, p.offset + offset⟩

/-- A change of places that keeps pace with the characters that are passed. -/
structure Steady (f : Position → Position) : Prop where
  after : ∀ p c, f (p.after c) = (f p).after c

theorem steady_shift (lines offset : Nat) : Steady (shift lines offset) where
  after p c := by
    unfold after shift
    split <;> simp only [mk.injEq, true_and] <;> omega

theorem Steady.afterAll {f : Position → Position} (steady : Steady f) (cs : List Char) (p : Position) :
    f (p.afterAll cs) = (f p).afterAll cs := by
  induction cs generalizing p with
  | nil => rfl
  | cons c cs ih => rw [afterAll_cons, ih, steady.after, afterAll_cons]

/-- Behind a text and a newline a line starts. -/
theorem after_newline (cs : List Char) :
    (start.afterAll cs).after '\n' = start.shift (1 + cs.count '\n') (cs.length + 1) := by
  have here := exact_afterAll cs
  simp only [after, if_true, here.line, here.offset]
  simp only [shift, start, mk.injEq, true_and]
  omega

end Position

namespace Reader

variable {f : Position → Position}

/-- A reader of the same text at another place. -/
def relocate (f : Position → Position) (r : Reader) : Reader := ⟨r.rest, f r.position⟩

/-- An answer at another place. -/
def Answer.relocate {α : Type} (f : Position → Position) (answer : Answer α) : Answer α :=
  (answer.1.mapError (Source.Failure.relocate f), answer.2.relocate f)

theorem readString_relocate (steady : Position.Steady f) (opening p : Position) (cs done : List Char) :
    readString (f opening) cs (f p) done = (readString opening cs p done).relocate f := by
  fun_induction readString opening cs p done with
  | case1 => rfl
  | case2 p done cs =>
    rw [readString, ← steady.after]
    rfl
  | case3 p done =>
    rw [readString, ← steady.after]
    rfl
  | case4 e cs p done c found ih =>
    rw [readString, found, ← steady.after, ← steady.after]
    exact ih
  | case5 e cs p done none =>
    rw [readString, none, ← steady.after]
    rfl
  | case6 c cs p done quote lone escape ih =>
    rw [readString_plain quote (ne_backslash lone escape), ← steady.after]
    exact ih

theorem past_relocate (steady : Position.Steady f) (p : Position) (passed rest : List Char) :
    past (f p) passed rest = (past p passed rest).relocate f := by
  rw [past, ← steady.afterAll]
  rfl

/-- What a text starts with does not depend on where it starts. -/
theorem readLexeme_relocate (steady : Position.Steady f) (cs : List Char) (p : Position) :
    readLexeme cs (f p) = (readLexeme cs p).relocate f := by
  cases cs with
  | nil => rfl
  | cons c cs =>
    simp only [readLexeme]
    split
    · rw [← steady.after, readString_relocate steady]
      rcases readString p cs (p.after c) [] with ⟨failure | value, left⟩ <;> rfl
    split
    · simp only [readNumber, past_relocate steady]
      split <;> rfl
    split
    · rw [← steady.after]
      rfl
    split
    · simp only [readComment, ← steady.after, past_relocate steady]
      rfl
    split
    · rw [past_relocate steady]
      rfl
    split
    · simp only [readName, past_relocate steady]
      rfl
    · rfl

theorem read_relocate (steady : Position.Steady f) (r : Reader) :
    (r.relocate f).read = (r.read.1.map (Token.relocate f) |>.mapError (Source.Failure.relocate f),
      r.read.2.relocate f) := by
  simp only [read_eq, relocate, ← steady.afterAll, readLexeme_relocate steady]
  rcases readLexeme (r.rest.dropWhile isBlank) (r.position.afterAll (r.rest.takeWhile isBlank)) with
    ⟨failure | lexeme, left⟩ <;> rfl

/-- A text has the same tokens wherever it starts. -/
theorem tokens_relocate (steady : Position.Steady f) (r : Reader) :
    (r.relocate f).tokens = r.tokens.relocate f := by
  induction r using tokens_induction with
  | fault r left failure read =>
    have moved := read_relocate steady r
    rw [read] at moved
    rw [tokens_of_error moved, tokens_of_error read]
    rfl
  | eof r left t read ends =>
    have moved := read_relocate steady r
    rw [read] at moved
    rw [tokens_of_eof moved (by rw [t.lexeme_relocate, ends]), tokens_of_eof read ends]
    rfl
  | token r left t read more ih =>
    have moved := read_relocate steady r
    rw [read] at moved
    rw [tokens_of_ok moved (by rw [t.lexeme_relocate]; exact more), tokens_of_ok read more, ih]
    rfl

end Reader

/-- A text is over behind its last character. -/
theorem Tokens.place_of_complete {s : String} {place : Position}
    (complete : (ofText s).ending = .complete place) : place = Position.start.afterAll s.toList := by
  have read : (Reader.ofText s).tokens = ⟨(ofText s).list, .complete place⟩ := by
    rw [Reader.tokens_ofText, ← complete]
  have tiles : Tiles [] s.toList (ofText s).list := tiles_of_tokens (r := Reader.ofText s) rfl read
  cases read.symm.trans tiles.tokens_eq
  rfl

/-- The tokens of two texts with a newline between them. -/
theorem Tokens.ofText_append_newline {s₁ s₂ : String} {place : Position}
    (complete : (ofText s₁).ending = .complete place) :
    let moved := (ofText s₂).relocate (Position.shift (1 + s₁.toList.count '\n') (s₁.length + 1))
    ofText (s₁ ++ "\n" ++ s₂) =
      ⟨(ofText s₁).list ++ ⟨.newline, place⟩ :: moved.list, moved.ending⟩ := by
  have below : Reader.mk s₂.toList (place.after '\n') =
      (Reader.ofText s₂).relocate (Position.shift (1 + s₁.toList.count '\n') (s₁.length + 1)) := by
    rw [place_of_complete complete, Position.after_newline]
    rfl
  have line : ("\n" ++ s₂).toList = '\n' :: s₂.toList := String.toList_append
  have tail := Reader.tokens_newline s₂.toList place
  rw [below, Reader.tokens_relocate (Position.steady_shift _ _)] at tail
  rw [String.append_assoc, Program.tokens_ofText_append, line, Reader.tokens_append ?_ complete ?_, tail]
  · rfl
  · rintro c ⟨⟩
    exact .inr rfl
  · rintro t - - c ⟨⟩
    rfl

namespace Stepwise

open Shiba.Expr (binaryOp?)
open Shiba.Stmt (endsAt)

/-! ## Behind a newline -/

variable {t : Token}

namespace Reading

variable {r : Reading} {block : Block} {place : Position}

/-- What the end of input finds when a text is over: no block is open, and a statement is over or none has
been started. -/
theorem of_complete {p : Position} (complete : r.run ⟨[], .complete place⟩ = ⟨block, .complete p⟩) :
    r.outer = [] ∧ (r.now = .start ∧ block = r.before ∨
      ∃ s, r.now.stmt? = some s ∧ block = r.before ++ [s]) := by
  have inert : Inert (Token.mk .eof place).lexeme := trivial
  have advances : r.advance ⟨.eof, place⟩ = r.offer ⟨.eof, place⟩ := by simp [advance]
  have whole : r.offer ⟨.eof, place⟩ = .error ⟨block, .complete p⟩ := by
    obtain ⟨program, ends, -⟩ := r.advance_eof place
    rw [run_nil_complete ends] at complete
    rw [← advances, ends, complete]
  -- between statements the end of input is taken when no block is open
  have begins : ∀ q : Reading, q.begin ⟨.eof, place⟩ = .error ⟨block, .complete p⟩ →
      q.outer = [] ∧ block = q.before := by
    intro q ends
    rw [begin_eof rfl] at ends
    split at ends
    · rename_i top
      cases ends
      exact ⟨top, rfl⟩
    · cases ends
  cases finished : r.now.stmt? with
  | some s =>
    rw [offer_of_endsAt finished rfl] at whole
    obtain ⟨top, same⟩ := begins _ whole
    exact ⟨top, .inr ⟨s, rfl, same⟩⟩
  | none =>
    by_cases start : r.now = .start
    · simp only [offer, start] at whole
      obtain ⟨top, same⟩ := begins _ whole
      exact ⟨top, .inl ⟨start, same⟩⟩
    · by_cases members : ∃ m, r.now = .members m
      · obtain ⟨m, same⟩ := members
        simp only [offer, same] at whole
        cases whole
      · obtain ⟨failure, error⟩ :=
          offer_of_stmt_none inert finished start fun m same => members ⟨m, same⟩
        cases error.symm.trans whole

/-- A newline behind a statement that is over ends it, but for a conditional, which may go on. -/
theorem advance_newline_of_over {s : Stmt} (place : Position) (within : r.now.Within)
    (finished : r.now.stmt? = some s) :
    r.advance ⟨.newline, place⟩ = .ok (r.add s) ∨
      (∃ p before, r.now = .branches p before) ∧ r.advance ⟨.newline, place⟩ = .ok r := by
  cases line : r.now.skips with
  | false =>
    refine .inl ?_
    simp only [advance, line, Bool.false_eq_true, and_false, if_false]
    exact offer_of_endsAt finished rfl
  | true =>
    refine .inr ⟨?_, by simp [advance, line]⟩
    -- an expression that can be over is in no bracket, where newlines would be skipped
    have never : ∀ head pending look, r.now = .expr head pending look → ∀ e,
        look.ended? pending = some e → False := by
      intro head pending look same e ended
      rw [same] at within line
      cases look with
      | name | suffix | value =>
        have outside := Stepwise.Within.of_closed within ended
        rw [Now.skips, Look.skips, outside] at line
        cases line
      | _ => cases ended
    rcases r with ⟨outer, before, now⟩
    cases now with
    | branches p branches => exact ⟨p, branches, rfl⟩
    | expr head pending look =>
      cases ended : look.ended? pending with
      | some e => exact (never head pending look rfl e ended).elim
      | none => cases head <;> simp [Now.stmt?, ended] at finished
    | start | functionParen | param | paramEnd | members => cases finished
    | _ => cases line

/-- Between two statements a further branch of a conditional cannot stand. -/
theorem advance_further_branch {outer : List (Owner × Block)}
    (branch : t.lexeme = .keyword .elifWord ∨ t.lexeme = .keyword .elseWord) :
    ∃ failure, (⟨outer, block, .start⟩ : Reading).advance t =
      .error ⟨(⟨outer, block, .start⟩ : Reading).done, .failed failure⟩ := by
  rcases t with ⟨l, p⟩
  rcases branch with rfl | rfl <;> exact ⟨_, rfl⟩

/-- Behind a conditional, what could be read by itself is read as if the conditional were over. -/
theorem run_branches {s : Stmt} {p q : Position} {branches : List (Expr × Block)} {ts : Tokens}
    (conditional : r.now = .branches p branches) (finished : r.now.stmt? = some s)
    (complete : ((r.add s).run ts).ending = .complete q) : r.run ts = (r.add s).run ts := by
  rcases ts with ⟨list, ending⟩
  have alike : ∀ t : Token, t.lexeme ≠ .newline →
      ¬(t.lexeme = .keyword .elifWord ∨ t.lexeme = .keyword .elseWord) →
      r.advance t = (r.add s).advance t := by
    intro t mark other
    refine advance_add finished mark ?_
    rw [conditional]
    exact other
  induction list with
  | nil =>
    cases ending with
    | complete place => simp only [run, run.runFrom, alike ⟨.eof, place⟩ (by simp) (by simp)]
    | failed failure => cases complete
  | cons t list ih =>
    by_cases line : t.lexeme = .newline
    · have skips : r.advance t = .ok r := by simp [advance, line, conditional, Now.skips]
      have skips' : (r.add s).advance t = .ok (r.add s) := by simp [advance, line, add, Now.skips]
      simp only [run, run.runFrom, skips, skips'] at complete ⊢
      exact ih complete
    · by_cases branch : t.lexeme = .keyword .elifWord ∨ t.lexeme = .keyword .elseWord
      · obtain ⟨failure, error⟩ : ∃ failure,
            (r.add s).advance t = .error ⟨(r.add s).done, .failed failure⟩ :=
          advance_further_branch branch
        simp only [run, run.runFrom, error] at complete
        cases complete
      · simp only [run, run.runFrom, alike t line branch]

/-- Behind a text that is over and a newline, what could be read by itself is read by itself, behind the
statements of the text. -/
theorem run_newline {p q place' : Position} {ts : Tokens} (within : r.now.Within)
    (first : r.run ⟨[], .complete place⟩ = ⟨block, .complete p⟩)
    (second : ((⟨[], block, .start⟩ : Reading).run ts).ending = .complete q) :
    r.run ⟨⟨.newline, place'⟩ :: ts.list, ts.ending⟩ = (⟨[], block, .start⟩ : Reading).run ts := by
  obtain ⟨top, finished⟩ := of_complete first
  rcases r with ⟨outer, before, now⟩
  obtain rfl : outer = [] := top
  rcases finished with ⟨rfl, rfl⟩ | ⟨s, finished, rfl⟩
  · rfl
  · rcases advance_newline_of_over place' within finished with ends | ⟨⟨p, branches, rfl⟩, waits⟩
    · simp only [run, run.runFrom, ends]
      rfl
    · simp only [run, run.runFrom, waits]
      exact run_branches rfl finished second

end Reading

end Stepwise

/-! ## Programs -/

open Stepwise

namespace Program

/-- The program of two texts with a newline between them is the program of the first and that of the
second, as far further down as the first text and the newline reach. -/
theorem parse_append_newline {s₁ s₂ : String} {block₁ block₂ : Block} (first : parse s₁ = .ok block₁)
    (second : parse s₂ = .ok block₂) :
    parse (s₁ ++ "\n" ++ s₂) = .ok (block₁ ++ block₂.map
      (Stmt.relocate (Position.shift (1 + s₁.toList.count '\n') (s₁.length + 1)))) := by
  set f := Position.shift (1 + s₁.toList.count '\n') (s₁.length + 1) with f_def
  obtain ⟨r, reads⟩ : ∃ r, Reading.initial.reads (Tokens.ofText s₁).list = .ok r := by
    cases reads : Reading.initial.reads (Tokens.ofText s₁).list with
    | ok r => exact ⟨r, rfl⟩
    | error program => exact absurd first (parse_ne_ok_of_reads_error reads)
  obtain ⟨rfl, p, ends⟩ := parse_eq_ok_iff.1 first
  obtain ⟨rfl, q, ends'⟩ := parse_eq_ok_iff.1 second
  have whole : r.run ⟨[], (Tokens.ofText s₁).ending⟩ = ofText s₁ := by
    rw [ofText_eq_run, Reading.run_of_reads_ok reads]
  obtain ⟨place, complete⟩ : ∃ place, (Tokens.ofText s₁).ending = .complete place := by
    cases ending : (Tokens.ofText s₁).ending with
    | complete place => exact ⟨place, rfl⟩
    | failed failure =>
      rw [ending, Reading.run_nil_failed] at whole
      rw [← whole] at ends
      cases ends
  have here : r.run ⟨[], .complete place⟩ = ⟨(ofText s₁).statements, .complete p⟩ := by
    rw [← complete, whole, ← ends]
  -- the second text by itself, behind the statements of the first
  have below : (⟨[], (ofText s₁).statements, .start⟩ : Reading).run ((Tokens.ofText s₂).relocate f) =
      (ofText s₂).relocate f (ofText s₁).statements := by
    have moved := Reading.run_relocate f (ofText s₁).statements Reading.initial (Tokens.ofText s₂)
    rw [← ofText_eq_run] at moved
    rw [← moved, Reading.relocate, Reading.initial, ahead, Stmt.relocateAll, List.append_nil]
    rfl
  have joined : ofText (s₁ ++ "\n" ++ s₂) = (ofText s₂).relocate f (ofText s₁).statements := by
    rw [ofText_eq_run, Tokens.ofText_append_newline complete, Reading.run_append reads, ← f_def, ← below]
    have within := Reading.reads_within (r := Reading.initial) trivial reads
    refine Reading.run_newline within here (q := f q) ?_
    rw [below, relocate, ends']
    rfl
  refine parse_eq_ok_iff.2 ⟨?_, f q, ?_⟩
  · rw [joined, relocate, Stmt.relocateAll_eq_map]
  · rw [joined, relocate, ends']
    rfl

/-- A conditional at the end of the first text does not wait for what the second one starts with. -/
theorem parse_append_newline_conditional :
    parse "if x \x7b\n\x7d" = .ok [.conditional ⟨1, 1, 0⟩ [(.ident ⟨1, 4, 3⟩ "x", [])] none] ∧
      parse "\nreturn" = .ok [.returnValue ⟨2, 1, 1⟩ none] ∧
      parse ("if x \x7b\n\x7d" ++ "\n" ++ "\nreturn") =
        .ok [.conditional ⟨1, 1, 0⟩ [(.ident ⟨1, 4, 3⟩ "x", [])] none,
          .returnValue ⟨4, 1, 10⟩ none] := by
  have first : parse "if x \x7b\n\x7d" =
      .ok [.conditional ⟨1, 1, 0⟩ [(.ident ⟨1, 4, 3⟩ "x", [])] none] := rfl
  have second : parse "\nreturn" = .ok [.returnValue ⟨2, 1, 1⟩ none] := rfl
  exact ⟨first, second, parse_append_newline first second⟩

end Program

end Shiba

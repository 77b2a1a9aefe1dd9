import Shiba.Proofs.TokenTiling

/-!
# Which lexical faults more text can mend

A fault inside a token says whether more text could mend it, and it is right about that.  Only a string
that is still open can be mended, and it always can: the closing quote is what it lacks, or two of them
where the text broke off behind a backslash.  Every other fault is there for good.

* `Reader.read_append_of_left`: a token stays as it is when something is left behind it.
* `Reader.read_open` and `Reader.read_broken`: what becomes of a faulty token in a longer text.
* `Tokens.incomplete_exact`: what becomes of the tokens of a text that has a fault.
-/

namespace Shiba

open Reader

/-- Whether a token ends where it should is seen from the next character. -/
theorem Lexeme.Ends.append {l : Lexeme} {rest : List Char} (ends : l.Ends rest) (some : rest ≠ [])
    (more : List Char) : l.Ends (rest ++ more) := by
  cases rest with
  | nil => exact absurd rfl some
  | cons c rest => cases l <;> exact ends

namespace Reader

variable {r left : Reader} {t : Token} {cs done : List Char} {opening p : Position}
  {failure : Source.Failure}

/-- A token stays as it is when something is left behind it. -/
theorem read_append_of_left (read : r.read = (.ok t, left)) (some : left.rest ≠ [])
    (notEnd : t.lexeme ≠ .eof) (more : List Char) :
    (r.append more).read = (.ok t, left.append more) := by
  obtain ⟨cs, p⟩ := r
  rcases read_ok read with ⟨rfl, -⟩ | ⟨gap, text, rest, rfl, blank, place, written, ends, rfl⟩
  · exact absurd rfl notEnd
  · have again := read_token blank written (ends.append some more) p
    rw [← place] at again
    rw [append, List.append_assoc, List.append_assoc, again]
    rfl

/-! ## Open strings -/

/-- What an open string lacks is a closing quote, or two where the text broke off behind a backslash. -/
theorem readString_open (read : readString opening cs p done = (.error failure, left))
    (open? : failure.fault.incomplete = true) : failure.position = opening ∧
      ∃ closing value q, readString opening (cs ++ closing) p done = (.ok value, ⟨[], q⟩) := by
  fun_induction readString opening cs p done with
  | case1 =>
    cases read
    exact ⟨rfl, ['"'], _, _, rfl⟩
  | case2 => cases read
  | case3 =>
    cases read
    exact ⟨rfl, ['"', '"'], _, _, rfl⟩
  | case4 e cs p done c escaped ih =>
    obtain ⟨place, closing, value, q, closes⟩ := ih read
    refine ⟨place, closing, value, q, ?_⟩
    simp only [List.cons_append, readString, escaped]
    exact closes
  | case5 =>
    cases read
    cases open?
  | case6 c cs p done quote lone escape ih =>
    obtain ⟨place, closing, value, q, closes⟩ := ih read
    refine ⟨place, closing, value, q, ?_⟩
    rw [List.cons_append, readString_plain quote (ne_backslash lone escape)]
    exact closes

/-- A token that more text could mend is an open string. -/
theorem readLexeme_open {c : Char} (read : readLexeme (c :: cs) p = (.error failure, left))
    (open? : failure.fault.incomplete = true) : failure.position = p ∧
      ∃ closing value q, readLexeme (c :: cs ++ closing) p = (.ok (.string value), ⟨[], q⟩) := by
  simp only [readLexeme, readNumber, readName, readComment] at read
  split at read
  · next quote =>
    rcases string : readString p cs (p.after c) [] with ⟨failure' | value, left'⟩
    · rw [string] at read
      cases read
      obtain ⟨place, closing, value, q, closes⟩ := readString_open string open?
      refine ⟨place, closing, value, q, ?_⟩
      simp only [List.cons_append, readLexeme, if_pos quote, closes]
      rfl
    · rw [string] at read
      cases read
  -- every other fault is one that stays
  · repeat' split at read
    all_goals cases read
    all_goals cases open?

/-! ## Faults that stay -/

/-- A run of characters of a class only grows when the text does. -/
theorem takeWhile_prefix_append (c : Char → Bool) (cs more : List Char) :
    cs.takeWhile c <+: (cs ++ more).takeWhile c := by
  rw [List.takeWhile_append]
  split
  · exact (List.takeWhile_prefix c).trans (List.prefix_append cs _)
  · exact List.prefix_rfl

/-- More digits and points do not make a number of one that has too many points. -/
theorem readNumber_broken (read : readNumber cs p = (.error failure, left)) (more : List Char) :
    ∃ failure' left', readNumber (cs ++ more) p = (.error failure', left') ∧
      failure'.fault.incomplete = false ∧ failure'.position = failure.position := by
  unfold readNumber at read ⊢
  dsimp only at read ⊢
  split at read
  · next points =>
    cases read
    have longer := takeWhile_prefix_append isNumberChar cs more
    rw [if_pos (Nat.le_trans points (longer.sublist.count_le '.'))]
    exact ⟨_, _, rfl, rfl, rfl⟩
  · cases read

/-- A character that is no punctuator by itself is not the first of two that are one. -/
theorem pair?_eq_none_of_single? {c : Char} (lone : Punctuator.single? c = none) (d : Char) :
    Punctuator.pair? c d = none := by
  unfold Punctuator.pair?
  split <;> first | rfl | cases lone

/-- Text behind a character that starts no punctuator does not make one of it. -/
theorem punctuator?_broken {c : Char} (broken : punctuator? (c :: cs) = none) (more : List Char) :
    punctuator? (c :: cs ++ more) = none := by
  cases cs with
  | nil =>
    have single : Punctuator.single? c = none := Option.map_eq_none_iff.1 broken
    cases more with
    | nil => exact broken
    | cons d more =>
      have pair : Punctuator.pair? c d = none := pair?_eq_none_of_single? single d
      simp only [List.singleton_append, punctuator?, pair, single, Option.map_none]
  | cons d cs =>
    simp only [List.cons_append, punctuator?] at broken ⊢
    split at broken
    · cases broken
    · have single : Punctuator.single? c = none := Option.map_eq_none_iff.1 broken
      rw [single, Option.map_none]

/-- A faulty token that more text could not mend is faulty at the same place in a longer text. -/
theorem readLexeme_broken {c : Char} (read : readLexeme (c :: cs) p = (.error failure, left))
    (closed : failure.fault.incomplete = false) (more : List Char) :
    ∃ failure' left', readLexeme (c :: cs ++ more) p = (.error failure', left') ∧
      failure'.fault.incomplete = false ∧ failure'.position = failure.position := by
  simp only [List.cons_append, readLexeme] at read ⊢
  split at read
  · next quote =>
    rw [if_pos quote]
    rcases string : readString p cs (p.after c) [] with ⟨failure' | value, left'⟩
    · rw [string] at read
      cases read
      rw [readString_append string fun isOpen => by cases isOpen; cases closed]
      exact ⟨_, _, rfl, closed, rfl⟩
    · rw [string] at read
      cases read
  next quote =>
  rw [if_neg quote]
  split at read
  · next digit =>
    rw [if_pos digit]
    exact readNumber_broken read more
  next digit =>
  rw [if_neg digit]
  split at read
  · cases read
  next newline =>
  rw [if_neg newline]
  split at read
  · cases read
  next hash =>
  rw [if_neg hash]
  split at read
  · cases read
  next broken =>
  have longer := punctuator?_broken broken more
  rw [List.cons_append] at longer
  rw [longer]
  dsimp only
  split at read
  · cases read
  · next letter =>
    cases read
    rw [if_neg letter]
    exact ⟨_, _, rfl, rfl, rfl⟩

/-! ## Faults behind a gap -/

/-- A fault that is met lies in the token behind the blanks, in any longer text too. -/
theorem read_error (read : r.read = (.error failure, left)) : ∃ c cs p,
    readLexeme (c :: cs) p = (.error failure, left) ∧
      ∀ more, (r.append more).read =
        ((readLexeme (c :: cs ++ more) p).1.map fun lexeme => ⟨lexeme, p⟩,
          (readLexeme (c :: cs ++ more) p).2) := by
  obtain ⟨c, cs, start, found⟩ := of_read_error read
  refine ⟨c, cs, _, found, fun more => ?_⟩
  obtain ⟨taken, dropped⟩ : (r.rest ++ more).takeWhile isBlank = r.rest.takeWhile isBlank ∧
      (r.rest ++ more).dropWhile isBlank = r.rest.dropWhile isBlank ++ more :=
    takeWhile_append_parted r.rest fun none => absurd (none.symm.trans start) nofun
  simp only [read_eq, append, taken, dropped, start]

/-- A fault that more text could mend is mended by some text, and the token that was faulty is a string
that starts at the place of the fault and ends the text. -/
theorem read_open (read : r.read = (.error failure, left))
    (open? : failure.fault.incomplete = true) : ∃ closing value q,
      (r.append closing).read = (.ok ⟨.string value, failure.position⟩, ⟨[], q⟩) := by
  obtain ⟨c, cs, p, found, longer⟩ := read_error read
  obtain ⟨place, closing, value, q, closes⟩ := readLexeme_open found open?
  refine ⟨closing, value, q, ?_⟩
  rw [longer, closes, place]
  rfl

/-- A fault that more text could not mend is met at the same place, whatever follows. -/
theorem read_broken (read : r.read = (.error failure, left))
    (closed : failure.fault.incomplete = false) (more : List Char) : ∃ failure' left',
      (r.append more).read = (.error failure', left') ∧ failure'.fault.incomplete = false ∧
        failure'.position = failure.position := by
  obtain ⟨c, cs, p, found, longer⟩ := read_error read
  obtain ⟨failure', left', again, closed', place⟩ := readLexeme_broken found closed more
  refine ⟨failure', left', ?_, closed', place⟩
  rw [longer, again]
  rfl

/-! ## Whole texts -/

/-- Something is left where a fault is still to come. -/
theorem rest_ne_nil_of_failed (failed : r.tokens.ending = .failed failure) : r.rest ≠ [] := by
  intro none
  rw [tokens_of_rest_nil none] at failed
  cases failed

/-- An open string can be closed: the tokens before it stay. -/
theorem tokens_open (failed : r.tokens.ending = .failed failure)
    (open? : failure.fault.incomplete = true) : ∃ closing value q,
      (r.append closing).tokens =
        ⟨r.tokens.list ++ [⟨.string value, failure.position⟩], .complete q⟩ := by
  induction r using tokens_induction with
  | fault r left failure' read =>
    rw [tokens_of_error read] at failed ⊢
    cases failed
    obtain ⟨closing, value, q, mended⟩ := read_open read open?
    refine ⟨closing, value, q, ?_⟩
    rw [tokens_of_ok mended nofun, tokens_of_rest_nil rfl]
    rfl
  | eof r left t read ends =>
    rw [tokens_of_eof read ends] at failed
    cases failed
  | token r left t read notEnd ih =>
    rw [tokens_of_ok read notEnd] at failed ⊢
    obtain ⟨closing, value, q, mended⟩ := ih failed
    refine ⟨closing, value, q, ?_⟩
    rw [tokens_of_ok (read_append_of_left read (rest_ne_nil_of_failed failed) notEnd closing) notEnd,
      mended]
    rfl

/-- A fault that more text could not mend stays: the tokens before it are the same, and it is met at the
same place. -/
theorem tokens_broken (failed : r.tokens.ending = .failed failure)
    (closed : failure.fault.incomplete = false) (more : List Char) : ∃ failure',
      (r.append more).tokens = ⟨r.tokens.list, .failed failure'⟩ ∧
        failure'.fault.incomplete = false ∧ failure'.position = failure.position := by
  induction r using tokens_induction with
  | fault r left failure' read =>
    rw [tokens_of_error read] at failed ⊢
    cases failed
    obtain ⟨failure', left', again, closed', place⟩ := read_broken read closed more
    exact ⟨failure', tokens_of_error again, closed', place⟩
  | eof r left t read ends =>
    rw [tokens_of_eof read ends] at failed
    cases failed
  | token r left t read notEnd ih =>
    rw [tokens_of_ok read notEnd] at failed ⊢
    obtain ⟨failure', again, closed', place⟩ := ih failed
    refine ⟨failure', ?_, closed', place⟩
    rw [tokens_of_ok (read_append_of_left read (rest_ne_nil_of_failed failed) notEnd more) notEnd,
      again]
    rfl

end Reader

/-- A text with a fault says rightly whether more text could mend it.  If it says so, then some text put
behind it makes it a sequence of tokens: those it had, and the string that was open.  If it does not,
then whatever is put behind it, the same tokens are followed by a fault at the same place that more text
could not mend either. -/
theorem Tokens.incomplete_exact {s : String} {failure : Source.Failure}
    (failed : (Tokens.ofText s).ending = .failed failure) :
    (failure.fault.incomplete = true → ∃ t value last, Tokens.ofText (s ++ t) =
      ⟨(Tokens.ofText s).list ++ [⟨.string value, failure.position⟩], .complete last⟩) ∧
    (failure.fault.incomplete = false → ∀ t, ∃ failure',
      Tokens.ofText (s ++ t) = ⟨(Tokens.ofText s).list, .failed failure'⟩ ∧
        failure'.fault.incomplete = false ∧ failure'.position = failure.position) := by
  have longer (t : String) :
      (Reader.ofText s).append t.toList = Reader.ofText (s ++ t) := by
    rw [Reader.append, Reader.ofText, Reader.ofText, String.toList_append]
  constructor
  · intro open?
    obtain ⟨closing, value, last, mended⟩ := tokens_open (r := Reader.ofText s) failed open?
    refine ⟨String.ofList closing, value, last, ?_⟩
    rw [← tokens_ofText, ← longer, String.toList_ofList]
    exact mended
  · intro closed t
    obtain ⟨failure', again, closed', place⟩ :=
      tokens_broken (r := Reader.ofText s) failed closed t.toList
    refine ⟨failure', ?_, closed', place⟩
    rw [← tokens_ofText, ← longer]
    exact again

/-- A text that breaks off behind a backslash in a string is mended, and a number with two points is
not. -/
theorem Tokens.incomplete_exact_samples :
    (Tokens.ofText "x \"a\\").ending = .failed ⟨.lexical .unterminatedString, ⟨1, 3, 2⟩⟩ ∧
    (∃ t value last, Tokens.ofText ("x \"a\\" ++ t) =
      ⟨[⟨.ident "x", ⟨1, 1, 0⟩⟩, ⟨.string value, ⟨1, 3, 2⟩⟩], .complete last⟩) ∧
    (Tokens.ofText "x 1.2.").ending = .failed ⟨.lexical (.invalidDecimal "1.2."), ⟨1, 3, 2⟩⟩ ∧
    (∀ t, ∃ failure',
      Tokens.ofText ("x 1.2." ++ t) = ⟨[⟨.ident "x", ⟨1, 1, 0⟩⟩], .failed failure'⟩ ∧
        failure'.fault.incomplete = false ∧ failure'.position = ⟨1, 3, 2⟩) :=
  ⟨rfl, (Tokens.incomplete_exact (s := "x \"a\\") rfl).1 rfl,
    rfl, (Tokens.incomplete_exact (s := "x 1.2.") rfl).2 rfl⟩

end Shiba

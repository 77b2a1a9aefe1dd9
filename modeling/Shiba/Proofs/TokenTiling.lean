import Mathlib.Data.List.Induction
import Mathlib.Data.List.TakeWhile
import Shiba.Proofs.Stepwise.Extension

/-!
# The tokens of a text tile it

Reading a text neither loses nor repeats a character, and every token knows its place.

* `Position.Exact` says of a place what its line and column mean, by counting in the text before it.
* `Lexeme.WrittenAs` says which characters a token is written with.  A token has one spelling, but a
  string can be written in many ways: `Unescapes` says what a quoted text stands for.
* `Tiles` divides a text into gaps and tokens, each token as long as it can be.
* `Tokens.ofText_eq_complete_iff`: the tokens of a text are those of its tiling, and the end of input
  stands behind its last character.
* `Lexeme.spells_join_iff`: tokens written one after another are read back exactly when they are tokens
  that can be written so.
-/

namespace Shiba

open Reader

/-! ## Places -/

/-- A place is the one behind the text `before`: its offset counts characters, its line counts newlines,
and its column counts from the last newline, or from the start of the text where there is none. -/
structure Position.Exact (p : Position) (before : List Char) : Prop where
  offset : p.offset = before.length
  line : p.line = 1 + before.count '\n'
  firstLine : '\n' ∉ before → p.column = p.offset + 1
  laterLine : ∀ i, before[i]? = some '\n' → (∀ j, i < j → before[j]? ≠ some '\n') →
    p.column = p.offset - i

namespace Position

/-- Passing a newline begins a line. -/
theorem Exact.newline {p : Position} {before : List Char} (here : p.Exact before) :
    (p.after '\n').Exact (before ++ ['\n']) where
  offset := by simp [here.offset]
  line := by simp [after, here.line, Nat.add_assoc]
  firstLine free := by simp at free
  laterLine i isNewline isLast := by
    have inside : i < (before ++ ['\n']).length := (List.getElem?_eq_some_iff.1 isNewline).1
    have notBefore : ¬ i < before.length := by
      intro earlier
      exact isLast before.length earlier (by simp)
    rw [List.length_append, List.length_singleton] at inside
    simp only [after, if_true, here.offset]
    omega

/-- Passing any other character goes on in the line. -/
theorem Exact.character {p : Position} {before : List Char} {c : Char} (here : p.Exact before)
    (other : c ≠ '\n') : (p.after c).Exact (before ++ [c]) where
  offset := by simp [here.offset]
  line := by simp [after, other, here.line]
  firstLine free := by
    simp only [List.mem_append, not_or] at free
    simp [after, other, here.firstLine free.1]
  laterLine i isNewline isLast := by
    have earlier : i < before.length := by
      by_contra notBefore
      have inside := (List.getElem?_eq_some_iff.1 isNewline).1
      rw [List.length_append, List.length_singleton] at inside
      have isEnd : i = before.length := by omega
      rw [isEnd] at isNewline
      simp only [List.getElem?_concat_length, Option.some.injEq] at isNewline
      exact other isNewline
    rw [List.getElem?_append_left earlier] at isNewline
    have column := here.laterLine i isNewline fun j later isAlso => by
      refine isLast j later ?_
      rw [List.getElem?_append_left (List.getElem?_eq_some_iff.1 isAlso).1]
      exact isAlso
    simp only [after, other, if_false, column, here.offset]
    omega

/-- The place reached by passing a text is the one behind it. -/
theorem exact_afterAll (before : List Char) : (start.afterAll before).Exact before := by
  induction before using List.reverseRecOn with
  | nil => exact ⟨rfl, rfl, fun _ => rfl, fun i isNewline => by simp at isNewline⟩
  | append_singleton before c ih =>
    rw [afterAll_append]
    by_cases newline : c = '\n'
    · rw [newline]
      exact ih.newline
    · exact ih.character newline

/-- A text with a newline has a last one. -/
theorem exists_last_newline {before : List Char} (has : '\n' ∈ before) :
    ∃ i : Nat, before[i]? = some '\n' ∧ ∀ j : Nat, i < j → before[j]? ≠ some '\n' := by
  induction before with
  | nil => cases has
  | cons c before ih =>
    by_cases later : '\n' ∈ before
    · obtain ⟨i, isNewline, isLast⟩ := ih later
      refine ⟨i + 1, isNewline, ?_⟩
      rintro (- | j) behind
      · cases behind
      · exact isLast j (Nat.lt_of_succ_lt_succ behind)
    · have first : '\n' = c := (List.mem_cons.1 has).resolve_right later
      refine ⟨0, by rw [first]; rfl, ?_⟩
      rintro (- | j) behind
      · cases behind
      · exact fun isAlso => later (List.mem_of_getElem? isAlso)

/-- There is one place behind a text. -/
theorem exact_iff {p : Position} {before : List Char} :
    p.Exact before ↔ p = start.afterAll before := by
  refine ⟨fun here => ?_, fun same => same ▸ exact_afterAll before⟩
  have there := exact_afterAll before
  have offset : p.offset = (start.afterAll before).offset := here.offset.trans there.offset.symm
  have line : p.line = (start.afterAll before).line := here.line.trans there.line.symm
  have column : p.column = (start.afterAll before).column := by
    by_cases has : '\n' ∈ before
    · obtain ⟨i, isNewline, isLast⟩ := exists_last_newline has
      rw [here.laterLine i isNewline isLast, there.laterLine i isNewline isLast, offset]
    · rw [here.firstLine has, there.firstLine has, offset]
  calc p = ⟨p.line, p.column, p.offset⟩ := rfl
    _ = start.afterAll before := by rw [offset, line, column]

end Position

/-! ## How tokens are written -/

/-- What the text between two quotes stands for. -/
inductive Unescapes : List Char → List Char → Prop
  | nil : Unescapes [] []
  | plain {c : Char} {body value : List Char} : c ≠ '"' → c ≠ '\\' → Unescapes body value →
    Unescapes (c :: body) (c :: value)
  | escape {e c : Char} {body value : List Char} : escape? e = some c → Unescapes body value →
    Unescapes ('\\' :: e :: body) (c :: value)

/-- The characters a token is written with: a string is some quoted text that stands for its value, and
every other token is written in one way. -/
def Lexeme.WrittenAs : Lexeme → List Char → Prop
  | .string value, text => ∃ body, text = '"' :: (body ++ ['"']) ∧ Unescapes body value.toList
  | l, text => l.Spelled ∧ text = l.spelling

theorem Lexeme.WrittenAs.spelled {l : Lexeme} {text : List Char} (written : l.WrittenAs text) :
    l.Spelled := by
  cases l with
  | string value => trivial
  | _ => exact written.1

theorem Lexeme.WrittenAs.ne_eof {l : Lexeme} {text : List Char} (written : l.WrittenAs text) :
    l ≠ .eof := by
  rintro rfl
  exact written.spelled

/-! ## Reading a token -/

/-- What is left behind a run of characters of a class does not go on with one. -/
theorem head?_dropWhile {p : Char → Bool} (cs : List Char) :
    ∀ c ∈ (cs.dropWhile p).head?, p c = false := by
  intro c first
  have := List.head?_dropWhile_not p cs
  rw [Option.mem_def.1 first] at this
  simpa using this

/-- A string that is read ends with the first quote that is not escaped. -/
theorem readString_ok {opening : Position} {cs done : List Char} {p : Position} {value : String}
    {left : Reader} (read : readString opening cs p done = (.ok value, left)) :
    ∃ body inside rest, cs = body ++ '"' :: rest ∧ Unescapes body inside ∧
      value = String.ofList (done.reverse ++ inside) ∧ left = past p (body ++ ['"']) rest := by
  fun_induction readString opening cs p done with
  | case1 | case3 | case5 => cases read
  | case2 rest p done =>
    cases read
    exact ⟨[], [], rest, rfl, .nil, by simp, rfl⟩
  | case4 e cs p done c escaped ih =>
    obtain ⟨body, inside, rest, rfl, stands, isValue, isLeft⟩ := ih read
    refine ⟨'\\' :: e :: body, c :: inside, rest, rfl, .escape escaped stands, ?_, isLeft⟩
    rw [isValue, List.reverse_cons, List.append_assoc, List.singleton_append]
  | case6 c cs p done quote lone escape ih =>
    obtain ⟨body, inside, rest, rfl, stands, isValue, isLeft⟩ := ih read
    refine ⟨c :: body, c :: inside, rest, rfl, .plain quote (ne_backslash lone escape) stands, ?_, isLeft⟩
    rw [isValue, List.reverse_cons, List.append_assoc, List.singleton_append]

/-- A quoted text is read as what it stands for. -/
theorem readString_of_unescapes {body value : List Char} (stands : Unescapes body value)
    (opening : Position) (rest : List Char) (p : Position) (done : List Char) :
    ∃ q, readString opening (body ++ '"' :: rest) p done =
      (.ok (String.ofList (done.reverse ++ value)), ⟨rest, q⟩) := by
  induction stands generalizing p done with
  | nil => exact ⟨p.after '"', by simp [readString]⟩
  | @plain c body value quote backslash _ ih =>
    obtain ⟨q, read⟩ := ih (p.after c) (c :: done)
    refine ⟨q, ?_⟩
    rw [List.cons_append, readString_plain quote backslash, read, List.reverse_cons, List.append_assoc,
      List.singleton_append]
  | @escape e c body value escaped _ ih =>
    obtain ⟨q, read⟩ := ih ((p.after '\\').after e) (c :: done)
    refine ⟨q, ?_⟩
    rw [List.cons_append, List.cons_append, readString, escaped]
    dsimp only
    rw [read, List.reverse_cons, List.append_assoc, List.singleton_append]

/-- A token stands at the front of a text: some characters are one of its written forms, those behind
them do not belong to it, and the reader that is left has passed it. -/
def Lexeme.Heads (l : Lexeme) (cs : List Char) (p : Position) (left : Reader) : Prop :=
  ∃ text rest, cs = text ++ rest ∧ l.WrittenAs text ∧ l.Ends rest ∧ left = past p text rest

section

variable {c : Char} {cs : List Char} {p : Position} {l : Lexeme} {left : Reader}

theorem heads_string (read : readLexeme ('"' :: cs) p = (.ok l, left)) :
    l.Heads ('"' :: cs) p left := by
  simp only [readLexeme, if_true] at read
  rcases inside : readString p cs (p.after '"') [] with ⟨failure | value, left'⟩
  · rw [inside] at read
    cases read
  · rw [inside] at read
    cases read
    obtain ⟨body, chars, rest, rfl, stands, isValue, isLeft⟩ := readString_ok inside
    refine ⟨'"' :: (body ++ ['"']), rest, by simp, ⟨body, rfl, ?_⟩, trivial, isLeft⟩
    rw [isValue, List.reverse_nil, List.nil_append, String.toList_ofList]
    exact stands

theorem heads_number (digit : c.isDigit = true) (read : readNumber (c :: cs) p = (.ok l, left)) :
    l.Heads (c :: cs) p left := by
  have number : isNumberChar c = true := by simp [isNumberChar, digit]
  unfold readNumber at read
  dsimp only at read
  split at read
  · cases read
  · next points =>
    cases read
    refine ⟨_, _, List.takeWhile_append_dropWhile.symm, ⟨?_, ?_⟩, head?_dropWhile _, rfl⟩
    · rw [Lexeme.Spelled, isNumber_iff]
      refine ⟨c, cs.takeWhile isNumberChar, ?_, digit, ?_, ?_⟩
      · rw [String.toList_ofList, List.takeWhile_cons_of_pos number]
      · rw [← List.takeWhile_cons_of_pos number]
        exact fun d member => List.mem_takeWhile_imp member
      · rw [← List.takeWhile_cons_of_pos number]
        exact Nat.not_le.1 points
    · rw [Lexeme.spelling, String.toList_ofList]

theorem heads_comment (read : readComment cs (p.after '#') = (.ok l, left)) :
    l.Heads ('#' :: cs) p left := by
  cases read
  refine ⟨'#' :: cs.takeWhile (· ≠ '\n'), cs.dropWhile (· ≠ '\n'), ?_, ⟨?_, ?_⟩, ?_, rfl⟩
  · rw [List.cons_append, List.takeWhile_append_dropWhile]
  · rw [Lexeme.Spelled, String.toList_ofList]
    intro member
    simpa using List.mem_takeWhile_imp member
  · rw [Lexeme.spelling, String.toList_ofList]
  · intro d first
    simpa using head?_dropWhile cs d first

theorem text_of_single? {mark : Punctuator} (single : Punctuator.single? c = some mark) :
    mark.text.toList = [c] := by
  unfold Punctuator.single? at single
  split at single <;> cases single <;> rfl

theorem text_of_pair? {d : Char} {mark : Punctuator} (pair : Punctuator.pair? c d = some mark) :
    mark.text.toList = [c, d] := by
  unfold Punctuator.pair? at pair
  split at pair <;> cases pair <;> rfl

theorem heads_punct {mark : Punctuator} {passed rest : List Char}
    (found : punctuator? (c :: cs) = some (mark, passed, rest)) :
    (Lexeme.punct mark).Heads (c :: cs) p (past p passed rest) := by
  -- the punctuators of two characters come first
  have single : ∀ {rest'}, (Punctuator.single? c).map (fun mark => (mark, [c], rest')) =
      some (mark, passed, rest) → passed = mark.text.toList ∧ passed = [c] ∧ rest = rest' := by
    intro rest' isSingle
    obtain ⟨mark', isMark, same⟩ := Option.map_eq_some_iff.1 isSingle
    cases same
    exact ⟨(text_of_single? isMark).symm, rfl, rfl⟩
  unfold punctuator? at found
  split at found
  · next d cs same =>
    cases same
    split at found
    · next pair =>
      cases found
      refine ⟨[c, d], _, rfl, ⟨trivial, (text_of_pair? pair).symm⟩, ?_, rfl⟩
      intro _ _ e isOne
      rw [text_of_pair? pair] at isOne
      cases isOne
    · next none =>
      obtain ⟨isText, rfl, rfl⟩ := single found
      refine ⟨[c], _, rfl, ⟨trivial, isText⟩, ?_, rfl⟩
      intro d' isFirst e isOne
      rw [← isText] at isOne
      cases isOne
      cases isFirst
      exact none
  · next same =>
    cases same
    obtain ⟨isText, rfl, rfl⟩ := single found
    exact ⟨[c], [], rfl, ⟨trivial, isText⟩, nofun, rfl⟩
  · cases found

theorem heads_name (letter : isNameChar c = true) (digit : c.isDigit = false)
    (read : readName (c :: cs) p = (.ok l, left)) : l.Heads (c :: cs) p left := by
  have parts : c :: cs = (c :: cs).takeWhile isNameChar ++ (c :: cs).dropWhile isNameChar :=
    List.takeWhile_append_dropWhile.symm
  unfold readName at read
  dsimp only at read
  split at read
  · next word found =>
    cases read
    have text : word.text = String.ofList ((c :: cs).takeWhile isNameChar) := by
      simpa using List.find?_some found
    refine ⟨_, _, parts, ⟨trivial, ?_⟩, head?_dropWhile _, rfl⟩
    rw [Lexeme.spelling, text, String.toList_ofList]
  · next free =>
    cases read
    refine ⟨_, _, parts, ⟨?_, ?_⟩, head?_dropWhile _, rfl⟩
    · rw [Lexeme.Spelled, isName_iff]
      refine ⟨c, cs.takeWhile isNameChar, ?_, digit, ?_, free⟩
      · rw [String.toList_ofList, List.takeWhile_cons_of_pos letter]
      · rw [← List.takeWhile_cons_of_pos letter]
        exact fun d member => List.mem_takeWhile_imp member
    · rw [Lexeme.spelling, String.toList_ofList]

/-- A token that is read stands at the front of the text. -/
theorem heads_of_readLexeme (read : readLexeme (c :: cs) p = (.ok l, left)) :
    l.Heads (c :: cs) p left := by
  by_cases quote : c = '"'
  · rw [quote] at read ⊢
    exact heads_string read
  rw [readLexeme, if_neg quote] at read
  split at read
  · next digit => exact heads_number digit read
  next digit =>
  split at read
  · next newline =>
    cases read
    rw [newline]
    exact ⟨['\n'], cs, rfl, ⟨trivial, rfl⟩, trivial, rfl⟩
  split at read
  · next hash =>
    rw [hash] at read ⊢
    exact heads_comment read
  split at read
  · next found =>
    cases read
    exact heads_punct found
  · split at read
    · next letter => exact heads_name letter (eq_false_of_ne_true digit) read
    · cases read

end

/-- A written form starts with a character that is no blank. -/
theorem Lexeme.WrittenAs.eq_cons {l : Lexeme} {text : List Char} (written : l.WrittenAs text) :
    ∃ c cs, text = c :: cs ∧ isBlank c = false := by
  cases l with
  | string value =>
    obtain ⟨body, rfl, -⟩ := written
    exact ⟨'"', _, rfl, rfl⟩
  | _ =>
    rw [written.2]
    exact spelling_eq_cons written.1

/-- A token that stands at the front of a text is read. -/
theorem readLexeme_of_writtenAs {l : Lexeme} {text rest : List Char} (written : l.WrittenAs text)
    (ends : l.Ends rest) (p : Position) :
    readLexeme (text ++ rest) p = (.ok l, past p text rest) := by
  have read : ∃ q, readLexeme (text ++ rest) p = (.ok l, ⟨rest, q⟩) := by
    cases l with
    | string value =>
      obtain ⟨body, rfl, stands⟩ := written
      obtain ⟨q, read⟩ := readString_of_unescapes stands p rest (p.after '"') []
      refine ⟨q, ?_⟩
      simp only [List.cons_append, List.append_assoc, List.nil_append, readLexeme, if_true, read,
        List.reverse_nil, String.ofList_toList]
      rfl
    | _ =>
      rw [written.2]
      exact readLexeme_spelling written.1 ends p
  obtain ⟨q, read⟩ := read
  -- what is left tells which characters were passed
  obtain ⟨c, cs, starts, -⟩ := written.eq_cons
  have heads : l.Heads (text ++ rest) p ⟨rest, q⟩ := by
    rw [starts, List.cons_append] at read ⊢
    exact heads_of_readLexeme read
  obtain ⟨text', rest', same, -, -, isLeft⟩ := heads
  cases isLeft
  rw [read, List.append_cancel_right same]
  rfl

/-! ## Tilings -/

/-- Behind the characters `before`, a text is divided into gaps of blanks and the written forms of
tokens.  Every token has the place where its form starts, and ends where it should. -/
inductive Tiles : List Char → List Char → List Token → Prop
  | ending {before gap : List Char} : (∀ c ∈ gap, isBlank c = true) → Tiles before gap []
  | token {before gap text rest : List Char} {t : Token} {ts : List Token} :
    (∀ c ∈ gap, isBlank c = true) → t.position.Exact (before ++ gap) → t.lexeme.WrittenAs text →
    t.lexeme.Ends rest → Tiles (before ++ gap ++ text) rest ts →
    Tiles before (gap ++ (text ++ rest)) (t :: ts)

/-- Blanks are passed. -/
theorem read_gap {gap : List Char} (blank : ∀ c ∈ gap, isBlank c = true) (rest : List Char)
    (p : Position) : Reader.read ⟨gap ++ rest, p⟩ = Reader.read ⟨rest, p.afterAll gap⟩ := by
  induction gap generalizing p with
  | nil => rfl
  | cons c gap ih =>
    obtain ⟨here, later⟩ := List.forall_mem_cons.1 blank
    rw [List.cons_append, read_blank here, ih later]
    rfl

/-- A token behind a gap is read. -/
theorem read_token {gap text rest : List Char} {l : Lexeme} (blank : ∀ c ∈ gap, isBlank c = true)
    (written : l.WrittenAs text) (ends : l.Ends rest) (p : Position) :
    Reader.read ⟨gap ++ (text ++ rest), p⟩ =
      (.ok ⟨l, p.afterAll gap⟩, past p (gap ++ text) rest) := by
  obtain ⟨c, cs, rfl, visible⟩ := written.eq_cons
  have read := readLexeme_of_writtenAs written ends (p.afterAll gap)
  rw [List.cons_append] at read
  rw [read_gap blank]
  simp only [Reader.read, skipBlanks, past, List.cons_append, List.takeWhile_cons,
    List.dropWhile_cons, visible, Bool.false_eq_true, if_false, Position.afterAll_nil, read,
    Position.afterAll_append]
  rfl

/-- What a reader answers is the end of input behind blanks, or a token that stands behind blanks. -/
theorem read_ok {cs : List Char} {p : Position} {t : Token} {left : Reader}
    (read : Reader.read ⟨cs, p⟩ = (.ok t, left)) :
    (t = ⟨.eof, p.afterAll cs⟩ ∧ ∀ c ∈ cs, isBlank c = true) ∨
      ∃ gap text rest, cs = gap ++ (text ++ rest) ∧ (∀ c ∈ gap, isBlank c = true) ∧
        t.position = p.afterAll gap ∧ t.lexeme.WrittenAs text ∧ t.lexeme.Ends rest ∧
          left = past p (gap ++ text) rest := by
  have blank : ∀ c ∈ cs.takeWhile isBlank, isBlank c = true := fun c => List.mem_takeWhile_imp
  have parts : cs = cs.takeWhile isBlank ++ cs.dropWhile isBlank :=
    List.takeWhile_append_dropWhile.symm
  simp only [Reader.read, skipBlanks, past, Prod.mk.injEq] at read
  obtain ⟨result, isLeft⟩ := read
  cases visible : cs.dropWhile isBlank with
  | nil =>
    rw [visible] at result parts
    rw [List.append_nil] at parts
    rw [← parts] at result blank
    cases result
    exact .inl ⟨rfl, blank⟩
  | cons c rest =>
    rw [visible] at result isLeft parts
    rcases run : readLexeme (c :: rest) (p.afterAll (cs.takeWhile isBlank)) with ⟨failure | l, left⟩
    · rw [run] at result
      cases result
    · rw [run] at result isLeft
      cases result
      obtain ⟨text, rest', same, written, ends, passed⟩ := heads_of_readLexeme run
      rw [same] at parts
      refine .inr ⟨_, text, rest', parts, blank, rfl, written, ends, ?_⟩
      rw [← isLeft, passed, past, past, Position.afterAll_append]

/-- The tokens of a tiling are read.  The induction follows the tiling. -/
theorem Tiles.tokens_eq {before cs : List Char} {ts : List Token} (tiles : Tiles before cs ts) :
    (Reader.mk cs (Position.start.afterAll before)).tokens =
      ⟨ts, .complete (Position.start.afterAll (before ++ cs))⟩ := by
  induction tiles with
  | @ending before gap blank =>
    have read := read_gap blank [] (Position.start.afterAll before)
    rw [List.append_nil] at read
    rw [tokens_congr read, tokens_of_rest_nil rfl, Position.afterAll_append]
  | @token before gap text rest t ts blank place written ends _ ih =>
    have read := read_token blank written ends (Position.start.afterAll before)
    have isPlace : t.position = (Position.start.afterAll before).afterAll gap := by
      rw [← Position.afterAll_append]
      exact Position.exact_iff.1 place
    rw [List.append_assoc, Position.afterAll_append] at ih
    rw [tokens_of_ok read written.ne_eof, past, ih, Tokens.cons, ← isPlace]
    simp only [List.append_assoc]

/-- A text that is read to its end is tiled by its tokens. -/
theorem tiles_of_tokens {r : Reader} {before : List Char} {ts : List Token} {last : Position}
    (here : r.position = Position.start.afterAll before) (read : r.tokens = ⟨ts, .complete last⟩) :
    Tiles before r.rest ts := by
  induction r using tokens_induction generalizing before ts with
  | fault r left failure fails =>
    rw [tokens_of_error fails] at read
    cases read
  | eof r left t answer ends =>
    rw [tokens_of_eof answer ends] at read
    cases read
    rcases read_ok answer with ⟨-, blank⟩ | ⟨_, _, _, _, _, _, written, _⟩
    · exact .ending blank
    · exact absurd ends written.ne_eof
  | token r left t answer more ih =>
    obtain ⟨cs, p⟩ := r
    obtain rfl : p = Position.start.afterAll before := here
    rw [tokens_of_ok answer more] at read
    rcases later : left.tokens with ⟨ts', ending⟩
    rw [later] at read
    cases read
    rcases read_ok answer with ⟨rfl, -⟩ | ⟨gap, text, rest, rfl, blank, place, written, ends, rfl⟩
    · exact absurd rfl more
    · rw [← Position.afterAll_append] at place
      have passed : (Position.start.afterAll before).afterAll (gap ++ text) =
          Position.start.afterAll (before ++ gap ++ text) := by
        rw [← Position.afterAll_append, List.append_assoc]
      exact .token blank (Position.exact_iff.2 place) written ends (ih passed later)

/-- The tokens of a text are those of its tiling: a text is read to its end exactly when it can be
divided into gaps and tokens, and the end of input stands behind its last character. -/
theorem Tokens.ofText_eq_complete_iff {s : String} {ts : List Token} {last : Position} :
    Tokens.ofText s = ⟨ts, .complete last⟩ ↔ Tiles [] s.toList ts ∧ last.Exact s.toList := by
  have whole : ∀ {ts}, Tiles [] s.toList ts →
      Tokens.ofText s = ⟨ts, .complete (Position.start.afterAll s.toList)⟩ := Tiles.tokens_eq
  constructor
  · intro read
    have tiles : Tiles [] s.toList ts := tiles_of_tokens (r := Reader.ofText s) rfl read
    cases read.symm.trans (whole tiles)
    exact ⟨tiles, Position.exact_afterAll _⟩
  · rintro ⟨tiles, place⟩
    rw [Position.exact_iff.1 place]
    exact whole tiles

example : Tokens.ofText "\"a\nb\" c" =
    ⟨[⟨.string "a\nb", ⟨1, 1, 0⟩⟩, ⟨.ident "c", ⟨2, 4, 6⟩⟩], .complete ⟨2, 5, 7⟩⟩ := by
  rfl

/-! ## Tokens that are read back -/

namespace Lexeme

/-- What is written between a token and those behind it. -/
def divider (l : Lexeme) (ls : List Lexeme) : List Char :=
  if l.isComment || ls.isEmpty then [] else [' ']

theorem join_cons (l : Lexeme) (ls : List Lexeme) :
    join (l :: ls) = l.spelling ++ (divider l ls ++ join ls) := rfl

/-- Nothing but a newline is written with a newline first. -/
theorem eq_newline_of_spelling {l : Lexeme} {cs : List Char} (spelled : l.Spelled)
    (starts : l.spelling = '\n' :: cs) : l = .newline := by
  have ends : l.Ends [] := by
    cases l with
    | string | newline | eof => trivial
    | _ => exact nofun
  obtain ⟨q, read⟩ := readLexeme_spelling spelled ends .start
  have isNewline : readLexeme ('\n' :: cs ++ []) .start =
      (.ok .newline, ⟨cs ++ [], Position.start.after '\n'⟩) := rfl
  rw [starts, isNewline] at read
  exact (Except.ok.inj (Prod.mk.inj read).1).symm

/-- A token that is read from what is written for it is one that can be written, and ends where it
should. -/
theorem ends_of_read {l : Lexeme} {ls : List Lexeme} {p : Position} {t : Token} {left : Reader}
    (read : Reader.read ⟨join (l :: ls), p⟩ = (.ok t, left)) (same : t.lexeme = l)
    (other : l ≠ .eof) : l.Spelled ∧ l.Ends (divider l ls ++ join ls) := by
  rcases read_ok read with ⟨rfl, -⟩ | ⟨gap, text, rest, parts, blank, -, written, ends, -⟩
  · exact absurd same.symm other
  rw [same] at written ends
  refine ⟨written.spelled, ?_⟩
  cases l with
  | comment line =>
    -- the comment was read up to the end of its line, which is where the next token is written
    obtain ⟨-, rfl⟩ := written
    cases gap with
    | nil =>
      rw [join_cons] at parts
      rw [List.append_cancel_left parts]
      exact ends
    | cons c gap =>
      have hash : '#' = c := (List.cons.inj parts).1
      have isBlank := blank c List.mem_cons_self
      rw [← hash] at isBlank
      cases isBlank
  | _ =>
    refine ends_of_blank rfl ?_
    cases ls with
    | nil => exact nofun
    | cons l' ls =>
      rintro c ⟨⟩
      rfl

/-- What divides two tokens is passed. -/
theorem exists_spells_of_divider {l : Lexeme} {ls : List Lexeme} {p : Position}
    (spells : (Reader.mk (divider l ls ++ join ls) p).tokens.Spells ls) :
    ∃ p', (Reader.mk (join ls) p').tokens.Spells ls := by
  unfold divider at spells
  split at spells
  · exact ⟨p, spells⟩
  · rw [List.singleton_append, tokens_blank] at spells
    exact ⟨_, spells⟩

/-- Tokens that are read back from what is written for them can be written so.  The induction is on
the tokens; the place is that of the text that is left. -/
theorem joinable_of_spells {ls : List Lexeme} {p : Position}
    (spells : (Reader.mk (join ls) p).tokens.Spells ls) : Joinable ls := by
  induction ls generalizing p with
  | nil => trivial
  | cons l ls ih =>
    rcases run : Reader.read ⟨join (l :: ls), p⟩ with ⟨failure | t, left⟩
    · rw [tokens_of_error run] at spells
      cases spells.lexemes
    by_cases ended : t.lexeme = .eof
    · rw [tokens_of_eof run ended] at spells
      cases spells.lexemes
    rw [tokens_of_ok run ended] at spells
    obtain ⟨same, later⟩ := List.cons.inj spells.lexemes
    obtain ⟨spelled, ends⟩ := ends_of_read run same (same ▸ ended)
    obtain ⟨q, whole⟩ := read_spelling spelled ends p
    rw [← join_cons, run] at whole
    cases whole
    obtain ⟨p', spells'⟩ := exists_spells_of_divider ⟨later, spells.complete⟩
    have joinable : Joinable ls := ih spells'
    refine ⟨spelled, fun comment => ?_, joinable⟩
    cases l with
    | comment line =>
      cases ls with
      | nil => exact .inl rfl
      | cons l' ls =>
        obtain ⟨c', more', starts', -⟩ := spelling_eq_cons joinable.1
        have newline : c' = '\n' := ends c' (by rw [join_cons, starts']; rfl)
        rw [newline] at starts'
        exact .inr (eq_newline_of_spelling joinable.1 starts')
    | _ => cases comment

/-- Tokens written one after another, divided by single blanks, are read back exactly when they can be
written: names are no reserved words, numbers have one point at most, and nothing but a newline stands
behind a comment. -/
theorem spells_join_iff {ls : List Lexeme} :
    (Tokens.ofText (String.ofList (join ls))).Spells ls ↔ Joinable ls := by
  have text : (String.ofList (join ls)).toList = join ls := String.toList_ofList
  constructor
  · intro spells
    unfold Tokens.ofText Reader.ofText at spells
    rw [text] at spells
    exact joinable_of_spells spells
  · intro joinable
    apply Written.spells
    rw [text]
    exact joinable.written

end Lexeme

end Shiba

import Shiba.Token.Progress

/-!
# Tokens read back

Every token has a spelling, and a text made of spellings is read as the tokens it was made of, as long
as no spelling runs on into what follows it.

* `Lexeme.spelling` is how a token is written, and `Lexeme.Spelled` says of which tokens that makes
  sense: a name is no reserved word, a comment has no newline, and the end of input is not written.
* `Lexeme.Ends` says that a spelling ends where it should: the text behind it does not belong to the
  token as well.
* `Written` is a text made of spellings and blanks; `Written.spells` is the statement about it.
* `Lexeme.join` writes tokens divided by single blanks, with no blank behind a comment, and so never
  lets two of them run together (`Joinable.written`).
-/

namespace Shiba

open Reader

/-! ## Spellings -/

/-- A text that is read as a name. -/
def isName (s : String) : Bool :=
  match s.toList with
  | [] => false
  | c :: cs => !c.isDigit && (c :: cs).all isNameChar && (Keyword.ofText? s).isNone

/-- A text that is read as a number. -/
def isNumber (s : String) : Bool :=
  match s.toList with
  | [] => false
  | c :: cs => c.isDigit && (c :: cs).all isNumberChar && (c :: cs).count '.' < 2

namespace Lexeme

/-- How a token is written. -/
def spelling : Lexeme → List Char
  | .ident name => name.toList
  | .string value => Text.quoteChars value.toList
  | .number text => text.toList
  | .keyword word => word.text.toList
  | .punct mark => mark.text.toList
  | .comment text => '#' :: text.toList
  | .newline => ['\n']
  | .eof => []

/-- The tokens that can be written. -/
def Spelled : Lexeme → Prop
  | .ident name => isName name = true
  | .number text => isNumber text = true
  | .comment text => '\n' ∉ text.toList
  | .eof => False
  | _ => True

/-- A text that follows a token does not belong to it. -/
def Ends : Lexeme → List Char → Prop
  | .ident _, rest | .keyword _, rest => ∀ c ∈ rest.head?, isNameChar c = false
  | .number _, rest => ∀ c ∈ rest.head?, isNumberChar c = false
  | .comment _, rest => ∀ c ∈ rest.head?, c = '\n'
  | .punct mark, rest =>
    ∀ d ∈ rest.head?, ∀ c, mark.text.toList = [c] → Punctuator.pair? c d = none
  | _, _ => True

end Lexeme

/-! ## Runs of characters -/

/-- A run of characters of a class ends where the next character is not of that class. -/
theorem takeWhile_append_stop {p : Char → Bool} {cs rest : List Char} (all : ∀ c ∈ cs, p c = true)
    (stop : ∀ c ∈ rest.head?, p c = false) :
    (cs ++ rest).takeWhile p = cs ∧ (cs ++ rest).dropWhile p = rest := by
  rw [List.takeWhile_append_of_pos all, List.dropWhile_append_of_pos all]
  cases rest with
  | nil => simp
  | cons c rest => simp [stop c rfl]

/-- A character that starts neither a string, a number, a line nor a comment. -/
def startsWord (c : Char) : Bool :=
  !(c = '"' || c.isDigit || c = '\n' || c = '#' || isBlank c)

theorem readLexeme_word {c : Char} (starts : startsWord c = true) (cs : List Char) (p : Position) :
    readLexeme (c :: cs) p = match punctuator? (c :: cs) with
      | some (mark, passed, rest) => (.ok (.punct mark), past p passed rest)
      | none =>
        if isNameChar c then readName (c :: cs) p
        else (.error (fault (.invalidToken c) p), ⟨c :: cs, p⟩) := by
  simp only [startsWord, Bool.not_eq_true', Bool.or_eq_false_iff, decide_eq_false_iff_not] at starts
  rcases starts with ⟨⟨⟨⟨quote, digit⟩, line⟩, hash⟩, -⟩
  exact (if_neg quote).trans <| (if_neg (ne_true_of_eq_false digit)).trans <|
    (if_neg line).trans (if_neg hash)

/-! ## One token -/

theorem single?_of_isNameChar {c : Char} (letter : isNameChar c = true) :
    Punctuator.single? c = none := by
  unfold Punctuator.single?
  split <;> first | rfl | exact absurd letter (by decide)

theorem pair?_of_isNameChar {c : Char} (letter : isNameChar c = true) (d : Char) :
    Punctuator.pair? c d = none := by
  unfold Punctuator.pair?
  split <;> first | rfl | exact absurd letter (by decide)

theorem punctuator?_of_isNameChar {c : Char} (letter : isNameChar c = true) (cs : List Char) :
    punctuator? (c :: cs) = none := by
  cases cs with
  | nil => simp [punctuator?, single?_of_isNameChar letter]
  | cons d cs => simp [punctuator?, single?_of_isNameChar letter, pair?_of_isNameChar letter]

theorem startsWord_of_isNameChar {c : Char} (letter : isNameChar c = true)
    (digit : c.isDigit = false) : startsWord c = true := by
  have other : ∀ d, isNameChar d = false → c ≠ d := by
    rintro d isOther rfl
    rw [letter] at isOther
    cases isOther
  simp [startsWord, isBlank, digit, other '"' rfl, other '\n' rfl, other '#' rfl, other ' ' rfl,
    other '\t' rfl, other '\r' rfl]

/-- A word made of the characters of names is read up to its end. -/
theorem readLexeme_name {c : Char} {cs rest : List Char} (digit : c.isDigit = false)
    (letters : ∀ d ∈ c :: cs, isNameChar d = true) (stop : ∀ d ∈ rest.head?, isNameChar d = false)
    (p : Position) :
    readLexeme (c :: cs ++ rest) p =
      (.ok (match Keyword.ofText? (String.ofList (c :: cs)) with
        | some word => .keyword word
        | none => .ident (String.ofList (c :: cs))), past p (c :: cs) rest) := by
  have letter := letters c List.mem_cons_self
  obtain ⟨taken, left⟩ := takeWhile_append_stop letters stop
  rw [List.cons_append] at taken left ⊢
  rw [readLexeme_word (startsWord_of_isNameChar letter digit), punctuator?_of_isNameChar letter]
  refine (if_pos letter).trans ?_
  change (Except.ok (match Keyword.ofText? (String.ofList (List.takeWhile isNameChar _)) with
    | some word => Lexeme.keyword word
    | none => .ident (String.ofList (List.takeWhile isNameChar _))),
    past p (List.takeWhile isNameChar _) (List.dropWhile isNameChar _)) = _
  rw [taken, left]

/-- A number is read up to its end. -/
theorem readLexeme_number {c : Char} {cs rest : List Char} (digit : c.isDigit = true)
    (digits : ∀ d ∈ c :: cs, isNumberChar d = true) (points : (c :: cs).count '.' < 2)
    (stop : ∀ d ∈ rest.head?, isNumberChar d = false) (p : Position) :
    readLexeme (c :: cs ++ rest) p =
      (.ok (.number (String.ofList (c :: cs))), past p (c :: cs) rest) := by
  have quote : c ≠ '"' := by
    rintro rfl
    cases digit
  obtain ⟨taken, left⟩ := takeWhile_append_stop digits stop
  rw [List.cons_append] at taken left ⊢
  simp only [readLexeme, quote, if_false, digit, if_true, readNumber, taken, left,
    Nat.not_le.2 points]

/-- A quoted text is read up to its closing quote.  The induction is on the text, of which `done` has
been read. -/
theorem readString_quoted (opening : Position) (rest : List Char) :
    ∀ (cs : List Char) (p : Position) (done : List Char), ∃ q,
      readString opening (cs.flatMap Text.quoteChar ++ '"' :: rest) p done =
        (.ok (String.ofList (done.reverse ++ cs)), ⟨rest, q⟩)
  | [], p, done => ⟨p.after '"', by simp [readString]⟩
  | c :: cs, p, done => by
    have inside := fun q => readString_quoted opening rest cs q (c :: done)
    simp only [List.reverse_cons, List.append_assoc, List.singleton_append] at inside
    rw [List.flatMap_cons, List.append_assoc]
    generalize cs.flatMap Text.quoteChar ++ '"' :: rest = left at inside ⊢
    unfold Text.quoteChar
    split
    · simpa [readString, escape?] using inside _
    · simpa [readString, escape?] using inside _
    · simpa [readString, escape?] using inside _
    · simpa [readString, escape?] using inside _
    · next backslash quote _ _ =>
      rw [List.singleton_append, readString]
      · exact inside _
      · exact quote
      · exact fun isBackslash _ => backslash isBackslash
      · exact fun _ _ isBackslash _ => backslash isBackslash

theorem spelling_punct (mark : Punctuator) :
    (∃ c, mark.text.toList = [c] ∧ Punctuator.single? c = some mark ∧ startsWord c = true) ∨
      ∃ c d, mark.text.toList = [c, d] ∧ Punctuator.pair? c d = some mark ∧ startsWord c = true := by
  cases mark <;> first
    | exact .inl ⟨_, rfl, rfl, by decide⟩
    | exact .inr ⟨_, _, rfl, rfl, by decide⟩

theorem readLexeme_punct {mark : Punctuator} {rest : List Char} (ends : (Lexeme.punct mark).Ends rest)
    (p : Position) : ∃ q, readLexeme (mark.text.toList ++ rest) p = (.ok (.punct mark), ⟨rest, q⟩) := by
  rcases spelling_punct mark with ⟨c, spelled, single, starts⟩ | ⟨c, d, spelled, pair, starts⟩
  · rw [spelled, List.singleton_append, readLexeme_word starts]
    cases rest with
    | nil => exact ⟨_, by simp only [punctuator?, single, Option.map_some]; rfl⟩
    | cons d rest =>
      have none := ends d rfl c spelled
      exact ⟨_, by simp only [punctuator?, none, single, Option.map_some]; rfl⟩
  · rw [spelled, List.cons_append, List.singleton_append, readLexeme_word starts]
    exact ⟨_, by simp only [punctuator?, pair]; rfl⟩

theorem keyword_letters (word : Keyword) : ∃ c cs, word.text.toList = c :: cs ∧ c.isDigit = false ∧
    (∀ d ∈ c :: cs, isNameChar d = true) ∧ Keyword.ofText? word.text = some word := by
  cases word <;> exact ⟨_, _, rfl, by decide, List.all_eq_true.1 (by decide), by decide⟩

theorem isName_iff {name : String} : isName name = true ↔ ∃ c cs, name.toList = c :: cs ∧
    c.isDigit = false ∧ (∀ d ∈ c :: cs, isNameChar d = true) ∧ Keyword.ofText? name = none := by
  unfold isName
  cases name.toList with
  | nil => simp
  | cons c cs => simp [and_assoc]

theorem isNumber_iff {text : String} : isNumber text = true ↔ ∃ c cs, text.toList = c :: cs ∧
    c.isDigit = true ∧ (∀ d ∈ c :: cs, isNumberChar d = true) ∧ (c :: cs).count '.' < 2 := by
  unfold isNumber
  cases text.toList with
  | nil => simp
  | cons c cs => simp [and_assoc]

/-- A spelling that ends where it should is read as its token. -/
theorem readLexeme_spelling {l : Lexeme} {rest : List Char} (spelled : l.Spelled) (ends : l.Ends rest)
    (p : Position) : ∃ q, readLexeme (l.spelling ++ rest) p = (.ok l, ⟨rest, q⟩) := by
  cases l with
  | ident name =>
    obtain ⟨c, cs, letters, digit, all, free⟩ := isName_iff.1 spelled
    have text : String.ofList (c :: cs) = name := by rw [← letters, String.ofList_toList]
    rw [Lexeme.spelling, letters, readLexeme_name digit all ends, text, free]
    exact ⟨_, rfl⟩
  | keyword word =>
    obtain ⟨c, cs, letters, digit, all, found⟩ := keyword_letters word
    have text : String.ofList (c :: cs) = word.text := by rw [← letters, String.ofList_toList]
    rw [Lexeme.spelling, letters, readLexeme_name digit all ends, text, found]
    exact ⟨_, rfl⟩
  | number text =>
    obtain ⟨c, cs, digits, digit, all, points⟩ := isNumber_iff.1 spelled
    rw [Lexeme.spelling, digits, readLexeme_number digit all points ends, ← digits,
      String.ofList_toList]
    exact ⟨_, rfl⟩
  | string value =>
    obtain ⟨q, read⟩ := readString_quoted p rest value.toList (p.after '"') []
    refine ⟨q, ?_⟩
    simp only [Lexeme.spelling, Text.quoteChars, List.cons_append, List.append_assoc,
      List.nil_append, readLexeme, if_true, read, List.reverse_nil, String.ofList_toList]
    rfl
  | punct mark => exact readLexeme_punct ends p
  | comment text =>
    have line : ∀ c ∈ text.toList, decide (c ≠ '\n') = true := by
      intro c member
      rw [decide_eq_true_iff]
      rintro rfl
      exact spelled member
    have stop : ∀ c ∈ rest.head?, decide (c ≠ '\n') = false := by
      intro c first
      simp [ends c first]
    obtain ⟨taken, left⟩ := takeWhile_append_stop line stop
    refine ⟨(p.after '#').afterAll text.toList, ?_⟩
    have hash : ('#' : Char).isDigit = false := rfl
    simp only [Lexeme.spelling, List.cons_append, readLexeme, hash, readComment, taken, left,
      String.ofList_toList]
    rfl
  | newline => exact ⟨p.after '\n', rfl⟩
  | eof => exact spelled.elim

/-- A spelling starts with a character that is no blank. -/
theorem spelling_eq_cons {l : Lexeme} (spelled : l.Spelled) :
    ∃ c cs, l.spelling = c :: cs ∧ isBlank c = false := by
  have letter : ∀ {c}, isNameChar c = true → c.isDigit = false → isBlank c = false := by
    intro c isLetter digit
    have starts := startsWord_of_isNameChar isLetter digit
    simp only [startsWord, Bool.not_eq_true', Bool.or_eq_false_iff] at starts
    exact starts.2
  cases l with
  | ident name =>
    obtain ⟨c, cs, letters, digit, all, -⟩ := isName_iff.1 spelled
    exact ⟨c, cs, letters, letter (all c List.mem_cons_self) digit⟩
  | keyword word =>
    obtain ⟨c, cs, letters, digit, all, -⟩ := keyword_letters word
    exact ⟨c, cs, letters, letter (all c List.mem_cons_self) digit⟩
  | number text =>
    obtain ⟨c, cs, digits, digit, -⟩ := isNumber_iff.1 spelled
    refine ⟨c, cs, digits, ?_⟩
    simp only [isBlank, Bool.or_eq_false_iff, decide_eq_false_iff_not]
    refine ⟨⟨?_, ?_⟩, ?_⟩ <;>
    · rintro rfl
      cases digit
  | string value => exact ⟨_, _, rfl, rfl⟩
  | punct mark =>
    rcases spelling_punct mark with ⟨c, text, -, starts⟩ | ⟨c, d, text, -, starts⟩ <;>
    · simp only [startsWord, Bool.not_eq_true', Bool.or_eq_false_iff] at starts
      exact ⟨c, _, text, starts.2⟩
  | comment text => exact ⟨_, _, rfl, rfl⟩
  | newline => exact ⟨_, _, rfl, rfl⟩
  | eof => exact spelled.elim

/-! ## Texts -/

/-- A text made of blanks and of the spellings of some tokens, each of which ends where it should. -/
inductive Written : List Char → List Lexeme → Prop
  | nil : Written [] []
  | blank {c : Char} {cs : List Char} {ls : List Lexeme} :
    isBlank c = true → Written cs ls → Written (c :: cs) ls
  | token {l : Lexeme} {cs : List Char} {ls : List Lexeme} :
    l.Spelled → l.Ends cs → Written cs ls → Written (l.spelling ++ cs) (l :: ls)

/-- A sequence spells some tokens when these are its tokens, up to their places, and nothing is wrong
behind them. -/
structure Tokens.Spells (ts : Tokens) (ls : List Lexeme) : Prop where
  lexemes : ts.list.map (·.lexeme) = ls
  complete : ∃ p, ts.ending = .complete p

theorem read_blank {c : Char} (blank : isBlank c = true) (cs : List Char) (p : Position) :
    Reader.read ⟨c :: cs, p⟩ = Reader.read ⟨cs, p.after c⟩ := by
  simp only [Reader.read, skipBlanks, past, List.takeWhile_cons_of_pos blank,
    List.dropWhile_cons_of_pos blank, Position.afterAll_cons]

theorem read_spelling {l : Lexeme} {rest : List Char} (spelled : l.Spelled) (ends : l.Ends rest)
    (p : Position) : ∃ q, Reader.read ⟨l.spelling ++ rest, p⟩ = (.ok ⟨l, p⟩, ⟨rest, q⟩) := by
  obtain ⟨c, cs, starts, blank⟩ := spelling_eq_cons spelled
  obtain ⟨q, read⟩ := readLexeme_spelling spelled ends p
  refine ⟨q, ?_⟩
  rw [starts, List.cons_append] at read ⊢
  simp only [Reader.read, skipBlanks, past, List.takeWhile_cons, List.dropWhile_cons, blank,
    Bool.false_eq_true, if_false, Position.afterAll_nil, read]
  rfl

theorem scan_blank {c : Char} (blank : isBlank c = true) {cs : List Char} {fuel : Nat}
    (enough : cs.length < fuel) (p : Position) :
    Tokens.scan (fuel + 1) ⟨c :: cs, p⟩ = Tokens.scan fuel ⟨cs, p.after c⟩ := by
  have more : Tokens.scan fuel ⟨cs, p.after c⟩ = Tokens.scan (fuel + 1) ⟨cs, p.after c⟩ :=
    Tokens.scan_eq_scan enough (Nat.lt_succ_of_lt enough)
  rw [more]
  simp only [Tokens.scan, read_blank blank]

/-- A written text is read as the tokens it is made of. -/
theorem Written.scan_spells {cs : List Char} {ls : List Lexeme} (written : Written cs ls) {fuel : Nat}
    (enough : cs.length < fuel) (p : Position) : (Tokens.scan fuel ⟨cs, p⟩).Spells ls := by
  induction written generalizing fuel p with
  | nil =>
    cases fuel with
    | zero => exact ⟨rfl, p, rfl⟩
    | succ fuel => exact ⟨rfl, p, rfl⟩
  | blank blank _ ih =>
    cases fuel with
    | zero => cases enough
    | succ fuel =>
      have enough' := Nat.lt_of_succ_lt_succ enough
      rw [scan_blank blank enough']
      exact ih enough' _
  | @token l cs ls spelled ends _ ih =>
    cases fuel with
    | zero => cases enough
    | succ fuel =>
      obtain ⟨q, read⟩ := read_spelling spelled ends p
      obtain ⟨c, more, starts, -⟩ := spelling_eq_cons spelled
      have enough' : cs.length < fuel := by
        rw [starts, List.cons_append, List.length_cons, List.length_append] at enough
        omega
      have ended : l ≠ .eof := by
        rintro rfl
        exact spelled
      have rest := ih enough' q
      rw [Tokens.scan, read]
      simp only [if_neg ended]
      exact ⟨congrArg (l :: ·) rest.lexemes, rest.complete⟩

theorem Written.spells {s : String} {ls : List Lexeme} (written : Written s.toList ls) :
    (Tokens.ofText s).Spells ls :=
  written.scan_spells (Nat.lt_succ_self _) .start

/-! ## Tokens divided by blanks -/

namespace Lexeme

/-- Whether a token is a comment, which goes on to the end of its line. -/
def isComment : Lexeme → Bool
  | .comment _ => true
  | _ => false

/-- The first of some tokens, which is the end of input when there is none. -/
def first : List Lexeme → Lexeme
  | [] => .eof
  | l :: _ => l

/-- Tokens divided by single blanks, with no blank behind a comment. -/
def join : List Lexeme → List Char
  | [] => []
  | l :: ls => l.spelling ++ ((if l.isComment || ls.isEmpty then [] else [' ']) ++ join ls)

/-- Tokens that can be written one after another: nothing but a newline stands behind a comment. -/
def Joinable : List Lexeme → Prop
  | [] => True
  | l :: ls => l.Spelled ∧ (l.isComment = true → ls = [] ∨ first ls = .newline) ∧ Joinable ls

/-- A token that can be written and lets others follow on its line. -/
def Plain (l : Lexeme) : Prop := l.Spelled ∧ l.isComment = false

theorem Joinable.cons {l : Lexeme} {ls : List Lexeme} (joinable : Joinable ls) (plain : l.Plain) :
    Joinable (l :: ls) := by
  refine ⟨plain.1, fun comment => ?_, joinable⟩
  rw [plain.2] at comment
  cases comment

/-- Tokens that can be put in front of others. -/
def Joins (ls : List Lexeme) : Prop := ∀ rest, Joinable rest → Joinable (ls ++ rest)

theorem joins_nil : Joins [] := fun _ joinable => joinable

theorem Joins.cons {l : Lexeme} {ls : List Lexeme} (joins : Joins ls) (plain : l.Plain) :
    Joins (l :: ls) :=
  fun rest joinable => (joins rest joinable).cons plain

theorem Joins.append {ls ls' : List Lexeme} (joins : Joins ls) (joins' : Joins ls') :
    Joins (ls ++ ls') := by
  intro rest joinable
  rw [List.append_assoc]
  exact joins _ (joins' rest joinable)

theorem joins_of_plain {ls : List Lexeme} (plain : ∀ l ∈ ls, l.Plain) : Joins ls := by
  induction ls with
  | nil => exact joins_nil
  | cons l ls ih =>
    have ⟨here, later⟩ := List.forall_mem_cons.1 plain
    exact (ih later).cons here

theorem ends_of_blank {l : Lexeme} (plain : l.isComment = false) {rest : List Char}
    (blank : ∀ c ∈ rest.head?, c = ' ') : l.Ends rest := by
  cases l with
  | ident | keyword | number =>
    intro c first
    rw [blank c first]
    rfl
  | punct mark =>
    intro d first c _
    rw [blank d first]
    unfold Punctuator.pair?
    split <;> first | rfl | simp_all
  | comment => cases plain
  | string | newline | eof => trivial

/-- Tokens divided by blanks do not run together. -/
theorem Joinable.written {ls : List Lexeme} (joinable : Joinable ls) : Written (join ls) ls := by
  induction ls with
  | nil => exact .nil
  | cons l ls ih =>
    obtain ⟨spelled, follows, later⟩ := joinable
    have rest := ih later
    rw [join]
    cases comment : l.isComment with
    | true =>
      rw [Bool.true_or, if_pos rfl, List.nil_append]
      refine .token spelled ?_ rest
      cases l with
      | comment text =>
        rcases follows rfl with rfl | line
        · exact nofun
        · cases ls with
          | nil => cases line
          | cons l' ls =>
            cases line
            rintro c ⟨⟩
            rfl
      | _ => cases comment
    | false =>
      rw [Bool.false_or]
      cases ls with
      | nil => exact .token spelled (ends_of_blank comment nofun) .nil
      | cons l' ls =>
        refine .token spelled (ends_of_blank comment ?_) (.blank rfl rest)
        rintro c ⟨⟩
        rfl

theorem Joins.spells {ls : List Lexeme} (joins : Joins ls) :
    (Tokens.ofText (String.ofList (join ls))).Spells ls := by
  have joinable := joins [] trivial
  rw [List.append_nil] at joinable
  apply Written.spells
  rw [String.toList_ofList]
  exact joinable.written

end Lexeme

end Shiba

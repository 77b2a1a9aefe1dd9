import Mathlib.Data.List.TakeWhile
import Shiba.Proofs.RoundTrip.Token

/-!
# The tokens of a longer text

What becomes of the tokens of a text when more text is put behind it.  A text that starts with a blank
or a newline does not run on into the token before it, with two exceptions: a comment goes on up to the
end of its line, and an open string up to its closing quote.

* `Reader.tokens_append`: the tokens of the longer text are those of the text and then those of what
  follows, unless a comment goes on.
* `Reader.tokens_append_failed`: a lexical fault other than an open string stays.
* `Reader.tokens_append_list`: in any case the tokens are there, only the last comment may have grown.
* `Reader.spells_place`: where a text starts makes no difference to what its tokens say.
-/

namespace Shiba

open Reader

/-- A text that does not run on into a word, a number or a punctuator before it. -/
def Parted (rest : List Char) : Prop := ∀ c ∈ rest.head?, isBlank c = true ∨ c = '\n'

/-- A run of characters of a class ends inside a text, or does not go on into what follows it. -/
theorem takeWhile_append_parted {p : Char → Bool} (cs : List Char) {rest : List Char}
    (stop : cs.dropWhile p = [] → ∀ c ∈ rest.head?, p c = false) :
    (cs ++ rest).takeWhile p = cs.takeWhile p ∧ (cs ++ rest).dropWhile p = cs.dropWhile p ++ rest := by
  induction cs with
  | nil =>
    cases rest with
    | nil => simp
    | cons c rest => simp [stop rfl c rfl]
  | cons c cs ih =>
    cases inside : p c with
    | true =>
      simp only [List.dropWhile_cons, inside, if_true] at stop
      simp [inside, ih stop]
    | false => simp [inside]

theorem isBlank_iff {c : Char} : isBlank c = true ↔ c = ' ' ∨ c = '\t' ∨ c = '\r' := by
  simp [isBlank, or_assoc]

/-- A text that no word, number or punctuator of the text before it runs on into: one that starts with a
blank or a newline, or stands behind a blank. -/
def Reader.Apart (cs rest : List Char) : Prop := Parted rest ∨ ∃ c ∈ cs.getLast?, isBlank c = true

namespace Reader.Apart

variable {cs rest : List Char}

/-- A run of characters that are no blanks does not go on. -/
theorem stop {p : Char → Bool} (apart : Apart cs rest)
    (other : ∀ c, isBlank c = true ∨ c = '\n' → p c = false) (whole : cs.dropWhile p = []) :
    ∀ c ∈ rest.head?, p c = false := by
  rcases apart with parted | ⟨d, last, blank⟩
  · exact fun c first => other c (parted c first)
  · have inside := List.dropWhile_eq_nil_iff.1 whole d (List.mem_of_mem_getLast? last)
    rw [other d (.inl blank)] at inside
    cases inside

theorem isNameChar_eq_false {c : Char} (parting : isBlank c = true ∨ c = '\n') :
    isNameChar c = false := by
  rcases parting with blank | rfl
  · rcases isBlank_iff.1 blank with rfl | rfl | rfl <;> rfl
  · rfl

theorem isNumberChar_eq_false {c : Char} (parting : isBlank c = true ∨ c = '\n') :
    isNumberChar c = false := by
  rcases parting with blank | rfl
  · rcases isBlank_iff.1 blank with rfl | rfl | rfl <;> rfl
  · rfl

/-- No two characters of which one is a blank or a newline make a punctuator. -/
theorem pair?_eq_none {c d : Char} (apart : Apart [c] (d :: rest)) : Punctuator.pair? c d = none := by
  have other : (c = ' ' ∨ c = '\t' ∨ c = '\r') ∨ d = ' ' ∨ d = '\t' ∨ d = '\r' ∨ d = '\n' := by
    rcases apart with parted | ⟨_, ⟨⟩, blank⟩
    · refine .inr ?_
      rcases parted d rfl with blank | rfl
      · rcases isBlank_iff.1 blank with rfl | rfl | rfl <;> decide
      · decide
    · exact .inl (isBlank_iff.1 blank)
  unfold Punctuator.pair?
  split <;> first | rfl | simp at other

/-- What has been read of a text does not matter, as long as something is left. -/
theorem of_suffix {left : List Char} (apart : Apart cs rest) (suffix : left <:+ cs) (more : left ≠ []) :
    Apart left rest := by
  obtain ⟨front, rfl⟩ := suffix
  have same : (front ++ left).getLast? = left.getLast? := by
    rw [List.getLast?_append, List.getLast?_eq_some_getLast more]
    rfl
  rw [Apart, same] at apart
  exact apart

end Reader.Apart

namespace Reader

/-- A reader of a longer text at the same place. -/
def append (r : Reader) (rest : List Char) : Reader := ⟨r.rest ++ rest, r.position⟩

variable {rest : List Char} {opening p : Position} {cs done : List Char} {left : Reader}

/-- A character that comes neither last nor before another one, were it a backslash, is none. -/
theorem ne_backslash {c : Char} (lone : c = '\\' → cs = [] → False)
    (escape : ∀ e rest, c = '\\' → cs = e :: rest → False) : c ≠ '\\' := by
  intro same
  cases cs with
  | nil => exact lone same rfl
  | cons e cs => exact escape e cs same rfl

/-- Any other character of a string stands for itself. -/
theorem readString_plain {c : Char} (quote : c ≠ '"') (backslash : c ≠ '\\') :
    readString opening (c :: cs) p done = readString opening cs (p.after c) (c :: done) := by
  rw [readString]
  · exact quote
  · exact fun same _ => backslash same
  · exact fun _ _ same _ => backslash same

theorem readString_append {result : Except Source.Failure String}
    (read : readString opening cs p done = (result, left))
    (closed : result ≠ .error (fault .unterminatedString opening)) :
    readString opening (cs ++ rest) p done = (result, left.append rest) := by
  fun_induction readString opening cs p done with
  | case1 => 
    cases read
    exact absurd rfl closed
  | case2 => 
    cases read
    rfl
  | case3 =>
    cases read
    exact absurd rfl closed
  | case4 e cs p done c found ih =>
    simp only [List.cons_append, readString, found]
    exact ih read
  | case5 e cs p done none =>
    cases read
    simp only [List.cons_append, readString, none]
    rfl
  | case6 c cs p done quote lone escape ih =>
    rw [List.cons_append, readString_plain quote (ne_backslash lone escape)]
    exact ih read

theorem punctuator?_append {c : Char} (apart : Apart (c :: cs) rest) :
    punctuator? (c :: cs ++ rest) =
      (punctuator? (c :: cs)).map fun found => (found.1, found.2.1, found.2.2 ++ rest) := by
  cases cs with
  | nil =>
    cases rest with
    | nil => simp [punctuator?, Function.comp_def]
    | cons d rest =>
      have none := apart.pair?_eq_none
      simp only [List.singleton_append, punctuator?, none, Option.map_map]
      rfl
  | cons d cs =>
    simp only [List.cons_append, punctuator?]
    split
    · rfl
    · simp only [Option.map_map]
      rfl

/-- A lexeme is read as before, unless it is a string that is not closed, or a comment that goes on. -/
theorem readLexeme_append {c : Char} {result : Except Source.Failure Lexeme}
    (apart : Apart (c :: cs) rest)
    (read : readLexeme (c :: cs) p = (result, left))
    (closed : ∀ q, result ≠ .error (fault .unterminatedString q))
    (line : ∀ text, result = .ok (.comment text) → left.rest = [] → ∀ d ∈ rest.head?, d = '\n') :
    readLexeme (c :: cs ++ rest) p = (result, left.append rest) := by
  simp only [List.cons_append, readLexeme] at read ⊢
  split at read
  · rename_i quote
    rw [if_pos quote]
    cases string : readString p cs (p.after c) [] with
    | mk answer reader =>
      rw [string] at read
      cases read
      have open? : answer ≠ .error (fault .unterminatedString p) := by
        rintro rfl
        exact closed p rfl
      rw [readString_append string open?]
  rename_i quote
  rw [if_neg quote]
  split at read
  · rename_i digit
    rw [if_pos digit]
    obtain ⟨taken, dropped⟩ := takeWhile_append_parted (c :: cs)
      (apart.stop fun _ => Apart.isNumberChar_eq_false)
    rw [List.cons_append] at taken dropped
    simp only [readNumber, taken, dropped] at read ⊢
    split at read
    · rename_i points
      rw [if_pos points]
      cases read
      rfl
    · rename_i points
      rw [if_neg points]
      cases read
      rfl
  rename_i digit
  rw [if_neg digit]
  split at read
  · rename_i newline
    rw [if_pos newline]
    cases read
    rfl
  rename_i newline
  rw [if_neg newline]
  split at read
  · rename_i hash
    rw [if_pos hash]
    cases read
    have stop : cs.dropWhile (· ≠ '\n') = [] → ∀ d ∈ rest.head?, decide (d ≠ '\n') = false := by
      intro whole d first
      simp [line _ rfl whole d first]
    obtain ⟨taken, dropped⟩ := takeWhile_append_parted cs stop
    simp only [readComment, taken, dropped]
    rfl
  rename_i hash
  rw [if_neg hash]
  have found := punctuator?_append apart
  rw [List.cons_append] at found
  rw [found]
  split at read
  · rename_i mark passed tail same
    rw [same]
    cases read
    rfl
  · rename_i none
    rw [none]
    split at read
    · rename_i letter
      obtain ⟨taken, dropped⟩ := takeWhile_append_parted (c :: cs)
        (apart.stop fun _ => Apart.isNameChar_eq_false)
      rw [List.cons_append] at taken dropped
      simp only [Option.map_none, if_pos letter, readName, taken, dropped] at read ⊢
      cases read
      rfl
    · rename_i other
      simp only [Option.map_none, if_neg other]
      cases read
      rfl

/-! ## Tokens -/

/-- The tokens from a reader on. -/
def tokens (r : Reader) : Tokens := Tokens.scan (r.rest.length + 1) r

theorem tokens_ofText (s : String) : (Reader.ofText s).tokens = Tokens.ofText s := rfl

variable {r : Reader} {t : Token}

theorem tokens_of_error {failure : Source.Failure} (read : r.read = (.error failure, left)) :
    r.tokens = ⟨[], .failed failure⟩ := by
  simp only [tokens, Tokens.scan, read]

theorem tokens_of_eof (read : r.read = (.ok t, left)) (ends : t.lexeme = .eof) :
    r.tokens = ⟨[], .complete t.position⟩ := by
  simp only [tokens, Tokens.scan, read, if_pos ends]

theorem tokens_of_ok (read : r.read = (.ok t, left)) (more : t.lexeme ≠ .eof) :
    r.tokens = .cons t left.tokens := by
  have shorter := length_rest_read_lt read more
  rw [tokens, Tokens.scan, read]
  simp only [if_neg more]
  rw [Tokens.scan_eq_scan shorter (Nat.lt_succ_self _)]
  rfl

theorem tokens_congr {r' : Reader} (read : r.read = r'.read) : r.tokens = r'.tokens := by
  cases answer : r.read with
  | mk result left =>
    have answer' := read.symm.trans answer
    cases result with
    | error failure => rw [tokens_of_error answer, tokens_of_error answer']
    | ok t =>
      by_cases ends : t.lexeme = .eof
      · rw [tokens_of_eof answer ends, tokens_of_eof answer' ends]
      · rw [tokens_of_ok answer ends, tokens_of_ok answer' ends]

theorem tokens_of_rest_nil (none : r.rest = []) : r.tokens = ⟨[], .complete r.position⟩ := by
  obtain ⟨rest, p⟩ := r
  obtain rfl : rest = [] := none
  rfl

/-- The tokens of a text, one by one: the cases are the ways in which reading a token can end. -/
theorem tokens_induction {P : Reader → Prop}
    (fault : ∀ r left failure, r.read = (.error failure, left) → P r)
    (eof : ∀ r left t, r.read = (.ok t, left) → t.lexeme = .eof → P r)
    (token : ∀ r left t, r.read = (.ok t, left) → t.lexeme ≠ .eof → P left → P r) (r : Reader) : P r := by
  generalize size : r.rest.length = n
  induction n using Nat.strongRecOn generalizing r with
  | _ n ih =>
    subst size
    cases read : r.read with
    | mk result left =>
      cases result with
      | error failure => exact fault r left failure read
      | ok t =>
        by_cases ends : t.lexeme = .eof
        · exact eof r left t read ends
        · exact token r left t read ends
            (ih _ (length_rest_read_lt read ends) left rfl)

/-- Whether a comment, if it is the last thing read, has to go on into what follows. -/
def GoesOn (t : Token) (left : Reader) (rest : List Char) : Prop :=
  (∃ text, t.lexeme = .comment text) ∧ left.rest = [] ∧ ∃ d ∈ rest.head?, d ≠ '\n'

/-- Reading a token, in terms of the first character that is no blank. -/
theorem read_eq (r : Reader) :
    r.read = ((readLexeme (r.rest.dropWhile isBlank) (r.position.afterAll (r.rest.takeWhile isBlank))).1.map
      fun lexeme => ⟨lexeme, r.position.afterAll (r.rest.takeWhile isBlank)⟩,
      (readLexeme (r.rest.dropWhile isBlank) (r.position.afterAll (r.rest.takeWhile isBlank))).2) := rfl

theorem read_append {result : Except Source.Failure Token} (apart : Apart r.rest rest)
    (read : r.read = (result, left)) (closed : ∀ q, result ≠ .error (fault .unterminatedString q))
    (more : ∀ t, result = .ok t → t.lexeme ≠ .eof ∧ ¬GoesOn t left rest) :
    (r.append rest).read = (result, left.append rest) := by
  rw [read_eq] at read ⊢
  cases start : r.rest.dropWhile isBlank with
  | nil =>
    rw [start] at read
    cases read
    exact absurd rfl (more _ rfl).1
  | cons c cs =>
    obtain ⟨taken, dropped⟩ : (r.rest ++ rest).takeWhile isBlank = r.rest.takeWhile isBlank ∧
        (r.rest ++ rest).dropWhile isBlank = r.rest.dropWhile isBlank ++ rest :=
      takeWhile_append_parted r.rest fun none => absurd (none.symm.trans start) nofun
    simp only [append, taken, dropped, start] at read ⊢
    cases found : readLexeme (c :: cs) (r.position.afterAll (r.rest.takeWhile isBlank)) with
    | mk answer reader =>
      rw [found] at read
      cases read
      have here : Apart (c :: cs) rest :=
        apart.of_suffix (start ▸ List.dropWhile_suffix isBlank) (List.cons_ne_nil c cs)
      have again := readLexeme_append here found ?_ ?_
      · rw [again]
        rfl
      · rintro q rfl
        exact closed q rfl
      · rintro text rfl whole d first
        refine Decidable.byContradiction fun other => ?_
        exact (more _ rfl).2 ⟨⟨text, rfl⟩, whole, d, first, other⟩

/-- A text that starts with a character has a token, and only a hash starts a comment. -/
theorem readLexeme_cons {c : Char} {l : Lexeme} (read : (readLexeme (c :: cs) p).1 = .ok l) :
    l ≠ .eof ∧ (∀ text, l = .comment text → c = '#') ∧ (l = .newline → c = '\n') := by
  simp only [readLexeme] at read
  split at read
  · cases string : readString p cs (p.after c) [] with
    | mk answer reader =>
      rw [string] at read
      cases answer with
      | error => cases read
      | ok value =>
        cases read
        simp
  split at read
  · simp only [readNumber] at read
    split at read
    · cases read
    · cases read
      simp
  split at read
  · rename_i newline
    cases read
    exact ⟨by simp, by simp, fun _ => newline⟩
  split at read
  · rename_i hash
    cases read
    exact ⟨by simp, fun _ _ => hash, by simp⟩
  split at read
  · cases read
    simp
  split at read
  · simp only [readName] at read
    split at read
    · cases read
      simp
    · cases read
      simp
  · cases read

/-- A token stands at the first character that is no blank and is made from there on; at the end of the
text it is the end of input. -/
theorem of_read (read : r.read = (.ok t, left)) :
    t.position = r.position.afterAll (r.rest.takeWhile isBlank) ∧
      (r.rest.dropWhile isBlank = [] ∧ t.lexeme = .eof ∨
        ∃ c cs, r.rest.dropWhile isBlank = c :: cs ∧ (readLexeme (c :: cs) t.position).1 = .ok t.lexeme) := by
  rw [read_eq] at read
  cases start : r.rest.dropWhile isBlank with
  | nil =>
    rw [start] at read
    cases read
    exact ⟨rfl, .inl ⟨rfl, rfl⟩⟩
  | cons c cs =>
    rw [start] at read
    cases found : (readLexeme (c :: cs) (r.position.afterAll (r.rest.takeWhile isBlank))).1 with
    | error => simp [found, Except.map] at read
    | ok l =>
      simp only [found, Except.map, Prod.mk.injEq, Except.ok.injEq] at read
      obtain ⟨rfl, -⟩ := read
      exact ⟨rfl, .inr ⟨c, cs, rfl, found⟩⟩

/-- A fault is met from the first character on that is no blank. -/
theorem of_read_error {failure : Source.Failure} (read : r.read = (.error failure, left)) :
    ∃ c cs, r.rest.dropWhile isBlank = c :: cs ∧
      readLexeme (c :: cs) (r.position.afterAll (r.rest.takeWhile isBlank)) = (.error failure, left) := by
  rw [read_eq] at read
  cases start : r.rest.dropWhile isBlank with
  | nil =>
    rw [start] at read
    cases read
  | cons c cs =>
    rw [start] at read
    refine ⟨c, cs, rfl, ?_⟩
    rcases found : readLexeme (c :: cs) (r.position.afterAll (r.rest.takeWhile isBlank)) with
      ⟨failure' | l, left'⟩
    · rw [found] at read
      cases read
      rfl
    · rw [found] at read
      cases read

/-- Behind a text without a further token the next text is read. -/
theorem read_append_eof (read : r.read = (.ok t, left)) (ends : t.lexeme = .eof) :
    (r.append rest).read = Reader.read ⟨rest, t.position⟩ := by
  obtain ⟨place, ⟨start, -⟩ | ⟨c, cs, -, found⟩⟩ := of_read read
  · have blanks : ∀ c ∈ r.rest, isBlank c = true := List.dropWhile_eq_nil_iff.1 start
    have all : r.rest.takeWhile isBlank = r.rest := List.takeWhile_eq_self_iff.2 blanks
    simp only [read_eq, append, List.takeWhile_append_of_pos blanks, List.dropWhile_append_of_pos blanks,
      Position.afterAll_append, place, all]
  · exact absurd ends (readLexeme_cons found).1

/-- A comment that goes on is still a comment at the same place. -/
theorem read_append_comment (rest : List Char) {text : String} (read : r.read = (.ok t, left))
    (comment : t.lexeme = .comment text) :
    ∃ text' left', (r.append rest).read = (.ok ⟨.comment text', t.position⟩, left') := by
  obtain ⟨place, ⟨-, ends⟩ | ⟨c, cs, start, found⟩⟩ := of_read read
  · cases comment.symm.trans ends
  · obtain ⟨taken, dropped⟩ : (r.rest ++ rest).takeWhile isBlank = r.rest.takeWhile isBlank ∧
        (r.rest ++ rest).dropWhile isBlank = r.rest.dropWhile isBlank ++ rest :=
      takeWhile_append_parted r.rest fun none => absurd (none.symm.trans start) nofun
    obtain rfl : c = '#' := (readLexeme_cons found).2.1 text comment
    rw [read_eq, place]
    simp only [append, taken, dropped, start]
    exact ⟨_, _, rfl⟩

/-- The end of input is not one of the listed tokens. -/
theorem ne_eof_of_mem_tokens (member : t ∈ r.tokens.list) : t.lexeme ≠ .eof := by
  induction r using tokens_induction with
  | fault r left failure read =>
    rw [tokens_of_error read] at member
    cases member
  | eof r left t' read ends =>
    rw [tokens_of_eof read ends] at member
    cases member
  | token r left t' read more ih =>
    rw [tokens_of_ok read more] at member
    rcases List.mem_cons.1 member with rfl | later
    · exact more
    · exact ih later

theorem readString_lexical {failure : Source.Failure}
    (read : readString opening cs p done = (.error failure, left)) : ∃ f, failure.fault = .lexical f := by
  fun_induction readString opening cs p done with
  | case1 | case3 =>
    cases read
    exact ⟨_, rfl⟩
  | case2 => cases read
  | case4 e cs p done c found ih => exact ih read
  | case5 =>
    cases read
    exact ⟨_, rfl⟩
  | case6 c cs p done quote lone escape ih => exact ih read

/-- Whatever makes a text no sequence of tokens is a fault inside a token. -/
theorem readLexeme_lexical {failure : Source.Failure} (read : (readLexeme cs p).1 = .error failure) :
    ∃ f, failure.fault = .lexical f := by
  cases cs with
  | nil => cases read
  | cons c cs =>
    simp only [readLexeme] at read
    split at read
    · cases string : readString p cs (p.after c) [] with
      | mk answer reader =>
        rw [string] at read
        cases answer with
        | error failure' =>
          cases read
          exact readString_lexical string
        | ok value => cases read
    split at read
    · simp only [readNumber] at read
      split at read <;> cases read
      exact ⟨_, rfl⟩
    split at read
    · cases read
    split at read
    · cases read
    split at read
    · cases read
    split at read <;> cases read
    exact ⟨_, rfl⟩

theorem tokens_lexical {failure : Source.Failure} (failed : r.tokens.ending = .failed failure) :
    ∃ f, failure.fault = .lexical f := by
  induction r using tokens_induction with
  | fault r left failure' read =>
    rw [tokens_of_error read] at failed
    cases failed
    rw [read_eq] at read
    cases found : (readLexeme (r.rest.dropWhile isBlank)
      (r.position.afterAll (r.rest.takeWhile isBlank))).1 with
    | error failure' =>
      rw [found] at read
      cases read
      exact readLexeme_lexical found
    | ok l =>
      rw [found] at read
      cases read
  | eof r left t read ends =>
    rw [tokens_of_eof read ends] at failed
    cases failed
  | token r left t read more ih =>
    rw [tokens_of_ok read more] at failed
    exact ih failed

/-! ## What is left -/

theorem readString_suffix (opening : Position) (cs : List Char) (p : Position) (done : List Char) :
    (readString opening cs p done).2.rest <:+ cs := by
  fun_induction readString opening cs p done with
  | case1 => exact List.suffix_rfl
  | case2 => exact List.suffix_cons _ _
  | case3 => exact List.nil_suffix
  | case4 e cs p done c found ih =>
    exact ih.trans ((List.suffix_cons _ _).trans (List.suffix_cons _ _))
  | case5 e cs p done none => exact List.suffix_cons _ _
  | case6 c cs p done quote lone escape ih => exact ih.trans (List.suffix_cons _ _)

theorem punctuator?_suffix {mark : Punctuator} {passed tail : List Char}
    (found : punctuator? cs = some (mark, passed, tail)) : tail <:+ cs := by
  unfold punctuator? at found
  split at found
  · split at found
    · cases found
      exact ⟨[_, _], rfl⟩
    · obtain ⟨_, _, same⟩ := Option.map_eq_some_iff.1 found
      cases same
      exact List.suffix_cons _ _
  · obtain ⟨_, _, same⟩ := Option.map_eq_some_iff.1 found
    cases same
    exact List.nil_suffix
  · cases found

theorem readLexeme_suffix (cs : List Char) (p : Position) : (readLexeme cs p).2.rest <:+ cs := by
  cases cs with
  | nil => exact List.suffix_rfl
  | cons c cs =>
    simp only [readLexeme]
    split
    · exact (readString_suffix _ _ _ _).trans (List.suffix_cons _ _)
    split
    · simp only [readNumber]
      split <;> exact List.dropWhile_suffix _
    split
    · exact List.suffix_cons _ _
    split
    · exact (List.dropWhile_suffix _).trans (List.suffix_cons _ _)
    split
    · rename_i found
      exact punctuator?_suffix found
    split
    · exact List.dropWhile_suffix _
    · exact List.suffix_rfl

theorem read_suffix (read : r.read = (.ok t, left)) : left.rest <:+ r.rest := by
  rw [read_eq] at read
  obtain ⟨-, rfl⟩ := Prod.mk.inj read
  exact (readLexeme_suffix _ _).trans (List.dropWhile_suffix _)

/-- Behind a token a text is still apart from what follows, or nothing of it is left. -/
theorem apart_left (apart : Apart r.rest rest) (read : r.read = (.ok t, left)) :
    left.rest = [] ∨ Apart left.rest rest := by
  by_cases none : left.rest = []
  · exact .inl none
  · exact .inr (apart.of_suffix (read_suffix read) none)

/-- A text without newlines has no newline among its tokens. -/
theorem ne_newline_of_mem_tokens (line : '\n' ∉ r.rest) (member : t ∈ r.tokens.list) :
    t.lexeme ≠ .newline := by
  induction r using tokens_induction with
  | fault r left failure read =>
    rw [tokens_of_error read] at member
    cases member
  | eof r left t' read ends =>
    rw [tokens_of_eof read ends] at member
    cases member
  | token r left t' read more ih =>
    rw [tokens_of_ok read more] at member
    rcases List.mem_cons.1 member with rfl | later
    · intro newline
      obtain ⟨-, ⟨-, ends⟩ | ⟨c, cs, start, found⟩⟩ := of_read read
      · exact more ends
      · have inside : c ∈ r.rest := (List.dropWhile_suffix _).subset (start ▸ List.mem_cons_self)
        rw [(readLexeme_cons found).2.2 newline] at inside
        exact line inside
    · exact ih (fun newline => line ((read_suffix read).subset newline)) later

/-! ## Longer texts -/

/-- The tokens of a longer text are those of the text and those of what follows, unless a comment goes
on. -/
theorem tokens_append {q : Position} (parted : Parted rest) (complete : r.tokens.ending = .complete q)
    (line : ∀ t ∈ r.tokens.list.getLast?, (∃ text, t.lexeme = .comment text) →
      ∀ d ∈ rest.head?, d = '\n') :
    (r.append rest).tokens =
      ⟨r.tokens.list ++ (Reader.mk rest q).tokens.list, (Reader.mk rest q).tokens.ending⟩ := by
  induction r using tokens_induction with
  | fault r left failure read =>
    rw [tokens_of_error read] at complete
    cases complete
  | eof r left t read ends =>
    rw [tokens_of_eof read ends] at complete ⊢
    cases complete
    exact tokens_congr (read_append_eof read ends)
  | token r left t read more ih =>
    rw [tokens_of_ok read more] at complete line ⊢
    have ends : ¬GoesOn t left rest := by
      rintro ⟨comment, whole, d, first, other⟩
      refine other (line t ?_ comment d first)
      rw [tokens_of_rest_nil whole]
      rfl
    have again := read_append (.inl parted) read nofun fun t' same => by
      cases same
      exact ⟨more, ends⟩
    rw [tokens_of_ok again more, ih complete fun t' last => line t' ?_]
    · rfl
    · rw [Option.mem_def] at last ⊢
      simp [Tokens.cons, List.getLast?_cons, last]

/-- A lexical fault other than an open string stays. -/
theorem tokens_append_failed {failure : Source.Failure} (apart : Apart r.rest rest)
    (failed : r.tokens.ending = .failed failure)
    (closed : failure.fault ≠ .lexical .unterminatedString) : (r.append rest).tokens = r.tokens := by
  induction r using tokens_induction with
  | fault r left failure' read =>
    rw [tokens_of_error read] at failed ⊢
    cases failed
    refine tokens_of_error (read_append apart read ?_ nofun)
    rintro q ⟨⟩
    exact closed rfl
  | eof r left t read ends =>
    rw [tokens_of_eof read ends] at failed
    cases failed
  | token r left t read more ih =>
    rw [tokens_of_ok read more] at failed ⊢
    have some : left.rest ≠ [] := by
      intro none
      rw [tokens_of_rest_nil none] at failed
      cases failed
    have again := read_append apart read nofun fun t' same => by
      cases same
      exact ⟨more, fun goesOn => some goesOn.2.1⟩
    rw [tokens_of_ok again more, ih ((apart_left apart read).resolve_left some) failed]

/-- Whatever follows, the tokens of a text stay, only the last comment may have grown. -/
theorem tokens_append_list (apart : Apart r.rest rest) :
    r.tokens.list <+: (r.append rest).tokens.list ∨
      ∃ before text text' p more, r.tokens.list = before ++ [⟨.comment text, p⟩] ∧
        (r.append rest).tokens.list = before ++ ⟨.comment text', p⟩ :: more := by
  induction r using tokens_induction with
  | fault r left failure read =>
    rw [tokens_of_error read]
    exact .inl List.nil_prefix
  | eof r left t read ends =>
    rw [tokens_of_eof read ends]
    exact .inl List.nil_prefix
  | token r left t read more ih =>
    rw [tokens_of_ok read more]
    by_cases goesOn : GoesOn t left rest
    · obtain ⟨⟨text, comment⟩, whole, -⟩ := goesOn
      obtain ⟨text', left', again⟩ := read_append_comment rest read comment
      rw [tokens_of_rest_nil whole, tokens_of_ok again nofun]
      refine .inr ⟨[], text, text', t.position, left'.tokens.list, ?_, rfl⟩
      rw [← comment]
      rfl
    · have again := read_append apart read nofun fun t' same => by
        cases same
        exact ⟨more, goesOn⟩
      rw [tokens_of_ok again more]
      rcases apart_left apart read with none | apart'
      · rw [tokens_of_rest_nil none]
        exact .inl ⟨(left.append rest).tokens.list, rfl⟩
      rcases ih apart' with ⟨later, same⟩ | ⟨before, text, text', p, later, same, same'⟩
      · exact .inl ⟨later, congrArg (t :: ·) same⟩
      · exact .inr ⟨t :: before, text, text', p, later, congrArg (t :: ·) same, congrArg (t :: ·) same'⟩

/-! ## Other places -/

theorem readString_place {value : String} (opening opening' p' : Position)
    (read : readString opening cs p done = (.ok value, left)) :
    ∃ q, readString opening' cs p' done = (.ok value, ⟨left.rest, q⟩) := by
  fun_induction readString opening cs p done generalizing p' with
  | case1 => cases read
  | case2 =>
    cases read
    exact ⟨_, rfl⟩
  | case3 => cases read
  | case4 e cs p done c found ih =>
    simp only [readString, found]
    exact ih _ read
  | case5 => cases read
  | case6 c cs p done quote lone escape ih =>
    rw [readString_plain quote (ne_backslash lone escape)]
    exact ih _ read

/-- Where a text starts makes no difference to the lexeme at its front. -/
theorem readLexeme_place {l : Lexeme} (p' : Position) (read : readLexeme cs p = (.ok l, left)) :
    ∃ q, readLexeme cs p' = (.ok l, ⟨left.rest, q⟩) := by
  cases cs with
  | nil =>
    cases read
    exact ⟨_, rfl⟩
  | cons c cs =>
    simp only [readLexeme] at read ⊢
    split at read
    · rename_i quote
      rw [if_pos quote]
      cases string : readString p cs (p.after c) [] with
      | mk answer reader =>
        rw [string] at read
        cases answer with
        | error failure => cases read
        | ok value =>
          cases read
          obtain ⟨q, again⟩ := readString_place p p' (p'.after c) string
          rw [again]
          exact ⟨q, rfl⟩
    rename_i quote
    rw [if_neg quote]
    split at read
    · rename_i digit
      rw [if_pos digit]
      simp only [readNumber] at read ⊢
      split at read
      · cases read
      · rename_i points
        cases read
        rw [if_neg points]
        exact ⟨_, rfl⟩
    rename_i digit
    rw [if_neg digit]
    split at read
    · rename_i newline
      cases read
      rw [if_pos newline]
      exact ⟨_, rfl⟩
    rename_i newline
    rw [if_neg newline]
    split at read
    · rename_i hash
      cases read
      rw [if_pos hash]
      exact ⟨_, rfl⟩
    rename_i hash
    rw [if_neg hash]
    split at read
    · cases read
      exact ⟨_, rfl⟩
    · split at read
      · rename_i letter
        cases read
        rw [if_pos letter]
        exact ⟨_, rfl⟩
      · cases read

theorem read_place (p' : Position) (read : Reader.read ⟨cs, p⟩ = (.ok t, left)) :
    ∃ place q, Reader.read ⟨cs, p'⟩ = (.ok ⟨t.lexeme, place⟩, ⟨left.rest, q⟩) := by
  simp only [read_eq] at read ⊢
  cases found : readLexeme (cs.dropWhile isBlank) (p.afterAll (cs.takeWhile isBlank)) with
  | mk answer reader =>
    rw [found] at read
    cases answer with
    | error failure => cases read
    | ok l =>
      cases read
      obtain ⟨q, again⟩ := readLexeme_place (p'.afterAll (cs.takeWhile isBlank)) found
      rw [again]
      exact ⟨_, q, rfl⟩

/-- Where a text starts makes no difference to what its tokens say. -/
theorem spells_place {ls : List Lexeme} (p' : Position) (spells : r.tokens.Spells ls) :
    (Reader.mk r.rest p').tokens.Spells ls := by
  induction r using tokens_induction generalizing ls p' with
  | fault r left failure read =>
    obtain ⟨p, complete⟩ := spells.complete
    rw [tokens_of_error read] at complete
    cases complete
  | eof r left t read ends =>
    obtain ⟨place, q, again⟩ := read_place p' read
    rw [tokens_of_eof read ends] at spells
    rw [tokens_of_eof again ends]
    exact ⟨spells.lexemes, _, rfl⟩
  | token r left t read more ih =>
    obtain ⟨place, q, again⟩ := read_place p' read
    rw [tokens_of_ok read more] at spells
    rw [tokens_of_ok again more]
    obtain ⟨lexemes, complete⟩ := spells
    have later := ih q ⟨rfl, complete⟩
    refine ⟨?_, later.complete⟩
    rw [← lexemes]
    exact congrArg (t.lexeme :: ·) later.lexemes

theorem tokens_newline (cs : List Char) (p : Position) :
    (Reader.mk ('\n' :: cs) p).tokens = .cons ⟨.newline, p⟩ (Reader.mk cs (p.after '\n')).tokens :=
  tokens_of_ok rfl nofun

theorem tokens_blank (cs : List Char) (p : Position) :
    (Reader.mk (' ' :: cs) p).tokens = (Reader.mk cs (p.after ' ')).tokens :=
  tokens_congr (read_blank rfl cs p)

/-- The tokens of a text with more behind it, which does not run on into a comment. -/
theorem spells_append {ls ls' : List Lexeme} (parted : Parted rest) (spells : r.tokens.Spells ls)
    (more : (Reader.mk rest .start).tokens.Spells ls')
    (line : ∀ text, .comment text ∈ ls → ∀ c ∈ rest.head?, c = '\n') :
    (r.append rest).tokens.Spells (ls ++ ls') := by
  obtain ⟨lexemes, q, complete⟩ := spells
  have later := spells_place q more
  rw [tokens_append parted complete]
  · refine ⟨?_, later.complete⟩
    rw [List.map_append, lexemes, later.lexemes]
  · rintro t last ⟨text, comment⟩
    refine line text ?_
    rw [← lexemes, ← comment]
    exact List.mem_map_of_mem (List.mem_of_mem_getLast? last)

end Reader

end Shiba

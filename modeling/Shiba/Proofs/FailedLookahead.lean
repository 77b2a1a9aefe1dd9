import Mathlib.Data.List.Basic
import Shiba.Proofs.LookaheadCursor
import Shiba.Proofs.MendableText

/-!
# What a failed lookahead leaves behind

A fault is met while a token is read, and the reader stays where reading stopped.  So a lookahead that
has failed need not fail again.

* `Reader.read_fault`: in front of a character that starts no token the reader meets the same fault
  again, and at every other fault it has gone on into the faulty token (`Reader.Passed`).
* `Lookahead.answers` goes on behind faults.  `Lookahead.Repeats` is what a caller sees of a stream that
  a fault has left as it was.
* `Lookahead.failed_lookahead`: a failed request leaves the stream as it was exactly when the fault is a
  character that starts no token.  Behind any other fault the next answer comes from farther on.
-/

namespace Shiba

open Reader

/-- The fault is a character that starts no token. -/
def Source.Failure.Stray (failure : Source.Failure) : Prop :=
  ∃ c, failure.fault = .lexical (.invalidToken c)

namespace Reader

/-- A fault inside a token, met by a reader that was at `p` and that is left behind the place where the
fault is reported. -/
structure Passed (p : Position) (failure : Source.Failure) (left : Reader) : Prop where
  other : ¬failure.Stray
  begins : p.offset ≤ failure.position.offset
  passed : failure.position.offset < left.position.offset

variable {r left : Reader} {t : Token} {cs done : List Char} {opening p : Position}
  {failure : Source.Failure}

/-! ## Where the reader stands behind a fault -/

/-- A fault inside a string is reported where the string starts or at a character that was passed. -/
theorem readString_passed (behind : opening.offset < p.offset)
    (read : readString opening cs p done = (.error failure, left)) : Passed opening failure left := by
  fun_induction readString opening cs p done with
  | case1 =>
    cases read
    exact ⟨by rintro ⟨_, ⟨⟩⟩, Nat.le_refl _, behind⟩
  | case2 => cases read
  | case3 p =>
    cases read
    refine ⟨by rintro ⟨_, ⟨⟩⟩, Nat.le_refl _, ?_⟩
    rw [Position.offset_after]
    exact Nat.lt_succ_of_lt behind
  | case4 e cs p done c escaped ih =>
    refine ih ?_ read
    simp only [Position.offset_after]
    omega
  | case5 e cs p =>
    cases read
    refine ⟨by rintro ⟨_, ⟨⟩⟩, Nat.le_of_lt behind, ?_⟩
    rw [Position.offset_after]
    exact Nat.lt_succ_self _
  | case6 c cs p done quote lone escape ih =>
    refine ih ?_ read
    rw [Position.offset_after]
    exact Nat.lt_succ_of_lt behind

/-- At a character that starts no token reading does not begin; at any other fault it has gone on. -/
theorem readLexeme_fault {c : Char} (read : readLexeme (c :: cs) p = (.error failure, left)) :
    (failure.Stray ∧ failure.position = p ∧ left = ⟨c :: cs, p⟩) ∨ Passed p failure left := by
  simp only [readLexeme] at read
  split at read
  · rcases string : readString p cs (p.after c) [] with ⟨failure' | value, left'⟩
    · rw [string] at read
      cases read
      refine .inr (readString_passed ?_ string)
      rw [Position.offset_after]
      exact Nat.lt_succ_self _
    · rw [string] at read
      cases read
  split at read
  · next digit =>
    simp only [readNumber] at read
    split at read
    · cases read
      have number : isNumberChar c = true := by simp [isNumberChar, digit]
      refine .inr ⟨by rintro ⟨_, ⟨⟩⟩, Nat.le_refl _, ?_⟩
      rw [past, Position.offset_afterAll, List.takeWhile_cons_of_pos number, List.length_cons]
      change p.offset < p.offset + _
      omega
    · cases read
  -- a newline, a comment, a punctuator and a name are read without a fault
  repeat' split at read
  all_goals cases read
  exact .inl ⟨⟨c, rfl⟩, rfl, rfl⟩

/-- A reader that has met a character that starts no token meets it again; any other fault leaves it
farther on. -/
theorem read_fault (read : r.read = (.error failure, left)) :
    (failure.Stray ∧ r.position.offset ≤ failure.position.offset ∧
      left.read = (.error failure, left)) ∨ Passed r.position failure left := by
  obtain ⟨c, cs, start, found⟩ := of_read_error read
  have skipped := Position.offset_afterAll r.position (r.rest.takeWhile isBlank)
  rcases readLexeme_fault found with ⟨stray, place, rfl⟩ | ⟨other, begins, passed⟩
  · refine .inl ⟨stray, by rw [place]; omega, ?_⟩
    have visible : isBlank c = false := head?_dropWhile r.rest c (by rw [start]; rfl)
    simp only [read_eq, List.takeWhile_cons, List.dropWhile_cons, visible, Bool.false_eq_true,
      if_false, Position.afterAll_nil, found]
    rfl
  · exact .inr ⟨other, by omega, passed⟩

/-- A token does not start before the reader, and the reader does not go back. -/
theorem read_offset_le (read : r.read = (.ok t, left)) :
    r.position.offset ≤ t.position.offset ∧
      (t.lexeme ≠ .eof → r.position.offset ≤ left.position.offset) := by
  obtain ⟨cs, p⟩ := r
  rcases read_ok read with ⟨rfl, -⟩ | ⟨gap, text, rest, -, -, place, -, -, rfl⟩
  · exact ⟨by simp, fun more => absurd rfl more⟩
  · exact ⟨by simp [place], fun _ => by simp [past]⟩

end Reader

/-! ## Where answers come from -/

/-- The place an answer speaks of: that of a token, or that of a fault. -/
def Tokens.placeOf : Except Source.Failure Token → Position
  | .ok t => t.position
  | .error failure => failure.position

/-- A cursor fails where the sequence ends with a fault, and stays there. -/
theorem Tokens.serve_fault {ts : Tokens} {cursor cursor' : Nat} {request : Lookahead.Request}
    {failure : Source.Failure} (failed : ts.serve cursor request = (.error failure, cursor')) :
    ts.tokenAt cursor = .error failure ∧ cursor' = cursor := by
  cases request with
  | peek | next =>
    rcases here : ts.tokenAt cursor with failure' | t
    · simp only [Tokens.serve, here] at failed
      cases failed
      exact ⟨rfl, rfl⟩
    · simp only [Tokens.serve, here] at failed
      cases failed
  | mark => cases failed
  | reset place => cases failed

/-- Nothing that is read from a reader on lies before it. -/
theorem Reader.offset_le_placeOf (r : Reader) (place : Nat) :
    r.position.offset ≤ (Tokens.placeOf (r.tokens.tokenAt place)).offset := by
  induction r using tokens_induction generalizing place with
  | fault r left failure read =>
    rw [tokens_of_error read, Tokens.tokenAt_of_failed (Nat.zero_le _) rfl]
    rcases read_fault read with ⟨-, behind, -⟩ | passed
    · exact behind
    · exact passed.begins
  | eof r left t read ends =>
    rw [tokens_of_eof read ends, Tokens.tokenAt_of_complete (Nat.zero_le _) rfl]
    exact (read_offset_le read).1
  | token r left t read more ih =>
    obtain ⟨behind, left_behind⟩ := read_offset_le read
    rw [tokens_of_ok read more]
    cases place with
    | zero => exact behind
    | succ place => exact Nat.le_trans (left_behind more) (ih place)

namespace Lookahead

/-! ## A lookahead that has failed -/

/-- A request for a token. -/
inductive Request.Asks : Request → Prop
  | peek : Asks .peek
  | next : Asks .next

/-- All replies to requests: a stream that has met a fault can be asked again. -/
def answers {σ : Type} (serve : σ → Request → Except Source.Failure Reply × σ) :
    σ → List Request → List (Except Source.Failure Reply)
  | _, [] => []
  | s, request :: requests => (serve s request).1 :: answers serve (serve s request).2 requests

/-- Two faults are reported alike. -/
structure SameReport (failure failure' : Source.Failure) : Prop where
  message : failure.fault.message = failure'.fault.message
  position : failure.position = failure'.position
  incomplete : failure.fault.incomplete = failure'.fault.incomplete

/-- However often a token is asked for, a fault is raised that is reported like the given one. -/
def Repeats (l : Lookahead) (failure : Source.Failure) : Prop :=
  ∀ requests : List Request, (∀ request ∈ requests, request.Asks) →
    ∀ answer ∈ answers Lookahead.serve l requests,
      ∃ failure', answer = .error failure' ∧ SameReport failure' failure

variable {ts : Tokens} {l l' : Lookahead} {request : Request} {failure : Source.Failure}

/-- The tokens in the buffer of a lookahead and those its reader goes on with. -/
def ahead (l : Lookahead) : Tokens := ⟨l.buffer.toList ++ l.reader.tokens.list, l.reader.tokens.ending⟩

/-- Every lookahead follows some sequence of tokens. -/
theorem exists_follows (l : Lookahead) : ∃ ts, Follows ts l := by
  by_cases going : ∀ t ∈ l.buffer.back?, t.lexeme ≠ .eof
  · exact ⟨l.ahead, .reading going rfl⟩
  · push Not at going
    obtain ⟨⟨lexeme, p⟩, isLast, rfl⟩ := going
    refine ⟨⟨l.buffer.toList.dropLast, .complete p⟩, .ended rfl ?_⟩
    rw [Option.mem_def, ← Array.getLast?_toList] at isLast
    exact (List.dropLast_append_getLast? _ isLast).symm

/-- A lookahead fails where its reader does, behind all tokens it has kept. -/
theorem Follows.fill_fault {fuel : Nat} (follows : Follows ts l)
    (failed : l.fill fuel = (.error failure, l')) :
    ∃ r, r.read = (.error failure, l'.reader) ∧ Follows ts { l' with reader := r } ∧
      l'.cursor = l.cursor ∧ l'.buffer.size ≤ l'.cursor ∧ ∀ t ∈ l'.buffer.back?, t.lexeme ≠ .eof := by
  induction fuel generalizing l with
  | zero => cases failed
  | succ fuel ih =>
    rw [Lookahead.fill] at failed
    split at failed
    · cases failed
    next outside =>
    split at failed
    · cases failed
    next going =>
    have going : ∀ t ∈ l.buffer.back?, t.lexeme ≠ .eof := by
      rintro ⟨lexeme, p⟩ isLast rfl
      exact going p isLast
    rcases read : l.reader.read with ⟨failure' | t, left⟩
    · rw [read] at failed
      cases failed
      exact ⟨l.reader, read, follows, rfl, Nat.not_lt.1 outside, going⟩
    · rw [read] at failed
      have later := ih (follows.push going read) failed
      exact later

/-- Whether a token is looked at or taken, the answer is the same. -/
theorem serve_eq_of_asks (asks : request.Asks) (l : Lookahead) :
    (l.serve request).1 = l.peek.1.map .token := by
  cases asks with
  | peek => rfl
  | next =>
    rcases peeked : l.peek with ⟨failure | t, left⟩
    · simp only [Lookahead.serve, Lookahead.next, peeked]
    · simp only [Lookahead.serve, Lookahead.next, peeked]

/-- A request that fails is one for a token, and fails as looking at the token does. -/
theorem peek_of_serve_fault (failed : l.serve request = (.error failure, l')) :
    l.peek = (.error failure, l') := by
  cases request with
  | peek | next =>
    rcases peeked : l.peek with ⟨failure' | t, left⟩
    · simp only [Lookahead.serve, Lookahead.next, peeked] at failed
      cases failed
      rfl
    · simp only [Lookahead.serve, Lookahead.next, peeked] at failed
      cases failed
  | mark => cases failed
  | reset place => cases failed

/-! ## The two kinds of faults -/

/-- Behind what it has kept, a lookahead answers with what its reader goes on with. -/
theorem offset_le_placeOf_peek (going : ∀ t ∈ l.buffer.back?, t.lexeme ≠ .eof)
    (behind : l.buffer.size ≤ l.cursor) :
    l.reader.position.offset ≤ (Tokens.placeOf l.peek.1).offset := by
  have follows : Follows l.ahead l := .reading going rfl
  obtain ⟨l', peeked, -, -⟩ := follows.peek
  have same : l.ahead.tokenAt l.cursor = l.reader.tokens.tokenAt (l.cursor - l.buffer.size) := by
    rw [Tokens.tokenAt, Tokens.tokenAt, ahead, List.getElem?_append_right (by simpa using behind),
      Array.length_toList]
  rw [peeked, same]
  exact l.reader.offset_le_placeOf _

/-- A lookahead that has failed at a character that starts no token follows the same tokens as before.
One that has met another fault goes on farther on. -/
theorem Follows.failed (follows : Follows ts l) (failed : l.serve request = (.error failure, l')) :
    ts.ending = .failed failure ∧ l'.cursor = l.cursor ∧
      ((failure.Stray ∧ Follows ts l') ∨
        (¬failure.Stray ∧ failure.position.offset < (Tokens.placeOf l'.peek.1).offset)) := by
  obtain ⟨r, read, follows', sameCursor, behind, going⟩ :=
    follows.fill_fault (peek_of_serve_fault failed)
  have whole := follows'.eq_of_going going
  rw [tokens_of_error read, List.append_nil] at whole
  refine ⟨by rw [whole], sameCursor, ?_⟩
  rcases read_fault read with ⟨stray, -, again⟩ | passed
  · refine .inl ⟨stray, .reading going ?_⟩
    rw [tokens_of_error again, List.append_nil]
    exact whole
  · exact .inr ⟨passed.other, Nat.lt_of_lt_of_le passed.passed (offset_le_placeOf_peek going behind)⟩

/-! ## Going on behind a fault -/

/-- A lookahead serves every request as the cursor does, those behind a fault too, when the only fault
to come is a character that starts no token. -/
theorem Follows.serve_stray (follows : Follows ts l)
    (stray : ∀ failure, ts.ending = .failed failure → failure.Stray) (request : Request) :
    ∃ l', l.serve request = ((ts.serve l.cursor request).1, l') ∧ Follows ts l' ∧
      l'.cursor = (ts.serve l.cursor request).2 := by
  obtain ⟨l', served, later⟩ := follows.serve request
  refine ⟨l', served, ?_⟩
  rcases answer : ts.serve l.cursor request with ⟨failure | reply, cursor⟩
  · rw [answer] at served
    obtain ⟨ending, sameCursor, ⟨-, follows'⟩ | ⟨other, -⟩⟩ := follows.failed served
    · exact ⟨follows', sameCursor.trans (Tokens.serve_fault answer).2.symm⟩
    · exact absurd (stray failure ending) other
  · rw [answer] at later
    exact later reply rfl

/-- All requests are answered as the cursor answers them, those behind a fault too. -/
theorem Follows.answers_eq (follows : Follows ts l)
    (stray : ∀ failure, ts.ending = .failed failure → failure.Stray) (requests : List Request) :
    answers Lookahead.serve l requests = answers ts.serve l.cursor requests := by
  induction requests generalizing l with
  | nil => rfl
  | cons request requests ih =>
    obtain ⟨l', served, follows', cursor⟩ := follows.serve_stray stray request
    rw [answers, served, answers, ih follows', cursor]

/-- A cursor at a fault answers every request for a token with it. -/
theorem answers_of_fault {cursor : Nat} (here : ts.tokenAt cursor = .error failure)
    {requests : List Request} (asks : ∀ request ∈ requests, request.Asks) :
    ∀ answer ∈ answers ts.serve cursor requests, answer = .error failure := by
  induction requests with
  | nil => exact nofun
  | cons request requests ih =>
    obtain ⟨asksFirst, asksLater⟩ := List.forall_mem_cons.1 asks
    have served : ts.serve cursor request = (.error failure, cursor) := by
      cases asksFirst with
      | peek => simp only [Tokens.serve, here, Except.map]
      | next => simp only [Tokens.serve, here]
    rw [answers, served]
    rintro answer (_ | ⟨_, later⟩)
    · rfl
    · exact ih asksLater answer later

/-! ## What a caller sees -/

/-- A request that fails leaves a lookahead as it was if and only if the fault is a character that starts
no token: then whatever is asked is answered as if the request had not been made, and asking for a token
raises that fault however often it is repeated.  Behind any other fault, an open string, a bad escape or
a number with two points, the next answer comes from farther on in the text: it is another token or
another fault. -/
theorem failed_lookahead (failed : l.serve request = (.error failure, l')) :
    (l'.Repeats failure ↔ failure.Stray) ∧
      (failure.Stray → ∀ requests,
        answers Lookahead.serve l' requests = answers Lookahead.serve l requests) ∧
      (¬failure.Stray → ∀ again : Request, again.Asks → ∃ answer,
        (l'.serve again).1 = answer.map .token ∧
          failure.position.offset < (Tokens.placeOf answer).offset) := by
  obtain ⟨ts, follows⟩ := l.exists_follows
  obtain ⟨ending, sameCursor, ⟨stray, follows'⟩ | ⟨other, farther⟩⟩ := follows.failed failed
  · have only : ∀ failure', ts.ending = .failed failure' → failure'.Stray := by
      rintro failure' isEnding
      rw [ending] at isEnding
      cases isEnding
      exact stray
    have here : ts.tokenAt l.cursor = .error failure := by
      obtain ⟨l'', served, -⟩ := follows.serve request
      rw [failed] at served
      exact (Tokens.serve_fault (Prod.ext (Prod.mk.inj served).1.symm rfl)).1
    refine ⟨iff_of_true (fun requests asks answer member => ?_) stray, fun _ requests => ?_,
      fun other => absurd stray other⟩
    · rw [follows'.answers_eq only, sameCursor] at member
      exact ⟨failure, answers_of_fault here asks answer member, rfl, rfl, rfl⟩
    · rw [follows'.answers_eq only, follows.answers_eq only, sameCursor]
  · refine ⟨iff_of_false (fun repeats => ?_) other, fun stray => absurd stray other,
      fun _ again asks => ⟨l'.peek.1, serve_eq_of_asks asks l', farther⟩⟩
    -- the fault reported when the token is asked for again lies farther on
    have asksOnce : ∀ request ∈ [Request.peek], request.Asks :=
      List.forall_mem_singleton.2 .peek
    obtain ⟨failure', raised, same⟩ := repeats [.peek] asksOnce _ List.mem_cons_self
    rw [serve_eq_of_asks .peek] at raised
    rcases peeked : l'.peek.1 with failure'' | t
    · rw [peeked] at raised farther
      cases raised
      rw [Tokens.placeOf, same.position] at farther
      exact Nat.lt_irrefl _ farther
    · rw [peeked] at raised
      cases raised

/-- A bad escape is met once: asked again, the lookahead goes on inside the string and answers a name.  A
character that starts no token is met however often it is asked for. -/
theorem failed_lookahead_escape :
    (∃ l', (ofText "\"a\\q\"").serve .peek =
        (.error ⟨.lexical (.invalidEscape 'q'), ⟨1, 3, 2⟩⟩, l') ∧
      ¬l'.Repeats ⟨.lexical (.invalidEscape 'q'), ⟨1, 3, 2⟩⟩ ∧
      (l'.serve .peek).1 = .ok (.token ⟨.ident "q", ⟨1, 4, 3⟩⟩)) ∧
    ∃ l', (ofText "  $").serve .next = (.error ⟨.lexical (.invalidToken '$'), ⟨1, 3, 2⟩⟩, l') ∧
      l'.Repeats ⟨.lexical (.invalidToken '$'), ⟨1, 3, 2⟩⟩ := by
  have escape : (ofText "\"a\\q\"").serve .peek =
      (.error ⟨.lexical (.invalidEscape 'q'), ⟨1, 3, 2⟩⟩, ((ofText "\"a\\q\"").serve .peek).2) := rfl
  have stray : (ofText "  $").serve .next =
      (.error ⟨.lexical (.invalidToken '$'), ⟨1, 3, 2⟩⟩, ((ofText "  $").serve .next).2) := rfl
  refine ⟨⟨_, escape, fun repeats => ?_, rfl⟩, _, stray, ?_⟩
  · obtain ⟨c, isStray⟩ := (failed_lookahead escape).1.1 repeats
    cases isStray
  · exact (failed_lookahead stray).1.2 ⟨'$', rfl⟩

end Lookahead

end Shiba

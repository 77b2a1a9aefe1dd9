import Shiba.Proofs.Stepwise.Extension
import Shiba.Token.Lookahead

/-!
# Buffered lookahead is a cursor

A lookahead reads a token when it is first asked for, keeps it, and may go back and forth among the
tokens it has kept.  None of that shows in its answers: they are those of a cursor that moves along the
whole sequence of tokens.

* `Tokens.serve` is the cursor.  Its state is a number and nothing else.
* `Lookahead.Follows` ties the buffer and the reader of a lookahead to the sequence: the buffer holds
  the first tokens, and the reader goes on behind them or has met the end of input.
* `Lookahead.replies_ofText`: all requests up to the first fault are answered alike, and the fault is
  met at the same request.
-/

namespace Shiba

/-! ## Requests and replies -/

namespace Lookahead

/-- What can be asked of a stream of tokens. -/
inductive Request where
  | peek
  | next
  | mark
  | reset (place : Nat)

/-- What a stream of tokens replies. -/
inductive Reply where
  | token (t : Token)
  | place (n : Nat)
  | done

/-- The replies to requests up to the first fault, and that fault if there is one. -/
def replies {σ : Type} (serve : σ → Request → Except Source.Failure Reply × σ) :
    σ → List Request → List Reply × Option Source.Failure
  | _, [] => ([], none)
  | s, request :: requests =>
    match serve s request with
    | (.ok reply, s) => (reply :: (replies serve s requests).1, (replies serve s requests).2)
    | (.error failure, _) => ([], some failure)

/-- A lookahead serves a request. -/
def serve (l : Lookahead) : Request → Except Source.Failure Reply × Lookahead
  | .peek => (l.peek.1.map .token, l.peek.2)
  | .next => (l.next.1.map .token, l.next.2)
  | .mark => (.ok (.place l.mark), l)
  | .reset place => (.ok .done, l.reset place)

end Lookahead

namespace Tokens

/-- The token at a place of a sequence.  Behind the last token there is the end of input, or the fault
that was met instead of it. -/
def tokenAt (ts : Tokens) (place : Nat) : Except Source.Failure Token :=
  match ts.list[place]?, ts.ending with
  | some t, _ => .ok t
  | none, .complete p => .ok ⟨.eof, p⟩
  | none, .failed failure => .error failure

/-- A cursor in a sequence serves a request: it passes a token that is not the end of input, and comes
back to any place. -/
def serve (ts : Tokens) (cursor : Nat) :
    Lookahead.Request → Except Source.Failure Lookahead.Reply × Nat
  | .peek => ((ts.tokenAt cursor).map .token, cursor)
  | .next =>
    match ts.tokenAt cursor with
    | .ok t => (.ok (.token t), if t.lexeme = .eof then cursor else cursor + 1)
    | .error failure => (.error failure, cursor)
  | .mark => (.ok (.place cursor), cursor)
  | .reset place => (.ok .done, place)

theorem tokenAt_of_getElem? {ts : Tokens} {place : Nat} {t : Token}
    (found : ts.list[place]? = some t) : ts.tokenAt place = .ok t := by
  rw [tokenAt, found]

theorem tokenAt_of_complete {ts : Tokens} {place : Nat} {p : Position}
    (behind : ts.list.length ≤ place) (complete : ts.ending = .complete p) :
    ts.tokenAt place = .ok ⟨.eof, p⟩ := by
  rw [tokenAt, List.getElem?_eq_none behind, complete]

theorem tokenAt_of_failed {ts : Tokens} {place : Nat} {failure : Source.Failure}
    (behind : ts.list.length ≤ place) (failed : ts.ending = .failed failure) :
    ts.tokenAt place = .error failure := by
  rw [tokenAt, List.getElem?_eq_none behind, failed]

end Tokens

/-! ## The buffer and the sequence -/

namespace Lookahead

/-- A lookahead follows a sequence of tokens: its buffer holds the first of them and its reader goes on
behind them, or its buffer holds them all with the end of input behind them. -/
inductive Follows (ts : Tokens) (l : Lookahead) : Prop
  | reading : (∀ t ∈ l.buffer.back?, t.lexeme ≠ .eof) →
    ts = ⟨l.buffer.toList ++ l.reader.tokens.list, l.reader.tokens.ending⟩ → Follows ts l
  | ended {p : Position} : ts.ending = .complete p → l.buffer.toList = ts.list ++ [⟨.eof, p⟩] →
    Follows ts l

variable {ts : Tokens} {l : Lookahead}

theorem follows_ofText (s : String) : Follows (Tokens.ofText s) (.ofText s) :=
  .reading nofun rfl

/-- The cursor may be anywhere. -/
theorem Follows.withCursor (follows : Follows ts l) (cursor : Nat) :
    Follows ts { l with cursor := cursor } := by
  cases follows with
  | reading going whole => exact .reading going whole
  | ended complete whole => exact .ended complete whole

/-- What is in the buffer is what stands in the sequence. -/
theorem Follows.tokenAt_of_getElem? (follows : Follows ts l) {place : Nat} {t : Token}
    (found : l.buffer[place]? = some t) : ts.tokenAt place = .ok t := by
  rw [← Array.getElem?_toList] at found
  cases follows with
  | reading _ whole =>
    apply Tokens.tokenAt_of_getElem?
    rw [whole, List.getElem?_append_left (List.getElem?_eq_some_iff.1 found).1]
    exact found
  | ended complete whole =>
    rw [whole] at found
    by_cases inside : place < ts.list.length
    · rw [List.getElem?_append_left inside] at found
      exact Tokens.tokenAt_of_getElem? found
    · have behind : ts.list.length ≤ place := Nat.not_lt.1 inside
      rw [List.getElem?_append_right behind] at found
      cases List.mem_singleton.1 (List.mem_of_getElem? found)
      exact Tokens.tokenAt_of_complete behind complete

/-- Behind the end of input there is nothing else. -/
theorem Follows.tokenAt_of_eof (follows : Follows ts l) {p : Position} {place : Nat}
    (ended : l.buffer.back? = some ⟨.eof, p⟩) (behind : l.buffer.size ≤ place) :
    ts.tokenAt place = .ok ⟨.eof, p⟩ := by
  cases follows with
  | reading going _ => exact absurd rfl (going _ ended)
  | ended complete whole =>
    rw [← Array.length_toList, whole, List.length_append] at behind
    rw [← Array.getLast?_toList, whole, List.getLast?_concat] at ended
    cases ended
    exact Tokens.tokenAt_of_complete (Nat.le_of_succ_le behind) complete

/-- A lookahead whose buffer does not end with the end of input is still reading. -/
theorem Follows.eq_of_going (follows : Follows ts l)
    (going : ∀ t ∈ l.buffer.back?, t.lexeme ≠ .eof) :
    ts = ⟨l.buffer.toList ++ l.reader.tokens.list, l.reader.tokens.ending⟩ := by
  cases follows with
  | reading _ whole => exact whole
  | @ended p _ whole =>
    have isLast : l.buffer.back? = some ⟨.eof, p⟩ := by
      rw [← Array.getLast?_toList, whole, List.getLast?_concat]
    exact absurd rfl (going _ isLast)

/-- One more token is read into the buffer. -/
theorem Follows.push {t : Token} {left : Reader} (follows : Follows ts l)
    (going : ∀ t ∈ l.buffer.back?, t.lexeme ≠ .eof) (read : l.reader.read = (.ok t, left)) :
    Follows ts { l with buffer := l.buffer.push t, reader := left } := by
  have whole := follows.eq_of_going going
  by_cases isEnd : t.lexeme = .eof
  · rw [Reader.tokens_of_eof read isEnd, List.append_nil] at whole
    refine .ended (p := t.position) (by rw [whole]) ?_
    rw [whole, Array.toList_push, ← isEnd]
  · rw [Reader.tokens_of_ok read isEnd] at whole
    refine .reading ?_ ?_
    · intro t' isLast
      rw [Array.back?_push] at isLast
      cases isLast
      exact isEnd
    · rw [whole, Array.toList_push, List.append_assoc]
      rfl

/-- Filling the buffer answers the token at the cursor, which stays where it is.  The induction is on
the number of tokens that may be read. -/
theorem Follows.fill {fuel : Nat} (follows : Follows ts l)
    (enough : l.cursor + 2 ≤ l.buffer.size + fuel) :
    ∃ l', l.fill fuel = (ts.tokenAt l.cursor, l') ∧ l'.cursor = l.cursor ∧
      ∀ t, ts.tokenAt l.cursor = .ok t → Follows ts l' := by
  induction fuel generalizing l with
  | zero =>
    have inside : l.cursor < l.buffer.size := by omega
    have found : l.buffer[l.cursor]? = some (l.buffer.getD l.cursor default) := by
      simp [Array.getD, inside]
    exact ⟨l, by rw [Lookahead.fill, follows.tokenAt_of_getElem? found], rfl, fun _ _ => follows⟩
  | succ fuel ih =>
    by_cases inside : l.cursor < l.buffer.size
    · have here := follows.tokenAt_of_getElem? (Array.getElem?_eq_getElem inside)
      exact ⟨l, by rw [Lookahead.fill, dif_pos inside, here], rfl, fun _ _ => follows⟩
    have behind : l.buffer.size ≤ l.cursor := Nat.not_lt.1 inside
    rw [Lookahead.fill, dif_neg inside]
    split
    · next p ended =>
      exact ⟨l, by rw [follows.tokenAt_of_eof ended behind], rfl, fun _ _ => follows⟩
    next going =>
    have going : ∀ t ∈ l.buffer.back?, t.lexeme ≠ .eof := by
      rintro ⟨lexeme, p⟩ isLast rfl
      exact going p isLast
    rcases read : l.reader.read with ⟨failure | t, left⟩
    · have whole := follows.eq_of_going going
      rw [Reader.tokens_of_error read, List.append_nil] at whole
      have failed : ts.tokenAt l.cursor = .error failure :=
        Tokens.tokenAt_of_failed (by rw [whole]; simpa using behind) (by rw [whole])
      refine ⟨{ l with reader := left }, by rw [failed], rfl, ?_⟩
      intro t isToken
      rw [failed] at isToken
      cases isToken
    · refine ih (follows.push going read) ?_
      change l.cursor + 2 ≤ (l.buffer.push t).size + fuel
      rw [Array.size_push]
      omega

theorem Follows.peek (follows : Follows ts l) :
    ∃ l', l.peek = (ts.tokenAt l.cursor, l') ∧ l'.cursor = l.cursor ∧
      ∀ t, ts.tokenAt l.cursor = .ok t → Follows ts l' :=
  follows.fill (by omega)

/-! ## Replies -/

/-- A lookahead that follows a sequence serves a request as the cursor does, and follows it still
unless a fault was met. -/
theorem Follows.serve (follows : Follows ts l) (request : Request) :
    ∃ l', l.serve request = ((ts.serve l.cursor request).1, l') ∧
      ∀ reply, (ts.serve l.cursor request).1 = .ok reply →
        Follows ts l' ∧ l'.cursor = (ts.serve l.cursor request).2 := by
  cases request with
  | peek =>
    obtain ⟨l', peeked, cursor, later⟩ := follows.peek
    refine ⟨l', by rw [Lookahead.serve, peeked]; rfl, fun reply replied => ?_⟩
    cases here : ts.tokenAt l.cursor with
    | ok t => exact ⟨later t here, cursor⟩
    | error failure =>
      rw [Tokens.serve, here] at replied
      cases replied
  | next =>
    obtain ⟨l', peeked, cursor, later⟩ := follows.peek
    cases here : ts.tokenAt l.cursor with
    | ok t =>
      rw [here] at peeked
      have follows' := later t here
      simp only [Lookahead.serve, Lookahead.next, peeked, Tokens.serve, here]
      refine ⟨_, rfl, fun _ _ => ?_⟩
      split
      · exact ⟨follows', cursor⟩
      · exact ⟨follows'.withCursor _, congrArg (· + 1) cursor⟩
    | error failure =>
      rw [here] at peeked
      simp only [Lookahead.serve, Lookahead.next, peeked, Tokens.serve, here]
      exact ⟨l', rfl, nofun⟩
  | mark => exact ⟨l, rfl, fun _ _ => ⟨follows, rfl⟩⟩
  | reset place => exact ⟨l.reset place, rfl, fun _ _ => ⟨follows.withCursor place, rfl⟩⟩

/-- Requests are answered as the cursor answers them, up to the first fault. -/
theorem Follows.replies_eq (follows : Follows ts l) (requests : List Request) :
    replies Lookahead.serve l requests = replies ts.serve l.cursor requests := by
  induction requests generalizing l with
  | nil => rfl
  | cons request requests ih =>
    obtain ⟨l', served, later⟩ := follows.serve request
    rcases answer : ts.serve l.cursor request with ⟨failure | reply, cursor⟩
    · rw [answer] at served
      rw [replies, served, replies, answer]
    · rw [answer] at served later
      obtain ⟨follows', same⟩ := later reply rfl
      rw [replies, served, replies, answer]
      dsimp only
      rw [ih follows', same]

/-- A lookahead answers as a cursor in the tokens of the text does, whatever is asked and in whatever
order: when tokens are read, and how often the stream goes back, makes no difference, and the first
fault is met at the same request. -/
theorem replies_ofText (s : String) (requests : List Request) :
    replies Lookahead.serve (.ofText s) requests = replies (Tokens.ofText s).serve 0 requests :=
  (follows_ofText s).replies_eq requests

end Lookahead

end Shiba

import Shiba.Token.Reader

/-!
# Buffered lookahead

A `Lookahead` reads tokens on demand and keeps them, so that a caller can look at the next token
without taking it, remember a place and come back to it.  A token is read from the text when it is
first asked for; the end of input, once read, is answered for ever.
-/

namespace Shiba

/-- Tokens read so far, a cursor among them and the reader for the tokens to come. -/
structure Lookahead where
  buffer : Array Token
  cursor : Nat
  reader : Reader

namespace Lookahead

/-- A lookahead at the start of a text. -/
def ofText (s : String) : Lookahead := ⟨#[], 0, .ofText s⟩

/-- The place of the cursor, to come back to. -/
def mark (l : Lookahead) : Nat := l.cursor

/-- Comes back to a marked place. -/
def reset (l : Lookahead) (place : Nat) : Lookahead := { l with cursor := place }

/-- Reads tokens into the buffer, at most `fuel` of them, until the cursor is inside it. -/
def fill : (fuel : Nat) → Lookahead → Except Source.Failure Token × Lookahead
  | 0, l => (.ok (l.buffer.getD l.cursor default), l)
  | fuel + 1, l =>
    if h : l.cursor < l.buffer.size then (.ok l.buffer[l.cursor], l)
    else
      match l.buffer.back? with
      | some ⟨.eof, p⟩ => (.ok ⟨.eof, p⟩, l)
      | _ =>
        match l.reader.read with
        | (.ok t, left) => fill fuel { l with buffer := l.buffer.push t, reader := left }
        | (.error failure, left) => (.error failure, { l with reader := left })

/-- The token at the cursor. -/
def peek (l : Lookahead) : Except Source.Failure Token × Lookahead :=
  l.fill (l.cursor + 2 - l.buffer.size)

/-- The token at the cursor, which is passed unless it is the end of input. -/
def next (l : Lookahead) : Except Source.Failure Token × Lookahead :=
  match l.peek with
  | (.ok t, l) => (.ok t, if t.lexeme = .eof then l else { l with cursor := l.cursor + 1 })
  | failed => failed

end Lookahead

end Shiba

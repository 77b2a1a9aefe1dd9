/-!
# Positions in a source text

A `Position` names a place between two characters of one text: its line and column, which count
from one, and its offset, which counts from zero.  All three count characters.  A `Location` is a
position together with the name of the module whose text it lies in.

The line and column of a place are determined by the text before it (`Position.afterAll` from
`Position.start`), so a reader only ever moves a position forward by the characters it passes.
-/

namespace Shiba

/-- A place in a text. -/
structure Position where
  line : Nat
  column : Nat
  offset : Nat
deriving DecidableEq, Inhabited

namespace Position

/-- The place before the first character. -/
def start : Position := ⟨1, 1, 0⟩

/-- The place reached by passing one character: a newline starts a new line. -/
def after (p : Position) (c : Char) : Position :=
  if c = '\n' then ⟨p.line + 1, 1, p.offset + 1⟩ else ⟨p.line, p.column + 1, p.offset + 1⟩

/-- The place reached by passing all of `cs`. -/
def afterAll (p : Position) (cs : List Char) : Position := cs.foldl after p

@[simp] theorem afterAll_nil (p : Position) : p.afterAll [] = p := rfl

@[simp] theorem afterAll_cons (p : Position) (c : Char) (cs : List Char) :
    p.afterAll (c :: cs) = (p.after c).afterAll cs := rfl

theorem afterAll_append (p : Position) (cs ds : List Char) :
    p.afterAll (cs ++ ds) = (p.afterAll cs).afterAll ds := by
  simp [afterAll]

@[simp] theorem offset_after (p : Position) (c : Char) : (p.after c).offset = p.offset + 1 := by
  unfold after; split <;> rfl

/-- Passing characters moves the offset by their number. -/
@[simp] theorem offset_afterAll (p : Position) (cs : List Char) :
    (p.afterAll cs).offset = p.offset + cs.length := by
  induction cs generalizing p with
  | nil => simp
  | cons c cs ih => simp [ih]; omega

end Position

/-- A place in the text of a named module. -/
structure Location where
  module : String
  position : Position
deriving DecidableEq, Inhabited

/-- The written form `module:line:column`. -/
def Location.text (l : Location) : String :=
  l.module ++ ":" ++ toString l.position.line ++ ":" ++ toString l.position.column

end Shiba

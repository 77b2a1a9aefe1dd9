import Shiba.Value.Heap

/-!
# Sequences

Strings and lists share one view: a string is the sequence of its characters, each a string by
itself, and a list is the sequence of its boxes.  Indexing, slicing, unpacking and loops go
through this view.
-/

namespace Shiba

/-- The common view of strings and lists. -/
inductive Sequence where
  | text (chars : Array Char)
  | boxes (items : Array BoxId)

namespace Sequence

/-- The number of elements. -/
def size : Sequence → Nat
  | .text chars => chars.size
  | .boxes items => items.size

/-- A value as a sequence. -/
def ofValue (v : Value) : HeapM Sequence :=
  match v with
  | .str s => return .text s.toList.toArray
  | .list l => return .boxes ((← get).items l)
  | v => HeapM.raise (.invariant (.notASequence v.kind))

/-- The box of an element: the element itself in a list, a new box for a character of a string.
The index has to be one of the sequence. -/
def index (s : Sequence) (i : Nat) : HeapM BoxId :=
  match s with
  | .text chars =>
    match chars[i]? with
    | some c => HeapM.alloc (.str (String.singleton c))
    | none => HeapM.raise (.invariant (.outOfRange i chars.size))
  | .boxes items =>
    match items[i]? with
    | some b => return b
    | none => HeapM.raise (.invariant (.outOfRange i items.size))

/-- The elements from `first` on and before `last`, in new boxes. -/
def slice (s : Sequence) (first last : Nat) : HeapM Value :=
  match s with
  | .text chars => return .str (String.ofList (chars.extract first last).toList)
  | .boxes items => do
    let copies ← (items.extract first last).toList.mapM HeapM.copy
    return .list (← HeapM.allocList copies.toArray)

/-- The boxes of all elements. -/
def elements : Sequence → HeapM (List BoxId)
  | .text chars => chars.toList.mapM fun c => HeapM.alloc (.str (String.singleton c))
  | .boxes items => return items.toList

end Sequence

end Shiba

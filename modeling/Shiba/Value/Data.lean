import Shiba.Value.Dictionary

/-!
# Plain data

`Data` is a value as a tree, without boxes: what a value looks like to someone who only reads
it.  `HeapM.store` puts a tree into the heap, `Heap.data` reads the tree a value stands for.
Values that are no data, such as functions, show up in a tree by their kind and written form
only.
-/

namespace Shiba

/-- Trees of data; the entries of a dictionary are in insertion order. -/
inductive Data where
  | nil
  | bool (b : Bool)
  | int (n : Int64)
  | float (x : Float)
  | str (s : String)
  | list (elements : List Data)
  | dict (entries : List (Data × Data))
  | other (kind : Kind) (text : String)
deriving Inhabited

namespace HeapM

mutual

/-- Puts a tree into the heap.  The entries of a dictionary are filed one after another. -/
def store (limit : Nat) : Data → HeapM Value
  | .nil => return .nil
  | .bool b => return .bool b
  | .int n => return .int n
  | .float x => return .float x
  | .str s => return .str s
  | .list elements => do
    let boxes ← storeAll limit elements
    return .list (← allocList boxes.toArray)
  | .dict entries => do
    let d ← allocDict .empty
    storeEntries limit d entries
    return .dict d
  | .other _ _ => return .nil

/-- Puts trees into boxes. -/
def storeAll (limit : Nat) : List Data → HeapM (List BoxId)
  | [] => return []
  | x :: xs => do
    let b ← alloc (← store limit x)
    let bs ← storeAll limit xs
    return b :: bs

/-- Files trees in a dictionary. -/
def storeEntries (limit : Nat) (d : DictId) : List (Data × Data) → HeapM Unit
  | [] => return
  | (k, v) :: rest => do
    let key ← alloc (← store limit k)
    let value ← alloc (← store limit v)
    dictSet limit d key value
    storeEntries limit d rest

end

end HeapM

/-- The tree a value stands for, if it is nested no deeper than the limit. -/
def Heap.data (h : Heap) : (limit : Nat) → Value → Option Data
  | 0, _ => none
  | limit + 1, v =>
    let inside (b : BoxId) : Option Data := data h limit (h.value b)
    match v with
    | .nil => some .nil
    | .bool b => some (.bool b)
    | .int n => some (.int n)
    | .float x => some (.float x)
    | .str s => some (.str s)
    | .list l => do
      let elements ← (h.items l).toList.mapM inside
      return .list elements
    | .dict d => do
      let entries ← (h.dictionary d).values.mapM fun e => do
        let key ← inside e.key
        let value ← inside e.value
        return (key, value)
      return .dict entries
    | v => (h.canonical (limit + 1) v).map (.other v.kind)

end Shiba

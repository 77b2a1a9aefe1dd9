import Shiba.Value.Heap
import Shiba.Decimal.Notation

/-!
# The written form of values

`Heap.canonical` is the form in which a value stands inside containers, with strings quoted;
`Heap.display` is the form a program prints, where a string by itself is its own text.  Both
follow references, so they are bounded: a value nested deeper than the limit, as every cyclic
value is, has no written form.
-/

namespace Shiba

/-- Floats are written with a point from a ten-thousandth up to sixteen digits before the point, and
with an exponent of at least two digits elsewhere. -/
def floatLayout : Decimal.Layout := ⟨-4, 15, 2⟩

/-- The written form of an integer. -/
def intText (n : Int64) : String := toString n.toInt

namespace Heap

/-- The form of a value inside containers. -/
def canonical (h : Heap) : (limit : Nat) → Value → Option String
  | 0, _ => none
  | limit + 1, v =>
    let inside (b : BoxId) : Option String := canonical h limit (h.value b)
    match v with
    | .nil => some "nil"
    | .bool b => some (if b then "true" else "false")
    | .int n => some (intText n)
    | .float x => some (floatLayout.write x)
    | .str s => some (Text.quote s)
    | .list l => do
      let parts ← (h.items l).toList.mapM inside
      return "[" ++ ", ".intercalate parts ++ "]"
    | .dict d => do
      let parts ← (h.dictionary d).values.mapM fun e => do
        let key ← inside e.key
        let value ← inside e.value
        return key ++ ": " ++ value
      return "\x7b" ++ ", ".intercalate parts ++ "\x7d"
    | .struct i => do
      let parts ← (h.instanceAt i).fields.entries.mapM fun e => do
        let value ← inside e.2
        return e.1 ++ ": " ++ value
      return h.structName i ++ "\x7b" ++ ", ".intercalate parts ++ "\x7d"
    | .function f => some ("<func " ++ (h.function f).name ++ ">")
    | .method f receiver =>
      some ("<method " ++ h.structName receiver ++ "." ++ (h.function f).name ++ ">")
    | .builtin b => some ("<builtin " ++ b.name ++ ">")
    | .module _ name => some ("<module " ++ name ++ ">")
    | .structDef s => some ("<struct " ++ (h.structDef s).name ++ ">")

/-- The form of a value that a program prints. -/
def display (h : Heap) (limit : Nat) : Value → Option String
  | .str s => some s
  | v => h.canonical limit v

/-- What a value is filed under as a key of a dictionary. -/
def key (h : Heap) (limit : Nat) (v : Value) : Option Key :=
  (h.canonical limit v).map fun text => ⟨v.kind, text⟩

end Heap

end Shiba

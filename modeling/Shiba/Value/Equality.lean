import Shiba.Value.Text

/-!
# Equality of values

Values of different kinds are never equal.  Scalars are equal by value, lists element by
element, dictionaries when they have equally many entries and equal values under the same keys,
instances when they have the same definition and equal fields, and all else by identity.  Like
the written form, equality follows references and is bounded.  Instances of one definition have
the same fields; a field that one of them lacks would be a failure of the machine.
-/

namespace Shiba.Heap

/-- Whether two values are equal. -/
def equal (h : Heap) : (limit : Nat) → Value → Value → Except Stop Bool
  | 0, _, _ => .error .tooDeep
  | limit + 1, v, w =>
    let inside (a b : BoxId) : Except Stop Bool := equal h limit (h.value a) (h.value b)
    match v, w with
    | .nil, .nil => .ok true
    | .bool a, .bool b => .ok (a = b)
    | .int a, .int b => .ok (a = b)
    | .float a, .float b => .ok (a == b)
    | .str a, .str b => .ok (a = b)
    | .list a, .list b =>
      let xs := (h.items a).toList
      let ys := (h.items b).toList
      if xs.length ≠ ys.length then .ok false
      else (xs.zip ys).allM fun e => inside e.1 e.2
    | .dict a, .dict b =>
      let m := h.dictionary a
      let n := h.dictionary b
      if m.size ≠ n.size then .ok false
      else m.entries.allM fun e =>
        match n.get? e.1 with
        | some other => inside e.2.value other.value
        | none => .ok false
    | .struct a, .struct b =>
      let i := h.instanceAt a
      let j := h.instanceAt b
      if i.definition ≠ j.definition then .ok false
      else i.fields.entries.allM fun e =>
        match j.fields.get? e.1 with
        | some other => inside e.2 other
        | none => .error (.ofCause (.invariant (.missingField e.1)))
    | .function a, .function b => .ok (a = b)
    | .method f a, .method g b => .ok (f = g ∧ a = b)
    | .builtin a, .builtin b => .ok (a = b)
    | .module a _, .module b _ => .ok (a = b)
    | .structDef a, .structDef b => .ok (a = b)
    | _, _ => .ok false

end Shiba.Heap

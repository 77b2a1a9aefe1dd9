import Shiba.Value.Heap

/-!
# Deep copies

Cloning a value makes new boxes, lists, dictionaries and instances for everything it contains.  The
entries of a cloned dictionary stay filed under the same keys.  Functions, modules and struct
definitions are shared.
-/

namespace Shiba.HeapM

section

variable (inside : BoxId → HeapM BoxId)

/-- A new list whose elements are copied by `inside`. -/
def cloneList (l : ListId) : HeapM Value := do
  let items ← ((← get).items l).toList.mapM inside
  return .list (← allocList items.toArray)

/-- A new dictionary whose keys and values are copied by `inside`. -/
def cloneDict (d : DictId) : HeapM Value := do
  let entries ← ((← get).dictionary d).entries.mapM fun e => do
    let key ← inside e.2.key
    let value ← inside e.2.value
    return (e.1, Entry.mk key value)
  return .dict (← allocDict ⟨entries⟩)

/-- A new instance whose fields are copied by `inside`. -/
def cloneInstance (i : InstanceId) : HeapM Value := do
  let shape := (← get).instanceAt i
  let fields ← shape.fields.entries.mapM fun e => do
    let value ← inside e.2
    return (e.1, value)
  return .struct (← allocInstance ⟨shape.definition, ⟨fields⟩⟩)

end

/-- A deep copy of a value nested no deeper than the limit. -/
def cloneValue : (limit : Nat) → Value → HeapM Value
  | 0, _ => throw .tooDeep
  | limit + 1, v =>
    let inside (b : BoxId) : HeapM BoxId := do alloc (← cloneValue limit (← read b))
    match v with
    | .list l => cloneList inside l
    | .dict d => cloneDict inside d
    | .struct i => cloneInstance inside i
    | v => return v

/-- A new box with a deep copy of what is in a box. -/
def clone (limit : Nat) (b : BoxId) : HeapM BoxId := do
  alloc (← cloneValue limit (← read b))

end Shiba.HeapM

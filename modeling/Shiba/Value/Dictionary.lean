import Shiba.Value.Clone
import Shiba.Value.Text

/-!
# Dictionaries

A dictionary maps values to values.  A key is filed under its kind and canonical form, so keys
that look alike are the same key.  Filing a new key keeps a deep copy of it; filing a known key
keeps the key that is there, and its place, and replaces the value box.
-/

namespace Shiba.HeapM

/-- What the value in a box is filed under. -/
def keyOf (limit : Nat) (b : BoxId) : HeapM Key := do
  let v ← read b
  bounded fun h => h.key limit v

/-- The value box filed under a key. -/
def dictGet? (limit : Nat) (d : DictId) (key : BoxId) : HeapM (Option BoxId) := do
  let k ← keyOf limit key
  return (((← get).dictionary d).get? k).map (·.value)

/-- Files a value box under a key. -/
def dictSet (limit : Nat) (d : DictId) (key value : BoxId) : HeapM Unit := do
  let k ← keyOf limit key
  match ((← get).dictionary d).get? k with
  | some entry => modify fun h => h.setDictionary d ((h.dictionary d).insert k ⟨entry.key, value⟩)
  | none =>
    let kept ← clone limit key
    modify fun h => h.setDictionary d ((h.dictionary d).insert k ⟨kept, value⟩)

/-- Removes a key and answers whether it was there. -/
def dictDelete (limit : Nat) (d : DictId) (key : BoxId) : HeapM Bool := do
  let k ← keyOf limit key
  if ((← get).dictionary d).contains k then
    modify fun h => h.setDictionary d ((h.dictionary d).erase k)
    return true
  else return false

/-- Stops because a key is not in a dictionary. -/
def keyNotFound {α : Type} (limit : Nat) (container key : BoxId) : HeapM α := do
  let k ← read key
  let shown ← bounded fun h => h.display limit k
  raise (.keyNotFound (← read container) k shown)

end Shiba.HeapM

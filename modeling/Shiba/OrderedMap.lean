/-!
# Maps in insertion order

An `OrderedMap` is a finite map that remembers in which order its keys came in: binding a key
anew keeps its place, removing a key and binding it again moves it to the end.  It is the shape
of the language's dictionaries, of the names of a scope level, of the fields of a struct and of
the registry of modules.
-/

namespace Shiba

/-- A finite map in insertion order. -/
structure OrderedMap (α β : Type) where
  entries : List (α × β)

namespace OrderedMap

variable {α β : Type}

/-- The map without entries. -/
def empty : OrderedMap α β := ⟨[]⟩

instance : Inhabited (OrderedMap α β) := ⟨empty⟩

/-- The number of entries. -/
def size (m : OrderedMap α β) : Nat := m.entries.length

/-- The keys in order. -/
def keys (m : OrderedMap α β) : List α := m.entries.map (·.1)

/-- The values in the order of their keys. -/
def values (m : OrderedMap α β) : List β := m.entries.map (·.2)

variable [DecidableEq α]

/-- What a key is bound to in a list of entries. -/
def findEntry (a : α) : List (α × β) → Option β
  | [] => none
  | (a', b) :: rest => if a' = a then some b else findEntry a rest

/-- What a key is bound to. -/
def get? (m : OrderedMap α β) (a : α) : Option β := findEntry a m.entries

/-- Whether a key is bound. -/
def contains (m : OrderedMap α β) (a : α) : Bool := (m.get? a).isSome

/-- Binds a key in a list of entries: in its place when it is there, else at the end. -/
def insertEntry (a : α) (b : β) : List (α × β) → List (α × β)
  | [] => [(a, b)]
  | (a', b') :: rest => if a' = a then (a', b) :: rest else (a', b') :: insertEntry a b rest

/-- Binds a key: in its place when it is bound already, else at the end. -/
def insert (m : OrderedMap α β) (a : α) (b : β) : OrderedMap α β := ⟨insertEntry a b m.entries⟩

/-- Removes a key. -/
def erase (m : OrderedMap α β) (a : α) : OrderedMap α β := ⟨m.entries.filter (·.1 ≠ a)⟩

/-- Binds the entries of a list one after another. -/
def insertMany (m : OrderedMap α β) (entries : List (α × β)) : OrderedMap α β :=
  entries.foldl (fun m e => m.insert e.1 e.2) m

/-- The map of a list of entries, bound one after another. -/
def ofList (entries : List (α × β)) : OrderedMap α β := empty.insertMany entries

@[simp] theorem get?_empty (a : α) : (empty : OrderedMap α β).get? a = none := rfl

theorem findEntry_insertEntry (a a' : α) (b : β) (entries : List (α × β)) :
    findEntry a' (insertEntry a b entries) = if a' = a then some b else findEntry a' entries := by
  induction entries with
  | nil => by_cases h : a = a' <;> simp [insertEntry, findEntry, h, eq_comm]
  | cons e entries ih => grind [insertEntry, findEntry]

/-- A key just bound is found, and the others are found as before. -/
theorem get?_insert (m : OrderedMap α β) (a a' : α) (b : β) :
    (m.insert a b).get? a' = if a' = a then some b else m.get? a' :=
  findEntry_insertEntry a a' b m.entries

theorem keys_insertEntry (a : α) (b : β) (entries : List (α × β)) :
    (insertEntry a b entries).map (·.1) =
      if a ∈ entries.map (·.1) then entries.map (·.1) else entries.map (·.1) ++ [a] := by
  induction entries with
  | nil => simp [insertEntry]
  | cons e entries ih =>
    obtain ⟨k, v⟩ := e
    by_cases hk : k = a
    · simp [insertEntry, hk]
    · have hk' : ¬ a = k := fun h => hk h.symm
      by_cases hm : a ∈ entries.map (·.1)
      · rw [if_pos hm] at ih
        simp [insertEntry, hk, ih, hm]
      · rw [if_neg hm] at ih
        simp only [insertEntry, hk, if_false, List.map_cons, ih, List.mem_cons, hk', hm, or_self,
          List.cons_append]

/-- A new key comes in at the end, a bound one keeps its place. -/
theorem keys_insert (m : OrderedMap α β) (a : α) (b : β) :
    (m.insert a b).keys = if a ∈ m.keys then m.keys else m.keys ++ [a] :=
  keys_insertEntry a b m.entries

/-- Removing a key leaves the others in their order. -/
theorem keys_erase (m : OrderedMap α β) (a : α) : (m.erase a).keys = m.keys.filter (· ≠ a) := by
  simp [erase, keys, List.filter_map, Function.comp_def]

end OrderedMap

end Shiba

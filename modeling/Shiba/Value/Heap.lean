import Shiba.Error
import Shiba.OrderedMap
import Shiba.Stmt.Basic

/-!
# The heap

The heap holds everything a value can refer to.  Boxes are mutable: writing a box is seen by
everyone who holds it.  Dictionaries are mutable too.  A list is a fixed sequence of boxes, an
instance a fixed map from field names to boxes; they change only through their boxes.  Nothing
is ever taken away, so a number once given out stays valid.

`HeapM` is the monad of operations that touch nothing but the heap and can stop.
-/

namespace Shiba

/-- A user-defined function.  It always runs in the module that defined it. -/
structure Function where
  module : ModuleId
  name : String
  params : List String
  body : Block

/-- A struct definition. -/
structure StructDef where
  name : String
  fields : List String
  methods : OrderedMap String FunctionId

instance : Inhabited Function := ⟨⟨default, "", [], []⟩⟩

instance : Inhabited StructDef := ⟨⟨"", [], .empty⟩⟩

/-- The written form of a struct definition. -/
def StructDef.text (s : StructDef) : String :=
  "\x7b" ++ s.name ++ ": vars: " ++ Text.inspectAll s.fields ++ ", defs: " ++
    Text.inspectAll s.methods.keys ++ "\x7d"

/-- An instance of a struct. -/
structure Instance where
  definition : StructId
  fields : OrderedMap String BoxId
deriving Inhabited

/-- An entry of a dictionary: the box of the key it was made with, and the box of its value. -/
structure Entry where
  key : BoxId
  value : BoxId

/-- A dictionary: entries by what their keys are filed under. -/
abbrev Dictionary := OrderedMap Key Entry

/-- Everything a value can refer to. -/
structure Heap where
  boxes : Array Value
  lists : Array (Array BoxId)
  dicts : Array Dictionary
  instances : Array Instance
  functions : Array Function
  structs : Array StructDef

namespace Heap

/-- The heap with nothing in it. -/
def empty : Heap := ⟨#[], #[], #[], #[], #[], #[]⟩

/-- The value in a box. -/
def value (h : Heap) (b : BoxId) : Value := h.boxes.getD b.index .nil

/-- The boxes of a list. -/
def items (h : Heap) (l : ListId) : Array BoxId := h.lists.getD l.index #[]

/-- A dictionary. -/
def dictionary (h : Heap) (d : DictId) : Dictionary := h.dicts.getD d.index .empty

/-- A struct instance. -/
def instanceAt (h : Heap) (i : InstanceId) : Instance := h.instances.getD i.index default

/-- A user-defined function. -/
def function (h : Heap) (f : FunctionId) : Function := h.functions.getD f.index default

/-- A struct definition. -/
def structDef (h : Heap) (s : StructId) : StructDef := h.structs.getD s.index default

/-- The name of the struct an instance belongs to. -/
def structName (h : Heap) (i : InstanceId) : String :=
  (h.structDef (h.instanceAt i).definition).name

/-- The name of the type of a value: the struct's name for an instance, else the kind. -/
def typeName (h : Heap) : Value → String
  | .struct i => h.structName i
  | v => v.kind.text

/-- Whether a value counts as true: nil, zero and whatever is empty do not. -/
def truthy (h : Heap) : Value → Bool
  | .nil => false
  | .bool b => b
  | .int n => n ≠ 0
  | .float x => !(x == 0.0)
  | .str s => !s.isEmpty
  | .list l => !(h.items l).isEmpty
  | .dict d => 0 < (h.dictionary d).size
  | _ => true

/-- The heap with a box overwritten. -/
def write (h : Heap) (b : BoxId) (v : Value) : Heap :=
  { h with boxes := h.boxes.setIfInBounds b.index v }

/-- The heap with a dictionary replaced. -/
def setDictionary (h : Heap) (d : DictId) (m : Dictionary) : Heap :=
  { h with dicts := h.dicts.setIfInBounds d.index m }

end Heap

/-- Operations on the heap that can stop. -/
abbrev HeapM := ExceptT Stop (StateM Heap)

namespace HeapM

/-- Stops for a cause whose place is not known yet. -/
def raise {α : Type} (cause : Cause) : HeapM α := throw (.ofCause cause)

/-- The answer of a bounded traversal, which stops when it went too deep. -/
def bounded {α : Type} (f : Heap → Option α) : HeapM α := do
  match f (← get) with
  | some a => return a
  | none => throw .tooDeep

/-- The answer of a traversal that can stop by itself. -/
def answer {α : Type} (f : Heap → Except Stop α) : HeapM α := do
  MonadExcept.ofExcept (f (← get))

/-- A new box. -/
def alloc (v : Value) : HeapM BoxId :=
  modifyGet fun h => (⟨h.boxes.size⟩, { h with boxes := h.boxes.push v })

/-- The value in a box. -/
def read (b : BoxId) : HeapM Value := return (← get).value b

/-- Overwrites a box. -/
def write (b : BoxId) (v : Value) : HeapM Unit := modify fun h => h.write b v

/-- A new box with the same value. -/
def copy (b : BoxId) : HeapM BoxId := do alloc (← read b)

/-- A new list of boxes. -/
def allocList (items : Array BoxId) : HeapM ListId :=
  modifyGet fun h => (⟨h.lists.size⟩, { h with lists := h.lists.push items })

/-- A new dictionary. -/
def allocDict (m : Dictionary) : HeapM DictId :=
  modifyGet fun h => (⟨h.dicts.size⟩, { h with dicts := h.dicts.push m })

/-- A new struct instance. -/
def allocInstance (i : Instance) : HeapM InstanceId :=
  modifyGet fun h => (⟨h.instances.size⟩, { h with instances := h.instances.push i })

/-- A new function. -/
def allocFunction (f : Function) : HeapM FunctionId :=
  modifyGet fun h => (⟨h.functions.size⟩, { h with functions := h.functions.push f })

/-- A new struct definition. -/
def allocStruct (s : StructDef) : HeapM StructId :=
  modifyGet fun h => (⟨h.structs.size⟩, { h with structs := h.structs.push s })

end HeapM

end Shiba

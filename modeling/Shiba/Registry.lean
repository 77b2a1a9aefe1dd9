import Shiba.Scope
import Shiba.Text.Path
import Shiba.Value.Text

/-!
# Modules and their registry

A module is a named text in a directory, with the scope of what it defines.  The registry finds
a module by its key, the path made of its directory and name.  Operations on a module act on the
module registered under its key; when a key is registered again, that is the later one.
-/

namespace Shiba

/-- A module.  Its key is what it is registered under. -/
structure Module where
  name : String
  directory : String
  content : String
  scope : Scope BoxId StructId
  key : String := Path.join directory name
  key_eq : key = Path.join directory name := by rfl

namespace Module

/-- The directory of modules that no file holds. -/
def hostDirectory : String := "<host>"

/-- A module with a text of its own. -/
def ofSource (name directory content : String) : Module where
  name := name
  directory := directory
  content := content
  scope := .empty

/-- A module whose top level holds the given objects. -/
def ofObjects (name : String) (objs : List (String × BoxId)) : Module where
  name := name
  directory := hostDirectory
  content := ""
  scope := objs.foldl (fun s e => s.setObj e.1 e.2) .empty

instance : Inhabited Module := ⟨.ofSource "" "" ""⟩

/-- How a module is shown. -/
def text (m : Module) : String := "<Module " ++ m.key ++ ">"

end Module

/-- All modules of a run, and those of them that are registered. -/
structure Registry where
  modules : Array Module
  keys : OrderedMap String ModuleId

namespace Registry

/-- The registry without modules. -/
def empty : Registry := ⟨#[], .empty⟩

/-- A module by its number. -/
def module (r : Registry) (m : ModuleId) : Module := r.modules.getD m.index default

/-- Adds a module without registering it. -/
def add (r : Registry) (m : Module) : ModuleId × Registry :=
  (⟨r.modules.size⟩, { r with modules := r.modules.push m })

/-- Registers a module under its key. -/
def register (r : Registry) (m : ModuleId) : Registry :=
  { r with keys := r.keys.insert (r.module m).key m }

/-- The module registered under a key. -/
def find? (r : Registry) (key : String) : Option ModuleId := r.keys.get? key

/-- The registered module with the same key as `m`. -/
def resolve (r : Registry) (m : ModuleId) : Except Invariant ModuleId :=
  let key := (r.module m).key
  match r.find? key with
  | some found => .ok found
  | none => .error (.moduleUndefined key)

/-- The registry with the scope of a module changed. -/
def modifyScope (r : Registry) (m : ModuleId)
    (f : Scope BoxId StructId → Scope BoxId StructId) : Registry :=
  { r with modules := r.modules.modify m.index fun m => { m with scope := f m.scope } }

/-- The lines that show a module's top level. -/
def moduleLines (h : Heap) (limit : Nat) (key : String) (m : Module) : Option (List String) := do
  let objs ← m.scope.root.objs.names.entries.mapM fun e => do
    let shown ← h.canonical limit (h.value e.2)
    return "    " ++ e.1 ++ ": " ++ shown ++ ","
  let structs := m.scope.root.structs.names.entries.map fun e =>
    "    " ++ e.1 ++ ": " ++ (h.structDef e.2).text ++ ","
  return [key ++ ": \x7b", "  global: \x7b"] ++ objs ++ ["  \x7d", "  structs: \x7b"] ++ structs ++
    ["  \x7d", "\x7d"]

/-- All registered modules with what their top levels define. -/
def text (r : Registry) (h : Heap) (limit : Nat) : Option String := do
  let lines ← r.keys.entries.mapM fun e => moduleLines h limit e.1 (r.module e.2)
  return "\n".intercalate lines.flatten

end Registry

end Shiba

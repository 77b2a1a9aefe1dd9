import Shiba.FileSystem
import Shiba.Registry
import Shiba.Value.Dictionary

/-!
# The machine

A `State` is everything a run can change: the heap, the registry of modules and the lines
written so far.  A `Config` is what stays as it is: how much is traced, where modules are looked
for, and how deep calls and data may be nested.  `Eval` is the monad of steps that change the
state and can stop; the state is kept when a step stops.

Lines written by the program and lines written by tracing are told apart, so that tracing can be
left out of account.
-/

namespace Shiba

/-- A written line. -/
inductive Line where
  | program (text : String)
  | trace (text : String)
deriving DecidableEq

/-- A line as it is written, with the newline behind it. -/
def Line.text : Line → String
  | .program text => text ++ "\n"
  | .trace text => "[shiba] " ++ text ++ "\n"

/-- What stays as it is during a run. -/
structure Config where
  /-- How much is traced; nothing from zero down. -/
  debugLevel : Int
  /-- The directory of standard modules. -/
  standardDirectory : String
  /-- The files modules are loaded from. -/
  files : FileSystem
  /-- How many calls may be nested. -/
  callLimit : Nat
  /-- How deep data may be nested that is written, compared or cloned. -/
  dataLimit : Nat
  /-- How many steps may be nested, and how many turns a loop may take. -/
  fuel : Nat

/-- What a run can change. -/
structure State where
  heap : Heap
  registry : Registry
  /-- The boxes of the functions that are visible everywhere. -/
  builtins : OrderedMap String BoxId
  output : Array Line

/-- Steps that change the state and can stop. -/
abbrev Eval := ExceptT Stop (StateM State)

namespace Eval

/-- A step that touches nothing but the heap. -/
def onHeap {α : Type} (act : HeapM α) : Eval α := fun ⟨heap, registry, builtins, output⟩ =>
  match act heap with
  | (result, heap) => (result, ⟨heap, registry, builtins, output⟩)

/-- Stops for a cause whose place is not known yet. -/
def raise {α : Type} (cause : Cause) : Eval α := throw (.ofCause cause)

/-- Runs a step and answers how it went, without stopping. -/
def observe {α : Type} (act : Eval α) : Eval (Except Stop α) := fun s =>
  match act s with
  | (result, s) => (.ok result, s)

/-- The value in a box. -/
def read (b : BoxId) : Eval Value := return (← get).heap.value b

/-- A new box. -/
def alloc (v : Value) : Eval BoxId := onHeap (HeapM.alloc v)

/-- Overwrites a box. -/
def write (b : BoxId) (v : Value) : Eval Unit := onHeap (HeapM.write b v)

/-- A new box with the same value. -/
def copy (b : BoxId) : Eval BoxId := onHeap (HeapM.copy b)

/-- The name of the type of what is in a box. -/
def typeName (b : BoxId) : Eval String := do
  let h := (← get).heap
  return h.typeName (h.value b)

/-- The canonical form of what is in a box. -/
def canonical (cfg : Config) (b : BoxId) : Eval String := do
  let v ← read b
  onHeap (HeapM.bounded fun h => h.canonical cfg.dataLimit v)

/-- The displayed form of what is in a box. -/
def display (cfg : Config) (b : BoxId) : Eval String := do
  let v ← read b
  onHeap (HeapM.bounded fun h => h.display cfg.dataLimit v)

/-! ## Output -/

/-- Writes a line of the program. -/
def print (text : String) : Eval Unit :=
  modify fun s => { s with output := s.output.push (.program text) }

/-- Writes a line of tracing when at least so much is traced. -/
def trace (cfg : Config) (level : Int) (text : Eval String) : Eval Unit := do
  if level ≤ cfg.debugLevel then
    let text ← text
    modify fun s => { s with output := s.output.push (.trace text) }

/-! ## Places of errors -/

/-- Gives a place in a module to an error of a step that has none yet. -/
def located {α : Type} (m : ModuleId) (p : Position) (act : Eval α) : Eval α := fun s =>
  match act s with
  | (.error stop, s) => (.error (stop.locate ⟨(s.registry.module m).name, p⟩), s)
  | done => done

/-- Stops for a cause at a place in a module. -/
def raiseAt {α : Type} (m : ModuleId) (p : Position) (cause : Cause) : Eval α :=
  located m p (raise cause)

/-! ## Scopes -/

/-- The registered module that stands for `m`. -/
def resolve (m : ModuleId) : Eval ModuleId := do
  match (← get).registry.resolve m with
  | .ok found => return found
  | .error failure => raise (.invariant failure)

/-- What can be read off the scope of a module. -/
def inScope {α : Type} (m : ModuleId) (f : Scope BoxId StructId → α) : Eval α := do
  let m ← resolve m
  return f ((← get).registry.module m).scope

/-- Changes the scope of a module by its number. -/
def modifyScope (m : ModuleId) (f : Scope BoxId StructId → Scope BoxId StructId) : Eval Unit :=
  modify fun ⟨heap, registry, builtins, output⟩ =>
    ⟨heap, registry.modifyScope m f, builtins, output⟩

/-- Changes the scope of the registered module that stands for `m`. -/
def onScope (m : ModuleId) (f : Scope BoxId StructId → Scope BoxId StructId) : Eval Unit := do
  let m ← resolve m
  modifyScope m f

/-- What the name of an object means in a module. -/
def getObj? (m : ModuleId) (name : String) : Eval (Option BoxId) := inScope m (·.getObj? name)

/-- What the name of a struct means in a module. -/
def getStruct? (m : ModuleId) (name : String) : Eval (Option StructId) :=
  inScope m (·.getStruct? name)

/-- Binds an object where its name is bound already, else in the innermost level. -/
def setObj (m : ModuleId) (name : String) (b : BoxId) : Eval Unit := onScope m (·.setObj name b)

/-- Binds a struct where its name is bound already, else in the innermost level. -/
def setStruct (m : ModuleId) (name : String) (s : StructId) : Eval Unit :=
  onScope m (·.setStruct name s)

/-- Binds an object in the innermost level. -/
def declareObj (m : ModuleId) (name : String) (b : BoxId) : Eval Unit :=
  onScope m (·.declareObj name b)

/-- Takes something off the scope of a module that has to be there. -/
def popScope (m : ModuleId) (failure : Invariant)
    (f : Scope BoxId StructId → Option (Scope BoxId StructId)) : Eval Unit := do
  match f ((← get).registry.module m).scope with
  | some scope => modifyScope m fun _ => scope
  | none => raise (.invariant failure)

/-- Closes the innermost block of a module. -/
def popBlock (m : ModuleId) : Eval Unit := popScope m .noBlockToPop Scope.popBlock?

/-- Ends the innermost call in a module. -/
def popFunction (m : ModuleId) : Eval Unit := popScope m .noFunctionToPop Scope.popFunction?

/-- Runs a step between an opening and a closing one; the scope is closed however the step ends. -/
def within {α : Type} (opening closing : Eval Unit) (act : Eval α) : Eval α := do
  opening
  let result ← observe act
  closing
  MonadExcept.ofExcept result

/-- Runs a step in a block of its own. -/
def inBlock {α : Type} (m : ModuleId) (act : Eval α) : Eval α := do
  let m ← resolve m
  within (modifyScope m Scope.pushBlock) (popBlock m) act

/-- Runs a step in a call of its own. -/
def inFunction {α : Type} (m : ModuleId) (act : Eval α) : Eval α := do
  let m ← resolve m
  within (modifyScope m Scope.pushFunction) (popFunction m) act

end Eval

namespace State

/-- The functions that are visible everywhere, in the order in which they are listed. -/
def standardBuiltins : List Builtin :=
  [.print, .len, .exit, .env, .keys, .delete, .type, .str]

/-- The state a run starts from: the functions that are visible everywhere, and no modules. -/
def initial : State :=
  let boxes := standardBuiltins.map Value.builtin
  let names := standardBuiltins.zipIdx.map fun e => (e.1.name, BoxId.mk e.2)
  ⟨{ Heap.empty with boxes := boxes.toArray }, .empty, .ofList names, #[]⟩

end State

end Shiba

import Shiba.Builtin.Call
import Shiba.Eval.Basic

/-!
# Calls

A function runs in a new frame of the module that defined it.  A method's frame holds the
receiver's field boxes under their names, so that assigning a field inside the method changes
the instance, and the other methods of the receiver; the parameters come last and hide both.
Arguments are deep copies.
-/

namespace Shiba.Eval

/-- Declares the members of a receiver in the current frame: its field boxes, then its methods. -/
def declareMembers (m : ModuleId) (receiver : InstanceId) : Eval Unit := do
  let h := (← get).heap
  let i := h.instanceAt receiver
  i.fields.entries.forM fun e => declareObj m e.1 e.2
  (h.structDef i.definition).methods.entries.forM fun e => do
    declareObj m e.1 (← alloc (.method e.2 receiver))

/-- Declares the parameters of a function as deep copies of the arguments. -/
def declareArgs (cfg : Config) (m : ModuleId) (params : List String) (args : List BoxId) :
    Eval Unit :=
  (params.zip args).forM fun e => do
    declareObj m e.1 (← onHeap (HeapM.clone cfg.dataLimit e.2))

/-- What a call answers when the body of the function has ended: the returned box, or a new nil.  A
loop jump must not leave the body. -/
def answer (f : Function) : Flow → Eval BoxId
  | .returnValue (some b) => return b
  | .breakLoop => raise (.jumpOutsideIn .breakLoop f.name)
  | .continueLoop => raise (.jumpOutsideIn .continueLoop f.name)
  | _ => alloc .nil

/-- What happens in the frame of a call: the members of the receiver and the parameters are
declared, and the body runs. -/
def runBody (ev : Evaluators) (cfg : Config) (calls : Nat) (f : Function)
    (receiver : Option InstanceId) (args : List BoxId) : Eval Flow := do
  match receiver with
  | some receiver => declareMembers f.module receiver
  | none => pure ()
  declareArgs cfg f.module f.params args
  runBlock (ev.stmt ⟨f.module, calls⟩) f.body

/-- Calls a user-defined function, or a method when there is a receiver. -/
def callFunction (ev : Evaluators) (cfg : Config) (calls : Nat) (f : Function)
    (receiver : Option InstanceId) (args : List BoxId) : Eval BoxId := do
  if args.length ≠ f.params.length then
    raise (.arity f.name f.params.length args.length)
  trace cfg 3 do
    let shown ← args.mapM (canonical cfg)
    let module := ((← get).registry.module f.module).name
    return "call " ++ module ++ "." ++ f.name ++ "(" ++ ", ".intercalate shown ++ ")"
  match calls with
  | 0 => throw .tooDeep
  | calls + 1 =>
    let flow ← inFunction f.module (runBody ev cfg calls f receiver args)
    answer f flow

/-- Calls what is in a box. -/
def call (ev : Evaluators) (cfg : Config) (calls : Nat) (callee : BoxId) (args : List BoxId) :
    Eval BoxId := do
  let h := (← get).heap
  match h.value callee with
  | .builtin b => b.call cfg args
  | .function f => callFunction ev cfg calls (h.function f) none args
  | .method f receiver => callFunction ev cfg calls (h.function f) (some receiver) args
  | v => raise (.typeMismatch "callable" (h.typeName v))

end Shiba.Eval

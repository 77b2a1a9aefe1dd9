import Shiba.Eval.Assign
import Shiba.Eval.Import

/-!
# Statements

Conditionals and loops run in a block of their own.  A loop over a sequence declares its counter
and its element anew in every turn and takes as many turns as the sequence had elements when it
started.
-/

namespace Shiba.Eval

/-- Evaluates a condition and traces what it came to. -/
def condition (ev : Evaluators) (cfg : Config) (ctx : Context) (what : String) (e : Expr) :
    Eval Bool := do
  let b ← ev.expr ctx e
  let holds := (← get).heap.truthy (← read b)
  trace cfg 3 do
    let shown ← canonical cfg b
    return what ++ " condition " ++ shown ++ " -> " ++ (if holds then "True" else "False")
  return holds

/-- Tries the branches of a conditional in order. -/
def runBranches (ev : Evaluators) (cfg : Config) (ctx : Context) (otherwise : Option Block) :
    List (Expr × Block) → Eval Flow
  | [] =>
    match otherwise with
    | some block => runBlock (ev.stmt ctx) block
    | none => return .done
  | (e, block) :: rest => do
    if ← condition ev cfg ctx "if" e then runBlock (ev.stmt ctx) block
    else runBranches ev cfg ctx otherwise rest

/-- What a loop does after a turn: it goes on, or it ends with a flow of its own. -/
def afterTurn : Flow → Option Flow
  | .breakLoop => some .done
  | .returnValue b => some (.returnValue b)
  | _ => none

/-- The turns of a loop over the boxes of a sequence. -/
def forTurns (ev : Evaluators) (ctx : Context) (counter element : String) (body : Block) :
    List BoxId → (turn : Nat) → Eval Flow
  | [], _ => return .done
  | b :: rest, turn => do
    declareObj ctx.module counter (← alloc (.int (.ofNat turn)))
    declareObj ctx.module element (← copy b)
    let flow ← runBlock (ev.stmt ctx) body
    match afterTurn flow with
    | some flow => return flow
    | none => forTurns ev ctx counter element body rest (turn + 1)

/-- A loop over a sequence. -/
def forLoop (ev : Evaluators) (ctx : Context) (target : Expr) (counter element : String)
    (body : Block) : Eval Flow := do
  let t ← ev.expr ctx target
  let v ← read t
  if !v.isSequence then
    raiseAt ctx.module target.position (.typeMismatch "iterable" (← typeName t))
  inBlock ctx.module do
    let s ← onHeap (Sequence.ofValue v)
    let boxes ← onHeap s.elements
    forTurns ev ctx counter element body boxes 0

/-- The turns of a loop with a condition, at most `fuel` of them. -/
def whileTurns (ev : Evaluators) (cfg : Config) (ctx : Context) (e : Expr) (body : Block) :
    (fuel : Nat) → Eval Flow
  | 0 => throw .outOfFuel
  | fuel + 1 => do
    if ← condition ev cfg ctx "loop" e then
      let flow ← runBlock (ev.stmt ctx) body
      match afterTurn flow with
      | some flow => return flow
      | none => whileTurns ev cfg ctx e body fuel
    else return .done

/-- Defines a function. -/
def defineFunction (cfg : Config) (ctx : Context) (d : FunctionDecl) : Eval Unit := do
  let f ← onHeap (HeapM.allocFunction ⟨ctx.module, d.name, d.params, d.body⟩)
  setObj ctx.module d.name (← alloc (.function f))
  trace cfg 2 (return "define function " ++ d.name ++ "(" ++ ", ".intercalate d.params ++ ")")

/-- The first name that occurs again among those before it. -/
def duplicate? : List String → (seen : List String) → Option String
  | [], _ => none
  | name :: rest, seen => if seen.contains name then some name else duplicate? rest (name :: seen)

/-- Defines a struct, whose fields have to be different. -/
def defineStruct (cfg : Config) (ctx : Context) (name : String) (fields : List String)
    (methods : List FunctionDecl) : Eval Unit := do
  match duplicate? fields [] with
  | some field => raise (.duplicateField name field)
  | none => pure ()
  let functions ← methods.mapM fun d => do
    return (d.name, ← onHeap (HeapM.allocFunction ⟨ctx.module, d.name, d.params, d.body⟩))
  let s ← onHeap (HeapM.allocStruct ⟨name, fields, .ofList functions⟩)
  setStruct ctx.module name s
  trace cfg 2 (return "define struct " ++ name ++ " \x7b" ++ ", ".intercalate fields ++ "\x7d")

/-- A statement whose parts are evaluated by `ev`; a loop with a condition takes at most `turns`. -/
def stmt (ev : Evaluators) (cfg : Config) (turns : Nat) (ctx : Context) (s : Stmt) : Eval Flow :=
  located ctx.module s.position do
    match s with
    | .comment _ _ => return .done
    | .assign _ op left right =>
      assign ev cfg ctx op left right
      return .done
    | .conditional _ branches otherwise =>
      inBlock ctx.module (runBranches ev cfg ctx otherwise branches)
    | .forIn _ target counter element body =>
      forLoop ev ctx target counter.name element.name body
    | .loop _ e body => inBlock ctx.module (whileTurns ev cfg ctx e body turns)
    | .function d =>
      defineFunction cfg ctx d
      return .done
    | .structDecl _ name fields methods =>
      defineStruct cfg ctx name fields methods
      return .done
    | .importModule _ target =>
      importStatement ev cfg ctx target
      return .done
    | .returnValue _ none => return .returnValue none
    | .returnValue _ (some e) => return .returnValue (some (← ev.expr ctx e))
    | .breakLoop _ => return .breakLoop
    | .continueLoop _ => return .continueLoop
    | .expr e => return .value (← ev.expr ctx e)

end Shiba.Eval

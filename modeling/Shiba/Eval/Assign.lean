import Shiba.Eval.Expr

/-!
# Assignment

An assignment writes into the box its target names.  A name that means nothing yet is bound to a new
box, and a key that is not in a dictionary yet is filed; any other target has to be there.
-/

namespace Shiba.Eval

/-- The box of an element of a list that is assigned to. -/
def element (container key : BoxId) : Eval BoxId := do
  let h := (← get).heap
  match h.value container with
  | .str _ => raise .textElement
  | .list l =>
    let items := h.items l
    let i ← indexValue key items.size
    onHeap ((Sequence.boxes items).index i)
  | v => raise (.typeMismatch "list or dict" (h.typeName v))

/-- The box a member of a module or an instance is stored in. -/
def memberBox (owner : BoxId) (name : String) : Eval BoxId := do
  let h := (← get).heap
  match h.value owner with
  | .module m moduleName =>
    match ← getObj? m name with
    | some b => return b
    | none => raise (.undefined (moduleName ++ "." ++ name))
  | .struct i =>
    match (h.instanceAt i).fields.get? name with
    | some b => return b
    | none => raise (.noField (h.structName i) name)
  | v => raise (.typeMismatch "struct or mod" (h.typeName v))

/-- The box that stores a target, which has to be there. -/
def place (ev : Evaluators) (cfg : Config) (ctx : Context) (target : Expr) : Eval BoxId :=
  located ctx.module target.position do
    match target with
    | .ident _ name =>
      match ← getObj? ctx.module name with
      | some b => return b
      | none => raise (.undefined name)
    | .index _ container key =>
      let c ← ev.expr ctx container
      let k ← ev.expr ctx key
      match ← read c with
      | .dict d =>
        match ← onHeap (HeapM.dictGet? cfg.dataLimit d k) with
        | some b => return b
        | none => onHeap (HeapM.keyNotFound cfg.dataLimit c k)
      | _ => element c k
    | .select _ owner name =>
      let o ← ev.expr ctx owner
      memberBox o name
    | .slice .. => raise .sliceTarget
    | e => raise (.invalidTarget e.form)

/-- Assigns a box of its own to a target: into the box that is there, else as a new binding. -/
def assignTo (ev : Evaluators) (cfg : Config) (ctx : Context) (target : Expr) (value : BoxId) :
    Eval Unit := do
  match target with
  | .ident _ name =>
    match ← getObj? ctx.module name with
    | some b => write b (← read value)
    | none => setObj ctx.module name value
  | .index p container key =>
    let c ← ev.expr ctx container
    let k ← ev.expr ctx key
    match ← read c with
    | .dict d =>
      match ← onHeap (HeapM.dictGet? cfg.dataLimit d k) with
      | some b => write b (← read value)
      | none => onHeap (HeapM.dictSet cfg.dataLimit d k value)
    | _ =>
      let b ← located ctx.module p (element c k)
      write b (← read value)
  | target =>
    let b ← place ev cfg ctx target
    write b (← read value)

/-- Assigns boxes to targets, one after another. -/
def assignAll (ev : Evaluators) (cfg : Config) (ctx : Context) (targets : List Expr)
    (values : List BoxId) : Eval Unit :=
  (targets.zip values).forM fun e => assignTo ev cfg ctx e.1 e.2

/-- Plain assignment: all values are taken before the first target is assigned. -/
def assignPlain (ev : Evaluators) (cfg : Config) (ctx : Context) (left right : List Expr) :
    Eval Unit := do
  if left.length ≠ right.length then raise (.assignmentSize left.length right.length)
  let values ← right.mapM fun e => do copy (← ev.expr ctx e)
  assignAll ev cfg ctx left values

/-- Unpacking assignment: one target takes the value, several take the elements of a sequence. -/
def assignUnpack (ev : Evaluators) (cfg : Config) (ctx : Context) (left right : List Expr) :
    Eval Unit := do
  match right with
  | [e] =>
    let b ← ev.expr ctx e
    match left with
    | [target] =>
      let value ← copy b
      assignTo ev cfg ctx target value
    | _ =>
      let v ← read b
      if !v.isSequence then
        raiseAt ctx.module e.position (.typeMismatch "iterable" (← typeName b))
      let s ← onHeap (Sequence.ofValue v)
      if s.size ≠ left.length then raise (.unpackSize left.length (← canonical cfg b))
      let elements ← onHeap s.elements
      let values ← elements.mapM copy
      assignAll ev cfg ctx left values
  | _ => raise .unpackOperands

/-- Computes a new value for a box.  Operands the operator does not take are an error of the
assignment. -/
def updateBox (cfg : Config) (op : ComputeOp) (b right : BoxId) : Eval Unit := do
  let l ← read b
  let r ← read right
  match ← observe (onHeap (op.binary.apply cfg.dataLimit l r)) with
  | .ok v => write b v
  | .error (.error ⟨.invalidBinaryOp .., _⟩) =>
    raise (.invalidAssignOp (AssignOp.compute op).text (← typeName b) (← typeName right))
  | .error stop => throw stop

/-- Whether a target is a name that means nothing yet. -/
def isUnbound (ctx : Context) (target : Expr) : Eval (Option String) := do
  match target with
  | .ident _ name =>
    match ← getObj? ctx.module name with
    | some _ => return none
    | none => return some name
  | _ => return none

/-- Computing assignment: a name that means nothing yet takes the value itself. -/
def assignCompute (ev : Evaluators) (cfg : Config) (ctx : Context) (op : ComputeOp)
    (left right : List Expr) : Eval Unit := do
  match left, right with
  | [target], [e] =>
    let r ← ev.expr ctx e
    match ← isUnbound ctx target with
    | some name => setObj ctx.module name (← copy r)
    | none =>
      let b ← place ev cfg ctx target
      updateBox cfg op b r
  | [_], _ => raise (.multipleValues (AssignOp.compute op).text)
  | _, _ => raise (.multipleTargets (AssignOp.compute op).text)

/-- An assignment. -/
def assign (ev : Evaluators) (cfg : Config) (ctx : Context) (op : AssignOp)
    (left right : List Expr) : Eval Unit :=
  match op with
  | .plain => assignPlain ev cfg ctx left right
  | .unpack => assignUnpack ev cfg ctx left right
  | .compute op => assignCompute ev cfg ctx op left right

end Shiba.Eval

import Shiba.Eval.Call
import Shiba.Operator.Apply
import Shiba.Value.Sequence

/-!
# Expressions

An expression evaluates to a box.  A name, an element of a list, an entry of a dictionary and a
field evaluate to the very box they name, so that what is done to that box later is seen through
it; all else evaluates to a new box.
-/

namespace Shiba.Eval

/-- A literal. -/
def literal : Literal → Eval BoxId
  | .int n => alloc (.int n)
  | .float x => alloc (.float x)
  | .str s => alloc (.str s)
  | .bool b => alloc (.bool b)

/-- A name: an object of the module, a struct of the module, or a function visible everywhere. -/
def ident (ctx : Context) (name : String) : Eval BoxId := do
  match ← getObj? ctx.module name with
  | some b => return b
  | none =>
    match ← getStruct? ctx.module name with
    | some s => alloc (.structDef s)
    | none =>
      match (← get).builtins.get? name with
      | some b => return b
      | none => raise (.undefined name)

/-- The value that decides a logical operator by its left operand alone. -/
def shortCircuit? (op : BinaryOp) (left : Value) : Option Bool :=
  match op, left with
  | .and, .bool false => some false
  | .or, .bool true => some true
  | _, _ => none

/-- A binary operation.  The operands are boxes, and are read when both have been evaluated. -/
def binary (ev : Evaluators) (cfg : Config) (ctx : Context) (op : BinaryOp) (left right : Expr) :
    Eval BoxId := do
  let l ← ev.expr ctx left
  match shortCircuit? op (← read l) with
  | some b => alloc (.bool b)
  | none =>
    let r ← ev.expr ctx right
    alloc (← onHeap (op.apply cfg.dataLimit (← read l) (← read r)))

/-- A unary operation. -/
def unary (ev : Evaluators) (ctx : Context) (op : UnaryOp) (operand : Expr) : Eval BoxId := do
  let b ← ev.expr ctx operand
  alloc (← onHeap (op.apply (← read b)))

/-- An index into a sequence of a given size. -/
def indexValue (key : BoxId) (size : Nat) : Eval Nat := do
  match ← read key with
  | .int n =>
    if n < 0 ∨ (size : Int) ≤ n.toInt then raise (.invalidIndex n size)
    else return n.toInt.toNat
  | _ => raise (.typeMismatch "i64" (← typeName key))

/-- A bound of a slice of a sequence of a given size. -/
def boundValue (bound : BoxId) (size : Nat) : Eval Nat := do
  match ← read bound with
  | .int n =>
    if n < 0 ∨ (size : Int) < n.toInt then raise (.invalidIndex n size)
    else return n.toInt.toNat
  | _ => raise (.typeMismatch "i64" (← typeName bound))

/-- An element of a sequence or an entry of a dictionary. -/
def index (ev : Evaluators) (cfg : Config) (ctx : Context) (target key : Expr) : Eval BoxId := do
  let t ← ev.expr ctx target
  let k ← ev.expr ctx key
  match ← read t with
  | .dict d =>
    match ← onHeap (HeapM.dictGet? cfg.dataLimit d k) with
    | some b => return b
    | none => onHeap (HeapM.keyNotFound cfg.dataLimit t k)
  | v =>
    if !v.isSequence then raise (.typeMismatch "str, list or dict" (← typeName t))
    let s ← onHeap (Sequence.ofValue v)
    let i ← indexValue k s.size
    onHeap (s.index i)

/-- A bound of a slice, with the value it has when it is left out. -/
def sliceBound (ev : Evaluators) (ctx : Context) (size default : Nat) : Option Expr → Eval Nat
  | none => return default
  | some e => do
    let b ← ev.expr ctx e
    boundValue b size

/-- A part of a sequence. -/
def slice (ev : Evaluators) (ctx : Context) (target : Expr) (first last : Option Expr) :
    Eval BoxId := do
  let t ← ev.expr ctx target
  let v ← read t
  if !v.isSequence then raise (.typeMismatch "str or list" (← typeName t))
  let s ← onHeap (Sequence.ofValue v)
  let start ← sliceBound ev ctx s.size 0 first
  let stop ← sliceBound ev ctx s.size s.size last
  if stop < start then raise (.invalidIndex (.ofNat start) s.size)
  alloc (← onHeap (s.slice start stop))

/-- What a module defines under a name. -/
def moduleMember (m : ModuleId) (moduleName name : String) : Eval BoxId := do
  match ← getObj? m name with
  | some b => return b
  | none =>
    match ← getStruct? m name with
    | some s => alloc (.structDef s)
    | none => raise (.undefined (moduleName ++ "." ++ name))

/-- A field of an instance, or a method bound to it. -/
def instanceMember (i : InstanceId) (name : String) : Eval BoxId := do
  let h := (← get).heap
  let inst := h.instanceAt i
  match inst.fields.get? name with
  | some b => return b
  | none =>
    match (h.structDef inst.definition).methods.get? name with
    | some f => alloc (.method f i)
    | none => raise (.noMember (h.structName i) name)

/-- A member of a module or an instance. -/
def select (ev : Evaluators) (ctx : Context) (target : Expr) (name : String) : Eval BoxId := do
  let t ← ev.expr ctx target
  match ← read t with
  | .module m moduleName => moduleMember m moduleName name
  | .struct i => instanceMember i name
  | _ => raise (.typeMismatch "struct or mod" (← typeName t))

/-- A list of copies of the elements. -/
def listLiteral (ev : Evaluators) (ctx : Context) (elements : List Expr) : Eval BoxId := do
  let boxes ← elements.mapM fun e => do copy (← ev.expr ctx e)
  alloc (.list (← onHeap (HeapM.allocList boxes.toArray)))

/-- A dictionary of copies of the values, filed one after another. -/
def dictLiteral (ev : Evaluators) (cfg : Config) (ctx : Context) (entries : List (Expr × Expr)) :
    Eval BoxId := do
  let d ← onHeap (HeapM.allocDict .empty)
  entries.forM fun e => do
    let key ← ev.expr ctx e.1
    let value ← copy (← ev.expr ctx e.2)
    onHeap (HeapM.dictSet cfg.dataLimit d key value)
  alloc (.dict d)

/-- The fields of a struct initialiser, evaluated one after another into the fields of an
instance. -/
def initFields (ev : Evaluators) (cfg : Config) (ctx : Context) (s : StructDef) :
    List (Ident × Expr) → OrderedMap String BoxId → Eval (OrderedMap String BoxId)
  | [], fields => return fields
  | (name, e) :: rest, fields => do
    if !s.fields.contains name.name then
      raiseAt ctx.module name.position (.unknownField s.name name.name)
    let b ← ev.expr ctx e
    let value ← onHeap (HeapM.clone cfg.dataLimit b)
    initFields ev cfg ctx s rest (fields.insert name.name value)

/-- A new instance: every field is nil at first, and a given field a deep copy of its value. -/
def instantiate (ev : Evaluators) (cfg : Config) (ctx : Context) (name : String)
    (given : List (Ident × Expr)) : Eval BoxId := do
  match ← getStruct? ctx.module name with
  | none => raise (.undefined name)
  | some id =>
    let s := (← get).heap.structDef id
    let empty ← s.fields.mapM fun field => do return (field, ← alloc .nil)
    let fields ← initFields ev cfg ctx s given (.ofList empty)
    alloc (.struct (← onHeap (HeapM.allocInstance ⟨id, fields⟩)))

/-- An expression whose parts are evaluated by `ev`. -/
def expr (ev : Evaluators) (cfg : Config) (ctx : Context) (e : Expr) : Eval BoxId :=
  located ctx.module e.position <|
    match e with
    | .literal _ value => literal value
    | .ident _ name => ident ctx name
    | .binary _ op left right => binary ev cfg ctx op left right
    | .unary _ op operand => unary ev ctx op operand
    | .call _ callee args => do
      let f ← ev.expr ctx callee
      let boxes ← args.mapM (ev.expr ctx)
      call ev cfg ctx.calls f boxes
    | .index _ target key => index ev cfg ctx target key
    | .slice _ target first last => slice ev ctx target first last
    | .select _ target name => select ev ctx target name
    | .list _ elements => listLiteral ev ctx elements
    | .dict _ entries => dictLiteral ev cfg ctx entries
    | .structInit _ name _ fields => instantiate ev cfg ctx name fields

end Shiba.Eval

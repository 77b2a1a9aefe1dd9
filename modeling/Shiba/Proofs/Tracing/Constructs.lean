import Shiba.Proofs.Tracing.Basic

/-!
# Every construct, traced and silent

One rule for every construct: when its parts, traced, stay beside its parts, silent, so does the whole.
Lines are traced in few of them: calls and conditions write values, definitions, imports and the
statements of imported modules write names only.  The recursion is tied at the end, by induction on the
fuel (`evaluators_traced`).
-/

namespace Shiba

/-- Traced evaluators beside silent ones. -/
structure Evaluators.Traced (cfg : Config) (ev₁ ev₂ : Evaluators) : Prop where
  expr : ∀ ctx e, Alongside cfg Stop.OfTracing (ev₁.expr ctx e) (ev₂.expr ctx e)
  stmt : ∀ ctx s, Alongside cfg Stop.OfTracing (ev₁.stmt ctx s) (ev₂.stmt ctx s)

namespace Alongside

open Eval

variable {α β : Type} {cfg : Config} {P : Stop → Prop} {ev₁ ev₂ : Evaluators}

theorem raiseAt (m : ModuleId) (p : Position) (cause : Cause) :
    Alongside cfg P (raiseAt m p cause : Eval α) (raiseAt m p cause) :=
  of_blind (fun _ => rfl) fun s => .refl s

/-- What follows an error is never run. -/
theorem raise_bind {f₁ f₂ : β → Eval α} (cause : Cause) :
    Alongside cfg P (Eval.raise cause >>= f₁) (Eval.raise cause >>= f₂) :=
  throw _

theorem raiseAt_bind {f₁ f₂ : β → Eval α} (m : ModuleId) (p : Position) (cause : Cause) :
    Alongside cfg P (Eval.raiseAt m p cause >>= f₁) (Eval.raiseAt m p cause >>= f₂) :=
  of_blind (fun _ => rfl) fun s => .refl s

/-- A value of another type than the one expected. -/
theorem typeMismatch (expected : String) (b : BoxId) :
    Alongside cfg P (Eval.typeName b >>= fun found => (Eval.raise (.typeMismatch expected found) : Eval α))
      (Eval.typeName b >>= fun found => Eval.raise (.typeMismatch expected found)) :=
  (typeName b).bind fun _ => raise _

theorem alloc (v : Value) : Alongside cfg P (alloc v) (alloc v) := onHeap _

theorem copy (b : BoxId) : Alongside cfg P (copy b) (copy b) := onHeap _

theorem write (b : BoxId) (v : Value) : Alongside cfg P (write b v) (write b v) := onHeap _

theorem getObj? (m : ModuleId) (name : String) : Alongside cfg P (getObj? m name) (getObj? m name) :=
  inScope m _

theorem getStruct? (m : ModuleId) (name : String) :
    Alongside cfg P (getStruct? m name) (getStruct? m name) :=
  inScope m _

theorem setObj (m : ModuleId) (name : String) (b : BoxId) :
    Alongside cfg P (setObj m name b) (setObj m name b) :=
  onScope m _

theorem declareObj (m : ModuleId) (name : String) (b : BoxId) :
    Alongside cfg P (declareObj m name b) (declareObj m name b) :=
  onScope m _

/-! ## Functions that come with the language -/

theorem length (b : BoxId) : Alongside cfg P (Builtin.length b) (Builtin.length b) := by
  refine get_bind (fun _ => rfl) fun s => ?_
  dsimp only
  split
  · exact pure _
  · exact pure _
  · exact pure _
  · exact raise _

theorem dictionary (b : BoxId) : Alongside cfg P (Builtin.dictionary b) (Builtin.dictionary b) := by
  refine (read b).bind fun v => ?_
  split
  · exact pure _
  · exact typeMismatch "dict" b

theorem exitWith (b : BoxId) : Alongside cfg P (Builtin.exitWith b) (Builtin.exitWith b) := by
  refine (read b).bind fun v => ?_
  split
  · exact throw _
  · exact typeMismatch "i64" b

theorem display (b : BoxId) : Alongside cfg P (display cfg b) (display cfg.silent b) :=
  (read b).bind fun _ => onHeap _

theorem perform (f : Builtin) (args : List BoxId) :
    Alongside cfg P (f.perform cfg args) (f.perform cfg.silent args) := by
  rw [Builtin.perform.eq_def, Builtin.perform.eq_def]
  split
  · refine (mapM display args).bind fun texts => ?_
    exact (print _).bind fun _ => pure _
  · exact length _
  · exact exitWith _
  · refine get_bind (fun _ => rfl) fun s => (onHeap _).bind fun text => ?_
    exact (print text).bind fun _ => pure _
  · exact (dictionary _).bind fun d => get_bind (fun _ => rfl) fun s => onHeap _
  · exact (dictionary _).bind fun d => onHeap _
  · exact (typeName _).bind fun _ => pure _
  · exact (display _).bind fun _ => pure _
  · exact (mapM read args).bind fun values => onHeap _
  · exact (read _).bind fun _ => onHeap _
  · exact (read _).bind fun _ => onHeap _
  · exact (read _).bind fun _ => (read _).bind fun _ => onHeap _
  · exact raise _

theorem builtinCall (f : Builtin) (args : List BoxId) :
    Alongside cfg Stop.OfTracing (f.call cfg args) (f.call cfg.silent args) := by
  have called : Alongside cfg Stop.OfTracing
      (do
        Eval.trace cfg 3 do
          let shown ← args.mapM (Eval.canonical cfg)
          return "call builtin " ++ f.name ++ "(" ++ ", ".intercalate shown ++ ")"
        Eval.alloc (← f.perform cfg args))
      (do
        Eval.trace cfg.silent 3 do
          let shown ← args.mapM (Eval.canonical cfg.silent)
          return "call builtin " ++ f.name ++ "(" ++ ", ".intercalate shown ++ ")"
        Eval.alloc (← f.perform cfg.silent args)) := by
    refine (traceValues ((Shows.mapM Shows.canonical args).bind fun _ => .pure _)).bind fun _ => ?_
    exact (perform f args).bind fun v => onHeap _
  rw [Builtin.call, Builtin.call]
  split
  · split
    · exact (raise _).bind fun _ => called
    · exact called
  · exact called

/-! ## Calls -/

theorem runBlock {run₁ run₂ : Stmt → Eval Flow}
    (each : ∀ s, Alongside cfg P (run₁ s) (run₂ s)) (block : Block) :
    Alongside cfg P (runBlock run₁ block) (runBlock run₂ block) := by
  induction block with
  | nil => exact pure _
  | cons s rest ih =>
    refine (each s).bind fun flow => ?_
    split
    · exact pure _
    · exact ih

theorem declareMembers (m : ModuleId) (receiver : InstanceId) :
    Alongside cfg P (declareMembers m receiver) (declareMembers m receiver) := by
  refine get_bind (fun _ => rfl) fun s => ?_
  refine (forM (fun e => ?_) _).bind fun _ => forM (fun e => ?_) _
  · exact declareObj m e.1 e.2
  · exact (alloc _).bind fun b => declareObj m e.1 b

theorem declareArgs (m : ModuleId) (params : List String) (args : List BoxId) :
    Alongside cfg P (declareArgs cfg m params args) (declareArgs cfg.silent m params args) := by
  refine forM (fun e => ?_) _
  exact (onHeap _).bind fun b => declareObj m e.1 b

theorem answer (f : Function) (flow : Flow) : Alongside cfg P (answer f flow) (answer f flow) := by
  rw [Eval.answer.eq_def]
  split
  · exact pure _
  · exact raise _
  · exact raise _
  · exact alloc _

theorem runBody (traced : ev₁.Traced cfg ev₂) (calls : Nat) (f : Function)
    (receiver : Option InstanceId) (args : List BoxId) :
    Alongside cfg Stop.OfTracing (runBody ev₁ cfg calls f receiver args)
      (runBody ev₂ cfg.silent calls f receiver args) := by
  have body : Alongside cfg Stop.OfTracing
      (do
        Eval.declareArgs cfg f.module f.params args
        Eval.runBlock (ev₁.stmt ⟨f.module, calls⟩) f.body)
      (do
        Eval.declareArgs cfg.silent f.module f.params args
        Eval.runBlock (ev₂.stmt ⟨f.module, calls⟩) f.body) :=
    (declareArgs f.module f.params args).bind fun _ => runBlock (traced.stmt _) f.body
  cases receiver with
  | none => exact body
  | some receiver => exact (declareMembers f.module receiver).bind fun _ => body

theorem callFunction (traced : ev₁.Traced cfg ev₂) (calls : Nat) (f : Function)
    (receiver : Option InstanceId) (args : List BoxId) :
    Alongside cfg Stop.OfTracing (callFunction ev₁ cfg calls f receiver args)
      (callFunction ev₂ cfg.silent calls f receiver args) := by
  have shows : Shows cfg (do
      let shown ← args.mapM (Eval.canonical cfg)
      let module := ((← get).registry.module f.module).name
      return "call " ++ module ++ "." ++ f.name ++ "(" ++ ", ".intercalate shown ++ ")") :=
    (Shows.mapM Shows.canonical args).bind fun _ => Shows.get.bind fun _ => .pure _
  rw [Eval.callFunction.eq_def, Eval.callFunction.eq_def]
  cases calls with
  | zero =>
    dsimp only
    split
    · exact raise_bind _
    · exact (traceValues shows).bind fun _ => throw _
  | succ calls =>
    dsimp only
    split
    · exact raise_bind _
    · refine (traceValues shows).bind fun _ => ?_
      refine ((runBody traced calls f receiver args).inFunction f.module).bind fun flow => ?_
      exact answer f flow

theorem call (traced : ev₁.Traced cfg ev₂) (calls : Nat) (callee : BoxId) (args : List BoxId) :
    Alongside cfg Stop.OfTracing (call ev₁ cfg calls callee args)
      (call ev₂ cfg.silent calls callee args) := by
  refine get_bind (fun _ => rfl) fun s => ?_
  dsimp only
  split
  · exact builtinCall _ args
  · exact callFunction traced calls _ none args
  · exact callFunction traced calls _ (some _) args
  · exact raise _

/-! ## Expressions -/

variable {ctx : Context}

theorem literal (value : Literal) : Alongside cfg P (literal value) (literal value) := by
  cases value with
  | int n => exact alloc _
  | float x => exact alloc _
  | str s => exact alloc _
  | bool b => exact alloc _

theorem ident (name : String) : Alongside cfg P (ident ctx name) (ident ctx name) := by
  refine (getObj? ctx.module name).bind fun found => ?_
  split
  · exact pure _
  · refine (getStruct? ctx.module name).bind fun found => ?_
    split
    · exact alloc _
    · refine get_bind (fun _ => rfl) fun s => ?_
      split
      · exact pure _
      · exact raise _

theorem binary (traced : ev₁.Traced cfg ev₂) (op : BinaryOp) (left right : Expr) :
    Alongside cfg Stop.OfTracing (binary ev₁ cfg ctx op left right)
      (binary ev₂ cfg.silent ctx op left right) := by
  refine (traced.expr ctx left).bind fun l => (read l).bind fun v => ?_
  split
  · exact alloc _
  · refine (traced.expr ctx right).bind fun r => (read l).bind fun v => (read r).bind fun w => ?_
    exact (onHeap _).bind fun x => alloc x

theorem unary (traced : ev₁.Traced cfg ev₂) (op : UnaryOp) (operand : Expr) :
    Alongside cfg Stop.OfTracing (unary ev₁ ctx op operand) (unary ev₂ ctx op operand) :=
  (traced.expr ctx operand).bind fun b => (read b).bind fun _ => (onHeap _).bind fun v => alloc v

theorem indexValue (key : BoxId) (size : Nat) :
    Alongside cfg P (indexValue key size) (indexValue key size) := by
  refine (read key).bind fun v => ?_
  split
  · split
    · exact raise _
    · exact pure _
  · exact typeMismatch "i64" key

theorem boundValue (bound : BoxId) (size : Nat) :
    Alongside cfg P (boundValue bound size) (boundValue bound size) := by
  refine (read bound).bind fun v => ?_
  split
  · split
    · exact raise _
    · exact pure _
  · exact typeMismatch "i64" bound

/-- The entry of a dictionary under a key, which has to be there. -/
theorem dictEntry (d : DictId) (container key : BoxId) :
    Alongside cfg P
      (do
        match ← Eval.onHeap (HeapM.dictGet? cfg.dataLimit d key) with
        | some b => return b
        | none => Eval.onHeap (HeapM.keyNotFound cfg.dataLimit container key))
      (do
        match ← Eval.onHeap (HeapM.dictGet? cfg.silent.dataLimit d key) with
        | some b => return b
        | none => Eval.onHeap (HeapM.keyNotFound cfg.silent.dataLimit container key)) := by
  refine (onHeap _).bind fun found => ?_
  split
  · exact pure _
  · exact onHeap _

theorem index (traced : ev₁.Traced cfg ev₂) (target key : Expr) :
    Alongside cfg Stop.OfTracing (index ev₁ cfg ctx target key)
      (index ev₂ cfg.silent ctx target key) := by
  refine (traced.expr ctx target).bind fun t => (traced.expr ctx key).bind fun k => ?_
  refine (read t).bind fun v => ?_
  split
  · exact dictEntry _ t k
  · dsimp only
    split
    · exact (typeName t).bind fun _ => raise_bind _
    · refine (onHeap _).bind fun s => (indexValue k s.size).bind fun i => ?_
      exact onHeap _

theorem sliceBound (traced : ev₁.Traced cfg ev₂) (size default : Nat) (bound : Option Expr) :
    Alongside cfg Stop.OfTracing (sliceBound ev₁ ctx size default bound)
      (sliceBound ev₂ ctx size default bound) := by
  cases bound with
  | none => exact pure _
  | some e => exact (traced.expr ctx e).bind fun b => boundValue b size

theorem slice (traced : ev₁.Traced cfg ev₂) (target : Expr) (first last : Option Expr) :
    Alongside cfg Stop.OfTracing (slice ev₁ ctx target first last)
      (slice ev₂ ctx target first last) := by
  refine (traced.expr ctx target).bind fun t => (read t).bind fun v => ?_
  dsimp only
  split
  · exact (typeName t).bind fun _ => raise_bind _
  · refine (onHeap _).bind fun s => (sliceBound traced _ _ first).bind fun start => ?_
    refine (sliceBound traced _ _ last).bind fun stop => ?_
    split
    · exact raise_bind _
    · exact (onHeap _).bind fun x => alloc x

theorem moduleMember (m : ModuleId) (moduleName name : String) :
    Alongside cfg P (moduleMember m moduleName name) (moduleMember m moduleName name) := by
  refine (getObj? m name).bind fun found => ?_
  split
  · exact pure _
  · refine (getStruct? m name).bind fun found => ?_
    split
    · exact alloc _
    · exact raise _

theorem instanceMember (i : InstanceId) (name : String) :
    Alongside cfg P (instanceMember i name) (instanceMember i name) := by
  refine get_bind (fun _ => rfl) fun s => ?_
  dsimp only
  split
  · exact pure _
  · split
    · exact alloc _
    · exact raise _

theorem select (traced : ev₁.Traced cfg ev₂) (target : Expr) (name : String) :
    Alongside cfg Stop.OfTracing (select ev₁ ctx target name) (select ev₂ ctx target name) := by
  refine (traced.expr ctx target).bind fun t => (read t).bind fun v => ?_
  split
  · exact moduleMember _ _ name
  · exact instanceMember _ name
  · exact typeMismatch "struct or mod" t

theorem listLiteral (traced : ev₁.Traced cfg ev₂) (elements : List Expr) :
    Alongside cfg Stop.OfTracing (listLiteral ev₁ ctx elements) (listLiteral ev₂ ctx elements) := by
  refine (mapM (fun e => (traced.expr ctx e).bind fun b => copy b) elements).bind fun boxes => ?_
  exact (onHeap _).bind fun l => alloc _

theorem dictLiteral (traced : ev₁.Traced cfg ev₂) (entries : List (Expr × Expr)) :
    Alongside cfg Stop.OfTracing (dictLiteral ev₁ cfg ctx entries)
      (dictLiteral ev₂ cfg.silent ctx entries) := by
  refine (onHeap _).bind fun d => (forM (fun e => ?_) entries).bind fun _ => alloc _
  refine (traced.expr ctx e.1).bind fun key => (traced.expr ctx e.2).bind fun b => ?_
  exact (copy b).bind fun value => onHeap _

theorem initFields (traced : ev₁.Traced cfg ev₂) (s : StructDef) (given : List (Ident × Expr))
    (fields : OrderedMap String BoxId) :
    Alongside cfg Stop.OfTracing (initFields ev₁ cfg ctx s given fields)
      (initFields ev₂ cfg.silent ctx s given fields) := by
  induction given generalizing fields with
  | nil => exact pure _
  | cons e rest ih =>
    rw [Eval.initFields, Eval.initFields]
    split
    · exact raiseAt_bind _ _ _
    · exact (traced.expr ctx e.2).bind fun b => (onHeap _).bind fun value => ih _

theorem instantiate (traced : ev₁.Traced cfg ev₂) (name : String) (given : List (Ident × Expr)) :
    Alongside cfg Stop.OfTracing (instantiate ev₁ cfg ctx name given)
      (instantiate ev₂ cfg.silent ctx name given) := by
  refine (getStruct? ctx.module name).bind fun found => ?_
  split
  · exact raise _
  · refine get_bind (fun _ => rfl) fun s => ?_
    refine (mapM (fun field => (alloc _).bind fun b => pure _) _).bind fun empty => ?_
    refine (initFields traced _ given _).bind fun fields => ?_
    exact (onHeap _).bind fun i => alloc _

theorem expr (traced : ev₁.Traced cfg ev₂) (e : Expr) :
    Alongside cfg Stop.OfTracing (Eval.expr ev₁ cfg ctx e) (Eval.expr ev₂ cfg.silent ctx e) := by
  apply located
  cases e with
  | literal _ value => exact literal value
  | ident _ name => exact ident name
  | binary _ op left right => exact binary traced op left right
  | unary _ op operand => exact unary traced op operand
  | call _ callee args =>
    refine (traced.expr ctx callee).bind fun f => (mapM (traced.expr ctx) args).bind fun boxes => ?_
    exact call traced ctx.calls f boxes
  | index _ target key => exact index traced target key
  | slice _ target first last => exact slice traced target first last
  | select _ target name => exact select traced target name
  | list _ elements => exact listLiteral traced elements
  | dict _ entries => exact dictLiteral traced entries
  | structInit _ name _ fields => exact instantiate traced name fields

/-! ## Assignment -/

theorem element (container key : BoxId) :
    Alongside cfg P (element container key) (element container key) := by
  refine get_bind (fun _ => rfl) fun s => ?_
  dsimp only
  split
  · exact raise _
  · exact (indexValue key _).bind fun i => onHeap _
  · exact raise _

theorem memberBox (owner : BoxId) (name : String) :
    Alongside cfg P (memberBox owner name) (memberBox owner name) := by
  refine get_bind (fun _ => rfl) fun s => ?_
  dsimp only
  split
  · refine (getObj? _ name).bind fun found => ?_
    split
    · exact pure _
    · exact raise _
  · split
    · exact pure _
    · exact raise _
  · exact raise _

theorem place (traced : ev₁.Traced cfg ev₂) (target : Expr) :
    Alongside cfg Stop.OfTracing (place ev₁ cfg ctx target) (place ev₂ cfg.silent ctx target) := by
  apply located
  split
  · refine (getObj? ctx.module _).bind fun found => ?_
    split
    · exact pure _
    · exact raise _
  · next container key =>
    refine (traced.expr ctx container).bind fun c => (traced.expr ctx key).bind fun k => ?_
    refine (read c).bind fun v => ?_
    split
    · exact dictEntry _ c k
    · exact element c k
  · next owner name => exact (traced.expr ctx owner).bind fun o => memberBox o name
  · exact raise _
  · exact raise _

/-- The value of one box is written into another one. -/
theorem overwrite (b value : BoxId) :
    Alongside cfg P (do Eval.write b (← Eval.read value)) (do Eval.write b (← Eval.read value)) :=
  (read value).bind fun v => write b v

theorem assignTo (traced : ev₁.Traced cfg ev₂) (target : Expr) (value : BoxId) :
    Alongside cfg Stop.OfTracing (assignTo ev₁ cfg ctx target value)
      (assignTo ev₂ cfg.silent ctx target value) := by
  rw [Eval.assignTo.eq_def, Eval.assignTo.eq_def]
  split
  · refine (getObj? ctx.module _).bind fun found => ?_
    split
    · exact overwrite _ value
    · exact setObj _ _ value
  · next p container key =>
    refine (traced.expr ctx container).bind fun c => (traced.expr ctx key).bind fun k => ?_
    refine (read c).bind fun v => ?_
    split
    · refine (onHeap _).bind fun found => ?_
      split
      · exact overwrite _ value
      · exact onHeap _
    · exact ((element c k).located ctx.module p).bind fun b => overwrite b value
  · exact (place traced _).bind fun b => overwrite b value

theorem assignAll (traced : ev₁.Traced cfg ev₂) (targets : List Expr) (values : List BoxId) :
    Alongside cfg Stop.OfTracing (assignAll ev₁ cfg ctx targets values)
      (assignAll ev₂ cfg.silent ctx targets values) := by
  refine forM (fun e => ?_) _
  exact assignTo traced e.1 e.2

theorem assignPlain (traced : ev₁.Traced cfg ev₂) (left right : List Expr) :
    Alongside cfg Stop.OfTracing (assignPlain ev₁ cfg ctx left right)
      (assignPlain ev₂ cfg.silent ctx left right) := by
  rw [Eval.assignPlain, Eval.assignPlain]
  split
  · exact raise_bind _
  · refine (mapM (fun e => ?_) right).bind fun values => assignAll traced left values
    exact (traced.expr ctx e).bind fun b => copy b

theorem canonical (b : BoxId) : Alongside cfg P (canonical cfg b) (canonical cfg.silent b) :=
  (read b).bind fun _ => onHeap _

theorem assignUnpack (traced : ev₁.Traced cfg ev₂) (left right : List Expr) :
    Alongside cfg Stop.OfTracing (assignUnpack ev₁ cfg ctx left right)
      (assignUnpack ev₂ cfg.silent ctx left right) := by
  rw [Eval.assignUnpack.eq_def, Eval.assignUnpack.eq_def]
  split
  · next e =>
    refine (traced.expr ctx e).bind fun b => ?_
    split
    · exact (copy b).bind fun value => assignTo traced _ value
    · refine (read b).bind fun v => ?_
      dsimp only
      split
      · exact (typeName b).bind fun _ => raiseAt_bind _ _ _
      · refine (onHeap _).bind fun s => ?_
        split
        · exact (canonical b).bind fun _ => raise_bind _
        · refine (onHeap _).bind fun elements => (mapM copy elements).bind fun values => ?_
          exact assignAll traced left values
  · exact raise _

theorem updateBox (op : ComputeOp) (b right : BoxId) :
    Alongside cfg P (updateBox cfg op b right) (updateBox cfg.silent op b right) := by
  refine (read b).bind fun l => (read right).bind fun r s => ?_
  have computed : Beside cfg (fun _ => False) s (Eval.onHeap (op.binary.apply cfg.dataLimit l r))
      (Eval.onHeap (op.binary.apply cfg.silent.dataLimit l r)) := onHeap _ s
  refine computed.observe_bind (fun result => ?_) fun _ impossible => impossible.elim
  split
  · exact write b _
  · exact (typeName b).bind fun _ => (typeName right).bind fun _ => raise _
  · exact throw _

theorem isUnbound (target : Expr) :
    Alongside cfg P (isUnbound ctx target) (isUnbound ctx target) := by
  rw [Eval.isUnbound.eq_def]
  split
  · refine (getObj? ctx.module _).bind fun found => ?_
    split
    · exact pure _
    · exact pure _
  · exact pure _

theorem assignCompute (traced : ev₁.Traced cfg ev₂) (op : ComputeOp) (left right : List Expr) :
    Alongside cfg Stop.OfTracing (assignCompute ev₁ cfg ctx op left right)
      (assignCompute ev₂ cfg.silent ctx op left right) := by
  rw [Eval.assignCompute.eq_def, Eval.assignCompute.eq_def]
  split
  · next target e =>
    refine (traced.expr ctx e).bind fun r => (isUnbound target).bind fun unbound => ?_
    split
    · exact (copy r).bind fun value => setObj _ _ value
    · exact (place traced target).bind fun b => updateBox op b r
  · exact raise _
  · exact raise _

theorem assign (traced : ev₁.Traced cfg ev₂) (op : AssignOp) (left right : List Expr) :
    Alongside cfg Stop.OfTracing (assign ev₁ cfg ctx op left right)
      (assign ev₂ cfg.silent ctx op left right) := by
  cases op with
  | plain => exact assignPlain traced left right
  | unpack => exact assignUnpack traced left right
  | compute op => exact assignCompute traced op left right

/-! ## Conditions and loops -/

/-- A condition is traced by its value. -/
theorem condition (traced : ev₁.Traced cfg ev₂) (what : String) (e : Expr) :
    Alongside cfg Stop.OfTracing (condition ev₁ cfg ctx what e)
      (condition ev₂ cfg.silent ctx what e) := by
  refine (traced.expr ctx e).bind fun b => get_bind (fun _ => rfl) fun s => (read b).bind fun v => ?_
  exact (traceValues ((Shows.canonical b).bind fun _ => .pure _)).bind fun _ => pure _

theorem runBranches (traced : ev₁.Traced cfg ev₂) (otherwise : Option Block)
    (branches : List (Expr × Block)) :
    Alongside cfg Stop.OfTracing (runBranches ev₁ cfg ctx otherwise branches)
      (runBranches ev₂ cfg.silent ctx otherwise branches) := by
  induction branches with
  | nil =>
    cases otherwise with
    | none => exact pure _
    | some block => exact runBlock (traced.stmt ctx) block
  | cons branch rest ih =>
    refine (condition traced "if" branch.1).bind fun holds => ?_
    split
    · exact runBlock (traced.stmt ctx) branch.2
    · exact ih

theorem forTurns (traced : ev₁.Traced cfg ev₂) (counter element : String) (body : Block)
    (boxes : List BoxId) (turn : Nat) :
    Alongside cfg Stop.OfTracing (forTurns ev₁ ctx counter element body boxes turn)
      (forTurns ev₂ ctx counter element body boxes turn) := by
  induction boxes generalizing turn with
  | nil => exact pure _
  | cons b rest ih =>
    refine (alloc _).bind fun number => (declareObj _ counter number).bind fun _ => ?_
    refine (copy b).bind fun item => (declareObj _ element item).bind fun _ => ?_
    refine (runBlock (traced.stmt ctx) body).bind fun flow => ?_
    split
    · exact pure _
    · exact ih (turn + 1)

theorem forLoop (traced : ev₁.Traced cfg ev₂) (target : Expr) (counter element : String)
    (body : Block) :
    Alongside cfg Stop.OfTracing (forLoop ev₁ ctx target counter element body)
      (forLoop ev₂ ctx target counter element body) := by
  refine (traced.expr ctx target).bind fun t => (read t).bind fun v => ?_
  dsimp only
  split
  · exact (typeName t).bind fun _ => raiseAt_bind _ _ _
  · apply inBlock
    refine (onHeap _).bind fun s => (onHeap _).bind fun boxes => ?_
    exact forTurns traced counter element body boxes 0

theorem whileTurns (traced : ev₁.Traced cfg ev₂) (e : Expr) (body : Block) (fuel : Nat) :
    Alongside cfg Stop.OfTracing (whileTurns ev₁ cfg ctx e body fuel)
      (whileTurns ev₂ cfg.silent ctx e body fuel) := by
  induction fuel with
  | zero => exact throw _
  | succ fuel ih =>
    refine (condition traced "loop" e).bind fun holds => ?_
    split
    · refine (runBlock (traced.stmt ctx) body).bind fun flow => ?_
      split
      · exact pure _
      · exact ih
    · exact pure _

/-! ## Definitions -/

theorem defineFunction (d : FunctionDecl) :
    Alongside cfg Stop.OfTracing (defineFunction cfg ctx d) (defineFunction cfg.silent ctx d) := by
  refine (onHeap _).bind fun f => (alloc _).bind fun b => (setObj _ _ b).bind fun _ => ?_
  exact traceText (by decide) fun s => ⟨_, rfl⟩

theorem defineStruct (name : String) (fields : List String) (methods : List FunctionDecl) :
    Alongside cfg Stop.OfTracing (defineStruct cfg ctx name fields methods)
      (defineStruct cfg.silent ctx name fields methods) := by
  rw [Eval.defineStruct, Eval.defineStruct]
  split
  · exact raise_bind _
  · refine (mapM (fun d => ?_) methods).bind fun functions => (onHeap _).bind fun s => ?_
    · exact (onHeap _).bind fun f => pure _
    · exact (onScope _ _).bind fun _ => traceText (by decide) fun s => ⟨_, rfl⟩

/-! ## Modules -/

theorem checkTopLevel (m : ModuleId) (s : Stmt) (flow : Flow) :
    Alongside cfg P (checkTopLevel m s flow) (checkTopLevel m s flow) := by
  rw [Eval.checkTopLevel]
  split
  · exact raiseAt m s.position _
  · exact pure _

theorem traceStatement (m : ModuleId) (s : Stmt) :
    Alongside cfg P (traceStatement cfg m s) (traceStatement cfg.silent m s) :=
  traceText (by decide) fun s => ⟨_, rfl⟩

theorem runTopLevel (traced : ev₁.Traced cfg ev₂) (block : Block) :
    Alongside cfg Stop.OfTracing (runTopLevel ev₁ cfg ctx block)
      (runTopLevel ev₂ cfg.silent ctx block) := by
  induction block with
  | nil => exact pure _
  | cons s rest ih =>
    refine (traceStatement ctx.module s).bind fun _ => (traced.stmt ctx s).bind fun flow => ?_
    exact (checkTopLevel ctx.module s flow).bind fun _ => ih

theorem checkEnding (m : ModuleId) (ending : Ending) :
    Alongside cfg P (checkEnding m ending) (checkEnding m ending) := by
  cases ending with
  | complete last => exact pure _
  | failed failure => exact get_bind (fun _ => rfl) fun s => throw _

theorem addModule (M : Module) : Alongside cfg P (addModule M) (addModule M) :=
  of_blind (fun _ => rfl) fun s => .refl s

theorem runLoaded (traced : ev₁.Traced cfg ev₂) (calls : Nat) (M : Module) (id : ModuleId) :
    Alongside cfg Stop.OfTracing (runLoaded ev₁ cfg calls M id)
      (runLoaded ev₂ cfg.silent calls M id) := by
  refine (traceText (by decide) fun s => ⟨_, rfl⟩).bind fun _ => ?_
  exact (runTopLevel traced _).bind fun _ => (checkEnding id _).bind fun _ => pure _

theorem loadFile (traced : ev₁.Traced cfg ev₂) (calls : Nat) (path : String) :
    Alongside cfg Stop.OfTracing (loadFile ev₁ cfg calls path)
      (loadFile ev₂ cfg.silent calls path) := by
  refine get_bind (fun s => by rw [State.untraced_registry]) fun s => ?_
  dsimp only [Config.silent]
  split
  · exact (traceText (by decide) fun s => ⟨_, rfl⟩).bind fun _ => pure _
  · split
    · exact raise _
    · exact (addModule _).bind fun id => runLoaded traced calls _ id

theorem loadHost (name : String) :
    Alongside cfg Stop.OfTracing (loadHost cfg name) (loadHost cfg.silent name) := by
  refine get_bind (fun _ => rfl) fun s => ?_
  split
  · exact pure _
  · split
    · exact raise _
    · refine (mapM (fun e => ?_) _).bind fun objs => (addModule _).bind fun id => ?_
      · exact (alloc e.2).bind fun b => pure _
      · exact (traceText (by decide) fun s => ⟨_, rfl⟩).bind fun _ => pure _

theorem importModule (traced : ev₁.Traced cfg ev₂) (name : String) :
    Alongside cfg Stop.OfTracing (importModule ev₁ cfg ctx name)
      (importModule ev₂ cfg.silent ctx name) := by
  refine get_bind (fun s => ?_) fun s => ?_
  · rw [State.untraced_registry]
  · dsimp only [Config.silent]
    split
    · exact loadFile traced ctx.calls _
    · exact loadHost name

theorem importStatement (traced : ev₁.Traced cfg ev₂) (target : String) :
    Alongside cfg Stop.OfTracing (importStatement ev₁ cfg ctx target)
      (importStatement ev₂ cfg.silent ctx target) := by
  refine (importModule traced target).bind fun m => get_bind (fun _ => rfl) fun s => ?_
  exact (alloc _).bind fun b => setObj _ _ b

/-! ## Statements -/

theorem stmt (traced : ev₁.Traced cfg ev₂) (turns : Nat) (s : Stmt) :
    Alongside cfg Stop.OfTracing (Eval.stmt ev₁ cfg turns ctx s)
      (Eval.stmt ev₂ cfg.silent turns ctx s) := by
  apply located
  split
  · exact pure _
  · exact (assign traced _ _ _).bind fun _ => pure _
  · exact (runBranches traced _ _).inBlock ctx.module
  · exact forLoop traced _ _ _ _
  · exact (whileTurns traced _ _ turns).inBlock ctx.module
  · exact (defineFunction _).bind fun _ => pure _
  · exact (defineStruct _ _ _).bind fun _ => pure _
  · exact (importStatement traced _).bind fun _ => pure _
  · exact pure _
  · exact (traced.expr ctx _).bind fun b => pure _
  · exact pure _
  · exact pure _
  · exact (traced.expr ctx _).bind fun b => pure _

end Alongside

/-! ## The recursion -/

/-- Evaluators, traced, stay beside silent ones, whatever the fuel. -/
theorem evaluators_traced (cfg : Config) (fuel : Nat) :
    (evaluators cfg fuel).Traced cfg (evaluators cfg.silent fuel) := by
  induction fuel with
  | zero =>
    refine ⟨fun ctx e => ?_, fun ctx s => ?_⟩
    · change Alongside cfg _ (evalExpr cfg 0 ctx e) (evalExpr cfg.silent 0 ctx e)
      rw [evalExpr_zero, evalExpr_zero]
      exact .throw _
    · change Alongside cfg _ (evalStmt cfg 0 ctx s) (evalStmt cfg.silent 0 ctx s)
      rw [evalStmt_zero, evalStmt_zero]
      exact .throw _
  | succ fuel ih =>
    refine ⟨fun ctx e => ?_, fun ctx s => ?_⟩
    · change Alongside cfg _ (evalExpr cfg (fuel + 1) ctx e) (evalExpr cfg.silent (fuel + 1) ctx e)
      rw [evalExpr_succ, evalExpr_succ]
      exact .expr ih e
    · change Alongside cfg _ (evalStmt cfg (fuel + 1) ctx s) (evalStmt cfg.silent (fuel + 1) ctx s)
      rw [evalStmt_succ, evalStmt_succ]
      exact .stmt ih fuel s

end Shiba

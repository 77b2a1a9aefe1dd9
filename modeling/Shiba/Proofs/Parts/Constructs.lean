import Shiba.Proofs.Lockstep.Stmt
import Shiba.Proofs.Parts.Basic

/-!
# Every construct is built from its parts

One rule for every construct.  Only an import registers modules, and it does so before the parts it has,
which are the top-level statements of its module (`Built.runTopLevel`).
-/

namespace Shiba.Built

open Eval

variable {keys : List String} {α β : Type} {cfg : Config} {ctx : Context}

/-! ## Steps of the machine -/

theorem kept {a : Eval α} (same : ∀ s, (a s).2.registry.keys = s.registry.keys) :
    Built keys fun _ => a := by
  have found (s : State) (key : String) : (a s).2.registry.find? key = s.registry.find? key :=
    congrArg (OrderedMap.get? · key) (same s)
  exact .own (fun s key _ => found s key) fun s key registered => by rwa [found]

theorem pure (x : α) : Built keys fun _ => (Pure.pure x : Eval α) := kept fun _ => rfl

theorem throw (stop : Stop) : Built keys fun _ => (MonadExcept.throw stop : Eval α) := kept fun _ => rfl

theorem raise (cause : Cause) : Built keys fun _ => (Eval.raise cause : Eval α) := throw _

/-- What follows an error is never run. -/
theorem raise_bind {f : Evaluators → α → Eval β} (cause : Cause) :
    Built keys fun ev => Eval.raise cause >>= f ev := throw _

theorem raiseAt (m : ModuleId) (p : Position) (cause : Cause) :
    Built keys fun _ => (Eval.raiseAt m p cause : Eval α) := kept fun _ => rfl

theorem raiseAt_bind {f : Evaluators → α → Eval β} (m : ModuleId) (p : Position) (cause : Cause) :
    Built keys fun ev => Eval.raiseAt m p cause >>= f ev :=
  kept (a := Eval.raiseAt m p cause) fun _ => rfl

theorem get_bind {f : Evaluators → State → Eval β} (rest : ∀ s, Built keys fun ev => f ev s) :
    Built keys fun ev => get >>= f ev :=
  (kept fun _ => rfl).bind rest

theorem onHeap (act : HeapM α) : Built keys fun _ => Eval.onHeap act := by
  refine kept fun s => ?_
  rw [onHeap_apply]
  rfl

theorem read (b : BoxId) : Built keys fun _ => Eval.read b := kept fun _ => rfl

theorem typeName (b : BoxId) : Built keys fun _ => Eval.typeName b := kept fun _ => rfl

theorem alloc (v : Value) : Built keys fun _ => Eval.alloc v := onHeap _

theorem copy (b : BoxId) : Built keys fun _ => Eval.copy b := onHeap _

theorem write (b : BoxId) (v : Value) : Built keys fun _ => Eval.write b v := onHeap _

theorem canonical (b : BoxId) : Built keys fun _ => Eval.canonical cfg b := (read b).bind fun _ => onHeap _

theorem display (b : BoxId) : Built keys fun _ => Eval.display cfg b := (read b).bind fun _ => onHeap _

theorem print (text : String) : Built keys fun _ => Eval.print text := kept fun _ => rfl

theorem trace {level : Int} {text : Eval String} (reads : Built keys fun _ => text) :
    Built keys fun _ => Eval.trace cfg level text := by
  unfold Eval.trace
  split
  · exact reads.bind fun _ => kept fun _ => rfl
  · exact pure _

/-- A value of another type than the one expected. -/
theorem typeMismatch (expected : String) (b : BoxId) :
    Built keys fun _ =>
      Eval.typeName b >>= fun found => (Eval.raise (.typeMismatch expected found) : Eval α) :=
  (typeName b).bind fun _ => raise _

theorem mapM {f : Evaluators → α → Eval β} (each : ∀ x, Built keys fun ev => f ev x) (xs : List α) :
    Built keys fun ev => xs.mapM (f ev) := by
  induction xs with
  | nil => exact pure []
  | cons x xs ih =>
    simp only [List.mapM_cons]
    exact (each x).bind fun y => ih.bind fun ys => pure (y :: ys)

theorem forM {f : Evaluators → α → Eval Unit} (each : ∀ x, Built keys fun ev => f ev x) (xs : List α) :
    Built keys fun ev => xs.forM (f ev) := by
  induction xs with
  | nil => exact pure ()
  | cons x xs ih => exact (each x).bind fun _ => ih

/-! ## Scopes -/

theorem resolve (m : ModuleId) : Built keys fun _ => Eval.resolve m := by
  refine get_bind fun s => ?_
  split
  · exact pure _
  · exact raise _

theorem inScope (m : ModuleId) (f : Scope BoxId StructId → α) : Built keys fun _ => Eval.inScope m f :=
  (resolve m).bind fun _ => get_bind fun _ => pure _

theorem onScope (m : ModuleId) (f : Scope BoxId StructId → Scope BoxId StructId) :
    Built keys fun _ => Eval.onScope m f :=
  (resolve m).bind fun _ => kept fun _ => rfl

theorem getObj? (m : ModuleId) (name : String) : Built keys fun _ => Eval.getObj? m name := inScope m _

theorem getStruct? (m : ModuleId) (name : String) : Built keys fun _ => Eval.getStruct? m name :=
  inScope m _

theorem setObj (m : ModuleId) (name : String) (b : BoxId) : Built keys fun _ => Eval.setObj m name b :=
  onScope m _

theorem declareObj (m : ModuleId) (name : String) (b : BoxId) :
    Built keys fun _ => Eval.declareObj m name b :=
  onScope m _

theorem inBlock {a : Evaluators → Eval α} (inner : Built keys a) (m : ModuleId) :
    Built keys fun ev => Eval.inBlock m (a ev) :=
  (resolve m).bind fun m' => inner.within m' _ _ _

theorem inFunction {a : Evaluators → Eval α} (inner : Built keys a) (m : ModuleId) :
    Built keys fun ev => Eval.inFunction m (a ev) :=
  (resolve m).bind fun m' => inner.within m' _ _ _

/-! ## Functions that come with the language -/

theorem length (b : BoxId) : Built keys fun _ => Builtin.length b := by
  refine get_bind fun s => ?_
  dsimp only
  split
  · exact pure _
  · exact pure _
  · exact pure _
  · exact raise _

theorem dictionary (b : BoxId) : Built keys fun _ => Builtin.dictionary b := by
  refine (read b).bind fun v => ?_
  split
  · exact pure _
  · exact typeMismatch "dict" b

theorem exitWith (b : BoxId) : Built keys fun _ => Builtin.exitWith b := by
  refine (read b).bind fun v => ?_
  split
  · exact throw _
  · exact typeMismatch "i64" b

theorem perform (f : Builtin) (args : List BoxId) : Built keys fun _ => f.perform cfg args := by
  rw [Builtin.perform.eq_def]
  split
  · exact (mapM display args).bind fun texts => (print _).bind fun _ => pure _
  · exact length _
  · exact exitWith _
  · exact get_bind fun s => (onHeap _).bind fun text => (print text).bind fun _ => pure _
  · exact (dictionary _).bind fun d => get_bind fun s => onHeap _
  · exact (dictionary _).bind fun d => onHeap _
  · exact (typeName _).bind fun _ => pure _
  · exact (display _).bind fun _ => pure _
  · exact (mapM read args).bind fun values => onHeap _
  · exact (read _).bind fun _ => onHeap _
  · exact (read _).bind fun _ => onHeap _
  · exact (read _).bind fun _ => (read _).bind fun _ => onHeap _
  · exact raise _

theorem builtinCall (f : Builtin) (args : List BoxId) : Built keys fun _ => f.call cfg args := by
  have called : Built keys fun _ => (do
      Eval.trace cfg 3 do
        let shown ← args.mapM (Eval.canonical cfg)
        return "call builtin " ++ f.name ++ "(" ++ ", ".intercalate shown ++ ")"
      Eval.alloc (← f.perform cfg args) : Eval BoxId) := by
    refine (trace ((mapM canonical args).bind fun _ => pure _)).bind fun _ => ?_
    exact (perform f args).bind fun v => alloc v
  unfold Builtin.call
  split
  · split
    · exact raise_bind _
    · exact called
  · exact called

/-! ## Calls -/

theorem runBlock {run : Evaluators → Stmt → Eval Flow} (each : ∀ s, Built keys fun ev => run ev s)
    (block : Block) : Built keys fun ev => Eval.runBlock (run ev) block := by
  induction block with
  | nil => exact pure _
  | cons s rest ih =>
    refine (each s).bind fun flow => ?_
    split
    · exact pure _
    · exact ih

/-- The statements of a block are parts. -/
theorem block (ctx : Context) (block : Block) : Built keys fun ev => Eval.runBlock (ev.stmt ctx) block :=
  runBlock (stmt ctx) block

theorem declareMembers (m : ModuleId) (receiver : InstanceId) :
    Built keys fun _ => Eval.declareMembers m receiver := by
  refine get_bind fun s => (forM (fun e => ?_) _).bind fun _ => forM (fun e => ?_) _
  · exact declareObj m e.1 e.2
  · exact (alloc _).bind fun b => declareObj m e.1 b

theorem declareArgs (m : ModuleId) (params : List String) (args : List BoxId) :
    Built keys fun _ => Eval.declareArgs cfg m params args := by
  refine forM (fun e => ?_) _
  exact (onHeap _).bind fun b => declareObj m e.1 b

theorem answer (f : Function) (flow : Flow) : Built keys fun _ => Eval.answer f flow := by
  rw [Eval.answer.eq_def]
  split
  · exact pure _
  · exact raise _
  · exact raise _
  · exact alloc _

theorem runBody (calls : Nat) (f : Function) (receiver : Option InstanceId) (args : List BoxId) :
    Built keys fun ev => Eval.runBody ev cfg calls f receiver args := by
  have body : Built keys fun ev => (do
      Eval.declareArgs cfg f.module f.params args
      Eval.runBlock (ev.stmt ⟨f.module, calls⟩) f.body) :=
    (declareArgs f.module f.params args).bind fun _ => block _ f.body
  cases receiver with
  | none => exact body
  | some receiver => exact (declareMembers f.module receiver).bind fun _ => body

theorem callFunction (calls : Nat) (f : Function) (receiver : Option InstanceId) (args : List BoxId) :
    Built keys fun ev => Eval.callFunction ev cfg calls f receiver args := by
  have shown : Built keys fun _ => (do
      let shown ← args.mapM (Eval.canonical cfg)
      let module := ((← get).registry.module f.module).name
      return "call " ++ module ++ "." ++ f.name ++ "(" ++ ", ".intercalate shown ++ ")" : Eval String) :=
    (mapM canonical args).bind fun _ => get_bind fun _ => pure _
  unfold Eval.callFunction
  dsimp only
  split
  · exact raise_bind _
  · refine (trace shown).bind fun _ => ?_
    cases calls with
    | zero => exact throw _
    | succ calls => exact ((runBody calls f receiver args).inFunction f.module).bind (answer f)

theorem call (calls : Nat) (callee : BoxId) (args : List BoxId) :
    Built keys fun ev => Eval.call ev cfg calls callee args := by
  refine get_bind fun s => ?_
  dsimp only
  split
  · exact builtinCall _ args
  · exact callFunction calls _ none args
  · exact callFunction calls _ (some _) args
  · exact raise _

/-! ## Expressions -/

theorem literal (value : Literal) : Built keys fun _ => Eval.literal value := by
  cases value with
  | int | float | str | bool => exact alloc _

theorem ident (name : String) : Built keys fun _ => Eval.ident ctx name := by
  refine (getObj? ctx.module name).bind fun found => ?_
  split
  · exact pure _
  · refine (getStruct? ctx.module name).bind fun found => ?_
    split
    · exact alloc _
    · refine get_bind fun s => ?_
      split
      · exact pure _
      · exact raise _

theorem binary (op : BinaryOp) (left right : Expr) :
    Built keys fun ev => Eval.binary ev cfg ctx op left right := by
  refine (Built.expr ctx left).bind fun l => (read l).bind fun v => ?_
  split
  · exact alloc _
  · refine (Built.expr ctx right).bind fun r => (read l).bind fun v => (read r).bind fun w => ?_
    exact (onHeap _).bind fun x => alloc x

theorem unary (op : UnaryOp) (operand : Expr) : Built keys fun ev => Eval.unary ev ctx op operand :=
  (Built.expr ctx operand).bind fun b => (read b).bind fun _ => (onHeap _).bind fun v => alloc v

theorem indexValue (key : BoxId) (size : Nat) : Built keys fun _ => Eval.indexValue key size := by
  refine (read key).bind fun v => ?_
  split
  · split
    · exact raise _
    · exact pure _
  · exact typeMismatch "i64" key

theorem boundValue (bound : BoxId) (size : Nat) : Built keys fun _ => Eval.boundValue bound size := by
  refine (read bound).bind fun v => ?_
  split
  · split
    · exact raise _
    · exact pure _
  · exact typeMismatch "i64" bound

/-- The entry of a dictionary under a key, which has to be there. -/
theorem dictEntry (d : DictId) (container key : BoxId) :
    Built keys fun _ => (do
      match ← Eval.onHeap (HeapM.dictGet? cfg.dataLimit d key) with
      | some b => return b
      | none => Eval.onHeap (HeapM.keyNotFound cfg.dataLimit container key) : Eval BoxId) := by
  refine (onHeap _).bind fun found => ?_
  split
  · exact pure _
  · exact onHeap _

theorem index (target key : Expr) : Built keys fun ev => Eval.index ev cfg ctx target key := by
  refine (Built.expr ctx target).bind fun t => (Built.expr ctx key).bind fun k => (read t).bind fun v => ?_
  split
  · exact dictEntry _ t k
  · dsimp only
    split
    · exact (typeName t).bind fun _ => raise_bind _
    · exact (onHeap _).bind fun s => (indexValue k s.size).bind fun i => onHeap _

theorem sliceBound (size default : Nat) (bound : Option Expr) :
    Built keys fun ev => Eval.sliceBound ev ctx size default bound := by
  cases bound with
  | none => exact pure _
  | some e => exact (Built.expr ctx e).bind fun b => boundValue b size

theorem slice (target : Expr) (first last : Option Expr) :
    Built keys fun ev => Eval.slice ev ctx target first last := by
  refine (Built.expr ctx target).bind fun t => (read t).bind fun v => ?_
  dsimp only
  split
  · exact (typeName t).bind fun _ => raise_bind _
  · refine (onHeap _).bind fun s => (sliceBound _ _ first).bind fun start => ?_
    refine (sliceBound _ _ last).bind fun stop => ?_
    split
    · exact raise_bind _
    · exact (onHeap _).bind fun x => alloc x

theorem moduleMember (m : ModuleId) (moduleName name : String) :
    Built keys fun _ => Eval.moduleMember m moduleName name := by
  refine (getObj? m name).bind fun found => ?_
  split
  · exact pure _
  · refine (getStruct? m name).bind fun found => ?_
    split
    · exact alloc _
    · exact raise _

theorem instanceMember (i : InstanceId) (name : String) :
    Built keys fun _ => Eval.instanceMember i name := by
  refine get_bind fun s => ?_
  dsimp only
  split
  · exact pure _
  · split
    · exact alloc _
    · exact raise _

theorem select (target : Expr) (name : String) : Built keys fun ev => Eval.select ev ctx target name := by
  refine (Built.expr ctx target).bind fun t => (read t).bind fun v => ?_
  split
  · exact moduleMember _ _ name
  · exact instanceMember _ name
  · exact typeMismatch "struct or mod" t

theorem listLiteral (elements : List Expr) : Built keys fun ev => Eval.listLiteral ev ctx elements := by
  refine (mapM (fun e => (Built.expr ctx e).bind fun b => copy b) elements).bind fun boxes => ?_
  exact (onHeap _).bind fun l => alloc _

theorem dictLiteral (entries : List (Expr × Expr)) :
    Built keys fun ev => Eval.dictLiteral ev cfg ctx entries := by
  refine (onHeap _).bind fun d => (forM (fun e => ?_) entries).bind fun _ => alloc _
  refine (Built.expr ctx e.1).bind fun key => (Built.expr ctx e.2).bind fun b => ?_
  exact (copy b).bind fun value => onHeap _

theorem initFields (s : StructDef) (given : List (Ident × Expr)) (fields : OrderedMap String BoxId) :
    Built keys fun ev => Eval.initFields ev cfg ctx s given fields := by
  induction given generalizing fields with
  | nil => exact pure _
  | cons e rest ih =>
    simp only [Eval.initFields]
    split
    · exact raiseAt_bind _ _ _
    · exact (Built.expr ctx e.2).bind fun b => (onHeap _).bind fun value => ih _

theorem instantiate (name : String) (given : List (Ident × Expr)) :
    Built keys fun ev => Eval.instantiate ev cfg ctx name given := by
  refine (getStruct? ctx.module name).bind fun found => ?_
  split
  · exact raise _
  · refine get_bind fun s => ?_
    refine (mapM (fun field => (alloc _).bind fun b => pure _) _).bind fun empty => ?_
    refine (initFields _ given _).bind fun fields => ?_
    exact (onHeap _).bind fun i => alloc _

/-- Every expression is built from its parts. -/
theorem expression (cfg : Config) (ctx : Context) (e : Expr) :
    Built keys fun ev => Eval.expr ev cfg ctx e := by
  apply located
  cases e with
  | literal _ value => exact literal value
  | ident _ name => exact ident name
  | binary _ op left right => exact binary op left right
  | unary _ op operand => exact unary op operand
  | call _ callee args =>
    refine (Built.expr ctx callee).bind fun f => (mapM (Built.expr ctx) args).bind fun boxes => ?_
    exact call ctx.calls f boxes
  | index _ target key => exact index target key
  | slice _ target first last => exact slice target first last
  | select _ target name => exact select target name
  | list _ elements => exact listLiteral elements
  | dict _ entries => exact dictLiteral entries
  | structInit _ name _ fields => exact instantiate name fields

/-! ## Assignment -/

theorem element (container key : BoxId) : Built keys fun _ => Eval.element container key := by
  refine get_bind fun s => ?_
  dsimp only
  split
  · exact raise _
  · exact (indexValue key _).bind fun i => onHeap _
  · exact raise _

theorem memberBox (owner : BoxId) (name : String) : Built keys fun _ => Eval.memberBox owner name := by
  refine get_bind fun s => ?_
  dsimp only
  split
  · refine (getObj? _ name).bind fun found => ?_
    split
    · exact pure _
    · exact raise _
  · split
    · exact pure _
    · exact raise _
  · exact raise _

theorem place (target : Expr) : Built keys fun ev => Eval.place ev cfg ctx target := by
  apply located
  split
  · refine (getObj? ctx.module _).bind fun found => ?_
    split
    · exact pure _
    · exact raise _
  · next container key =>
    refine (Built.expr ctx container).bind fun c => (Built.expr ctx key).bind fun k => ?_
    refine (read c).bind fun v => ?_
    split
    · exact dictEntry _ c k
    · exact element c k
  · next owner name => exact (Built.expr ctx owner).bind fun o => memberBox o name
  · exact raise _
  · exact raise _

/-- The value of one box is written into another one. -/
theorem overwrite (b value : BoxId) :
    Built keys fun _ => (do Eval.write b (← Eval.read value) : Eval Unit) :=
  (read value).bind fun v => write b v

theorem assignTo (target : Expr) (value : BoxId) :
    Built keys fun ev => Eval.assignTo ev cfg ctx target value := by
  simp only [Eval.assignTo.eq_def]
  split
  · refine (getObj? ctx.module _).bind fun found => ?_
    split
    · exact overwrite _ value
    · exact setObj _ _ value
  · next p container key =>
    refine (Built.expr ctx container).bind fun c => (Built.expr ctx key).bind fun k => ?_
    refine (read c).bind fun v => ?_
    split
    · refine (onHeap _).bind fun found => ?_
      split
      · exact overwrite _ value
      · exact onHeap _
    · exact ((element c k).located ctx.module p).bind fun b => overwrite b value
  · exact (place _).bind fun b => overwrite b value

theorem assignAll (targets : List Expr) (values : List BoxId) :
    Built keys fun ev => Eval.assignAll ev cfg ctx targets values := by
  refine forM (fun e => ?_) _
  exact assignTo e.1 e.2

theorem assignPlain (left right : List Expr) :
    Built keys fun ev => Eval.assignPlain ev cfg ctx left right := by
  simp only [Eval.assignPlain]
  split
  · exact raise_bind _
  · refine (mapM (fun e => ?_) right).bind fun values => assignAll left values
    exact (Built.expr ctx e).bind fun b => copy b

theorem assignUnpack (left right : List Expr) :
    Built keys fun ev => Eval.assignUnpack ev cfg ctx left right := by
  simp only [Eval.assignUnpack.eq_def]
  split
  · next e =>
    refine (Built.expr ctx e).bind fun b => ?_
    split
    · exact (copy b).bind fun value => assignTo _ value
    · refine (read b).bind fun v => ?_
      split
      · exact (typeName b).bind fun _ => raiseAt_bind _ _ _
      · refine (onHeap _).bind fun s => ?_
        split
        · exact (canonical b).bind fun _ => raise_bind _
        · refine (onHeap _).bind fun elements => (mapM copy elements).bind fun values => ?_
          exact assignAll left values
  · exact raise _

/-- A step on the heap that is watched. -/
theorem observe_onHeap (act : HeapM α) : Built keys fun _ => Eval.observe (Eval.onHeap act) := by
  refine kept fun s => ?_
  rw [Eval.observe, onHeap_apply]
  rfl

theorem updateBox (op : ComputeOp) (b right : BoxId) :
    Built keys fun _ => Eval.updateBox cfg op b right := by
  refine (read b).bind fun l => (read right).bind fun r => (observe_onHeap _).bind fun result => ?_
  split
  · exact write b _
  · exact (typeName b).bind fun _ => (typeName right).bind fun _ => raise _
  · exact throw _

theorem isUnbound (target : Expr) : Built keys fun _ => Eval.isUnbound ctx target := by
  rw [Eval.isUnbound.eq_def]
  split
  · refine (getObj? ctx.module _).bind fun found => ?_
    split
    · exact pure _
    · exact pure _
  · exact pure _

theorem assignCompute (op : ComputeOp) (left right : List Expr) :
    Built keys fun ev => Eval.assignCompute ev cfg ctx op left right := by
  simp only [Eval.assignCompute.eq_def]
  split
  · next target e =>
    refine (Built.expr ctx e).bind fun r => (isUnbound target).bind fun unbound => ?_
    split
    · exact (copy r).bind fun value => setObj _ _ value
    · exact (place target).bind fun b => updateBox op b r
  · exact raise _
  · exact raise _

theorem assign (op : AssignOp) (left right : List Expr) :
    Built keys fun ev => Eval.assign ev cfg ctx op left right := by
  cases op with
  | plain => exact assignPlain left right
  | unpack => exact assignUnpack left right
  | compute op => exact assignCompute op left right

/-! ## Conditions and loops -/

theorem condition (what : String) (e : Expr) :
    Built keys fun ev => Eval.condition ev cfg ctx what e := by
  refine (Built.expr ctx e).bind fun b => get_bind fun s => (read b).bind fun v => ?_
  exact (trace ((canonical b).bind fun _ => pure _)).bind fun _ => pure _

theorem runBranches (otherwise : Option Block) (branches : List (Expr × Block)) :
    Built keys fun ev => Eval.runBranches ev cfg ctx otherwise branches := by
  induction branches with
  | nil =>
    cases otherwise with
    | none => exact pure _
    | some body => exact block ctx body
  | cons branch rest ih =>
    refine (condition "if" branch.1).bind fun holds => ?_
    split
    · exact block ctx branch.2
    · exact ih

theorem forTurns (counter element : String) (body : Block) (boxes : List BoxId) (turn : Nat) :
    Built keys fun ev => Eval.forTurns ev ctx counter element body boxes turn := by
  induction boxes generalizing turn with
  | nil => exact pure _
  | cons b rest ih =>
    refine (alloc _).bind fun number => (declareObj _ counter number).bind fun _ => ?_
    refine (copy b).bind fun item => (declareObj _ element item).bind fun _ => ?_
    refine (block ctx body).bind fun flow => ?_
    split
    · exact pure _
    · exact ih (turn + 1)

theorem forLoop (target : Expr) (counter element : String) (body : Block) :
    Built keys fun ev => Eval.forLoop ev ctx target counter element body := by
  refine (Built.expr ctx target).bind fun t => (read t).bind fun v => ?_
  dsimp only
  split
  · exact (typeName t).bind fun _ => raiseAt_bind _ _ _
  · apply inBlock
    refine (onHeap _).bind fun s => (onHeap _).bind fun boxes => ?_
    exact forTurns counter element body boxes 0

theorem whileTurns (e : Expr) (body : Block) (fuel : Nat) :
    Built keys fun ev => Eval.whileTurns ev cfg ctx e body fuel := by
  induction fuel with
  | zero => exact throw _
  | succ fuel ih =>
    refine (condition "loop" e).bind fun holds => ?_
    split
    · refine (block ctx body).bind fun flow => ?_
      split
      · exact pure _
      · exact ih
    · exact pure _

/-! ## Definitions -/

theorem defineFunction (d : FunctionDecl) : Built keys fun _ => Eval.defineFunction cfg ctx d :=
  (onHeap _).bind fun _ => (alloc _).bind fun b => (setObj _ _ b).bind fun _ => trace (pure _)

theorem defineStruct (name : String) (fields : List String) (methods : List FunctionDecl) :
    Built keys fun _ => Eval.defineStruct cfg ctx name fields methods := by
  unfold Eval.defineStruct
  split
  · exact raise_bind _
  · refine (mapM (fun d => ?_) methods).bind fun functions => (onHeap _).bind fun s => ?_
    · exact (onHeap _).bind fun f => pure _
    · exact (onScope _ _).bind fun _ => trace (pure _)

/-! ## Modules -/

theorem checkTopLevel (m : ModuleId) (s : Stmt) (flow : Flow) :
    Built keys fun _ => Eval.checkTopLevel m s flow := by
  unfold Eval.checkTopLevel
  split
  · exact raiseAt m s.position _
  · exact pure _

theorem traceStatement (m : ModuleId) (s : Stmt) : Built keys fun _ => Eval.traceStatement cfg m s :=
  trace (get_bind fun _ => pure _)

/-- The top-level statements of a module are parts. -/
theorem runTopLevel (body : Block) : Built keys fun ev => Eval.runTopLevel ev cfg ctx body := by
  induction body with
  | nil => exact pure _
  | cons s rest ih =>
    refine (traceStatement ctx.module s).bind fun _ => (Built.stmt ctx s).bind fun flow => ?_
    exact (checkTopLevel ctx.module s flow).bind fun _ => ih

theorem checkEnding (m : ModuleId) (ending : Ending) : Built keys fun _ => Eval.checkEnding m ending := by
  cases ending with
  | complete last => exact pure _
  | failed failure => exact get_bind fun s => throw _

/-- A module registers its key. -/
theorem addModule {M : Module} (member : M.key ∈ keys) : Built keys fun _ => Eval.addModule M := by
  have run (s : State) : Eval.addModule M s = (.ok s.registry.next, s.load M) :=
    Discipline.Agree.run_addModule s M
  refine .own (fun s key foreign => ?_) fun s key registered => ?_
  · rw [run, State.load, Registry.find?_load, if_neg]
    rintro rfl
    exact foreign member
  · rw [run, State.load, Registry.find?_load]
    split
    · exact Option.some_ne_none _
    · exact registered

/-- The keys of the modules that no file holds. -/
def hostKeys : List String := hostModules.map fun e => Path.join Module.hostDirectory e.1

theorem loadHost (name : String) : Built hostKeys fun _ => Eval.loadHost cfg name := by
  refine get_bind fun s => ?_
  split
  · exact pure _
  · split
    · exact raise _
    · next members found =>
      have member : Path.join Module.hostDirectory name ∈ hostKeys := by
        obtain ⟨before, after, split, -⟩ := List.lookup_eq_some_iff.1 found
        rw [hostKeys, split]
        simp
      refine (mapM (fun e => ?_) _).bind fun objs => (addModule member).bind fun id => ?_
      · exact (alloc e.2).bind fun b => pure _
      · exact (trace (pure _)).bind fun _ => pure _

/-- Every statement but an import is built from its parts. -/
theorem statement {code : Stmt} (plain : ∀ p name, code ≠ .importModule p name) (cfg : Config)
    (turns : Nat) (ctx : Context) : Built keys fun ev => Eval.stmt ev cfg turns ctx code := by
  apply located
  split
  · exact pure _
  · exact (assign _ _ _).bind fun _ => pure _
  · exact (runBranches _ _).inBlock ctx.module
  · exact forLoop _ _ _ _
  · exact (whileTurns _ _ turns).inBlock ctx.module
  · exact (defineFunction _).bind fun _ => pure _
  · exact (defineStruct _ _ _).bind fun _ => pure _
  · exact absurd rfl (plain _ _)
  · exact pure _
  · exact (Built.expr ctx _).bind fun b => pure _
  · exact pure _
  · exact pure _
  · exact (Built.expr ctx _).bind fun b => pure _

end Shiba.Built

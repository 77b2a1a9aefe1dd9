import Shiba.Proofs.Blame.Heap

/-!
# Every construct stops accountably

One rule for every construct: when its parts stop accountably, so does the whole.  Most of what goes wrong
is found by steps that do not know where they are, and the rules for expressions, targets and statements
give it a place.  A call goes on in the text of its function, whose errors have places of their own.
-/

namespace Shiba

/-- Evaluators that stop accountably on the code of loaded modules, and end as it is written. -/
structure Evaluators.Accountable (N : Norms) (ev : Evaluators) : Prop where
  expr : ∀ {w : State} {ctx : Context} {e : Expr}, w.Loaded ctx.module →
    e.Within (N.PlaceIn w ctx.module) → N.Steps true w (ev.expr ctx e)
  stmt : ∀ {w : State} {ctx : Context} {s : Stmt}, w.Loaded ctx.module →
    s.Within (N.PlaceIn w ctx.module) N.Inner → N.Steps true w (ev.stmt ctx s)
  ends : ∀ ctx, Eval.EndsAsWritten (ev.stmt ctx)

namespace Norms.Steps

open Eval

variable {α β : Type} {N : Norms} {w : State} {placed : Bool} {cfg : Config} {ev : Evaluators}

/-- What follows an error is never run. -/
theorem raiseAt_bind {m : ModuleId} {p : Position} {cause : Cause} {f : α → Eval β}
    (plain : cause.isJump = false) (loaded : w.Loaded m) (here : N.PlaceIn w m p) :
    N.Steps false w (Eval.raiseAt m p cause >>= f) :=
  (raiseAt plain loaded here : N.Steps true w (Eval.raiseAt m p cause : Eval β)).weaken

/-- A value of another type than the one expected. -/
theorem typeMismatch (expected : String) (b : BoxId) : N.Steps false w
    (Eval.typeName b >>= fun found => (Eval.raise (.typeMismatch expected found) : Eval α)) :=
  (typeName b).bind fun _ => raise rfl

theorem getObj? (m : ModuleId) (name : String) : N.Steps false w (getObj? m name) := inScope m _

theorem getStruct? (m : ModuleId) (name : String) : N.Steps false w (getStruct? m name) := inScope m _

theorem setObj (m : ModuleId) (name : String) (b : BoxId) : N.Steps false w (setObj m name b) :=
  onScope m _

theorem declareObj (m : ModuleId) (name : String) (b : BoxId) : N.Steps false w (declareObj m name b) :=
  onScope m _

/-! ## Functions that come with the language -/

theorem length (b : BoxId) : N.Steps false w (Builtin.length b) := by
  refine get_bind fun s => ?_
  dsimp only
  split
  · exact pure _
  · exact pure _
  · exact pure _
  · exact raise rfl

theorem dictionary (b : BoxId) : N.Steps false w (Builtin.dictionary b) := by
  refine (read b).bind fun v => ?_
  split
  · exact pure _
  · exact typeMismatch "dict" b

theorem exitWith (b : BoxId) : N.Steps false w (Builtin.exitWith b) := by
  refine (read b).bind fun v => ?_
  split
  · exact throw fun _ => trivial
  · exact typeMismatch "i64" b

theorem keyList (b : BoxId) : N.Steps false w (Builtin.keyList cfg b) := by
  refine (dictionary b).bind fun d => get_bind fun s => onHeap ?_
  exact (HeapM.Tame.mapM (.clone _) _).bind fun _ => (HeapM.Tame.allocList _).bind fun _ => .pure _

theorem deleteKey (b key : BoxId) : N.Steps false w (Builtin.deleteKey cfg b key) := by
  refine (dictionary b).bind fun d => onHeap ?_
  refine (HeapM.Tame.dictDelete key).bind fun found => ?_
  split
  · exact .pure _
  · exact .keyNotFound b key

theorem perform (f : Builtin) (args : List BoxId) : N.Steps false w (f.perform cfg args) := by
  rw [Builtin.perform.eq_def]
  split
  · refine (mapM fun b _ => display cfg b).bind fun texts => ?_
    exact (print _).bind fun _ => pure _
  · exact length _
  · exact exitWith _
  · refine get_bind fun s => (onHeap (.bounded _)).bind fun text => ?_
    exact (print text).bind fun _ => pure _
  · exact keyList _
  · exact deleteKey _ _
  · exact (typeName _).bind fun _ => pure _
  · exact (display cfg _).bind fun _ => pure _
  · exact (mapM fun b _ => read b).bind fun values => onHeap (.mathAdd values)
  · exact (read _).bind fun v => onHeap (.mathSqrt v)
  · exact (read _).bind fun v => onHeap (.mathFloor v)
  · exact (read _).bind fun v => (read _).bind fun u => onHeap (.mathPow v u)
  · exact raise rfl

theorem builtinCall (f : Builtin) (args : List BoxId) : N.Steps false w (f.call cfg args) := by
  have called : N.Steps false w (do
      Eval.trace cfg 3 do
        let shown ← args.mapM (Eval.canonical cfg)
        return "call builtin " ++ f.name ++ "(" ++ ", ".intercalate shown ++ ")"
      Eval.alloc (← f.perform cfg args)) := by
    refine (trace ((mapM fun b _ => canonical cfg b).bind fun _ => pure _)).bind fun _ => ?_
    exact (perform f args).bind fun v => alloc v
  rw [Builtin.call]
  split
  · split
    · exact raise_bind rfl
    · exact called
  · exact called

/-! ## Calls -/

theorem runBlock {run : Stmt → Eval Flow} {block : Block}
    (each : ∀ s ∈ block, N.Steps placed w (run s)) : N.Steps placed w (runBlock run block) := by
  induction block with
  | nil => exact pure _
  | cons s rest ih =>
    refine (each s List.mem_cons_self).bind fun flow => ?_
    split
    · exact pure _
    · exact ih fun s' member => each s' (List.mem_cons_of_mem s member)

theorem declareMembers (m : ModuleId) (receiver : InstanceId) :
    N.Steps false w (declareMembers m receiver) := by
  refine get_bind fun s => (forM fun e _ => ?_).bind fun _ => forM fun e _ => ?_
  · exact declareObj m e.1 e.2
  · exact (alloc _).bind fun b => declareObj m e.1 b

theorem declareArgs (m : ModuleId) (params : List String) (args : List BoxId) :
    N.Steps false w (declareArgs cfg m params args) := by
  refine forM fun e _ => ?_
  exact (onHeap (.clone _ _)).bind fun b => declareObj m e.1 b

theorem runBody (ok : ev.Accountable N) (calls : Nat) {f : Function} (admitted : N.Admits w f)
    (receiver : Option InstanceId) (args : List BoxId) :
    N.Steps false w (runBody ev cfg calls f receiver args) := by
  have body : N.Steps false w (do
      Eval.declareArgs cfg f.module f.params args
      Eval.runBlock (ev.stmt ⟨f.module, calls⟩) f.body) := by
    refine (declareArgs f.module f.params args).bind fun _ => runBlock fun stmt member => ?_
    obtain ⟨loaded, -, lies⟩ := admitted stmt member
    exact (ok.stmt loaded lies).weaken
  cases receiver with
  | none => exact body
  | some receiver => exact (declareMembers f.module receiver).bind fun _ => body

theorem answers_runBody (ok : ev.Accountable N) (calls : Nat) (f : Function)
    (receiver : Option InstanceId) (args : List BoxId) :
    (Eval.runBody ev cfg calls f receiver args).Answers (Flow.JumpsIn f.body.Yields) := by
  have body := (ok.ends ⟨f.module, calls⟩).runBlock f.body
  cases receiver with
  | none => exact .after fun _ => body
  | some receiver => exact .after fun _ => .after fun _ => body

/-- A jump that leaves the body of a function is blamed on the body. -/
theorem answer {f : Function} (admitted : N.Admits w f) {flow : Flow}
    (jumps : flow.JumpsIn f.body.Yields) : N.Steps false w (answer f flow) := by
  have blamed (jump : Jump) (isJump : jump ∈ flow.jump?) (ofLoop : jump ≠ .returnValue) :
      N.Steps false w (Eval.raise (.jumpOutsideIn jump f.name) : Eval BoxId) := by
    obtain ⟨stmt, member, yields⟩ := jumps jump isJump
    exact blame ⟨ofLoop, stmt, (admitted stmt member).2.1, yields⟩
  cases flow with
  | breakLoop => exact blamed .breakLoop rfl nofun
  | continueLoop => exact blamed .continueLoop rfl nofun
  | returnValue b =>
    cases b with
    | none => exact alloc _
    | some b => exact pure b
  | done | value => exact alloc _

theorem callFunction (ok : ev.Accountable N) (calls : Nat) {f : Function} (admitted : N.Admits w f)
    (receiver : Option InstanceId) (args : List BoxId) :
    N.Steps false w (callFunction ev cfg calls f receiver args) := by
  have shows : N.Steps false w (do
      let shown ← args.mapM (Eval.canonical cfg)
      let module := ((← get).registry.module f.module).name
      return "call " ++ module ++ "." ++ f.name ++ "(" ++ ", ".intercalate shown ++ ")") :=
    (mapM fun b _ => canonical cfg b).bind fun _ => get_bind fun _ => pure _
  rw [Eval.callFunction.eq_def]
  cases calls with
  | zero =>
    dsimp only
    split
    · exact raise_bind rfl
    · exact (trace shows).bind fun _ => throw fun _ => trivial
  | succ calls =>
    dsimp only
    split
    · exact raise_bind rfl
    · refine (trace shows).bind fun _ => ?_
      have ends : (Eval.inFunction f.module (Eval.runBody ev cfg calls f receiver args)).Answers
          (Flow.JumpsIn f.body.Yields) :=
        .after fun m => (answers_runBody ok calls f receiver args).within _ _
      refine ((runBody ok calls admitted receiver args).inFunction f.module).bind_answers ends ?_
      exact fun flow jumps => answer admitted jumps

theorem call (ok : ev.Accountable N) (calls : Nat) (callee : BoxId) (args : List BoxId) :
    N.Steps false w (call ev cfg calls callee args) := by
  refine get_bind_from fun s _ sourced => ?_
  dsimp only
  split
  · exact builtinCall _ args
  · exact callFunction ok calls (sourced _) none args
  · exact callFunction ok calls (sourced _) (some _) args
  · exact raise rfl

/-! ## Expressions -/

section

variable {ctx : Context} (ok : ev.Accountable N) (loaded : w.Loaded ctx.module)

theorem literal (value : Literal) : N.Steps false w (literal value) := by
  cases value with
  | int n => exact alloc _
  | float x => exact alloc _
  | str s => exact alloc _
  | bool b => exact alloc _

theorem ident (name : String) : N.Steps false w (ident ctx name) := by
  refine (getObj? ctx.module name).bind fun found => ?_
  split
  · exact pure _
  · refine (getStruct? ctx.module name).bind fun found => ?_
    split
    · exact alloc _
    · refine get_bind fun s => ?_
      split
      · exact pure _
      · exact raise rfl

theorem indexValue (key : BoxId) (size : Nat) : N.Steps false w (indexValue key size) := by
  refine (read key).bind fun v => ?_
  split
  · split
    · exact raise rfl
    · exact pure _
  · exact typeMismatch "i64" key

theorem boundValue (bound : BoxId) (size : Nat) : N.Steps false w (boundValue bound size) := by
  refine (read bound).bind fun v => ?_
  split
  · split
    · exact raise rfl
    · exact pure _
  · exact typeMismatch "i64" bound

/-- The entry of a dictionary under a key, which has to be there. -/
theorem dictEntry (d : DictId) (container key : BoxId) : N.Steps false w (do
    match ← Eval.onHeap (HeapM.dictGet? cfg.dataLimit d key) with
    | some b => return b
    | none => Eval.onHeap (HeapM.keyNotFound cfg.dataLimit container key)) := by
  refine (onHeap (.dictGet? key)).bind fun found => ?_
  split
  · exact pure _
  · exact onHeap (.keyNotFound container key)

theorem moduleMember (m : ModuleId) (moduleName name : String) :
    N.Steps false w (moduleMember m moduleName name) := by
  refine (getObj? m name).bind fun found => ?_
  split
  · exact pure _
  · refine (getStruct? m name).bind fun found => ?_
    split
    · exact alloc _
    · exact raise rfl

theorem instanceMember (i : InstanceId) (name : String) : N.Steps false w (instanceMember i name) := by
  refine get_bind fun s => ?_
  dsimp only
  split
  · exact pure _
  · split
    · exact alloc _
    · exact raise rfl

include ok loaded

/-- An expression inside a construct. -/
theorem inside {e : Expr} (lies : e.Within (N.PlaceIn w ctx.module)) :
    N.Steps false w (ev.expr ctx e) :=
  (ok.expr loaded lies).weaken

theorem binary (op : BinaryOp) {left right : Expr} (liesLeft : left.Within (N.PlaceIn w ctx.module))
    (liesRight : right.Within (N.PlaceIn w ctx.module)) :
    N.Steps false w (binary ev cfg ctx op left right) := by
  refine (inside ok loaded liesLeft).bind fun l => (read l).bind fun v => ?_
  split
  · exact alloc _
  · refine (inside ok loaded liesRight).bind fun r => (read l).bind fun v => (read r).bind fun u => ?_
    exact (onHeap (.binary _ _ _ _)).bind fun x => alloc x

theorem unary (op : UnaryOp) {operand : Expr} (lies : operand.Within (N.PlaceIn w ctx.module)) :
    N.Steps false w (unary ev ctx op operand) :=
  (inside ok loaded lies).bind fun b => (read b).bind fun _ => (onHeap (.unary _ _)).bind fun v => alloc v

theorem index {target key : Expr} (lies : target.Within (N.PlaceIn w ctx.module))
    (liesKey : key.Within (N.PlaceIn w ctx.module)) :
    N.Steps false w (index ev cfg ctx target key) := by
  refine (inside ok loaded lies).bind fun t => (inside ok loaded liesKey).bind fun k => ?_
  refine (read t).bind fun v => ?_
  split
  · exact dictEntry _ t k
  · dsimp only
    split
    · exact (typeName t).bind fun _ => raise_bind rfl
    · refine (onHeap (.ofValue _)).bind fun s => (indexValue k s.size).bind fun i => ?_
      exact onHeap (.index s i)

theorem sliceBound (size default : Nat) {bound : Option Expr}
    (lies : ∀ e ∈ bound, e.Within (N.PlaceIn w ctx.module)) :
    N.Steps false w (sliceBound ev ctx size default bound) := by
  cases bound with
  | none => exact pure _
  | some e => exact (inside ok loaded (lies e rfl)).bind fun b => boundValue b size

theorem slice {target : Expr} {first last : Option Expr}
    (lies : target.Within (N.PlaceIn w ctx.module))
    (liesFirst : ∀ e ∈ first, e.Within (N.PlaceIn w ctx.module))
    (liesLast : ∀ e ∈ last, e.Within (N.PlaceIn w ctx.module)) :
    N.Steps false w (slice ev ctx target first last) := by
  refine (inside ok loaded lies).bind fun t => (read t).bind fun v => ?_
  dsimp only
  split
  · exact (typeName t).bind fun _ => raise_bind rfl
  · refine (onHeap (.ofValue _)).bind fun s => (sliceBound ok loaded _ _ liesFirst).bind fun start => ?_
    refine (sliceBound ok loaded _ _ liesLast).bind fun stop => ?_
    split
    · exact raise_bind rfl
    · exact (onHeap (.slice s _ _)).bind fun x => alloc x

theorem select {target : Expr} (lies : target.Within (N.PlaceIn w ctx.module)) (name : String) :
    N.Steps false w (select ev ctx target name) := by
  refine (inside ok loaded lies).bind fun t => (read t).bind fun v => ?_
  split
  · exact moduleMember _ _ name
  · exact instanceMember _ name
  · exact typeMismatch "struct or mod" t

theorem listLiteral {elements : List Expr} (lies : ∀ e ∈ elements, e.Within (N.PlaceIn w ctx.module)) :
    N.Steps false w (listLiteral ev ctx elements) := by
  refine (mapM fun e member => ?_).bind fun boxes => (onHeap (.allocList _)).bind fun l => alloc _
  exact (inside ok loaded (lies e member)).bind fun b => copy b

theorem dictLiteral {entries : List (Expr × Expr)}
    (liesKeys : ∀ e ∈ entries, e.1.Within (N.PlaceIn w ctx.module))
    (liesValues : ∀ e ∈ entries, e.2.Within (N.PlaceIn w ctx.module)) :
    N.Steps false w (dictLiteral ev cfg ctx entries) := by
  refine (onHeap (.allocDict _)).bind fun d => (forM fun e member => ?_).bind fun _ => alloc _
  refine (inside ok loaded (liesKeys e member)).bind fun key => ?_
  refine (inside ok loaded (liesValues e member)).bind fun b => ?_
  exact (copy b).bind fun value => onHeap (.dictSet key value)

/-- An unknown field is reported at its name. -/
theorem initFields (s : StructDef) {given : List (Ident × Expr)}
    (liesNames : ∀ f ∈ given, N.PlaceIn w ctx.module f.1.position)
    (liesValues : ∀ f ∈ given, f.2.Within (N.PlaceIn w ctx.module))
    (fields : OrderedMap String BoxId) :
    N.Steps false w (initFields ev cfg ctx s given fields) := by
  induction given generalizing fields with
  | nil => exact pure _
  | cons e rest ih =>
    rw [Eval.initFields]
    split
    · exact raiseAt_bind rfl loaded (liesNames e List.mem_cons_self)
    · refine (inside ok loaded (liesValues e List.mem_cons_self)).bind fun b => ?_
      refine (onHeap (.clone _ b)).bind fun value => ?_
      exact ih (fun f member => liesNames f (List.mem_cons_of_mem e member))
        (fun f member => liesValues f (List.mem_cons_of_mem e member)) _

theorem instantiate (name : String) {given : List (Ident × Expr)}
    (liesNames : ∀ f ∈ given, N.PlaceIn w ctx.module f.1.position)
    (liesValues : ∀ f ∈ given, f.2.Within (N.PlaceIn w ctx.module)) :
    N.Steps false w (instantiate ev cfg ctx name given) := by
  refine (getStruct? ctx.module name).bind fun found => ?_
  split
  · exact raise rfl
  · refine get_bind fun s => (mapM fun field _ => (alloc _).bind fun b => pure _).bind fun empty => ?_
    refine (initFields ok loaded _ liesNames liesValues _).bind fun fields => ?_
    exact (onHeap (.allocInstance _)).bind fun i => alloc _

theorem expr {e : Expr} (lies : e.Within (N.PlaceIn w ctx.module)) :
    N.Steps true w (Eval.expr ev cfg ctx e) := by
  refine located ?_ loaded lies.position
  cases lies with
  | literal => exact literal _
  | ident => exact ident _
  | binary _ left right => exact binary ok loaded _ left right
  | unary _ operand => exact unary ok loaded _ operand
  | call _ callee args =>
    refine (inside ok loaded callee).bind fun f => ?_
    refine (mapM fun e member => inside ok loaded (args e member)).bind fun boxes => ?_
    exact call ok ctx.calls f boxes
  | index _ target key => exact index ok loaded target key
  | slice _ target first last => exact slice ok loaded target first last
  | select _ target => exact select ok loaded target _
  | list _ elements => exact listLiteral ok loaded elements
  | dict _ keys values => exact dictLiteral ok loaded keys values
  | structInit _ names values => exact instantiate ok loaded _ names values

end

/-! ## Assignment -/

theorem element (container key : BoxId) : N.Steps false w (element container key) := by
  refine get_bind fun s => ?_
  dsimp only
  split
  · exact raise rfl
  · exact (indexValue key _).bind fun i => onHeap (.index _ i)
  · exact raise rfl

theorem memberBox (owner : BoxId) (name : String) : N.Steps false w (memberBox owner name) := by
  refine get_bind fun s => ?_
  dsimp only
  split
  · refine (getObj? _ name).bind fun found => ?_
    split
    · exact pure _
    · exact raise rfl
  · split
    · exact pure _
    · exact raise rfl
  · exact raise rfl

/-- The value of one box is written into another one. -/
theorem overwrite (b value : BoxId) : N.Steps placed w (do Eval.write b (← Eval.read value)) :=
  (read value).bind fun v => write b v

theorem updateBox (op : ComputeOp) (b right : BoxId) : N.Steps false w (updateBox cfg op b right) := by
  refine (read b).bind fun l => (read right).bind fun r => ?_
  refine observe_bind (onHeap (.binary _ _ _ _)) (.anything _) (fun x _ => write b x) ?_
  intro stop t _ sourced owned
  cases stop with
  | error e =>
    obtain ⟨cause, location⟩ := e
    cases cause with
    | invalidBinaryOp =>
      exact ((typeName b).bind fun _ => (typeName right).bind fun _ => raise rfl) t (.refl t) sourced
    | _ => exact .error sourced owned
  | exit | tooDeep | crash | outOfFuel => exact .error sourced owned

section

variable {ctx : Context} (ok : ev.Accountable N) (loaded : w.Loaded ctx.module)

theorem isUnbound (target : Expr) : N.Steps false w (isUnbound ctx target) := by
  rw [Eval.isUnbound.eq_def]
  split
  · refine (getObj? ctx.module _).bind fun found => ?_
    split
    · exact pure _
    · exact pure _
  · exact pure _

include ok loaded

theorem place {target : Expr} (lies : target.Within (N.PlaceIn w ctx.module)) :
    N.Steps true w (place ev cfg ctx target) := by
  refine located ?_ loaded lies.position
  cases lies with
  | ident =>
    refine (getObj? ctx.module _).bind fun found => ?_
    split
    · exact pure _
    · exact raise rfl
  | index _ container key =>
    refine (inside ok loaded container).bind fun c => (inside ok loaded key).bind fun k => ?_
    refine (read c).bind fun v => ?_
    split
    · exact dictEntry _ c k
    · exact element c k
  | select _ owner => exact (inside ok loaded owner).bind fun o => memberBox o _
  | slice => exact raise rfl
  | literal | list | dict | unary | binary | structInit | call => exact raise rfl

theorem assignTo {target : Expr} (lies : target.Within (N.PlaceIn w ctx.module)) (value : BoxId) :
    N.Steps false w (assignTo ev cfg ctx target value) := by
  rw [Eval.assignTo.eq_def]
  split
  · refine (getObj? ctx.module _).bind fun found => ?_
    split
    · exact overwrite _ value
    · exact setObj _ _ value
  · cases lies with
    | index here container key =>
      refine (inside ok loaded container).bind fun c => (inside ok loaded key).bind fun k => ?_
      refine (read c).bind fun v => ?_
      split
      · refine (onHeap (.dictGet? k)).bind fun found => ?_
        split
        · exact overwrite _ value
        · exact onHeap (.dictSet k value)
      · refine ((element c k).located loaded here).weaken.bind fun b => ?_
        exact overwrite b value
  · exact (place ok loaded lies).weaken.bind fun b => overwrite b value

theorem assignAll {targets : List Expr} (lies : ∀ e ∈ targets, e.Within (N.PlaceIn w ctx.module))
    (values : List BoxId) : N.Steps false w (assignAll ev cfg ctx targets values) := by
  refine forM fun e member => ?_
  exact assignTo ok loaded (lies e.1 (List.of_mem_zip member).1) e.2

theorem assignPlain {left right : List Expr} (liesLeft : ∀ e ∈ left, e.Within (N.PlaceIn w ctx.module))
    (liesRight : ∀ e ∈ right, e.Within (N.PlaceIn w ctx.module)) :
    N.Steps false w (assignPlain ev cfg ctx left right) := by
  rw [Eval.assignPlain]
  split
  · exact raise_bind rfl
  · refine (mapM fun e member => ?_).bind fun values => assignAll ok loaded liesLeft values
    exact (inside ok loaded (liesRight e member)).bind fun b => copy b

theorem assignUnpack {left right : List Expr} (liesLeft : ∀ e ∈ left, e.Within (N.PlaceIn w ctx.module))
    (liesRight : ∀ e ∈ right, e.Within (N.PlaceIn w ctx.module)) :
    N.Steps false w (assignUnpack ev cfg ctx left right) := by
  rw [Eval.assignUnpack.eq_def]
  split
  · next e =>
    have lies := liesRight e List.mem_cons_self
    refine (inside ok loaded lies).bind fun b => ?_
    split
    · next target =>
      refine (copy b).bind fun value => ?_
      exact assignTo ok loaded (liesLeft target List.mem_cons_self) value
    · refine (read b).bind fun v => ?_
      dsimp only
      split
      · exact (typeName b).bind fun _ => raiseAt_bind rfl loaded lies.position
      · refine (onHeap (.ofValue _)).bind fun s => ?_
        split
        · exact (canonical cfg b).bind fun _ => raise_bind rfl
        · refine (onHeap (.elements s)).bind fun elements => (mapM fun b _ => copy b).bind fun values => ?_
          exact assignAll ok loaded liesLeft values
  · exact raise rfl

theorem assignCompute (op : ComputeOp) {left right : List Expr}
    (liesLeft : ∀ e ∈ left, e.Within (N.PlaceIn w ctx.module))
    (liesRight : ∀ e ∈ right, e.Within (N.PlaceIn w ctx.module)) :
    N.Steps false w (assignCompute ev cfg ctx op left right) := by
  rw [Eval.assignCompute.eq_def]
  split
  · next target e =>
    refine (inside ok loaded (liesRight e List.mem_cons_self)).bind fun r => ?_
    refine (isUnbound target).bind fun unbound => ?_
    split
    · exact (copy r).bind fun value => setObj _ _ value
    · exact (place ok loaded (liesLeft target List.mem_cons_self)).weaken.bind fun b => updateBox op b r
  · exact raise rfl
  · exact raise rfl

theorem assign (op : AssignOp) {left right : List Expr}
    (liesLeft : ∀ e ∈ left, e.Within (N.PlaceIn w ctx.module))
    (liesRight : ∀ e ∈ right, e.Within (N.PlaceIn w ctx.module)) :
    N.Steps false w (assign ev cfg ctx op left right) := by
  cases op with
  | plain => exact assignPlain ok loaded liesLeft liesRight
  | unpack => exact assignUnpack ok loaded liesLeft liesRight
  | compute op => exact assignCompute ok loaded op liesLeft liesRight

/-! ## Conditions and loops -/

theorem condition (what : String) {e : Expr} (lies : e.Within (N.PlaceIn w ctx.module)) :
    N.Steps false w (condition ev cfg ctx what e) := by
  refine (inside ok loaded lies).bind fun b => get_bind fun s => (read b).bind fun v => ?_
  exact (trace ((canonical cfg b).bind fun _ => pure _)).bind fun _ => pure _

/-- The statements of a block inside a construct. -/
theorem runStmts {block : Block} (lies : ∀ s ∈ block, s.Within (N.PlaceIn w ctx.module) N.Inner) :
    N.Steps false w (Eval.runBlock (ev.stmt ctx) block) :=
  runBlock fun s member => (ok.stmt loaded (lies s member)).weaken

theorem runBranches {otherwise : Option Block} {branches : List (Expr × Block)}
    (liesConditions : ∀ b ∈ branches, b.1.Within (N.PlaceIn w ctx.module))
    (liesBlocks : ∀ b ∈ branches, ∀ s ∈ b.2, s.Within (N.PlaceIn w ctx.module) N.Inner)
    (liesOtherwise : ∀ block ∈ otherwise, ∀ s ∈ block, s.Within (N.PlaceIn w ctx.module) N.Inner) :
    N.Steps false w (runBranches ev cfg ctx otherwise branches) := by
  induction branches with
  | nil =>
    cases otherwise with
    | none => exact pure _
    | some block => exact runStmts ok loaded (liesOtherwise block rfl)
  | cons branch rest ih =>
    refine (condition ok loaded "if" (liesConditions branch List.mem_cons_self)).bind fun holds => ?_
    split
    · exact runStmts ok loaded (liesBlocks branch List.mem_cons_self)
    · exact ih (fun b member => liesConditions b (List.mem_cons_of_mem branch member))
        (fun b member => liesBlocks b (List.mem_cons_of_mem branch member))

theorem forTurns (counter element : String) {body : Block}
    (lies : ∀ s ∈ body, s.Within (N.PlaceIn w ctx.module) N.Inner) (boxes : List BoxId) (turn : Nat) :
    N.Steps false w (forTurns ev ctx counter element body boxes turn) := by
  induction boxes generalizing turn with
  | nil => exact pure _
  | cons b rest ih =>
    refine (alloc _).bind fun number => (declareObj _ counter number).bind fun _ => ?_
    refine (copy b).bind fun item => (declareObj _ element item).bind fun _ => ?_
    refine (runStmts ok loaded lies).bind fun flow => ?_
    split
    · exact pure _
    · exact ih (turn + 1)

theorem forLoop {target : Expr} (liesTarget : target.Within (N.PlaceIn w ctx.module))
    (counter element : String) {body : Block}
    (lies : ∀ s ∈ body, s.Within (N.PlaceIn w ctx.module) N.Inner) :
    N.Steps false w (forLoop ev ctx target counter element body) := by
  refine (inside ok loaded liesTarget).bind fun t => (read t).bind fun v => ?_
  dsimp only
  split
  · exact (typeName t).bind fun _ => raiseAt_bind rfl loaded liesTarget.position
  · suffices turns : N.Steps false w _ from turns.inBlock ctx.module
    refine (onHeap (.ofValue _)).bind fun s => (onHeap (.elements s)).bind fun boxes => ?_
    exact forTurns ok loaded counter element lies boxes 0

theorem whileTurns {e : Expr} (liesCondition : e.Within (N.PlaceIn w ctx.module)) {body : Block}
    (lies : ∀ s ∈ body, s.Within (N.PlaceIn w ctx.module) N.Inner) (fuel : Nat) :
    N.Steps false w (whileTurns ev cfg ctx e body fuel) := by
  induction fuel with
  | zero => exact throw fun _ => trivial
  | succ fuel ih =>
    refine (condition ok loaded "loop" liesCondition).bind fun holds => ?_
    split
    · refine (runStmts ok loaded lies).bind fun flow => ?_
      split
      · exact pure _
      · exact ih
    · exact pure _

end

/-! ## Definitions -/

section

variable {ctx : Context} (loaded : w.Loaded ctx.module)

include loaded

/-- A function is defined by the text of its module. -/
theorem defineBody {d : FunctionDecl} (inner : ∀ s ∈ d.body, N.Inner s)
    (lies : ∀ s ∈ d.body, s.Within (N.PlaceIn w ctx.module) N.Inner) :
    N.Steps false w
      (Eval.onHeap (HeapM.allocFunction ⟨ctx.module, d.name, d.params, d.body⟩)) :=
  allocFunction fun s member => ⟨loaded, inner s member, lies s member⟩

theorem defineFunction {d : FunctionDecl} (inner : ∀ s ∈ d.body, N.Inner s)
    (lies : ∀ s ∈ d.body, s.Within (N.PlaceIn w ctx.module) N.Inner) :
    N.Steps false w (defineFunction cfg ctx d) := by
  refine (defineBody loaded inner lies).bind fun f => (alloc _).bind fun b => ?_
  exact (setObj _ _ b).bind fun _ => trace (pure _)

theorem defineStruct (name : String) (fields : List String) {methods : List FunctionDecl}
    (inner : ∀ d ∈ methods, ∀ s ∈ d.body, N.Inner s)
    (lies : ∀ d ∈ methods, ∀ s ∈ d.body, s.Within (N.PlaceIn w ctx.module) N.Inner) :
    N.Steps false w (defineStruct cfg ctx name fields methods) := by
  rw [Eval.defineStruct]
  split
  · exact raise_bind rfl
  · refine (mapM fun d member => ?_).bind fun functions => (onHeap (.allocStruct _)).bind fun s => ?_
    · exact (defineBody loaded (inner d member) (lies d member)).bind fun f => pure _
    · exact (onScope _ _).bind fun _ => trace (pure _)

end

end Norms.Steps

end Shiba

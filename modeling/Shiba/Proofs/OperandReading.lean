import Shiba.Proofs.ArgumentPassing
import Shiba.Proofs.SimultaneousAssignment

/-!
# When operands are read

Operands and arguments are evaluated in order, but what they are evaluated to are boxes, and a variable is
evaluated to its own box.  The boxes are read when all of them have been found: what an operand stands for is
what its box holds then, after everything evaluated beside it.  Only whether `&&` and `||` are decided by
their left operand alone is told before the right one is evaluated.

* `Eval.declareArgs_apply`: parameters are bound to deep copies of what the boxes of the arguments hold when
  the first of them is bound; copying one argument changes no other one.
* `evalExpr_operands_read_last`: the statement, for `x op e` and for `f(x, e)`.
-/

namespace Shiba

/-! ## Steps that add to a heap -/

/-- The heap of the state is a later one than `h`, and every number in it was given out. -/
def State.Past (h : Heap) (s : State) : Prop := h.Grows s.heap ∧ s.heap.Sound

namespace Eval

open Discipline.Agree (run_resolve)

variable {α β : Type} {h : Heap} {s : State} {m : ModuleId}

/-- From a heap later than `h`, the step leads to one later than `h`. -/
def AddsTo (h : Heap) (a : Eval α) : Prop := ∀ s : State, s.Past h → (a s).2.Past h

namespace AddsTo

theorem of_heap_eq {a : Eval α} (same : ∀ s : State, (a s).2.heap = s.heap) : AddsTo h a := by
  intro s past
  rw [State.Past, same]
  exact past

theorem onHeap {act : HeapM α} (adds : ∀ k : Heap, h.Grows k → k.Sound → ∃ can Q, HeapM.Adds act k can Q) :
    AddsTo h (Eval.onHeap act) := by
  intro s past
  obtain ⟨can, Q, result, k, run, grows, sound, -⟩ := adds s.heap past.1 past.2
  rw [onHeap_apply, run]
  exact ⟨past.1.trans grows, sound⟩

theorem bind {a : Eval α} {f : α → Eval β} (first : AddsTo h a) (rest : ∀ x, AddsTo h (f x)) :
    AddsTo h (a >>= f) := by
  intro s past
  have later := first s past
  rcases run : a s with ⟨stop | x, t⟩
  · rw [run] at later
    rw [bind_error run]
    exact later
  · rw [run] at later
    rw [bind_ok run]
    exact rest x t later

theorem forM {f : α → Eval Unit} (each : ∀ x, AddsTo h (f x)) (xs : List α) : AddsTo h (xs.forM f) := by
  induction xs with
  | nil => exact fun _ past => past
  | cons x xs ih => exact (each x).bind fun _ => ih

end AddsTo

/-- After a step that adds to a heap, two ways to go on come to the same if they do from every later heap. -/
theorem AddsTo.bind_eq {a : Eval α} {f g : α → Eval β} (first : AddsTo h a) (past : s.Past h)
    (same : ∀ x (t : State), t.Past h → f x t = g x t) : (a >>= f) s = (a >>= g) s := by
  have later := first s past
  rcases run : a s with ⟨stop | x, t⟩
  · rw [bind_error run, bind_error run]
  · rw [run] at later
    rw [bind_ok run, bind_ok run]
    exact same x t later

theorem resolve_state (m : ModuleId) (s : State) : (resolve m s).2 = s := by
  rw [resolve, bind_ok (run_get s)]
  cases s.registry.resolve m with
  | ok found => rfl
  | error failure => rfl

theorem addsTo_declareObj (m : ModuleId) (name : String) (b : BoxId) : AddsTo h (declareObj m name b) := by
  apply AddsTo.of_heap_eq
  intro s
  have same := resolve_state m s
  rcases run : resolve m s with ⟨stop | m', t⟩
  · rw [run] at same
    rw [declareObj, onScope, bind_error run]
    exact congrArg State.heap same
  · rw [run] at same
    subst same
    rw [declareObj, onScope, bind_ok run]
    rfl

/-- What is done in a call of its own depends on the heap the call begins with. -/
theorem inFunction_eq {a a' : Eval α} (past : s.Past h) (same : ∀ t : State, t.Past h → a t = a' t) :
    inFunction m a s = inFunction m a' s := by
  rw [inFunction, inFunction]
  refine AddsTo.bind_eq (.of_heap_eq fun s => congrArg State.heap (resolve_state m s)) past
    fun m' t later => ?_
  refine AddsTo.bind_eq (.of_heap_eq fun _ => rfl) later fun _ u later => ?_
  have watched : observe a u = observe a' u := by rw [observe, observe, same u later]
  exact bind_congr watched

/-! ## Arguments -/

/-- Declares the parameters of a function as deep copies of values. -/
def declareValues (cfg : Config) (m : ModuleId) (params : List String) (values : List Value) : Eval Unit :=
  (params.zip values).forM fun e => do
    declareObj m e.1 (← onHeap (HeapM.cloneValue cfg.dataLimit e.2 >>= HeapM.alloc))

/-- The parameters are bound to copies of what the boxes of the arguments held in an earlier heap, since
nothing but copying has happened in between. -/
theorem declareArgs_apply (cfg : Config) (m : ModuleId) (params : List String) {args : List BoxId}
    (there : ∀ b ∈ args, b.index < h.boxes.size) (past : s.Past h) :
    declareArgs cfg m params args s = declareValues cfg m params (args.map h.value) s := by
  induction params generalizing args s with
  | nil => rfl
  | cons param params ih =>
    rcases args with _ | ⟨b, args⟩
    · rfl
    obtain ⟨here, others⟩ := List.forall_mem_cons.1 there
    -- the first box is read now, and it holds what it held
    have copied : onHeap (HeapM.clone cfg.dataLimit b) s =
        onHeap (HeapM.cloneValue cfg.dataLimit (h.value b) >>= HeapM.alloc) s := by
      rw [← past.1.value_eq here]
      rfl
    have adds : AddsTo h (onHeap (HeapM.clone cfg.dataLimit b)) :=
      .onHeap fun k _ sound => ⟨_, _, HeapM.adds_clone cfg.dataLimit sound b⟩
    have declared : AddsTo h (onHeap (HeapM.clone cfg.dataLimit b) >>= declareObj m param) :=
      adds.bind fun c => addsTo_declareObj m param c
    exact (declared.bind_eq past fun _ t later => ih others later).trans (bind_congr (bind_congr copied))

/-- The members of a receiver are new boxes and names of its own ones. -/
theorem addsTo_declareMembers {receiver : InstanceId} (known : receiver.index < h.instances.size) :
    AddsTo h (declareMembers m receiver) := by
  intro s past
  have field (e : String × BoxId) : AddsTo h (declareObj m e.1 e.2) := addsTo_declareObj m e.1 e.2
  have method (e : String × FunctionId) :
      AddsTo h (alloc (.method e.2 receiver) >>= declareObj m e.1) := by
    have made : AddsTo h (alloc (.method e.2 receiver)) := .onHeap fun k grows sound =>
      ⟨True, _, HeapM.adds_alloc sound (Heap.Knows.mono (v := .method e.2 receiver) grows known)⟩
    exact made.bind (addsTo_declareObj m e.1)
  rw [declareMembers, bind_ok (run_get s)]
  exact AddsTo.bind (AddsTo.forM field _) (fun _ => AddsTo.forM method _) s past

/-- What happens in the frame of a call with values: the parameters are bound to deep copies of them. -/
def runBodyWith (ev : Evaluators) (cfg : Config) (calls : Nat) (f : Function) (receiver : Option InstanceId)
    (values : List Value) : Eval Flow := do
  match receiver with
  | some receiver => declareMembers f.module receiver
  | none => pure ()
  declareValues cfg f.module f.params values
  runBlock (ev.stmt ⟨f.module, calls⟩) f.body

/-- A call of a function with values.  The boxes of the arguments are shown when the call is traced. -/
def callWith (ev : Evaluators) (cfg : Config) (calls : Nat) (f : Function) (receiver : Option InstanceId)
    (args : List BoxId) (values : List Value) : Eval BoxId := do
  if args.length ≠ f.params.length then
    raise (.arity f.name f.params.length args.length)
  trace cfg 3 (callText cfg f args)
  match calls with
  | 0 => throw .tooDeep
  | calls + 1 =>
    let flow ← inFunction f.module (runBodyWith ev cfg calls f receiver values)
    answer f flow

theorem runBody_eq_runBodyWith (ev : Evaluators) (cfg : Config) (calls : Nat) (f : Function)
    {receiver : Option InstanceId} {args : List BoxId} (known : ∀ i ∈ receiver, i.index < h.instances.size)
    (there : ∀ b ∈ args, b.index < h.boxes.size) (past : s.Past h) :
    runBody ev cfg calls f receiver args s = runBodyWith ev cfg calls f receiver (args.map h.value) s := by
  have body (t : State) (later : t.Past h) : (declareArgs cfg f.module f.params args >>= fun _ =>
      runBlock (ev.stmt ⟨f.module, calls⟩) f.body) t = (declareValues cfg f.module f.params
        (args.map h.value) >>= fun _ => runBlock (ev.stmt ⟨f.module, calls⟩) f.body) t :=
    bind_congr (declareArgs_apply cfg f.module f.params there later)
  cases receiver with
  | none => exact body s past
  | some i => exact (addsTo_declareMembers (known i rfl)).bind_eq past fun _ => body

/-- A call of a function is a call with what the boxes of the arguments hold when all of them have been
evaluated. -/
theorem callFunction_eq_callWith (ev : Evaluators) (cfg : Config) (calls : Nat) (f : Function)
    {receiver : Option InstanceId} {args : List BoxId} (sound : s.heap.Sound)
    (known : ∀ i ∈ receiver, i.index < s.heap.instances.size)
    (there : ∀ b ∈ args, b.index < s.heap.boxes.size) :
    callFunction ev cfg calls f receiver args s =
      callWith ev cfg calls f receiver args (args.map s.heap.value) s := by
  by_cases arity : args.length = f.params.length
  · have traced : AddsTo s.heap (trace cfg 3 (callText cfg f args)) := by
      refine .of_heap_eq fun t => ?_
      obtain ⟨result, lines, run⟩ := trace_writes cfg t 3 (callText cfg f args)
        (.bind (.mapM (.canonical cfg) args) fun _ _ => .get_bind fun _ => .pure trivial)
      rw [run]
    rw [callFunction_eq ev cfg calls arity, callWith.eq_def]
    dsimp only
    rw [if_neg (not_not.2 arity)]
    refine traced.bind_eq ⟨.refl s.heap, sound⟩ fun _ t past => ?_
    cases calls with
    | zero => rfl
    | succ calls =>
      exact bind_congr (inFunction_eq past fun u later =>
        runBody_eq_runBodyWith ev cfg calls f known there later)
  · have ne : args.length ≠ f.params.length := arity
    have stops : (raise (.arity f.name f.params.length args.length) : Eval PUnit) s =
        (.error (.ofCause (.arity f.name f.params.length args.length)), s) := rfl
    unfold callFunction callWith
    dsimp only
    rw [if_pos ne, if_pos ne]
    exact (bind_error stops).trans (bind_error stops).symm

end Eval

/-! ## Both kinds of operands -/

/-- What is run when a value is called: a function, and the receiver of a method. -/
def Value.callee? (h : Heap) : Value → Option (Function × Option InstanceId)
  | .function f => some (h.function f, none)
  | .method f receiver => some (h.function f, some receiver)
  | _ => none

/-- The operands of `x op e`, and the arguments of calls with `x` and `e`, are read last, when `x` is bound to
the box `b` and `e` is evaluated with some fuel from `s`. -/
structure OperandsReadLast (cfg : Config) (ctx : Context) (fuel : Nat) (x : String) (b : BoxId) (e : Expr)
    (s : State) : Prop where
  /-- Where the left operand decides alone, it is read at once, and `e` is not evaluated. -/
  decided : ∀ {op answer} (p px : Position), Eval.shortCircuit? op (s.heap.value b) = some answer →
    evalExpr cfg (fuel + 1) ctx (.binary p op (.ident px x) e) s = Eval.alloc (.bool answer) s
  /-- If `e` stops, so does the operation. -/
  stopped : ∀ {stop t}, evalExpr cfg fuel ctx e s = (.error stop, t) →
    ∀ {op} (p px : Position), Eval.shortCircuit? op (s.heap.value b) = none →
      evalExpr cfg (fuel + 1) ctx (.binary p op (.ident px x) e) s = (.error stop, t)
  /-- Evaluating `e` leaves `x` bound to its box. -/
  bound : ∀ {r t}, evalExpr cfg fuel ctx e s = (.ok r, t) →
    Eval.getObj? ctx.module x t = (.ok (some b), t)
  /-- The operator is applied to what the boxes hold when `e` has been evaluated. -/
  operation : ∀ {r t}, evalExpr cfg fuel ctx e s = (.ok r, t) →
    ∀ {op} (p px : Position), Eval.shortCircuit? op (s.heap.value b) = none →
      evalExpr cfg (fuel + 1) ctx (.binary p op (.ident px x) e) s =
        Eval.located ctx.module p (Eval.onHeap (op.apply cfg.dataLimit (t.heap.value b) (t.heap.value r)) >>=
          Eval.alloc) t
  /-- A function or a method is called with what the boxes hold when `e` has been evaluated. -/
  call : ∀ {r t}, evalExpr cfg fuel ctx e s = (.ok r, t) →
    ∀ {callee c s₀ f receiver} (p px : Position), evalExpr cfg fuel ctx callee s₀ = (.ok c, s) →
      (t.heap.value c).callee? t.heap = some (f, receiver) →
      evalExpr cfg (fuel + 1) ctx (.call p callee [.ident px x, e]) s₀ =
        Eval.located ctx.module p (Eval.callWith (evaluators cfg fuel) cfg ctx.calls f receiver [b, r]
          [t.heap.value b, t.heap.value r]) t

namespace Eval

variable {cfg : Config} {ev : Evaluators} {ctx : Context} {s t : State} {fuel calls : Nat} {e : Expr}
  {b c r : BoxId} {answer : Bool} {left right : Expr} {op : BinaryOp} {f : Function}
  {receiver : Option InstanceId} {args : List BoxId}

/-- The left operand decides alone. -/
theorem binary_decided (decided : shortCircuit? op (s.heap.value b) = some answer)
    (first : ev.expr ctx left s = (.ok b, s)) :
    binary ev cfg ctx op left right s = alloc (.bool answer) s := by
  rw [binary, bind_ok first, bind_ok (run_read b s), decided]

theorem call_of_callee (called : (t.heap.value c).callee? t.heap = some (f, receiver)) :
    call ev cfg calls c args t = callFunction ev cfg calls f receiver args t := by
  rw [call, bind_ok (run_get t)]
  cases value : t.heap.value c with
  | function id =>
    rw [value] at called
    cases called
    rfl
  | method id i =>
    rw [value] at called
    cases called
    rfl
  | nil | bool | int | float | str | list | dict | struct | builtin | module | structDef =>
    rw [value] at called
    cases called

/-- The receiver of a method is there. -/
theorem knows_of_callee (wf : t.WellFormed) (called : (t.heap.value c).callee? t.heap = some (f, receiver)) :
    ∀ i ∈ receiver, i.index < t.heap.instances.size := by
  rintro i ⟨⟩
  have knows := wf.sound.value c
  cases value : t.heap.value c with
  | method id i =>
    rw [value] at called knows
    cases called
    exact knows
  | nil | bool | int | float | str | list | dict | struct | function | builtin | module | structDef =>
    rw [value] at called
    cases called

/-- What an expression is evaluated to is there, in a state that is well formed again. -/
theorem hasBox_of_evalExpr (wf : s.WellFormed) (here : s.HasModule ctx.module)
    (run : evalExpr cfg fuel ctx e s = (.ok r, t)) : t.WellFormed ∧ t.HasBox r := by
  obtain ⟨w, opened, begun⟩ := Discipline.scoped_upholds.beginsFor wf here
  obtain ⟨result, t₁, t₂, run', -, -, after⟩ :=
    Discipline.agree_evalExpr ctx begun opened.here cfg fuel e
  cases run.symm.trans run'
  exact ⟨after.1.wf, after.2⟩

end Eval

open Eval in
/-- Operands and arguments are read last.  For every state a run can be in, every `x` bound there, every
expression `e`, and whatever evaluating `e` calls: `x op e` takes the box of `x` first and then evaluates `e`,
which leaves `x` bound to that box.  The value used for `x` is the one the box holds when `e` has been
evaluated, and so it is for a call of a user function with `x` and `e`, whose parameters are bound to deep
copies of what the boxes hold then.  Only whether the left operand of `&&` or `||` decides alone is told
before. -/
theorem evalExpr_operands_read_last {cfg : Config} {s : State} {m : ModuleId} {x : String} {b : BoxId}
    (running : Running cfg m s) (bound : getObj? m x s = (.ok (some b), s)) (e : Expr) (fuel calls : Nat) :
    OperandsReadLast cfg ⟨m, calls⟩ (fuel + 1) x b e s := by
  have wf := running.reachable.wellFormed
  have first (px : Position) : evalExpr cfg (fuel + 1) ⟨m, calls⟩ (.ident px x) s = (.ok b, s) :=
    evalExpr_ident bound
  refine ⟨fun p px decided => ?_, fun evaluated _ p px both => operation_stopped bound both evaluated,
    fun evaluated => ?_, fun evaluated _ p px both => ?_, fun {r t} evaluated => ?_⟩
  · rw [evalExpr_succ]
    exact located_ok (binary_decided decided (first px))
  · exact (getObj?_of_evalExpr wf running.here bound evaluated).1 _
  · rw [evalExpr_succ]
    exact located_congr (run_operation bound both evaluated)
  · intro callee c s₀ f receiver p px callable called
    obtain ⟨wf', result⟩ := hasBox_of_evalExpr wf running.here evaluated
    have there : ∀ a ∈ [b, r], a.index < t.heap.boxes.size :=
      List.forall_mem_cons.2 ⟨(getObj?_of_evalExpr wf running.here bound evaluated).2,
        List.forall_mem_singleton.2 result⟩
    have boxes : ([.ident px x, e].mapM (evalExpr cfg (fuel + 1) ⟨m, calls⟩) : Eval (List BoxId)) s =
        (.ok [b, r], t) := by
      rw [List.mapM_cons, bind_ok (first px), List.mapM_cons, bind_assoc, bind_ok evaluated]
      rfl
    rw [evalExpr_succ]
    refine located_congr ((bind_ok callable).trans ((bind_ok boxes).trans ?_))
    rw [call_of_callee called]
    exact callFunction_eq_callWith _ cfg calls f wf'.sound (knows_of_callee wf' called) there

/-- Operands are not taken by value: in `x + f()` the function assigns to `x`, which held `"a"` when its box
was taken and holds `"c"` when the box is read. -/
theorem evalExpr_operand_not_by_value :
    let call := Expr.call .start (.ident .start "f") []
    Running .standard ⟨0⟩ twoVariables ∧ twoVariables.content? ⟨0⟩ "x" = some (.str "a") ∧
      ∃ r t, evalExpr .standard 8 ⟨⟨0⟩, 5⟩ call twoVariables = (.ok r, t) ∧
        BinaryOp.add.apply Config.standard.dataLimit (.str "a") (t.heap.value r) t.heap =
          (.ok (.str "ad"), t.heap) ∧
        ∃ r' t', evalExpr .standard 9 ⟨⟨0⟩, 5⟩ (.binary .start .add (.ident .start "x") call) twoVariables =
            (.ok r', t') ∧
          t'.heap.value r' = .str "cd" := by
  intro call
  have begun : Running .standard ⟨0⟩ (State.initial.load (.ofSource "main" "/" "")) :=
    ⟨.register .initial rfl, State.hasModule_load State.initial _⟩
  let t := (evalExpr .standard 8 ⟨⟨0⟩, 5⟩ call twoVariables).2
  have returned : t.heap.value ⟨15⟩ = .str "d" := Value.eq_of_text? (by decide +kernel)
  refine ⟨((begun.evalStmt 9 5 _).evalStmt 9 5 _).evalStmt 9 5 _, rfl, ⟨15⟩, t,
    eq_ok_of_toOption (by decide +kernel), by rw [returned]; rfl, ⟨16⟩,
    (evalExpr .standard 9 ⟨⟨0⟩, 5⟩ (.binary .start .add (.ident .start "x") call) twoVariables).2,
    eq_ok_of_toOption (by decide +kernel), Value.eq_of_text? (by decide +kernel)⟩

/-- Two variables, a function that assigns to the first of them, and one that answers its first argument. -/
def withFirst : State :=
  (evalStmt .standard 9 ⟨⟨0⟩, 5⟩ (.function (.mk .start "first" ["p", "q"]
    [.returnValue .start (some (.ident .start "p"))])) twoVariables).2

/-- In `x + f()` and in `first(x, f())` the variable is read after the call that assigns to it. -/
theorem evalExpr_operands_read_last_call :
    let call := Expr.call .start (.ident .start "f") []
    Running .standard ⟨0⟩ withFirst ∧ Eval.getObj? ⟨0⟩ "x" withFirst = (.ok (some ⟨9⟩), withFirst) ∧
      ∃ r t, evalExpr .standard 8 ⟨⟨0⟩, 5⟩ call withFirst = (.ok r, t) ∧
        evalExpr .standard 9 ⟨⟨0⟩, 5⟩ (.binary .start .add (.ident .start "x") call) withFirst =
          Eval.located ⟨0⟩ .start (Eval.onHeap (BinaryOp.add.apply Config.standard.dataLimit (.str "c")
            (.str "d")) >>= Eval.alloc) t ∧
        ∃ f : Function, f.params = ["p", "q"] ∧
          evalExpr .standard 9 ⟨⟨0⟩, 5⟩ (.call .start (.ident .start "first") [.ident .start "x", call])
            withFirst = Eval.located ⟨0⟩ .start (Eval.callWith (evaluators .standard 8) .standard 5 f none
              [⟨9⟩, r] [.str "c", .str "d"]) t := by
  intro call
  have begun : Running .standard ⟨0⟩ (State.initial.load (.ofSource "main" "/" "")) :=
    ⟨.register .initial rfl, State.hasModule_load State.initial _⟩
  have running : Running .standard ⟨0⟩ withFirst :=
    (((begun.evalStmt 9 5 _).evalStmt 9 5 _).evalStmt 9 5 _).evalStmt 9 5 _
  have bound : Eval.getObj? ⟨0⟩ "x" withFirst = (.ok (some ⟨9⟩), withFirst) := rfl
  have named : Eval.getObj? ⟨0⟩ "first" withFirst = (.ok (some ⟨13⟩), withFirst) := rfl
  let t := (evalExpr .standard 8 ⟨⟨0⟩, 5⟩ call withFirst).2
  have called : evalExpr .standard 8 ⟨⟨0⟩, 5⟩ call withFirst = (.ok ⟨16⟩, t) :=
    eq_ok_of_toOption (by decide +kernel)
  have assigned : t.heap.value ⟨9⟩ = .str "c" := Value.eq_of_text? (by decide +kernel)
  have returned : t.heap.value ⟨16⟩ = .str "d" := Value.eq_of_text? (by decide +kernel)
  have params : ((t.heap.value ⟨13⟩).callee? t.heap).map (fun c => (c.1.params, c.2)) =
      some (["p", "q"], none) := by decide +kernel
  obtain ⟨⟨f, receiver⟩, callable, isFirst⟩ := Option.map_eq_some_iff.1 params
  obtain ⟨isFirst, rfl⟩ := Prod.mk.inj isFirst
  have last := evalExpr_operands_read_last running bound call 7 5
  refine ⟨running, bound, ⟨16⟩, t, called, ?_, f, isFirst, ?_⟩
  · rw [← assigned, ← returned]
    exact last.operation called .start .start rfl
  · rw [← assigned, ← returned]
    exact last.call called .start .start (Eval.evalExpr_ident named) callable

end Shiba

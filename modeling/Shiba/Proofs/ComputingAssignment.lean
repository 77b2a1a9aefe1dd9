import Shiba.Proofs.CallerIsolation
import Shiba.Proofs.Heap.Operators
import Shiba.Proofs.Parts.Basic
import Shiba.Proofs.StableBindings
import Shiba.Proofs.Zones.Operation

/-!
# Computing assignment agrees with plain assignment

`x op= e` evaluates `e` first and then looks up `x` and reads its box; `x = x op e` looks up `x` first,
evaluates `e`, reads the box of `x`, and looks up `x` again for the result.  The two ways come to the
same because the box is read only when `e` has been evaluated, and because `e`, whatever it calls, leaves
`x` bound to the same box.

* `getObj?_of_evalExpr`: a bound name is bound to the same box when an expression has been evaluated.
* `evalStmt_compute_agrees`: the statement.  The plain assignment evaluates `e` one level deeper, which
  takes one unit of fuel more, and makes two boxes more: that of the result and that of its copy.
-/

namespace Shiba

/-! ## Operators of assignments -/

namespace ComputeOp

/-- Both operands of the operator are evaluated. -/
theorem shortCircuit?_binary (op : ComputeOp) (left : Value) :
    Eval.shortCircuit? op.binary left = none := by
  cases op <;> rfl

/-- What an error of the operator is as an error of the assignment: operands the operator does not take
are operands the assignment does not take, and every other cause stays. -/
def causeOf (op : ComputeOp) (left right : String) : Cause → Cause
  | .invalidBinaryOp .. => .invalidAssignOp (AssignOp.compute op).text left right
  | cause => cause

end ComputeOp

/-! ## Bindings last -/

/-- The place that was given first stays. -/
theorem Stop.locate_locate (stop : Stop) (l l' : Location) :
    (stop.locate l).locate l' = stop.locate l := by
  cases stop <;> rfl

/-- What a discipline about one run says of the state an expression ends in. -/
theorem Discipline.Holds.of_evalExpr {D : Discipline} {w : D.World} {cfg : Config} {s t : State}
    {ctx : Context} {fuel : Nat} {e : Expr} {result : Except Stop BoxId}
    (single : ∀ {w H s₁ s₂}, D.Rel w H s₁ s₂ → s₂ = s₁) (begun : D.Holds w 0 s s)
    (here : D.Here w s ctx.module) (run : evalExpr cfg fuel ctx e s = (result, t)) :
    D.Holds w 0 t t ∧ s.Extends t := by
  obtain ⟨result', t₁, t₂, run', -, later, after⟩ := agree_evalExpr ctx begun here cfg fuel e
  cases run.symm.trans run'
  have last : D.Holds w 0 t t₂ := by
    cases result with
    | ok b => exact after.1
    | error stop => exact after.1
  cases single last.rel
  exact ⟨last, later⟩

namespace Eval

variable {cfg : Config} {s t : State} {m : ModuleId} {fuel calls : Nat} {e : Expr} {x : String}
  {b : BoxId} {result : Except Stop BoxId}

/-- A bound name is bound to the same box when an expression has been evaluated, whatever becomes of the
heap then. -/
theorem getObj?_of_evalExpr (wf : s.WellFormed) (here : s.HasModule m)
    (bound : getObj? m x s = (.ok (some b), s))
    (run : evalExpr cfg fuel ⟨m, calls⟩ e s = (result, t)) :
    (∀ h, getObj? m x (t.withHeap h) = (.ok (some b), t.withHeap h)) ∧ t.HasBox b := by
  obtain ⟨m', stands, there⟩ := wf.stands here
  have begun := Discipline.bound_begins wf
  obtain ⟨last, later⟩ := begun.of_evalExpr And.left ⟨here, m', stands, trivial⟩ run
  have same : t.scopeOf m' = s.scopeOf m' := congrArg (·.scope) (last.rel.2.2.module_eq there)
  rw [run_getObj? stands] at bound
  have isBox : (s.scopeOf m').getObj? x = some b := Except.ok.inj (Prod.mk.inj bound).1
  refine ⟨fun h => ?_, State.HasBox.mono later (wf.own_obj there (Scope.mem_objs_of_getObj? isBox)).2⟩
  have stands' : t.Stands m m' := stands.mono later here
  have isBox' : ((t.withHeap h).scopeOf m').getObj? x = some b := by
    change (t.scopeOf m').getObj? x = some b
    rw [same, isBox]
  rw [run_getObj? (s := t.withHeap h) stands', isBox']

/-! ## Errors with a place -/

/-- An error a step stops with has a place already, so that it is given no other one. -/
def Placed {α : Type} (a : Eval α) : Prop :=
  ∀ {s stop t}, a s = (.error stop, t) → ∀ l, stop.locate l = stop

namespace Placed

variable {α β : Type} {a : Eval α} {f : α → Eval β}

theorem pure (x : α) : Placed (Pure.pure x : Eval α) := nofun

theorem throw {stop : Stop} (placed : ∀ l, stop.locate l = stop) : Placed (throw stop : Eval α) := by
  intro s stop' t run
  cases run
  exact placed

theorem located (m : ModuleId) (p : Position) (a : Eval α) : Placed (located m p a) := by
  intro s stop t run
  rw [Eval.located] at run
  split at run
  · cases run
    exact Stop.locate_locate _ _
  · next other =>
    rw [run] at other
    exact absurd rfl (other stop t)

theorem bind (first : Placed a) (rest : ∀ x, Placed (f x)) : Placed (a >>= f) := by
  intro s stop t run
  rcases ran : a s with ⟨stop' | x, u⟩
  · cases (bind_error ran).symm.trans run
    exact first ran
  · exact rest x ((bind_ok ran).symm.trans run)

theorem expr (cfg : Config) (fuel : Nat) (ctx : Context) (e : Expr) : Placed (evalExpr cfg fuel ctx e) := by
  cases fuel with
  | zero =>
    rw [evalExpr_zero]
    exact throw fun _ => rfl
  | succ fuel =>
    rw [evalExpr_succ]
    exact located _ _ _

theorem stmt (cfg : Config) (fuel : Nat) (ctx : Context) (code : Stmt) :
    Placed (evalStmt cfg fuel ctx code) := by
  cases fuel with
  | zero =>
    rw [evalStmt_zero]
    exact throw fun _ => rfl
  | succ fuel =>
    rw [evalStmt_succ]
    exact located _ _ _

theorem runBlock (cfg : Config) (fuel : Nat) (ctx : Context) (block : Block) :
    Placed (runBlock ((evaluators cfg fuel).stmt ctx) block) := by
  induction block with
  | nil => exact pure _
  | cons code block ih =>
    refine bind (stmt cfg fuel ctx code) fun flow => ?_
    split
    · exact pure _
    · exact ih

end Placed

/-! ## Both ways, step by step -/

variable {p p' px px' pb pl : Position} {op : ComputeOp} {ev : Evaluators} {ctx : Context} {r c : BoxId}
  {o : AssignOp} {left right : List Expr} {stop : Stop} {v : Value} {h : Heap} {cause : Cause}

theorem run_read (b : BoxId) (s : State) : read b s = (.ok (s.heap.value b), s) := rfl

/-- An assignment as a statement. -/
theorem evalStmt_assign_ok (run : assign (evaluators cfg fuel) cfg ctx o left right s = (.ok (), t)) :
    evalStmt cfg (fuel + 1) ctx (.assign p o left right) s = (.ok .done, t) := by
  rw [evalStmt_succ]
  exact located_ok (bind_ok run)

theorem evalStmt_assign_error
    (run : assign (evaluators cfg fuel) cfg ctx o left right s = (.error stop, t)) :
    evalStmt cfg (fuel + 1) ctx (.assign p o left right) s =
      (.error (stop.locate ⟨(t.registry.module ctx.module).name, p⟩), t) := by
  rw [evalStmt_succ]
  exact located_error (bind_error run)

/-- The computed value is written into the box. -/
theorem run_updateBox_ok
    (applied : op.binary.apply cfg.dataLimit (s.heap.value b) (s.heap.value r) s.heap = (.ok v, h)) :
    updateBox cfg op b r s = (.ok (), s.withHeap (h.write b v)) := by
  rw [updateBox, bind_ok (run_read b s), bind_ok (run_read r s), observe_bind_apply, onHeap_apply, applied]
  rfl

theorem run_updateBox_error
    (applied : op.binary.apply cfg.dataLimit (s.heap.value b) (s.heap.value r) s.heap =
      (.error (.ofCause cause), s.heap)) :
    updateBox cfg op b r s = (.error (.ofCause (op.causeOf (s.heap.typeName (s.heap.value b))
      (s.heap.typeName (s.heap.value r)) cause)), s) := by
  rw [updateBox, bind_ok (run_read b s), bind_ok (run_read r s), observe_bind_apply, onHeap_apply, applied]
  cases cause <;> rfl

/-- An assignment whose right side stops. -/
theorem assignCompute_error (stops : ev.expr ctx e s = (.error stop, t)) :
    assignCompute ev cfg ctx op [.ident px x] [e] s = (.error stop, t) :=
  bind_error stops

theorem assignPlain_error (stops : ev.expr ctx e s = (.error stop, t)) :
    assignPlain ev cfg ctx [.ident px x] [e] s = (.error stop, t) := by
  refine bind_error ?_
  rw [List.mapM_cons]
  exact bind_error (bind_error stops)

/-- A computing assignment to a bound name updates its box with the value of the right side. -/
theorem assignCompute_bound (evaluated : ev.expr ⟨m, calls⟩ e s = (.ok r, t))
    (bound : getObj? m x t = (.ok (some b), t)) :
    assignCompute ev cfg ⟨m, calls⟩ op [.ident px x] [e] s = updateBox cfg op b r t := by
  have notUnbound : isUnbound ⟨m, calls⟩ (.ident px x) t = (.ok none, t) := bind_ok bound
  have placed : place ev cfg ⟨m, calls⟩ (.ident px x) t = (.ok b, t) := located_ok (bind_ok bound)
  rw [assignCompute, bind_ok evaluated, bind_ok notUnbound]
  exact bind_ok placed

/-- A plain assignment to a bound name writes a copy of the value of the right side into its box. -/
theorem assignPlain_bound (evaluated : ev.expr ⟨m, calls⟩ e s = (.ok c, t))
    (bound : ∀ h, getObj? m x (t.withHeap h) = (.ok (some b), t.withHeap h))
    (value : t.heap.value c = v) :
    assignPlain ev cfg ⟨m, calls⟩ [.ident px x] [e] s =
      (.ok (), t.withHeap (({ t.heap with boxes := t.heap.boxes.push v } : Heap).write b v)) := by
  let h : Heap := { t.heap with boxes := t.heap.boxes.push v }
  have copied : copy c t = (.ok ⟨t.heap.boxes.size⟩, t.withHeap h) := by
    subst value
    rfl
  have isCopy : h.value ⟨t.heap.boxes.size⟩ = v := by simp [h, Heap.value]
  have values : ([e].mapM fun e => do copy (← ev.expr ⟨m, calls⟩ e)) s =
      (.ok [⟨t.heap.boxes.size⟩], t.withHeap h) := by
    rw [List.mapM_cons, bind_assoc, bind_ok evaluated, bind_ok copied]
    rfl
  have assigned : assignTo ev cfg ⟨m, calls⟩ (.ident px x) ⟨t.heap.boxes.size⟩ (t.withHeap h) =
      (.ok (), t.withHeap (h.write b v)) := by
    rw [assignTo, bind_ok (bound h)]
    dsimp only
    rw [bind_ok (run_read _ _)]
    change (Except.ok (), t.withHeap (h.write b (h.value ⟨t.heap.boxes.size⟩))) = _
    rw [isCopy]
  refine (bind_ok values).trans ?_
  exact bind_ok assigned

/-- An operator that reads both operands: the box of the left one is read when the right one has been
evaluated. -/
theorem binary_ok {op : BinaryOp} {left right : Expr} (both : shortCircuit? op (s.heap.value b) = none)
    (first : ev.expr ctx left s = (.ok b, s)) (second : ev.expr ctx right s = (.ok r, t)) :
    binary ev cfg ctx op left right s =
      (onHeap (op.apply cfg.dataLimit (t.heap.value b) (t.heap.value r)) >>= alloc) t := by
  rw [binary, bind_ok first, bind_ok (run_read b s), both]
  dsimp only
  rw [bind_ok second, bind_ok (run_read b t), bind_ok (run_read r t)]

theorem binary_error {op : BinaryOp} {left right : Expr} (both : shortCircuit? op (s.heap.value b) = none)
    (first : ev.expr ctx left s = (.ok b, s)) (second : ev.expr ctx right s = (.error stop, t)) :
    binary ev cfg ctx op left right s = (.error stop, t) := by
  rw [binary, bind_ok first, bind_ok (run_read b s), both]
  exact bind_error second

section

variable (bound : getObj? m x s = (.ok (some b), s))

include bound

theorem evalExpr_ident : evalExpr cfg (fuel + 1) ⟨m, calls⟩ (.ident pl x) s = (.ok b, s) := by
  rw [evalExpr_succ]
  exact located_ok (bind_ok bound)

variable {op : BinaryOp} (both : shortCircuit? op (s.heap.value b) = none)

include both

/-- The right side stops the operation.  Without fuel the left side stops it already. -/
theorem operation_stopped (evaluated : evalExpr cfg fuel ⟨m, calls⟩ e s = (.error stop, t)) :
    evalExpr cfg (fuel + 1) ⟨m, calls⟩ (.binary pb op (.ident pl x) e) s = (.error stop, t) := by
  have operation : binary (evaluators cfg fuel) cfg ⟨m, calls⟩ op (.ident pl x) e s =
      (.error stop, t) := by
    cases fuel with
    | zero =>
      rw [evalExpr_zero] at evaluated
      cases evaluated
      exact bind_error (congrFun (evalExpr_zero cfg ⟨m, calls⟩ (.ident pl x)) s)
    | succ fuel =>
      have first : evalExpr cfg (fuel + 1) ⟨m, calls⟩ (.ident pl x) s = (.ok b, s) := evalExpr_ident bound
      exact binary_error both first evaluated
  rw [evalExpr_succ, ← Placed.expr _ _ _ _ evaluated ⟨(t.registry.module m).name, pb⟩]
  exact located_error operation

variable (evaluated : evalExpr cfg fuel ⟨m, calls⟩ e s = (.ok r, t))

include evaluated

/-- The operation is that of the operator, which reads both boxes when both sides have been evaluated. -/
theorem run_operation : binary (evaluators cfg fuel) cfg ⟨m, calls⟩ op (.ident pl x) e s =
    (onHeap (op.apply cfg.dataLimit (t.heap.value b) (t.heap.value r)) >>= alloc) t := by
  cases fuel with
  | zero =>
    rw [evalExpr_zero] at evaluated
    cases evaluated
  | succ fuel =>
    have first : evalExpr cfg (fuel + 1) ⟨m, calls⟩ (.ident pl x) s = (.ok b, s) := evalExpr_ident bound
    exact binary_ok both first evaluated

theorem operation_failed
    (applied : op.apply cfg.dataLimit (t.heap.value b) (t.heap.value r) t.heap =
      (.error (.ofCause cause), t.heap)) :
    evalExpr cfg (fuel + 1) ⟨m, calls⟩ (.binary pb op (.ident pl x) e) s =
      (.error (.error ⟨cause, some ⟨(t.registry.module m).name, pb⟩⟩), t) := by
  have fails : (onHeap (op.apply cfg.dataLimit (t.heap.value b) (t.heap.value r)) >>= alloc) t =
      (.error (.ofCause cause), t) := bind_error (by rw [onHeap_apply, applied]; rfl)
  rw [evalExpr_succ]
  exact located_error ((run_operation bound both evaluated).trans fails)

theorem operation_done
    (applied : op.apply cfg.dataLimit (t.heap.value b) (t.heap.value r) t.heap = (.ok v, h)) :
    evalExpr cfg (fuel + 1) ⟨m, calls⟩ (.binary pb op (.ident pl x) e) s =
      (.ok ⟨h.boxes.size⟩, t.withHeap { h with boxes := h.boxes.push v }) := by
  have answers : onHeap (op.apply cfg.dataLimit (t.heap.value b) (t.heap.value r)) t =
      (.ok v, t.withHeap h) := by rw [onHeap_apply, applied]
  rw [evalExpr_succ]
  exact located_ok ((run_operation bound both evaluated).trans (bind_ok answers))

end

end Eval

/-! ## Both ways compared -/

/-- A heap with two more boxes that hold a value. -/
def Heap.pushTwice (h : Heap) (v : Value) : Heap := { h with boxes := (h.boxes.push v).push v }

theorem Heap.write_pushTwice {h : Heap} {b : BoxId} (there : b.index < h.boxes.size) (v u : Value) :
    (h.pushTwice v).write b u = (h.write b u).pushTwice v := by
  have once {xs : Array Value} (inside : b.index < xs.size) :
      (xs.push v).setIfInBounds b.index u = (xs.setIfInBounds b.index u).push v := by grind
  have later : b.index < (h.boxes.push v).size := by simp; omega
  rw [pushTwice, write, once later, once there]
  rfl

/-- How two ways to assign to the box `b` come out, by what became of the right side: alike but for two
boxes more, the place of an error of the operator, and the wording of that error. -/
inductive AssignsAlike (cfg : Config) (op : ComputeOp) (b : BoxId) :
    Except Stop BoxId × State → Except Stop Flow × State → Except Stop Flow × State → Prop
  /-- The right side stops, and both ways stop with it. -/
  | stopped {stop : Stop} {t : State} :
    AssignsAlike cfg op b (.error stop, t) (.error stop, t) (.error stop, t)
  /-- The operator fails in the state the right side has left. -/
  | failed {r : BoxId} {t : State} {cause : Cause} {place place' : Location} :
    op.binary.apply cfg.dataLimit (t.heap.value b) (t.heap.value r) t.heap =
      (.error (.ofCause cause), t.heap) →
    AssignsAlike cfg op b (.ok r, t)
      (.error (.error ⟨op.causeOf (t.heap.typeName (t.heap.value b)) (t.heap.typeName (t.heap.value r))
        cause, some place⟩), t)
      (.error (.error ⟨cause, some place'⟩), t)
  /-- Both ways succeed and leave the result in the box. -/
  | done {r : BoxId} {t : State} {v : Value} {h : Heap} :
    op.binary.apply cfg.dataLimit (t.heap.value b) (t.heap.value r) t.heap = (.ok v, h) →
    (h.write b v).value b = v →
    AssignsAlike cfg op b (.ok r, t) (.ok .done, t.withHeap (h.write b v))
      (.ok .done, t.withHeap ((h.write b v).pushTwice v))

/-- For a bound name `x`, the computing assignment `x op= e` and the plain assignment `x = x op e` come out
alike from the same state.  If `e` stops, so do both, with the same stop and in the state `e` stopped in.  If
the operator fails, both fail for its cause in the state `e` has left; only operands the operator does not
take are an error of the assignment, and the place may be another one.  Else both succeed: `x` is left in
its box with the result, and the plain assignment has made two boxes more.  The plain assignment evaluates
`e` one level deeper. -/
theorem evalStmt_compute_agrees {cfg : Config} {s : State} {m : ModuleId} {x : String} {b : BoxId}
    (running : Running cfg m s) (bound : Eval.getObj? m x s = (.ok (some b), s)) (op : ComputeOp)
    (e : Expr) (fuel calls : Nat) (p p' px px' pb pl : Position) :
    AssignsAlike cfg op b (evalExpr cfg fuel ⟨m, calls⟩ e s)
      (evalStmt cfg (fuel + 1) ⟨m, calls⟩ (.assign p (.compute op) [.ident px x] [e]) s)
      (evalStmt cfg (fuel + 2) ⟨m, calls⟩
        (.assign p' .plain [.ident px' x] [.binary pb op.binary (.ident pl x) e]) s) := by
  have both := op.shortCircuit?_binary (s.heap.value b)
  rcases evaluated : evalExpr cfg fuel ⟨m, calls⟩ e s with ⟨stop | r, t⟩
  · have compound : Eval.assign (evaluators cfg fuel) cfg ⟨m, calls⟩ (.compute op) [.ident px x] [e] s =
        (.error stop, t) := Eval.assignCompute_error evaluated
    have plain : Eval.assign (evaluators cfg (fuel + 1)) cfg ⟨m, calls⟩ .plain [.ident px' x]
        [.binary pb op.binary (.ident pl x) e] s = (.error stop, t) :=
      Eval.assignPlain_error (Eval.operation_stopped bound both evaluated)
    rw [Eval.evalStmt_assign_error compound, Eval.evalStmt_assign_error plain,
      Eval.Placed.expr _ _ _ _ evaluated, Eval.Placed.expr _ _ _ _ evaluated]
    exact .stopped
  · obtain ⟨kept, there⟩ :=
      Eval.getObj?_of_evalExpr running.reachable.wellFormed running.here bound evaluated
    have compound : Eval.assign (evaluators cfg fuel) cfg ⟨m, calls⟩ (.compute op) [.ident px x] [e] s =
        Eval.updateBox cfg op b r t := Eval.assignCompute_bound evaluated (kept t.heap)
    rcases op.apply_run cfg.dataLimit (t.heap.value b) (t.heap.value r) t.heap with
      ⟨v, h, applied, grown⟩ | ⟨cause, applied⟩
    · have inside : b.index < h.boxes.size := Nat.lt_of_lt_of_le there grown.size_boxes
      have plain : Eval.assign (evaluators cfg (fuel + 1)) cfg ⟨m, calls⟩ .plain [.ident px' x]
          [.binary pb op.binary (.ident pl x) e] s = (.ok (), t.withHeap ((h.write b v).pushTwice v)) := by
        have operation : (evaluators cfg (fuel + 1)).expr ⟨m, calls⟩
            (.binary pb op.binary (.ident pl x) e) s =
              (.ok ⟨h.boxes.size⟩, t.withHeap { h with boxes := h.boxes.push v }) :=
          Eval.operation_done bound both evaluated applied
        rw [← Heap.write_pushTwice inside]
        exact Eval.assignPlain_bound operation (fun _ => kept _) (by simp [State.withHeap, Heap.value])
      rw [Eval.evalStmt_assign_ok (compound.trans (Eval.run_updateBox_ok applied)),
        Eval.evalStmt_assign_ok plain]
      exact .done applied (Heap.value_write_self inside v)
    · have plain : Eval.assign (evaluators cfg (fuel + 1)) cfg ⟨m, calls⟩ .plain [.ident px' x]
          [.binary pb op.binary (.ident pl x) e] s = _ :=
        Eval.assignPlain_error (Eval.operation_failed bound both evaluated applied)
      rw [Eval.evalStmt_assign_error (compound.trans (Eval.run_updateBox_error applied)),
        Eval.evalStmt_assign_error plain]
      exact .failed applied

/-- The right side calls a function that assigns to the variable: both ways read it after the call. -/
theorem evalStmt_compute_agrees_call :
    let body : Block :=
      [.assign .start .plain [.ident .start "x"] [.literal .start (.str "b")],
        .returnValue .start (some (.literal .start (.str "c")))]
    let main := State.initial.load (.ofSource "main" "/" "")
    let s₁ := (evalStmt .standard 9 ⟨⟨0⟩, 5⟩
      (.assign .start .plain [.ident .start "x"] [.literal .start (.str "a")]) main).2
    let s := (evalStmt .standard 9 ⟨⟨0⟩, 5⟩ (.function (.mk .start "f" [] body)) s₁).2
    let call := Expr.call .start (.ident .start "f") []
    Eval.getObj? ⟨0⟩ "x" s = (.ok (some ⟨9⟩), s) ∧
      AssignsAlike .standard .add ⟨9⟩ (evalExpr .standard 8 ⟨⟨0⟩, 5⟩ call s)
        (evalStmt .standard 9 ⟨⟨0⟩, 5⟩ (.assign .start (.compute .add) [.ident .start "x"] [call]) s)
        (evalStmt .standard 10 ⟨⟨0⟩, 5⟩ (.assign .start .plain [.ident .start "x"]
          [.binary .start .add (.ident .start "x") call]) s) := by
  intro body main s₁ s call
  have begun : Running .standard ⟨0⟩ main :=
    ⟨.register .initial rfl, State.hasModule_load State.initial _⟩
  have running : Running .standard ⟨0⟩ s := (begun.evalStmt 9 5 _).evalStmt 9 5 _
  have bound : Eval.getObj? ⟨0⟩ "x" s = (.ok (some ⟨9⟩), s) := rfl
  exact ⟨bound, evalStmt_compute_agrees running bound .add call 8 5 ..⟩

end Shiba

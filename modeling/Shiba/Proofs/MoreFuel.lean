import Shiba.Proofs.InternalFailure
import Shiba.Proofs.Parts.Imports

/-!
# More fuel changes no outcome

A run that does not want for fuel comes out the same with more of it.  A construct may look at how a part
ended, as the closing of a block does, and a failure of the machine there would hide what the part ended
with; so steps are compared up to both ways of giving up, and the second one is excluded in the end,
since no run from a reachable state comes to it.

* `Eval.Outlasts s a a'`: from the state `s`, the step `a'` does what `a` does, unless `a` gives up.
* `Built.outlasts`: a construct outlasts itself with evaluators that outlast its own.
* `evaluators_outlast`: evaluators with more fuel outlast those with less, and `Running.not_givesUp` excludes
  the second way of giving up.
-/

namespace Shiba

/-- A run gives up: for want of fuel, or by a failure of the machine. -/
def Stop.GivesUp (stop : Stop) : Prop := stop = .outOfFuel ∨ stop.Internal

theorem Stop.GivesUp.locate {stop : Stop} (givesUp : stop.GivesUp) (l : Location) : (stop.locate l).GivesUp :=
  givesUp.imp (fun same => by rw [same]; rfl) (stop.internal_locate l).2

namespace Eval

/-- From the state `s`, the step `a'` does what the step `a` does, unless `a` gives up. -/
def Outlasts {α : Type} (s : State) (a a' : Eval α) : Prop :=
  (∃ stop, (a s).1 = .error stop ∧ stop.GivesUp) ∨ a' s = a s

namespace Outlasts

variable {α β : Type} {s : State} {a a' a'' : Eval α} {f f' : α → Eval β}

theorem refl (s : State) (a : Eval α) : Outlasts s a a := .inr rfl

theorem out (run : (a s).1 = .error .outOfFuel) : Outlasts s a a' := .inl ⟨_, run, .inl rfl⟩

theorem trans (first : Outlasts s a a') (second : Outlasts s a' a'') : Outlasts s a a'' := by
  rcases first with stopped | same
  · exact .inl stopped
  · rw [Outlasts, same] at second
    exact second

/-- Where the first step comes to an end, the second one does so as well. -/
theorem eq_of_ends {result : Except Stop α} {t : State} (outlasts : Outlasts s a a')
    (run : a s = (result, t)) (ends : ∀ stop, result = .error stop → ¬ stop.GivesUp) :
    a' s = (result, t) := by
  rcases outlasts with ⟨stop, stopped, givesUp⟩ | same
  · rw [run] at stopped
    exact absurd givesUp (ends stop stopped)
  · exact same.trans run

theorem bind (first : Outlasts s a a') (rest : ∀ x t, a s = (.ok x, t) → Outlasts t (f x) (f' x)) :
    Outlasts s (a >>= f) (a' >>= f') := by
  rcases run : a s with ⟨stop | x, t⟩
  · rcases first with ⟨stop', stopped, givesUp⟩ | same
    · rw [run] at stopped
      cases stopped
      exact .inl ⟨stop, by rw [bind_error run], givesUp⟩
    · exact .inr ((bind_error (same.trans run)).trans (bind_error run).symm)
  · have same : a' s = (.ok x, t) := first.eq_of_ends run fun _ other => by cases other
    rw [Outlasts, bind_ok run, bind_ok same]
    exact rest x t run

theorem located (inner : Outlasts s a a') (m : ModuleId) (p : Position) :
    Outlasts s (located m p a) (located m p a') := by
  rcases inner with ⟨stop, stopped, givesUp⟩ | same
  · have run : a s = (.error stop, (a s).2) := Prod.ext stopped rfl
    exact .inl ⟨_, by rw [located_error run], givesUp.locate _⟩
  · exact .inr (by simp only [Eval.located, same])

theorem within {m : ModuleId} {opening : Scope BoxId StructId → Scope BoxId StructId}
    {failure : Invariant} {closing : Scope BoxId StructId → Option (Scope BoxId StructId)}
    (inner : Outlasts (s.modifyScope m opening) a a') :
    Outlasts s (within (modifyScope m opening) (popScope m failure closing) a)
      (within (modifyScope m opening) (popScope m failure closing) a') := by
  rcases inner with ⟨stop, stopped, givesUp⟩ | same
  · obtain ⟨closed, -⟩ := within_ends a s m opening failure closing
    rcases closed with ended | ⟨stop', failed, internal⟩
    · exact .inl ⟨stop, ended.trans stopped, givesUp⟩
    · exact .inl ⟨stop', failed, .inr internal⟩
  · exact .inr (within_congr same)

theorem inBlock {m : ModuleId} (inner : ∀ s, Outlasts s a a') (s : State) :
    Outlasts s (inBlock m a) (inBlock m a') :=
  (refl s (resolve m)).bind fun _ _ _ => within (inner _)

end Outlasts

end Eval

open Eval

/-- Evaluators that answer what others answer, unless those give up. -/
structure Evaluators.Outlast (ev ev' : Evaluators) : Prop where
  expr : ∀ ctx e s, Outlasts s (ev.expr ctx e) (ev'.expr ctx e)
  stmt : ∀ ctx code s, Outlasts s (ev.stmt ctx code) (ev'.stmt ctx code)

/-- A construct outlasts itself with evaluators that outlast its own. -/
theorem Built.outlasts {keys : List String} {α : Type} {a : Evaluators → Eval α} {ev ev' : Evaluators}
    (built : Built keys a) (more : ev.Outlast ev') (s : State) : Outlasts s (a ev) (a ev') := by
  induction built generalizing s with
  | own => exact .refl s _
  | expr ctx e => exact more.expr ctx e s
  | stmt ctx code => exact more.stmt ctx code s
  | bind _ _ iha ihf => exact (iha s).bind fun x t _ => ihf x t
  | located m p _ ih => exact (ih s).located m p
  | within m opening failure closing _ ih => exact (ih _).within

/-! ## Statements and expressions -/

variable {cfg : Config} {ev ev' : Evaluators} {ctx : Context} {s t : State}

/-- A loop that is given one turn more. -/
theorem Eval.whileTurns_outlasts (ev : Evaluators) (cfg : Config) (ctx : Context) (e : Expr) (body : Block)
    (n : Nat) (s : State) :
    Outlasts s (whileTurns ev cfg ctx e body n) (whileTurns ev cfg ctx e body (n + 1)) := by
  induction n generalizing s with
  | zero => exact .out rfl
  | succ n ih =>
    refine Outlasts.bind (.refl s (condition ev cfg ctx "loop" e)) fun holds t _ => ?_
    cases holds with
    | false => exact .refl t _
    | true =>
      rw [if_pos rfl, if_pos rfl]
      refine Outlasts.bind (.refl t (runBlock (ev.stmt ctx) body)) fun flow u _ => ?_
      cases afterTurn flow with
      | none => exact ih u
      | some flow => exact .refl u _

theorem Eval.stmt_outlasts_turn (ev : Evaluators) (cfg : Config) (ctx : Context) (code : Stmt) (n : Nat)
    (s : State) : Outlasts s (Eval.stmt ev cfg n ctx code) (Eval.stmt ev cfg (n + 1) ctx code) := by
  unfold Eval.stmt
  apply Outlasts.located
  cases code with
  | loop p e body => exact Outlasts.inBlock (whileTurns_outlasts ev cfg ctx e body n) s
  | comment | assign | conditional | forIn | function | structDecl | importModule | breakLoop | continueLoop
  | expr => exact Outlasts.refl s _
  | returnValue p e => cases e <;> exact Outlasts.refl s _

/-- One unit of fuel more. -/
theorem evaluators_outlast_succ (cfg : Config) (n : Nat) :
    (evaluators cfg n).Outlast (evaluators cfg (n + 1)) := by
  induction n with
  | zero =>
    constructor
    · exact fun ctx e s => .out (congrArg Prod.fst (congrFun (evalExpr_zero cfg ctx e) s))
    · exact fun ctx code s => .out (congrArg Prod.fst (congrFun (evalStmt_zero cfg ctx code) s))
  | succ n ih =>
    constructor
    · intro ctx e s
      change Outlasts s (evalExpr cfg (n + 1) ctx e) (evalExpr cfg (n + 1 + 1) ctx e)
      rw [evalExpr_succ, evalExpr_succ]
      have built : Built [] fun ev => Eval.expr ev cfg ctx e := .expression cfg ctx e
      exact built.outlasts ih s
    · intro ctx code s
      change Outlasts s (evalStmt cfg (n + 1) ctx code) (evalStmt cfg (n + 1 + 1) ctx code)
      rw [evalStmt_succ, evalStmt_succ]
      have first : Outlasts s (Eval.stmt (evaluators cfg n) cfg n ctx code)
          (Eval.stmt (evaluators cfg (n + 1)) cfg n ctx code) := by
        obtain ⟨a, s', built, same, -, -⟩ := exists_built_stmt cfg n ctx code s
        rw [Outlasts, same, same]
        exact built.outlasts ih s'
      exact first.trans (stmt_outlasts_turn (evaluators cfg (n + 1)) cfg ctx code n s)

theorem evaluators_outlast (cfg : Config) {n n' : Nat} (le : n ≤ n') :
    (evaluators cfg n).Outlast (evaluators cfg n') := by
  induction le with
  | refl => exact ⟨fun _ _ s => .refl s _, fun _ _ s => .refl s _⟩
  | @step n _ ih =>
    have last := evaluators_outlast_succ cfg n
    exact ⟨fun ctx e s => (ih.expr ctx e s).trans (last.expr ctx e s),
      fun ctx code s => (ih.stmt ctx code s).trans (last.stmt ctx code s)⟩

/-- A statement that does not want for fuel does not give up. -/
theorem Running.not_givesUp {m : ModuleId} {n calls : Nat} {code : Stmt} {result : Except Stop Flow}
    (running : Running cfg m s) (run : Shiba.evalStmt cfg n ⟨m, calls⟩ code s = (result, t))
    (enough : result ≠ .error .outOfFuel) : ∀ stop, result = .error stop → ¬ stop.GivesUp := by
  rintro stop rfl (rfl | internal)
  · exact enough rfl
  · exact running.not_internal_evalStmt n calls code stop (by rw [run]) internal

end Shiba

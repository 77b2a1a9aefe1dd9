import Shiba.Proofs.Tracing.Basic
import Shiba.Run

/-!
# Statements at the top level

A statement at the top level is announced when statements are traced, and then it is handed over once to
the evaluation of statements.  What becomes of it there is told here without the loops that run it: of one
statement of the main module, and of the top level of a module that is imported, with a list of the
statements that are handed over and the states they are handed over in.

* `Run.ends_iff`: `Run.statement` runs a statement once, and this is how it ends.
* `runTopLevel_iff`: an imported module starts its statements one after another and each of them once, up to
  the first that is stopped or jumps; `TopLevel.starts_prefix` and `TopLevel.starts_eq` are what follows.
-/

namespace Shiba

/-- An error whose place is known. -/
def State.errorAt (s : State) (m : ModuleId) (p : Position) (cause : Cause) : Stop :=
  .error ⟨cause, some ⟨(s.registry.module m).name, p⟩⟩

namespace Eval

variable {cfg : Config} {m : ModuleId} {code : Stmt} {s t : State}

/-- A line of tracing whose text is there. -/
theorem trace_apply (cfg : Config) (level : Int) (text : Eval String) {line : String}
    (reads : text s = (.ok line, s)) :
    trace cfg level text s =
      (.ok (), if level ≤ cfg.debugLevel then { s with output := s.output.push (.trace line) } else s) := by
  unfold trace
  split
  · exact bind_ok reads
  · rfl

/-- A line of tracing changes at most what is written. -/
theorem trace_eq (cfg : Config) (level : Int) (text : Eval String) {line : String}
    (reads : text s = (.ok line, s)) :
    ∃ lines, trace cfg level text s = (.ok (), { s with output := lines }) := by
  rw [trace_apply cfg level text reads]
  split
  · exact ⟨_, rfl⟩
  · exact ⟨s.output, rfl⟩

/-- The state in which a top-level statement is handed over: the line that names it has been written when
statements are traced. -/
def announced (cfg : Config) (m : ModuleId) (code : Stmt) (s : State) : State :=
  let line := Location.text ⟨(s.registry.module m).name, code.position⟩ ++ ": " ++ code.form
  if 2 ≤ cfg.debugLevel then { s with output := s.output.push (.trace line) } else s

theorem traceStatement_eq (cfg : Config) (m : ModuleId) (code : Stmt) (s : State) :
    traceStatement cfg m code s = (.ok (), announced cfg m code s) :=
  trace_apply cfg 2 (do
    let name := ((← get).registry.module m).name
    return Location.text ⟨name, code.position⟩ ++ ": " ++ code.form) rfl

theorem exists_announced (cfg : Config) (m : ModuleId) (code : Stmt) (s : State) :
    ∃ lines, announced cfg m code s = { s with output := lines } := by
  unfold announced
  split
  · exact ⟨_, rfl⟩
  · exact ⟨s.output, rfl⟩

theorem checkTopLevel_none {flow : Flow} (plain : flow.jump? = none) :
    checkTopLevel m code flow s = (.ok (), s) := by
  rw [checkTopLevel, plain]
  rfl

theorem checkTopLevel_some {flow : Flow} {jump : Jump} (jumps : flow.jump? = some jump) :
    checkTopLevel m code flow s = (.error (s.errorAt m code.position (.jumpOutside jump)), s) := by
  rw [checkTopLevel, jumps]
  rfl

end Eval

open Eval

/-! ## The main module -/

namespace Run

/-- How a top-level statement of the main module ends, told by the one evaluation of it: an exit is an
outcome, and a jump or too deep a nesting is an error at its place. -/
inductive Ends (cfg : Config) (m : ModuleId) (code : Stmt) (s : State) : Except Stop Outcome → State → Prop
  | finished {flow : Flow} {t : State} :
    evalStmt cfg cfg.fuel ⟨m, cfg.callLimit⟩ code (announced cfg m code s) = (.ok flow, t) →
    flow.jump? = none → Ends cfg m code s (.ok (outcome flow)) t
  | jumped {flow : Flow} {jump : Jump} {t : State} :
    evalStmt cfg cfg.fuel ⟨m, cfg.callLimit⟩ code (announced cfg m code s) = (.ok flow, t) →
    flow.jump? = some jump →
    Ends cfg m code s (.error (t.errorAt m code.position (.jumpOutside jump))) t
  | exited {number : Int64} {t : State} :
    evalStmt cfg cfg.fuel ⟨m, cfg.callLimit⟩ code (announced cfg m code s) = (.error (.exit number), t) →
    Ends cfg m code s (.ok (.exit number)) t
  | tooDeep {t : State} :
    evalStmt cfg cfg.fuel ⟨m, cfg.callLimit⟩ code (announced cfg m code s) = (.error .tooDeep, t) →
    Ends cfg m code s (.error (t.errorAt m code.position .tooDeep)) t
  | stopped {stop : Stop} {t : State} :
    evalStmt cfg cfg.fuel ⟨m, cfg.callLimit⟩ code (announced cfg m code s) = (.error stop, t) →
    (∀ number, stop ≠ .exit number) → stop ≠ .tooDeep → Ends cfg m code s (.error stop) t

variable {cfg : Config} {m : ModuleId} {code : Stmt} {s t : State} {result : Except Stop Outcome}

theorem statement_apply (cfg : Config) (m : ModuleId) (code : Stmt) (s : State) :
    statement cfg m code s =
      (match evalStmt cfg cfg.fuel ⟨m, cfg.callLimit⟩ code (announced cfg m code s) with
      | (.ok flow, t) => (checkTopLevel m code flow >>= fun _ => pure (outcome flow)) t
      | (.error (.exit number), t) => (.ok (.exit number), t)
      | (.error .tooDeep, t) => (.error (t.errorAt m code.position .tooDeep), t)
      | (.error stop, t) => (.error stop, t)) := by
  rw [statement, bind_ok (traceStatement_eq cfg m code s), observe_bind_apply]
  rcases evalStmt cfg cfg.fuel ⟨m, cfg.callLimit⟩ code (announced cfg m code s) with ⟨stop | flow, t⟩
  · cases stop <;> rfl
  · rfl

theorem Ends.eq (ends : Ends cfg m code s result t) : statement cfg m code s = (result, t) := by
  rw [statement_apply]
  cases ends with
  | finished run plain =>
    rw [run]
    exact bind_ok (checkTopLevel_none plain)
  | jumped run jumps =>
    rw [run]
    exact bind_error (checkTopLevel_some jumps)
  | exited run | tooDeep run => rw [run]
  | @stopped stop t run noExit shallow =>
    rw [run]
    cases stop with
    | exit number => exact absurd rfl (noExit number)
    | tooDeep => exact absurd rfl shallow
    | error | crash | outOfFuel => rfl

theorem exists_ends (cfg : Config) (m : ModuleId) (code : Stmt) (s : State) :
    ∃ result t, Ends cfg m code s result t := by
  rcases run : evalStmt cfg cfg.fuel ⟨m, cfg.callLimit⟩ code (announced cfg m code s) with ⟨stop | flow, t⟩
  · cases stop with
    | exit number => exact ⟨_, _, .exited run⟩
    | tooDeep => exact ⟨_, _, .tooDeep run⟩
    | error | crash | outOfFuel => exact ⟨_, _, .stopped run nofun nofun⟩
  · cases jumps : flow.jump? with
    | none => exact ⟨_, _, .finished run jumps⟩
    | some jump => exact ⟨_, _, .jumped run jumps⟩

/-- A top-level statement is run by evaluating it once. -/
theorem ends_iff : statement cfg m code s = (result, t) ↔ Ends cfg m code s result t := by
  refine ⟨fun run => ?_, Ends.eq⟩
  obtain ⟨result', t', ends⟩ := exists_ends cfg m code s
  cases run.symm.trans ends.eq
  exact ends

end Run

/-! ## Modules that are imported -/

/-- The top level of a module is run: the statements that are handed over to the evaluators, each with the
state in which it is, and how the run ends. -/
inductive TopLevel (ev : Evaluators) (cfg : Config) (ctx : Context) :
    State → Block → List (Stmt × State) → Except Stop Unit → State → Prop
  | done (s : State) : TopLevel ev cfg ctx s [] [] (.ok ()) s
  | next {s t u : State} {code : Stmt} {rest : Block} {starts : List (Stmt × State)}
    {result : Except Stop Unit} {flow : Flow} :
    ev.stmt ctx code (announced cfg ctx.module code s) = (.ok flow, t) → flow.jump? = none →
    TopLevel ev cfg ctx t rest starts result u →
    TopLevel ev cfg ctx s (code :: rest) ((code, announced cfg ctx.module code s) :: starts) result u
  | jumped {s t : State} {code : Stmt} {rest : Block} {flow : Flow} {jump : Jump} :
    ev.stmt ctx code (announced cfg ctx.module code s) = (.ok flow, t) → flow.jump? = some jump →
    TopLevel ev cfg ctx s (code :: rest) [(code, announced cfg ctx.module code s)]
      (.error (t.errorAt ctx.module code.position (.jumpOutside jump))) t
  | stopped {s t : State} {code : Stmt} {rest : Block} {stop : Stop} :
    ev.stmt ctx code (announced cfg ctx.module code s) = (.error stop, t) →
    TopLevel ev cfg ctx s (code :: rest) [(code, announced cfg ctx.module code s)] (.error stop) t

section

variable {ev : Evaluators} {cfg : Config} {ctx : Context} {s t : State} {block : Block}
  {starts : List (Stmt × State)} {result : Except Stop Unit}

namespace TopLevel

theorem eq (top : TopLevel ev cfg ctx s block starts result t) :
    runTopLevel ev cfg ctx block s = (result, t) := by
  induction top with
  | done s => rfl
  | next run plain _ ih =>
    rw [runTopLevel, bind_ok (traceStatement_eq _ _ _ _), bind_ok run, bind_ok (checkTopLevel_none plain)]
    exact ih
  | jumped run jumps =>
    rw [runTopLevel, bind_ok (traceStatement_eq _ _ _ _), bind_ok run]
    exact bind_error (checkTopLevel_some jumps)
  | stopped run =>
    rw [runTopLevel, bind_ok (traceStatement_eq _ _ _ _)]
    exact bind_error run

/-- The statements that are started are those of the text in order and once each, up to some of them. -/
theorem starts_prefix (top : TopLevel ev cfg ctx s block starts result t) :
    starts.map Prod.fst <+: block := by
  induction top with
  | done s => exact List.prefix_refl []
  | next _ _ _ ih => exact (List.prefix_cons_inj _).2 ih
  | jumped | stopped => exact (List.prefix_cons_inj _).2 List.nil_prefix

/-- The first statement is started. -/
theorem starts_ne_nil (top : TopLevel ev cfg ctx s block starts result t) (some : block ≠ []) :
    starts ≠ [] := by
  cases top with
  | done => exact absurd rfl some
  | next | jumped | stopped => exact nofun

/-- A top level that comes to its end has started all statements. -/
theorem starts_eq (top : TopLevel ev cfg ctx s block starts (.ok ()) t) : starts.map Prod.fst = block := by
  generalize ended : Except.ok () = result at top
  induction top with
  | done s => rfl
  | next _ _ _ ih => rw [List.map_cons, ih ended]
  | jumped | stopped => cases ended

end TopLevel

theorem exists_topLevel (ev : Evaluators) (cfg : Config) (ctx : Context) (s : State) (block : Block) :
    ∃ starts result t, TopLevel ev cfg ctx s block starts result t := by
  induction block generalizing s with
  | nil => exact ⟨_, _, _, .done s⟩
  | cons code rest ih =>
    rcases run : ev.stmt ctx code (announced cfg ctx.module code s) with ⟨stop | flow, t⟩
    · exact ⟨_, _, _, .stopped run⟩
    · cases jumps : flow.jump? with
      | none =>
        obtain ⟨starts, result, u, later⟩ := ih t
        exact ⟨_, _, _, .next run jumps later⟩
      | some jump => exact ⟨_, _, _, .jumped run jumps⟩

theorem TopLevel.unique {starts' : List (Stmt × State)} {result' : Except Stop Unit} {t' : State}
    (top : TopLevel ev cfg ctx s block starts result t)
    (top' : TopLevel ev cfg ctx s block starts' result' t') : starts = starts' ∧ result = result' ∧ t = t' := by
  refine ⟨?_, Prod.mk.inj (top.eq.symm.trans top'.eq)⟩
  induction top generalizing starts' result' t' with
  | done s =>
    cases top'
    rfl
  | next run plain _ ih =>
    cases top' with
    | next run' _ rest =>
      cases run.symm.trans run'
      rw [ih rest]
    | jumped run' jumps =>
      cases run.symm.trans run'
      cases plain.symm.trans jumps
    | stopped run' => cases run.symm.trans run'
  | jumped run jumps =>
    cases top' with
    | next run' plain =>
      cases run.symm.trans run'
      cases jumps.symm.trans plain
    | jumped | stopped => rfl
  | stopped run =>
    cases top' with
    | next run' => cases run.symm.trans run'
    | jumped | stopped => rfl

/-- A module that is imported hands its top-level statements over one by one. -/
theorem runTopLevel_iff : runTopLevel ev cfg ctx block s = (result, t) ↔
    ∃ starts, TopLevel ev cfg ctx s block starts result t := by
  refine ⟨fun run => ?_, fun ⟨_, top⟩ => top.eq⟩
  obtain ⟨starts, result', t', top⟩ := exists_topLevel ev cfg ctx s block
  cases run.symm.trans top.eq
  exact ⟨starts, top⟩

end

end Shiba

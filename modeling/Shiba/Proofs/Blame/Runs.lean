import Shiba.Proofs.Blame.Constructs
import Shiba.Proofs.ImportedFiles

/-!
# Runs stop accountably

A module that is imported is loaded before its first statement runs, so that its own text accounts for what
goes wrong in it.  With imports the recursion is complete, and can be tied by induction on the fuel.

* `Norms.Text`: a text keeps to the norms, and so does the failure it ends with, if it does.
* `evaluators_accountable`: when the module files that can be read keep to the norms, evaluation stops
  accountably.
* `Norms.Steps.statement` and `Norms.Ends.program`: so do statements at the top level, and whole programs.
* `Run.Session` runs the statements of a module one by one; `Norms.Text.session` says the same of it.
-/

namespace Shiba

/-- A text keeps to the norms: its statements do, and the failure it ends with has a place in it. -/
structure Norms.Text (N : Norms) (content : String) : Prop where
  within : ∀ s ∈ (Program.ofText content).statements, s.Within (N.Place content) N.Inner
  top : ∀ s ∈ (Program.ofText content).statements, N.Top s
  ending : ∀ failure, (Program.ofText content).ending = .failed failure → N.Place content failure.position

/-- Every module file that can be read keeps to the norms. -/
def Norms.Files (N : Norms) (files : FileSystem) : Prop :=
  ∀ path content, Path.HasExtension path → files.read path = .ok content → N.Text content

open Eval

variable {N : Norms} {w s : State} {placed : Bool} {cfg : Config} {ev : Evaluators}

namespace Norms.Steps

/-! ## Top levels -/

theorem traceStatement (m : ModuleId) (s : Stmt) : N.Steps placed w (traceStatement cfg m s) :=
  trace (get_bind fun _ => pure _)

/-- A jump that reaches the top level is blamed on the statement it came from. -/
theorem checkTopLevel {m : ModuleId} {s : Stmt} {flow : Flow} (loaded : w.Loaded m)
    (here : N.PlaceIn w m s.position) (top : N.Top s) (jumps : flow.JumpsIn s.Yields) :
    N.Steps true w (checkTopLevel m s flow) := by
  rw [Eval.checkTopLevel]
  split
  · next jump isJump =>
    have warranted : N.Warrants (.jumpOutside jump) := ⟨s, top, jumps jump isJump⟩
    exact (blame warranted).located loaded here
  · exact pure _

theorem runTopLevel (ok : ev.Accountable N) {ctx : Context} {block : Block} (loaded : w.Loaded ctx.module)
    (lies : ∀ s ∈ block, s.Within (N.PlaceIn w ctx.module) N.Inner) (top : ∀ s ∈ block, N.Top s) :
    N.Steps true w (runTopLevel ev cfg ctx block) := by
  induction block with
  | nil => exact pure _
  | cons s rest ih =>
    have here := lies s List.mem_cons_self
    refine (traceStatement ctx.module s).bind fun _ => ?_
    refine (ok.stmt loaded here).bind_answers (ok.ends ctx s) fun flow jumps => ?_
    refine (checkTopLevel loaded here.position (top s List.mem_cons_self) jumps).bind fun _ => ?_
    exact ih (fun s' member => lies s' (List.mem_cons_of_mem s member))
      (fun s' member => top s' (List.mem_cons_of_mem s member))

/-- A failure of the text is reported in its module, unless it is a crash. -/
theorem checkEnding {m : ModuleId} {ending : Ending} (loaded : w.Loaded m)
    (here : ∀ failure, ending = .failed failure → N.PlaceIn w m failure.position) :
    N.Steps true w (checkEnding m ending) := by
  cases ending with
  | complete last => exact pure _
  | failed failure =>
    intro s kept sourced
    rw [Eval.checkEnding, bind_ok (run_get s)]
    rcases Stop.ofFailure_eq (s.registry.module m).name failure with ⟨reason, isCrash, crashes⟩ | ⟨-, fails⟩
    · rw [crashes]
      exact .error sourced (failure.fault.eq_of_crash? isCrash)
    · rw [fails]
      refine .error sourced ⟨trivial, ?_, fun _ => rfl⟩
      rintro l isPlace
      cases isPlace
      exact ⟨m, kept.loaded m loaded, rfl, (here failure rfl).mono kept loaded⟩

/-! ## Imports -/

/-- A module whose key is not taken yet is added, and something is done inside it. -/
theorem addModule_bind {α : Type} {M : Module} {f : ModuleId → Eval α} (sourced : N.Sourced s)
    (fresh : s.registry.find? M.key = none)
    (inside : ∀ w id, w.Loaded id → N.PlaceIn w id = N.Place M.content → N.Steps placed w (f id)) :
    N.Ends placed s ((addModule M >>= f) s) := by
  have kept : s.Kept (s.load M) := .load fresh
  have place : N.PlaceIn (s.load M) s.registry.next = N.Place M.content := by
    funext p
    rw [PlaceIn, State.load, Registry.module_load_next]
  rw [bind_ok (Discipline.Agree.run_addModule s M)]
  exact .after kept (inside _ _ (s.loaded_load M) place _ (.refl _) (sourced.of_functions kept rfl))

theorem runLoaded (ok : ev.Accountable N) (calls : Nat) {M : Module} {id : ModuleId}
    (text : N.Text M.content) (loaded : w.Loaded id) (place : N.PlaceIn w id = N.Place M.content) :
    N.Steps false w (runLoaded ev cfg calls M id) := by
  have lies := text.within
  have ending := text.ending
  rw [← place] at lies ending
  refine (trace (pure _)).bind fun _ => (runTopLevel ok loaded lies text.top).weaken.bind fun _ => ?_
  exact (checkEnding loaded ending).weaken.bind fun _ => pure _

theorem loadFile (ok : ev.Accountable N) (files : N.Files cfg.files) (calls : Nat) {path : String}
    (ends : Path.HasExtension path) : N.Steps false w (loadFile ev cfg calls path) := by
  intro s kept sourced
  rw [Eval.loadFile, bind_ok (run_get s)]
  cases fresh : s.registry.find? (keyOfFile path) with
  | some there => exact ((trace (pure _)).bind fun _ => pure _) s kept sourced
  | none =>
    dsimp only
    cases isRead : cfg.files.read path with
    | error failure => exact raise rfl s kept sourced
    | ok content =>
      have text : N.Text (moduleOfFile path content).content := files path content ends isRead
      rw [← key_moduleOfFile path content] at fresh
      exact addModule_bind sourced fresh fun w id loaded place => runLoaded ok calls text loaded place

theorem loadHost (name : String) : N.Steps false w (loadHost cfg name) := by
  intro s kept sourced
  rw [Eval.loadHost, bind_ok (run_get s)]
  cases fresh : s.registry.find? (Path.join Module.hostDirectory name) with
  | some there => exact pure there s kept sourced
  | none =>
    cases hostModules.lookup name with
    | none => exact raise rfl s kept sourced
    | some members =>
      -- the members are put into new boxes, and no module changes
      have onHeapOnly : (members.mapM fun e => do return (e.1, ← Eval.alloc e.2)) =
          Eval.onHeap (members.mapM fun e => do return (e.1, ← HeapM.alloc e.2)) := by
        simp only [onHeap_mapM, onHeap_bind, onHeap_pure]
        rfl
      have made : N.Steps false w (members.mapM fun e => do return (e.1, ← Eval.alloc e.2)) :=
        mapM fun e _ => (alloc _).bind fun _ => pure _
      refine (made s kept sourced).bind fun objs t run _ sourced' => ?_
      have same : t.registry = s.registry := by
        rw [onHeapOnly, onHeap_apply] at run
        exact congrArg (fun r => r.2.registry) run.symm
      refine addModule_bind sourced' ?_ fun _ _ _ _ => (trace (pure _)).bind fun _ => pure _
      rw [same]
      exact fresh

theorem importModule (ok : ev.Accountable N) (files : N.Files cfg.files) (ctx : Context) (name : String) :
    N.Steps false w (importModule ev cfg ctx name) := by
  refine get_bind fun s => ?_
  dsimp only
  split
  · next path found => exact loadFile ok files ctx.calls (hasExtension_of_findFile found)
  · exact loadHost name

theorem importStatement (ok : ev.Accountable N) (files : N.Files cfg.files) (ctx : Context)
    (target : String) : N.Steps false w (importStatement ev cfg ctx target) := by
  refine (importModule ok files ctx target).bind fun m => get_bind fun s => ?_
  exact (alloc _).bind fun b => setObj _ _ b

/-! ## Statements -/

theorem stmt (ok : ev.Accountable N) (files : N.Files cfg.files) (turns : Nat) {ctx : Context} {s : Stmt}
    (loaded : w.Loaded ctx.module) (lies : s.Within (N.PlaceIn w ctx.module) N.Inner) :
    N.Steps true w (Eval.stmt ev cfg turns ctx s) := by
  refine located ?_ loaded lies.position
  cases lies with
  | comment => exact pure _
  | importModule => exact (importStatement ok files ctx _).bind fun _ => pure _
  | expr lies => exact (inside ok loaded lies).bind fun b => pure _
  | assign _ left right => exact (assign ok loaded _ left right).bind fun _ => pure _
  | conditional _ conditions blocks otherwise =>
    exact (runBranches ok loaded conditions blocks otherwise).inBlock ctx.module
  | forIn _ target body => exact forLoop ok loaded target _ _ body
  | loop _ condition body => exact (whileTurns ok loaded condition body turns).inBlock ctx.module
  | function _ inner body => exact (defineFunction loaded inner body).bind fun _ => pure _
  | structDecl _ inner bodies => exact (defineStruct loaded _ _ inner bodies).bind fun _ => pure _
  | @returnValue _ value _ lies =>
    cases value with
    | none => exact pure _
    | some e => exact (inside ok loaded (lies e rfl)).bind fun b => pure _
  | breakLoop => exact pure _
  | continueLoop => exact pure _

end Norms.Steps

/-- When the module files that can be read keep to the norms, evaluation stops accountably, whatever the
fuel. -/
theorem evaluators_accountable (files : N.Files cfg.files) (fuel : Nat) :
    (evaluators cfg fuel).Accountable N := by
  induction fuel with
  | zero =>
    refine ⟨?_, ?_, evaluators_endAsWritten cfg 0⟩
    · intro w ctx e _ _
      change N.Steps true w (evalExpr cfg 0 ctx e)
      rw [evalExpr_zero]
      exact .throw fun _ => trivial
    · intro w ctx s _ _
      change N.Steps true w (evalStmt cfg 0 ctx s)
      rw [evalStmt_zero]
      exact .throw fun _ => trivial
  | succ fuel ih =>
    refine ⟨?_, ?_, evaluators_endAsWritten cfg (fuel + 1)⟩
    · intro w ctx e loaded lies
      change N.Steps true w (evalExpr cfg (fuel + 1) ctx e)
      rw [evalExpr_succ]
      exact .expr ih loaded lies
    · intro w ctx s loaded lies
      change N.Steps true w (evalStmt cfg (fuel + 1) ctx s)
      rw [evalStmt_succ]
      exact .stmt ih files fuel loaded lies

/-! ## Programs -/

/-- A statement at the top level.  What went too deep is an error of the statement. -/
theorem Norms.Steps.statement (files : N.Files cfg.files) {m : ModuleId} {s : Stmt} (loaded : w.Loaded m)
    (lies : s.Within (N.PlaceIn w m) N.Inner) (top : N.Top s) :
    N.Steps true w (Run.statement cfg m s) := by
  have ok := evaluators_accountable files cfg.fuel
  have runs : N.Steps true w (evalStmt cfg cfg.fuel ⟨m, cfg.callLimit⟩ s) := ok.stmt loaded lies
  refine (traceStatement m s).bind fun _ => observe_bind runs (ok.ends _ s) ?_ ?_
  · exact fun flow jumps => (checkTopLevel loaded lies.position top jumps).bind fun _ => pure _
  · intro stop t kept sourced owned
    cases stop with
    | error e => exact .error sourced owned
    | exit code => exact .ok sourced
    | tooDeep =>
      exact (raiseAt rfl loaded lies.position : N.Steps true w (Eval.raiseAt m s.position .tooDeep))
        t kept sourced
    | crash | outOfFuel => exact .error sourced owned

theorem Norms.Steps.statements (files : N.Files cfg.files) {m : ModuleId} {block : Block}
    (loaded : w.Loaded m) (lies : ∀ s ∈ block, s.Within (N.PlaceIn w m) N.Inner)
    (top : ∀ s ∈ block, N.Top s) : N.Steps true w (Run.statements cfg m block) := by
  induction block with
  | nil => exact pure _
  | cons s rest ih =>
    refine (statement files loaded (lies s List.mem_cons_self) (top s List.mem_cons_self)).bind ?_
    intro outcome
    split
    · exact pure _
    · exact ih (fun s' member => lies s' (List.mem_cons_of_mem s member))
        (fun s' member => top s' (List.mem_cons_of_mem s member))

/-- Before anything runs there are no functions. -/
theorem Norms.sourced_initial : N.Sourced .initial := by
  intro f stmt member
  cases member

/-- A program whose key is not taken yet. -/
theorem Norms.Ends.program (files : N.Files cfg.files) {M : Module} (text : N.Text M.content)
    (sourced : N.Sourced s) (fresh : s.registry.find? M.key = none) :
    N.Ends true s (Run.program cfg M s) := by
  refine Steps.addModule_bind sourced fresh fun w id loaded place => (Steps.trace (.pure _)).bind fun _ => ?_
  have lies := text.within
  have ending := text.ending
  rw [← place] at lies ending
  refine (Steps.statements files loaded lies text.top).bind fun code => ?_
  cases code with
  | some code => exact .pure code
  | none => exact (Steps.checkEnding loaded ending).bind fun _ => .pure 0

/-! ## Sessions -/

/-- The number of the first module of a run. -/
def Run.mainModule : ModuleId := State.initial.registry.next

/-- The states of a session that has loaded a module and runs its statements one by one, whatever becomes
of them. -/
inductive Run.Session (cfg : Config) (M : Module) : State → Prop
  | start : Session cfg M (State.initial.load M)
  | step {s : State} {stmt : Stmt} : Session cfg M s → stmt ∈ (Program.ofText M.content).statements →
    Session cfg M (Run.statement cfg Run.mainModule stmt s).2

namespace Norms.Text

variable {M : Module}

theorem placeIn_main (M : Module) :
    N.PlaceIn (State.initial.load M) Run.mainModule = N.Place M.content := by
  funext p
  rw [PlaceIn, State.load, Run.mainModule, Registry.module_load_next]

/-- A statement of a session stops accountably. -/
theorem statement (text : N.Text M.content) (files : N.Files cfg.files) {stmt : Stmt}
    (member : stmt ∈ (Program.ofText M.content).statements) :
    N.Steps true (State.initial.load M) (Run.statement cfg Run.mainModule stmt) := by
  have lies := text.within stmt member
  rw [← placeIn_main M] at lies
  exact .statement files (State.loaded_load _ M) lies (text.top stmt member)

/-- Nothing that a session has loaded is lost. -/
theorem session (text : N.Text M.content) (files : N.Files cfg.files) (session : Run.Session cfg M s) :
    (State.initial.load M).Kept s ∧ N.Sourced s := by
  induction session with
  | start => exact ⟨.refl _, sourced_initial.of_functions (.load rfl) rfl⟩
  | step _ member ih =>
    have ends := text.statement files member _ ih.1 ih.2
    exact ⟨ih.1.trans ends.kept, ends.sourced⟩

/-- The failure a text ends with is reported in its module. -/
theorem checkEnding (text : N.Text M.content) : N.Steps true (State.initial.load M)
    (Eval.checkEnding Run.mainModule (Program.ofText M.content).ending) := by
  have ending := text.ending
  rw [← placeIn_main M] at ending
  exact .checkEnding (State.loaded_load _ M) ending

end Norms.Text

end Shiba

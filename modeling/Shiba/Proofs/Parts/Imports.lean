import Shiba.Proofs.ImportedFiles
import Shiba.Proofs.Parts.Constructs

/-!
# Modules are loaded once, and as a whole

A run is followed from part to part at any depth (`Inside`).  An import that loads a module from a file
registers its key before it hands over the first of its statements, and every part of a run keeps what is
registered.  So at most one import inside a part loads the module with a key, and the statements it hands
over are those that a run through the top level of the module starts.

* `LoadsFile.asks_iff`: the parts of an import that loads a file.
* `Inside.unique`: no second import inside a part loads the same module.
* `loadedInside`: when a module from a file gets registered while a part is evaluated, an import inside has
  loaded it, and has run it as a whole if the part ends by itself.
-/

namespace Shiba

open Eval

/-- The state in which the top level of a module begins that is loaded by an import. -/
def Eval.begun (cfg : Config) (M : Module) (s : State) : State :=
  if 1 ≤ cfg.debugLevel then
    { s.load M with output := s.output.push (.trace ("load module " ++ M.key)) }
  else s.load M

/-- An import by the module of `ctx` finds a file that can be read, and whose module, with this key, is not
registered yet. -/
structure LoadsFile (cfg : Config) (ctx : Context) (name : String) (s : State)
    (key file content : String) : Prop where
  found : findFile cfg.files name
    [(s.registry.module ctx.module).directory, cfg.standardDirectory] = some file
  isKey : keyOfFile file = key
  isRead : cfg.files.read file = .ok content
  fresh : s.registry.find? key = none

/-- The module of a file, loaded in a state, runs through its top level to the end of its text: it starts
every statement once and in order, and none of them is stopped. -/
structure RunsWhole (cfg : Config) (fuel calls : Nat) (s : State) (file content : String) : Prop where
  runs : ∃ starts t, TopLevel (evaluators cfg fuel) cfg ⟨s.registry.next, calls⟩
    (begun cfg (moduleOfFile file content) s) (Program.ofText content).statements starts (.ok ()) t ∧
    starts.map Prod.fst = (Program.ofText content).statements
  ends : ∃ place, (Program.ofText content).ending = .complete place

/-! ## Steps of the evaluators -/

section

variable {cfg : Config} {ctx : Context} {fuel : Nat} {s : State}

theorem Part.completes_expr {e : Expr} :
    (Part.expr ctx e).Completes (evaluators cfg (fuel + 1)) s ↔
      ∃ b t, Eval.expr (evaluators cfg fuel) cfg ctx e s = (.ok b, t) := by
  rw [← evalExpr_succ]
  rfl

theorem Part.completes_stmt {code : Stmt} :
    (Part.stmt ctx code).Completes (evaluators cfg (fuel + 1)) s ↔
      ∃ flow t, Eval.stmt (evaluators cfg fuel) cfg fuel ctx code s = (.ok flow, t) := by
  rw [← evalStmt_succ]
  rfl

theorem Part.after_zero (part : Part) : part.after (evaluators cfg 0) s = s := by
  cases part with
  | expr ctx e =>
    change (evalExpr cfg 0 ctx e s).2 = s
    rw [evalExpr_zero]
    rfl
  | stmt ctx code =>
    change (evalStmt cfg 0 ctx code s).2 = s
    rw [evalStmt_zero]
    rfl

theorem Part.after_expr (e : Expr) : (Part.expr ctx e).after (evaluators cfg (fuel + 1)) s =
    (Eval.expr (evaluators cfg fuel) cfg ctx e s).2 := by
  rw [← evalExpr_succ]
  rfl

theorem Part.after_stmt (code : Stmt) : (Part.stmt ctx code).after (evaluators cfg (fuel + 1)) s =
    (Eval.stmt (evaluators cfg fuel) cfg fuel ctx code s).2 := by
  rw [← evalStmt_succ]
  rfl

end

/-! ## The parts of a top level -/

namespace TopLevel

variable {ev : Evaluators} {cfg : Config} {ctx : Context} {s t u : State} {block : Block}
  {starts : List (Stmt × State)} {result : Except Stop Unit} {code : Stmt} {part : Part}

/-- A run through a top level asks for the statements that it starts. -/
theorem mem_of_asks (top : TopLevel ev cfg ctx s block starts result u)
    (asks : Asks (fun ev => runTopLevel ev cfg ctx block) ev s part t) :
    ∃ code, part = .stmt ctx code ∧ (code, t) ∈ starts := by
  -- the statement is announced without evaluators, and then it is asked for
  have first {s : State} {code : Stmt} {rest : Block}
      (asks : Asks (fun ev => runTopLevel ev cfg ctx (code :: rest)) ev s part t) :
      part = .stmt ctx code ∧ t = announced cfg ctx.module code s ∨
        ∃ flow v, ev.stmt ctx code (announced cfg ctx.module code s) = (.ok flow, v) ∧
          Asks (fun ev => checkTopLevel ctx.module code flow >>= fun _ => runTopLevel ev cfg ctx rest) ev v
            part t := by
    obtain announces | ⟨_, v, run, asks⟩ := asks.of_bind
    · exact absurd announces not_asks_own
    · cases run.symm.trans (traceStatement_eq cfg ctx.module code s)
      exact asks.of_bind.imp_left Asks.of_stmt
  induction top with
  | done s => exact absurd asks not_asks_own
  | @next s v w code rest starts result flow run plain _ ih =>
    obtain ⟨rfl, rfl⟩ | ⟨_, _, run', later⟩ := first asks
    · exact ⟨code, rfl, List.mem_cons_self⟩
    · cases run.symm.trans run'
      obtain checks | ⟨_, _, checked, later⟩ := later.of_bind
      · exact absurd checks not_asks_own
      · cases checked.symm.trans (checkTopLevel_none plain)
        obtain ⟨code', same, member⟩ := ih later
        exact ⟨code', same, List.mem_cons_of_mem _ member⟩
  | @jumped s v code rest flow jump run jumps =>
    obtain ⟨rfl, rfl⟩ | ⟨_, _, run', later⟩ := first asks
    · exact ⟨code, rfl, List.mem_cons_self⟩
    · cases run.symm.trans run'
      obtain checks | ⟨_, _, checked, -⟩ := later.of_bind
      · exact absurd checks not_asks_own
      · cases checked.symm.trans (checkTopLevel_some jumps)
  | @stopped s v code rest stop run =>
    obtain ⟨rfl, rfl⟩ | ⟨_, _, run', -⟩ := first asks
    · exact ⟨code, rfl, List.mem_cons_self⟩
    · cases run.symm.trans run'

/-- A run through a top level stops when a statement that it starts does. -/
theorem stopsAt (top : TopLevel ev cfg ctx s block starts result u) (member : (code, t) ∈ starts) :
    StopsAt (fun ev => runTopLevel ev cfg ctx block) ev s (.stmt ctx code) t := by
  have here (s : State) (code : Stmt) (rest : Block) :
      StopsAt (fun ev => runTopLevel ev cfg ctx (code :: rest)) ev s (.stmt ctx code)
        (announced cfg ctx.module code s) := by
    refine .bind_rest (fun lines => traceStatement_eq cfg ctx.module code s) (.bind fun lines => ?_)
    exact ⟨_, _, if_pos rfl, rfl⟩
  induction top with
  | done s => cases member
  | @next s v w first rest starts result flow run plain _ ih =>
    by_cases same : (code, t) = (first, announced cfg ctx.module first s)
    · cases same
      exact here s code rest
    · have later := ih ((List.mem_cons.1 member).resolve_left same)
      refine .bind_rest (fun lines => traceStatement_eq cfg ctx.module first s) ?_
      refine .bind_rest (fun lines => ?_) (.bind_rest (fun lines => checkTopLevel_none plain) later)
      refine (if_neg ?_).trans run
      rintro ⟨⟩
      exact same rfl
  | @jumped s _ first rest =>
    cases List.mem_singleton.1 member
    exact here s code rest
  | @stopped s _ first rest =>
    cases List.mem_singleton.1 member
    exact here s code rest

end TopLevel

/-! ## Import statements -/

section

variable {cfg : Config} {ctx : Context} {name key path file content : String} {s t u : State} {m : ModuleId}
  {calls fuel turns : Nat} {p : Position} {ev : Evaluators} {part : Part} {α β : Type}

theorem bind_eq_ok {a : Eval α} {f : α → Eval β} {y : β} (run : (a >>= f) s = (.ok y, u)) :
    ∃ x t, a s = (.ok x, t) ∧ f x t = (.ok y, u) := by
  rcases first : a s with ⟨stop | x, t⟩
  · cases (bind_error first).symm.trans run
  · exact ⟨x, t, rfl, (bind_ok first).symm.trans run⟩

theorem located_eq_ok {a : Eval α} {x : α} (run : located m p a s = (.ok x, u)) : a s = (.ok x, u) := by
  rcases first : a s with ⟨stop | y, t⟩
  · cases (located_error first).symm.trans run
  · exact (located_ok first).symm.trans run

/-- What is left of an import statement when its module is there. -/
def bindModule (ctx : Context) (name : String) (m : ModuleId) : Eval Flow := do
  let shown := ((← get).registry.module m).name
  setObj ctx.module (Path.base name) (← alloc (.module m shown))
  return .done

theorem stmt_importModule (ev : Evaluators) (cfg : Config) (turns : Nat) (ctx : Context) (p : Position)
    (name : String) : Eval.stmt ev cfg turns ctx (.importModule p name) =
      located ctx.module p (importModule ev cfg ctx name >>= bindModule ctx name) := by
  rw [Eval.stmt]
  dsimp only [Stmt.position, importStatement, bindModule]
  simp only [bind_assoc]
  rfl

/-- An import statement that runs the top level of a module which was just registered. -/
def loading (cfg : Config) (ctx : Context) (p : Position) (name : String) (id : ModuleId)
    (program : Program) (ev : Evaluators) : Eval Flow :=
  located ctx.module p (runTopLevel ev cfg ⟨id, ctx.calls⟩ program.statements >>= fun _ => do
    checkEnding id program.ending
    bindModule ctx name id)

theorem Built.bindModule (ctx : Context) (name : String) (m : ModuleId) :
    Built hostKeys fun _ => bindModule ctx name m :=
  Built.get_bind fun _ => (Built.alloc _).bind fun b => (Built.setObj _ _ b).bind fun _ => .pure _

theorem Built.loading (cfg : Config) (ctx : Context) (p : Position) (name : String) (id : ModuleId)
    (program : Program) : Built hostKeys (loading cfg ctx p name id program) := by
  refine ((Built.runTopLevel _).bind fun _ => ?_).located _ _
  exact (Built.checkEnding id _).bind fun _ => .bindModule ctx name id

theorem content_moduleOfFile (path content : String) :
    (moduleOfFile path content).content = content := by
  rw [moduleOfFile]
  generalize Path.split (Path.normalize path) = parts
  rfl

theorem scope_moduleOfFile (path content : String) : (moduleOfFile path content).scope = .empty := by
  rw [moduleOfFile]
  generalize Path.split (Path.normalize path) = parts
  rfl

theorem exists_begun (cfg : Config) (M : Module) (s : State) :
    ∃ lines, begun cfg M s = { s.load M with output := lines } := by
  unfold begun
  split
  · exact ⟨_, rfl⟩
  · exact ⟨s.output, rfl⟩

theorem find?_begun (cfg : Config) (M : Module) (s : State) :
    (begun cfg M s).registry.find? M.key = some s.registry.next := by
  obtain ⟨lines, begins⟩ := exists_begun cfg M s
  rw [begins, State.load, Registry.find?_load, if_pos rfl]

theorem runLoaded_eq (ev : Evaluators) (cfg : Config) (calls : Nat) (M : Module) (s : State) :
    runLoaded ev cfg calls M s.registry.next (s.load M) =
      (do
        runTopLevel ev cfg ⟨s.registry.next, calls⟩ (Program.ofText M.content).statements
        checkEnding s.registry.next (Program.ofText M.content).ending
        return s.registry.next) (begun cfg M s) :=
  bind_ok (trace_apply cfg 1 (return "load module " ++ M.key) rfl)

namespace LoadsFile

variable (loads : LoadsFile cfg ctx name s key file content)
include loads

theorem importModule_eq (ev : Evaluators) : importModule ev cfg ctx name s =
    (do
      runTopLevel ev cfg ⟨s.registry.next, ctx.calls⟩ (Program.ofText content).statements
      checkEnding s.registry.next (Program.ofText content).ending
      return s.registry.next) (begun cfg (moduleOfFile file content) s) := by
  rw [importModule_of_findFile loads.found,
    loadFile_of_readable (loads.isKey ▸ loads.fresh) loads.isRead, runLoaded_eq, content_moduleOfFile]

/-- An import statement that loads a file registers its module and then runs it. -/
theorem stmt_eq (ev : Evaluators) (turns : Nat) (p : Position) :
    Eval.stmt ev cfg turns ctx (.importModule p name) s =
      loading cfg ctx p name s.registry.next (Program.ofText content) ev
        (begun cfg (moduleOfFile file content) s) := by
  rw [stmt_importModule]
  apply located_congr
  rw [bind_congr (loads.importModule_eq ev)]
  simp only [bind_assoc, pure_bind]

theorem registered_begun :
    (begun cfg (moduleOfFile file content) s).registry.find? key = some s.registry.next := by
  rw [← loads.isKey, ← key_moduleOfFile file content]
  exact find?_begun cfg _ s

/-- When the import has ended, whatever came of it, its module is registered. -/
theorem registered_after (keep : (evaluators cfg fuel).Keeps key) :
    ((Part.stmt ctx (.importModule p name)).after (evaluators cfg (fuel + 1)) s).registry.find? key ≠
      none := by
  rw [Part.after_stmt, loads.stmt_eq]
  exact (Built.loading cfg ctx p name _ _).keeps keep (loads.registered_begun ▸ nofun)

/-- It is registered wherever the import comes to a statement of the module. -/
theorem registered_asked (keep : ev.Keeps key)
    (asks : Asks (fun ev => Eval.stmt ev cfg turns ctx (.importModule p name)) ev s part t) :
    t.registry.find? key ≠ none :=
  (Built.loading cfg ctx p name _ _).registered_asked keep (loads.registered_begun ▸ nofun)
    (asks.congr fun ev => (loads.stmt_eq ev turns p).symm)

/-- The parts of an import that loads a file are the statements that a run through the top level of its
module starts. -/
theorem asks_iff {starts : List (Stmt × State)} {result : Except Stop Unit}
    (top : TopLevel ev cfg ⟨s.registry.next, ctx.calls⟩ (begun cfg (moduleOfFile file content) s)
      (Program.ofText content).statements starts result u) :
    Asks (fun ev => Eval.stmt ev cfg turns ctx (.importModule p name)) ev s part t ↔
      ∃ code, part = .stmt ⟨s.registry.next, ctx.calls⟩ code ∧ (code, t) ∈ starts := by
  constructor
  · intro asks
    have inner := asks.congr fun ev => (loads.stmt_eq ev turns p).symm
    obtain runs | ⟨_, _, -, ends⟩ := inner.of_located.of_bind
    · exact top.mem_of_asks runs
    · exact absurd ends not_asks_own
  · rintro ⟨code, rfl, member⟩
    exact (((top.stopsAt member).bind.located _ _).congr fun ev => loads.stmt_eq ev turns p).asks

/-- An import statement that ends by itself has run the module it loads as a whole. -/
theorem runsWhole (completes : (Part.stmt ctx (.importModule p name)).Completes (evaluators cfg (fuel + 1)) s) :
    RunsWhole cfg fuel ctx.calls s file content := by
  obtain ⟨flow, t, run⟩ := Part.completes_stmt.1 completes
  rw [loads.stmt_eq] at run
  obtain ⟨⟨⟩, u, ran, rest⟩ := bind_eq_ok (located_eq_ok run)
  obtain ⟨⟨⟩, v, checked, -⟩ := bind_eq_ok rest
  obtain ⟨starts, top⟩ := runTopLevel_iff.1 ran
  refine ⟨⟨starts, u, top, top.starts_eq⟩, ?_⟩
  cases ends : (Program.ofText content).ending with
  | complete place => exact ⟨place, rfl⟩
  | failed failure =>
    rw [ends] at checked
    cases checked

end LoadsFile

/-- An import loads a file, or it has no parts. -/
theorem loadsFile_or_own (cfg : Config) (ctx : Context) (name : String) (s : State) :
    (∃ key file content, LoadsFile cfg ctx name s key file content) ∨
      ∃ a : Eval ModuleId, Built Built.hostKeys (fun _ => a) ∧
        ∀ ev, importModule ev cfg ctx name s = a s := by
  cases isFile : findFile cfg.files name
    [(s.registry.module ctx.module).directory, cfg.standardDirectory] with
  | none =>
    refine .inr ⟨loadHost cfg name, .loadHost name, fun ev => ?_⟩
    rw [importModule, bind_ok (run_get s)]
    simp only [isFile]
  | some file =>
    have loads (ev : Evaluators) := importModule_of_findFile isFile ev
    cases known : s.registry.find? (keyOfFile file) with
    | some m =>
      have answered : ∃ lines, ∀ ev,
          loadFile ev cfg ctx.calls file s = (.ok m, { s with output := lines }) :=
        loadFile_of_registered known
      obtain ⟨lines, loaded⟩ := answered
      exact .inr ⟨fun t => (.ok m, { t with output := lines }), .kept fun _ => rfl,
        fun ev => (loads ev).trans (loaded ev)⟩
    | none =>
      cases isRead : cfg.files.read file with
      | error failure =>
        exact .inr ⟨raise (.moduleUnreadable file failure), .raise _,
          fun ev => (loads ev).trans (loadFile_of_unreadable known isRead ev)⟩
      | ok content => exact .inl ⟨keyOfFile file, file, content, isFile, rfl, isRead, known⟩

theorem find?_begun_of_ne {M : Module} (other : key ≠ M.key) :
    (begun cfg M s).registry.find? key = s.registry.find? key := by
  obtain ⟨lines, begins⟩ := exists_begun cfg M s
  rw [begins, State.load, Registry.find?_load, if_neg other]

/-- A statement does what is built from parts, behind the registration of the module of a file when it
imports one. -/
theorem exists_built_stmt (cfg : Config) (turns : Nat) (ctx : Context) (code : Stmt) (s : State) :
    ∃ (a : Evaluators → Eval Flow) (s' : State), Built Built.hostKeys a ∧
      (∀ ev, Eval.stmt ev cfg turns ctx code s = a ev s') ∧
      (∀ key, s.registry.find? key ≠ none → s'.registry.find? key ≠ none) ∧
      ∀ key, s.registry.find? key = none → s'.registry.find? key ≠ none → ∃ p name file content,
        code = .importModule p name ∧ LoadsFile cfg ctx name s key file content := by
  by_cases plain : ∀ p name, code ≠ .importModule p name
  · exact ⟨_, s, .statement plain cfg turns ctx, fun _ => rfl, fun _ there => there,
      fun _ fresh there => absurd fresh there⟩
  · simp only [not_forall, not_not] at plain
    obtain ⟨p, name, rfl⟩ := plain
    obtain ⟨key', file, content, loads⟩ | ⟨a, built, same⟩ := loadsFile_or_own cfg ctx name s
    · have isKey : (moduleOfFile file content).key = key' := (key_moduleOfFile _ _).trans loads.isKey
      refine ⟨_, _, .loading cfg ctx p name s.registry.next (Program.ofText content),
        fun ev => loads.stmt_eq ev turns p, fun key there => ?_, fun key fresh there => ?_⟩
      · by_cases same : key' = key
        · exact same ▸ loads.registered_begun ▸ nofun
        · rwa [find?_begun_of_ne fun other => same (isKey.symm.trans other.symm)]
      · by_cases same : key' = key
        · exact ⟨p, name, file, content, rfl, same ▸ loads⟩
        · rw [find?_begun_of_ne fun other => same (isKey.symm.trans other.symm)] at there
          exact absurd fresh there
    · refine ⟨fun _ => located ctx.module p (a >>= bindModule ctx name), s, ?_, fun ev => ?_,
        fun _ there => there, fun _ fresh there => absurd fresh there⟩
      · exact (built.bind fun m => .bindModule ctx name m).located _ _
      · rw [stmt_importModule]
        exact located_congr (bind_congr (same ev))

/-- Whatever is evaluated, nothing is taken from the registry. -/
theorem evaluators_keep (cfg : Config) (fuel : Nat) (key : String) : (evaluators cfg fuel).Keeps key := by
  induction fuel with
  | zero =>
    intro part s registered
    rwa [Part.after_zero]
  | succ fuel ih =>
    intro part s registered
    cases part with
    | expr ctx e =>
      have built : Built [] fun ev => Eval.expr ev cfg ctx e := .expression cfg ctx e
      rw [Part.after_expr]
      exact built.keeps ih registered
    | stmt ctx code =>
      obtain ⟨a, s', built, same, kept, -⟩ := exists_built_stmt cfg fuel ctx code s
      rw [Part.after_stmt, same]
      exact built.keeps ih (kept key registered)

end

/-! ## Parts at any depth -/

/-- While one part is evaluated, with some fuel and from some state, another one is. -/
inductive Inside (cfg : Config) : Nat → Part → State → Nat → Part → State → Prop
  | here (fuel : Nat) (part : Part) (s : State) : Inside cfg fuel part s fuel part s
  | expr {fuel n : Nat} {ctx : Context} {e : Expr} {part part' : Part} {s t u : State} :
    Asks (fun ev => Eval.expr ev cfg ctx e) (evaluators cfg fuel) s part t →
    Inside cfg fuel part t n part' u → Inside cfg (fuel + 1) (.expr ctx e) s n part' u
  | stmt {fuel n : Nat} {ctx : Context} {code : Stmt} {part part' : Part} {s t u : State} :
    Asks (fun ev => Eval.stmt ev cfg fuel ctx code) (evaluators cfg fuel) s part t →
    Inside cfg fuel part t n part' u → Inside cfg (fuel + 1) (.stmt ctx code) s n part' u

/-- While a part is evaluated, an import loads the module with a key.  It runs as a whole, unless the
part does not end by itself. -/
def LoadedInside (cfg : Config) (fuel : Nat) (part : Part) (s : State) (key : String) : Prop :=
  ∃ n ctx p name t file content,
    Inside cfg fuel part s (n + 1) (.stmt ctx (.importModule p name)) t ∧
    LoadsFile cfg ctx name t key file content ∧
    (part.Completes (evaluators cfg fuel) s → RunsWhole cfg n ctx.calls t file content)

section

variable {cfg : Config} {ctx ctx' : Context} {name name' key file file' content content' : String}
  {s u u' : State} {fuel n n' : Nat} {p p' : Position} {part part' : Part}

namespace Inside

/-- What is registered before a part is registered at every part inside. -/
theorem registered (inside : Inside cfg fuel part s n part' u) (there : s.registry.find? key ≠ none) :
    u.registry.find? key ≠ none := by
  induction inside with
  | here => exact there
  | @expr fuel _ ctx e _ _ _ _ _ asks _ ih =>
    have built : Built [] fun ev => Eval.expr ev cfg ctx e := .expression cfg ctx e
    exact ih (built.registered_asked (evaluators_keep cfg fuel key) there asks)
  | @stmt fuel _ ctx code _ _ s _ _ asks _ ih =>
    obtain ⟨a, s', built, same, kept, -⟩ := exists_built_stmt cfg fuel ctx code s
    exact ih (built.registered_asked (evaluators_keep cfg fuel key) (kept key there)
      (asks.congr fun ev => (same ev).symm))

/-- What a part inside has registered is registered when the part around it has ended. -/
theorem registered_after (inside : Inside cfg fuel part s n part' u)
    (there : (part'.after (evaluators cfg n) u).registry.find? key ≠ none) :
    (part.after (evaluators cfg fuel) s).registry.find? key ≠ none := by
  induction inside with
  | here => exact there
  | @expr fuel _ ctx e _ _ _ _ _ asks _ ih =>
    have built : Built [] fun ev => Eval.expr ev cfg ctx e := .expression cfg ctx e
    rw [Part.after_expr]
    exact built.registered_after (evaluators_keep cfg fuel key) asks (ih there)
  | @stmt fuel _ ctx code _ _ s _ _ asks _ ih =>
    obtain ⟨a, s', built, same, -, -⟩ := exists_built_stmt cfg fuel ctx code s
    rw [Part.after_stmt, same]
    exact built.registered_after (evaluators_keep cfg fuel key) (asks.congr fun ev => (same ev).symm)
      (ih there)

/-- The part around an import that loads a module registers it. -/
theorem registers (inside : Inside cfg fuel part s (n + 1) (.stmt ctx (.importModule p name)) u)
    (loads : LoadsFile cfg ctx name u key file content) : s.registry.find? key = none ∧
      (part.after (evaluators cfg fuel) s).registry.find? key ≠ none := by
  refine ⟨?_, inside.registered_after (loads.registered_after (evaluators_keep cfg n key))⟩
  by_contra there
  exact inside.registered there loads.fresh

/-- Inside an import that loads a module, no other one loads it. -/
theorem not_loads_again (loads : LoadsFile cfg ctx name s key file content)
    (inside : Inside cfg (fuel + 1) (.stmt ctx (.importModule p name)) s (n + 1)
      (.stmt ctx' (.importModule p' name')) u)
    (loads' : LoadsFile cfg ctx' name' u key file' content') :
    fuel = n ∧ ctx = ctx' ∧ p = p' ∧ name = name' ∧ s = u := by
  cases inside with
  | here => exact ⟨rfl, rfl, rfl, rfl, rfl⟩
  | stmt asks inner =>
    have there := loads.registered_asked (evaluators_keep cfg fuel key) asks
    exact absurd loads'.fresh (inner.registered there)

/-- At most one import inside a part loads the module with a key. -/
theorem unique (inside : Inside cfg fuel part s (n + 1) (.stmt ctx (.importModule p name)) u)
    (loads : LoadsFile cfg ctx name u key file content)
    (inside' : Inside cfg fuel part s (n' + 1) (.stmt ctx' (.importModule p' name')) u')
    (loads' : LoadsFile cfg ctx' name' u' key file' content') :
    n = n' ∧ ctx = ctx' ∧ p = p' ∧ name = name' ∧ u = u' := by
  generalize ending : n + 1 = m at inside
  generalize isImport : Part.stmt ctx (.importModule p name) = last at inside
  induction inside with
  | here =>
    subst ending isImport
    exact not_loads_again loads inside' loads'
  | @expr fuel _ outer e part _ s t _ asks inner ih =>
    subst ending isImport
    cases inside' with
    | expr asks' inner' =>
      have built : Built [] fun ev => Eval.expr ev cfg outer e := .expression cfg outer e
      obtain ⟨fresh, there⟩ := inner.registers loads
      obtain ⟨fresh', there'⟩ := inner'.registers loads'
      obtain ⟨rfl, rfl⟩ :=
        built.asked_unique (evaluators_keep cfg fuel key) asks fresh there asks' fresh' there'
      exact ih loads inner' rfl rfl
  | @stmt fuel _ outer code part _ s t _ asks inner ih =>
    subst ending isImport
    cases inside' with
    | here =>
      obtain ⟨rfl, rfl, rfl, rfl, rfl⟩ := not_loads_again loads' (.stmt asks inner) loads
      exact ⟨rfl, rfl, rfl, rfl, rfl⟩
    | stmt asks' inner' =>
      obtain ⟨a, s', built, same, -, -⟩ := exists_built_stmt cfg fuel outer code s
      obtain ⟨fresh, there⟩ := inner.registers loads
      obtain ⟨fresh', there'⟩ := inner'.registers loads'
      obtain ⟨rfl, rfl⟩ := built.asked_unique (evaluators_keep cfg fuel key)
        (asks.congr fun ev => (same ev).symm) fresh there
        (asks'.congr fun ev => (same ev).symm) fresh' there'
      exact ih loads inner' rfl rfl

end Inside

/-- A module from a file that gets registered while a part is evaluated is loaded by an import inside. -/
theorem loadedInside (foreign : key ∉ Built.hostKeys) {part : Part} (fresh : s.registry.find? key = none)
    (registered : (part.after (evaluators cfg fuel) s).registry.find? key ≠ none) :
    LoadedInside cfg fuel part s key := by
  induction fuel generalizing part s with
  | zero =>
    rw [Part.after_zero] at registered
    exact absurd fresh registered
  | succ fuel ih =>
    cases part with
    | expr ctx e =>
      rw [Part.after_expr] at registered
      have built : Built [] fun ev => Eval.expr ev cfg ctx e := .expression cfg ctx e
      obtain ⟨part, u, stops, before, behind⟩ := built.exists_asked List.not_mem_nil fresh registered
      obtain ⟨n, ctx', p, name, v, file, content, inside, loads, whole⟩ := ih before behind
      refine ⟨n, ctx', p, name, v, file, content, .expr stops.asks inside, loads, fun completes => ?_⟩
      obtain ⟨b, t, run⟩ := Part.completes_expr.1 completes
      exact whole (built.completes_of_asks run stops.asks)
    | stmt ctx code =>
      rw [Part.after_stmt] at registered
      obtain ⟨a, s', built, same, -, only⟩ := exists_built_stmt cfg fuel ctx code s
      by_cases fresh' : s'.registry.find? key = none
      · rw [same] at registered
        obtain ⟨part, u, stops, before, behind⟩ := built.exists_asked foreign fresh' registered
        obtain ⟨n, ctx', p, name, v, file, content, inside, loads, whole⟩ := ih before behind
        have asks := (stops.congr same).asks
        refine ⟨n, ctx', p, name, v, file, content, .stmt asks inside, loads, fun completes => ?_⟩
        obtain ⟨flow, t, run⟩ := Part.completes_stmt.1 completes
        rw [same] at run
        exact whole (built.completes_of_asks run stops.asks)
      · obtain ⟨p, name, file, content, rfl, loads⟩ := only key fresh fresh'
        exact ⟨fuel, ctx, p, name, s, file, content, .here _ _ _, loads, loads.runsWhole⟩

end

end Shiba

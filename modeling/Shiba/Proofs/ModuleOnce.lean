import Shiba.Proofs.Passes

/-!
# A module runs once

A module file is registered under its key, the normal form of its path without the ending, before
its first statement runs.  An import that finds the key of its file registered answers the module
that is there and runs nothing.  No entry of the registry is ever replaced.  So however imports are
repeated, nested and spelled, the top-level statements of a module are started once at most, and all imports
of one file answer one module.

* `StartsIn` tells the statements that an import of the file with a key hands over while a top-level
  statement of the main module is evaluated.  In the course of a whole run they are an initial part of the
  statements of the file, each of them started once (`Passes.exists_starts`).
* `Later` goes from one state of a run to a later one.  It can go through a construct part by part, at any
  depth, so any two events of a run are related by it.  `Later.kept` says that the registry is.
-/

namespace Shiba

open Eval

/-! ## The registry is kept -/

/-- What is registered in one state is registered in another, under the same key. -/
def State.Keeps (s t : State) : Prop :=
  ∀ key m, s.registry.find? key = some m → t.registry.find? key = some m

theorem State.Keeps.refl (s : State) : s.Keeps s := fun _ _ found => found

theorem State.Keeps.trans {s t u : State} (first : s.Keeps t) (second : t.Keeps u) : s.Keeps u :=
  fun key m found => second key m (first key m found)

/-- The discipline of the registry: that of scopes, and what was registered at some point still is. -/
def Discipline.keeping (base : State) : Discipline :=
  .lasting base.Keeps fun grew kept => kept.trans grew.found

theorem Discipline.keeping_upholds (base : State) :
    (Discipline.keeping base).Upholds fun s => s.WellFormed ∧ base.Keeps s :=
  .lasting fun grew kept => kept.trans grew.found

/-! ## Where an import leads -/

/-- An import in `s` has led to `t`: it has ended there, or it hands `t` to the evaluators of the
statements it runs. -/
def ImportLeads (cfg : Config) (fuel : Nat) (ctx : Context) (name : String) (s t : State) : Prop :=
  t = (importModule (evaluators cfg fuel) cfg ctx name s).2 ∨
    Visits (fun ev => importModule ev cfg ctx name) (evaluators cfg fuel) s t

section

variable {cfg : Config} {ctx : Context} {name path : String} {s t : State} {m : ModuleId}

/-- While a module that was just registered is run, and when it has been, it stays registered; and it
is what the import answers. -/
theorem runLoaded_leads {M : Module} (wf : s.WellFormed) (empty : M.scope = .empty) (cfg : Config)
    (fuel calls : Nat) :
    (∀ m, (runLoaded (evaluators cfg fuel) cfg calls M s.registry.next (s.load M)).1 = .ok m →
      m = s.registry.next) ∧
    ∀ t, t = (runLoaded (evaluators cfg fuel) cfg calls M s.registry.next (s.load M)).2 ∨
        Visits (fun ev => runLoaded ev cfg calls M s.registry.next) (evaluators cfg fuel) (s.load M) t →
      t.WellFormed ∧ (s.load M).Keeps t := by
  have up := Discipline.keeping_upholds (s.load M)
  obtain ⟨w, opened, begun⟩ :=
    up.beginsFor ⟨wf.register empty, .refl _⟩ (State.hasModule_load s M)
  have ends : ∀ {ev'}, (Discipline.keeping (s.load M)).Contract (evaluators cfg fuel) ev' →
      (Discipline.keeping (s.load M)).Agree w (s.load M) (s.load M)
        (runLoaded (evaluators cfg fuel) cfg calls M s.registry.next)
        (runLoaded ev' cfg calls M s.registry.next) _ :=
    fun contract => Discipline.Agree.runLoaded contract begun opened calls M
  have machine := ends (Discipline.contract _ cfg fuel)
  refine ⟨?_, ?_⟩
  · intro m answered
    obtain ⟨result, t₁, t₂, run, -, -, after⟩ := machine
    rw [run] at answered
    cases answered
    exact after.2.1
  · rintro t (rfl | visited)
    · exact (up.of_agree machine fun _ _ _ after => ⟨0, after.1⟩).1
    · exact up.visited ends (fun _ _ _ after => ⟨0, after.1⟩) visited

/-- An import of a file fails because the file cannot be read, or it answers one module, if any, which is
registered wherever the import leads. -/
theorem exists_imported (wf : s.WellFormed) (found : importedPath? cfg ctx name s = some path) :
    (∃ file failure, cfg.files.read file = .error failure ∧ ∀ ev, importModule ev cfg ctx name s =
      (.error (.ofCause (.moduleUnreadable file failure)), s)) ∨
    ∃ m, ∀ fuel,
      (∀ m', (importModule (evaluators cfg fuel) cfg ctx name s).1 = .ok m' → m' = m) ∧
      ∀ t, ImportLeads cfg fuel ctx name s t →
        t.WellFormed ∧ t.registry.find? (Path.dropExtension path) = some m := by
  cases registered : s.registry.find? (Path.dropExtension path) with
  | some m =>
    obtain ⟨lines, ends⟩ := importModule_of_registered found registered
    refine .inr ⟨m, fun fuel => ⟨?_, ?_⟩⟩
    · intro m' answered
      rw [ends] at answered
      cases answered
      rfl
    · rintro t (rfl | ⟨ev', -, differ⟩)
      · rw [ends]
        exact ⟨wf.write lines, registered⟩
      · exact absurd ((ends ev').trans (ends _).symm) differ
  | none =>
    obtain unreadable | ⟨file, content, -, key, ends⟩ := importModule_of_unregistered found registered
    · exact .inl unreadable
    · refine .inr ⟨s.registry.next, fun fuel => ?_⟩
      obtain ⟨answers, leads⟩ := runLoaded_leads wf (scope_moduleOfFile file content) cfg fuel ctx.calls
      have here : (s.load (moduleOfFile file content)).registry.find? (Path.dropExtension path) =
          some s.registry.next := by
        rw [State.load, Registry.find?_load, if_pos key.symm]
      simp only [ImportLeads, Visits, ends]
      exact ⟨answers, fun t led => (leads t led).imp_right fun kept => kept _ _ here⟩

end

/-! ## Later states -/

/-- A step of a run: a construct is evaluated as a whole, or it hands a state to the evaluators of its parts,
or it changes the state itself before, between and behind its parts, where anything may change but what is
registered. -/
inductive RunStep (cfg : Config) (s : State) : State → Prop where
  | change {t : State} : t.registry.keys = s.registry.keys → t.WellFormed → RunStep cfg s t
  | exprEnd (fuel : Nat) {ctx : Context} (e : Expr) : s.HasModule ctx.module →
    RunStep cfg s (evalExpr cfg fuel ctx e s).2
  | stmtEnd (fuel : Nat) {ctx : Context} (stmt : Stmt) : s.HasModule ctx.module →
    RunStep cfg s (evalStmt cfg fuel ctx stmt s).2
  | exprPart {t : State} {fuel : Nat} {ctx : Context} {e : Expr} : s.HasModule ctx.module →
    Visits (fun ev => Eval.expr ev cfg ctx e) (evaluators cfg fuel) s t → RunStep cfg s t
  | stmtPart {t : State} {fuel turns : Nat} {ctx : Context} {stmt : Stmt} : s.HasModule ctx.module →
    Visits (fun ev => Eval.stmt ev cfg turns ctx stmt) (evaluators cfg fuel) s t → RunStep cfg s t

/-- A run goes on from one state to another. -/
inductive Later (cfg : Config) (s : State) : State → Prop where
  | here : Later cfg s s
  | step {t u : State} : Later cfg s t → RunStep cfg t u → Later cfg s u

section

variable {cfg : Config} {m : ModuleId} {s t : State} {past : List (Stmt × State)}

theorem RunStep.kept (wf : s.WellFormed) (step : RunStep cfg s t) : t.WellFormed ∧ s.Keeps t := by
  have up := Discipline.keeping_upholds s
  have now : s.WellFormed ∧ s.Keeps s := ⟨wf, .refl s⟩
  cases step with
  | change same wf' =>
    refine ⟨wf', fun key m found => ?_⟩
    rw [Registry.find?, same]
    exact found
  | exprEnd fuel e here => exact up.exprEnd now here fuel e
  | stmtEnd fuel stmt here => exact up.stmtEnd now here fuel stmt
  | exprPart here visited => exact up.exprPart now here visited
  | stmtPart here visited => exact up.stmtPart now here visited

/-- What is registered stays registered. -/
theorem Later.kept (wf : s.WellFormed) (later : Later cfg s t) : t.WellFormed ∧ s.Keeps t := by
  induction later with
  | here => exact ⟨wf, .refl s⟩
  | step _ next ih =>
    obtain ⟨wf', kept⟩ := next.kept ih.1
    exact ⟨wf', ih.2.trans kept⟩

theorem Later.lasting (wf : s.WellFormed) :
    Lasting cfg m fun t => Later cfg s t ∧ t.HasModule m where
  output lines holds :=
    ⟨holds.1.step (.change rfl ((holds.1.kept wf).1.write lines)), holds.2⟩
  stmtEnd fuel calls stmt holds :=
    ⟨holds.1.step (.stmtEnd fuel stmt holds.2),
      (holds.1.kept wf).1.hasModule_evalStmt holds.2 fuel calls stmt holds.2⟩

theorem Passes.later (passes : Passes cfg m s past t) (wf : s.WellFormed) (here : s.HasModule m) :
    Later cfg s t ∧ t.HasModule m :=
  passes.lasts (Later.lasting wf) ⟨.here, here⟩

/-- What is registered stays registered, from one top-level statement to another. -/
theorem Passes.kept (passes : Passes cfg m s past t) (wf : s.WellFormed) (here : s.HasModule m) :
    (t.WellFormed ∧ t.HasModule m) ∧ s.Keeps t := by
  obtain ⟨later, there⟩ := passes.later wf here
  obtain ⟨wf', kept⟩ := later.kept wf
  exact ⟨⟨wf', there⟩, kept⟩

end

/-! ## Starts of statements -/

/-- While a top-level statement of the main module is evaluated in a state, an import of the file with a key
hands a statement over to the evaluators, in the state that is told with it. -/
def StartsIn (cfg : Config) (m : ModuleId) (e : Stmt × State) (key : String) (start : Stmt × State) : Prop :=
  ∃ n ctx p name v path ctx',
    Inside cfg cfg.fuel (.stmt ⟨m, cfg.callLimit⟩ e.1) e.2 (n + 1) (.stmt ctx (.importModule p name)) v ∧
    importedPath? cfg ctx name v = some path ∧ Path.dropExtension path = key ∧
    Asks (fun ev => Eval.stmt ev cfg n ctx (.importModule p name)) (evaluators cfg n) v
      (.stmt ctx' start.1) start.2

section

variable {cfg : Config} {m : ModuleId} {s t : State} {past : List (Stmt × State)} {key : String}
  {e start : Stmt × State}

/-- An import that hands a statement over loads a file. -/
theorem LoadsFile.of_asks {ctx : Context} {name path : String} {turns : Nat} {p : Position}
    {ev : Evaluators} {part : Part} (found : importedPath? cfg ctx name s = some path)
    (asks : Asks (fun ev => Eval.stmt ev cfg turns ctx (.importModule p name)) ev s part t) :
    ∃ file content, LoadsFile cfg ctx name s (Path.dropExtension path) file content := by
  obtain ⟨key, file, content, loads⟩ | ⟨a, -, same⟩ := loadsFile_or_own cfg ctx name s
  · have isKey : key = Path.dropExtension path := by
      rw [importedPath?, loads.found] at found
      cases found
      rw [← loads.isKey, keyOfFile_eq (hasExtension_of_findFile loads.found)]
    exact ⟨file, content, isKey ▸ loads⟩
  · have own : ∀ ev, Eval.stmt ev cfg turns ctx (.importModule p name) s =
        located ctx.module p (a >>= bindModule ctx name) s := by
      intro ev
      rw [stmt_importModule]
      exact located_congr (bind_congr (same ev))
    exact absurd (asks.congr fun ev => (own ev).symm) not_asks_own

/-- The statements that an import of a file hands over, if any import does, are those that a run through the
top level of the file starts. -/
theorem exists_topLevel_of_startsIn (starts : StartsIn cfg m e key start) :
    ∃ n ctx p name v file content list result u,
      Inside cfg cfg.fuel (.main cfg m e.1) e.2 (n + 1) (.stmt ctx (.importModule p name)) v ∧
      LoadsFile cfg ctx name v key file content ∧
      TopLevel (evaluators cfg n) cfg ⟨v.registry.next, ctx.calls⟩
        (begun cfg (moduleOfFile file content) v) (Program.ofText content).statements list result u ∧
      start ∈ list := by
  obtain ⟨n, ctx, p, name, v, path, ctx', inside, found, rfl, asks⟩ := starts
  obtain ⟨file, content, loads⟩ := LoadsFile.of_asks found asks
  obtain ⟨list, result, u, top⟩ := exists_topLevel (evaluators cfg n) cfg ⟨v.registry.next, ctx.calls⟩
    (begun cfg (moduleOfFile file content) v) (Program.ofText content).statements
  refine ⟨n, ctx, p, name, v, file, content, list, result, u, inside, loads, top, ?_⟩
  obtain ⟨code, same, member⟩ := (loads.asks_iff top).1 asks
  cases same
  exact member

theorem startsIn_of_mem {n : Nat} {ctx : Context} {p : Position} {name file content : String} {v u : State}
    {list : List (Stmt × State)} {result : Except Stop Unit}
    (inside : Inside cfg cfg.fuel (.main cfg m e.1) e.2 (n + 1) (.stmt ctx (.importModule p name)) v)
    (loads : LoadsFile cfg ctx name v key file content)
    (top : TopLevel (evaluators cfg n) cfg ⟨v.registry.next, ctx.calls⟩
      (begun cfg (moduleOfFile file content) v) (Program.ofText content).statements list result u)
    (member : start ∈ list) : StartsIn cfg m e key start := by
  have found : importedPath? cfg ctx name v = some (Path.normalize file) := by
    rw [importedPath?, loads.found]
    rfl
  refine ⟨n, ctx, p, name, v, Path.normalize file, ⟨v.registry.next, ctx.calls⟩, inside, found, ?_, ?_⟩
  · rw [← loads.isKey, keyOfFile_eq (hasExtension_of_findFile loads.found)]
  · exact (loads.asks_iff top).2 ⟨start.1, rfl, member⟩

/-- No file has the key of a module that no file holds. -/
theorem LoadsFile.foreign {ctx : Context} {name file content : String}
    (loads : LoadsFile cfg ctx name s key file content) : key ∉ Built.hostKeys := by
  rw [← loads.isKey]
  intro member
  exact keyOfFile_ne_host (hasExtension_of_findFile loads.found) (List.mem_singleton.1 member)

/-- In the course of a run, imports of the file with a key start statements when they register the key, and
then the statements that they start are those of one run through the top level of the file. -/
theorem Passes.exists_starts (passes : Passes cfg m s past t) (key : String) :
    ∃ starts : List (Stmt × State),
      (∀ start, start ∈ starts ↔ ∃ e ∈ past, StartsIn cfg m e key start) ∧
      (starts ≠ [] → s.registry.find? key = none ∧ t.registry.find? key ≠ none ∧ key ∉ Built.hostKeys) ∧
      (s.registry.find? key = none → t.registry.find? key ≠ none → key ∉ Built.hostKeys →
        ∃ file content n ctx v result u, keyOfFile file = key ∧ cfg.files.read file = .ok content ∧
          TopLevel (evaluators cfg n) cfg ctx v (Program.ofText content).statements starts result u) := by
  by_cases loaded : ∃ e ∈ past, ∃ n ctx p name v file content,
      Inside cfg cfg.fuel (.main cfg m e.1) e.2 (n + 1) (.stmt ctx (.importModule p name)) v ∧
        LoadsFile cfg ctx name v key file content
  · obtain ⟨e, member, n, ctx, p, name, v, file, content, inside, loads⟩ := loaded
    obtain ⟨starts, result, u, top⟩ := exists_topLevel (evaluators cfg n) cfg
      ⟨v.registry.next, ctx.calls⟩ (begun cfg (moduleOfFile file content) v)
      (Program.ofText content).statements
    obtain ⟨fresh, there⟩ := inside.registers loads
    refine ⟨starts, fun start => ⟨fun listed => ⟨e, member, startsIn_of_mem inside loads top listed⟩, ?_⟩,
      fun _ => ⟨?_, passes.registered_after member there, loads.foreign⟩,
      fun _ _ _ => ⟨file, content, n, _, _, result, u, loads.isKey, loads.isRead, top⟩⟩
    · rintro ⟨e', member', starts'⟩
      obtain ⟨n', ctx', p', name', v', file', content', list', result', u', inside', loads', top', listed⟩ :=
        exists_topLevel_of_startsIn starts'
      obtain ⟨rfl, rfl, rfl, rfl, rfl, rfl⟩ :=
        passes.loads_unique member inside loads member' inside' loads'
      cases loads.found.symm.trans loads'.found
      cases loads.isRead.symm.trans loads'.isRead
      obtain ⟨rfl, -, -⟩ := top.unique top'
      exact listed
    · by_contra already
      exact passes.registered_before member already fresh
  · refine ⟨[], fun start => ⟨nofun, ?_⟩, fun some => absurd rfl some, fun fresh there foreign => ?_⟩
    · rintro ⟨e, member, starts⟩
      obtain ⟨n, ctx, p, name, v, file, content, -, -, -, inside, loads, -, -⟩ :=
        exists_topLevel_of_startsIn starts
      exact absurd ⟨e, member, n, ctx, p, name, v, file, content, inside, loads⟩ loaded
    · obtain ⟨e, member, fresh', there'⟩ := passes.exists_registers fresh there
      obtain ⟨n, ctx, p, name, v, file, content, inside, loads, -⟩ := loadedInside foreign fresh' there'
      exact absurd ⟨e, member, n, ctx, p, name, v, file, content, inside, loads⟩ loaded

end

/-! ## Once -/

/-- With any files to import and any imports, no top level is run twice.

Programs, sessions and prompts do nothing but evaluate statements of their main module.  A program evaluates
those of its text in order and once each, a prompt those of a text that was entered, and a session the one it
is given.  In the course of them, imports of the file with a key start its statements only when they register
the key, which is never that of the main module; and those they start are what one run through the text of the
file does, in order and once each.  What is registered under a key is never replaced.  Of two imports that find
the same path, up to its normal form, the later one answers the module of the earlier one, also while that one
is still running, unless the file cannot be read. -/
theorem top_level_begins_once {cfg : Config} {M : Module} (empty : M.scope = .empty) :
    (∃ past, Passes cfg Run.mainModule (State.initial.load M) past (Run.program cfg M .initial).2 ∧
      past.map Prod.fst <+: (Program.ofText M.content).statements) ∧
    (∀ s, Run.Session cfg M s → ∃ past, Passes cfg Run.mainModule (State.initial.load M) past s ∧
      ∀ code, Passes cfg Run.mainModule (State.initial.load M)
        (past ++ [(code, announced cfg Run.mainModule code s)]) (Run.statement cfg Run.mainModule code s).2) ∧
    (∀ directory r, M = .ofSource Repl.moduleName directory "" → Repl.Session cfg directory r →
      ∃ past, Passes cfg Run.mainModule (State.initial.load M) past r.state ∧
        ∀ text block, Program.parse (r.buffer ++ text ++ " ") = .ok block → ∃ now,
          Passes cfg Run.mainModule (State.initial.load M) (past ++ now)
            (Repl.evaluate cfg Run.mainModule block r.state).2 ∧
          now.map Prod.fst <+: block ∧
          ∀ reply r', r.step cfg (.line text) = (reply, .ok r') →
            r'.state = { (Repl.evaluate cfg Run.mainModule block r.state).2 with output := #[] }) ∧
    (∀ past t, Passes cfg Run.mainModule (State.initial.load M) past t →
      Later cfg (State.initial.load M) t ∧ ∀ key, ∃ starts : List (Stmt × State),
        (∀ start, start ∈ starts ↔ ∃ e ∈ past, StartsIn cfg Run.mainModule e key start) ∧
        (starts ≠ [] → key ≠ M.key ∧ t.registry.find? key ≠ none ∧ key ∉ Built.hostKeys) ∧
        (key ≠ M.key → t.registry.find? key ≠ none → key ∉ Built.hostKeys →
          ∃ file content n ctx v result u, keyOfFile file = key ∧ cfg.files.read file = .ok content ∧
            TopLevel (evaluators cfg n) cfg ctx v (Program.ofText content).statements starts result u ∧
            starts.map Prod.fst <+: (Program.ofText content).statements)) ∧
    (∀ s, Later cfg (State.initial.load M) s →
      (∀ key m, s.registry.find? key = some m → ∀ t, Later cfg s t → t.registry.find? key = some m) ∧
      ∀ ctx name path, importedPath? cfg ctx name s = some path →
        (∃ file failure, cfg.files.read file = .error failure ∧ ∀ ev, importModule ev cfg ctx name s =
          (.error (.ofCause (.moduleUnreadable file failure)), s)) ∨
        ∃ m, ∀ fuel,
          (∀ m', (importModule (evaluators cfg fuel) cfg ctx name s).1 = .ok m' → m' = m) ∧
          ∀ t, ImportLeads cfg fuel ctx name s t → ∀ u, Later cfg t u →
            ∀ ctx' name', importedPath? cfg ctx' name' u = some path →
              ∀ ev, (importModule ev cfg ctx' name' u).1 = .ok m) ∧
    ∀ directory path, Run.file cfg.files directory path = .ok M →
      M.key = Path.dropExtension (Path.absolute directory (Path.withExtension path)) := by
  have start := State.wellFormed_initial.register empty
  refine ⟨Run.program_passes cfg M .initial, ?_, ?_, ?_, ?_, ?_⟩
  · intro s session
    obtain ⟨past, passes⟩ := session.passes
    exact ⟨past, passes, fun code => passes.trans (Run.statement_passes cfg Run.mainModule code s)⟩
  · rintro directory r rfl session
    obtain ⟨isMain, past, passes⟩ := session.passes
    refine ⟨past, passes, fun text block parsed => ?_⟩
    obtain ⟨now, behind, inOrder⟩ := Repl.evaluate_passes cfg Run.mainModule block r.state
    refine ⟨now, passes.trans behind, inOrder, fun reply r' goes => ?_⟩
    rw [Repl.step_line, parsed] at goes
    exact isMain ▸ (Repl.eq_of_runBlock goes).2
  · intro past t passes
    refine ⟨(passes.later start (State.hasModule_load .initial M)).1, fun key => ?_⟩
    have fresh : (State.initial.load M).registry.find? key = none ↔ key ≠ M.key := by
      rw [State.load, Registry.find?_load]
      split
      · next same => exact ⟨nofun, fun other => absurd same other⟩
      · next other => exact ⟨fun _ => other, fun _ => rfl⟩
    obtain ⟨starts, started, some, all⟩ := passes.exists_starts key
    rw [fresh] at some all
    refine ⟨starts, started, some, fun other there foreign => ?_⟩
    obtain ⟨file, content, n, ctx, v, result, u, isKey, isRead, top⟩ := all other there foreign
    exact ⟨file, content, n, ctx, v, result, u, isKey, isRead, top, top.starts_prefix⟩
  · intro s reached
    have wf := (reached.kept start).1
    refine ⟨fun key m found t later => (later.kept wf).2 key m found, fun ctx name path found => ?_⟩
    obtain unreadable | ⟨m, leads⟩ := exists_imported wf found
    · exact .inl unreadable
    · refine .inr ⟨m, fun fuel => ⟨(leads fuel).1, ?_⟩⟩
      intro t led u later ctx' name' found' ev
      obtain ⟨wf', there⟩ := (leads fuel).2 t led
      have registered := (later.kept wf').2 _ m there
      obtain ⟨lines, ends⟩ := importModule_of_registered found' registered
      rw [ends]
  · exact fun directory path isRead => key_of_file isRead

/-- A program that imports a module twice, spelled in two ways, starts its one statement once. -/
theorem top_level_begins_once_import :
    let cfg := { Config.standard with
      files := FileSystem.empty.addPath "/lib/m.sb" (.file "x = 1\n") }
    let M := Module.ofSource "main" "/lib" "import m\nimport \"..//lib/./m.sb\"\n"
    ∃ (past starts : List (Stmt × State)),
      Passes cfg Run.mainModule (State.initial.load M) past (Run.program cfg M .initial).2 ∧
      (∀ start, start ∈ starts ↔ ∃ e ∈ past, StartsIn cfg Run.mainModule e "/lib/m" start) ∧
      starts.map Prod.fst = (Program.ofText "x = 1\n").statements ∧ starts.length = 1 := by
  intro cfg M
  obtain ⟨⟨past, passes, -⟩, -, -, all, -⟩ := @top_level_begins_once cfg M rfl
  have registered : (Run.program cfg M .initial).2.registry.find? "/lib/m" = some ⟨1⟩ := by
    decide +kernel
  obtain ⟨starts, started, -, whole⟩ := (all past _ passes).2 "/lib/m"
  obtain ⟨file, content, n, ctx, v, result, u, -, isRead, top, inOrder⟩ :=
    whole (by decide +kernel) (registered ▸ nofun) (by decide +kernel)
  have only : cfg.files.contents = ["x = 1\n"] := by decide +kernel
  obtain rfl := List.mem_singleton.1 (only ▸ FileSystem.mem_contents_of_read isRead)
  obtain ⟨code, one⟩ : ∃ code, (Program.ofText "x = 1\n").statements = [code] := ⟨_, rfl⟩
  have some := top.starts_ne_nil (by rw [one]; exact nofun)
  rw [one] at inOrder
  have single : starts.map Prod.fst = [code] := by
    rcases List.prefix_cons_iff.1 inOrder with none | ⟨rest, same, short⟩
    · exact absurd (List.map_eq_nil_iff.1 none) some
    · rw [same, List.prefix_nil.1 short]
  refine ⟨past, starts, passes, started, single.trans one.symm, ?_⟩
  rw [← List.length_map (f := Prod.fst), single]
  rfl

end Shiba

import Shiba.Proofs.ModuleOnce

/-!
# What a failed import leaves behind

A module is registered before it runs, so that modules may import one another, and nothing takes it from
the registry when its top level is stopped.  A session that goes on behind a failed import has a
half-loaded module, and importing it again succeeds.  This is the only way to get one: no construct of
the language goes on when something inside has been stopped, however deep.

* `LoadedBy` finds, in the course of a top-level statement, the import that loaded a module: its statements
  have all been run, or the top-level statement was stopped.
* `half_loaded_only_if_stopped`: what is registered between two top-level statements has run to its end,
  unless the statement that loaded it was stopped.
-/

namespace Shiba

open Eval

/-- An import that a top-level statement comes to, which is evaluated in a state, loads the module with a
key.  It runs as a whole, unless the evaluation of the statement is stopped by an error or an exit. -/
def LoadedBy (cfg : Config) (m : ModuleId) (e : Stmt × State) (key : String) : Prop :=
  ∃ n ctx p name v file content,
    Inside cfg cfg.fuel (.stmt ⟨m, cfg.callLimit⟩ e.1) e.2 (n + 1) (.stmt ctx (.importModule p name)) v ∧
    LoadsFile cfg ctx name v key file content ∧
    (RunsWhole cfg n ctx.calls v file content ∨
      ∃ stop t, evalStmt cfg cfg.fuel ⟨m, cfg.callLimit⟩ e.1 e.2 = (.error stop, t))

/-- A module from a file that gets registered in the course of a top-level statement was loaded by it. -/
theorem loadedBy {cfg : Config} {m : ModuleId} {e : Stmt × State} {key : String}
    (foreign : key ∉ Built.hostKeys) (fresh : e.2.registry.find? key = none)
    (there : ((Part.main cfg m e.1).after (evaluators cfg cfg.fuel) e.2).registry.find? key ≠ none) :
    LoadedBy cfg m e key := by
  obtain ⟨n, ctx, p, name, v, file, content, inside, loads, whole⟩ := loadedInside foreign fresh there
  refine ⟨n, ctx, p, name, v, file, content, inside, loads, ?_⟩
  rcases run : evalStmt cfg cfg.fuel ⟨m, cfg.callLimit⟩ e.1 e.2 with ⟨stop | flow, t⟩
  · exact .inr ⟨stop, t, rfl⟩
  · exact .inl (whole ⟨flow, t, run⟩)

/-- Sessions and prompts pass from one top-level statement to the next.  In every state between two of
them, a module that an import loaded from a file has run its top level to the end, statement by statement,
unless the top-level statement in which it was loaded was stopped.  It stays registered either way, and
importing it again answers it and runs nothing. -/
theorem half_loaded_only_if_stopped (cfg : Config) (M : Module) (empty : M.scope = .empty) :
    (∀ t, Run.Session cfg M t → ∃ past, Passes cfg Run.mainModule (State.initial.load M) past t) ∧
    (∀ directory r, M = .ofSource Repl.moduleName directory "" → Repl.Session cfg directory r →
      ∀ block, ∃ past, Passes cfg Run.mainModule (State.initial.load M) past
        (Repl.evaluate cfg Run.mainModule block r.state).2) ∧
    ∀ past t key id, Passes cfg Run.mainModule (State.initial.load M) past t →
      t.registry.find? key = some id → key ≠ M.key → key ∉ Built.hostKeys →
      (∃ e ∈ past, LoadedBy cfg Run.mainModule e key) ∧
      (∀ later u, Passes cfg Run.mainModule t later u → u.registry.find? key = some id) ∧
      ∀ ctx name path, importedPath? cfg ctx name t = some path → Path.dropExtension path = key →
        ∃ u, u.heap = t.heap ∧ u.registry = t.registry ∧
          ∀ ev, importModule ev cfg ctx name t = (.ok id, u) := by
  refine ⟨fun t session => session.passes, ?_, ?_⟩
  · rintro directory r rfl session block
    obtain ⟨-, past, passes⟩ := session.passes
    obtain ⟨now, behind, -⟩ := Repl.evaluate_passes cfg Run.mainModule block r.state
    exact ⟨_, passes.trans behind⟩
  · intro past t key id passes registered other foreign
    have start := State.wellFormed_initial.register empty
    have here : (State.initial.load M).HasModule Run.mainModule := State.hasModule_load .initial M
    obtain ⟨⟨wf, there⟩, -⟩ := passes.kept start here
    refine ⟨?_, fun later u behind => (behind.kept wf there).2 key id registered, ?_⟩
    · have fresh : (State.initial.load M).registry.find? key = none := by
        rw [State.load, Registry.find?_load, if_neg fun same => other same]
        rfl
      obtain ⟨e, member, fresh', there'⟩ := passes.exists_registers fresh (registered ▸ nofun)
      exact ⟨e, member, loadedBy foreign fresh' there'⟩
    · rintro ctx name path found rfl
      obtain ⟨lines, answered⟩ := importModule_of_registered found registered
      exact ⟨{ t with output := lines }, rfl, rfl, answered⟩

/-- A configuration with one module file. -/
def fileConfig (text : String) : Config :=
  { Config.standard with files := FileSystem.empty.addPath "/m.sb" (.file text) }

/-- A prompt with nothing entered yet. -/
def promptState : State := State.initial.load (.ofSource Repl.moduleName "/" "")

/-- How an import of the file ends at a prompt. -/
def importedFile (text : String) : Except Stop Flow × State :=
  evalStmt (fileConfig text) (fileConfig text).fuel ⟨Run.mainModule, (fileConfig text).callLimit⟩
    (.importModule .start "m") promptState

/-- A text whose second statement fails. -/
def failingText : String := "x = 1\nx = y\n"

/-- A module whose import has ended has run its statement; one whose import has failed was loaded by a
statement that was stopped, and an import answers it again. -/
theorem half_loaded_only_if_stopped_failed :
    (∃ n calls v file, RunsWhole (fileConfig "x = 1\n") n calls v file "x = 1\n" ∧
      (Program.ofText "x = 1\n").statements.length = 1) ∧
    (importedFile failingText).2.registry.find? "/m" = some ⟨1⟩ ∧
    (∃ past, Passes (fileConfig failingText) Run.mainModule promptState past (importedFile failingText).2 ∧
      ∃ e ∈ past, LoadedBy (fileConfig failingText) Run.mainModule e "/m") ∧
    ∃ u, u.registry = (importedFile failingText).2.registry ∧ ∀ ev, importModule ev (fileConfig failingText)
      ⟨Run.mainModule, 5⟩ "m" (importedFile failingText).2 = (.ok ⟨1⟩, u) := by
  have passes (text : String) : Passes (fileConfig text) Run.mainModule promptState
      [(.importModule .start "m", promptState)] (importedFile text).2 := .statement _ .here
  have ofFile (text : String) := half_loaded_only_if_stopped (fileConfig text) (.ofSource Repl.moduleName "/" "")
    rfl
  refine ⟨?_, ?_⟩
  · obtain ⟨-, -, all⟩ := ofFile "x = 1\n"
    have registered : (importedFile "x = 1\n").2.registry.find? "/m" = some ⟨1⟩ := by decide +kernel
    obtain ⟨⟨e, member, n, ctx, p, name, v, file, content, -, loads, ends⟩, -, -⟩ :=
      all _ _ "/m" ⟨1⟩ (passes _) registered (by decide +kernel) (by decide +kernel)
    cases List.mem_singleton.1 member
    have only : (fileConfig "x = 1\n").files.contents = ["x = 1\n"] := by decide +kernel
    obtain rfl := List.mem_singleton.1 (only ▸ FileSystem.mem_contents_of_read loads.isRead)
    rcases ends with whole | ⟨stop, t, stopped⟩
    · exact ⟨n, _, v, file, whole, by decide +kernel⟩
    · have ended : (importedFile "x = 1\n").1.isOk = true := by decide +kernel
      have same : importedFile "x = 1\n" = (.error stop, t) := stopped
      rw [same] at ended
      cases ended
  · obtain ⟨-, -, all⟩ := ofFile failingText
    have registered : (importedFile failingText).2.registry.find? "/m" = some ⟨1⟩ := by decide +kernel
    have found : importedPath? (fileConfig failingText) ⟨Run.mainModule, 5⟩ "m" (importedFile failingText).2 =
        some "/m.sb" := by
      decide +kernel
    obtain ⟨loaded, -, again⟩ :=
      all _ _ "/m" ⟨1⟩ (passes _) registered (by decide +kernel) (by decide +kernel)
    obtain ⟨u, -, same, answered⟩ := again _ _ _ found (by decide +kernel)
    exact ⟨registered, ⟨_, passes _, loaded⟩, u, same, answered⟩

/-- An import that fails leaves its module registered, and importing it again succeeds. -/
theorem import_again_of_failed :
    Passes (fileConfig failingText) Run.mainModule promptState [(.importModule .start "m", promptState)]
      (importedFile failingText).2 ∧
    (∃ e, (importedFile failingText).1 = .error (.error e)) ∧
    (importedFile failingText).2.registry.find? "/m" = some ⟨1⟩ ∧
    (Run.statement (fileConfig failingText) Run.mainModule (.importModule .start "m")
      (importedFile failingText).2).1 = .ok .done := by
  have raised : (Stop.error? (importedFile failingText).1).isSome := by decide +kernel
  obtain ⟨e, isError⟩ := Option.isSome_iff_exists.1 raised
  exact ⟨.statement _ .here, ⟨e, Stop.eq_of_error? isError⟩, by decide +kernel,
    Stop.eq_of_toOption (by decide +kernel)⟩

end Shiba

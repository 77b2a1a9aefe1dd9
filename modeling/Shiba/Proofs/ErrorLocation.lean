import Shiba.Proofs.Blame.Places
import Shiba.Proofs.Blame.Runs

/-!
# Errors point into loaded texts

Most of what goes wrong is noticed where nothing is known about the text: in an operator, in a function that
comes with the language, in an import.  Such an error is given a place by the innermost construct around
it, in the module whose text the construct was written in.  So an error that leaves a run always says where
it belongs, and the place it names is there.

* `Norms.locating` asks nothing of a text but that its places lie in it, and every text keeps to that.
* `Eval.Surfaces`: at the top level an exit is an outcome and too deep a nesting an error, so that nothing
  else surfaces but errors, crashes and the end of the fuel.
* `errors_point_into_sources` puts the two together, for programs and for sessions.
-/

namespace Shiba

/-- A stop says where it belongs: it is an error, with the name of a registered module and a place in its
text.  Otherwise it is no error: the run has crashed at a literal that is too long to be read, or it has come
to the end of its fuel. -/
def State.Locates (s : State) : Stop → Prop
  | .error e => ∃ l ∈ e.location, ∃ m, s.Registered m ∧ (s.registry.module m).name = l.module ∧
    l.position.LiesIn (s.registry.module m).content
  | .crash reason => reason = .literalTooLong
  | .outOfFuel => True
  | .exit _ | .tooDeep => False

/-! ## Texts -/

/-- Nothing is asked of a text but that its places lie in it. -/
def Norms.locating : Norms := ⟨Position.LiesIn, fun _ => True, fun _ => True⟩

theorem Norms.text_locating (content : String) : locating.Text content where
  within := (Program.within_ofText content).1
  top _ _ := trivial
  ending := (Program.within_ofText content).2

theorem Norms.files_locating (files : FileSystem) : locating.Files files :=
  fun _ content _ _ => text_locating content

/-! ## What surfaces -/

/-- Neither an exit nor too deep a nesting. -/
def Stop.Surfaces : Stop → Prop
  | .error _ | .crash _ | .outOfFuel => True
  | .exit _ | .tooDeep => False

/-- An error that is accounted for says where it belongs. -/
theorem State.locates_of_owns {s : State} {stop : Stop} (owned : Norms.locating.Owns true s stop)
    (surfaces : stop.Surfaces) : s.Locates stop := by
  cases stop with
  | error e =>
    obtain ⟨-, points, placed⟩ := owned
    obtain ⟨l, isPlace⟩ := Option.isSome_iff_exists.1 (placed rfl)
    obtain ⟨m, loaded, named, lies⟩ := points l isPlace
    exact ⟨l, isPlace, m, loaded.registered, named, lies⟩
  | crash reason => exact owned
  | outOfFuel => trivial
  | exit | tooDeep => exact surfaces

namespace Eval

variable {α β : Type} {cfg : Config} {m : ModuleId}

/-- A step lets neither an exit nor too deep a nesting through. -/
def Surfaces (a : Eval α) : Prop := ∀ s stop t, a s = (.error stop, t) → stop.Surfaces

namespace Surfaces

/-- A step that always comes to its end. -/
theorem of_ok {a : Eval α} (always : ∀ s, ∃ x t, a s = (.ok x, t)) : a.Surfaces := by
  intro s stop t run
  obtain ⟨x, u, done⟩ := always s
  rw [done] at run
  cases run

theorem pure (x : α) : (pure x : Eval α).Surfaces := of_ok fun s => ⟨x, s, rfl⟩

theorem throw {stop : Stop} (surfaces : stop.Surfaces) : (throw stop : Eval α).Surfaces := by
  rintro s stop' t run
  cases run
  exact surfaces

theorem bind {a : Eval α} {f : α → Eval β} (first : a.Surfaces) (rest : ∀ x, (f x).Surfaces) :
    (a >>= f).Surfaces := by
  intro s stop u run
  rcases ran : a s with ⟨stop' | x, t⟩
  · rw [bind_error ran] at run
    cases run
    exact first s stop u ran
  · rw [bind_ok ran] at run
    exact rest x t stop u run

theorem raiseAt (p : Position) (cause : Cause) : (raiseAt m p cause : Eval α).Surfaces := by
  rintro s stop t run
  cases run
  trivial

theorem trace {level : Int} {text : Eval String} (shows : text.Surfaces) :
    (trace cfg level text).Surfaces := by
  rw [Eval.trace]
  split
  · exact shows.bind fun _ => of_ok fun s => ⟨(), _, rfl⟩
  · exact pure _

theorem traceStatement (s : Stmt) : (traceStatement cfg m s).Surfaces :=
  trace (of_ok fun s => ⟨_, s, rfl⟩)

theorem checkTopLevel (s : Stmt) (flow : Flow) : (checkTopLevel m s flow).Surfaces := by
  rw [Eval.checkTopLevel]
  split
  · exact raiseAt _ _
  · exact pure _

theorem checkEnding (ending : Ending) : (checkEnding m ending).Surfaces := by
  cases ending with
  | complete last => exact pure _
  | failed failure =>
    rintro s stop t run
    cases run
    rcases Stop.ofFailure_eq (s.registry.module m).name failure with ⟨reason, -, crashes⟩ | ⟨-, fails⟩
    · rw [crashes]
      trivial
    · rw [fails]
      trivial

/-- An exit becomes an outcome, and too deep a nesting an error. -/
theorem statement (s : Stmt) : (Run.statement cfg m s).Surfaces := by
  refine (traceStatement s).bind fun _ => ?_
  have observed : (observe (evalStmt cfg cfg.fuel ⟨m, cfg.callLimit⟩ s)).Surfaces :=
    of_ok fun s => ⟨_, _, rfl⟩
  refine observed.bind fun result => ?_
  cases result with
  | ok flow => exact (checkTopLevel s flow).bind fun _ => pure _
  | error stop =>
    cases stop with
    | error e => exact throw trivial
    | exit code => exact pure _
    | tooDeep => exact raiseAt _ _
    | crash | outOfFuel => exact throw trivial

theorem statements (block : Block) : (Run.statements cfg m block).Surfaces := by
  induction block with
  | nil => exact pure _
  | cons s rest ih =>
    refine (statement s).bind fun outcome => ?_
    split
    · exact pure _
    · exact ih

theorem program (M : Module) : (Run.program cfg M).Surfaces := by
  have added : (addModule M).Surfaces := of_ok fun s => ⟨_, _, rfl⟩
  refine added.bind fun id => (trace (pure _)).bind fun _ => (statements _).bind fun code => ?_
  cases code with
  | some code => exact pure code
  | none => exact (checkEnding _).bind fun _ => pure 0

end Surfaces

end Eval

/-! ## Programs and sessions -/

/-- Whatever stops a program, or a session that runs the statements of a module one by one, is an error
with a location: the name of a registered module, and a place whose offset is inside the text of the module
and whose line and column are those of the offset.  This goes for failures of the text that ends a module as
well.  The only other stops are the crash at a literal that is too long, which is no error, and the end of the
fuel. -/
theorem errors_point_into_sources (cfg : Config) (M : Module) :
    (∀ stop t, Run.program cfg M .initial = (.error stop, t) → t.Locates stop) ∧
    ∀ s, Run.Session cfg M s →
      (∀ stmt ∈ (Program.ofText M.content).statements, ∀ stop t,
        Run.statement cfg Run.mainModule stmt s = (.error stop, t) → t.Locates stop) ∧
      ∀ stop t, Eval.checkEnding Run.mainModule (Program.ofText M.content).ending s = (.error stop, t) →
        t.Locates stop := by
  have files := Norms.files_locating cfg.files
  have text := Norms.text_locating M.content
  refine ⟨?_, fun s session => ⟨?_, ?_⟩⟩
  · intro stop t run
    have ends : Norms.locating.Ends true _ (Run.program cfg M .initial) :=
      .program files text Norms.sourced_initial rfl
    rw [run] at ends
    exact State.locates_of_owns (ends.owned stop rfl) (Eval.Surfaces.program M _ _ _ run)
  · intro stmt member stop t run
    obtain ⟨kept, sourced⟩ := text.session files session
    have ends := text.statement files member s kept sourced
    rw [run] at ends
    exact State.locates_of_owns (ends.owned stop rfl) (Eval.Surfaces.statement stmt _ _ _ run)
  · intro stop t run
    obtain ⟨kept, sourced⟩ := text.session files session
    have ends := text.checkEnding s kept sourced
    rw [run] at ends
    exact State.locates_of_owns (ends.owned stop rfl) (Eval.Surfaces.checkEnding _ _ _ _ run)

/-- The failure of an imported module points into its file: the name that is not defined is the third token of
the second line. -/
theorem errors_point_into_sources_import :
    let cfg := { Config.standard with files := FileSystem.empty.addPath "/m.sb" (.file "x = 1\nx = y\n") }
    let M := Module.ofSource "main" "/" "import m\n"
    ∃ e t, Run.program cfg M .initial = (.error (.error e), t) ∧ e.location = some ⟨"m", ⟨2, 5, 10⟩⟩ ∧
      ∃ m, t.Registered m ∧ (t.registry.module m).name = "m" ∧
        Position.LiesIn (t.registry.module m).content ⟨2, 5, 10⟩ := by
  intro cfg M
  have place : (Stop.error? (Run.program cfg M .initial).1).bind Error.location =
      some ⟨"m", ⟨2, 5, 10⟩⟩ := by
    decide +kernel
  obtain ⟨e, isError, place⟩ := Option.bind_eq_some_iff.1 place
  have run : Run.program cfg M .initial = (.error (.error e), _) := Prod.ext (Stop.eq_of_error? isError) rfl
  obtain ⟨l, isPlace, m, registered, named, lies⟩ := (errors_point_into_sources cfg M).1 _ _ run
  cases place.symm.trans isPlace
  exact ⟨e, _, run, place, m, registered, named, lies⟩

end Shiba

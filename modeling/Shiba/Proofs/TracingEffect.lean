import Shiba.Proofs.Heap.Growth
import Shiba.Proofs.InternalFailure
import Shiba.Proofs.Tracing.Constructs

/-!
# What tracing does to a program

A program is run twice on the same files: traced, and silent.  Either both runs end alike but for the
lines of tracing, or the traced run was stopped while a value was written into such a line.

* `Run.program_traced` says so of every program; it is the rules of `Tracing/Constructs.lean` carried to
  the running of modules, where a stop has become an error with a place.
* `Run.program_cyclic_iff` follows one program in all configurations: it makes a list that holds itself
  and tests it.  As a condition the list is true; as a part of a line it has no end.
* `Run.tracing_harmless_iff` puts the two together: below level 3 tracing never changes what a program
  does, and from level 3 on it does, whatever the limits are.
-/

namespace Shiba

namespace Run

/-- A traced run and a silent one end with the same result, the same heap, the same modules and the same
lines of the program, in order. -/
def EndAlike (traced silent : Except Stop Int64 × State) : Prop :=
  silent = (traced.1, traced.2.untraced)

theorem EndAlike.result {traced silent : Except Stop Int64 × State} (alike : EndAlike traced silent) :
    silent.1 = traced.1 := by
  rw [alike]

/-- A traced run was stopped by a line of tracing: the error is that data are nested too deep, there is
a value in the heap that has no written form, and up to there the program has written what it writes
first in the silent run. -/
structure StoppedByTracing (cfg : Config) (traced silent : Except Stop Int64 × State) : Prop where
  level : 3 ≤ cfg.debugLevel
  result : ∃ place, traced.1 = .error (.error ⟨.tooDeep, some place⟩)
  value : ∃ b, traced.2.heap.canonical cfg.dataLimit (traced.2.heap.value b) = none
  lines : traced.2.untraced.Leads silent.2

end Run

/-- The stops a line of tracing can bring about at the top level, where data nested too deep have become
an error with a place. -/
def Stop.OfTracedProgram (stop : Stop) : Prop :=
  (∃ place, stop = .error ⟨.tooDeep, some place⟩) ∨ stop.Internal

namespace Alongside

variable {cfg : Config} {m : ModuleId}

/-- A top-level statement.  What it stops with is looked at, and data nested too deep become an error
at its place. -/
theorem runStatement (s : Stmt) :
    Alongside cfg Stop.OfTracedProgram (Run.statement cfg m s) (Run.statement cfg.silent m s) := by
  refine (traceStatement m s).bind fun _ t => ?_
  have evaluated := (evaluators_traced cfg cfg.fuel).stmt ⟨m, cfg.callLimit⟩ s t
  refine evaluated.observe_bind (fun result => ?_) fun stop possible u => ?_
  · split
    · exact (checkTopLevel m s _).bind fun _ => pure _
    · exact pure _
    · exact raiseAt m s.position _
    · exact throw _
  · rcases possible with rfl | internal
    · exact ⟨⟨_, rfl, .inl ⟨_, rfl⟩⟩, rfl, rfl⟩
    · cases stop with
      | error e => exact ⟨⟨_, rfl, .inr internal⟩, rfl, rfl⟩
      | exit code => exact internal.elim
      | tooDeep => exact internal.elim
      | crash reason => exact internal.elim
      | outOfFuel => exact internal.elim

theorem runStatements (block : Block) :
    Alongside cfg Stop.OfTracedProgram (Run.statements cfg m block)
      (Run.statements cfg.silent m block) := by
  induction block with
  | nil => exact pure _
  | cons s rest ih =>
    refine (runStatement s).bind fun outcome => ?_
    split
    · exact pure _
    · exact ih

theorem runProgram (M : Module) :
    Alongside cfg Stop.OfTracedProgram (Run.program cfg M) (Run.program cfg.silent M) := by
  refine (addModule M).bind fun id => (traceText (by decide) fun s => ⟨_, rfl⟩).bind fun _ => ?_
  refine (runStatements _).bind fun code => ?_
  split
  · exact pure _
  · exact (checkEnding id _).bind fun _ => pure _

end Alongside

namespace Run

/-- A program never stops with a failure of the machine. -/
theorem program_not_internal {cfg : Config} {M : Module} (empty : M.scope = .empty) {stop : Stop}
    (stopped : (program cfg M .initial).1 = .error stop) : ¬ stop.Internal := by
  have reached : Reachable cfg .initial := .initial
  have wf := reached.wellFormed
  rw [program, Eval.bind_ok (Discipline.Agree.run_addModule _ M)] at stopped
  exact not_internal_of_agree (wf.register empty) (State.hasModule_load _ M)
    (fun w opened holds => Discipline.Agree.runMain holds opened M) stop stopped

/-- A traced run ends as the silent one does, or it was stopped by a line of tracing. -/
theorem program_traced (cfg : Config) {M : Module} (empty : M.scope = .empty) :
    EndAlike (program cfg M .initial) (program cfg.silent M .initial) ∨
      StoppedByTracing cfg (program cfg M .initial) (program cfg.silent M .initial) := by
  have beside : Beside cfg Stop.OfTracedProgram .initial (program cfg M) (program cfg.silent M) :=
    Alongside.runProgram M .initial
  have clean : State.initial.untraced = .initial := rfl
  have ends := beside.ends
  rw [clean] at ends
  rcases ends with same | ⟨⟨⟨stop, isStop, possible⟩, level, value⟩, lines⟩
  · exact .inl same
  · rcases possible with ⟨place, rfl⟩ | internal
    · exact .inr ⟨level, ⟨place, isStop⟩, value, lines⟩
    · exact absurd internal (program_not_internal empty isStop)

end Run

/-! ## A list that holds itself -/

namespace Run

open Eval

/-- A program that makes a list, puts it into itself and tests it. -/
def cyclicText : String := "a = [0]\na[0] = a\nif a \x7b \x7d\n"

/-- The program as a module. -/
def cyclicModule : Module := .ofSource "main" "/" cyclicText

def makeList : Stmt :=
  .assign ⟨1, 3, 2⟩ .plain [.ident ⟨1, 1, 0⟩ "a"] [.list ⟨1, 5, 4⟩ [.literal ⟨1, 6, 5⟩ (.int 0)]]

def closeCycle : Stmt :=
  .assign ⟨2, 6, 13⟩ .plain
    [.index ⟨2, 2, 9⟩ (.ident ⟨2, 1, 8⟩ "a") (.literal ⟨2, 3, 10⟩ (.int 0))] [.ident ⟨2, 8, 15⟩ "a"]

def theList : Expr := .ident ⟨3, 4, 20⟩ "a"

def testList : Stmt := .conditional ⟨3, 1, 17⟩ [(theList, [])] none

theorem program_cyclicText :
    Program.ofText cyclicText = ⟨[makeList, closeCycle, testList], .complete ⟨4, 1, 26⟩⟩ := by
  rfl

/-- The state in which the program starts, with what has been written. -/
def loaded (output : Array Line) : State := { State.initial.load cyclicModule with output }

/-- A state in which `a` is a list of one box, and some boxes have been made.  The first of them is the
literal, the second the one in the list; the others are the list and copies of it. -/
def withList (boxes : List Value) (output : Array Line) : State where
  heap := { Heap.empty with
    boxes := (State.standardBuiltins.map Value.builtin ++ boxes).toArray
    lists := #[#[⟨9⟩]] }
  registry := (State.initial.load cyclicModule).registry.modifyScope ⟨0⟩ (·.setObj "a" ⟨11⟩)
  builtins := State.initial.builtins
  output := output

def afterMaking : Array Line → State := withList [.int 0, .int 0, .list ⟨0⟩, .list ⟨0⟩]

def afterClosing : Array Line → State :=
  withList [.int 0, .list ⟨0⟩, .list ⟨0⟩, .list ⟨0⟩, .list ⟨0⟩, .int 0]

/-- The state in which the list is tested. -/
def testing (output : Array Line) : State := (afterClosing output).openBlock ⟨0⟩

section

variable (cfg : Config) (fuel calls : Nat) (output : Array Line)

theorem run_makeList : evalStmt cfg (fuel + 3) ⟨⟨0⟩, calls⟩ makeList (loaded output) =
    (.ok .done, afterMaking output) :=
  rfl

theorem run_closeCycle : evalStmt cfg (fuel + 3) ⟨⟨0⟩, calls⟩ closeCycle (afterMaking output) =
    (.ok .done, afterClosing output) :=
  rfl

/-- The list is true, but it cannot be written into a line. -/
theorem run_condition :
    condition (evaluators cfg (fuel + 2)) cfg ⟨⟨0⟩, calls⟩ "if" theList (testing output) =
      (if cfg.debugLevel < 3 then .ok true else .error .tooDeep, testing output) := by
  have evaluated : (evaluators cfg (fuel + 2)).expr ⟨⟨0⟩, calls⟩ theList (testing output) =
      (.ok ⟨11⟩, testing output) := rfl
  have value : Eval.read ⟨11⟩ (testing output) = (.ok (.list ⟨0⟩), testing output) := rfl
  have unwritten : Eval.canonical cfg ⟨11⟩ (testing output) = (.error .tooDeep, testing output) :=
    run_canonical_none (Heap.canonical_cyclic (b := ⟨9⟩) (List.mem_singleton.2 rfl) rfl cfg.dataLimit)
  rw [condition, bind_ok evaluated, bind_ok (run_get _), bind_ok value]
  by_cases low : cfg.debugLevel < 3
  · rw [if_pos low, trace, if_neg (by omega)]
    rfl
  · rw [if_neg low, trace, if_pos (by omega)]
    exact bind_error (bind_error (bind_error unwritten))

theorem run_testList : ∃ t, evalStmt cfg (fuel + 3) ⟨⟨0⟩, calls⟩ testList (afterClosing output) =
    (if cfg.debugLevel < 3 then .ok .done else .error .tooDeep, t) := by
  have stands : (afterClosing output).Stands ⟨0⟩ ⟨0⟩ := rfl
  have active : ((testing output).registry.module ⟨0⟩).scope.blockDepth ≠ 0 := Nat.succ_ne_zero 0
  have branched : runBranches (evaluators cfg (fuel + 2)) cfg ⟨⟨0⟩, calls⟩ none [(theList, [])]
      (testing output) =
      (if cfg.debugLevel < 3 then .ok .done else .error .tooDeep, testing output) := by
    have tested := run_condition cfg fuel calls output
    rw [runBranches]
    split at tested
    · next low =>
      rw [bind_ok tested, if_pos low]
      rfl
    · next high => rw [bind_error tested, if_neg high]
  have ended := Discipline.Agree.run_inBlock stands branched active
  rw [evalStmt_succ]
  change ∃ t, located ⟨0⟩ ⟨3, 1, 17⟩ (inBlock ⟨0⟩ _) (afterClosing output) = _
  rw [located, ended]
  by_cases low : cfg.debugLevel < 3
  · rw [if_pos low]
    exact ⟨_, rfl⟩
  · rw [if_neg low]
    exact ⟨_, rfl⟩

end

/-- A line of tracing without values changes nothing but the lines. -/
theorem run_trace_text (cfg : Config) (level : Int) {text : Eval String} (s : State)
    (total : ∀ s, ∃ x, text s = (.ok x, s)) :
    ∃ output, trace cfg level text s = (.ok (), { s with output }) := by
  rw [trace]
  by_cases on : level ≤ cfg.debugLevel
  · obtain ⟨x, run⟩ := total s
    rw [if_pos on, bind_ok run]
    exact ⟨_, rfl⟩
  · rw [if_neg on]
    exact ⟨_, rfl⟩

section

variable {cfg : Config} {m : ModuleId} {stmt : Stmt} {s t : Array Line → State}

/-- The line in front of a top-level statement, in a state of which only the lines are not fixed. -/
theorem run_traceStatement (cfg : Config) (m : ModuleId) (stmt : Stmt)
    (written : ∀ o o', { s o with output := o' } = s o') (output : Array Line) :
    ∃ output', traceStatement cfg m stmt (s output) = (.ok (), s output') := by
  have traced : ∃ o, traceStatement cfg m stmt (s output) = (.ok (), { s output with output := o }) :=
    run_trace_text cfg 2 (s output) fun s => ⟨_, rfl⟩
  obtain ⟨o, traced⟩ := traced
  rw [written] at traced
  exact ⟨o, traced⟩

/-- A top-level statement that ends by itself. -/
theorem statement_done (written : ∀ o o', { s o with output := o' } = s o')
    (run : ∀ o, evalStmt cfg cfg.fuel ⟨m, cfg.callLimit⟩ stmt (s o) = (.ok .done, t o))
    (output : Array Line) : ∃ output', statement cfg m stmt (s output) = (.ok .done, t output') := by
  obtain ⟨o, traced⟩ := run_traceStatement cfg m stmt written output
  rw [statement, bind_ok traced, observe_bind_apply, run o]
  exact ⟨o, rfl⟩

/-- A top-level statement that meets data nested too deep. -/
theorem statement_tooDeep (written : ∀ o o', { s o with output := o' } = s o')
    (run : ∀ o, evalStmt cfg cfg.fuel ⟨m, cfg.callLimit⟩ stmt (s o) = (.error .tooDeep, t o))
    (output : Array Line) : ∃ stop u, statement cfg m stmt (s output) = (.error stop, u) := by
  obtain ⟨o, traced⟩ := run_traceStatement cfg m stmt written output
  rw [statement, bind_ok traced, observe_bind_apply, run o]
  exact ⟨_, _, rfl⟩

end

/-- The program that tests a list that holds itself ends by itself if and only if values are not
traced. -/
theorem program_cyclic_iff (cfg : Config) (enough : 3 ≤ cfg.fuel) :
    (program cfg cyclicModule .initial).1 = .ok 0 ↔ cfg.debugLevel < 3 := by
  obtain ⟨fuel, isFuel⟩ := Nat.exists_eq_add_of_le' enough
  -- up to the test, configurations differ in what has been written only
  have started : ∃ o, trace cfg 1 (return "run module " ++ cyclicModule.key)
      (State.initial.load cyclicModule) = (.ok (), loaded o) :=
    run_trace_text cfg 1 _ fun s => ⟨_, rfl⟩
  obtain ⟨o₁, started⟩ := started
  have making := statement_done (s := loaded) (fun _ _ => rfl)
    (fun o => isFuel ▸ run_makeList cfg fuel cfg.callLimit o) o₁
  obtain ⟨o₂, made⟩ := making
  have closing := statement_done (s := afterMaking) (fun _ _ => rfl)
    (fun o => isFuel ▸ run_closeCycle cfg fuel cfg.callLimit o) o₂
  obtain ⟨o₃, closed⟩ := closing
  choose t tested using run_testList cfg fuel cfg.callLimit
  rw [← isFuel] at tested
  have parsed : Program.ofText cyclicModule.content = _ := program_cyclicText
  rw [program, bind_ok (Discipline.Agree.run_addModule _ _), bind_ok started, parsed]
  have ran : statements cfg ⟨0⟩ [makeList, closeCycle, testList] (loaded o₁) =
      statements cfg ⟨0⟩ [testList] (afterClosing o₃) := by
    rw [statements, bind_ok made]
    change statements cfg ⟨0⟩ [closeCycle, testList] (afterMaking o₂) = _
    rw [statements, bind_ok closed]
  change ((statements cfg ⟨0⟩ [makeList, closeCycle, testList] >>= _) (loaded o₁)).1 = _ ↔ _
  rw [bind_congr ran]
  by_cases low : cfg.debugLevel < 3
  · simp only [if_pos low] at tested
    obtain ⟨o₄, done⟩ := statement_done (fun _ _ => rfl) tested o₃
    have ended : statements cfg ⟨0⟩ [testList] (afterClosing o₃) = (.ok none, t o₄) := by
      rw [statements, bind_ok done]
      rfl
    rw [bind_ok ended]
    exact iff_of_true rfl low
  · simp only [if_neg low] at tested
    obtain ⟨stop, u, stopped⟩ := statement_tooDeep (fun _ _ => rfl) tested o₃
    have ended : statements cfg ⟨0⟩ [testList] (afterClosing o₃) = (.error stop, u) := by
      rw [statements, bind_error stopped]
    rw [bind_error ended]
    exact iff_of_false (by simp) low

/-! ## When tracing is harmless -/

/-- With fuel enough to test a value, tracing leaves all programs as they are, but for the lines it adds,
if and only if values are not traced; and a program it does not leave so is stopped by it, at a value
that cannot be written. -/
theorem tracing_harmless_iff (cfg : Config) (enough : 3 ≤ cfg.fuel) :
    ((∀ name directory content,
      let M := Module.ofSource name directory content
      EndAlike (program cfg M .initial) (program cfg.silent M .initial)) ↔ cfg.debugLevel < 3) ∧
    ∀ name directory content,
      let M := Module.ofSource name directory content
      ¬ EndAlike (program cfg M .initial) (program cfg.silent M .initial) →
        StoppedByTracing cfg (program cfg M .initial) (program cfg.silent M .initial) := by
  have ends (name directory content : String) :=
    program_traced cfg (M := .ofSource name directory content) rfl
  refine ⟨⟨?_, ?_⟩, fun name directory content => (ends name directory content).resolve_left⟩
  · intro harmless
    have alike : EndAlike (program cfg cyclicModule .initial) (program cfg.silent cyclicModule .initial) :=
      harmless "main" "/" cyclicText
    have silent : cfg.silent.debugLevel < 3 := show (0 : Int) < 3 by decide
    rw [← program_cyclic_iff cfg enough, ← alike.result]
    exact (program_cyclic_iff cfg.silent enough).2 silent
  · intro low name directory content
    refine (ends name directory content).resolve_right fun stopped => ?_
    have level := stopped.level
    omega

/-- With the limits there are by default, tracing values is not harmless, and tracing statements is. -/
theorem tracing_harmless_iff_standard :
    3 ≤ Config.standard.fuel ∧
    ¬ (∀ name directory content,
      EndAlike (program { Config.standard with debugLevel := 3 } (.ofSource name directory content) .initial)
        (program .standard (.ofSource name directory content) .initial)) ∧
    ∀ name directory content,
      EndAlike (program { Config.standard with debugLevel := 2 } (.ofSource name directory content) .initial)
        (program .standard (.ofSource name directory content) .initial) := by
  have values := (tracing_harmless_iff { Config.standard with debugLevel := 3 } (by decide)).1
  have statements := (tracing_harmless_iff { Config.standard with debugLevel := 2 } (by decide)).1
  exact ⟨by decide, mt values.1 (by decide), statements.2 (by decide)⟩

end Run

end Shiba

import Shiba.Proofs.Reachable
import Shiba.Run

/-!
# No program reaches a failure of the machine

Each failure of the machine guards something a construct takes for granted: that a module is
registered, that there is a call to end and a block to close, that a value is a sequence and an index
lies inside it, that instances of one struct have the same fields, that a divisor is not zero.  None of
them can be reached, whatever text is run and whatever files it imports.

The rules of the machine (`Discipline.Agree`) exclude these failures step by step.  Here they are
carried to the running of modules: one statement, all statements, and the main module as a whole.
-/

namespace Shiba

namespace Discipline.Agree

open Eval

variable {D : Discipline} {w : D.World} {s₁ s₂ : State} {cfg : Config} {m : ModuleId}

/-! ## Running modules -/

/-- A top-level statement.  What it stops with is looked at, and an exit becomes an outcome. -/
theorem runStatement (holds : D.Holds w 0 s₁ s₂)
    (opened : D.OpenFor w s₁ m) (stmt : Stmt) :
    D.Agree w s₁ s₂ (Run.statement cfg m stmt) (Run.statement cfg m stmt) fun _ t₁ t₂ =>
      D.Holds w 0 t₁ t₂ := by
  apply bind (traceStatement holds m stmt)
  intro _ t₁ t₂ grew traced
  have opened' := opened.mono grew
  apply bind (observe (agree_evalStmt ⟨m, cfg.callLimit⟩ traced cfg cfg.fuel
    (opened'.admits stmt)))
  intro result u₁ u₂ _ watched
  split
  · next flow =>
    apply bind (checkTopLevel watched.1 m stmt flow)
    intro _ v₁ v₂ _ checked
    exact pure _ checked
  · exact pure _ watched.1
  · exact raiseAt watched.1 nofun
  · exact throw watched.1 watched.2

theorem runStatements (block : Block) (holds : D.Holds w 0 s₁ s₂)
    (opened : D.OpenFor w s₁ m) :
    D.Agree w s₁ s₂ (Run.statements cfg m block) (Run.statements cfg m block) fun _ t₁ t₂ =>
      D.Holds w 0 t₁ t₂ := by
  induction block generalizing s₁ s₂ with
  | nil => exact pure _ holds
  | cons stmt block ih =>
    apply bind (runStatement holds opened stmt)
    intro outcome t₁ t₂ grew after
    split
    · exact pure _ after
    · exact ih after (opened.mono grew)

/-- What is left of running a main module when it has been registered. -/
theorem runMain (holds : D.Holds w 0 s₁ s₂) (opened : D.OpenFor w s₁ m)
    (M : Module) :
    D.Agree w s₁ s₂
      (do
        Eval.trace cfg 1 (return "run module " ++ M.key)
        match ← Run.statements cfg m (Program.ofText M.content).statements with
        | some code => return code
        | none =>
          Eval.checkEnding m (Program.ofText M.content).ending
          return 0)
      (do
        Eval.trace cfg 1 (return "run module " ++ M.key)
        match ← Run.statements cfg m (Program.ofText M.content).statements with
        | some code => return code
        | none =>
          Eval.checkEnding m (Program.ofText M.content).ending
          return 0)
      fun (_ : Int64) t₁ t₂ => D.Holds w 0 t₁ t₂ := by
  apply bind (traceText holds 1 _)
  intro _ t₁ t₂ grew traced
  apply bind (runStatements _ traced (opened.mono grew))
  intro code u₁ u₂ _ after
  split
  · exact pure _ after
  · apply bind (checkEnding after m _)
    intro _ v₁ v₂ _ ended
    exact pure _ ended

end Discipline.Agree

/-! ## No failure -/

/-- From a well-formed state, a step that keeps the discipline of scopes does not fail. -/
theorem not_internal_of_agree {α : Type} {s : State} {m : ModuleId} {a : Eval α}
    (wf : s.WellFormed) (here : s.HasModule m)
    (ends : ∀ w, Discipline.scoped.OpenFor w s m → Discipline.scoped.Holds w 0 s s →
      Discipline.scoped.Agree w s s a a fun _ t₁ t₂ => Discipline.scoped.Holds w 0 t₁ t₂) :
    ∀ stop, (a s).1 = .error stop → ¬ stop.Internal := by
  obtain ⟨w, opened, holds⟩ := Discipline.scoped_upholds.beginsFor wf here
  exact (Discipline.scoped_upholds.of_agree (ends w opened holds) fun _ _ _ after => ⟨0, after⟩).2

/-- No statement stops with a failure of the machine, wherever in a run it begins. -/
theorem Running.not_internal_evalStmt {cfg : Config} {s : State} {m : ModuleId} (running : Running cfg m s)
    (fuel calls : Nat) (code : Stmt) :
    ∀ stop, (Shiba.evalStmt cfg fuel ⟨m, calls⟩ code s).1 = .error stop → ¬ stop.Internal := by
  apply not_internal_of_agree running.reachable.wellFormed running.here
  intro w opened holds
  exact (Discipline.agree_evalStmt ⟨m, calls⟩ holds cfg fuel (opened.admits code)).mono
    fun _ _ _ _ after => after.1

/-- Neither a top-level statement, nor a module that is run or loaded, whatever its text, ever stops
with a failure of the machine; and every instance has the fields of its definition, in order and each
of them once. -/
theorem not_internal_of_reachable {cfg : Config} {s : State} (reachable : Reachable cfg s) :
    (∀ m stmt, s.HasModule m → ∀ stop, (Run.statement cfg m stmt s).1 = .error stop →
      ¬ stop.Internal) ∧
    (∀ M : Module, M.scope = .empty → ∀ stop, (Run.program cfg M s).1 = .error stop →
      ¬ stop.Internal) ∧
    (∀ fuel calls path stop, (Eval.loadFile (evaluators cfg fuel) cfg calls path s).1 = .error stop →
      ¬ stop.Internal) ∧
    (∀ fuel calls, ∀ M : Module, M.scope = .empty → ∀ stop,
      (Eval.runLoaded (evaluators cfg fuel) cfg calls M s.registry.next (s.load M)).1 = .error stop →
        ¬ stop.Internal) ∧
    ∀ i, s.HasInstance i →
      (s.heap.instanceAt i).fields.keys = (s.heap.structDef (s.heap.instanceAt i).definition).fields ∧
        (s.heap.instanceAt i).fields.keys.Nodup := by
  have wf := reachable.wellFormed
  refine ⟨?_, ?_, ?_, ?_, ?_⟩
  · intro m stmt here
    exact not_internal_of_agree wf here fun w opened holds =>
      Discipline.Agree.runStatement holds opened stmt
  · intro M empty
    rw [Run.program, Eval.bind_ok (Discipline.Agree.run_addModule s M)]
    exact not_internal_of_agree (wf.register empty) (State.hasModule_load s M)
      fun w opened holds => Discipline.Agree.runMain holds opened M
  · intro fuel calls path
    have holds : Discipline.scoped.Holds ⟨s.registry, none⟩ 0 s s :=
      ⟨wf, s.holding_zero, rfl,
        ScopeWorld.fits_self fun _ given => absurd given (Option.not_mem_none _)⟩
    exact (Discipline.scoped_upholds.of_agree
      (Discipline.Agree.loadFile (Discipline.contract _ cfg fuel) holds calls path)
      fun _ _ _ after => ⟨0, after.1⟩).2
  · intro fuel calls M empty
    exact not_internal_of_agree (wf.register empty) (State.hasModule_load s M) fun w opened holds =>
      (Discipline.Agree.runLoaded (Discipline.contract _ cfg fuel) holds opened calls M).mono
        fun _ _ _ _ after => after.1
  · intro i there
    exact ⟨(wf.shaped there).fields, wf.nodup_fields there⟩

/-- A program that divides by zero stops, but not with a failure of the machine. -/
theorem not_internal_of_reachable_division :
    Reachable .standard .initial ∧
      ∀ stop, (Run.program .standard (.ofSource "main" "/" "x = [1]\nprint(x[0] / 0)\n") .initial).1 =
        .error stop → ¬ stop.Internal :=
  ⟨.initial, (not_internal_of_reachable .initial).2.1 _ rfl⟩

end Shiba

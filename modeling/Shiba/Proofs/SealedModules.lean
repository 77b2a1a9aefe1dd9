import Shiba.Proofs.Reachable

/-!
# Other modules bind no names at the top level of a module

A statement binds names in the module it belongs to, and a call of a function of another module binds them in a
frame of its own.  So the names at the top level of a module stay as they are while other modules are run, also
inside of their statements and of the calls these make.

* `ScopeWorld.Seals base m w`: since an earlier point of a run, a module is run only in calls, and its top level has
  the names it had in a state.
* `Discipline.sealed` is the discipline that a run of other modules keeps to.
* `State.Sealed base m s`: in the later state `s`, the module `m` has the names at its top level that it had.
* `Abroad cfg m base s`: from `base` on, runs of other modules than `m` can be in `s`.
* `Abroad.sealed` is the statement.
-/

namespace Shiba

/-! ## Points of a run that are inside of other modules -/

/-- The top level of a module has the names it had in a state, and names are open in the module only in calls. -/
structure ScopeWorld.Seals (base : State) (m : ModuleId) (w : ScopeWorld) : Prop where
  here : m.index < w.registry.modules.size
  names : (w.registry.module m).scope.root.outline = (base.scopeOf m).root.outline
  called : m ∈ w.target → (w.registry.module m).scope.frames ≠ []

/-- The calls of a module that are active at a point of a run are active still. -/
theorem ScopeWorld.Fits.called {w : ScopeWorld} {s : State} {m : ModuleId} (fits : w.Fits s)
    (old : m.index < w.registry.modules.size) (active : (w.registry.module m).scope.frames ≠ []) :
    (s.scopeOf m).frames ≠ [] := by
  intro none
  have calls := (fits.grows old).calls
  change (s.scopeOf m).frames.length = _ at calls
  rw [none] at calls
  exact active (List.length_eq_zero_iff.1 calls.symm)

namespace ScopeWorld.Seals

variable {base s : State} {m m' : ModuleId} {w : ScopeWorld}

/-- As long as no more names come in than a point of a run admits, the top level has the names it had. -/
theorem outline_eq (seals : w.Seals base m) (fits : w.Fits s) :
    (s.scopeOf m).root.outline = (base.scopeOf m).root.outline := by
  rw [← seals.names]
  by_cases isTarget : m ∈ w.target
  · exact (fits.grown m isTarget).root (seals.called isTarget)
  · exact congrArg Prod.fst (fits.same m seals.here isTarget)

/-- A point at which a scope has been opened in a module, in a call if it is the module itself. -/
theorem opened {f : Scope BoxId StructId → Scope BoxId StructId} (here : s.HasModule m)
    (names : (s.scopeOf m).root.outline = (base.scopeOf m).root.outline)
    (opens : m' = m → (f (s.scopeOf m)).root.outline = (s.scopeOf m).root.outline ∧ (f (s.scopeOf m)).frames ≠ []) :
    Seals base m ⟨(s.modifyScope m' f).registry, some m'⟩ := by
  by_cases same : m' = m
  · subst same
    have scope : ((s.modifyScope m' f).registry.module m').scope = f (s.scopeOf m') :=
      State.scopeOf_modifyScope here
    obtain ⟨root, called⟩ := opens rfl
    exact ⟨here.mono (s.extends_modifyScope m' f), by rw [scope, root, names], fun _ => by rwa [scope]⟩
  · have scope : ((s.modifyScope m' f).registry.module m).scope = s.scopeOf m := by
      rw [State.modifyScope, Registry.module_modifyScope_of_ne f (Ne.symm same)]
      rfl
    refine ⟨here.mono (s.extends_modifyScope m' f), by rw [scope, names], fun isTarget => ?_⟩
    exact absurd (Option.some.inj isTarget) same

theorem loaded {M : Module} (here : s.HasModule m)
    (names : (s.scopeOf m).root.outline = (base.scopeOf m).root.outline) :
    Seals base m ⟨(s.load M).registry, some s.registry.next⟩ := by
  refine ⟨?_, ?_, fun isTarget => ?_⟩
  · rw [State.load, Registry.size_load]
    exact Nat.lt_succ_of_lt here
  · rw [State.load, Registry.module_load_of_lt here]
    exact names
  · rw [Option.mem_some_iff] at isTarget
    rw [← isTarget] at here
    exact absurd here (Nat.lt_irrefl _)

end ScopeWorld.Seals

/-! ## The discipline -/

open ScopeWorld in
/-- The discipline of a run of other modules: that of scopes, and the top level of the module has the names it had
in an earlier state.  Neither names nor blocks are open in the module but in calls. -/
def Discipline.sealed (base : State) (m : ModuleId) : Discipline where
  World := ScopeWorld
  Rel w _ s₁ s₂ := s₂ = s₁ ∧ w.Fits s₁ ∧ w.Seals base m ∧ base.Extends s₁
  Open w m' := m' ∈ w.target ∧ (m' = m → (w.registry.module m).scope.frames ≠ [])
  Blocks w m' := m' = m → (w.registry.module m).scope.frames ≠ []
  Local _ _ := True
  alike related := related.1 ▸ .refl _
  drop _ related := related
  structs related _ _ := by rw [related.1]
  blocksOfOpen opened := opened.2
  localOfBlocks _ := trivial
  step op _ _ _ _ opened related := by
    rcases related with ⟨rfl, fits, seals, later⟩
    exact ⟨rfl, fits.step fun m' isTarget => (opened m' isTarget).1, seals, later.trans (op.extends _)⟩
  call {w H s₁ s₂ m' names} wf here _ related := by
    rcases related with ⟨rfl, fits, seals, later⟩
    have there : (s₂.enter m' names).HasModule m' := here.mono (s₂.extends_modifyScope m' _)
    have seals' : Seals base m ⟨(s₂.enter m' names).registry, some m'⟩ :=
      .opened (Nat.lt_of_lt_of_le seals.here fits.size) (seals.outline_eq fits) fun _ => ⟨rfl, List.cons_ne_nil _ _⟩
    refine ⟨⟨(s₂.enter m' names).registry, some m'⟩, ⟨rfl, ?_⟩, ⟨rfl, fits_self ?_, seals', ?_⟩, ?_⟩
    · rintro rfl
      exact seals'.called rfl
    · rintro _ ⟨⟩
      exact there
    · exact later.trans (s₂.extends_modifyScope m' _)
    · rintro K _ t _ _ ⟨rfl, inside, -, later'⟩
      have left := inside.leave here fits
      exact ⟨left.1, left.1, rfl, left.2, seals, later'.trans (t.extends_modifyScope m' _)⟩
  block {w H s₁ s₂ m'} wf here called related := by
    rcases related with ⟨rfl, fits, seals, later⟩
    have there : (s₂.openBlock m').HasModule m' := here.mono (s₂.extends_modifyScope m' _)
    have seals' : Seals base m ⟨(s₂.openBlock m').registry, some m'⟩ := by
      refine .opened (Nat.lt_of_lt_of_le seals.here fits.size) (seals.outline_eq fits) fun same => ?_
      obtain ⟨frame, outer, active⟩ := List.exists_cons_of_ne_nil (fits.called seals.here (called same))
      rw [Scope.pushBlock, Scope.modifyCurrent, active]
      exact ⟨rfl, List.cons_ne_nil _ _⟩
    refine ⟨⟨(s₂.openBlock m').registry, some m'⟩, ⟨rfl, ?_⟩, ⟨rfl, fits_self ?_, seals', ?_⟩, ?_⟩
    · rintro rfl
      exact seals'.called rfl
    · rintro _ ⟨⟩
      exact there
    · exact later.trans (s₂.extends_modifyScope m' _)
    · rintro K _ t _ _ ⟨rfl, inside, -, later'⟩
      have left := inside.closeBlock here fits
      exact ⟨left.1, left.1, rfl, left.2, seals, later'.trans (t.extends_modifyScope m' _)⟩
  load {w H K s₁ s₂ M} wf fresh closed _ _ related := by
    rcases related with ⟨rfl, fits, seals, later⟩
    have seals' : Seals base m ⟨(s₂.load M).registry, some s₂.registry.next⟩ :=
      .loaded (Nat.lt_of_lt_of_le seals.here fits.size) (seals.outline_eq fits)
    refine ⟨⟨(s₂.load M).registry, some s₂.registry.next⟩, ⟨rfl, ?_⟩, ⟨rfl, fits_self ?_, seals', ?_⟩, ?_⟩
    · intro isNext
      exact seals'.called (congrArg some isNext)
    · rintro _ ⟨⟩
      exact State.hasModule_load s₂ M
    · exact later.trans (State.extends_load fresh)
    · rintro L _ t _ ⟨rfl, inside, -, later'⟩
      exact ⟨rfl, inside.unload closed fits, seals, later'⟩

/-- In a later state, a module has the names at its top level that it had. -/
structure State.Sealed (base : State) (m : ModuleId) (s : State) : Prop where
  later : base.Extends s
  names : (s.scopeOf m).root.outline = (base.scopeOf m).root.outline

theorem State.Sealed.refl (s : State) (m : ModuleId) : s.Sealed m s := ⟨.refl s, rfl⟩

theorem Discipline.sealed_watches (base : State) (m : ModuleId) :
    (Discipline.sealed base m).Watches fun s => s.WellFormed ∧ base.Sealed m s where
  single related := related.1
  ends holds := ⟨holds.wf, holds.rel.2.2.2, holds.rel.2.2.1.outline_eq holds.rel.2.1⟩

/-- The discipline can be begun in another module. -/
theorem State.Sealed.begins {base s : State} {m m₁ : ModuleId} (holds : base.Sealed m s) (wf : s.WellFormed)
    (here : base.HasModule m) (there : s.HasModule m₁) (other : ¬ s.Stands m₁ m) :
    ∃ w, (Discipline.sealed base m).OpenFor w s m₁ ∧ (Discipline.sealed base m).Holds w 0 s s := by
  obtain ⟨m', stands, there'⟩ := wf.stands there
  have apart : m' ≠ m := fun same => other (same ▸ stands)
  refine ⟨⟨s.registry, some m'⟩, ⟨there, m', stands, rfl, fun same => absurd same apart⟩, wf, s.holding_zero,
    rfl, ScopeWorld.fits_self ?_, ⟨here.mono holds.later, holds.names, fun isTarget => ?_⟩, holds.later⟩
  · rintro _ ⟨⟩
    exact there'
  · exact absurd (Option.some.inj isTarget) apart

/-! ## Runs of other modules -/

/-- From a state on, runs of other modules than `m` can be in a state. -/
inductive Abroad (cfg : Config) (m : ModuleId) (base : State) : State → Prop where
  | start : Abroad cfg m base base
  | register {s : State} {M : Module} : Abroad cfg m base s → M.scope = .empty →
    s.registry.find? M.key = none → Abroad cfg m base (s.load M)
  | output {s : State} (lines : Array Line) : Abroad cfg m base s → Abroad cfg m base { s with output := lines }
  | exprEnd {s : State} (fuel : Nat) {ctx : Context} (e : Expr) : Abroad cfg m base s → s.HasModule ctx.module →
    ¬ s.Stands ctx.module m → Abroad cfg m base (evalExpr cfg fuel ctx e s).2
  | stmtEnd {s : State} (fuel : Nat) {ctx : Context} (stmt : Stmt) : Abroad cfg m base s →
    s.HasModule ctx.module → ¬ s.Stands ctx.module m → Abroad cfg m base (evalStmt cfg fuel ctx stmt s).2
  | exprPart {s t : State} {fuel : Nat} {ctx : Context} {e : Expr} : Abroad cfg m base s →
    s.HasModule ctx.module → ¬ s.Stands ctx.module m →
    Visits (fun ev => Eval.expr ev cfg ctx e) (evaluators cfg fuel) s t → Abroad cfg m base t
  | stmtPart {s t : State} {fuel turns : Nat} {ctx : Context} {stmt : Stmt} : Abroad cfg m base s →
    s.HasModule ctx.module → ¬ s.Stands ctx.module m →
    Visits (fun ev => Eval.stmt ev cfg turns ctx stmt) (evaluators cfg fuel) s t → Abroad cfg m base t

theorem Abroad.reachable {cfg : Config} {m : ModuleId} {base s : State} (abroad : Abroad cfg m base s)
    (reachable : Reachable cfg base) : Reachable cfg s := by
  induction abroad with
  | start => exact reachable
  | register _ empty _ ih => exact ih.register empty
  | output lines _ ih => exact ih.output lines
  | exprEnd fuel e _ here _ ih => exact ih.exprEnd fuel e here
  | stmtEnd fuel stmt _ here _ ih => exact ih.stmtEnd fuel stmt here
  | exprPart _ here _ visited ih => exact ih.exprPart here visited
  | stmtPart _ here _ visited ih => exact ih.stmtPart here visited

/-- While other modules are run, the top level of a module keeps the names it has. -/
theorem Abroad.sealed {cfg : Config} {m : ModuleId} {base s : State} (abroad : Abroad cfg m base s)
    (wf : base.WellFormed) (here : base.HasModule m) : base.Sealed m s := by
  have watches := Discipline.sealed_watches base m
  suffices both : s.WellFormed ∧ base.Sealed m s from both.2
  induction abroad with
  | start => exact ⟨wf, .refl base m⟩
  | @register s M _ empty fresh ih =>
    refine ⟨ih.1.register empty, ih.2.later.trans (State.extends_load fresh), ?_⟩
    rw [← ih.2.names, State.scopeOf, State.load, Registry.module_load_of_lt (here.mono ih.2.later)]
    rfl
  | output lines _ ih => exact ⟨ih.1.write lines, { ih.2.later with }, ih.2.names⟩
  | exprEnd fuel e _ there other ih =>
    obtain ⟨w, opened, begun⟩ := ih.2.begins ih.1 here there other
    exact watches.exprEnd opened begun fuel e
  | stmtEnd fuel stmt _ there other ih =>
    obtain ⟨w, opened, begun⟩ := ih.2.begins ih.1 here there other
    exact watches.stmtEnd opened begun fuel stmt
  | exprPart _ there other visited ih =>
    obtain ⟨w, opened, begun⟩ := ih.2.begins ih.1 here there other
    exact watches.exprPart opened begun visited
  | stmtPart _ there other visited ih =>
    obtain ⟨w, opened, begun⟩ := ih.2.begins ih.1 here there other
    exact watches.stmtPart opened begun visited

end Shiba

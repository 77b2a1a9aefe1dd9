import Shiba.Proofs.Lockstep.Scoped
import Shiba.Run

/-!
# Reachable states

A state is reachable when a run of some program can be in it: at its start, between two top-level
statements, or when an expression or a statement somewhere inside begins or has ended.

What lies inside a construct is handed to evaluators, so a state inside a run is one that a construct
hands to them.  `Visits` says this without looking at how a construct is evaluated: the outcome may
change when the evaluators answer otherwise in that state.

* `Discipline.stable` is the discipline of a property that no step loses, and `Discipline.lasting` that of one
  that no later state loses.
* `Reachable.upheld` is the induction: what a discipline upholds along every run holds of every
  reachable state.
* `Reachable.program` says that no run is left out: however a program ends, the state is reachable.
-/

namespace Shiba

/-! ## States inside a run -/

/-- Evaluators that answer alike in all states but one. -/
structure Evaluators.AlikeBut (t : State) (ev ev' : Evaluators) : Prop where
  expr : ∀ ctx e s, s ≠ t → ev'.expr ctx e s = ev.expr ctx e s
  stmt : ∀ ctx stmt s, s ≠ t → ev'.stmt ctx stmt s = ev.stmt ctx stmt s

/-- Run from `s`, a construct hands the state `t` to the evaluators of its parts. -/
def Visits {α : Type} (construct : Evaluators → Eval α) (ev : Evaluators) (s t : State) : Prop :=
  ∃ ev', ev.AlikeBut t ev' ∧ construct ev' s ≠ construct ev s

/-- The states that runs can be in. -/
inductive Reachable (cfg : Config) : State → Prop where
  | initial : Reachable cfg .initial
  /-- A module is registered, also in place of one with the same key. -/
  | register {s : State} {M : Module} : Reachable cfg s → M.scope = .empty →
    Reachable cfg (s.load M)
  /-- Lines are written or taken away between statements. -/
  | output {s : State} (lines : Array Line) : Reachable cfg s →
    Reachable cfg { s with output := lines }
  | exprEnd {s : State} (fuel : Nat) {ctx : Context} (e : Expr) : Reachable cfg s →
    s.HasModule ctx.module → Reachable cfg (evalExpr cfg fuel ctx e s).2
  | stmtEnd {s : State} (fuel : Nat) {ctx : Context} (stmt : Stmt) : Reachable cfg s →
    s.HasModule ctx.module → Reachable cfg (evalStmt cfg fuel ctx stmt s).2
  | exprPart {s t : State} {fuel : Nat} {ctx : Context} {e : Expr} : Reachable cfg s →
    s.HasModule ctx.module →
    Visits (fun ev => Eval.expr ev cfg ctx e) (evaluators cfg fuel) s t → Reachable cfg t
  | stmtPart {s t : State} {fuel turns : Nat} {ctx : Context} {stmt : Stmt} : Reachable cfg s →
    s.HasModule ctx.module →
    Visits (fun ev => Eval.stmt ev cfg turns ctx stmt) (evaluators cfg fuel) s t → Reachable cfg t

/-! ## What a discipline upholds -/

namespace Discipline

variable {D : Discipline} {P : State → Prop} {cfg : Config} {s t : State} {α : Type}

/-- A discipline is about one run, and a property holds wherever the discipline does. -/
structure Watches (D : Discipline) (P : State → Prop) : Prop where
  single : ∀ {w H s₁ s₂}, D.Rel w H s₁ s₂ → s₂ = s₁
  ends : ∀ {w H s}, D.Holds w H s s → P s

/-- A discipline about one run upholds a property: where the property holds it can be begun, and the
property holds wherever the discipline does. -/
structure Upholds (D : Discipline) (P : State → Prop) : Prop extends D.Watches P where
  wf : ∀ {s}, P s → s.WellFormed
  begins : ∀ {s m}, P s → s.HasModule m → ∃ w, D.Open w m ∧ D.Holds w 0 s s

/-- A run that ends alike with itself ends in a state with the property, and with no failure of the
machine. -/
theorem Watches.of_agree {w : D.World} {a : Eval α} {Q : α → State → State → Prop}
    (up : D.Watches P) (ends : D.Agree w s s a a Q)
    (post : ∀ x t₁ t₂, Q x t₁ t₂ → ∃ H, D.Holds w H t₁ t₂) :
    P (a s).2 ∧ ∀ stop, (a s).1 = .error stop → ¬ stop.Internal := by
  rcases ends with ⟨result, t₁, t₂, run, -, -, after⟩
  rw [run]
  cases result with
  | ok x =>
    obtain ⟨H, last⟩ := post x t₁ t₂ after
    cases up.single last.rel
    refine ⟨up.ends last, ?_⟩
    intro stop given
    cases given
  | error stop =>
    cases up.single after.1.rel
    refine ⟨up.ends after.1, ?_⟩
    intro stop' given
    cases given
    exact after.2

/-- Evaluators that differ from those of the machine only where the discipline cannot hold keep its
contract with them. -/
theorem Watches.contract_alikeBut {fuel : Nat} {ev' : Evaluators} (up : D.Watches P)
    (alike : (evaluators cfg fuel).AlikeBut t ev') (never : ∀ w H, ¬ D.Holds w H t t) :
    D.Contract (evaluators cfg fuel) ev' := by
  have contract := D.contract cfg fuel
  constructor
  · intro w H s₁ s₂ ctx e holds here
    cases up.single holds.rel
    have other : s₁ ≠ t := fun same => never w H (same ▸ holds)
    have ends := contract.expr ctx e holds here
    rw [Agree] at ends ⊢
    rw [alike.expr ctx e s₁ other]
    exact ends
  · intro w H s₁ s₂ ctx stmt holds admitted
    cases up.single holds.rel
    have other : s₁ ≠ t := fun same => never w H (same ▸ holds)
    have ends := contract.stmt ctx stmt holds admitted
    rw [Agree] at ends ⊢
    rw [alike.stmt ctx stmt s₁ other]
    exact ends

/-- A state that a construct hands to its parts has the property. -/
theorem Watches.visited {fuel : Nat} {w : D.World} {construct : Evaluators → Eval α}
    {Q : α → State → State → Prop} (up : D.Watches P)
    (ends : ∀ {ev'}, D.Contract (evaluators cfg fuel) ev' →
      D.Agree w s s (construct (evaluators cfg fuel)) (construct ev') Q)
    (post : ∀ x t₁ t₂, Q x t₁ t₂ → ∃ H, D.Holds w H t₁ t₂)
    (visited : Visits construct (evaluators cfg fuel) s t) : P t := by
  rcases visited with ⟨ev', alike, differ⟩
  by_contra missing
  -- were the discipline never to hold in `t`, no outcome could depend on it
  have never : ∀ w H, ¬ D.Holds w H t t := fun w H holds => missing (up.ends holds)
  obtain ⟨result, t₁, t₂, run, run', -, after⟩ := ends (up.contract_alikeBut alike never)
  have same : t₂ = t₁ := by
    cases result with
    | ok x =>
      obtain ⟨H, last⟩ := post x t₁ t₂ after
      exact up.single last.rel
    | error stop => exact up.single after.1.rel
  exact differ (by rw [run, run', same])

section Evaluation

variable {w : D.World} {ctx : Context}

theorem Watches.exprEnd (up : D.Watches P) (opened : D.OpenFor w s ctx.module) (begun : D.Holds w 0 s s)
    (fuel : Nat) (e : Expr) : P (evalExpr cfg fuel ctx e s).2 :=
  (up.of_agree (agree_evalExpr _ begun opened.here cfg fuel e) fun _ _ _ after => ⟨0, after.1⟩).1

theorem Watches.stmtEnd (up : D.Watches P) (opened : D.OpenFor w s ctx.module) (begun : D.Holds w 0 s s)
    (fuel : Nat) (stmt : Stmt) : P (evalStmt cfg fuel ctx stmt s).2 :=
  (up.of_agree (agree_evalStmt _ begun cfg fuel (opened.admits stmt)) fun _ _ _ after => ⟨0, after.1⟩).1

theorem Watches.exprPart {fuel : Nat} {e : Expr} (up : D.Watches P) (opened : D.OpenFor w s ctx.module)
    (begun : D.Holds w 0 s s)
    (visited : Visits (fun ev => Eval.expr ev cfg ctx e) (evaluators cfg fuel) s t) : P t :=
  up.visited (fun contract => Agree.expr contract begun opened.here _) (fun _ _ _ after => ⟨0, after.1⟩) visited

theorem Watches.stmtPart {fuel turns : Nat} {stmt : Stmt} (up : D.Watches P)
    (opened : D.OpenFor w s ctx.module) (begun : D.Holds w 0 s s)
    (visited : Visits (fun ev => Eval.stmt ev cfg turns ctx stmt) (evaluators cfg fuel) s t) : P t :=
  up.visited (fun contract => Agree.stmt contract begun _ _ (opened.admits _)) (fun _ _ _ after => ⟨0, after.1⟩)
    visited

theorem Upholds.beginsFor {m : ModuleId} (up : D.Upholds P) (holds : P s) (here : s.HasModule m) :
    ∃ w, D.OpenFor w s m ∧ D.Holds w 0 s s := by
  obtain ⟨m', stands, there⟩ := (up.wf holds).stands here
  obtain ⟨w, isOpen, begun⟩ := up.begins holds there
  exact ⟨w, ⟨here, m', stands, isOpen⟩, begun⟩

theorem Upholds.exprEnd (up : D.Upholds P) (holds : P s) (here : s.HasModule ctx.module)
    (fuel : Nat) (e : Expr) : P (evalExpr cfg fuel ctx e s).2 := by
  obtain ⟨w, opened, begun⟩ := up.beginsFor holds here
  exact up.toWatches.exprEnd opened begun fuel e

theorem Upholds.stmtEnd (up : D.Upholds P) (holds : P s) (here : s.HasModule ctx.module)
    (fuel : Nat) (stmt : Stmt) : P (evalStmt cfg fuel ctx stmt s).2 := by
  obtain ⟨w, opened, begun⟩ := up.beginsFor holds here
  exact up.toWatches.stmtEnd opened begun fuel stmt

theorem Upholds.exprPart {fuel : Nat} {e : Expr} (up : D.Upholds P) (holds : P s)
    (here : s.HasModule ctx.module)
    (visited : Visits (fun ev => Eval.expr ev cfg ctx e) (evaluators cfg fuel) s t) : P t := by
  obtain ⟨w, opened, begun⟩ := up.beginsFor holds here
  exact up.toWatches.exprPart opened begun visited

theorem Upholds.stmtPart {fuel turns : Nat} {stmt : Stmt} (up : D.Upholds P) (holds : P s)
    (here : s.HasModule ctx.module)
    (visited : Visits (fun ev => Eval.stmt ev cfg turns ctx stmt) (evaluators cfg fuel) s t) :
    P t := by
  obtain ⟨w, opened, begun⟩ := up.beginsFor holds here
  exact up.toWatches.stmtPart opened begun visited

end Evaluation

end Discipline

/-- What a discipline upholds holds of every reachable state, if it holds at the start. -/
theorem Reachable.upheld {D : Discipline} {P : State → Prop} {cfg : Config} {s : State}
    (up : D.Upholds P) (initial : P .initial)
    (register : ∀ {s M}, P s → M.scope = .empty → P (s.load M))
    (output : ∀ {s} (lines : Array Line), P s → P { s with output := lines })
    (reachable : Reachable cfg s) : P s := by
  induction reachable with
  | initial => exact initial
  | register _ empty ih => exact register ih empty
  | output lines _ ih => exact output lines ih
  | exprEnd fuel e _ here ih => exact up.exprEnd ih here fuel e
  | stmtEnd fuel stmt _ here ih => exact up.stmtEnd ih here fuel stmt
  | exprPart _ here visited ih => exact up.exprPart ih here visited
  | stmtPart _ here visited ih => exact up.stmtPart ih here visited

/-! ## Reachable states are well formed -/

namespace State

theorem wellFormed_initial : State.initial.WellFormed where
  values v member := by
    simp only [initial, standardBuiltins, List.map_cons, List.map_nil, List.mem_toArray,
      List.mem_cons, List.not_mem_nil, or_false] at member
    rcases member with rfl | rfl | rfl | rfl | rfl | rfl | rfl | rfl <;> trivial
  lists _ member := by simp [initial, Heap.empty] at member
  dicts _ member := by simp [initial, Heap.empty] at member
  instances _ member := by simp [initial, Heap.empty] at member
  functions _ member := by simp [initial, Heap.empty] at member
  structs _ member := by simp [initial, Heap.empty] at member
  builtins := by decide
  builtinBoxes := by decide
  scopes _ member := by simp [initial, Registry.empty] at member
  found _ _ found := by cases found
  registered _ here := by simp [HasModule, initial, Registry.empty] at here

/-- A module without names can be registered, also in place of one with the same key. -/
theorem WellFormed.register {s : State} {M : Module} (wf : s.WellFormed)
    (empty : M.scope = .empty) : (s.load M).WellFormed := by
  have objs : M.scope.objs = [] := by rw [empty]; rfl
  have structs : M.scope.structs = [] := by rw [empty]; rfl
  cases known : s.registry.find? M.key with
  | none => exact wf.load known (by rw [objs]; exact nofun) structs
  | some m =>
    -- the module is added first, which leaves the old one under the key, and then it takes the key
    let added : State :=
      { s with registry := { s.registry with modules := s.registry.modules.push M } }
    have later : s.Extends added :=
      { Extends.refl s with
        modules := by simp [added]
        keys := fun m' here => by rw [Registry.module_push_of_lt here] }
    have kept : added.WellFormed := by
      apply wf.adds
      apply Adds.mk later
      case scopes =>
        intro M' member
        rcases Array.mem_push.1 member with old | rfl
        · exact .inl old
        · exact .inr ⟨by rw [objs]; exact nofun, by rw [structs]; exact nofun⟩
      case registered =>
        intro m' there
        by_cases old : s.HasModule m'
        · exact .inl old
        · have isNext := eq_next_of_hasModule_load (M := M)
            (by simpa [HasModule, State.load, added] using there) old
          refine .inr ⟨m, ?_⟩
          rw [isNext, Registry.module_push_self]
          exact known
      all_goals intros; left; assumption
    refine { kept with instances := ?_, found := ?_, registered := ?_ }
    · exact fun i member => { kept.instances i member with }
    · intro key m' found
      rw [State.load, Registry.find?_load] at found
      split at found
      · next same =>
        cases found
        refine ⟨hasModule_load s M, ?_⟩
        rw [State.load, Registry.module_load_next, same]
      · exact kept.found key m' found
    · intro m' there
      rw [State.load, Registry.find?_load]
      split
      · exact ⟨_, rfl⟩
      · exact kept.registered m' there

end State

/-- Being well formed is what the discipline of scopes upholds. -/
theorem Discipline.scoped_upholds : Discipline.scoped.Upholds State.WellFormed where
  single related := related.1
  wf wf := wf
  begins {s m} wf here := by
    refine ⟨⟨s.registry, some m⟩, rfl, wf, s.holding_zero, rfl, ScopeWorld.fits_self ?_⟩
    intro m' given
    cases given
    exact here
  ends holds := holds.wf

/-- A property of states that no step of a run takes away. -/
structure State.Stable (P : State → Prop) : Prop where
  step : ∀ {s : State} {op : Operation} {H K : Multiset BoxId}, op.Allowed H s K → P s → P (op.apply s)
  modifyScope : ∀ {s : State} (m : ModuleId) (f : Scope BoxId StructId → Scope BoxId StructId), P s →
    P (s.modifyScope m f)
  load : ∀ {s : State} {M : Module}, s.registry.find? M.key = none → P s → P (s.load M)

/-- The discipline of a property that is never lost: that of scopes, and the property. -/
def Discipline.stable (P : State → Prop) (keeps : State.Stable P) : Discipline where
  World := Discipline.scoped.World
  Rel w H s₁ s₂ := Discipline.scoped.Rel w H s₁ s₂ ∧ P s₁
  Open w m := Discipline.scoped.Open w m
  Blocks w m := Discipline.scoped.Blocks w m
  Local w m := Discipline.scoped.Local w m
  alike related := Discipline.scoped.alike related.1
  drop fewer related := ⟨Discipline.scoped.drop fewer related.1, related.2⟩
  structs related isLocal := Discipline.scoped.structs related.1 isLocal
  blocksOfOpen opened := Discipline.scoped.blocksOfOpen opened
  localOfBlocks blocks := Discipline.scoped.localOfBlocks blocks
  step {w H K s₁ s₂} op wf held allowed stored opened related :=
    ⟨Discipline.scoped.step op wf held allowed stored opened related.1, keeps.step allowed related.2⟩
  call {w H s₁ s₂ m names} wf here received related := by
    obtain ⟨w', opened, entered, leave⟩ := Discipline.scoped.call wf here received related.1
    refine ⟨w', opened, ⟨entered, keeps.modifyScope m _ related.2⟩, ?_⟩
    intro K t₁ t₂ wf' there inside
    obtain ⟨active₁, active₂, left⟩ := leave wf' there inside.1
    exact ⟨active₁, active₂, left, keeps.modifyScope m _ inside.2⟩
  block {w H s₁ s₂ m} wf here blocks related := by
    obtain ⟨w', opened, entered, leave⟩ := Discipline.scoped.block wf here blocks related.1
    refine ⟨w', opened, ⟨entered, keeps.modifyScope m _ related.2⟩, ?_⟩
    intro K t₁ t₂ wf' there inside
    obtain ⟨active₁, active₂, left⟩ := leave wf' there inside.1
    exact ⟨active₁, active₂, left, keeps.modifyScope m _ inside.2⟩
  load {w H K s₁ s₂ M} wf fresh closed structs given related := by
    obtain ⟨w', opened, entered, leave⟩ :=
      Discipline.scoped.load wf fresh closed structs given related.1
    refine ⟨w', opened, ⟨entered, keeps.load fresh related.2⟩, ?_⟩
    intro L t₁ t₂ wf' inside
    exact ⟨leave wf' inside.1, inside.2⟩

theorem Discipline.Upholds.stable {P : State → Prop} (keeps : State.Stable P) :
    (Discipline.stable P keeps).Upholds fun s => s.WellFormed ∧ P s where
  single related := related.1.1
  wf holds := holds.1
  begins {s m} holds here := by
    obtain ⟨w, opened, begun⟩ := Discipline.scoped_upholds.begins holds.1 here
    exact ⟨w, opened, holds.1, State.holding_zero _, begun.rel, holds.2⟩
  ends holds := ⟨holds.wf, holds.rel.2⟩

theorem State.Stable.lasting {P : State → Prop} (lasts : ∀ {s t : State}, s.Extends t → P s → P t) :
    State.Stable P where
  step {s op _ _} _ := lasts (op.extends s)
  modifyScope {s} m f := lasts (s.extends_modifyScope m f)
  load fresh := lasts (State.extends_load fresh)

/-- The discipline of a property that lasts: that of scopes, and the property. -/
def Discipline.lasting (P : State → Prop) (lasts : ∀ {s t : State}, s.Extends t → P s → P t) :
    Discipline :=
  .stable P (.lasting lasts)

theorem Discipline.Upholds.lasting {P : State → Prop}
    (lasts : ∀ {s t : State}, s.Extends t → P s → P t) :
    (Discipline.lasting P lasts).Upholds fun s => s.WellFormed ∧ P s :=
  .stable (.lasting lasts)

theorem Reachable.wellFormed {cfg : Config} {s : State} (reachable : Reachable cfg s) :
    s.WellFormed := by
  apply reachable.upheld Discipline.scoped_upholds State.wellFormed_initial
  · exact fun wf empty => wf.register empty
  · exact fun lines wf => wf.write lines

/-! ## What a program reaches -/

/-- A property of states that lasts through the top level of a module: neither the lines written
between statements nor the statements themselves take it away. -/
structure Lasting (cfg : Config) (m : ModuleId) (R : State → Prop) : Prop where
  output : ∀ {s : State} (lines : Array Line), R s → R { s with output := lines }
  stmtEnd : ∀ {s : State} (fuel calls : Nat) (stmt : Stmt), R s →
    R (evalStmt cfg fuel ⟨m, calls⟩ stmt s).2

namespace Lasting

open Eval

variable {cfg : Config} {s : State} {m : ModuleId} {R : State → Prop} {α β : Type}

theorem bind {a : Eval α} {f : α → Eval β} (first : R (a s).2)
    (rest : ∀ x t, R t → R (f x t).2) : R ((a >>= f) s).2 := by
  rcases run : a s with ⟨result, t⟩
  rw [run] at first
  cases result with
  | ok x =>
    rw [bind_ok run]
    exact rest x t first
  | error stop =>
    rw [bind_error run]
    exact first

/-- Tracing writes a line at most. -/
theorem trace {text : Eval String} {line : String} (lasting : Lasting cfg m R) (holds : R s)
    (reads : text s = (.ok line, s)) (level : Int) : R (Eval.trace cfg level text s).2 := by
  unfold Eval.trace
  split
  · rw [bind_ok reads]
    exact lasting.output _ holds
  · exact holds

theorem traceStatement (lasting : Lasting cfg m R) (holds : R s) (stmt : Stmt) :
    R (Eval.traceStatement cfg m stmt s).2 := by
  unfold Eval.traceStatement
  apply lasting.trace holds
  rfl

theorem checkTopLevel (holds : R s) (stmt : Stmt) (flow : Flow) :
    R (Eval.checkTopLevel m stmt flow s).2 := by
  unfold Eval.checkTopLevel
  cases flow.jump? with
  | none => exact holds
  | some jump => exact holds

theorem checkEnding (holds : R s) (ending : Ending) : R (Eval.checkEnding m ending s).2 := by
  cases ending with
  | complete position => exact holds
  | failed failure => exact holds

theorem statement (lasting : Lasting cfg m R) (holds : R s) (stmt : Stmt) :
    R (Run.statement cfg m stmt s).2 := by
  apply bind (lasting.traceStatement holds stmt)
  intro _ t traced
  apply bind (a := observe (evalStmt cfg cfg.fuel ⟨m, cfg.callLimit⟩ stmt))
    (lasting.stmtEnd cfg.fuel cfg.callLimit stmt traced)
  intro result u ended
  cases result with
  | ok flow =>
    apply bind (checkTopLevel ended stmt flow)
    intro _ v checked
    exact checked
  | error stop =>
    cases stop with
    | exit | tooDeep | crash | outOfFuel | error => exact ended

theorem statements (lasting : Lasting cfg m R) (block : Block) (holds : R s) :
    R (Run.statements cfg m block s).2 := by
  induction block generalizing s with
  | nil => exact holds
  | cons stmt block ih =>
    apply bind (lasting.statement holds stmt)
    intro outcome t ended
    cases outcome with
    | exit code => exact ended
    | done | value => exact ih ended

/-- The top level of a module that is imported. -/
theorem runTopLevel (lasting : Lasting cfg m R) (fuel calls : Nat) (block : Block) (holds : R s) :
    R (Eval.runTopLevel (evaluators cfg fuel) cfg ⟨m, calls⟩ block s).2 := by
  induction block generalizing s with
  | nil => exact holds
  | cons stmt block ih =>
    refine bind (lasting.traceStatement holds stmt) fun _ t traced => ?_
    refine bind (lasting.stmtEnd fuel calls stmt traced) fun flow u ended => ?_
    exact bind (checkTopLevel ended stmt flow) fun _ v checked => ih checked

/-- What holds when a main module has been registered, and lasts through its top level, holds when
the program has ended, however it ends. -/
theorem program {M : Module} (lasting : Lasting cfg s.registry.next R) (loaded : R (s.load M)) :
    R (Run.program cfg M s).2 := by
  rw [Run.program, bind_ok (Discipline.Agree.run_addModule s M)]
  apply bind (lasting.trace loaded rfl 1)
  intro _ t traced
  apply bind (lasting.statements _ traced)
  intro code u ended
  cases code with
  | some code => exact ended
  | none =>
    apply bind (checkEnding ended _)
    intro _ v checked
    exact checked

end Lasting

/-- A statement leaves the modules where they are. -/
theorem State.WellFormed.hasModule_evalStmt {cfg : Config} {s : State} {m m' : ModuleId}
    (wf : s.WellFormed) (here : s.HasModule m) (fuel calls : Nat) (stmt : Stmt)
    (there : s.HasModule m') : (evalStmt cfg fuel ⟨m, calls⟩ stmt s).2.HasModule m' := by
  obtain ⟨w, opened, holds⟩ := Discipline.scoped_upholds.beginsFor wf here
  obtain ⟨result, t₁, t₂, run, -, grew, -⟩ :=
    Discipline.agree_evalStmt ⟨m, calls⟩ holds cfg fuel (opened.admits stmt)
  rw [run]
  exact there.mono grew

/-- A reachable state in which a module can be run. -/
structure Running (cfg : Config) (m : ModuleId) (s : State) : Prop where
  reachable : Reachable cfg s
  here : s.HasModule m

namespace Running

variable {cfg : Config} {s : State} {m : ModuleId}

theorem evalStmt (running : Running cfg m s) (fuel calls : Nat) (stmt : Stmt) :
    Running cfg m (Shiba.evalStmt cfg fuel ⟨m, calls⟩ stmt s).2 :=
  ⟨running.reachable.stmtEnd fuel stmt running.here,
    running.reachable.wellFormed.hasModule_evalStmt running.here fuel calls stmt running.here⟩

theorem lasting : Lasting cfg m (Running cfg m) where
  output lines running := ⟨running.reachable.output lines, running.here⟩
  stmtEnd fuel calls stmt running := running.evalStmt fuel calls stmt

end Running

/-- A program that is run in a reachable state ends in one, however it ends. -/
theorem Reachable.program {cfg : Config} {s : State} {M : Module} (reachable : Reachable cfg s)
    (empty : M.scope = .empty) : Reachable cfg (Run.program cfg M s).2 := by
  have added : Running cfg s.registry.next (s.load M) :=
    ⟨reachable.register empty, State.hasModule_load s M⟩
  exact (Running.lasting.program added).reachable

end Shiba

import Shiba.Proofs.Blame.Jumps
import Shiba.Proofs.ComputingAssignment
import Shiba.Proofs.Lockstep.Padded
import Shiba.Proofs.MoreFuel

/-!
# A branch more is a conditional in the else block

A conditional tries its branches in one block of its own.  A conditional that stands alone in the else block
of another one opens a second block inside the first one, so that everything from its condition on runs with
a level more.  Nothing is bound in the first block meanwhile, so the two runs differ in an empty level, which
no program can tell (`Discipline.padded`).

* `Eval.inBlock_thenElse`: the further branches may be tried in a block of their own.
* `Eval.runBlock_conditional`: a conditional that is a block alone is its branches in a block of their own.
* `evalStmt_conditional_nested`: the statement.  The nested form takes one unit of fuel more at most.
-/

namespace Shiba

/-! ## A block that is opened inside another one -/

namespace State

/-- The place outside of a block that is opened in a module. -/
def spotAt (s : State) (m : ModuleId) : Spot where
  module := m
  call := (s.scopeOf m).functionDepth
  objs := (s.scopeOf m).current.objs.depth
  structs := (s.scopeOf m).current.structs.depth

variable {s t u : State} {m : ModuleId}

theorem closeBlock_openBlock (s : State) (m : ModuleId) : (s.openBlock m).closeBlock m = s := by
  have same : (s.registry.modifyScope m Scope.pushBlock).modifyScope m Scope.dropBlock = s.registry := by
    rw [Registry.modifyScope_modifyScope]
    simp only [Scope.dropBlock_pushBlock, Registry.modifyScope_id]
  exact congrArg (fun registry => { s with registry }) same

/-- A second block is a level more outside of the innermost one. -/
theorem openBlock_eq_pad (opened : u.scopeOf m = (s.scopeOf m).pushBlock) :
    u.openBlock m = u.pad (s.spotAt m) := by
  have same : Scope.pushBlock (u.scopeOf m) =
      (u.scopeOf m).pad (s.spotAt m).call (s.spotAt m).objs (s.spotAt m).structs := by
    rw [opened]
    exact Scope.pushBlock_pushBlock (s.scopeOf m)
  exact congrArg (fun registry => { u with registry }) (Registry.modifyScope_congr same)

/-- Closing the inner block of two leaves the outer one without names. -/
theorem closeBlock_pad (grown : (s.scopeOf m).pushBlock.Grows (t.scopeOf m)) :
    (t.pad (s.spotAt m)).closeBlock m = (t.closeBlock m).openBlock m := by
  have same :
      (t.registry.modifyScope m (·.pad (s.spotAt m).call (s.spotAt m).objs (s.spotAt m).structs)).modifyScope m
        Scope.dropBlock = (t.registry.modifyScope m Scope.dropBlock).modifyScope m Scope.pushBlock := by
    rw [Registry.modifyScope_modifyScope, Registry.modifyScope_modifyScope]
    exact Registry.modifyScope_congr grown.dropBlock_pad
  exact congrArg (fun registry => { t with registry }) same

end State

namespace Eval

variable {cfg : Config} {ev : Evaluators} {ctx : Context} {s t : State} {m m' : ModuleId}
  {p : Position} {fuel calls : Nat} {e : Expr} {block : Block} {otherwise : Option Block}
  {branches : List (Expr × Block)}

/-! ## Errors with a place -/

namespace Placed

variable {α : Type}

theorem get : Placed (get : Eval State) := by
  intro s stop t run
  cases run

theorem read (b : BoxId) : Placed (read b) := bind get fun _ => pure _

theorem canonical (cfg : Config) (b : BoxId) : Placed (canonical cfg b) := by
  refine bind (read b) fun v => ?_
  rw [HeapM.bounded, onHeap_get_bind]
  refine bind get fun s => ?_
  split
  · rw [onHeap_pure]
    exact pure _
  · rw [onHeap_throw]
    exact throw fun _ => rfl

theorem trace {text : Eval String} (placed : Placed text) (cfg : Config) (level : Int) :
    Placed (trace cfg level text) := by
  rw [Eval.trace]
  split
  · refine bind placed fun _ => ?_
    intro s stop t run
    cases run
  · exact pure _

theorem condition (cfg : Config) (fuel : Nat) (ctx : Context) (what : String) (e : Expr) :
    Placed (condition (evaluators cfg fuel) cfg ctx what e) := by
  refine bind (expr cfg fuel ctx e) fun b => bind get fun s => bind (read b) fun v => ?_
  exact bind (trace (bind (canonical cfg b) fun _ => pure _) cfg 3) fun _ => pure _

theorem runBranches (cfg : Config) (fuel : Nat) (ctx : Context) (otherwise : Option Block)
    (branches : List (Expr × Block)) :
    Placed (runBranches (evaluators cfg fuel) cfg ctx otherwise branches) := by
  induction branches with
  | nil =>
    cases otherwise with
    | none => exact pure _
    | some block => exact runBlock cfg fuel ctx block
  | cons branch rest ih =>
    refine bind (condition cfg fuel ctx "if" branch.1) fun holds => ?_
    split
    · exact runBlock cfg fuel ctx branch.2
    · exact ih

end Placed

/-! ## Flows of blocks -/

/-- A block ends by itself or with a jump. -/
def EndsBlock (flow : Flow) : Prop := flow = .done ∨ flow.jump?.isSome

theorem answers_runBlock (run : Stmt → Eval Flow) (block : Block) : (runBlock run block).Answers EndsBlock := by
  induction block with
  | nil => exact .pure (.inl rfl)
  | cons code block ih =>
    refine .after fun flow => ?_
    split
    · next jumps => exact .pure (.inr jumps)
    · exact ih

theorem answers_runBranches_block (ev : Evaluators) (cfg : Config) (ctx : Context) (otherwise : Option Block)
    (branches : List (Expr × Block)) : (runBranches ev cfg ctx otherwise branches).Answers EndsBlock := by
  induction branches with
  | nil =>
    cases otherwise with
    | none => exact .pure (.inl rfl)
    | some block => exact answers_runBlock _ block
  | cons branch rest ih =>
    refine .after fun holds => ?_
    split
    · exact answers_runBlock _ branch.2
    · exact ih

/-- A statement that ends as blocks do is a block alone. -/
theorem runBlock_singleton {run : Stmt → Eval Flow} {code : Stmt} (ends : (run code).Answers EndsBlock) :
    runBlock run [code] = run code := by
  funext s
  rcases ran : run code s with ⟨stop | flow, t⟩
  · exact bind_error ran
  · refine (bind_ok ran).trans ?_
    rcases ends s flow t ran with rfl | jumps
    · rfl
    · rw [if_pos jumps]
      rfl

/-- A block of its own adds no error to a step but failures of the machine. -/
theorem Placed.inBlock {a : Eval Flow} {stop : Stop} (placed : Placed a)
    (run : inBlock m a s = (.error stop, t)) : stop.Internal ∨ ∀ l, stop.locate l = stop := by
  have stopped := congrArg Prod.fst run
  rw [Eval.inBlock] at stopped
  cases found : s.registry.resolve m with
  | error failure =>
    have failed : resolve m s = (.error (.ofCause (.invariant failure)), s) := by
      rw [resolve, bind_ok (run_get s), found]
      rfl
    rw [bind_error failed] at stopped
    cases stopped
    exact .inl ⟨failure, rfl⟩
  | ok m' =>
    have resolved : resolve m s = (.ok m', s) := by
      rw [resolve, bind_ok (run_get s), found]
      rfl
    rw [bind_ok resolved, popBlock] at stopped
    obtain ⟨closed, -⟩ := within_ends a s m' Scope.pushBlock .noBlockToPop Scope.popBlock?
    rw [stopped] at closed
    rcases closed with inside | ⟨stop', failed, internal⟩
    · have ends : (a (s.modifyScope m' Scope.pushBlock)).1 = .error stop := inside.symm
      exact .inr (placed (Prod.ext ends rfl))
    · cases failed
      exact .inl internal

/-- A place makes no difference to what runs in a block of its own, but for a failure of the machine. -/
theorem outlasts_located {a : Eval Flow} (placed : Placed a) (s : State) :
    Outlasts s (located m' p (inBlock m a)) (inBlock m a) ∧
      Outlasts s (inBlock m a) (located m' p (inBlock m a)) := by
  rcases ran : inBlock m a s with ⟨stop | flow, t⟩
  · rcases placed.inBlock ran with internal | unchanged
    · have givesUp : stop.GivesUp := .inr internal
      exact ⟨.inl ⟨_, congrArg Prod.fst (located_error ran), givesUp.locate _⟩,
        .inl ⟨stop, congrArg Prod.fst ran, givesUp⟩⟩
    · have same : located m' p (inBlock m a) s = inBlock m a s := by rw [located_error ran, unchanged, ran]
      exact ⟨.inr same.symm, .inr same⟩
  · have same : located m' p (inBlock m a) s = inBlock m a s := (located_ok ran).trans ran.symm
    exact ⟨.inr same.symm, .inr same⟩

/-! ## The further branches in a block of their own -/

/-- A conditional with one branch, and what is done when its condition does not hold. -/
def thenElse (ev : Evaluators) (cfg : Config) (ctx : Context) (e : Expr) (block : Block) (last : Eval Flow) :
    Eval Flow := do
  if ← condition ev cfg ctx "if" e then runBlock (ev.stmt ctx) block else last

section

variable {last : Eval Flow}

theorem thenElse_error {stop : Stop} (tested : condition ev cfg ctx "if" e s = (.error stop, t)) :
    thenElse ev cfg ctx e block last s = (.error stop, t) :=
  bind_error tested

theorem thenElse_true (tested : condition ev cfg ctx "if" e s = (.ok true, t)) :
    thenElse ev cfg ctx e block last s = runBlock (ev.stmt ctx) block t :=
  bind_ok tested

theorem thenElse_false (tested : condition ev cfg ctx "if" e s = (.ok false, t)) :
    thenElse ev cfg ctx e block last s = last t :=
  bind_ok tested

end

theorem inBlock_congr {a b : Eval Flow} (stands : s.Stands m m')
    (same : a (s.openBlock m') = b (s.openBlock m')) : inBlock m a s = inBlock m b s := by
  rw [inBlock, inBlock, bind_ok (Discipline.Agree.run_resolve stands),
    bind_ok (Discipline.Agree.run_resolve stands)]
  exact within_congr same

/-- A condition binds no name. -/
theorem condition_keeps {what : String} {holds : Bool} (wf : s.WellFormed) (here : s.HasModule m)
    (run : condition (evaluators cfg fuel) cfg ⟨m, calls⟩ what e s = (.ok holds, t)) :
    t.WellFormed ∧ s.Extends t ∧ ∀ m', s.HasModule m' → t.scopeOf m' = s.scopeOf m' := by
  obtain ⟨m', stands, -⟩ := wf.stands here
  have begun := Discipline.bound_begins wf
  have ends : Discipline.bound.Agree ⟨s.registry, none⟩ s s
      (condition (evaluators cfg fuel) cfg ⟨m, calls⟩ what e)
      (condition (evaluators cfg fuel) cfg ⟨m, calls⟩ what e)
      fun _ t₁ t₂ => Discipline.bound.Holds ⟨s.registry, none⟩ 0 t₁ t₂ :=
    .condition (Discipline.bound.contract cfg fuel) begun ⟨here, m', stands, trivial⟩ what e
  obtain ⟨result, t₁, t₂, run', -, later, after⟩ := ends
  cases run.symm.trans run'
  exact ⟨after.wf, later, fun m' there => congrArg (·.scope) (after.rel.2.2.module_eq there)⟩

/-- Where the innermost block is empty, the branches come to the same in a block of their own.  When that one
has been closed, the other one is still there, without the names that came in. -/
theorem run_inBlock_runBranches (wf : s.WellFormed) (here : s.HasModule m) (stands : s.Stands m m')
    (opened : s.scopeOf m' = (t.scopeOf m').pushBlock) (cfg : Config) (fuel calls : Nat)
    (otherwise : Option Block) (branches : List (Expr × Block)) :
    let last := runBranches (evaluators cfg fuel) cfg ⟨m, calls⟩ otherwise branches
    ∃ result u, last s = (result, u) ∧ inBlock m last s = (result, (u.closeBlock m').openBlock m') ∧
      (u.scopeOf m').blockDepth ≠ 0 ∧ (((u.closeBlock m').openBlock m').scopeOf m').blockDepth ≠ 0 := by
  intro last
  have there : s.HasModule m' := (wf.found _ m' stands).1
  let spot := t.spotAt m'
  let w : ScopeWorld := ⟨s.registry, some m'⟩
  have fits : w.Fits s := ScopeWorld.fits_self fun m'' isTarget => Option.some.inj isTarget ▸ there
  have covers : w.Covers spot := by
    refine ⟨there, ?_⟩
    change (s.scopeOf m').Covers _ _ _
    rw [opened]
    exact Scope.covers_innermost _
  have begun : (Discipline.padded spot).Holds w 0 s (s.openBlock m') :=
    ⟨wf, s.holding_zero, fits, covers, State.openBlock_eq_pad opened⟩
  have ends : (Discipline.padded spot).Agree w s (s.openBlock m') last last fun flow t₁ t₂ =>
      (Discipline.padded spot).Holds w 0 t₁ t₂ ∧ t₁.HasFlow flow :=
    .runBranches ((Discipline.padded spot).contract cfg fuel) otherwise branches begun ⟨here, m', stands, rfl⟩
  obtain ⟨result, u, u', run, run', -, after⟩ := ends
  have related : (Discipline.padded spot).Rel w 0 u u' := by
    cases result with
    | ok flow => exact after.1.rel
    | error stop => exact after.1.rel
  obtain ⟨fits', -, rfl⟩ := related
  have grown : (t.scopeOf m').pushBlock.Grows (u.scopeOf m') := opened ▸ fits'.grown m' rfl
  have active : (u.scopeOf m').blockDepth ≠ 0 := grown.dropBlock.1
  have padded : ((u.pad spot).scopeOf m').blockDepth ≠ 0 :=
    Nat.pos_iff_ne_zero.1 ((Nat.pos_of_ne_zero active).trans_le (u.depths_pad spot m').2)
  have still : (u.closeBlock m').HasModule m' :=
    (Nat.lt_of_lt_of_le there fits'.size).trans_eq (Registry.size_modifyScope ..).symm
  refine ⟨result, u, run, ?_, active, ?_⟩
  · rw [Discipline.Agree.run_inBlock stands run' padded, State.closeBlock_pad grown]
  · rw [State.openBlock, State.scopeOf_modifyScope still]
    exact (Scope.Grows.refl _).dropBlock.1

/-- The further branches may be tried in a block of their own: with it the state is what it is without, but
for a level without names, which goes with that block. -/
theorem inBlock_thenElse (wf : s.WellFormed) (here : s.HasModule m) (cfg : Config) (fuel calls : Nat) (e : Expr)
    (block : Block) (otherwise : Option Block) (branches : List (Expr × Block)) :
    let last := runBranches (evaluators cfg fuel) cfg ⟨m, calls⟩ otherwise branches
    inBlock m (thenElse (evaluators cfg fuel) cfg ⟨m, calls⟩ e block (inBlock m last)) s =
      inBlock m (thenElse (evaluators cfg fuel) cfg ⟨m, calls⟩ e block last) s := by
  intro last
  obtain ⟨m', stands, there⟩ := wf.stands here
  have grew : s.Extends (s.openBlock m') := s.extends_modifyScope m' _
  have here' := here.mono grew
  rcases tested : condition (evaluators cfg fuel) cfg ⟨m, calls⟩ "if" e (s.openBlock m') with ⟨stop | holds, t⟩
  · exact inBlock_congr stands ((thenElse_error tested).trans (thenElse_error tested).symm)
  cases holds with
  | true => exact inBlock_congr stands ((thenElse_true tested).trans (thenElse_true tested).symm)
  | false =>
    obtain ⟨wf', later, kept⟩ := condition_keeps (wf.openBlock there) here' tested
    have opened : t.scopeOf m' = (s.scopeOf m').pushBlock :=
      (kept m' (there.mono grew)).trans (State.scopeOf_modifyScope there)
    have stands' : t.Stands m m' := (stands.mono grew here).mono later here'
    obtain ⟨result, u, run, run', active, active'⟩ :=
      run_inBlock_runBranches wf' (here'.mono later) stands' opened cfg fuel calls otherwise branches
    rw [Discipline.Agree.run_inBlock stands ((thenElse_false tested).trans run') active',
      Discipline.Agree.run_inBlock stands ((thenElse_false tested).trans run) active,
      State.closeBlock_openBlock]

/-! ## With a unit of fuel more -/

/-- A conditional that is a block alone, evaluated with one unit of fuel more than its branches. -/
theorem runBlock_conditional (cfg : Config) (fuel : Nat) (ctx : Context) (p : Position)
    (branches : List (Expr × Block)) (otherwise : Option Block) :
    runBlock ((evaluators cfg (fuel + 1)).stmt ctx) [.conditional p branches otherwise] =
      located ctx.module p
        (inBlock ctx.module (runBranches (evaluators cfg fuel) cfg ctx otherwise branches)) := by
  have ends : ((evaluators cfg (fuel + 1)).stmt ctx (.conditional p branches otherwise)).Answers EndsBlock := by
    rw [evaluators_stmt, evalStmt_succ]
    exact ((answers_runBranches_block _ cfg ctx otherwise branches).inBlock _).located _ _
  rw [runBlock_singleton ends, evaluators_stmt, evalStmt_succ]
  rfl

section

variable (cfg : Config) (fuel : Nat) (ctx : Context) (p : Position) (otherwise : Option Block)
  (branches : List (Expr × Block)) (s : State)

/-- The else block gets one unit of fuel more than the branches, or as much as they get. -/
theorem inBlock_outlasts :
    Outlasts s (inBlock ctx.module (runBranches (evaluators cfg fuel) cfg ctx otherwise branches))
      (runBlock ((evaluators cfg (fuel + 1)).stmt ctx) [.conditional p branches otherwise]) := by
  rw [runBlock_conditional]
  exact (outlasts_located (Placed.runBranches cfg fuel ctx otherwise branches) s).2

theorem runBlock_outlasts :
    Outlasts s (runBlock ((evaluators cfg fuel).stmt ctx) [.conditional p branches otherwise])
      (inBlock ctx.module (runBranches (evaluators cfg fuel) cfg ctx otherwise branches)) := by
  cases fuel with
  | zero =>
    have stops : (evaluators cfg 0).stmt ctx (.conditional p branches otherwise) s =
        (.error .outOfFuel, s) := by
      rw [evaluators_stmt, evalStmt_zero]
      rfl
    exact .out (congrArg Prod.fst (bind_error stops))
  | succ fuel =>
    rw [runBlock_conditional]
    have placed : Placed (runBranches (evaluators cfg fuel) cfg ctx otherwise branches) :=
      Placed.runBranches cfg fuel ctx otherwise branches
    have built : Built [] fun ev => runBranches ev cfg ctx otherwise branches := .runBranches otherwise branches
    have more : ∀ s, Outlasts s (runBranches (evaluators cfg fuel) cfg ctx otherwise branches)
        (runBranches (evaluators cfg (fuel + 1)) cfg ctx otherwise branches) :=
      built.outlasts (evaluators_outlast_succ cfg fuel)
    exact (outlasts_located placed s).1.trans (Outlasts.inBlock more s)

end

/-- A conditional step by step. -/
theorem evalStmt_conditional (cfg : Config) (fuel : Nat) (ctx : Context) (p : Position) (e : Expr)
    (block : Block) (otherwise : Option Block) (branches : List (Expr × Block)) :
    evalStmt cfg (fuel + 1) ctx (.conditional p ((e, block) :: branches) otherwise) =
      located ctx.module p (inBlock ctx.module (thenElse (evaluators cfg fuel) cfg ctx e block
        (runBranches (evaluators cfg fuel) cfg ctx otherwise branches))) := by
  rw [evalStmt_succ]
  rfl

/-- Evaluators that outlast others, and an else that outlasts another one. -/
theorem Outlasts.thenElse {ev' : Evaluators} {last last' : Eval Flow} (more : ev.Outlast ev')
    (lasts : ∀ s, Outlasts s last last') (s : State) :
    Outlasts s (thenElse ev cfg ctx e block last) (thenElse ev' cfg ctx e block last') := by
  have tests : Built [] fun ev => condition ev cfg ctx "if" e := .condition "if" e
  have runs : Built [] fun ev => runBlock (ev.stmt ctx) block := .block ctx block
  refine (tests.outlasts more s).bind fun holds t _ => ?_
  cases holds with
  | true => exact runs.outlasts more t
  | false => exact lasts t

end Eval

open Eval in
/-- A conditional with at least two branches does what the conditional with the first of them does that has
the others, as a conditional of their own, in its else block.  From every state a run can be in, in every
module, and whatever the conditions and the blocks are, both come to the same result, value, jump, error with
its place, or exit, and they leave the same state, with the same bindings, boxes and output.  The second one
takes one unit of fuel more at most. -/
theorem evalStmt_conditional_nested {cfg : Config} {s t : State} {m : ModuleId} {result : Except Stop Flow}
    (running : Running cfg m s) (enough : result ≠ .error .outOfFuel) (p p' : Position)
    (first second : Expr × Block) (rest : List (Expr × Block)) (otherwise : Option Block) (fuel calls : Nat) :
    let flat : Stmt := .conditional p (first :: second :: rest) otherwise
    let nested : Stmt := .conditional p [first] (some [.conditional p' (second :: rest) otherwise])
    (evalStmt cfg fuel ⟨m, calls⟩ flat s = (result, t) →
      evalStmt cfg (fuel + 1) ⟨m, calls⟩ nested s = (result, t)) ∧
    (evalStmt cfg fuel ⟨m, calls⟩ nested s = (result, t) →
      evalStmt cfg fuel ⟨m, calls⟩ flat s = (result, t)) := by
  intro flat nested
  obtain ⟨e, block⟩ := first
  have wf := running.reachable.wellFormed
  -- with the evaluators of the branches, both are the conditional with a block of its own for the others
  let middle (n : Nat) : Eval Flow := located m p (inBlock m (thenElse (evaluators cfg n) cfg ⟨m, calls⟩ e block
    (inBlock m (runBranches (evaluators cfg n) cfg ⟨m, calls⟩ otherwise (second :: rest)))))
  have isFlat (n : Nat) : evalStmt cfg (n + 1) ⟨m, calls⟩ flat s = middle n s := by
    rw [evalStmt_conditional]
    exact (located_congr (inBlock_thenElse wf running.here cfg n calls e block otherwise (second :: rest))).symm
  have inNested (n : Nat) : Outlasts s (middle n) (evalStmt cfg (n + 1 + 1) ⟨m, calls⟩ nested) := by
    rw [evalStmt_conditional]
    exact (Outlasts.inBlock (.thenElse (evaluators_outlast_succ cfg n)
      (inBlock_outlasts cfg n ⟨m, calls⟩ p' otherwise (second :: rest))) s).located m p
  have ofNested (n : Nat) : Outlasts s (evalStmt cfg (n + 1) ⟨m, calls⟩ nested) (middle n) := by
    rw [evalStmt_conditional]
    exact (Outlasts.inBlock (.thenElse (evaluators_outlast cfg (Nat.le_refl n))
      (runBlock_outlasts cfg n ⟨m, calls⟩ p' otherwise (second :: rest))) s).located m p
  cases fuel with
  | zero =>
    have none (code : Stmt) : evalStmt cfg 0 ⟨m, calls⟩ code s ≠ (result, t) := by
      rw [evalStmt_zero]
      rintro ⟨⟩
      exact enough rfl
    exact ⟨fun run => absurd run (none flat), fun run => absurd run (none nested)⟩
  | succ n =>
    constructor
    · intro run
      exact (inNested n).eq_of_ends ((isFlat n).symm.trans run) (running.not_givesUp run enough)
    · intro run
      exact (isFlat n).trans ((ofNested n).eq_of_ends run (running.not_givesUp run enough))

/-- The second condition holds; its block gives the name a new value. -/
theorem evalStmt_conditional_nested_second :
    let set (name : String) (value : Int64) : Stmt :=
      .assign .start .plain [.ident .start name] [.literal .start (.int value)]
    let first : Expr × Block := (.literal .start (.bool false), [set "x" 1])
    let second : Expr × Block := (.ident .start "x", [set "x" 7])
    let main := State.initial.load (.ofSource "main" "/" "")
    let s := (evalStmt .standard 9 ⟨⟨0⟩, 5⟩ (set "x" 3) main).2
    let flat : Stmt := .conditional .start [first, second] none
    let nested : Stmt := .conditional .start [first] (some [.conditional .start [second] none])
    Running .standard ⟨0⟩ s ∧ ∃ t, evalStmt .standard 8 ⟨⟨0⟩, 5⟩ flat s = (.ok .done, t) ∧
      evalStmt .standard 9 ⟨⟨0⟩, 5⟩ nested s = (.ok .done, t) ∧
      evalStmt .standard 9 ⟨⟨0⟩, 5⟩ flat s = (.ok .done, t) ∧
      ((t.scopeOf ⟨0⟩).getObj? "x").map t.heap.value = some (.int 7) := by
  intro set first second main s flat nested
  have begun : Running .standard ⟨0⟩ main :=
    ⟨.register .initial rfl, State.hasModule_load State.initial _⟩
  have running : Running .standard ⟨0⟩ s := begun.evalStmt 9 5 _
  have run : evalStmt .standard 8 ⟨⟨0⟩, 5⟩ flat s = (.ok .done, (evalStmt .standard 8 ⟨⟨0⟩, 5⟩ flat s).2) :=
    Prod.ext rfl rfl
  have enough : (Except.ok .done : Except Stop Flow) ≠ .error .outOfFuel := by nofun
  have inNested := (evalStmt_conditional_nested running enough .start .start first second [] none 8 5).1 run
  have again := (evalStmt_conditional_nested running enough .start .start first second [] none 9 5).2 inNested
  exact ⟨running, _, run, inNested, again, rfl⟩

end Shiba

import Shiba.Proofs.Lockstep.Stmt
import Shiba.Proofs.Zones.Assign

/-!
# Statements and their zones

Loops and conditionals keep to their zones under every policy.  Functions, structs and modules are defined
where nothing is left out.

`Guarded.contract` ties the knot: the evaluators of the machine keep to their zones, by induction on the
fuel.
-/

namespace Shiba

namespace Guarded

open Eval

namespace Safe

variable {P : Policy} {σ τ : Guarded P} {ev₁ ev₂ : Evaluators} {ctx : Context} {α : Type}
  {Q : α → Guarded P → Prop}

/-! ## Conditionals and loops -/

theorem traceText (level : Int) (text : String) :
    σ.Safe (Eval.trace P.config level (Pure.pure text)) (Eval.trace P.config level (Pure.pure text))
      fun _ _ => True :=
  trace P.config level (.pure trivial)

theorem condition (contract : Contract P ev₁ ev₂) (here : σ.Here ctx.module) (what : String) {e : Expr}
    (admitted : P.Admits e) :
    σ.Safe (Eval.condition ev₁ P.config ctx what e) (Eval.condition ev₂ P.config ctx what e)
      fun _ _ => True := by
  apply bind (contract.expr ctx here admitted)
  intro b τ _ _
  apply get_bind
  apply read_bind b
  apply bind (trace P.config 3 (.bind (.canonical P.config b) fun _ _ => .pure trivial))
  exact fun _ _ _ _ => pure trivial

theorem runBranches (contract : Contract P ev₁ ev₂) (here : σ.Here ctx.module)
    {otherwise : Option Block} {branches : List (Expr × Block)}
    (runs : ∀ b ∈ branches, P.Admits b.1 ∧ P.RunsAll b.2)
    (last : ∀ block ∈ otherwise, P.RunsAll block) :
    σ.Safe (Eval.runBranches ev₁ P.config ctx otherwise branches)
      (Eval.runBranches ev₂ P.config ctx otherwise branches) fun flow τ => τ.SeenFlow flow := by
  induction branches generalizing σ with
  | nil =>
    cases otherwise with
    | none => exact pure trivial
    | some block => exact runBlock contract here (last block rfl)
  | cons branch branches ih =>
    rcases branch with ⟨e, block⟩
    have ⟨first, rest⟩ := List.forall_mem_cons.1 runs
    apply bind (condition contract here "if" first.1)
    intro chosen τ later _
    cases chosen with
    | true => exact runBlock contract (here.mono later) first.2
    | false => exact ih (here.mono later) rest

theorem seenFlow_of_afterTurn {flow flow' : Flow} (seen : σ.SeenFlow flow)
    (ends : afterTurn flow = some flow') : σ.SeenFlow flow' := by
  cases flow with
  | breakLoop =>
    cases ends
    trivial
  | returnValue b =>
    cases ends
    exact seen
  | done | value | continueLoop => cases ends

/-- The turns of a loop over a sequence.  The induction is on the boxes that are left. -/
theorem forTurns (contract : Contract P ev₁ ev₂) (here : σ.Here ctx.module) (counter element : String)
    {body : Block} (runs : P.RunsAll body) {boxes : List BoxId} (live : ∀ b ∈ boxes, σ.In .live b)
    (turn : Nat) :
    σ.Safe (Eval.forTurns ev₁ ctx counter element body boxes turn)
      (Eval.forTurns ev₂ ctx counter element body boxes turn) fun flow τ => τ.SeenFlow flow := by
  induction boxes generalizing σ turn with
  | nil => exact pure trivial
  | cons b boxes ih =>
    have ⟨first, rest⟩ := List.forall_mem_cons.1 live
    apply bind (alloc (v := .int _) (fit_scalar trivial))
    intro c τ later counted
    apply bind (declareObj (here.mono later).module counted counter)
    intro _ υ later' _
    have here' := (here.mono later).mono later'
    apply bind (copy (first.mono (later.trans later')).seen)
    intro e φ later'' copied
    have here'' := here'.mono later''
    apply bind (declareObj here''.module copied element)
    intro _ χ declared _
    have here₃ := here''.mono declared
    apply bind (runBlock contract here₃ runs)
    intro flow ψ ran seen
    split
    · next flow' ends => exact pure (seenFlow_of_afterTurn seen ends)
    · have whole := (((later.trans later').trans later'').trans declared).trans ran
      exact ih (here.mono whole) (fun b member => (rest b member).mono whole) (turn + 1)

theorem forLoop (contract : Contract P ev₁ ev₂) (here : σ.Here ctx.module) {target : Expr}
    (admitted : P.Admits target) (counter element : String) {body : Block} (runs : P.RunsAll body) :
    σ.Safe (Eval.forLoop ev₁ ctx target counter element body)
      (Eval.forLoop ev₂ ctx target counter element body) fun flow τ => τ.SeenFlow flow := by
  apply bind (contract.expr ctx here admitted)
  intro t τ later seen
  have here' := here.mono later
  apply read_bind t
  dsimp only
  split
  · apply look_bind (.typeName t)
    intro name _
    exact raiseAt_bind
  · refine inBlock here'.module (fun υ later' => ?_) fun later seen => SeenFlow.mono later seen
    apply ofValue_bind (seen.fit.mono later')
    intro q inside
    apply bind (elements inside)
    intro boxes φ later'' live
    exact forTurns contract (here'.mono (later'.trans later'')) counter element runs live 0

/-- The turns of a loop with a condition.  The induction is on the turns it may take. -/
theorem whileTurns (contract : Contract P ev₁ ev₂) (here : σ.Here ctx.module) {e : Expr} {body : Block}
    (admitted : P.Admits e) (runs : P.RunsAll body) (turns : Nat) :
    σ.Safe (Eval.whileTurns ev₁ P.config ctx e body turns)
      (Eval.whileTurns ev₂ P.config ctx e body turns) fun flow τ => τ.SeenFlow flow := by
  induction turns generalizing σ with
  | zero => exact throw
  | succ turns ih =>
    apply bind (condition contract here "loop" admitted)
    intro again τ later _
    cases again with
    | false => exact pure trivial
    | true =>
      apply bind (runBlock contract (here.mono later) runs)
      intro flow υ later' seen
      split
      · next flow' ends => exact pure (seenFlow_of_afterTurn seen ends)
      · exact ih (here.mono (later.trans later'))

/-! ## Definitions -/

theorem defineFunction (full : P.full) (here : σ.Here ctx.module) (d : FunctionDecl) :
    σ.Safe (Eval.defineFunction P.config ctx d) (Eval.defineFunction P.config ctx d)
      fun _ _ => True := by
  apply bind (allocFunction here.module)
  intro f τ later there
  apply bind (alloc (v := .function f) ⟨there, .inr full⟩)
  intro b υ later' live
  apply bind (setObj (here.mono (later.trans later')).module live d.name)
  exact fun _ _ _ _ => traceText 2 _

theorem defineStruct (here : σ.Here ctx.module) (name : String) (fields : List String)
    (methods : List FunctionDecl) :
    σ.Safe (Eval.defineStruct P.config ctx name fields methods)
      (Eval.defineStruct P.config ctx name fields methods) fun _ _ => True := by
  unfold Eval.defineStruct
  dsimp only
  split
  · exact raise
  · next unique =>
    apply bind (mapM_all (S := fun τ (e : String × FunctionId) => τ.state.HasFunction e.2) methods
      (fun later there => there.mono later.grew) ?_)
    · intro functions τ later there
      have defined : ∀ f ∈ (OrderedMap.ofList functions).values, τ.state.HasFunction f := by
        intro f member
        rcases OrderedMap.mem_values_insertMany member with new | old
        · obtain ⟨e, listed, rfl⟩ := List.mem_map.1 new
          exact there.2 e listed
        · cases old
      apply bind (allocStruct (d := ⟨name, fields, .ofList functions⟩)
        ⟨(Discipline.Agree.nodup_of_duplicate? unique).1, OrderedMap.nodup_keys_ofList functions⟩ defined)
      intro c υ later' there'
      apply bind (setStruct (here.mono (later.trans later')).module there' name)
      exact fun _ _ _ _ => traceText 2 _
    · intro d _ τ later
      apply bind (allocFunction (here.mono later).module)
      intro f υ _ there
      exact pure there

/-! ## Modules -/

/-- A module with live members is added under a key that is not taken yet. -/
theorem addModule {M : Module} (fresh : σ.state.registry.find? M.key = none)
    (structs : M.scope.structs = []) (live : ∀ b ∈ M.scope.objs, σ.In .live b) :
    σ.Safe (Eval.addModule M) (Eval.addModule M) fun id τ => τ.state.HasModule id := by
  have wf := σ.wf.load fresh (fun b listed => (live b listed).own Zone.live_ne_old) structs
  have shift : σ.Shift (σ.state.load M) σ.zones :=
    shift_of_same (State.extends_load fresh) rfl rfl
  have adds : σ.Adds (σ.state.load M) σ.zones := by
    refine ⟨fun _ => .inl rfl, fun _ => .inl rfl, fun _ => .inl rfl, fun _ => .inl rfl,
      fun m there _ b listed => ?_⟩
    by_cases old : σ.state.HasModule m
    · rw [State.load, Registry.module_load_of_lt old] at listed
      exact .inl ⟨old, listed⟩
    · rw [State.eq_next_of_hasModule_load there old, State.load, Registry.module_load_next] at listed
      exact .inr (live b (P.objs listed)).2
  have run := Discipline.Agree.run_addModule σ.state M
  exact of_run (τ := σ.advance _ _ wf shift adds) run run shift (State.hasModule_load σ.state M)

/-- A step that touches nothing but the heap leaves the modules as they are. -/
theorem onHeap_registry {act : HeapM α} (safe : σ.Safe (onHeap act) (onHeap act) Q) :
    σ.Safe (onHeap act) (onHeap act) fun x τ => Q x τ ∧ τ.state.registry = σ.state.registry := by
  obtain ⟨result, τ, run, run', later, after⟩ := safe
  refine ⟨result, τ, run, run', later, fun x answered => ⟨after x answered, ?_⟩⟩
  rw [onHeap_apply] at run
  exact congrArg (fun r => r.2.registry) run.symm

theorem checkTopLevel (m : ModuleId) (s : Stmt) (flow : Flow) :
    σ.Safe (Eval.checkTopLevel m s flow) (Eval.checkTopLevel m s flow) fun _ _ => True := by
  unfold Eval.checkTopLevel
  split
  · exact located raise
  · exact pure trivial

theorem checkEnding (m : ModuleId) (ending : Ending) :
    σ.Safe (Eval.checkEnding m ending) (Eval.checkEnding m ending) fun _ _ => True := by
  unfold Eval.checkEnding
  split
  · exact pure trivial
  · apply get_bind
    exact throw

theorem runTopLevel (contract : Contract P ev₁ ev₂) (full : P.full) (ctx : Context) (block : Block)
    (here : σ.Here ctx.module) :
    σ.Safe (Eval.runTopLevel ev₁ P.config ctx block) (Eval.runTopLevel ev₂ P.config ctx block)
      fun _ _ => True := by
  induction block generalizing σ with
  | nil => exact pure trivial
  | cons stmt block ih =>
    apply bind (trace P.config 2 (.get_bind fun _ => .pure trivial))
    intro _ τ later _
    apply bind (contract.stmt ctx (here.mono later) (.inl full))
    intro flow υ later' _
    apply bind (checkTopLevel ctx.module stmt flow)
    intro _ φ later'' _
    exact ih (here.mono ((later.trans later').trans later''))

theorem runLoaded (contract : Contract P ev₁ ev₂) (full : P.full) (calls : Nat) (M : Module)
    {id : ModuleId} (there : σ.state.HasModule id) :
    σ.Safe (Eval.runLoaded ev₁ P.config calls M id) (Eval.runLoaded ev₂ P.config calls M id)
      fun m τ => τ.state.HasModule m := by
  apply bind (traceText 1 _)
  intro _ τ later _
  have there' := there.mono later.grew
  apply bind (runTopLevel contract full ⟨id, calls⟩ _ (here_of_full full there'))
  intro _ υ later' _
  apply bind (checkEnding id _)
  intro _ φ later'' _
  exact pure (there'.mono (later'.trans later'').grew)

theorem loadFile (contract : Contract P ev₁ ev₂) (full : P.full) (calls : Nat) (path : String) :
    σ.Safe (Eval.loadFile ev₁ P.config calls path) (Eval.loadFile ev₂ P.config calls path)
      fun m τ => τ.state.HasModule m := by
  apply get_bind
  split
  · next m found =>
    apply bind (traceText 1 _)
    intro _ τ later _
    exact pure ((σ.wf.found _ m found).1.mono later.grew)
  · next absent =>
    split
    · exact raise
    · next content isRead =>
      rw [← key_moduleOfFile path content] at absent
      apply bind (addModule absent rfl nofun)
      intro id τ _ there
      exact runLoaded contract full calls _ there

/-- What the modules without a file define may stand in the live zone. -/
theorem fit_hostModules {name : String} {members : List (String × Value)}
    (found : hostModules.lookup name = some members) : ∀ e ∈ members, σ.Fit .live e.2 := by
  intro e member
  refine ⟨Discipline.Agree.valid_hostModules found σ.state e member, ?_⟩
  simp only [hostModules, List.lookup_cons, List.lookup_nil] at found
  split at found
  · cases found
    simp only [Math.members, List.map_cons, List.map_nil, List.cons_append, List.nil_append,
      List.mem_cons, List.not_mem_nil, or_false] at member
    rcases member with rfl | rfl | rfl | rfl | rfl | rfl <;> trivial
  · cases found

/-- The members of a module that comes with the language are put into new boxes; no module changes. -/
theorem allocMembers {name : String} {members : List (String × Value)}
    (listed : hostModules.lookup name = some members) :
    let act : Eval (List (String × BoxId)) := members.mapM fun e => do return (e.1, ← Eval.alloc e.2)
    σ.Safe act act fun objs τ =>
      (∀ e ∈ objs, τ.In .live e.2) ∧ τ.state.registry = σ.state.registry := by
  intro act
  have onHeap : act = Eval.onHeap (members.mapM fun e => do return (e.1, ← HeapM.alloc e.2)) := by
    simp only [onHeap_mapM, onHeap_bind, onHeap_pure]
    rfl
  rw [onHeap]
  apply onHeap_registry
  rw [← onHeap]
  apply (mapM_all (S := fun τ (e : String × BoxId) => τ.In .live e.2) members
    (fun later live => live.mono later) ?_).mono
  · exact fun _ _ _ after => after.2
  · intro e member τ later
    apply bind (alloc ((fit_hostModules listed e member).mono later))
    intro b υ _ live
    exact pure live

theorem loadHost (name : String) :
    σ.Safe (Eval.loadHost P.config name) (Eval.loadHost P.config name) fun m τ =>
      τ.state.HasModule m := by
  apply get_bind
  split
  · next m found => exact pure (σ.wf.found _ m found).1
  · next absent =>
    split
    · exact raise
    · next members listed =>
      apply bind (allocMembers listed)
      intro objs τ _ ended
      obtain ⟨live, same⟩ := ended
      obtain ⟨-, structs, fewer⟩ :=
        Scope.foldl_setObj (β := StructId) objs (s := .empty) ⟨rfl, rfl, rfl⟩ rfl
      apply bind (addModule (M := .ofObjects name objs) ?_ structs ?_)
      · intro id υ _ there
        apply bind (traceText 1 _)
        intro _ φ later _
        exact pure (there.mono later.grew)
      · rw [same]
        exact absent
      · intro b member
        have inside := Multiset.mem_of_le fewer (Multiset.mem_coe.2 member)
        rcases Multiset.mem_add.1 inside with new | old
        · obtain ⟨e, listed, rfl⟩ := List.mem_map.1 (Multiset.mem_coe.1 new)
          exact live e listed
        · cases old

theorem importStatement (contract : Contract P ev₁ ev₂) (full : P.full) (here : σ.Here ctx.module)
    (target : String) :
    σ.Safe (Eval.importStatement ev₁ P.config ctx target) (Eval.importStatement ev₂ P.config ctx target)
      fun _ _ => True := by
  have imported : σ.Safe (Eval.importModule ev₁ P.config ctx target)
      (Eval.importModule ev₂ P.config ctx target) fun m τ => τ.state.HasModule m := by
    apply get_bind
    dsimp only
    split
    · exact loadFile contract full ctx.calls _
    · exact loadHost target
  apply bind imported
  intro m τ later there
  apply get_bind
  apply bind (alloc (v := .module m _) ⟨there, .inr full⟩)
  intro b υ later' live
  exact setObj (here.mono (later.trans later')).module live _

/-! ## Statements -/

/-- A statement keeps to its zones when its parts do. -/
theorem stmt (contract : Contract P ev₁ ev₂) (here : σ.Here ctx.module) (turns : Nat) {s : Stmt}
    (runs : P.Runs s) :
    σ.Safe (Eval.stmt ev₁ P.config turns ctx s) (Eval.stmt ev₂ P.config turns ctx s) fun flow τ =>
      τ.SeenFlow flow := by
  -- a step that ends without a value
  have plain : ∀ {a₁ a₂ : Eval Unit}, σ.Safe a₁ a₂ (fun _ _ => True) →
      σ.Safe (a₁ >>= fun _ => Pure.pure Flow.done) (a₂ >>= fun _ => Pure.pure Flow.done)
        fun flow τ => τ.SeenFlow flow :=
    fun ends => bind ends fun _ _ _ _ => pure trivial
  apply located
  cases s with
  | comment p text => exact pure trivial
  | assign p op left right => exact plain (assign contract here op runs.assign.1 runs.assign.2)
  | conditional p branches otherwise =>
    refine inBlock here.module (fun τ later => ?_) fun later seen => SeenFlow.mono later seen
    exact runBranches contract (here.mono later) runs.conditional.1 runs.conditional.2
  | forIn p target counter element body =>
    exact forLoop contract here runs.forIn.1 counter.name element.name runs.forIn.2
  | loop p e body =>
    refine inBlock here.module (fun τ later => ?_) fun later seen => SeenFlow.mono later seen
    exact whileTurns contract (here.mono later) runs.loop.1 runs.loop.2 turns
  | function d => exact plain (defineFunction (runs.defines nofun) here d)
  | structDecl p name fields methods => exact plain (defineStruct here name fields methods)
  | importModule p target => exact plain (importStatement contract (runs.defines nofun) here target)
  | returnValue p value =>
    cases value with
    | none => exact pure trivial
    | some e => exact bind (contract.expr ctx here runs.returnValue) fun b _ _ seen => pure seen
  | breakLoop p => exact pure trivial
  | continueLoop p => exact pure trivial
  | expr e => exact bind (contract.expr ctx here runs.expr) fun b _ _ seen => pure seen

end Safe

/-- The machine keeps to the zones of every policy. -/
theorem contract (P : Policy) (fuel : Nat) :
    Contract P (evaluators P.config fuel) (evaluators P.config fuel) := by
  induction fuel with
  | zero =>
    constructor
    · intro σ ctx e _ _
      rw [evaluators_expr, evalExpr_zero]
      exact Safe.throw
    · intro σ ctx s _ _
      rw [evaluators_stmt, evalStmt_zero]
      exact Safe.throw
  | succ fuel ih =>
    constructor
    · intro σ ctx e here admitted
      rw [evaluators_expr, evalExpr_succ]
      exact Safe.expr ih here admitted
    · intro σ ctx s here runs
      rw [evaluators_stmt, evalStmt_succ]
      exact Safe.stmt ih here fuel runs

end Guarded

end Shiba

import Shiba.Eval
import Shiba.Proofs.Lockstep.Assign

/-!
# Contracts of statements

Statements bind names in the module they belong to, open blocks in it, and load other modules.  A
conditional or a loop opens its block first, so the names its parts bind are gone when it ends; that
is why it is admitted where names are not open.

`Discipline.contract` ties the knot: the evaluators of the machine keep the contract of every
discipline, by induction on the fuel.
-/

namespace Shiba

namespace Discipline.Agree

open Eval

variable {D : Discipline} {w : D.World} {H K : Multiset BoxId} {s₁ s₂ : State}
  {ev₁ ev₂ : Evaluators} {cfg : Config} {ctx : Context} {α : Type}

/-! ## Modules -/

theorem run_addModule (s : State) (M : Module) : addModule M s = (.ok s.registry.next, s.load M) :=
  rfl

/-- A module whose key is not taken yet is added, and something is done inside it. -/
theorem addModule_bind {M : Module} {f₁ f₂ : ModuleId → Eval α} {P : α → State → Prop}
    (holds : D.Holds w ((M.scope.objs : Multiset BoxId) + H) s₁ s₂)
    (fresh : s₁.registry.find? M.key = none) (closed : M.scope.Closed)
    (structs : M.scope.structs = [])
    (inside : ∀ w' t₁ t₂ id, s₁.Extends t₁ → D.OpenFor w' t₁ id →
      D.Holds w' H t₁ t₂ →
      D.Agree w' t₁ t₂ (f₁ id) (f₂ id) fun x u₁ u₂ => D.Holds w' H u₁ u₂ ∧ P x u₁) :
    D.Agree w s₁ s₂ (addModule M >>= f₁) (addModule M >>= f₂) fun x u₁ u₂ =>
      D.Holds w H u₁ u₂ ∧ P x u₁ := by
  obtain ⟨w', isOpen, rel, outside⟩ := D.load holds.wf fresh closed structs rfl holds.rel
  have grew := State.extends_load fresh
  have owned : ∀ b ∈ M.scope.objs, s₁.OwnBox b := fun b member =>
    holds.held b (Multiset.mem_add.2 (.inl (Multiset.mem_coe.2 member)))
  have wf := holds.wf.load fresh owned structs
  have held := (holds.held.drop (Multiset.le_add_left H _)).mono grew
  have opened : D.OpenFor w' (s₁.load M) s₁.registry.next := by
    refine ⟨State.hasModule_load s₁ M, s₁.registry.next, ?_, isOpen⟩
    rw [State.Stands, State.load, Registry.module_load_next, Registry.find?_load, if_pos rfl]
  have same : s₂.registry.next = s₁.registry.next := by
    rw [Registry.next, Registry.next, holds.alike.size]
  have run₁ := run_addModule s₁ M
  have run₂ := run_addModule s₂ M
  rw [same] at run₂
  obtain ⟨result, t₁, t₂, ends₁, ends₂, grew', after⟩ :=
    inside w' _ _ _ grew opened ⟨wf, held, rel⟩
  have outer : ∀ {K}, D.Holds w' K t₁ t₂ → D.Holds w K t₁ t₂ := fun last =>
    ⟨last.wf, last.held, outside last.wf last.rel⟩
  refine ⟨result, t₁, t₂, (bind_ok run₁).trans ends₁, (bind_ok run₂).trans ends₂,
    grew.trans grew', ?_⟩
  cases result with
  | ok x => exact ⟨outer after.1, after.2⟩
  | error stop => exact ⟨outer after.1, after.2⟩

theorem checkTopLevel (holds : D.Holds w H s₁ s₂) (m : ModuleId) (s : Stmt) (flow : Flow) :
    D.Agree w s₁ s₂ (Eval.checkTopLevel m s flow) (Eval.checkTopLevel m s flow) fun _ t₁ t₂ =>
      D.Holds w H t₁ t₂ := by
  unfold Eval.checkTopLevel
  split
  · exact raiseAt holds nofun
  · exact pure _ holds

theorem traceStatement (holds : D.Holds w H s₁ s₂) (m : ModuleId) (s : Stmt) :
    D.Agree w s₁ s₂ (Eval.traceStatement cfg m s) (Eval.traceStatement cfg m s) fun _ t₁ t₂ =>
      D.Holds w H t₁ t₂ := by
  apply trace holds
  apply get_bind
  rw [holds.alike.name]
  exact pure _ ⟨rfl, rfl⟩

theorem traceText (holds : D.Holds w H s₁ s₂) (level : Int) (text : String) :
    D.Agree w s₁ s₂ (Eval.trace cfg level (Pure.pure text)) (Eval.trace cfg level (Pure.pure text))
      fun _ t₁ t₂ => D.Holds w H t₁ t₂ :=
  trace holds cfg level (pure text ⟨rfl, rfl⟩)

theorem checkEnding (holds : D.Holds w H s₁ s₂) (m : ModuleId) (ending : Ending) :
    D.Agree w s₁ s₂ (Eval.checkEnding m ending) (Eval.checkEnding m ending) fun _ t₁ t₂ =>
      D.Holds w H t₁ t₂ := by
  unfold Eval.checkEnding
  split
  · exact pure _ holds
  · apply get_bind
    rw [holds.alike.name]
    exact throw holds (Stop.not_internal_ofFailure _ _)

/-- The top level of a module that is being loaded. -/
theorem runTopLevel (contract : D.Contract ev₁ ev₂) (ctx : Context) (block : Block)
    (holds : D.Holds w H s₁ s₂) (opened : D.OpenFor w s₁ ctx.module) :
    D.Agree w s₁ s₂ (Eval.runTopLevel ev₁ cfg ctx block) (Eval.runTopLevel ev₂ cfg ctx block)
      fun _ t₁ t₂ => D.Holds w H t₁ t₂ := by
  induction block generalizing s₁ s₂ with
  | nil => exact pure _ holds
  | cons stmt block ih =>
    apply bind (traceStatement holds ctx.module stmt)
    intro _ t₁ t₂ grew traced
    have opened' := opened.mono grew
    apply bind (contract.stmt ctx stmt traced (opened'.admits stmt))
    intro flow u₁ u₂ grew' ended
    obtain ⟨after, -⟩ := ended
    apply bind (checkTopLevel after ctx.module stmt flow)
    intro _ v₁ v₂ grew'' checked
    have later := grew'.trans grew''
    exact ih checked (opened'.mono later)

theorem runLoaded {id : ModuleId} (contract : D.Contract ev₁ ev₂) (holds : D.Holds w H s₁ s₂)
    (opened : D.OpenFor w s₁ id) (calls : Nat) (M : Module) :
    D.Agree w s₁ s₂ (Eval.runLoaded ev₁ cfg calls M id) (Eval.runLoaded ev₂ cfg calls M id)
      fun m t₁ t₂ => D.Holds w H t₁ t₂ ∧ m = id ∧ t₁.HasModule id := by
  apply bind (traceText holds 1 _)
  intro _ u₁ u₂ grew traced
  have opened' := opened.mono grew
  apply bind (runTopLevel contract ⟨id, calls⟩ _ traced opened')
  intro _ v₁ v₂ grew' ran
  apply bind (checkEnding ran id _)
  intro _ x₁ x₂ grew'' ended
  exact pure id ⟨ended, rfl, opened'.module.mono (grew'.trans grew'')⟩

theorem loadFile (contract : D.Contract ev₁ ev₂) (holds : D.Holds w H s₁ s₂) (calls : Nat)
    (path : String) :
    D.Agree w s₁ s₂ (Eval.loadFile ev₁ cfg calls path) (Eval.loadFile ev₂ cfg calls path) fun m t₁ t₂ =>
      D.Holds w H t₁ t₂ ∧ t₁.HasModule m := by
  apply get_bind
  rw [holds.alike.find?]
  split
  · next m found =>
    apply bind (traceText holds 1 _)
    intro _ t₁ t₂ grew traced
    exact pure m ⟨traced, (holds.wf.found _ m found).1.mono grew⟩
  · next absent =>
    split
    · exact raise holds nofun
    · next content _ =>
      have start : D.Holds w (((moduleOfFile path content).scope.objs : Multiset BoxId) + H) s₁ s₂ :=
        (zero_add H).symm ▸ holds
      rw [← key_moduleOfFile path content] at absent
      apply addModule_bind start absent ⟨rfl, rfl, rfl⟩ rfl
      intro w' t₁ t₂ id _ opened loaded
      apply (runLoaded contract loaded opened calls _).mono
      intro m u₁ u₂ _ ended
      obtain ⟨ran, rfl, there⟩ := ended
      exact ⟨ran, there⟩

/-- What the modules without a file define refers to nothing. -/
theorem valid_hostModules {name : String} {members : List (String × Value)}
    (found : hostModules.lookup name = some members) (s : State) : ∀ e ∈ members, s.Valid e.2 := by
  simp only [hostModules, List.lookup_cons, List.lookup_nil] at found
  split at found
  · cases found
    simp [Math.members, State.Valid]
  · cases found

/-- The members of a module that no file holds are in hand until the module is added. -/
theorem loadHost (holds : D.Holds w H s₁ s₂) (name : String) :
    D.Agree w s₁ s₂ (Eval.loadHost cfg name) (Eval.loadHost cfg name) fun m t₁ t₂ =>
      D.Holds w H t₁ t₂ ∧ t₁.HasModule m := by
  apply get_bind
  rw [holds.alike.find?]
  split
  · next m found => exact pure m ⟨holds, (holds.wf.found _ m found).1⟩
  · next absent =>
    split
    · exact raise holds nofun
    · next members listed =>
      apply bind (mapM (I := fun _ (objs : List (String × BoxId)) t₁ t₂ =>
        D.Holds w ((objs.map (·.2) : Multiset BoxId) + H) t₁ t₂ ∧ t₁.registry = s₁.registry) members
        ⟨by simpa using holds, rfl⟩ ?_)
      · intro objs t₁ t₂ _ ended
        obtain ⟨made, same⟩ := ended
        obtain ⟨closed, structs, fewer⟩ :=
          Scope.foldl_setObj (β := StructId) objs (s := .empty) ⟨rfl, rfl, rfl⟩ rfl
        have inHand :
            D.Holds w (((Module.ofObjects name objs).scope.objs : Multiset BoxId) + H) t₁ t₂ :=
          made.drop (add_le_add_left (fewer.trans_eq (add_zero _)) H)
        have fresh : t₁.registry.find? (Module.ofObjects name objs).key = none := by
          rw [same]
          exact absent
        apply addModule_bind inHand fresh closed structs
        intro w' u₁ u₂ id _ opened loaded
        apply bind (traceText loaded 1 _)
        intro _ v₁ v₂ grew traced
        exact pure id ⟨traced, opened.module.mono grew⟩
      · intro e member before objs t₁ t₂ _ ended
        obtain ⟨made, same⟩ := ended
        apply bind (allocKeeping made (valid_hostModules listed t₁ e member))
        intro b u₁ u₂ _ ended
        obtain ⟨after, same'⟩ := ended
        refine pure _ ⟨?_, same'.trans same⟩
        rw [List.map_append, ← Multiset.coe_add, add_right_comm, add_comm]
        exact after

theorem importModule (contract : D.Contract ev₁ ev₂) (holds : D.Holds w H s₁ s₂)
    (name : String) :
    D.Agree w s₁ s₂ (Eval.importModule ev₁ cfg ctx name) (Eval.importModule ev₂ cfg ctx name)
      fun m t₁ t₂ => D.Holds w H t₁ t₂ ∧ t₁.HasModule m := by
  apply get_bind
  rw [holds.alike.directory]
  dsimp only
  split
  · exact loadFile contract holds ctx.calls _
  · exact loadHost holds name

theorem importStatement (contract : D.Contract ev₁ ev₂) (holds : D.Holds w H s₁ s₂)
    (opened : D.OpenFor w s₁ ctx.module) (target : String) :
    D.Agree w s₁ s₂ (Eval.importStatement ev₁ cfg ctx target)
      (Eval.importStatement ev₂ cfg ctx target) fun _ t₁ t₂ => D.Holds w H t₁ t₂ := by
  apply bind (importModule contract holds target)
  intro m t₁ t₂ grew ended
  obtain ⟨after, there⟩ := ended
  apply get_bind
  rw [after.alike.name]
  apply bind (alloc (v := .module m _) after there)
  intro b u₁ u₂ grew' made
  have later := grew.trans grew'
  exact setObj made (opened.mono later) _

/-! ## Conditionals and loops -/

theorem condition (contract : D.Contract ev₁ ev₂) (holds : D.Holds w H s₁ s₂)
    (here : D.Here w s₁ ctx.module) (what : String) (e : Expr) :
    D.Agree w s₁ s₂ (Eval.condition ev₁ cfg ctx what e) (Eval.condition ev₂ cfg ctx what e)
      fun _ t₁ t₂ => D.Holds w H t₁ t₂ := by
  apply bind (contract.expr ctx e holds here)
  intro b t₁ t₂ _ ended
  obtain ⟨after, -⟩ := ended
  apply get_bind
  rw [after.alike.heap]
  apply read_bind after b
  apply bind (trace after cfg 3 ?_)
  · intro _ u₁ u₂ _ traced
    exact pure _ traced
  · apply look_bind (canonical after cfg b)
    intro shown
    exact pure _ ⟨rfl, rfl⟩

theorem runBranches (contract : D.Contract ev₁ ev₂) (otherwise : Option Block)
    (branches : List (Expr × Block)) (holds : D.Holds w H s₁ s₂)
    (opened : D.OpenFor w s₁ ctx.module) :
    D.Agree w s₁ s₂ (Eval.runBranches ev₁ cfg ctx otherwise branches)
      (Eval.runBranches ev₂ cfg ctx otherwise branches) fun flow t₁ t₂ =>
        D.Holds w H t₁ t₂ ∧ t₁.HasFlow flow := by
  induction branches generalizing s₁ s₂ with
  | nil =>
    cases otherwise with
    | none => exact pure _ ⟨holds, trivial⟩
    | some block => exact runBlock contract block holds opened
  | cons branch branches ih =>
    rcases branch with ⟨e, block⟩
    apply bind (condition contract holds opened.here "if" e)
    intro chosen t₁ t₂ grew after
    have opened' := opened.mono grew
    cases chosen with
    | true => exact runBlock contract block after opened'
    | false => exact ih after opened'

theorem hasFlow_of_afterTurn {s : State} {flow flow' : Flow} (flows : s.HasFlow flow)
    (ends : afterTurn flow = some flow') : s.HasFlow flow' := by
  cases flow with
  | breakLoop =>
    cases ends
    trivial
  | returnValue b =>
    cases ends
    exact flows
  | done | value | continueLoop => cases ends

/-- The turns of a loop over a sequence.  The induction is on the boxes that are left. -/
theorem forTurns (contract : D.Contract ev₁ ev₂) (counter element : String) (body : Block)
    (boxes : List BoxId) (turn : Nat) (holds : D.Holds w H s₁ s₂)
    (opened : D.OpenFor w s₁ ctx.module) :
    D.Agree w s₁ s₂ (Eval.forTurns ev₁ ctx counter element body boxes turn)
      (Eval.forTurns ev₂ ctx counter element body boxes turn) fun flow t₁ t₂ =>
        D.Holds w H t₁ t₂ ∧ t₁.HasFlow flow := by
  induction boxes generalizing s₁ s₂ turn with
  | nil => exact pure _ ⟨holds, trivial⟩
  | cons b boxes ih =>
    apply bind (alloc (v := .int _) holds trivial)
    intro c t₁ t₂ grew counted
    apply bind (declareObj counted (opened.mono grew) counter)
    intro _ u₁ u₂ grew' declared
    apply bind (copy declared b)
    intro e v₁ v₂ grew'' copied
    have later := (grew.trans grew').trans grew''
    apply bind (declareObj copied (opened.mono later) element)
    intro _ x₁ x₂ grew₃ ready
    have later' := later.trans grew₃
    apply bind (runBlock contract body ready (opened.mono later'))
    intro flow y₁ y₂ grew₄ ended
    obtain ⟨after, flows⟩ := ended
    have last := later'.trans grew₄
    split
    · next flow' ends => exact pure _ ⟨after, hasFlow_of_afterTurn flows ends⟩
    · exact ih (turn + 1) after (opened.mono last)

theorem forLoop (contract : D.Contract ev₁ ev₂) (holds : D.Holds w H s₁ s₂)
    (blocks : D.BlocksFor w s₁ ctx.module) (target : Expr)
    (counter element : String) (body : Block) :
    D.Agree w s₁ s₂ (Eval.forLoop ev₁ ctx target counter element body)
      (Eval.forLoop ev₂ ctx target counter element body) fun flow t₁ t₂ =>
        D.Holds w H t₁ t₂ ∧ t₁.HasFlow flow := by
  apply bind (contract.expr ctx target holds blocks.here)
  intro t t₁ t₂ grew ended
  obtain ⟨after, -⟩ := ended
  apply read_bind after t
  dsimp only
  split
  · apply look_bind (typeName after t)
    intro name
    exact raiseAt_bind after nofun
  · next isSequence =>
    apply inBlock after (blocks.mono grew)
    intro w' u₁ u₂ _ opened entered
    apply find_bind (ofValue entered (by simpa using isSequence))
    intro q _
    apply bind (elements entered q)
    intro boxes v₁ v₂ grew' ended
    obtain ⟨listed, -⟩ := ended
    exact forTurns contract counter element body boxes 0 listed (opened.mono grew')

/-- The turns of a loop with a condition.  The induction is on the turns it may take. -/
theorem whileTurns (contract : D.Contract ev₁ ev₂) (e : Expr) (body : Block) (turns : Nat)
    (holds : D.Holds w H s₁ s₂) (opened : D.OpenFor w s₁ ctx.module) :
    D.Agree w s₁ s₂ (Eval.whileTurns ev₁ cfg ctx e body turns)
      (Eval.whileTurns ev₂ cfg ctx e body turns) fun flow t₁ t₂ =>
        D.Holds w H t₁ t₂ ∧ t₁.HasFlow flow := by
  induction turns generalizing s₁ s₂ with
  | zero => exact throw holds id
  | succ turns ih =>
    apply bind (condition contract holds opened.here "loop" e)
    intro again t₁ t₂ grew tested
    have opened' := opened.mono grew
    cases again with
    | false => exact pure _ ⟨tested, trivial⟩
    | true =>
      apply bind (runBlock contract body tested opened')
      intro flow u₁ u₂ grew' ended
      obtain ⟨after, flows⟩ := ended
      split
      · next flow' ends => exact pure _ ⟨after, hasFlow_of_afterTurn flows ends⟩
      · exact ih after (opened'.mono grew')

/-! ## Definitions -/

theorem defineFunction (holds : D.Holds w H s₁ s₂) (opened : D.OpenFor w s₁ ctx.module)
    (d : FunctionDecl) :
    D.Agree w s₁ s₂ (Eval.defineFunction cfg ctx d) (Eval.defineFunction cfg ctx d) fun _ t₁ t₂ =>
      D.Holds w H t₁ t₂ := by
  apply bind (allocFunction holds opened.module)
  intro f t₁ t₂ grew ended
  obtain ⟨made, there⟩ := ended
  apply bind (alloc (v := .function f) made there)
  intro b u₁ u₂ grew' boxed
  have later := grew.trans grew'
  apply bind (setObj boxed (opened.mono later) d.name)
  intro _ v₁ v₂ _ bound
  exact traceText bound 2 _

/-- Names among which none is found twice are different. -/
theorem nodup_of_duplicate? {names : List String} :
    ∀ {seen : List String}, duplicate? names seen = none →
      names.Nodup ∧ ∀ name ∈ names, name ∉ seen := by
  induction names with
  | nil => exact fun _ => ⟨List.nodup_nil, nofun⟩
  | cons name names ih =>
    intro seen unique
    rw [duplicate?] at unique
    split at unique
    · cases unique
    · next new =>
      obtain ⟨distinct, fresh⟩ := ih unique
      refine ⟨List.nodup_cons.2 ⟨?_, distinct⟩, ?_⟩
      · exact fun member => fresh name member List.mem_cons_self
      · intro other member
        rcases List.mem_cons.1 member with rfl | later
        · simpa using new
        · exact fun old => fresh other later (List.mem_cons_of_mem _ old)

theorem defineStruct (holds : D.Holds w H s₁ s₂) (opened : D.OpenFor w s₁ ctx.module)
    (name : String) (fields : List String) (methods : List FunctionDecl) :
    D.Agree w s₁ s₂ (Eval.defineStruct cfg ctx name fields methods)
      (Eval.defineStruct cfg ctx name fields methods) fun _ t₁ t₂ => D.Holds w H t₁ t₂ := by
  unfold Eval.defineStruct
  dsimp only
  split
  · exact raise_bind holds nofun
  · next unique =>
    apply bind (mapM (I := fun _ (functions : List (String × FunctionId)) t₁ t₂ =>
      D.Holds w H t₁ t₂ ∧ ∀ e ∈ functions, t₁.HasFunction e.2) methods ⟨holds, nofun⟩ ?_)
    · intro functions t₁ t₂ grew ended
      obtain ⟨made, there⟩ := ended
      have defined : ∀ f ∈ (OrderedMap.ofList functions).values, t₁.HasFunction f := by
        intro f member
        rcases OrderedMap.mem_values_insertMany member with new | old
        · obtain ⟨e, listed, rfl⟩ := List.mem_map.1 new
          exact there e listed
        · cases old
      apply bind (allocStruct (d := ⟨name, fields, .ofList functions⟩) made
        ⟨(nodup_of_duplicate? unique).1, OrderedMap.nodup_keys_ofList functions⟩ defined)
      intro c u₁ u₂ grew' ended
      obtain ⟨structed, there'⟩ := ended
      have later := grew.trans grew'
      apply bind (setStruct structed (opened.mono later) name there')
      intro _ v₁ v₂ _ bound
      exact traceText bound 2 _
    · intro d _ before functions t₁ t₂ grew ended
      obtain ⟨made, there⟩ := ended
      apply bind (allocFunction made (opened.module.mono grew))
      intro f u₁ u₂ grew' ended
      obtain ⟨after, there'⟩ := ended
      refine pure _ ⟨after, ?_⟩
      intro e member
      rcases List.mem_append.1 member with old | new
      · exact (there e old).mono grew'
      · cases List.mem_singleton.1 new
        exact there'

/-! ## Statements -/

/-- A statement keeps a contract that its parts keep. -/
theorem stmt (contract : D.Contract ev₁ ev₂) (holds : D.Holds w H s₁ s₂)
    (turns : Nat) (s : Stmt) (admitted : D.Admits w s₁ ctx.module s) :
    D.Agree w s₁ s₂ (Eval.stmt ev₁ cfg turns ctx s) (Eval.stmt ev₂ cfg turns ctx s)
      fun flow t₁ t₂ => D.Holds w H t₁ t₂ ∧ t₁.HasFlow flow := by
  -- a step that ends without a value
  have plain : ∀ {a₁ a₂ : Eval Unit}, D.Agree w s₁ s₂ a₁ a₂ (fun _ t₁ t₂ => D.Holds w H t₁ t₂) →
      D.Agree w s₁ s₂ (a₁ >>= fun _ => Pure.pure Flow.done) (a₂ >>= fun _ => Pure.pure Flow.done)
        fun flow t₁ t₂ => D.Holds w H t₁ t₂ ∧ t₁.HasFlow flow :=
    fun ends => bind ends fun _ _ _ _ after => pure _ ⟨after, trivial⟩
  apply located
  cases s with
  | comment p text => exact pure _ ⟨holds, trivial⟩
  | assign p op left right => exact plain (assign contract holds admitted op left right)
  | conditional p branches otherwise =>
    apply inBlock holds admitted
    intro w' t₁ t₂ _ opened entered
    exact runBranches contract otherwise branches entered opened
  | forIn p target counter element body =>
    exact forLoop contract holds admitted target counter.name element.name body
  | loop p e body =>
    apply inBlock holds admitted
    intro w' t₁ t₂ _ opened entered
    exact whileTurns contract e body turns entered opened
  | function d => exact plain (defineFunction holds admitted d)
  | structDecl p name fields methods =>
    exact plain (defineStruct holds admitted name fields methods)
  | importModule p target => exact plain (importStatement contract holds admitted target)
  | returnValue p value =>
    cases value with
    | none => exact pure _ ⟨holds, trivial⟩
    | some e =>
      apply bind (contract.expr ctx e holds admitted.here)
      intro b t₁ t₂ _ ended
      obtain ⟨after, there⟩ := ended
      exact pure _ ⟨after, there⟩
  | breakLoop p => exact pure _ ⟨holds, trivial⟩
  | continueLoop p => exact pure _ ⟨holds, trivial⟩
  | expr e =>
    apply bind (contract.expr ctx e holds admitted.here)
    intro b t₁ t₂ _ ended
    obtain ⟨after, there⟩ := ended
    exact pure _ ⟨after, there⟩

end Discipline.Agree

theorem evaluators_expr (cfg : Config) (fuel : Nat) :
    (evaluators cfg fuel).expr = evalExpr cfg fuel := by
  rw [evaluators]

theorem evaluators_stmt (cfg : Config) (fuel : Nat) :
    (evaluators cfg fuel).stmt = evalStmt cfg fuel := by
  rw [evaluators]

namespace Discipline

/-- The machine keeps the contract of every discipline. -/
theorem contract (D : Discipline) (cfg : Config) (fuel : Nat) :
    D.Contract (evaluators cfg fuel) (evaluators cfg fuel) := by
  induction fuel with
  | zero =>
    constructor
    · intro w H s₁ s₂ ctx e holds here
      rw [evaluators_expr, evalExpr_zero]
      exact Agree.throw holds id
    · intro w H s₁ s₂ ctx s holds admitted
      rw [evaluators_stmt, evalStmt_zero]
      exact Agree.throw holds id
  | succ fuel ih =>
    constructor
    · intro w H s₁ s₂ ctx e holds here
      rw [evaluators_expr, evalExpr_succ]
      exact Agree.expr ih holds here e
    · intro w H s₁ s₂ ctx s holds admitted
      rw [evaluators_stmt, evalStmt_succ]
      exact Agree.stmt ih holds fuel s admitted

variable {D : Discipline} {w : D.World} {H : Multiset BoxId} {s₁ s₂ : State}

theorem agree_evalExpr (ctx : Context) (holds : D.Holds w H s₁ s₂) (here : D.Here w s₁ ctx.module)
    (cfg : Config) (fuel : Nat) (e : Expr) :
    D.Agree w s₁ s₂ (evalExpr cfg fuel ctx e) (evalExpr cfg fuel ctx e) fun b t₁ t₂ =>
      D.Holds w H t₁ t₂ ∧ t₁.HasBox b := by
  rw [← evaluators_expr]
  exact (D.contract cfg fuel).expr ctx e holds here

theorem agree_evalStmt (ctx : Context) (holds : D.Holds w H s₁ s₂) (cfg : Config) (fuel : Nat)
    {s : Stmt} (admitted : D.Admits w s₁ ctx.module s) :
    D.Agree w s₁ s₂ (evalStmt cfg fuel ctx s) (evalStmt cfg fuel ctx s) fun flow t₁ t₂ =>
      D.Holds w H t₁ t₂ ∧ t₁.HasFlow flow := by
  rw [← evaluators_stmt]
  exact (D.contract cfg fuel).stmt ctx s holds admitted

end Discipline

end Shiba

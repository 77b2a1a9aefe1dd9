import Shiba.Eval.Call
import Shiba.Proofs.Lockstep.Operators

/-!
# Contracts of evaluators, and calls

What lies inside a construct is evaluated by evaluators of which nothing is known but their
`Discipline.Contract`.  A call of a function of the program runs its body in a new frame; a method's
frame begins with the field boxes of its receiver, which is why `State.enter` takes them.
-/

namespace Shiba

/-! ## Frames that begin with fields -/

namespace Eval

theorem run_onScope {s : State} {m m' : ModuleId} {f : Scope BoxId StructId → Scope BoxId StructId}
    (stands : s.Stands m m') : onScope m f s = (.ok (), s.modifyScope m' f) := by
  rw [onScope, bind_ok (Discipline.Agree.run_resolve stands)]
  rfl

/-- Declaring names one after another at the beginning of a call binds them in its body. -/
theorem run_declareObj {s : State} {m m' : ModuleId} (stands : s.Stands m m') (here : s.HasModule m)
    (entries : List (String × BoxId)) : ∀ before : List (String × BoxId),
      ((before ++ entries).map (·.1)).Nodup →
        (entries.forM fun e => declareObj m e.1 e.2) (s.enter m' ⟨before⟩) =
          (.ok (), s.enter m' ⟨before ++ entries⟩) := by
  induction entries with
  | nil =>
    intro before _
    rw [List.append_nil]
    rfl
  | cons entry entries ih =>
    intro before distinct
    have fresh := OrderedMap.notMem_of_nodup distinct
    have declared : declareObj m entry.1 entry.2 (s.enter m' ⟨before⟩) =
        (.ok (), s.enter m' ⟨before ++ [entry]⟩) := by
      have stands' : (s.enter m' ⟨before⟩).Stands m m' :=
        stands.mono (s.extends_modifyScope m' _) here
      rw [declareObj, run_onScope stands']
      simp only [State.enter, State.modifyScope, Registry.modifyScope_modifyScope]
      simp only [Scope.addFrame, Scope.declareObj, Scope.modifyCurrent, Levels.declare,
        OrderedMap.insert, OrderedMap.insertEntry_of_notMem fresh]
    have later := ih (before ++ [entry]) (by simpa using distinct)
    change (declareObj m entry.1 entry.2 >>= fun _ => entries.forM fun e => declareObj m e.1 e.2) _ = _
    rw [bind_ok declared, later, List.append_assoc, List.singleton_append]

/-- The names a call with a receiver begins with: its fields. -/
def receivedNames (h : Heap) : Option InstanceId → OrderedMap String BoxId
  | some i => (h.instanceAt i).fields
  | none => .empty

/-- What a call with a receiver declares next: its methods. -/
def receivedMethods (h : Heap) : Option InstanceId → List (String × Value)
  | some i => (h.structDef (h.instanceAt i).definition).methods.entries.map fun e =>
      (e.1, .method e.2 i)
  | none => []

/-- What is left of a call when the fields of the receiver have been declared. -/
def runRest (ev : Evaluators) (cfg : Config) (calls : Nat) (f : Function)
    (methods : List (String × Value)) (args : List BoxId) : Eval Flow := do
  methods.forM fun e => do declareObj f.module e.1 (← alloc e.2)
  declareArgs cfg f.module f.params args
  runBlock (ev.stmt ⟨f.module, calls⟩) f.body

/-- A call begins with the fields of its receiver. -/
theorem runBody_apply {s : State} {m' : ModuleId} {f : Function} {receiver : Option InstanceId}
    (here : s.HasModule f.module) (stands : s.Stands f.module m')
    (distinct : ∀ i ∈ receiver, (s.heap.instanceAt i).fields.keys.Nodup) (ev : Evaluators)
    (cfg : Config) (calls : Nat) (args : List BoxId) :
    runBody ev cfg calls f receiver args (s.modifyScope m' Scope.pushFunction) =
      runRest ev cfg calls f (receivedMethods s.heap receiver) args
        (s.enter m' (receivedNames s.heap receiver)) := by
  cases receiver with
  | none => rfl
  | some i =>
    have declared := run_declareObj stands here (s.heap.instanceAt i).fields.entries []
      (distinct i rfl)
    apply bind_congr
    change (((s.heap.instanceAt i).fields.entries.forM fun e => declareObj f.module e.1 e.2) >>= _)
      (s.enter m' ⟨[]⟩) = _
    rw [bind_ok declared]
    simp only [receivedMethods, List.forM_eq_forM, List.forM_map]
    rfl

end Eval

namespace Discipline

/-! ## Contracts -/

/-- What a statement of a module needs: a place to open a block for those that do, and to bind names
for all others. -/
def Admits (D : Discipline) (w : D.World) (s : State) (m : ModuleId) : Stmt → Prop
  | .conditional .. | .forIn .. | .loop .. => D.BlocksFor w s m
  | _ => D.OpenFor w s m

theorem OpenFor.admits {D : Discipline} {w : D.World} {s : State} {m : ModuleId}
    (opened : D.OpenFor w s m) (stmt : Stmt) : D.Admits w s m stmt := by
  cases stmt with
  | conditional | forIn | loop => exact opened.blocks
  | comment | importModule | expr | assign | function | structDecl | returnValue | breakLoop
  | continueLoop => exact opened

/-- Two evaluators end alike wherever the discipline holds, and it holds again when they have ended. -/
structure Contract (D : Discipline) (ev₁ ev₂ : Evaluators) : Prop where
  expr : ∀ {w H s₁ s₂} (ctx : Context) (e : Expr), D.Holds w H s₁ s₂ → D.Here w s₁ ctx.module →
    D.Agree w s₁ s₂ (ev₁.expr ctx e) (ev₂.expr ctx e) fun b t₁ t₂ =>
      D.Holds w H t₁ t₂ ∧ t₁.HasBox b
  stmt : ∀ {w H s₁ s₂} (ctx : Context) (s : Stmt), D.Holds w H s₁ s₂ →
    D.Admits w s₁ ctx.module s →
    D.Agree w s₁ s₂ (ev₁.stmt ctx s) (ev₂.stmt ctx s) fun flow t₁ t₂ =>
      D.Holds w H t₁ t₂ ∧ t₁.HasFlow flow

namespace Agree

open Eval

variable {D : Discipline} {w : D.World} {H K : Multiset BoxId} {s₁ s₂ : State}
  {ev₁ ev₂ : Evaluators} {cfg : Config} {ctx : Context}

/-- The statements of a block, one after another. -/
theorem runBlock (contract : D.Contract ev₁ ev₂) (block : Block) (holds : D.Holds w H s₁ s₂)
    (opened : D.OpenFor w s₁ ctx.module) :
    D.Agree w s₁ s₂ (Eval.runBlock (ev₁.stmt ctx) block) (Eval.runBlock (ev₂.stmt ctx) block)
      fun flow t₁ t₂ => D.Holds w H t₁ t₂ ∧ t₁.HasFlow flow := by
  induction block generalizing s₁ s₂ with
  | nil => exact pure _ ⟨holds, trivial⟩
  | cons stmt block ih =>
    apply bind (contract.stmt ctx stmt holds (opened.admits stmt))
    intro flow t₁ t₂ grew ended
    obtain ⟨after, flows⟩ := ended
    split
    · exact pure _ ⟨after, flows⟩
    · exact ih after (opened.mono grew)

/-! ## Calls -/

/-- Parameters are bound to deep copies of the arguments. -/
theorem declareArgs {m : ModuleId} (holds : D.Holds w H s₁ s₂) (opened : D.OpenFor w s₁ m)
    (params : List String) (args : List BoxId) :
    D.Agree w s₁ s₂ (Eval.declareArgs cfg m params args) (Eval.declareArgs cfg m params args)
      fun _ t₁ t₂ => D.Holds w H t₁ t₂ := by
  apply forM (I := fun _ t₁ t₂ => D.Holds w H t₁ t₂) _ holds
  intro e _ before t₁ t₂ grew here'
  apply bind (clone here' cfg.dataLimit e.2)
  intro copied u₁ u₂ grew' after
  have grew'' := grew.trans grew'
  exact declareObj after (opened.mono grew'') e.1

/-- Values are bound to names in new boxes. -/
theorem declareValues {m : ModuleId} (holds : D.Holds w H s₁ s₂) (opened : D.OpenFor w s₁ m)
    {values : List (String × Value)} (valid : ∀ e ∈ values, s₁.Valid e.2) :
    D.Agree w s₁ s₂ (values.forM fun e => do Eval.declareObj m e.1 (← Eval.alloc e.2))
      (values.forM fun e => do Eval.declareObj m e.1 (← Eval.alloc e.2))
      fun _ t₁ t₂ => D.Holds w H t₁ t₂ := by
  apply forM (I := fun _ t₁ t₂ => D.Holds w H t₁ t₂) _ holds
  intro e member before t₁ t₂ grew here'
  apply bind (alloc here' ((valid e member).mono grew))
  intro b u₁ u₂ grew' after
  have grew'' := grew.trans grew'
  exact declareObj after (opened.mono grew'') e.1

theorem valid_receivedMethods {s : State} {receiver : Option InstanceId} (wf : s.WellFormed)
    (there : ∀ i ∈ receiver, s.HasInstance i) :
    ∀ e ∈ receivedMethods s.heap receiver, s.Valid e.2 := by
  intro e member
  cases receiver with
  | none => cases member
  | some i =>
    obtain ⟨method, listed, rfl⟩ := List.mem_map.1 member
    have defined := (wf.struct_ok (wf.shaped (there i rfl)).definition).2
    exact ⟨defined _ (List.mem_map_of_mem listed), there i rfl⟩

theorem receives_receivedNames {s : State} {receiver : Option InstanceId}
    (there : ∀ i ∈ receiver, s.HasInstance i) : s.Receives (receivedNames s.heap receiver) := by
  cases receiver with
  | none => exact .inl rfl
  | some i => exact .inr ⟨i, there i rfl, rfl⟩

/-- What is left of a call when the fields of the receiver have been declared. -/
theorem runRest (contract : D.Contract ev₁ ev₂) (holds : D.Holds w H s₁ s₂) {f : Function}
    (opened : D.OpenFor w s₁ f.module) {methods : List (String × Value)}
    (valid : ∀ e ∈ methods, s₁.Valid e.2) (calls : Nat) (args : List BoxId) :
    D.Agree w s₁ s₂ (Eval.runRest ev₁ cfg calls f methods args)
      (Eval.runRest ev₂ cfg calls f methods args) fun flow t₁ t₂ =>
        D.Holds w H t₁ t₂ ∧ t₁.HasFlow flow := by
  apply bind (declareValues holds opened valid)
  intro _ t₁ t₂ grew declared
  have opened' := opened.mono grew
  apply bind (declareArgs declared opened' f.params args)
  intro _ u₁ u₂ grew' after
  exact runBlock contract f.body after (opened'.mono grew')

theorem answerFlow {flow : Flow} (holds : D.Holds w H s₁ s₂) (f : Function)
    (flows : s₁.HasFlow flow) :
    D.Agree w s₁ s₂ (Eval.answer f flow) (Eval.answer f flow) fun b t₁ t₂ =>
      D.Holds w H t₁ t₂ ∧ t₁.HasBox b := by
  unfold Eval.answer
  split
  · exact pure _ ⟨holds, flows⟩
  · exact raise holds nofun
  · exact raise holds nofun
  · exact allocFree holds trivial

/-- A call of a function of the program. -/
theorem callFunction (contract : D.Contract ev₁ ev₂) (holds : D.Holds w H s₁ s₂) {f : Function}
    (here : s₁.HasModule f.module) {receiver : Option InstanceId}
    (there : ∀ i ∈ receiver, s₁.HasInstance i) (calls : Nat) (args : List BoxId) :
    D.Agree w s₁ s₂ (Eval.callFunction ev₁ cfg calls f receiver args)
      (Eval.callFunction ev₂ cfg calls f receiver args) fun b t₁ t₂ =>
        D.Holds w H t₁ t₂ ∧ t₁.HasBox b := by
  unfold Eval.callFunction
  dsimp only
  split
  · exact raise_bind holds nofun
  · apply bind (traceCall holds cfg args _ ?_)
    · intro _ t₁ t₂ grew traced
      cases calls with
      | zero => exact throw traced id
      | succ calls =>
        have here' := here.mono grew
        have there' : ∀ i ∈ receiver, t₁.HasInstance i := fun i isReceiver =>
          (there i isReceiver).mono grew
        have distinct : ∀ i ∈ receiver, (t₁.heap.instanceAt i).fields.keys.Nodup :=
          fun i isReceiver => traced.wf.nodup_fields (there' i isReceiver)
        obtain ⟨m', stands, -⟩ := traced.wf.stands here'
        have begins₁ := runBody_apply here' stands distinct ev₁ cfg calls args
        have begins₂ := runBody_apply (traced.alike.hasModule here')
          (stands_alike traced.alike stands) (by rw [traced.alike.heap]; exact distinct) ev₂ cfg calls
          args
        rw [traced.alike.heap] at begins₂
        have valid := valid_receivedMethods traced.wf there'
        apply bind (inFunction traced here' stands (receives_receivedNames there') begins₁ begins₂ ?_)
        · intro flow u₁ u₂ _ ended
          obtain ⟨after, flows⟩ := ended
          exact answerFlow after f flows
        · intro w' u₁ u₂ grew' opened entered
          exact runRest contract entered opened
            (fun e member => (valid e member).mono grew') calls args
    · intro shown
      apply get_bind
      rw [holds.alike.name]
      exact pure _ ⟨rfl, rfl⟩

/-- A call of whatever is in a box. -/
theorem call (contract : D.Contract ev₁ ev₂) (holds : D.Holds w H s₁ s₂) (calls : Nat)
    (callee : BoxId) (args : List BoxId) :
    D.Agree w s₁ s₂ (Eval.call ev₁ cfg calls callee args) (Eval.call ev₂ cfg calls callee args)
      fun b t₁ t₂ => D.Holds w H t₁ t₂ ∧ t₁.HasBox b := by
  have valid := holds.wf.valid_value callee
  apply get_bind
  rw [holds.alike.heap]
  dsimp only
  split
  · exact builtinCall holds cfg _ args
  · next f isFunction =>
    rw [isFunction] at valid
    refine callFunction contract holds (holds.wf.hasModule valid) ?_ calls args
    intro i given
    cases given
  · next f receiver isMethod =>
    rw [isMethod] at valid
    refine callFunction contract holds (holds.wf.hasModule valid.1) ?_ calls args
    intro i given
    cases given
    exact valid.2
  · exact raise holds nofun

end Agree

end Discipline

end Shiba

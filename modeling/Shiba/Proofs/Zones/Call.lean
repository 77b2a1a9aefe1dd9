import Shiba.Eval.Call
import Shiba.Proofs.Zones.Operators

/-!
# What may be evaluated, and calls

Under a policy that leaves something out, not all code may be run: only code that defines nothing, selects
no members and mentions no names but those the policy has.  Such code can call what it likes, since
within its reach there is nothing to call but the functions that come with the language.

* `Expr.Plain`, `Stmt.Plain`: code of that kind.
* `Guarded.Contract`: evaluators that keep to their zones.  Expressions evaluate to boxes a program can
  see, and what is written into is live.
* `Guarded.Safe.callFunction`: calls, where nothing is left out.
-/

namespace Shiba

/-! ## Plain code -/

/-- An expression that selects no members, and in which all names have a property. -/
inductive Expr.Plain (N : String → Prop) : Expr → Prop
  | literal {p : Position} {value : Literal} : Plain N (.literal p value)
  | list {p : Position} {elements : List Expr} : (∀ e ∈ elements, Plain N e) →
    Plain N (.list p elements)
  | dict {p : Position} {entries : List (Expr × Expr)} : (∀ e ∈ entries, Plain N e.1) →
    (∀ e ∈ entries, Plain N e.2) → Plain N (.dict p entries)
  | ident {p : Position} {name : String} : N name → Plain N (.ident p name)
  | index {p : Position} {target index : Expr} : Plain N target → Plain N index →
    Plain N (.index p target index)
  | slice {p : Position} {target : Expr} {first last : Option Expr} : Plain N target →
    (∀ e ∈ first, Plain N e) → (∀ e ∈ last, Plain N e) → Plain N (.slice p target first last)
  | unary {p : Position} {op : UnaryOp} {operand : Expr} : Plain N operand →
    Plain N (.unary p op operand)
  | binary {p : Position} {op : BinaryOp} {left right : Expr} : Plain N left → Plain N right →
    Plain N (.binary p op left right)
  | structInit {p brace : Position} {name : String} {fields : List (Ident × Expr)} :
    (∀ e ∈ fields, Plain N e.2) → Plain N (.structInit p name brace fields)
  | call {p : Position} {callee : Expr} {args : List Expr} : Plain N callee →
    (∀ e ∈ args, Plain N e) → Plain N (.call p callee args)

/-- A statement that defines no function, no struct and no module, and is made of plain expressions. -/
inductive Stmt.Plain (N : String → Prop) : Stmt → Prop
  | comment {p : Position} {text : String} : Plain N (.comment p text)
  | expr {e : Expr} : e.Plain N → Plain N (.expr e)
  | assign {p : Position} {op : AssignOp} {left right : List Expr} : (∀ e ∈ left, e.Plain N) →
    (∀ e ∈ right, e.Plain N) → Plain N (.assign p op left right)
  | conditional {p : Position} {branches : List (Expr × Block)} {otherwise : Option Block} :
    (∀ b ∈ branches, b.1.Plain N) → (∀ b ∈ branches, ∀ s ∈ b.2, Plain N s) →
    (∀ block ∈ otherwise, ∀ s ∈ block, Plain N s) → Plain N (.conditional p branches otherwise)
  | forIn {p : Position} {target : Expr} {counter element : Ident} {body : Block} : target.Plain N →
    (∀ s ∈ body, Plain N s) → Plain N (.forIn p target counter element body)
  | loop {p : Position} {condition : Expr} {body : Block} : condition.Plain N →
    (∀ s ∈ body, Plain N s) → Plain N (.loop p condition body)
  | returnValue {p : Position} {value : Option Expr} : (∀ e ∈ value, e.Plain N) →
    Plain N (.returnValue p value)
  | breakLoop {p : Position} : Plain N (.breakLoop p)
  | continueLoop {p : Position} : Plain N (.continueLoop p)

namespace Policy

variable (P : Policy)

/-- An expression may be evaluated. -/
def Admits (e : Expr) : Prop := P.full ∨ e.Plain P.names

/-- A statement may be run. -/
def Runs (s : Stmt) : Prop := P.full ∨ s.Plain P.names

/-- A block may be run. -/
def RunsAll (block : Block) : Prop := ∀ s ∈ block, P.Runs s

end Policy

/-! ### Parts of what may be evaluated -/

namespace Policy.Admits

variable {P : Policy} {p : Position}

theorem name {name : String} (admitted : P.Admits (.ident p name)) : P.names name := by
  rcases admitted with full | plain
  · exact (P.whole full).1 name
  · cases plain with
    | ident named => exact named

theorem list {elements : List Expr} (admitted : P.Admits (.list p elements)) :
    ∀ e ∈ elements, P.Admits e := by
  intro e member
  apply admitted.imp_right
  intro plain
  cases plain with
  | list inside => exact inside e member

theorem dict {entries : List (Expr × Expr)} (admitted : P.Admits (.dict p entries)) :
    ∀ e ∈ entries, P.Admits e.1 ∧ P.Admits e.2 := by
  intro e member
  rcases admitted with full | plain
  · exact ⟨.inl full, .inl full⟩
  · cases plain with
    | dict keys values => exact ⟨.inr (keys e member), .inr (values e member)⟩

theorem index {target index : Expr} (admitted : P.Admits (.index p target index)) :
    P.Admits target ∧ P.Admits index := by
  rcases admitted with full | plain
  · exact ⟨.inl full, .inl full⟩
  · cases plain with
    | index target index => exact ⟨.inr target, .inr index⟩

theorem slice {target : Expr} {first last : Option Expr} (admitted : P.Admits (.slice p target first last)) :
    P.Admits target ∧ (∀ e ∈ first, P.Admits e) ∧ ∀ e ∈ last, P.Admits e := by
  rcases admitted with full | plain
  · exact ⟨.inl full, fun _ _ => .inl full, fun _ _ => .inl full⟩
  · cases plain with
    | slice target first last =>
      exact ⟨.inr target, fun e given => .inr (first e given), fun e given => .inr (last e given)⟩

/-- Members are selected only where nothing is left out. -/
theorem select {target : Expr} {name : String} (admitted : P.Admits (.select p target name)) :
    P.full := by
  rcases admitted with full | plain
  · exact full
  · cases plain

theorem unary {op : UnaryOp} {operand : Expr} (admitted : P.Admits (.unary p op operand)) :
    P.Admits operand := by
  apply admitted.imp_right
  intro plain
  cases plain with
  | unary inside => exact inside

theorem binary {op : BinaryOp} {left right : Expr} (admitted : P.Admits (.binary p op left right)) :
    P.Admits left ∧ P.Admits right := by
  rcases admitted with full | plain
  · exact ⟨.inl full, .inl full⟩
  · cases plain with
    | binary left right => exact ⟨.inr left, .inr right⟩

theorem structInit {name : String} {brace : Position} {fields : List (Ident × Expr)}
    (admitted : P.Admits (.structInit p name brace fields)) : ∀ e ∈ fields, P.Admits e.2 := by
  intro e member
  apply admitted.imp_right
  intro plain
  cases plain with
  | structInit inside => exact inside e member

theorem call {callee : Expr} {args : List Expr} (admitted : P.Admits (.call p callee args)) :
    P.Admits callee ∧ ∀ e ∈ args, P.Admits e := by
  rcases admitted with full | plain
  · exact ⟨.inl full, fun _ _ => .inl full⟩
  · cases plain with
    | call callee args => exact ⟨.inr callee, fun e member => .inr (args e member)⟩

end Policy.Admits

namespace Policy.Runs

variable {P : Policy} {p : Position}

theorem expr {e : Expr} (runs : P.Runs (.expr e)) : P.Admits e := by
  apply runs.imp_right
  intro plain
  cases plain with
  | expr inside => exact inside

theorem assign {op : AssignOp} {left right : List Expr} (runs : P.Runs (.assign p op left right)) :
    (∀ e ∈ left, P.Admits e) ∧ ∀ e ∈ right, P.Admits e := by
  rcases runs with full | plain
  · exact ⟨fun _ _ => .inl full, fun _ _ => .inl full⟩
  · cases plain with
    | assign left right =>
      exact ⟨fun e member => .inr (left e member), fun e member => .inr (right e member)⟩

theorem conditional {branches : List (Expr × Block)} {otherwise : Option Block}
    (runs : P.Runs (.conditional p branches otherwise)) :
    (∀ b ∈ branches, P.Admits b.1 ∧ P.RunsAll b.2) ∧ ∀ block ∈ otherwise, P.RunsAll block := by
  rcases runs with full | plain
  · exact ⟨fun _ _ => ⟨.inl full, fun _ _ => .inl full⟩, fun _ _ _ _ => .inl full⟩
  · cases plain with
    | conditional conditions blocks last =>
      exact ⟨fun b member => ⟨.inr (conditions b member), fun s inside => .inr (blocks b member s inside)⟩,
        fun block given s inside => .inr (last block given s inside)⟩

theorem forIn {target : Expr} {counter element : Ident} {body : Block}
    (runs : P.Runs (.forIn p target counter element body)) : P.Admits target ∧ P.RunsAll body := by
  rcases runs with full | plain
  · exact ⟨.inl full, fun _ _ => .inl full⟩
  · cases plain with
    | forIn target body => exact ⟨.inr target, fun s inside => .inr (body s inside)⟩

theorem loop {condition : Expr} {body : Block} (runs : P.Runs (.loop p condition body)) :
    P.Admits condition ∧ P.RunsAll body := by
  rcases runs with full | plain
  · exact ⟨.inl full, fun _ _ => .inl full⟩
  · cases plain with
    | loop condition body => exact ⟨.inr condition, fun s inside => .inr (body s inside)⟩

theorem returnValue {e : Expr} (runs : P.Runs (.returnValue p (some e))) : P.Admits e := by
  apply runs.imp_right
  intro plain
  cases plain with
  | returnValue inside => exact inside e rfl

/-- Something is defined only where nothing is left out. -/
theorem defines {s : Stmt} (runs : P.Runs s) (defining : ∀ N, ¬ s.Plain N) : P.full :=
  runs.resolve_right (defining _)

end Policy.Runs

namespace Guarded

open Eval

variable {P : Policy} {σ τ : Guarded P} {ev₁ ev₂ : Evaluators} {ctx : Context}

/-! ## Contracts -/

/-- The boxes a statement ended with are boxes a program can see. -/
def SeenFlow (σ : Guarded P) : Flow → Prop
  | .value b => σ.Seen b
  | .returnValue (some b) => σ.Seen b
  | _ => True

theorem SeenFlow.mono {flow : Flow} (later : σ.Later τ) (seen : σ.SeenFlow flow) : τ.SeenFlow flow := by
  cases flow with
  | value b => exact Seen.mono later seen
  | returnValue b =>
    cases b with
    | none => trivial
    | some b => exact Seen.mono later seen
  | done | breakLoop | continueLoop => trivial

/-- Two evaluators end alike and keep to their zones. -/
structure Contract (P : Policy) (ev₁ ev₂ : Evaluators) : Prop where
  expr : ∀ {σ : Guarded P} (ctx : Context) {e : Expr}, σ.Here ctx.module → P.Admits e →
    σ.Safe (ev₁.expr ctx e) (ev₂.expr ctx e) fun b τ => τ.Seen b
  stmt : ∀ {σ : Guarded P} (ctx : Context) {s : Stmt}, σ.Here ctx.module → P.Runs s →
    σ.Safe (ev₁.stmt ctx s) (ev₂.stmt ctx s) fun flow τ => τ.SeenFlow flow

namespace Safe

/-- The statements of a block, one after another. -/
theorem runBlock (contract : Contract P ev₁ ev₂) {block : Block} (here : σ.Here ctx.module)
    (runs : P.RunsAll block) :
    σ.Safe (Eval.runBlock (ev₁.stmt ctx) block) (Eval.runBlock (ev₂.stmt ctx) block) fun flow τ =>
      τ.SeenFlow flow := by
  induction block generalizing σ with
  | nil => exact pure trivial
  | cons stmt block ih =>
    have ⟨first, rest⟩ := List.forall_mem_cons.1 runs
    apply bind (contract.stmt ctx here first)
    intro flow τ later seen
    split
    · exact pure seen
    · exact ih (here.mono later) rest

/-! ## Calls -/

/-- Parameters are bound to deep copies of the arguments. -/
theorem declareArgs {m : ModuleId} {params : List String} {args : List BoxId}
    (there : σ.state.HasModule m)
    (sources : ∀ b ∈ args, ∀ τ, σ.Later τ → τ.Source (τ.state.heap.value b)) :
    σ.Safe (Eval.declareArgs P.config m params args) (Eval.declareArgs P.config m params args)
      fun _ _ => True := by
  apply forM
  intro e member τ later
  have source := sources e.2 (List.of_mem_zip member).2 τ later
  apply bind (clone P.limit source (z := .live) Zone.live_ne_old)
  intro copied υ later' after
  exact declareObj ((there.mono later.grew).mono later'.grew) after.1 e.1

/-- The members of a live receiver may be declared where nothing is left out. -/
theorem declareMembers {m : ModuleId} {i : InstanceId} (full : P.full) (there : σ.state.HasModule m)
    (fit : σ.Fit .live (.struct i)) :
    σ.Safe (Eval.declareMembers m i) (Eval.declareMembers m i) fun _ _ => True := by
  have valid : σ.state.HasInstance i := fit.1
  have shaped := σ.wf.shaped valid
  apply get_bind
  apply bind (forM _ ?_)
  · intro _ τ later _
    apply forM
    intro e member υ later'
    have defined := (σ.wf.struct_ok shaped.definition).2 e.2 (List.mem_map_of_mem member)
    have method : σ.Fit .live (.method e.2 i) := ⟨⟨defined, valid⟩, .inr ⟨full, fit.2⟩⟩
    apply bind (alloc (method.mono (later.trans later')))
    intro b φ later'' live
    exact declareObj (there.mono ((later.trans later').trans later'').grew) live e.1
  · intro e member τ later
    have listed : e.2 ∈ (σ.state.heap.instanceAt i).fields.values := List.mem_map_of_mem member
    have live : σ.In .live e.2 := ⟨(shaped.boxes e.2 listed).2, (σ.fields i e.2 listed).trans fit.2⟩
    exact declareObj (there.mono later.grew) (live.mono later) e.1

theorem answerFlow {flow : Flow} (f : Function) (seen : σ.SeenFlow flow) :
    σ.Safe (Eval.answer f flow) (Eval.answer f flow) fun b τ => τ.Seen b := by
  unfold Eval.answer
  split
  · exact pure seen
  · exact raise
  · exact raise
  · exact (alloc (v := .nil) (fit_scalar trivial)).mono fun _ _ _ live => live.seen

theorem popFunction {m : ModuleId} (full : P.full) (there : σ.state.HasModule m) :
    σ.Safe (Eval.popFunction m) (Eval.popFunction m) fun _ _ => True := by
  by_cases active : (σ.state.registry.module m).scope.frames = []
  · have none : Scope.popFunction? (σ.state.registry.module m).scope = none := by
      rw [Scope.popFunction?, active]
    apply get_bind
    rw [none]
    exact raise
  · refine changeScope there (σ.wf.leave there) (fun c listed => ?_)
      (Discipline.Agree.run_popFunction active)
    have kept := Multiset.mem_of_le (Scope.objs_dropFrame_le _) (Multiset.mem_coe.2 (P.objs listed))
    exact (P.whole full).2.2 (Multiset.mem_coe.1 kept)

theorem pushFunction {m : ModuleId} (full : P.full) (there : σ.state.HasModule m) :
    σ.Safe (Eval.modifyScope m Scope.pushFunction) (Eval.modifyScope m Scope.pushFunction)
      fun _ _ => True := by
  refine changeScope there (σ.wf.enter there (.inl rfl)) (fun c listed => ?_) rfl
  rcases Scope.mem_objs_addFrame (P.objs listed) with new | old
  · cases new
  · exact (P.whole full).2.2 old

/-- What happens in the frame of a call, where nothing is left out. -/
theorem runBody (contract : Contract P ev₁ ev₂) (full : P.full) {f : Function}
    (there : σ.state.HasModule f.module) {receiver : Option InstanceId}
    (live : ∀ i ∈ receiver, σ.Fit .live (.struct i)) (calls : Nat) {args : List BoxId}
    (seen : ∀ b ∈ args, σ.Seen b) :
    σ.Safe (Eval.runBody ev₁ P.config calls f receiver args)
      (Eval.runBody ev₂ P.config calls f receiver args) fun flow τ => τ.SeenFlow flow := by
  have rest : ∀ τ, σ.Later τ → τ.Safe
      (Eval.declareArgs P.config f.module f.params args >>= fun _ =>
        Eval.runBlock (ev₁.stmt ⟨f.module, calls⟩) f.body)
      (Eval.declareArgs P.config f.module f.params args >>= fun _ =>
        Eval.runBlock (ev₂.stmt ⟨f.module, calls⟩) f.body) fun flow υ => υ.SeenFlow flow := by
    intro τ later
    have there' := there.mono later.grew
    apply bind (declareArgs there' ?_)
    · intro _ υ later' _
      exact runBlock contract (here_of_full full (there'.mono later'.grew)) fun s _ => .inl full
    · exact fun b member υ later' => ((seen b member).mono (later.trans later')).source
  cases receiver with
  | none => exact rest σ (.refl σ)
  | some i => exact bind (declareMembers full there (live i rfl)) fun _ τ later _ => rest τ later

/-- A call of a function of the program, where nothing is left out. -/
theorem callFunction (contract : Contract P ev₁ ev₂) (full : P.full) {f : Function}
    (there : σ.state.HasModule f.module) {receiver : Option InstanceId}
    (live : ∀ i ∈ receiver, σ.Fit .live (.struct i)) (calls : Nat) {args : List BoxId}
    (seen : ∀ b ∈ args, σ.Seen b) :
    σ.Safe (Eval.callFunction ev₁ P.config calls f receiver args)
      (Eval.callFunction ev₂ P.config calls f receiver args) fun b τ => τ.Seen b := by
  unfold Eval.callFunction
  dsimp only
  split
  · exact raise
  · apply bind (traceCall args _ fun _ => .get_bind fun _ => .pure trivial)
    intro _ τ later _
    cases calls with
    | zero => exact throw
    | succ calls =>
      have there' := there.mono later.grew
      obtain ⟨m', stands, inside⟩ := τ.wf.stands there'
      apply bind (Q := fun flow τ => τ.SeenFlow flow) ?_ fun flow υ _ flows => answerFlow f flows
      apply resolve_bind stands
      refine within (R := fun flow τ => τ.SeenFlow flow) (pushFunction full inside) ?_
        (fun υ later' => popFunction full (inside.mono later'.grew))
        fun later' flows => flows.mono later'
      intro υ later'
      have whole := later.trans later'
      exact runBody contract full (there.mono whole.grew) (fun i given => (live i given).mono whole) calls
        fun b member => (seen b member).mono whole

/-- A call of what is in a box.  Where something is left out, there is no function of the program to
call. -/
theorem call (contract : Contract P ev₁ ev₂) (calls : Nat) {callee : BoxId} {args : List BoxId}
    (seenCallee : σ.Seen callee) (seen : ∀ b ∈ args, σ.Seen b) :
    σ.Safe (Eval.call ev₁ P.config calls callee args) (Eval.call ev₂ P.config calls callee args)
      fun b τ => τ.Seen b := by
  have fit := seenCallee.fit
  apply get_bind
  dsimp only
  split
  · exact (builtinCall _ seen).mono fun _ _ _ live => live.seen
  · next f isFunction =>
    rw [isFunction] at fit
    have full : P.full := fit.2.resolve_left Zone.live_ne_old
    refine callFunction contract full (σ.wf.hasModule fit.1) ?_ calls seen
    intro i given
    cases given
  · next f receiver isMethod =>
    rw [isMethod] at fit
    obtain ⟨full, live⟩ := fit.2.resolve_left Zone.live_ne_old
    refine callFunction contract full (σ.wf.hasModule fit.1.1) ?_ calls seen
    intro i given
    cases given
    exact ⟨fit.1.2, live⟩
  · exact raise

end Safe

end Guarded

end Shiba

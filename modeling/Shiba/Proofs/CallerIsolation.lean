import Shiba.Proofs.Lockstep.Isolated
import Shiba.Proofs.Reachable

/-!
# What a call sees of its callers

The frame of a call hides the frames below it, but only in the module of its function.  In every other
module the innermost active call is in sight: `m.name` means a local of that call first.  So a call is
not isolated from its callers, and `callFunction_isolated_iff` says exactly how far it is.

* `callFunction_isolated`: a call ends alike inside different calls, with the same answer or error, the
  same output and the same heap, when in every other module names mean the same from outside.
* `Eval.probe`: the function that returns `p.name`.  Called with a module, it tells two states apart in
  which the name means something else there.
-/

namespace Shiba

namespace State

/-- A step ends alike in two states: with one result, and in states that differ in the frames that
were there at most. -/
structure SameOutcome {α : Type} (a : Eval α) (s₁ s₂ : State) : Prop where
  result : (a s₂).1 = (a s₁).1
  states : (a s₁).2.SameButFrames (a s₂).2
  frames : ∀ m, ((a s₁).2.scopeOf m).frames = (s₁.scopeOf m).frames ∧
    ((a s₂).2.scopeOf m).frames = (s₂.scopeOf m).frames

variable {c₁ c₂ : State} {own : ModuleId}

theorem Apart.refl (same : c₁.SameButFrames c₂) : Apart c₁ c₂ (fun _ => 0) c₁ c₂ where
  toSameButFrames := same
  frames _ := ⟨[], rfl, rfl, rfl⟩
  root _ _ := rfl

theorem Apart.sameOutcome {α : Type} {a : Eval α} {result : Except Stop α} {t₁ t₂ : State}
    (apart : Apart c₁ c₂ (fun _ => 0) t₁ t₂) (run₁ : a c₁ = (result, t₁))
    (run₂ : a c₂ = (result, t₂)) : SameOutcome a c₁ c₂ := by
  refine ⟨?_, ?_, ?_⟩
  · rw [run₁, run₂]
  · rw [run₁, run₂]
    exact apart.toSameButFrames
  · intro m
    obtain ⟨new, count, frames₁, frames₂⟩ := apart.frames m
    cases List.length_eq_zero_iff.1 count
    rw [run₁, run₂]
    exact ⟨frames₁, frames₂⟩

end State

/-! ## Around the body of a call -/

namespace Eval

variable {α β : Type}

/-- A step that only reads the heap. -/
def ReadsHeap (a : Eval α) : Prop := ∃ g : Heap → Except Stop α, ∀ s : State, a s = (g s.heap, s)

theorem ReadsHeap.bind {a : Eval α} {f : α → Eval β} (first : ReadsHeap a)
    (rest : ∀ x, ReadsHeap (f x)) : ReadsHeap (a >>= f) := by
  rcases first with ⟨g, run⟩
  choose g' run' using rest
  refine ⟨fun h => (g h).bind fun x => g' x h, ?_⟩
  intro s
  have ran := run s
  dsimp only
  cases answer : g s.heap with
  | error stop =>
    rw [answer] at ran
    exact bind_error ran
  | ok x =>
    rw [answer] at ran
    rw [bind_ok ran]
    exact run' x s

theorem readsHeap_canonical (cfg : Config) (b : BoxId) : ReadsHeap (canonical cfg b) := by
  refine ⟨fun h => (h.canonical cfg.dataLimit (h.value b)).elim (.error .tooDeep) .ok, ?_⟩
  intro s
  change onHeap (HeapM.bounded fun h => h.canonical cfg.dataLimit (s.heap.value b)) s = _
  rw [HeapM.bounded, onHeap_get_bind, bind_ok (run_get s)]
  dsimp only
  cases s.heap.canonical cfg.dataLimit (s.heap.value b) with
  | some text => rw [onHeap_pure]; rfl
  | none => rw [onHeap_throw]; rfl

theorem readsHeap_mapM {f : α → Eval β} (reads : ∀ x, ReadsHeap (f x)) (xs : List α) :
    ReadsHeap (xs.mapM f) := by
  induction xs with
  | nil => exact ⟨fun _ => .ok [], fun _ => rfl⟩
  | cons x xs ih =>
    rw [List.mapM_cons]
    exact (reads x).bind fun y => ih.bind fun ys => ⟨fun _ => .ok (y :: ys), fun _ => rfl⟩

/-- Tracing writes the same line in two states, if any. -/
theorem run_trace {text : Eval String} {result : Except Stop String} {s₁ s₂ : State}
    (same : s₁.SameButFrames s₂) (reads₁ : text s₁ = (result, s₁)) (reads₂ : text s₂ = (result, s₂))
    (cfg : Config) (level : Int) :
    ∃ traced output, trace cfg level text s₁ = (traced, { s₁ with output := output }) ∧
      trace cfg level text s₂ = (traced, { s₂ with output := output }) := by
  unfold trace
  split
  · cases result with
    | error stop =>
      refine ⟨.error stop, s₁.output, bind_error reads₁, ?_⟩
      rw [bind_error reads₂, ← same.output]
    | ok line =>
      refine ⟨.ok (), s₁.output.push (.trace line), ?_, ?_⟩
      · rw [bind_ok reads₁]
        rfl
      · rw [bind_ok reads₂, ← same.output]
        rfl
  · exact ⟨.ok (), s₁.output, rfl, by rw [← same.output]; rfl⟩

/-- The line a call is traced by. -/
def callText (cfg : Config) (f : Function) (args : List BoxId) : Eval String := do
  let shown ← args.mapM (canonical cfg)
  let module := ((← get).registry.module f.module).name
  return "call " ++ module ++ "." ++ f.name ++ "(" ++ ", ".intercalate shown ++ ")"

theorem run_callText {s₁ s₂ : State} (same : s₁.SameButFrames s₂) (cfg : Config) (f : Function)
    (args : List BoxId) :
    ∃ result, callText cfg f args s₁ = (result, s₁) ∧ callText cfg f args s₂ = (result, s₂) := by
  obtain ⟨g, shows⟩ := readsHeap_mapM (readsHeap_canonical cfg) args
  have shows₁ := shows s₁
  have shows₂ := shows s₂
  rw [same.heap] at shows₂
  cases answer : g s₁.heap with
  | error stop =>
    rw [answer] at shows₁ shows₂
    exact ⟨.error stop, bind_error shows₁, bind_error shows₂⟩
  | ok shown =>
    rw [answer] at shows₁ shows₂
    have ends : ∀ s : State, args.mapM (canonical cfg) s = (.ok shown, s) →
        callText cfg f args s = (.ok ("call " ++ (s.registry.module f.module).name ++ "." ++ f.name ++
          "(" ++ ", ".intercalate shown ++ ")"), s) := fun s run => bind_ok run
    refine ⟨_, ends s₁ shows₁, ?_⟩
    rw [ends s₂ shows₂, same.name_eq]

open State in
/-- What a call answers does not depend on the frames. -/
theorem run_answer {c₁ c₂ s₁ s₂ : State} (apart : Apart c₁ c₂ (fun _ => 0) s₁ s₂) (f : Function)
    (flow : Flow) :
    ∃ result t₁ t₂, answer f flow s₁ = (result, t₁) ∧ answer f flow s₂ = (result, t₂) ∧
      Apart c₁ c₂ (fun _ => 0) t₁ t₂ := by
  have free : Apart c₁ c₂ (fun _ => 0) ((Operation.alloc .nil).apply s₁)
      ((Operation.alloc .nil).apply s₂) := apart.step ⟨trivial, rfl⟩ nofun (H := 0)
  have made : ∃ result t₁ t₂, alloc .nil s₁ = (result, t₁) ∧ alloc .nil s₂ = (result, t₂) ∧
      Apart c₁ c₂ (fun _ => 0) t₁ t₂ := by
    refine ⟨.ok ⟨s₁.heap.boxes.size⟩, _, _, rfl, ?_, free⟩
    rw [← apart.heap]
    rfl
  cases flow with
  | returnValue b =>
    cases b with
    | none => exact made
    | some b => exact ⟨.ok b, s₁, s₂, rfl, rfl, apart⟩
  | breakLoop => exact ⟨_, s₁, s₂, rfl, rfl, apart⟩
  | continueLoop => exact ⟨_, s₁, s₂, rfl, rfl, apart⟩
  | done => exact made
  | value b => exact made

end Eval

/-! ## What a call depends on -/

open State Discipline

section

variable {c₁ c₂ : State} {own : ModuleId} {f : Function} {receiver : Option InstanceId}

/-- The body of a call ends alike, when names mean the same from outside in every module but that of
the function. -/
theorem inFunction_isolated (wf : c₁.WellFormed) (same : c₁.SameButFrames c₂)
    (calls : ∀ m, (c₂.scopeOf m).functionDepth = (c₁.scopeOf m).functionDepth)
    (here : c₁.HasModule f.module) (stands : c₁.Stands f.module own)
    (there : ∀ i ∈ receiver, c₁.HasInstance i)
    (quiet : ∀ m, c₁.Registered m → m ≠ own → (c₁.scopeOf m).SameMembers (c₂.scopeOf m))
    (cfg : Config) (fuel depth : Nat) (args : List BoxId) :
    ∃ result t₁ t₂,
      Eval.inFunction f.module (Eval.runBody (evaluators cfg fuel) cfg depth f receiver args) c₁ =
        (result, t₁) ∧
      Eval.inFunction f.module (Eval.runBody (evaluators cfg fuel) cfg depth f receiver args) c₂ =
        (result, t₂) ∧ Apart c₁ c₂ (fun _ => 0) t₁ t₂ := by
  have distinct : ∀ i ∈ receiver, (c₁.heap.instanceAt i).fields.keys.Nodup :=
    fun i isReceiver => wf.nodup_fields (there i isReceiver)
  have inside := (wf.found _ own stands).1
  have here₂ : c₂.HasModule f.module := by
    rw [HasModule, same.size]
    exact here
  have begins₁ := Eval.runBody_apply here stands distinct (evaluators cfg fuel) cfg depth args
  have begins₂ := Eval.runBody_apply here₂ (same.stands stands) (by rw [same.heap]; exact distinct)
    (evaluators cfg fuel) cfg depth args
  rw [same.heap] at begins₂
  -- inside the call the frames of the function's own module are covered
  let D := Discipline.isolated c₁ c₂ wf same calls
  let names := Eval.receivedNames c₁.heap receiver
  let w : D.World := (⟨(c₁.enter own names).registry, some own⟩, Function.update (fun _ => 0) own 1)
  have grew : c₁.Extends (c₁.enter own names) := c₁.extends_modifyScope own _
  have holds : D.Holds w 0 (c₁.enter own names) (c₂.enter own names) := by
    refine ⟨wf.enter inside (Agree.receives_receivedNames there), holding_zero _, ⟨rfl, ?_⟩, grew,
      (Apart.refl same).enter inside names, ?_⟩
    · apply ScopeWorld.fits_self
      intro m' given
      cases given
      exact inside.mono grew
    · intro m registered none
      apply quiet m registered
      intro isOwn
      rw [isOwn] at none
      exact Nat.one_ne_zero ((Function.update_self own 1 fun _ => 0).symm.trans none)
  have opened : D.OpenFor w (c₁.enter own names) f.module :=
    ⟨here.mono grew, own, stands.mono grew here, rfl, covered_update c₁ c₂ (fun _ => 0) own⟩
  have valid : ∀ e ∈ Eval.receivedMethods c₁.heap receiver, (c₁.enter own names).Valid e.2 :=
    fun e member => (Agree.valid_receivedMethods wf there e member).mono grew
  obtain ⟨result, t₁, t₂, run₁, run₂, grew', after⟩ :=
    Agree.runRest (D.contract cfg fuel) holds opened valid depth args
  have last : D.Holds w 0 t₁ t₂ := by
    cases result with
    | ok flow => exact after.1
    | error stop => exact after.1
  obtain ⟨active₁, active₂, left⟩ := last.rel.2.2.1.leave ((inside.mono grew).mono grew')
  exact ⟨result, t₁.leave own, t₂.leave own,
    Agree.run_inFunction stands (begins₁.trans run₁) active₁,
    Agree.run_inFunction (same.stands stands) (begins₂.trans run₂) active₂, left⟩

/-- A call with the right number of arguments: it is traced, its body runs, and it answers. -/
theorem callFunction_eq (ev : Evaluators) (cfg : Config) (depth : Nat) {args : List BoxId}
    (arity : args.length = f.params.length) :
    Eval.callFunction ev cfg depth f receiver args = (do
      Eval.trace cfg 3 (Eval.callText cfg f args)
      match depth with
      | 0 => throw .tooDeep
      | depth + 1 =>
        let flow ← Eval.inFunction f.module (Eval.runBody ev cfg depth f receiver args)
        Eval.answer f flow) := by
  unfold Eval.callFunction
  dsimp only
  rw [if_neg (not_not.2 arity)]
  rfl

/-- A call ends alike inside different calls, when names mean the same from outside in every module
but that of the function. -/
theorem callFunction_isolated (wf : c₁.WellFormed) (same : c₁.SameButFrames c₂)
    (calls : ∀ m, (c₂.scopeOf m).functionDepth = (c₁.scopeOf m).functionDepth)
    (here : c₁.HasModule f.module) (stands : c₁.Stands f.module own)
    (there : ∀ i ∈ receiver, c₁.HasInstance i)
    (quiet : ∀ m, c₁.Registered m → m ≠ own → (c₁.scopeOf m).SameMembers (c₂.scopeOf m))
    (cfg : Config) (fuel depth : Nat) (args : List BoxId) :
    SameOutcome (Eval.callFunction (evaluators cfg fuel) cfg depth f receiver args) c₁ c₂ := by
  by_cases arity : args.length = f.params.length
  · rw [callFunction_eq _ cfg depth arity]
    obtain ⟨shown, reads₁, reads₂⟩ := Eval.run_callText same cfg f args
    obtain ⟨traced, output, trace₁, trace₂⟩ := Eval.run_trace same reads₁ reads₂ cfg 3
    let t₁ : State := { c₁ with output := output }
    let t₂ : State := { c₂ with output := output }
    have same' : t₁.SameButFrames t₂ := { same with output := rfl }
    have wf' : t₁.WellFormed := wf.write output
    have kept : Apart c₁ c₂ (fun _ => 0) t₁ t₂ :=
      ⟨same', (Apart.refl same).frames, (Apart.refl same).root⟩
    cases traced with
    | error stop => exact kept.sameOutcome (Eval.bind_error trace₁) (Eval.bind_error trace₂)
    | ok _ =>
      cases depth with
      | zero => exact kept.sameOutcome (Eval.bind_ok trace₁) (Eval.bind_ok trace₂)
      | succ depth =>
        obtain ⟨result, u₁, u₂, run₁, run₂, apart⟩ :=
          inFunction_isolated wf' same' calls here stands there quiet cfg fuel depth args
        have apart' : Apart c₁ c₂ (fun _ => 0) u₁ u₂ :=
          ⟨apart.toSameButFrames, apart.frames, apart.root⟩
        cases result with
        | error stop =>
          apply apart'.sameOutcome
          · rw [Eval.bind_ok trace₁]
            exact Eval.bind_error run₁
          · rw [Eval.bind_ok trace₂]
            exact Eval.bind_error run₂
        | ok flow =>
          obtain ⟨result, v₁, v₂, ends₁, ends₂, last⟩ := Eval.run_answer apart' f flow
          apply last.sameOutcome
          · rw [Eval.bind_ok trace₁]
            exact (Eval.bind_ok run₁).trans ends₁
          · rw [Eval.bind_ok trace₂]
            exact (Eval.bind_ok run₂).trans ends₂
  · have whole : Eval.callFunction (evaluators cfg fuel) cfg depth f receiver args =
        Eval.raise (.arity f.name f.params.length args.length) := by
      unfold Eval.callFunction
      dsimp only
      rw [if_pos arity]
      rfl
    rw [whole]
    exact (Apart.refl same).sameOutcome rfl rfl

end

/-! ## A function that tells states apart -/

namespace Eval

/-- The function `def probe(p) { return p.name }` of a module. -/
def probe (own : ModuleId) (name : String) : Function where
  module := own
  name := "probe"
  params := ["p"]
  body := [.returnValue .start (some (.select .start (.ident .start "p") name))]

variable {s : State} {own m : ModuleId} {b : BoxId} {moduleName name : String} {cfg : Config}

theorem run_getObj? {m' : ModuleId} (stands : s.Stands m m') (name : String) :
    getObj? m name s = (.ok ((s.scopeOf m').getObj? name), s) := by
  rw [getObj?, inScope, bind_ok (Discipline.Agree.run_resolve stands)]
  rfl

theorem run_getStruct? {m' : ModuleId} (stands : s.Stands m m') (name : String) :
    getStruct? m name s = (.ok ((s.scopeOf m').getStruct? name), s) := by
  rw [getStruct?, inScope, bind_ok (Discipline.Agree.run_resolve stands)]
  rfl

/-- What is found under a name of a module, and the heap when it has been looked up. -/
def found (obj : Option BoxId) (struct : Option StructId) (h : Heap) : Option BoxId × Heap :=
  match obj, struct with
  | some b, _ => (some b, h)
  | none, some d => (some ⟨h.boxes.size⟩, { h with boxes := h.boxes.push (.structDef d) })
  | none, none => (none, h)

theorem push_box_ne (h : Heap) (v : Value) : { h with boxes := h.boxes.push v } ≠ h := by
  intro same
  have size := congrArg (·.boxes.size) same
  simp at size

/-- What was looked up can be told from what was found and the heap. -/
theorem found_inj {o o' : Option BoxId} {d d' : Option StructId} {h : Heap}
    (same : found o' d' h = found o d h) : o' = o ∧ (o = none → d' = d) := by
  cases o with
  | some b =>
    cases o' with
    | some b' => exact ⟨congrArg Prod.fst same, nofun⟩
    | none =>
      cases d' with
      | some d' => exact absurd (congrArg Prod.snd same) (push_box_ne h _)
      | none => cases congrArg Prod.fst same
  | none =>
    cases o' with
    | some b' =>
      cases d with
      | some d => exact absurd (congrArg Prod.snd same).symm (push_box_ne h _)
      | none => cases congrArg Prod.fst same
    | none =>
      refine ⟨rfl, fun _ => ?_⟩
      cases d with
      | some d =>
        cases d' with
        | some d' =>
          have boxes := congrArg (·.2.boxes) same
          have values := (Array.push_eq_push.1 boxes).1
          cases values
          rfl
        | none => cases congrArg Prod.fst same
      | none =>
        cases d' with
        | some d' => cases congrArg Prod.fst same
        | none => rfl

theorem run_moduleMember (registered : s.Registered m) (moduleName name : String) :
    ∃ result h, moduleMember m moduleName name s = (result, s.withHeap h) ∧
      (result.toOption, h) =
        found ((s.scopeOf m).getObj? name) ((s.scopeOf m).getStruct? name) s.heap := by
  rw [moduleMember, bind_ok (run_getObj? registered name)]
  cases (s.scopeOf m).getObj? name with
  | some b => exact ⟨.ok b, s.heap, rfl, rfl⟩
  | none =>
    dsimp only
    rw [bind_ok (run_getStruct? registered name)]
    cases (s.scopeOf m).getStruct? name with
    | some d => exact ⟨_, _, rfl, rfl⟩
    | none => exact ⟨_, s.heap, rfl, rfl⟩

theorem run_located {α : Type} {act : Eval α} {result : Except Stop α} {t : State}
    (run : act s = (result, t)) (m : ModuleId) (p : Position) :
    ∃ result', located m p act s = (result', t) ∧ result'.toOption = result.toOption := by
  cases result with
  | ok x => exact ⟨.ok x, by rw [located, run], rfl⟩
  | error stop =>
    exact ⟨.error (stop.locate ⟨(t.registry.module m).name, p⟩), by rw [located, run], rfl⟩

/-- The expression the probe returns, in the frame of its call. -/
theorem run_probeValue (registered : s.Registered m) (ownRegistered : s.Registered own)
    (parameter : (s.scopeOf own).getObj? "p" = some b)
    (value : s.heap.value b = .module m moduleName) (calls : Nat) :
    ∃ result h,
      evalExpr cfg 2 ⟨own, calls⟩ (.select .start (.ident .start "p") name) s =
        (result, s.withHeap h) ∧
      (result.toOption, h) =
        found ((s.scopeOf m).getObj? name) ((s.scopeOf m).getStruct? name) s.heap := by
  have looked : getObj? own "p" s = (.ok (some b), s) := by
    rw [run_getObj? ownRegistered, parameter]
  have isParameter : evalExpr cfg 1 ⟨own, calls⟩ (.ident .start "p") s = (.ok b, s) := by
    have named : ident ⟨own, calls⟩ "p" s = (.ok b, s) := bind_ok looked
    rw [evalExpr_succ, Eval.expr, located]
    dsimp only
    rw [named]
  have isModule : read b s = (.ok (.module m moduleName), s) := by
    rw [← value]
    rfl
  obtain ⟨result, h, run, isFound⟩ := run_moduleMember registered moduleName name
  have selected : select (evaluators cfg 1) ⟨own, calls⟩ (.ident .start "p") name s =
      (result, s.withHeap h) := by
    rw [select, evaluators_expr, bind_ok isParameter, bind_ok isModule]
    exact run
  obtain ⟨result', run', same⟩ := run_located selected own .start
  refine ⟨result', h, ?_, ?_⟩
  · rw [evalExpr_succ]
    exact run'
  · rw [same]
    exact isFound

/-- The body of the probe returns what it found, or stops. -/
theorem run_probeBody (registered : s.Registered m) (ownRegistered : s.Registered own)
    (parameter : (s.scopeOf own).getObj? "p" = some b)
    (value : s.heap.value b = .module m moduleName) (calls : Nat) :
    ∃ (result : Except Stop BoxId) (h : Heap),
      runBlock ((evaluators cfg 3).stmt ⟨own, calls⟩) (probe own name).body s =
        (result.map fun x => .returnValue (some x), s.withHeap h) ∧
      (result.toOption, h) =
        found ((s.scopeOf m).getObj? name) ((s.scopeOf m).getStruct? name) s.heap := by
  obtain ⟨result, h, run, isFound⟩ :=
    run_probeValue registered ownRegistered parameter value calls
  have returned : (do return .returnValue (some (← (evaluators cfg 2).expr ⟨own, calls⟩
      (.select .start (.ident .start "p") name))) : Eval Flow) s =
        (result.map fun x => .returnValue (some x), s.withHeap h) := by
    rw [evaluators_expr]
    cases result with
    | ok x => exact bind_ok run
    | error stop => exact bind_error run
  obtain ⟨result', run', same⟩ := run_located returned own .start
  have stmt : (evaluators cfg 3).stmt ⟨own, calls⟩
      (.returnValue .start (some (.select .start (.ident .start "p") name))) s =
        (result', s.withHeap h) := by
    rw [evaluators_stmt, evalStmt_succ]
    exact run'
  cases result with
  | ok x =>
    cases result' with
    | ok flow =>
      cases same
      exact ⟨.ok x, h, bind_ok stmt, isFound⟩
    | error stop => cases same
  | error stop =>
    cases result' with
    | ok flow => cases same
    | error stop' => exact ⟨.error stop', h, bind_error stmt, isFound⟩

/-- Cloning a module makes a box that holds it. -/
theorem run_clone_module (value : s.heap.value b = .module m moduleName) (deep : 0 < cfg.dataLimit) :
    onHeap (HeapM.clone cfg.dataLimit b) s =
      (.ok ⟨s.heap.boxes.size⟩, (Operation.alloc (.module m moduleName)).apply s) := by
  obtain ⟨limit, same⟩ := Nat.exists_eq_add_one.2 deep
  have isModule : onHeap (HeapM.read b) s = (.ok (.module m moduleName), s) := by
    rw [← value]
    rfl
  have kept : HeapM.cloneValue (limit + 1) (.module m moduleName) = pure (.module m moduleName) := by
    rfl
  rw [same, HeapM.clone, onHeap_bind, bind_ok isModule, kept]
  rfl

/-- The frame of the probe holds its parameter. -/
theorem run_probeArgs (registered : s.Registered own) (here : s.HasModule own)
    (value : s.heap.value b = .module m moduleName) (deep : 0 < cfg.dataLimit) :
    declareArgs cfg own ["p"] [b] (s.enter own .empty) =
      (.ok (), ((Operation.alloc (.module m moduleName)).apply s).enter own
        ⟨[("p", ⟨s.heap.boxes.size⟩)]⟩) := by
  have declared := run_declareObj (s := (Operation.alloc (.module m moduleName)).apply s)
    registered here [("p", ⟨s.heap.boxes.size⟩)] [] (by simp)
  rw [List.nil_append] at declared
  rw [← declared]
  have cloned := run_clone_module (s := s.enter own .empty) value deep
  exact bind_congr (bind_ok cloned)

/-- A call of the probe answers what the name means from outside. -/
theorem run_probe (registered : s.Registered m) (there : s.HasModule m)
    (ownRegistered : s.Registered own) (here : s.HasModule own) (other : m ≠ own)
    (value : s.heap.value b = .module m moduleName) (deep : 0 < cfg.dataLimit)
    (untraced : cfg.debugLevel < 3) (name : String) :
    ∃ result t, callFunction (evaluators cfg 3) cfg 1 (probe own name) none [b] s = (result, t) ∧
      (result.toOption, t.heap) =
        found ((s.scopeOf m).getObj? name) ((s.scopeOf m).getStruct? name)
          ((Operation.alloc (.module m moduleName)).apply s).heap := by
  let v := (Operation.alloc (.module m moduleName)).apply s
  let u := v.enter own ⟨[("p", ⟨s.heap.boxes.size⟩)]⟩
  have grew : s.Extends u := (Operation.extends _ s).trans (v.extends_modifyScope own _)
  have sameScope : u.scopeOf m = s.scopeOf m :=
    congrArg Module.scope (Registry.module_modifyScope_of_ne (r := s.registry) _ other)
  have frame : u.scopeOf own = (s.scopeOf own).addFrame ⟨[("p", ⟨s.heap.boxes.size⟩)]⟩ :=
    congrArg Module.scope (Registry.module_modifyScope_self (r := s.registry) _ here)
  have parameter : (u.scopeOf own).getObj? "p" = some ⟨s.heap.boxes.size⟩ := by
    rw [frame]
    rfl
  have holdsModule : u.heap.value ⟨s.heap.boxes.size⟩ = .module m moduleName := by
    simp [u, v, State.enter, State.modifyScope, Operation.apply, State.withHeap, Heap.value]
  rcases run_probeBody (State.Stands.mono grew there registered)
    (State.Stands.mono grew here ownRegistered) parameter holdsModule 0 with ⟨result, h, run, isFound⟩
  have stands : s.Stands (probe own name).module own := ownRegistered
  have noReceiver : ∀ i ∈ (none : Option InstanceId), (s.heap.instanceAt i).fields.keys.Nodup := by
    intro i given
    cases given
  have body : runBody (evaluators cfg 3) cfg 0 (probe own name) none [b]
      (s.modifyScope own .pushFunction) =
        (result.map fun x => .returnValue (some x), u.withHeap h) := by
    rw [runBody_apply here stands noReceiver (evaluators cfg 3) cfg 0 [b]]
    exact (bind_ok (run_probeArgs ownRegistered here value deep)).trans run
  have active : ((u.withHeap h).registry.module own).scope.frames ≠ [] := by
    change (u.scopeOf own).frames ≠ []
    rw [frame]
    exact List.cons_ne_nil _ _
  have called := Discipline.Agree.run_inFunction stands body active
  have traced : trace cfg 3 (callText cfg (probe own name) [b]) s = (.ok (), s) := by
    rw [trace, if_neg (Int.not_le.2 untraced)]
    rfl
  rw [sameScope] at isFound
  rw [callFunction_eq _ cfg 1 rfl, bind_ok traced]
  cases result with
  | ok x => exact ⟨.ok x, _, bind_ok called, isFound⟩
  | error stop => exact ⟨.error stop, _, bind_error called, isFound⟩

end Eval

/-! ## When a call does not see its callers -/

/-- A call depends on the calls that are active through what names mean from outside in other modules,
and through nothing else: whatever the heap, every call of a function of the module `own` ends alike in
two states that differ in the frames of active calls, if and only if in every other module every name
means the same in both. -/
theorem callFunction_isolated_iff {c₁ c₂ : State} {own : ModuleId} (wf : c₁.WellFormed)
    (same : c₁.SameButFrames c₂)
    (calls : ∀ m, (c₂.scopeOf m).functionDepth = (c₁.scopeOf m).functionDepth)
    (registered : c₁.Registered own) :
    (∀ m, c₁.Registered m → m ≠ own → (c₁.scopeOf m).SameMembers (c₂.scopeOf m)) ↔
      ∀ h, (c₁.withHeap h).WellFormed → ∀ cfg fuel depth f receiver args, c₁.HasModule f.module →
        c₁.Stands f.module own → (∀ i ∈ receiver, (c₁.withHeap h).HasInstance i) →
          SameOutcome (Eval.callFunction (evaluators cfg fuel) cfg depth f receiver args)
            (c₁.withHeap h) (c₂.withHeap h) := by
  constructor
  · intro quiet h wf' cfg fuel depth f receiver args here stands there
    exact callFunction_isolated wf' (same.withHeap h) calls here stands there quiet cfg fuel depth
      args
  · intro alike m registered' other name
    have here := wf.hasModule_of_registered registered
    have there := wf.hasModule_of_registered registered'
    -- the probe is called with the module in a new box
    let h := ((Operation.alloc (.module m "m")).apply c₁).heap
    have allowed : (Operation.alloc (.module m "m")).Allowed 0 c₁ {⟨c₁.heap.boxes.size⟩} :=
      ⟨there, rfl⟩
    have wf' : (c₁.withHeap h).WellFormed := wf.step c₁.holding_zero allowed
    have value : h.value ⟨c₁.heap.boxes.size⟩ = .module m "m" := by
      simp [h, Operation.apply, withHeap, Heap.value]
    let cfg : Config := ⟨0, "", ⟨[]⟩, 1, 1, 3⟩
    have deep : 0 < cfg.dataLimit := Nat.one_pos
    have untraced : cfg.debugLevel < 3 := by decide
    have kept := same.withHeap h
    rcases Eval.run_probe (s := c₁.withHeap h) registered' there registered here other value deep
      untraced name with ⟨result₁, t₁, run₁, found₁⟩
    rcases Eval.run_probe (s := c₂.withHeap h) (kept.stands registered') (kept.hasModule there)
      (kept.stands registered) (kept.hasModule here) other value deep untraced name with
      ⟨result₂, t₂, run₂, found₂⟩
    have ends := alike h wf' cfg 3 1 (Eval.probe own name) none [⟨c₁.heap.boxes.size⟩] here registered
      fun _ given => absurd given (Option.not_mem_none _)
    have results : result₂ = result₁ := by
      have results := ends.result
      rwa [run₁, run₂] at results
    have heaps : t₂.heap = t₁.heap := by
      have heaps := ends.states.heap
      rwa [run₁, run₂] at heaps
    rw [results, heaps, found₁] at found₂
    exact Eval.found_inj found₂.symm

/-- Inside a call, binding a name changes the frame of the call and nothing else. -/
theorem sameButFrames_modifyCurrent {c : State} {m : ModuleId} (here : c.HasModule m)
    (active : (c.scopeOf m).frames ≠ []) (g : Frame BoxId StructId → Frame BoxId StructId) :
    (c.modifyScope m (·.modifyCurrent g)).SameButFrames c ∧
      ∀ m', (c.scopeOf m').functionDepth =
        ((c.modifyScope m (·.modifyCurrent g)).scopeOf m').functionDepth := by
  obtain ⟨frame, outer, frames⟩ := List.exists_cons_of_ne_nil active
  have self := Registry.module_modifyScope_self (r := c.registry) (·.modifyCurrent g) here
  have changed : (c.scopeOf m).modifyCurrent g = { c.scopeOf m with frames := g frame :: outer } := by
    rw [Scope.modifyCurrent, frames]
  rw [← scopeOf, changed] at self
  refine ⟨⟨rfl, rfl, rfl, rfl, (Registry.size_modifyScope ..).symm, ?_⟩, ?_⟩
  · intro m'
    by_cases same : m' = m
    · rw [same, modifyScope, self]
      rfl
    · rw [modifyScope, Registry.module_modifyScope_of_ne _ same]
  · intro m'
    by_cases same : m' = m
    · rw [same, Scope.functionDepth, Scope.functionDepth, frames, modifyScope, scopeOf, self]
      rfl
    · rw [modifyScope, scopeOf, scopeOf, Registry.module_modifyScope_of_ne _ same]

/-- A function of the module `n` is not isolated from a call in the module `m` that has a local `y`. -/
theorem callFunction_isolated_iff_local :
    let s := (State.initial.load (.ofSource "m" "/" "")).load (.ofSource "n" "/" "")
    let c₂ := ((Operation.alloc (.int 42)).apply s).enter ⟨0⟩ .empty
    let c₁ := (Operation.declareObj ⟨0⟩ "y" ⟨8⟩).apply c₂
    ¬ ∀ h, (c₁.withHeap h).WellFormed → ∀ cfg fuel depth f receiver args, c₁.HasModule f.module →
      c₁.Stands f.module ⟨1⟩ → (∀ i ∈ receiver, (c₁.withHeap h).HasInstance i) →
        SameOutcome (Eval.callFunction (evaluators cfg fuel) cfg depth f receiver args)
          (c₁.withHeap h) (c₂.withHeap h) := by
  intro s c₂ c₁ alike
  have wf₂ : c₂.WellFormed := by
    refine WellFormed.enter ?_ Nat.two_pos (.inl rfl)
    exact ((State.wellFormed_initial.register rfl).register rfl).step (holding_zero _)
      ⟨trivial, rfl⟩
  have wf₁ : c₁.WellFormed := by
    refine wf₂.step (H := {⟨8⟩}) (K := 0) ?_ ⟨Nat.two_pos, rfl⟩
    intro b member
    rw [Multiset.mem_singleton.1 member]
    exact ⟨Nat.le_refl _, Nat.lt_succ_self _⟩
  rcases sameButFrames_modifyCurrent (c := c₂) (m := ⟨0⟩) Nat.two_pos (List.cons_ne_nil _ _)
    fun f => { f with objs := f.objs.declare "y" ⟨8⟩ } with ⟨same, calls⟩
  have registered : c₁.Registered ⟨1⟩ := rfl
  have other : c₁.Registered ⟨0⟩ := rfl
  have quiet := (callFunction_isolated_iff wf₁ same calls registered).2 alike ⟨0⟩ other nofun
  -- `m.y` is the local of the call in one of the states and means nothing in the other
  cases (quiet "y").1

end Shiba

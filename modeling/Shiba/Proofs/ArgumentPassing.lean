import Shiba.Proofs.Zones.Local
import Shiba.Proofs.Zones.Reachable

/-!
# Arguments are passed by value

A call of a function whose code defines nothing, selects no members and mentions no name that its module
binds at its top level, other than its parameters, leaves everything as it was that was there before.  The
parameters are bound to deep copies of the arguments, so nothing within reach of the call was there before
it.

* `State.KeptIn s t`: all that is in `s` is in `t`, and is what it was.
* `Guarded.Withholds`: all that was in a state is out of reach, and is what it was.
* `callFunction_keeps` is the statement, for however the call ends.
-/

namespace Shiba

open Eval

/-! ## What is kept -/

/-- All boxes, lists and dictionaries that are in `s` are in `t`, and are what they were. -/
structure State.KeptIn (s t : State) : Prop where
  box : ∀ b, s.HasBox b → t.HasBox b ∧ t.heap.value b = s.heap.value b
  list : ∀ l, s.HasList l → t.HasList l ∧ t.heap.items l = s.heap.items l
  dict : ∀ d, s.HasDict d → t.HasDict d ∧ t.heap.dictionary d = s.heap.dictionary d

namespace State.KeptIn

variable {s t u : State}

theorem of_heap_eq (same : t.heap = s.heap) : s.KeptIn t := by
  constructor
  · exact fun b there => ⟨by rwa [State.HasBox, same], by rw [same]⟩
  · exact fun l there => ⟨by rwa [State.HasList, same], by rw [same]⟩
  · exact fun d there => ⟨by rwa [State.HasDict, same], by rw [same]⟩

theorem trans (first : s.KeptIn t) (second : t.KeptIn u) : s.KeptIn u where
  box b there := by
    have ⟨here, same⟩ := first.box b there
    exact ⟨(second.box b here).1, (second.box b here).2.trans same⟩
  list l there := by
    have ⟨here, same⟩ := first.list l there
    exact ⟨(second.list l here).1, (second.list l here).2.trans same⟩
  dict d there := by
    have ⟨here, same⟩ := first.dict d there
    exact ⟨(second.dict d here).1, (second.dict d here).2.trans same⟩

theorem alloc (v : Value) : s.KeptIn (Eval.alloc v s).2 where
  box _ there := ⟨Nat.lt_of_lt_of_le there (State.size_le_of_grown (HeapM.prefix_push _ _)),
    State.getD_of_grown (HeapM.prefix_push _ _) there⟩
  list _ there := ⟨there, rfl⟩
  dict _ there := ⟨there, rfl⟩

end State.KeptIn

namespace Guarded

variable {P : Policy} {σ τ : Guarded P} {s : State}

/-- All that is in a state is out of reach in a later one, and is what it was. -/
structure Withholds (σ : Guarded P) (s : State) : Prop where
  box : ∀ b, s.HasBox b → σ.In .old b ∧ σ.state.heap.value b = s.heap.value b
  list : ∀ l, s.HasList l → σ.state.HasList l ∧ σ.state.heap.items l = s.heap.items l
  dict : ∀ d, s.HasDict d → σ.Fit .old (.dict d) ∧ σ.state.heap.dictionary d = s.heap.dictionary d

theorem Withholds.keeps (withheld : σ.Withholds s) : s.KeptIn σ.state where
  box b there := ⟨(withheld.box b there).1.1, (withheld.box b there).2⟩
  list l there := withheld.list l there
  dict d there := ⟨(withheld.dict d there).1.1, (withheld.dict d there).2⟩

theorem Withholds.mono (later : σ.Later τ) (withheld : σ.Withholds s) : τ.Withholds s where
  box b there := by
    obtain ⟨old, same⟩ := withheld.box b there
    exact ⟨old.mono later, (later.value b old.1 (old.2 ▸ Zone.old_ne_live)).trans same⟩
  list l there := by
    obtain ⟨here, same⟩ := withheld.list l there
    exact ⟨here.mono later.grew, (State.getD_of_grown later.grew.lists here).trans same⟩
  dict d there := by
    obtain ⟨old, same⟩ := withheld.dict d there
    exact ⟨old.mono later, (later.dictionary d old.1 (old.2 ▸ Zone.old_ne_live)).trans same⟩

/-! ## The beginning of a call -/

/-- When a call begins, all that is there is out of its reach. -/
def begun (σ : Guarded P) {m : ModuleId} (there : σ.state.HasModule m) :
    Guarded (.ofCall P.config (fun _ => False) m) where
  state := σ.state.modifyScope m Scope.pushFunction
  zones := .allOld
  wf := σ.wf.enter there (.inl rfl)
  value b _ := Zoning.fits_allOld _ _
  items _ _ _ := rfl
  entries _ _ _ := ⟨rfl, rfl⟩
  fields _ _ _ := rfl
  filed := σ.filed
  builtins b isBuiltin := ⟨rfl, (σ.builtins b isBuiltin).2⟩
  scopes := by
    rintro _ _ rfl b reached
    rw [State.modifyScope, Registry.module_modifyScope_self _ there] at reached
    rcases reached with here | ⟨_, never, -⟩
    · cases here
    · exact never.elim

theorem withholds_begun (σ : Guarded P) {m : ModuleId} (there : σ.state.HasModule m) :
    (σ.begun there).Withholds σ.state where
  box _ there := ⟨⟨there, rfl⟩, rfl⟩
  list _ there := ⟨there, rfl⟩
  dict _ there := ⟨⟨there, rfl⟩, rfl⟩

end Guarded

/-- A call is being prepared in the module `m`, which stands for `m₀`: its frame has no blocks, and some
names are bound in its body. -/
structure State.Prepares (t : State) (m₀ m : ModuleId) (root : Frame BoxId StructId)
    (names : List String) : Prop where
  module : t.HasModule m₀
  here : t.HasModule m
  stands : t.Stands m₀ m
  root : (t.registry.module m).scope.root = root
  frame : ∃ body structs outer, (t.registry.module m).scope.frames = ⟨⟨body, []⟩, structs⟩ :: outer ∧
    ∀ name ∈ names, name ∈ body.keys

namespace State.Prepares

variable {t : State} {m₀ m : ModuleId} {root : Frame BoxId StructId} {names : List String}

theorem pushed (module : t.HasModule m₀) (here : t.HasModule m) (stands : t.Stands m₀ m) :
    (t.modifyScope m Scope.pushFunction).Prepares m₀ m (t.registry.module m).scope.root [] := by
  have grew := t.extends_modifyScope m Scope.pushFunction
  have scope := Registry.module_modifyScope_self Scope.pushFunction here
  refine ⟨module.mono grew, here.mono grew, stands.mono grew module, ?_, .empty, .empty,
    (t.registry.module m).scope.frames, ?_, nofun⟩
  · exact congrArg (·.scope.root) scope
  · exact congrArg (·.scope.frames) scope

theorem declare (prepared : t.Prepares m₀ m root names) (name : String) (b : BoxId) :
    (t.modifyScope m (·.declareObj name b)).Prepares m₀ m root (name :: names) := by
  have grew := t.extends_modifyScope m (·.declareObj name b)
  obtain ⟨body, structs, outer, active, bound⟩ := prepared.frame
  have scope := Registry.module_modifyScope_self (·.declareObj name b) prepared.here
  refine ⟨prepared.module.mono grew, prepared.here.mono grew,
    prepared.stands.mono grew prepared.module, ?_, body.insert name b, structs, outer, ?_, ?_⟩
  · rw [State.modifyScope, scope, Scope.declareObj, Scope.modifyCurrent, active]
    exact prepared.root
  · rw [State.modifyScope, scope, Scope.declareObj, Scope.modifyCurrent, active]
    rfl
  · intro name' listed
    exact OrderedMap.mem_keys_insert.2 ((List.mem_cons.1 listed).imp_right (bound name'))

theorem mono {fewer : List String} (prepared : t.Prepares m₀ m root names)
    (listed : ∀ name ∈ fewer, name ∈ names) : t.Prepares m₀ m root fewer := by
  obtain ⟨body, structs, outer, active, bound⟩ := prepared.frame
  exact { prepared with
    frame := ⟨body, structs, outer, active, fun name inside => bound name (listed name inside)⟩ }

/-- Names are bound to deep copies one after another. -/
theorem declareArgs {cfg : Config} {u : State} {entries : List (String × BoxId)}
    (prepared : t.Prepares m₀ m root names)
    (run : (entries.forM fun e => do
      Eval.declareObj m₀ e.1 (← onHeap (HeapM.clone cfg.dataLimit e.2))) t = (.ok (), u)) :
    u.Prepares m₀ m root (entries.map (·.1) ++ names) := by
  induction entries generalizing t names with
  | nil =>
    cases run
    exact prepared
  | cons e entries ih =>
    obtain ⟨copied, h, cloned⟩ : ∃ copied h,
        onHeap (HeapM.clone cfg.dataLimit e.2) t = (copied, t.withHeap h) := ⟨_, _, onHeap_apply _ t⟩
    have kept : (t.withHeap h).Prepares m₀ m root names := { prepared with }
    let declareOne (e : String × BoxId) : Eval Unit := do
      Eval.declareObj m₀ e.1 (← onHeap (HeapM.clone cfg.dataLimit e.2))
    change (declareOne e >>= fun _ => entries.forM declareOne) t = (.ok (), u) at run
    cases copied with
    | error stop =>
      have stopped : declareOne e t = (.error stop, t.withHeap h) := bind_error cloned
      rw [bind_error stopped] at run
      cases run
    | ok b =>
      have declared : declareOne e t = (.ok (), (t.withHeap h).modifyScope m (·.declareObj e.1 b)) :=
        (bind_ok cloned).trans (run_onScope kept.stands)
      rw [bind_ok declared] at run
      refine (ih (kept.declare e.1 b) run).mono fun name listed => ?_
      simp only [List.map_cons, List.cons_append, List.mem_cons, List.mem_append] at listed ⊢
      tauto

end State.Prepares

namespace Guarded

/-- When the parameters have been bound, the names that are parameters or are not bound at the top level
lead to nothing that was there before. -/
def widen {cfg : Config} {m₀ m : ModuleId} {root : Frame BoxId StructId} {params : List String}
    (σ : Guarded (.ofCall cfg (fun _ => False) m))
    (prepared : σ.state.Prepares m₀ m root params) :
    Guarded (.ofCall cfg (fun name => name ∈ params ∨ root.objs.get? name = none) m) where
  state := σ.state
  zones := σ.zones
  wf := σ.wf
  value := σ.value
  items := σ.items
  entries := σ.entries
  fields := σ.fields
  filed := σ.filed
  builtins := σ.builtins
  scopes := by
    rintro _ there rfl b reached
    rcases reached with here | ⟨name, named, unbound, found⟩
    · exact σ.scopes _ there rfl b (.inl here)
    · obtain ⟨body, structs, outer, active, bound⟩ := prepared.frame
      rw [Scope.current, active] at unbound
      rw [prepared.root] at found
      rcases named with isParam | absent
      · exact absurd (bound name isParam) unbound
      · cases found.symm.trans absent

end Guarded

/-! ## Calls -/

/-- A call of a function with arguments that are finite trees of data.  The code of the function defines
nothing and selects no members, and all names in it are parameters, or are not bound at the top level of
the module that stands for its own. -/
structure SelfContained (s : State) (f : Function) (m : ModuleId) (args : List BoxId) : Prop where
  module : s.HasModule f.module
  stands : s.Stands f.module m
  plain : ∀ stmt ∈ f.body, stmt.Plain fun name =>
    name ∈ f.params ∨ (s.registry.module m).scope.root.objs.get? name = none
  trees : ∀ b ∈ args, s.HasBox b ∧ s.heap.Tree (s.heap.value b)

section Call

variable {cfg : Config} {s : State} {f : Function} {m : ModuleId} {args : List BoxId}

theorem SelfContained.here {σ : Guarded (.everything cfg)} (call : SelfContained σ.state f m args) :
    σ.state.HasModule m :=
  (σ.wf.found _ m call.stands).1

/-- The parameters are bound to deep copies, and all that was there stays out of reach. -/
theorem declareArgs_withholds {σ : Guarded (.everything cfg)} (call : SelfContained σ.state f m args)
    (sizes : args.length = f.params.length) :
    ∃ (result : Except Stop Unit) (τ : Guarded (.ofCall cfg (fun _ => False) m)),
      declareArgs cfg f.module f.params args (σ.begun call.here).state = (result, τ.state) ∧
        τ.Withholds σ.state ∧ (result = .ok () →
          τ.state.Prepares f.module m (σ.state.registry.module m).scope.root f.params) := by
  have begun := State.Prepares.pushed call.module call.here call.stands
  -- the arguments are out of reach, and can be copied wherever they lie
  have sources : ∀ b ∈ args, ∀ τ, (σ.begun call.here).Later τ → τ.Source (τ.state.heap.value b) := by
    intro b member τ later
    obtain ⟨isBox, tree⟩ := call.trees b member
    have box : (σ.begun call.here).SourceBox b := .inr ⟨⟨isBox, rfl⟩, tree⟩
    exact (box.mono later).source
  have declares : (σ.begun call.here).Safe (declareArgs cfg f.module f.params args)
      (declareArgs cfg f.module f.params args) fun _ _ => True :=
    .declareArgs begun.module sources
  obtain ⟨result, τ, run, -, later, -⟩ := declares
  refine ⟨result, τ, run, (σ.withholds_begun call.here).mono later, ?_⟩
  rintro rfl
  refine (begun.declareArgs run).mono fun name listed => ?_
  rw [List.append_nil, List.map_fst_zip sizes.ge]
  exact listed

/-- What runs in the frame of a call keeps what was there before. -/
theorem runBody_keeps (reachable : Reachable cfg s) (call : SelfContained s f m args)
    (sizes : args.length = f.params.length) (fuel calls : Nat) :
    s.KeptIn (runBody (evaluators cfg fuel) cfg calls f none args
      (s.modifyScope m Scope.pushFunction)).2 := by
  obtain ⟨σ, rfl⟩ := reachable.guarded
  obtain ⟨result, τ, run, withheld, prepared⟩ := declareArgs_withholds call sizes
  change σ.state.KeptIn ((declareArgs cfg f.module f.params args >>= fun _ =>
    runBlock ((evaluators cfg fuel).stmt ⟨f.module, calls⟩) f.body) (σ.begun call.here).state).2
  cases result with
  | error stop =>
    rw [bind_error run]
    exact withheld.keeps
  | ok =>
    have bound := prepared rfl
    have inside : (τ.widen bound).Withholds σ.state := ⟨withheld.box, withheld.list, withheld.dict⟩
    have here : (τ.widen bound).Here f.module := ⟨bound.module, m, bound.stands, rfl⟩
    have runs : (τ.widen bound).Safe (runBlock ((evaluators cfg fuel).stmt ⟨f.module, calls⟩) f.body)
        (runBlock ((evaluators cfg fuel).stmt ⟨f.module, calls⟩) f.body) fun flow υ => υ.SeenFlow flow :=
      .runBlock (Guarded.contract _ fuel) here fun stmt member => .inr (call.plain stmt member)
    obtain ⟨_, υ, ended, -, later, -⟩ := runs
    rw [bind_ok run]
    exact (congrArg Prod.snd ended) ▸ (inside.mono later).keeps

/-- Tracing changes nothing but the lines written. -/
theorem trace_writes (cfg : Config) (s : State) (level : Int) (text : Eval String)
    (reads : text.Looks fun _ => True) :
    ∃ result lines, trace cfg level text s = (result, { s with output := lines }) := by
  rw [trace]
  split
  · obtain ⟨same, -⟩ := reads s
    rcases run : text s with ⟨result, t⟩
    rw [run] at same
    subst same
    cases result with
    | ok line =>
      rw [bind_ok run]
      exact ⟨_, _, rfl⟩
    | error stop =>
      rw [bind_error run]
      exact ⟨_, t.output, rfl⟩
  · exact ⟨_, s.output, rfl⟩

theorem heap_popFunction (m : ModuleId) (t : State) : (popFunction m t).2.heap = t.heap := by
  rw [popFunction, popScope, bind_ok (run_get t)]
  cases (t.registry.module m).scope.popFunction? with
  | some scope => rfl
  | none => rfl

/-- A frame is opened and closed without a change of the heap. -/
theorem heap_inFunction {α : Type} {m₀ : ModuleId} (stands : s.Stands m₀ m) (act : Eval α) :
    (inFunction m₀ act s).2.heap = (act (s.modifyScope m Scope.pushFunction)).2.heap := by
  have opens : modifyScope m Scope.pushFunction s = (.ok (), s.modifyScope m Scope.pushFunction) := rfl
  rw [inFunction, bind_ok (Discipline.Agree.run_resolve stands), within, bind_ok opens]
  rcases run : act (s.modifyScope m Scope.pushFunction) with ⟨result, t⟩
  have watched : observe act (s.modifyScope m Scope.pushFunction) = (.ok result, t) := by
    rw [observe, run]
  have closed := heap_popFunction m t
  rw [bind_ok watched]
  rcases pops : popFunction m t with ⟨popped, u⟩
  rw [pops] at closed
  cases popped with
  | error stop =>
    rw [bind_error pops]
    exact closed
  | ok =>
    rw [bind_ok pops]
    cases result with
    | ok x => exact closed
    | error stop => exact closed

theorem answer_keeps (flow : Flow) (t : State) : t.KeptIn (answer f flow t).2 := by
  unfold answer
  split
  · exact .of_heap_eq rfl
  · exact .of_heap_eq rfl
  · exact .of_heap_eq rfl
  · exact .alloc .nil

/-- A call keeps what was there before from the opening of its frame to its answer. -/
theorem frame_keeps (reachable : Reachable cfg s) (call : SelfContained s f m args)
    (sizes : args.length = f.params.length) (fuel calls : Nat) :
    s.KeptIn ((inFunction f.module (runBody (evaluators cfg fuel) cfg calls f none args) >>=
      answer f) s).2 := by
  have body := runBody_keeps reachable call sizes fuel calls
  have heap := heap_inFunction call.stands (runBody (evaluators cfg fuel) cfg calls f none args)
  rcases run : inFunction f.module (runBody (evaluators cfg fuel) cfg calls f none args) s with
    ⟨result, t⟩
  rw [run] at heap
  have kept : s.KeptIn t := body.trans (.of_heap_eq heap)
  cases result with
  | error stop =>
    rw [bind_error run]
    exact kept
  | ok flow =>
    rw [bind_ok run]
    exact kept.trans (answer_keeps flow t)

/-- Every box, list and dictionary that was there before a self-contained call is there afterwards and is
what it was, whether the call returns, fails or ends the program. -/
theorem callFunction_keeps (reachable : Reachable cfg s) (call : SelfContained s f m args)
    (fuel calls : Nat) :
    s.KeptIn (callFunction (evaluators cfg fuel) cfg calls f none args s).2 := by
  unfold callFunction
  dsimp only
  split
  · exact .of_heap_eq rfl
  · next sizes =>
    obtain ⟨result, lines, traced⟩ := trace_writes cfg s 3
      (do
        let shown ← args.mapM (canonical cfg)
        let module := ((← get).registry.module f.module).name
        return "call " ++ module ++ "." ++ f.name ++ "(" ++ ", ".intercalate shown ++ ")")
      (.bind (.mapM (.canonical cfg) args) fun _ _ => .get_bind fun _ => .pure trivial)
    have written : s.KeptIn { s with output := lines } := .of_heap_eq rfl
    cases result with
    | error stop =>
      rw [bind_error traced]
      exact written
    | ok =>
      rw [bind_ok traced]
      cases calls with
      | zero => exact written
      | succ calls =>
        exact written.trans (frame_keeps (reachable.output lines) { call with } (not_not.1 sizes) fuel
          calls)

end Call

/-! ## Calls by value and names of the top level -/

/-- What stands for a tree without floats is a finite tree of data.  The induction is on the depth. -/
theorem Heap.tree_of_data {h : Heap} {limit n : Nat} {v : Value} {x : Data} (filed : h.Filed limit)
    (le : n ≤ limit) (discrete : x.Discrete) (holds : h.data n v = some x) : h.Tree v := by
  induction n generalizing v x with
  | zero => cases holds
  | succ n ih =>
    have le' := Nat.le_of_succ_le le
    cases made_of_data filed le' discrete holds with
    | nil => exact .nil
    | bool => exact .bool _
    | int => exact .int _
    | str => exact .str _
    | list parts each =>
      refine .list fun b member => ?_
      obtain ⟨y, inside, here⟩ := exists_of_mem each (Array.mem_toList_iff.2 member)
      exact ih le' (parts y inside) here
    | @dict d _ parts each =>
      have both : ∀ e ∈ (h.dictionary d).values, h.Tree (h.value e.key) ∧ h.Tree (h.value e.value) := by
        intro e member
        obtain ⟨entry, listed, rfl⟩ := List.mem_map.1 member
        obtain ⟨y, inside, here⟩ := exists_of_mem each listed
        exact ⟨ih le' (parts y inside).1 here.key, ih le' (parts y inside).2 here.value⟩
      exact .dict (fun e member => (both e member).1) fun e member => (both e member).2

/-- The state in which a name is bound to the list `[1]`. -/
def listNamed (name : String) : State :=
  (evalStmt .standard 9 ⟨⟨0⟩, 5⟩ (.assign .start .plain [.ident .start name]
    [.list .start [.literal .start (.int 1)]]) (State.initial.load (.ofSource "main" "/" ""))).2

theorem running_listNamed (name : String) : Running .standard ⟨0⟩ (listNamed name) :=
  Running.evalStmt ⟨.register .initial rfl, State.hasModule_load State.initial _⟩ 9 5 _

/-- A function that overwrites the first element of what a name means. -/
def overwriting (params : List String) (name : String) : Function :=
  { name := "f"
    module := ⟨0⟩
    params := params
    body := [.assign .start .plain [.index .start (.ident .start name) (.literal .start (.int 0))]
      [.literal .start (.bool true)]] }

theorem plain_overwriting {N : String → Prop} (params : List String) {name : String} (named : N name) :
    ∀ stmt ∈ (overwriting params name).body, stmt.Plain N :=
  List.forall_mem_singleton.2 (.assign
    (List.forall_mem_singleton.2 (.index (.ident named) .literal))
    (List.forall_mem_singleton.2 .literal))

/-- A parameter is overwritten, and the argument is not. -/
theorem callFunction_keeps_overwriting :
    let s := listNamed "x"
    s.KeptIn (callFunction (evaluators .standard 9) .standard 5 (overwriting ["x"] "x") none [⟨11⟩] s).2 := by
  intro s
  have running : Running .standard ⟨0⟩ s := running_listNamed "x"
  have tree : ∃ x ∈ s.heap.data 5000 (s.heap.value ⟨11⟩), x.Discrete := by decide +kernel
  have there : s.HasBox ⟨11⟩ := by
    change 11 < s.heap.boxes.size
    decide +kernel
  have stands : s.Stands ⟨0⟩ ⟨0⟩ := by
    change s.registry.find? (s.registry.module ⟨0⟩).key = some ⟨0⟩
    decide +kernel
  clear_value s
  obtain ⟨x, holds, discrete⟩ := tree
  refine callFunction_keeps running.reachable ⟨running.here, stands, ?_, ?_⟩ 9 5
  · exact plain_overwriting _ (.inl List.mem_cons_self)
  · exact List.forall_mem_singleton.2
      ⟨there, Heap.tree_of_data running.reachable.filed le_rfl discrete holds⟩

/-- A name of a function visible everywhere is bound at the top level, and leads to what was there before
the call. -/
theorem callFunction_overwrites_shadowed :
    let s := listNamed "len"
    let f := overwriting [] "len"
    Reachable .standard s ∧ s.HasModule f.module ∧ s.Stands f.module ⟨0⟩ ∧
      (∀ stmt ∈ f.body, stmt.Plain (· ∈ s.builtins.keys)) ∧
      ¬ s.KeptIn (callFunction (evaluators .standard 9) .standard 5 f none [] s).2 := by
  intro s f
  have running : Running .standard ⟨0⟩ s := running_listNamed "len"
  refine ⟨running.reachable, running.here, ?_, plain_overwriting [] (by decide +kernel), fun keeps => ?_⟩
  · change s.registry.find? (s.registry.module ⟨0⟩).key = some ⟨0⟩
    decide +kernel
  · have there : s.HasBox ⟨9⟩ := by
      change 9 < s.heap.boxes.size
      decide +kernel
    have kind := congrArg Value.kind (keeps.box ⟨9⟩ there).2
    revert kind
    decide +kernel

end Shiba

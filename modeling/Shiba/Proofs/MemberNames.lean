import Shiba.Proofs.CallFrame

/-!
# Member names inside and outside

A member of an instance can be named in two ways: by a selector, `p.name`, and by the bare name in a method
that is called on the instance.  A selector asks for a field first and for a method when there is none.  The
frame of a method gets the fields first and the methods behind them, and a name means there what it was bound
to last.  So the two ways agree on every name but those of a field and a method at once.

* `Heap.IsMember`: what a selector of an instance yields.
* `Eval.BodyBegins`: the state in which the body of a method begins.
* `Eval.run_declareMembers`: what the frame of a method binds, before its parameters.
* `member_names_agree_iff` is the statement, over all reachable states.
-/

namespace Shiba

/-! ## Maps -/

namespace OrderedMap

variable {α β : Type} [DecidableEq α]

theorem get?_insertMany_of_notMem {a : α} {entries : List (α × β)} (absent : a ∉ entries.map (·.1))
    (m : OrderedMap α β) : (m.insertMany entries).get? a = m.get? a := by
  induction entries generalizing m with
  | nil => rfl
  | cons entry entries ih =>
    obtain ⟨other, later⟩ := not_or.1 (mt List.mem_cons.2 absent)
    change ((m.insert entry.1 entry.2).insertMany entries).get? a = _
    rw [ih later, get?_insert, if_neg other]

theorem ofList_concat (entries : List (α × β)) (e : α × β) :
    ofList (entries ++ [e]) = (ofList entries).insert e.1 e.2 :=
  List.foldl_append

end OrderedMap

/-! ## Methods have different names -/

/-- The methods of every struct definition have different names. -/
def State.DistinctMethods (s : State) : Prop := ∀ d ∈ s.heap.structs, d.methods.keys.Nodup

theorem State.stable_distinctMethods : State.Stable DistinctMethods where
  step {s op H K} allowed distinct := by
    cases op with
    | allocStruct d =>
      intro c member
      rcases Array.mem_push.1 member with old | rfl
      · exact distinct c old
      · exact allowed.1.2
    | alloc | write | allocList | allocDict | file | unfile | allocInstance | allocFunction | setObj
    | declareObj | setStruct | print => exact distinct
  modifyScope _ _ distinct := distinct
  load _ distinct := distinct

theorem Reachable.distinctMethods {cfg : Config} {s : State} (reachable : Reachable cfg s) :
    s.DistinctMethods := by
  refine (reachable.upheld (.stable State.stable_distinctMethods) ⟨State.wellFormed_initial, nofun⟩ ?_ ?_).2
  · exact fun holds empty => ⟨holds.1.register empty, holds.2⟩
  · exact fun lines holds => ⟨holds.1.write lines, holds.2⟩

/-! ## Members of an instance -/

namespace Heap

/-- The definition of an instance. -/
def structOf (h : Heap) (i : InstanceId) : StructDef := h.structDef (h.instanceAt i).definition

/-- The box is what a selector of the instance yields: the box of the field, or, where there is no such field,
a box with the method of that name, bound to the instance. -/
def IsMember (h : Heap) (i : InstanceId) (name : String) (b : BoxId) : Prop :=
  match (h.instanceAt i).fields.get? name with
  | some field => b = field
  | none => ∃ g, (h.structOf i).methods.get? name = some g ∧ h.value b = .method g i

section Member

variable {h h' : Heap} {i : InstanceId} {name : String} {b : BoxId}

theorem isMember_of_field {c : BoxId} (field : (h.instanceAt i).fields.get? name = some c) :
    h.IsMember i name b ↔ b = c := by
  rw [IsMember, field]

theorem isMember_of_method {g : FunctionId} (none : (h.instanceAt i).fields.get? name = none)
    (method : (h.structOf i).methods.get? name = some g) : h.IsMember i name b ↔ h.value b = .method g i := by
  rw [IsMember, none, method]
  simp

theorem Grows.structOf_eq (grows : h.Grows h') (there : i.index < h.instances.size) :
    h'.structOf i = h.structOf i := by
  rw [structOf, structOf, grows.instanceAt_eq there, structDef, structDef, grows.structs]

end Member

/-- The names of a frame are those of the fields of an instance, and behind them its methods in new boxes. -/
structure Binds (h h' : Heap) (i : InstanceId) (methods : OrderedMap String FunctionId)
    (names : OrderedMap String BoxId) : Prop where
  method : ∀ name g, methods.get? name = some g →
    ∃ b, names.get? name = some b ∧ h.Added h' (.box b) ∧ h'.value b = .method g i
  field : ∀ name, methods.get? name = none → names.get? name = (h.instanceAt i).fields.get? name

end Heap

/-! ## The frame of a method -/

namespace Eval

open InFrame

variable {cfg : Config} {s t u : State} {m : ModuleId} {f : Function} {i : InstanceId} {args : List BoxId}

/-- The body of a method begins in the state `t` when the frame of its call is opened in the state `s`:
however statements are run, what is left of the call is the body, from `t` on. -/
def BodyBegins (cfg : Config) (f : Function) (i : InstanceId) (args : List BoxId) (m : ModuleId)
    (s t : State) : Prop :=
  ∀ ev calls, runBody ev cfg calls f (some i) args (s.modifyScope m Scope.pushFunction) =
    runBlock (ev.stmt ⟨f.module, calls⟩) f.body t

/-- The members of the receiver are bound, the methods behind the fields. -/
theorem run_declareMembers (sound : s.heap.Sound) (there : i.index < s.heap.instances.size)
    (site : s.Site f.module m) (fields : (s.heap.instanceAt i).fields.keys.Nodup)
    (methods : (s.heap.structOf i).methods.keys.Nodup) :
    Ends (declareMembers f.module i) (s.modifyScope m Scope.pushFunction) fun _ t => ∃ names,
      InFrame cfg s m (begun names) t ∧ s.heap.Grows t.heap ∧
        s.heap.Binds t.heap i (s.heap.structOf i).methods names := by
  have bound := run_declareObj site.stands site.module (s.heap.instanceAt i).fields.entries [] fields
  have entered : InFrame cfg s m (begun (s.heap.instanceAt i).fields)
      (s.enter m (s.heap.instanceAt i).fields) := ⟨rfl, rfl, .refl cfg 3 s.output, sound⟩
  let binds (done : List (String × FunctionId)) (t : State) : Prop := ∃ names,
    InFrame cfg s m (begun names) t ∧ s.heap.Grows t.heap ∧ s.heap.Binds t.heap i (.ofList done) names
  have all : Ends ((s.heap.structOf i).methods.entries.forM fun e => do
      declareObj f.module e.1 (← Eval.alloc (.method e.2 i))) (s.enter m (s.heap.instanceAt i).fields)
      fun _ t => binds (s.heap.structOf i).methods.entries t := by
    have unbound : s.heap.Binds s.heap i (.ofList []) (s.heap.instanceAt i).fields :=
      ⟨fun _ _ found => (Option.some_ne_none _ found.symm).elim, fun _ _ => rfl⟩
    refine .forM (I := binds) _ ⟨_, entered, .refl s.heap, unbound⟩ ?_
    rintro e - done t ⟨names, inside, grows, ⟨method, field⟩⟩
    have knows : t.heap.Knows (.method e.2 i) := Heap.Knows.mono (v := .method e.2 i) grows there
    refine (inside.declareNew site e.1 knows).mono ?_
    rintro _ v ⟨b, inside', grows', added, holds⟩
    refine ⟨names.insert e.1 b, inside', grows.trans grows', ?_, ?_⟩
    · intro name g found
      rw [OrderedMap.ofList_concat, OrderedMap.get?_insert] at found
      rw [OrderedMap.get?_insert]
      split at found
      · next same =>
        cases found
        exact ⟨b, if_pos same, added.since grows, holds⟩
      · next other =>
        obtain ⟨c, isBound, added', holds'⟩ := method name g found
        have kept := grows'.value_eq added'.there
        exact ⟨c, (if_neg other).trans isBound, added'.grown grows', kept.trans holds'⟩
    · intro name none
      rw [OrderedMap.ofList_concat, OrderedMap.get?_insert] at none
      split at none
      · cases none
      · next other => exact (OrderedMap.get?_insert ..).trans ((if_neg other).trans (field name none))
  rw [declareMembers]
  refine .after (run_get _) (.after bound (all.mono ?_))
  rintro _ t ⟨names, inside, grows, binds⟩
  rw [OrderedMap.ofList_of_nodup methods] at binds
  exact ⟨names, inside, grows, binds⟩

/-- The body of a method begins when the members of the receiver and the parameters are bound. -/
theorem bodyBegins_iff : BodyBegins cfg f i args m s t ↔
    (declareMembers f.module i >>= fun _ => declareArgs cfg f.module f.params args)
      (s.modifyScope m Scope.pushFunction) = (.ok (), t) := by
  have whole (ev : Evaluators) (calls : Nat) : runBody ev cfg calls f (some i) args =
      (declareMembers f.module i >>= fun _ => declareArgs cfg f.module f.params args) >>= fun _ =>
        runBlock (ev.stmt ⟨f.module, calls⟩) f.body := (bind_assoc _ _ _).symm
  constructor
  · intro begins
    rcases run : (declareMembers f.module i >>= fun _ => declareArgs cfg f.module f.params args)
      (s.modifyScope m Scope.pushFunction) with ⟨result, u⟩
    -- statements that stop at once, each for a reason of its own, tell where the body begins
    let stops (stop : Stop) : Evaluators := ⟨fun _ _ => throw stop, fun _ _ => throw stop⟩
    have first := begins (stops .tooDeep) 0
    have second := begins (stops .outOfFuel) 0
    rw [whole] at first second
    cases result with
    | error stop =>
      rw [bind_error run] at first second
      cases body : f.body with
      | nil =>
        rw [body] at first
        cases first
      | cons =>
        rw [body] at first second
        cases first
        cases second
    | ok =>
      rw [bind_ok run] at first
      cases body : f.body with
      | nil =>
        rw [body] at first
        cases first
        rfl
      | cons =>
        rw [body] at first
        cases first
        rfl
  · intro run ev calls
    rw [whole]
    exact bind_ok run

/-- What the frame of a method binds when its body begins: the members of the receiver under all names but
those of the parameters. -/
theorem BodyBegins.binds (begins : BodyBegins cfg f i args m s t) (sound : s.heap.Sound)
    (there : i.index < s.heap.instances.size) (site : s.Site f.module m)
    (fields : (s.heap.instanceAt i).fields.keys.Nodup) (methods : (s.heap.structOf i).methods.keys.Nodup)
    (given : ∀ b ∈ args, s.heap.Has (.box b)) (arity : args.length = f.params.length) :
    ∃ names members, InFrame cfg s m (begun names) t ∧ s.heap.Grows t.heap ∧
      s.heap.Binds t.heap i (s.heap.structOf i).methods members ∧
      ∀ name, name ∉ f.params → names.get? name = members.get? name := by
  obtain ⟨⟨⟩, u, declared, members, inside, grows, binds⟩ :=
    run_declareMembers sound there site fields methods
  obtain ⟨result, v, run, completes, -⟩ := inside.declareArgs site sound grows given arity
  have ended := (bind_ok declared).symm.trans (bodyBegins_iff.1 begins)
  cases run.symm.trans ended
  obtain ⟨copies, -, inside', grows'⟩ := completes rfl
  refine ⟨_, members, inside', grows.trans grows', ⟨fun name g found => ?_, binds.field⟩,
    fun name isMember => ?_⟩
  · obtain ⟨b, bound, added, holds⟩ := binds.method name g found
    exact ⟨b, bound, added.grown grows', (grows'.value_eq added.there).trans holds⟩
  · refine OrderedMap.get?_insertMany_of_notMem (fun listed => isMember ?_) members
    obtain ⟨e, member, rfl⟩ := List.mem_map.1 listed
    exact (List.of_mem_zip member).1

/-- The body of a method begins when the arguments can be copied. -/
theorem exists_bodyBegins (sound : s.heap.Sound) (there : i.index < s.heap.instances.size)
    (site : s.Site f.module m) (fields : (s.heap.instanceAt i).fields.keys.Nodup)
    (methods : (s.heap.structOf i).methods.keys.Nodup) (given : ∀ b ∈ args, s.heap.Has (.box b))
    (arity : args.length = f.params.length)
    (fits : ∀ b ∈ args, (s.heap.canonical cfg.dataLimit (s.heap.value b)).isSome) :
    ∃ t, BodyBegins cfg f i args m s t := by
  obtain ⟨⟨⟩, u, declared, members, inside, grows, -⟩ := run_declareMembers sound there site fields methods
  obtain ⟨result, t, run, -, copied⟩ := inside.declareArgs site sound grows given arity
  cases copied fits
  exact ⟨t, bodyBegins_iff.2 ((bind_ok declared).trans run)⟩

/-! ## Selectors -/

/-- A selector of an instance finds what is a member of it. -/
theorem evalExpr_select {fuel : Nat} {ctx : Context} {target : Expr} {q : BoxId} {name : String}
    (evaluates : evalExpr cfg fuel ctx target s = (.ok q, t)) (holds : t.heap.value q = .struct i)
    (bound : ((t.heap.instanceAt i).fields.get? name).isSome ∨ ((t.heap.structOf i).methods.get? name).isSome)
    (p : Position) : Ends (evalExpr cfg (fuel + 1) ctx (.select p target name)) s fun b u =>
      u.heap.IsMember i name b := by
  rw [evalExpr_succ, Eval.expr]
  refine .located (.after evaluates (.after (run_read q t) ?_))
  rw [holds]
  refine .after (run_get t) ?_
  dsimp only
  cases field : (t.heap.instanceAt i).fields.get? name with
  | some b => exact .pure (by rw [Heap.IsMember, field])
  | none =>
    rw [field] at bound
    obtain ⟨g, found⟩ := Option.isSome_iff_exists.1 (bound.resolve_left Bool.false_ne_true)
    rw [Heap.structOf] at found
    rw [found]
    refine .of_run (t := (Operation.alloc (.method g i)).apply t) rfl ?_
    refine (Heap.isMember_of_method (h := ((Operation.alloc (.method g i)).apply t).heap) field found).2 ?_
    exact (Heap.value_push t.heap _ _).trans (if_pos rfl)

end Eval

/-- What a name means in the frame of a method: the method if there is one, and what a selector yields unless
there is a field as well. -/
theorem Heap.Binds.means {h h' : Heap} {i : InstanceId} {names : OrderedMap String BoxId} {name : String}
    (binds : h.Binds h' i (h.structOf i).methods names) (sound : h.Sound) (grows : h.Grows h')
    (there : i.index < h.instances.size)
    (isMember : name ∈ (h.instanceAt i).fields.keys ∨ name ∈ (h.structOf i).methods.keys) :
    ∃ b, names.get? name = some b ∧
      (∀ g, (h.structOf i).methods.get? name = some g → h'.value b = .method g i) ∧
      (h'.IsMember i name b ↔
        ¬ (name ∈ (h.instanceAt i).fields.keys ∧ name ∈ (h.structOf i).methods.keys)) := by
  have instances := grows.instanceAt_eq there
  have structs := grows.structOf_eq there
  cases method : (h.structOf i).methods.get? name with
  | some g =>
    obtain ⟨b, bound, added, holds⟩ := binds.method name g method
    refine ⟨b, bound, fun g' found => Option.some.inj found ▸ holds, ?_⟩
    cases field : (h.instanceAt i).fields.get? name with
    | some c =>
      have old : h.Has (.box c) := sound.fields i c (OrderedMap.mem_values_of_get? field)
      have both := And.intro (OrderedMap.mem_keys_of_get? field) (OrderedMap.mem_keys_of_get? method)
      rw [Heap.isMember_of_field (instances ▸ field)]
      refine iff_of_false ?_ (not_not.2 both)
      rintro rfl
      exact added.new old
    | none =>
      rw [Heap.isMember_of_method (instances ▸ field) (structs ▸ method)]
      refine iff_of_true holds fun both => ?_
      obtain ⟨c, found⟩ := OrderedMap.exists_get?_of_mem_keys both.1
      cases field.symm.trans found
  | none =>
    have notMethod : name ∉ (h.structOf i).methods.keys := by
      intro listed
      obtain ⟨g, found⟩ := OrderedMap.exists_get?_of_mem_keys listed
      cases method.symm.trans found
    obtain ⟨b, field⟩ := OrderedMap.exists_get?_of_mem_keys (isMember.resolve_right notMethod)
    refine ⟨b, (binds.field name method).trans field, nofun, ?_⟩
    rw [Heap.isMember_of_field (instances ▸ field)]
    exact iff_of_true rfl fun both => notMethod both.2

/-! ## Inside and outside -/

/-- A state in which the frame of a call of a method is opened: a method of the definition of an instance is
called on it, with as many arguments as it has parameters. -/
structure CallsMethod (cfg : Config) (s : State) (i : InstanceId) (g : FunctionId) (m : ModuleId)
    (args : List BoxId) : Prop where
  reachable : Reachable cfg s
  receiver : s.HasInstance i
  method : g ∈ (s.heap.structOf i).methods.values
  stands : s.Stands (s.heap.function g).module m
  given : ∀ b ∈ args, s.HasBox b
  arity : args.length = (s.heap.function g).params.length

namespace CallsMethod

open Eval

variable {cfg : Config} {s : State} {i : InstanceId} {g : FunctionId} {m : ModuleId} {args : List BoxId}

theorem site (calling : CallsMethod cfg s i g m args) : s.Site (s.heap.function g).module m := by
  have wf := calling.reachable.wellFormed
  have isStruct := (wf.shaped calling.receiver).definition
  have here := wf.hasModule ((wf.struct_ok isStruct).2 g calling.method)
  exact ⟨here, (wf.found _ m calling.stands).1, calling.stands⟩

theorem distinct (calling : CallsMethod cfg s i g m args) : (s.heap.structOf i).methods.keys.Nodup := by
  have wf := calling.reachable.wellFormed
  exact calling.reachable.distinctMethods _ (State.getD_mem (wf.shaped calling.receiver).definition)

/-- A selector of the receiver finds its members, in this state and in every later one. -/
theorem select (calling : CallsMethod cfg s i g m args) {name : String}
    (isMember : name ∈ (s.heap.structOf i).fields ∨ name ∈ (s.heap.structOf i).methods.keys) {fuel : Nat}
    {ctx : Context} {target : Expr} {u v : State} {q : BoxId} (p : Position)
    (evaluates : evalExpr cfg fuel ctx target u = (.ok q, v)) (holds : v.heap.value q = .struct i)
    (later : s.Extends v) : Ends (evalExpr cfg (fuel + 1) ctx (.select p target name)) u fun b w =>
      w.heap.IsMember i name b := by
  have shaped := calling.reachable.wellFormed.shaped calling.receiver
  refine evalExpr_select evaluates holds ?_ p
  rw [Heap.structOf, later.instanceAt_eq calling.receiver, later.structDef_eq shaped.definition]
  refine isMember.imp (fun isField => ?_) fun isMethod => OrderedMap.contains_eq_true_iff.2 isMethod
  rw [Heap.structOf, ← shaped.fields] at isField
  exact OrderedMap.contains_eq_true_iff.2 isField

end CallsMethod

open Eval InFrame in
/-- When the body of a method begins, the name of a member of the receiver that is not the name of a parameter
evaluates to what a selector of the receiver yields, be it evaluated then or later, if and only if it is not
the name of both a field and a method.  A selector yields the box of the field, or else the bound method; the
bare name means the method wherever there is one.  The body begins whenever the arguments can be copied. -/
theorem member_names_agree_iff {cfg : Config} {s : State} {i : InstanceId} {g : FunctionId} {m : ModuleId}
    {args : List BoxId} (calling : CallsMethod cfg s i g m args) :
    ((∀ b ∈ args, (s.heap.canonical cfg.dataLimit (s.heap.value b)).isSome) →
      ∃ t, BodyBegins cfg (s.heap.function g) i args m s t) ∧
    ∀ t, BodyBegins cfg (s.heap.function g) i args m s t → ∀ name, name ∉ (s.heap.function g).params →
      name ∈ (s.heap.structOf i).fields ∨ name ∈ (s.heap.structOf i).methods.keys →
      ∃ b, (∀ fuel calls p,
          evalExpr cfg (fuel + 1) ⟨(s.heap.function g).module, calls⟩ (.ident p name) t = (.ok b, t)) ∧
        (∀ {fuel ctx target u v q} p, evalExpr cfg fuel ctx target u = (.ok q, v) →
          v.heap.value q = .struct i → s.Extends v →
          Ends (evalExpr cfg (fuel + 1) ctx (.select p target name)) u fun c w => w.heap.IsMember i name c) ∧
        (∀ g', (s.heap.structOf i).methods.get? name = some g' → t.heap.value b = .method g' i) ∧
        (t.heap.IsMember i name b ↔
          ¬ (name ∈ (s.heap.structOf i).fields ∧ name ∈ (s.heap.structOf i).methods.keys)) := by
  have wf := calling.reachable.wellFormed
  have fields := wf.nodup_fields calling.receiver
  have shape : (s.heap.instanceAt i).fields.keys = (s.heap.structOf i).fields :=
    (wf.shaped calling.receiver).fields
  refine ⟨exists_bodyBegins wf.sound calling.receiver calling.site fields calling.distinct calling.given
    calling.arity, fun t begins name other isMember => ?_⟩
  obtain ⟨names, members, inside, grows, binds, same⟩ := begins.binds wf.sound calling.receiver calling.site
    fields calling.distinct calling.given calling.arity
  rw [← shape] at isMember ⊢
  obtain ⟨b, bound, isMethod, agrees⟩ := binds.means wf.sound grows calling.receiver isMember
  have found : (begun names).objs.get? name = some b := by
    rw [get?_begun, same name other, bound]
  exact ⟨b, fun fuel calls p => inside.ident calling.site found fuel calls p,
    calling.select (shape ▸ isMember), isMethod, agrees⟩

/-- The instance a value refers to. -/
def Value.instance? : Value → Option InstanceId
  | .struct i => some i
  | _ => none

theorem Value.eq_of_instance? {v : Value} {i : InstanceId} (same : v.instance? = some i) : v = .struct i := by
  cases v with
  | struct i' => exact congrArg Value.struct (Option.some.inj same)
  | nil | bool | int | float | str | list | dict | function | method | builtin | module | structDef =>
    cases same

/-- The state after a struct has been defined with a field `a`, a method `a` and a method `m` that returns
`a`, and an instance has been assigned to `p`. -/
def overlapping : State :=
  let struct : Stmt := .structDecl .start "S" ["a"]
    [.mk .start "a" [] [], .mk .start "m" [] [.returnValue .start (some (.ident .start "a"))]]
  let assign : Stmt := .assign .start .plain [.ident .start "p"]
    [.structInit .start "S" .start [(⟨.start, "a"⟩, .literal .start (.int 5))]]
  let main := State.initial.load (.ofSource "main" "/" "")
  (evalStmt .standard 9 ⟨⟨0⟩, 5⟩ assign (evalStmt .standard 9 ⟨⟨0⟩, 5⟩ struct main).2).2

theorem callsMethod_overlapping : CallsMethod .standard overlapping ⟨0⟩ ⟨1⟩ ⟨0⟩ [] where
  reachable := by
    have begun : Running .standard ⟨0⟩ (State.initial.load (.ofSource "main" "/" "")) :=
      ⟨.register .initial rfl, State.hasModule_load State.initial _⟩
    exact ((begun.evalStmt 9 5 _).evalStmt 9 5 _).reachable
  receiver := by
    change 0 < overlapping.heap.instances.size
    decide +kernel
  method := by
    have all : (overlapping.heap.structOf ⟨0⟩).methods.values = [⟨0⟩, ⟨1⟩] := by decide +kernel
    rw [all]
    decide
  stands := by
    unfold State.Stands
    decide +kernel
  given := nofun
  arity := by decide +kernel

open Eval in
/-- The other method finds the method under the name that a selector finds the field under. -/
theorem member_names_agree_iff_overlap :
    ∃ t b, BodyBegins .standard (overlapping.heap.function ⟨1⟩) ⟨0⟩ [] ⟨0⟩ overlapping t ∧
      evalExpr .standard 9 ⟨⟨0⟩, 5⟩ (.ident .start "a") t = (.ok b, t) ∧
      t.heap.value b = .method ⟨0⟩ ⟨0⟩ ∧ ¬ t.heap.IsMember ⟨0⟩ "a" b ∧
      Ends (evalExpr .standard 9 ⟨⟨0⟩, 5⟩ (.select .start (.ident .start "p") "a")) overlapping fun c w =>
        w.heap.IsMember ⟨0⟩ "a" c := by
  obtain ⟨fits, agrees⟩ := member_names_agree_iff callsMethod_overlapping
  obtain ⟨t, begins⟩ := fits nofun
  have home : (overlapping.heap.function ⟨1⟩).module = ⟨0⟩ := by decide +kernel
  have noParameters : (overlapping.heap.function ⟨1⟩).params = [] := by decide +kernel
  have fields : (overlapping.heap.structOf ⟨0⟩).fields = ["a"] := by decide +kernel
  have methods : (overlapping.heap.structOf ⟨0⟩).methods.keys = ["a", "m"] := by decide +kernel
  have first : (overlapping.heap.structOf ⟨0⟩).methods.get? "a" = some ⟨0⟩ := by decide +kernel
  have stands := callsMethod_overlapping.stands
  rw [home] at stands
  rw [home, noParameters, fields, methods] at agrees
  obtain ⟨b, ident, select, isMethod, agree⟩ := agrees t begins "a" nofun (.inl List.mem_cons_self)
  have bound : Eval.getObj? ⟨0⟩ "p" overlapping = (.ok (some ⟨12⟩), overlapping) := by
    rw [run_getObj? stands]
    have found : (overlapping.scopeOf ⟨0⟩).getObj? "p" = some ⟨12⟩ := by decide +kernel
    rw [found]
  have holds : overlapping.heap.value ⟨12⟩ = .struct ⟨0⟩ := Value.eq_of_instance? (by decide +kernel)
  refine ⟨t, b, begins, ident 8 5 .start, isMethod ⟨0⟩ first, by simp [agree], ?_⟩
  exact select .start (Eval.evalExpr_ident bound) holds (.refl overlapping)

end Shiba

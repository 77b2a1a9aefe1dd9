import Shiba.Proofs.CallFrame
import Shiba.Proofs.Parts.Imports
import Shiba.Proofs.Standard.Text

/-!
# Loading the standard module

The top level of the standard module `seq` is a comment and five functions.  An import that finds the module
runs it to its end, and then the names of the functions mean the functions.  They do so in every later state,
whatever the names mean there.

* `State.Defines`: the names of some functions mean them in a module, and all other names mean nothing.
* `Eval.ends_function`: what one declaration adds.
* `Eval.ends_functions`: what several declarations add.
* `Eval.ends_importStandard`: an import of the module.
-/

namespace Shiba

/-! ## Finding the module -/

/-- A file that is not beside the importing module is found in the directory of standard modules. -/
theorem Eval.findFile_standard {files : FileSystem} {name directory standard path : String}
    (beside : files.isFile (Path.join directory (Path.withExtension name)) = false)
    (isPath : Path.join standard (Path.withExtension name) = path) (isFile : files.isFile path = true) :
    findFile files name [directory, standard] = some path := by
  rw [findFile_cons_eq, beside, findFile_cons_eq, isPath, isFile]
  rfl

/-- The text of a file is read as it is when it has no other line ends than newlines. -/
theorem FileSystem.read_of_plain {files : FileSystem} {path content : String}
    (there : files.lookup path = .ok (.file content)) (plain : newlines content.toList = content.toList) :
    files.read path = .ok content := by
  rw [read, there]
  dsimp only
  rw [plain, String.ofList_toList]

theorem Library.newlines_seq : FileSystem.newlines seq.toList = seq.toList := by
  rw [toList_seq]
  decide +kernel

/-- In the standard configuration, a module in the root directory finds the standard module. -/
theorem Library.findFile_seq : Eval.findFile Config.standard.files "seq"
    ["/", Config.standard.standardDirectory] = some "/stdlib/seq.sb" :=
  Eval.findFile_standard (by decide +kernel) (by decide +kernel) rfl

theorem Library.read_seq : Config.standard.files.read "/stdlib/seq.sb" = .ok seq :=
  FileSystem.read_of_plain rfl newlines_seq

/-! ## What it declares -/

/-- The function that a declaration in a module declares. -/
def FunctionDecl.function (d : FunctionDecl) (m : ModuleId) : Function := ⟨m, d.name, d.params, d.body⟩

namespace State

/-- The box holds the function that is declared in a module. -/
structure Holds (s : State) (m : ModuleId) (d : FunctionDecl) (b : BoxId) (f : FunctionId) : Prop where
  box : s.HasBox b
  value : s.heap.value b = .function f
  there : s.HasFunction f
  function : s.heap.function f = d.function m

theorem Holds.mono {s t : State} {m : ModuleId} {d : FunctionDecl} {b : BoxId} {f : FunctionId}
    (holds : s.Holds m d b f) (boxes : s.heap.boxes.toList <+: t.heap.boxes.toList)
    (functions : s.heap.functions.toList <+: t.heap.functions.toList) : t.Holds m d b f where
  box := Nat.lt_of_lt_of_le holds.box (size_le_of_grown boxes)
  value := (getD_of_grown boxes holds.box).trans holds.value
  there := Nat.lt_of_lt_of_le holds.there (size_le_of_grown functions)
  function := (getD_of_grown functions holds.there).trans holds.function

/-- The functions declared so far are what their names mean in a module, and all other names mean nothing. -/
structure Defines (s : State) (m : ModuleId) (decls : List FunctionDecl) : Prop where
  here : s.HasModule m
  registered : s.Registered m
  bound : ∀ d ∈ decls, ∃ b f, (s.scopeOf m).getObj? d.name = some b ∧ s.Holds m d b f
  unbound : ∀ name, name ∉ decls.map (·.name) → (s.scopeOf m).getObj? name = none
  noStruct : ∀ name, (s.scopeOf m).getStruct? name = none

theorem Defines.write {s : State} {m : ModuleId} {decls : List FunctionDecl} (defines : s.Defines m decls)
    (lines : Array Line) : Defines { s with output := lines } m decls :=
  ⟨defines.here, defines.registered, fun d member => by
    obtain ⟨b, f, found, holds⟩ := defines.bound d member
    exact ⟨b, f, found, holds.mono List.prefix_rfl List.prefix_rfl⟩, defines.unbound, defines.noStruct⟩

end State

namespace Eval

variable {cfg : Config} {s : State} {m : ModuleId} {done : List FunctionDecl} {d : FunctionDecl}

/-- A function is declared under a name that means nothing yet. -/
theorem ends_function (defines : s.Defines m done) (new : d.name ∉ done.map (·.name)) (fuel calls : Nat) :
    Ends (evalStmt cfg (fuel + 1) ⟨m, calls⟩ (.function d)) s fun flow t =>
      flow = .done ∧ t.Defines m (done ++ [d]) := by
  let f : FunctionId := ⟨s.heap.functions.size⟩
  let b : BoxId := ⟨s.heap.boxes.size⟩
  let added : State := (Operation.allocFunction (d.function m)).apply s
  let made : State := (Operation.alloc (.function f)).apply added
  let bound : State := made.modifyScope m (·.setObj d.name b)
  have declared : setObj m d.name b made = (.ok (), bound) := run_onScope defines.registered
  obtain ⟨lines, traced⟩ := trace_eq (s := bound) cfg 2
    (return "define function " ++ d.name ++ "(" ++ ", ".intercalate d.params ++ ")") rfl
  have run : defineFunction cfg ⟨m, calls⟩ d s = (.ok (), { bound with output := lines }) := by
    have first : onHeap (HeapM.allocFunction (d.function m)) s = (.ok f, added) := rfl
    have second : alloc (.function f) added = (.ok b, made) := rfl
    exact (bind_ok first).trans ((bind_ok second).trans ((bind_ok declared).trans traced))
  have names (name : String) : ((bound.scopeOf m).getObj? name) =
      if name = d.name then some b else (s.scopeOf m).getObj? name := by
    rw [← Scope.getObj?_declareObj, ← Scope.setObj_of_getObj?_eq_none (defines.unbound d.name new)]
    exact congrArg (·.getObj? name) (State.scopeOf_modifyScope (s := made) defines.here)
  have boxes : s.heap.boxes.toList <+: bound.heap.boxes.toList := HeapM.prefix_push _ _
  have functions : s.heap.functions.toList <+: bound.heap.functions.toList := HeapM.prefix_push _ _
  rw [evalStmt_succ, Eval.stmt]
  refine .located (.after run (.pure ⟨rfl, ?_⟩))
  have grew : s.Extends { bound with output := lines } :=
    { ((Operation.extends _ s).trans (Operation.extends _ added)).trans (made.extends_modifyScope m _) with }
  have structs (name : String) : (bound.scopeOf m).getStruct? name = none := by
    rw [← defines.noStruct name, ← Scope.getStruct?_setObj (s.scopeOf m) d.name name b]
    exact congrArg (·.getStruct? name) (State.scopeOf_modifyScope (s := made) defines.here)
  refine ⟨defines.here.mono grew, State.Stands.mono grew defines.here defines.registered, ?_, ?_, structs⟩
  · intro d' member
    rcases List.mem_append.1 member with old | isNew
    · obtain ⟨b', f', found, holds⟩ := defines.bound d' old
      have other : d'.name ≠ d.name := fun same => new (same ▸ List.mem_map_of_mem old)
      exact ⟨b', f', (names d'.name).trans ((if_neg other).trans found), holds.mono boxes functions⟩
    · cases List.mem_singleton.1 isNew
      refine ⟨b, f, (names d.name).trans (if_pos rfl), ?_, ?_, ?_, ?_⟩
      · exact Nat.lt_of_lt_of_eq (Nat.lt_succ_self _) (Array.size_push _).symm
      · exact (Heap.value_push s.heap _ b).trans (if_pos rfl)
      · exact Nat.lt_of_lt_of_eq (Nat.lt_succ_self _) (Array.size_push _).symm
      · exact (HeapM.getD_push s.heap.functions _ f.index default).trans (if_pos rfl)
  · intro name absent
    rw [List.map_append, List.mem_append, not_or] at absent
    have other : name ≠ d.name := fun same => absent.2 (List.mem_singleton.2 same)
    exact (names name).trans ((if_neg other).trans (defines.unbound name absent.1))

/-- A call of a function that was declared, with arguments that can be copied. -/
theorem ends_callDeclared {callee : BoxId} {f : FunctionId} {args : List BoxId} {fuel calls : Nat}
    {Q : BoxId → Heap → Prop} (sound : s.heap.Sound) (site : s.Site m m) (sizes : args.length = d.params.length)
    (there : ∀ b ∈ args, s.heap.Has (.box b))
    (fits : ∀ b ∈ args, (s.heap.canonical cfg.dataLimit (s.heap.value b)).isSome)
    (holds : s.heap.value callee = .function f) (means : s.heap.function f = d.function m)
    (body : ∀ copies u, List.Forall₂ (s.heap.CopiedBox u.heap cfg.dataLimit) args copies →
      InFrame cfg s m (InFrame.begun (.ofList (d.params.zip copies))) u → s.heap.Grows u.heap →
      Ends (runBlock (evalStmt cfg fuel ⟨m, calls⟩) d.body) u fun flow t =>
        (∃ F, InFrame cfg s m F t) ∧ u.heap.Grows t.heap ∧ ∃ b, flow = .returnValue (some b) ∧ Q b t.heap) :
    Ends (call (evaluators cfg fuel) cfg (calls + 1) callee args) s fun b t => Leaves cfg s t ∧ Q b t.heap := by
  have called : call (evaluators cfg fuel) cfg (calls + 1) callee args s =
      callFunction (evaluators cfg fuel) cfg (calls + 1) (d.function m) none args s := by
    rw [call, bind_ok (run_get s), holds, ← means]
  exact .congr called (ends_callFunction (f := d.function m) sound site sizes there fits body)

/-- A statement at the top level of a module that is no jump is followed by the others. -/
theorem ends_runTopLevel_cons {ev : Evaluators} {ctx : Context} {stmt : Stmt} {rest : Block}
    {P : State → Prop} {Q : Unit → State → Prop}
    (first : ∀ lines, Ends (ev.stmt ctx stmt) { s with output := lines } fun flow t => flow = .done ∧ P t)
    (others : ∀ t, P t → Ends (runTopLevel ev cfg ctx rest) t Q) :
    Ends (runTopLevel ev cfg ctx (stmt :: rest)) s Q := by
  obtain ⟨lines, traced⟩ : ∃ lines, traceStatement cfg ctx.module stmt s =
    (.ok (), { s with output := lines }) := trace_eq cfg 2 _ rfl
  refine .after traced (.bind (first lines) ?_)
  rintro _ t ⟨rfl, here⟩
  exact others t here

/-- Functions are declared one after another, under different names. -/
theorem ends_functions (decls : List FunctionDecl) (defines : s.Defines m done)
    (distinct : ((done ++ decls).map (·.name)).Nodup) (fuel calls : Nat) :
    Ends (runTopLevel (evaluators cfg (fuel + 1)) cfg ⟨m, calls⟩ (decls.map .function)) s fun _ t =>
      t.Defines m (done ++ decls) := by
  induction decls generalizing s done with
  | nil => exact .pure (done.append_nil.symm ▸ defines)
  | cons d decls ih =>
    have new : d.name ∉ done.map (·.name) := by
      rw [List.map_append, List.nodup_append] at distinct
      exact fun listed => distinct.2.2 _ listed _ List.mem_cons_self rfl
    refine ends_runTopLevel_cons (fun lines => ends_function (defines.write lines) new fuel calls) ?_
    intro t defines'
    have all := ih defines' (by rwa [List.append_assoc, List.singleton_append])
    rwa [List.append_assoc, List.singleton_append] at all

/-- An import that finds the standard module and loads it defines its functions. -/
theorem ends_importStandard {ctx : Context} {key file : String}
    (loads : LoadsFile cfg ctx "seq" s key file Library.seq) (fuel : Nat) :
    Ends (importModule (evaluators cfg (fuel + 1)) cfg ctx "seq") s fun m t =>
      t.Defines m Library.seqDecls := by
  let M := moduleOfFile file Library.seq
  let m := s.registry.next
  have empty : (s.load M).scopeOf m = .empty := by
    rw [State.scopeOf, State.load, Registry.module_load_next]
    exact scope_moduleOfFile file Library.seq
  have loaded : (s.load M).Defines m [] :=
    ⟨State.hasModule_load s M, State.registered_load s M, List.forall_mem_nil _, fun name _ => by rw [empty]; rfl,
      fun name => by rw [empty]; rfl⟩
  have whole := loads.importModule_eq (evaluators cfg (fuel + 1))
  obtain ⟨lines, begins⟩ := exists_begun cfg M s
  rw [Library.seq_program, begins] at whole
  refine .congr whole (.bind (P := fun _ t => t.Defines m Library.seqDecls) ?_ ?_)
  · refine ends_runTopLevel_cons (P := fun t => t.Defines m []) (fun lines' => ?_) fun t defines => ?_
    · rw [evaluators_stmt, evalStmt_succ, Eval.stmt]
      exact .located (.pure ⟨rfl, (loaded.write lines).write lines'⟩)
    · exact ends_functions Library.seqDecls defines (by decide) fuel ctx.calls
  · exact fun _ t defines => .after rfl (.pure defines)

end Eval

/-- A run can be in the state behind an import that loads a file. -/
theorem Reachable.importFile {cfg : Config} {ctx : Context} {name : String} {s : State}
    {key file content : String} (reachable : Reachable cfg s) (loads : LoadsFile cfg ctx name s key file content)
    (fuel : Nat) : Reachable cfg (Eval.importModule (evaluators cfg fuel) cfg ctx name s).2 := by
  let M := Eval.moduleOfFile file content
  have loaded : Running cfg s.registry.next (s.load M) :=
    ⟨reachable.register (scope_moduleOfFile file content), State.hasModule_load s M⟩
  have lasting : Lasting cfg s.registry.next (Running cfg s.registry.next) := Running.lasting
  obtain ⟨lines, begins⟩ := exists_begun cfg M s
  rw [loads.importModule_eq, begins]
  refine (Lasting.bind (lasting.runTopLevel fuel ctx.calls _ (lasting.output lines loaded)) fun _ t ended => ?_ :
    Running cfg s.registry.next _).reachable
  exact Lasting.bind (Lasting.checkEnding ended _) fun _ u checked => checked

end Shiba

import Shiba.Machine
import Shiba.Proofs.Scope.Contents

/-!
# Well-formed states

A state refers to its parts by numbers, and the accessors of the heap and the registry answer a
default for a number that was never given out.  `State.WellFormed` says that this never matters:
every number that stands anywhere in the state was given out, every instance has exactly the fields
of its definition, and every module can be found under its key.

* `State.Valid`: a value refers to nothing that is not there.
* `State.OwnBox`: a box of the program, which is none of those of the functions visible everywhere.
* `State.Extends`: a later state of the same run.  What a number refers to is still there, and
  lists, instances, functions and struct definitions are what they were.
* `State.WellFormed`: the invariant.
-/

namespace Shiba

namespace State

/-! ## Numbers that were given out -/

/-- The box is there. -/
def HasBox (s : State) (b : BoxId) : Prop := b.index < s.heap.boxes.size

/-- The list is there. -/
def HasList (s : State) (l : ListId) : Prop := l.index < s.heap.lists.size

/-- The dictionary is there. -/
def HasDict (s : State) (d : DictId) : Prop := d.index < s.heap.dicts.size

/-- The instance is there. -/
def HasInstance (s : State) (i : InstanceId) : Prop := i.index < s.heap.instances.size

/-- The function is there. -/
def HasFunction (s : State) (f : FunctionId) : Prop := f.index < s.heap.functions.size

/-- The struct definition is there. -/
def HasStruct (s : State) (d : StructId) : Prop := d.index < s.heap.structs.size

/-- The module is there. -/
def HasModule (s : State) (m : ModuleId) : Prop := m.index < s.registry.modules.size

/-- A box of the program: the boxes of the functions visible everywhere come first. -/
def OwnBox (s : State) (b : BoxId) : Prop := s.builtins.size ≤ b.index ∧ s.HasBox b

/-- A value refers to nothing that is not there. -/
def Valid (s : State) : Value → Prop
  | .list l => s.HasList l
  | .dict d => s.HasDict d
  | .struct i => s.HasInstance i
  | .function f => s.HasFunction f
  | .method f i => s.HasFunction f ∧ s.HasInstance i
  | .module m _ => s.HasModule m
  | .structDef d => s.HasStruct d
  | _ => True

/-- The box is in a slot: a name is bound to it, or it is an element, the value of an entry or a field. -/
inductive Stored (s : State) (b : BoxId) : Prop
  | name {m : ModuleId} : s.HasModule m → b ∈ (s.registry.module m).scope.objs → Stored s b
  | element {l : ListId} : b ∈ s.heap.items l → Stored s b
  | entry {d : DictId} {e : Entry} : e ∈ (s.heap.dictionary d).values → b = e.value → Stored s b
  | field {i : InstanceId} : b ∈ (s.heap.instanceAt i).fields.values → Stored s b

/-- An instance has the fields of its definition, in their order, in boxes of the program. -/
structure Shaped (s : State) (i : Instance) : Prop where
  definition : s.HasStruct i.definition
  fields : i.fields.keys = (s.heap.structDef i.definition).fields
  boxes : ∀ b ∈ i.fields.values, s.OwnBox b

/-! ## Later states -/

/-- A later state of a run. -/
structure Extends (s t : State) : Prop where
  boxes : s.heap.boxes.size ≤ t.heap.boxes.size
  lists : s.heap.lists.toList <+: t.heap.lists.toList
  dicts : s.heap.dicts.size ≤ t.heap.dicts.size
  instances : s.heap.instances.toList <+: t.heap.instances.toList
  functions : s.heap.functions.toList <+: t.heap.functions.toList
  structs : s.heap.structs.toList <+: t.heap.structs.toList
  builtins : t.builtins = s.builtins
  modules : s.registry.modules.size ≤ t.registry.modules.size
  keys : ∀ m, s.HasModule m → (t.registry.module m).key = (s.registry.module m).key
  found : ∀ key m, s.registry.find? key = some m → t.registry.find? key = some m

@[refl] theorem Extends.refl (s : State) : s.Extends s where
  boxes := Nat.le_refl _
  lists := List.prefix_rfl
  dicts := Nat.le_refl _
  instances := List.prefix_rfl
  functions := List.prefix_rfl
  structs := List.prefix_rfl
  builtins := rfl
  modules := Nat.le_refl _
  keys _ _ := rfl
  found _ _ found := found

theorem HasModule.mono {s t : State} {m : ModuleId} (grew : s.Extends t) (here : s.HasModule m) :
    t.HasModule m :=
  Nat.lt_of_lt_of_le here grew.modules

theorem Extends.trans {s t u : State} (first : s.Extends t) (second : t.Extends u) :
    s.Extends u where
  boxes := Nat.le_trans first.boxes second.boxes
  lists := first.lists.trans second.lists
  dicts := Nat.le_trans first.dicts second.dicts
  instances := first.instances.trans second.instances
  functions := first.functions.trans second.functions
  structs := first.structs.trans second.structs
  builtins := second.builtins.trans first.builtins
  modules := Nat.le_trans first.modules second.modules
  keys m here := (second.keys m (here.mono first)).trans (first.keys m here)
  found key m found := second.found key m (first.found key m found)

/-! ### What was there is there -/

theorem size_le_of_grown {α : Type} {xs ys : Array α} (grown : xs.toList <+: ys.toList) :
    xs.size ≤ ys.size := by
  simpa using grown.length_le

theorem getD_of_grown {α : Type} {xs ys : Array α} {i : Nat} {default : α}
    (grown : xs.toList <+: ys.toList) (here : i < xs.size) :
    ys.getD i default = xs.getD i default := by
  rcases grown with ⟨added, whole⟩
  have there : ys = xs ++ added.toArray := by
    apply Array.toList_inj.1
    simpa using whole.symm
  subst there
  rw [Array.getD_eq_getD_getElem?, Array.getD_eq_getD_getElem?, Array.getElem?_append_left here]

section Mono

variable {s t : State}

theorem HasBox.mono {b : BoxId} (grew : s.Extends t) (here : s.HasBox b) : t.HasBox b :=
  Nat.lt_of_lt_of_le here grew.boxes

theorem HasList.mono {l : ListId} (grew : s.Extends t) (here : s.HasList l) : t.HasList l :=
  Nat.lt_of_lt_of_le here (size_le_of_grown grew.lists)

theorem HasDict.mono {d : DictId} (grew : s.Extends t) (here : s.HasDict d) : t.HasDict d :=
  Nat.lt_of_lt_of_le here grew.dicts

theorem HasInstance.mono {i : InstanceId} (grew : s.Extends t) (here : s.HasInstance i) :
    t.HasInstance i :=
  Nat.lt_of_lt_of_le here (size_le_of_grown grew.instances)

theorem HasFunction.mono {f : FunctionId} (grew : s.Extends t) (here : s.HasFunction f) :
    t.HasFunction f :=
  Nat.lt_of_lt_of_le here (size_le_of_grown grew.functions)

theorem HasStruct.mono {d : StructId} (grew : s.Extends t) (here : s.HasStruct d) :
    t.HasStruct d :=
  Nat.lt_of_lt_of_le here (size_le_of_grown grew.structs)

theorem OwnBox.mono {b : BoxId} (grew : s.Extends t) (own : s.OwnBox b) : t.OwnBox b := by
  refine ⟨?_, own.2.mono grew⟩
  rw [grew.builtins]
  exact own.1

theorem Valid.mono {v : Value} (grew : s.Extends t) (valid : s.Valid v) : t.Valid v := by
  cases v with
  | list l => exact HasList.mono grew valid
  | dict d => exact HasDict.mono grew valid
  | struct i => exact HasInstance.mono grew valid
  | function f => exact HasFunction.mono grew valid
  | method f i => exact ⟨valid.1.mono grew, valid.2.mono grew⟩
  | module m name => exact HasModule.mono grew valid
  | structDef d => exact HasStruct.mono grew valid
  | nil | bool | int | float | str | builtin => trivial

theorem Extends.structDef_eq {d : StructId} (grew : s.Extends t) (here : s.HasStruct d) :
    t.heap.structDef d = s.heap.structDef d :=
  getD_of_grown grew.structs here

theorem Extends.instanceAt_eq {i : InstanceId} (grew : s.Extends t) (here : s.HasInstance i) :
    t.heap.instanceAt i = s.heap.instanceAt i :=
  getD_of_grown grew.instances here

theorem Shaped.mono {i : Instance} (grew : s.Extends t) (shaped : s.Shaped i) : t.Shaped i where
  definition := shaped.definition.mono grew
  fields := by
    rw [grew.structDef_eq shaped.definition]
    exact shaped.fields
  boxes b member := (shaped.boxes b member).mono grew

end Mono

/-! ## The invariant -/

/-- Nothing in a state refers to what is not there. -/
structure WellFormed (s : State) : Prop where
  /-- Boxes hold valid values. -/
  values : ∀ v ∈ s.heap.boxes, s.Valid v
  /-- Lists are made of boxes of the program. -/
  lists : ∀ items ∈ s.heap.lists, ∀ b ∈ items, s.OwnBox b
  /-- The keys and values of dictionaries are in boxes of the program. -/
  dicts : ∀ d ∈ s.heap.dicts, ∀ e ∈ d.values, s.OwnBox e.key ∧ s.OwnBox e.value
  /-- Instances have the fields of their definitions. -/
  instances : ∀ i ∈ s.heap.instances, s.Shaped i
  /-- Functions belong to modules that are there. -/
  functions : ∀ f ∈ s.heap.functions, s.HasModule f.module
  /-- The fields of a struct are different, and its methods are there. -/
  structs : ∀ d ∈ s.heap.structs, d.fields.Nodup ∧ ∀ f ∈ d.methods.values, s.HasFunction f
  /-- The boxes of the functions visible everywhere come first. -/
  builtins : ∀ b ∈ s.builtins.values, b.index < s.builtins.size
  /-- The boxes of the functions visible everywhere are there. -/
  builtinBoxes : s.builtins.size ≤ s.heap.boxes.size
  /-- The names of modules are bound to boxes of the program and to structs that are there. -/
  scopes : ∀ m ∈ s.registry.modules,
    (∀ b ∈ m.scope.objs, s.OwnBox b) ∧ ∀ d ∈ m.scope.structs, s.HasStruct d
  /-- A key leads to a module that has it. -/
  found : ∀ key m, s.registry.find? key = some m →
    s.HasModule m ∧ (s.registry.module m).key = key
  /-- Every module is found under its key, or a later one with the same key. -/
  registered : ∀ m, s.HasModule m → ∃ m', s.registry.find? (s.registry.module m).key = some m'

theorem getD_mem_or {α : Type} (xs : Array α) (i : Nat) (default : α) :
    xs.getD i default ∈ xs ∨ xs.getD i default = default := by
  rw [Array.getD_eq_getD_getElem?]
  rcases here : xs[i]? with - | x
  · exact .inr rfl
  · exact .inl (Array.mem_of_getElem? here)

theorem getD_mem {α : Type} {xs : Array α} {i : Nat} {default : α} (here : i < xs.size) :
    xs.getD i default ∈ xs := by
  rw [Array.getD_eq_getD_getElem?, Array.getElem?_eq_getElem here]
  exact Array.getElem_mem here

section Mem

variable {s : State}

theorem hasList_of_mem {l : ListId} {b : BoxId} (member : b ∈ s.heap.items l) :
    s.HasList l := by
  by_contra absent
  rw [Heap.items, Array.getD_eq_getD_getElem?, Array.getElem?_eq_none (Nat.le_of_not_lt absent)] at member
  cases member with
  | mk inside => cases inside

theorem hasDict_of_mem {d : DictId} {e : Key × Entry}
    (member : e ∈ (s.heap.dictionary d).entries) : s.HasDict d := by
  by_contra absent
  rw [Heap.dictionary, Array.getD_eq_getD_getElem?,
    Array.getElem?_eq_none (Nat.le_of_not_lt absent)] at member
  cases member

theorem hasInstance_of_mem {i : InstanceId} {b : BoxId}
    (member : b ∈ (s.heap.instanceAt i).fields.values) : s.HasInstance i := by
  by_contra absent
  rw [Heap.instanceAt, Array.getD_eq_getD_getElem?,
    Array.getElem?_eq_none (Nat.le_of_not_lt absent)] at member
  cases member

end Mem

namespace WellFormed

variable {s : State}

theorem valid_value (wf : s.WellFormed) (b : BoxId) : s.Valid (s.heap.value b) := by
  rcases getD_mem_or s.heap.boxes b.index .nil with member | isNil
  · exact wf.values _ member
  · rw [Heap.value, isNil]
    trivial

theorem own_items (wf : s.WellFormed) (l : ListId) : ∀ b ∈ s.heap.items l, s.OwnBox b := by
  rcases getD_mem_or s.heap.lists l.index #[] with member | isEmpty
  · exact wf.lists _ member
  · intro b member
    rw [Heap.items, isEmpty] at member
    cases member with
    | mk inside => cases inside

theorem own_entries (wf : s.WellFormed) (d : DictId) :
    ∀ e ∈ (s.heap.dictionary d).values, s.OwnBox e.key ∧ s.OwnBox e.value := by
  rcases getD_mem_or s.heap.dicts d.index .empty with member | isEmpty
  · exact wf.dicts _ member
  · intro e member
    rw [Heap.dictionary, isEmpty] at member
    cases member

theorem shaped (wf : s.WellFormed) {i : InstanceId} (here : s.HasInstance i) :
    s.Shaped (s.heap.instanceAt i) :=
  wf.instances _ (getD_mem here)

theorem hasModule (wf : s.WellFormed) {f : FunctionId} (here : s.HasFunction f) :
    s.HasModule (s.heap.function f).module :=
  wf.functions _ (getD_mem here)

theorem struct_ok (wf : s.WellFormed) {d : StructId} (here : s.HasStruct d) :
    (s.heap.structDef d).fields.Nodup ∧
      ∀ f ∈ (s.heap.structDef d).methods.values, s.HasFunction f :=
  wf.structs _ (getD_mem here)

/-- The fields of an instance have different names. -/
theorem nodup_fields (wf : s.WellFormed) {i : InstanceId} (here : s.HasInstance i) :
    (s.heap.instanceAt i).fields.keys.Nodup := by
  have shaped := wf.shaped here
  rw [shaped.fields]
  exact (wf.struct_ok shaped.definition).1

theorem own_obj (wf : s.WellFormed) {m : ModuleId} (here : s.HasModule m) {b : BoxId}
    (listed : b ∈ (s.registry.module m).scope.objs) : s.OwnBox b :=
  (wf.scopes _ (getD_mem here)).1 b listed

/-- What is in a slot is a box of the program. -/
theorem own_stored (wf : s.WellFormed) {b : BoxId} (stored : s.Stored b) : s.OwnBox b := by
  cases stored with
  | name here listed => exact wf.own_obj here listed
  | element item => exact wf.own_items _ b item
  | entry member isValue => exact isValue ▸ (wf.own_entries _ _ member).2
  | field member => exact (wf.shaped (hasInstance_of_mem member)).boxes b member

theorem has_struct (wf : s.WellFormed) {m : ModuleId} (here : s.HasModule m) {d : StructId}
    (listed : d ∈ (s.registry.module m).scope.structs) : s.HasStruct d :=
  (wf.scopes _ (getD_mem here)).2 d listed

/-- A function visible everywhere has a box that is there. -/
theorem has_builtin (wf : s.WellFormed) {name : String} {b : BoxId}
    (found : s.builtins.get? name = some b) : s.HasBox b :=
  Nat.lt_of_lt_of_le (wf.builtins b (OrderedMap.mem_values_of_get? found)) wf.builtinBoxes

end WellFormed

end State

end Shiba

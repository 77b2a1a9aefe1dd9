import Shiba.Eval.Import
import Shiba.Proofs.State.WellFormed

/-!
# What a step can do

Whatever a program does, the machine changes its state in few ways: it allocates, overwrites a box,
files and removes dictionary entries, binds names, writes lines, opens and closes calls and blocks,
and adds modules.  `Operation` lists the first group, `State.enter` and its companions are the second.

`Operation.Allowed` says when an operation is taken.  It counts the boxes *in hand*: those that were
allocated but that nothing holds yet.  Allocating takes a box in hand, and storing one gives it away,
so that no box can be stored twice.

Every operation that is allowed leads to a later state (`Operation.extends`) that is well formed again
(`State.WellFormed.step`); so do the openings and closings of scopes.
-/

namespace Shiba

/-! ## Modules after a change -/

namespace Registry

theorem module_of_le {r : Registry} {m : ModuleId} (absent : r.modules.size ≤ m.index) :
    r.module m = default := by
  rw [module, Array.getD_eq_getD_getElem?, Array.getElem?_eq_none absent]
  rfl

theorem module_modifyScope_self {r : Registry} {m : ModuleId}
    (f : Scope BoxId StructId → Scope BoxId StructId) (here : m.index < r.modules.size) :
    (r.modifyScope m f).module m = { r.module m with scope := f (r.module m).scope } := by
  rw [modifyScope, module, module, Array.getD_eq_getD_getElem?, Array.getD_eq_getD_getElem?,
    Array.getElem?_modify, if_pos rfl, Array.getElem?_eq_getElem here]
  rfl

theorem module_modifyScope_of_ne {r : Registry} {m m' : ModuleId}
    (f : Scope BoxId StructId → Scope BoxId StructId) (other : m' ≠ m) :
    (r.modifyScope m f).module m' = r.module m' := by
  have apart : m.index ≠ m'.index := by
    intro same
    apply other
    cases m
    cases m'
    exact congrArg ModuleId.mk same.symm
  rw [modifyScope, module, module, Array.getD_eq_getD_getElem?, Array.getD_eq_getD_getElem?,
    Array.getElem?_modify, if_neg apart]

@[simp] theorem size_modifyScope (r : Registry) (m : ModuleId)
    (f : Scope BoxId StructId → Scope BoxId StructId) :
    (r.modifyScope m f).modules.size = r.modules.size :=
  Array.size_modify

theorem module_modifyScope_of_le {r : Registry} {m : ModuleId}
    (f : Scope BoxId StructId → Scope BoxId StructId) (absent : r.modules.size ≤ m.index) :
    (r.modifyScope m f).module m = r.module m := by
  rw [module_of_le absent, module_of_le (by simpa using absent)]

/-- A change of scopes leaves everything else about a module as it is. -/
theorem module_modifyScope_scope (r : Registry) (m m' : ModuleId)
    (f : Scope BoxId StructId → Scope BoxId StructId) :
    (r.modifyScope m f).module m' =
      { r.module m' with scope := ((r.modifyScope m f).module m').scope } := by
  by_cases same : m' = m
  · subst same
    by_cases here : m'.index < r.modules.size
    · rw [module_modifyScope_self f here]
    · rw [module_modifyScope_of_le f (Nat.le_of_not_lt here)]
  · rw [module_modifyScope_of_ne f same]

@[simp] theorem key_modifyScope (r : Registry) (m m' : ModuleId)
    (f : Scope BoxId StructId → Scope BoxId StructId) :
    ((r.modifyScope m f).module m').key = (r.module m').key := by
  rw [module_modifyScope_scope]

/-- A change of a scope may be computed beforehand. -/
theorem modifyScope_const (r : Registry) (m : ModuleId)
    (f : Scope BoxId StructId → Scope BoxId StructId) :
    (r.modifyScope m fun _ => f (r.module m).scope) = r.modifyScope m f := by
  have same : (r.modifyScope m fun _ => f (r.module m).scope).modules =
      (r.modifyScope m f).modules := by
    apply Array.ext_getElem?
    intro i
    rw [modifyScope, modifyScope, Array.getElem?_modify, Array.getElem?_modify]
    split
    · next at_i =>
      rw [← at_i, module, Array.getD_eq_getD_getElem?]
      cases r.modules[m.index]? with
      | none => rfl
      | some M => rfl
    · rfl
  exact congrArg (fun modules => { r with modules }) same

theorem modifyScope_congr {r : Registry} {m : ModuleId}
    {f g : Scope BoxId StructId → Scope BoxId StructId} (same : f (r.module m).scope = g (r.module m).scope) :
    r.modifyScope m f = r.modifyScope m g := by
  rw [← r.modifyScope_const m f, same, r.modifyScope_const]

theorem modifyScope_modifyScope (r : Registry) (m : ModuleId)
    (f g : Scope BoxId StructId → Scope BoxId StructId) :
    (r.modifyScope m f).modifyScope m g = r.modifyScope m fun s => g (f s) := by
  have same : ((r.modifyScope m f).modifyScope m g).modules =
      (r.modifyScope m fun s => g (f s)).modules := by
    apply Array.ext_getElem?
    intro i
    simp only [modifyScope, Array.getElem?_modify]
    split
    · rw [Option.map_map]
      rfl
    · rfl
  exact congrArg (fun modules => { r with modules }) same

theorem modifyScope_id (r : Registry) (m : ModuleId) : (r.modifyScope m fun s => s) = r := by
  have same : (r.modifyScope m fun s => s).modules = r.modules := by
    apply Array.ext_getElem?
    intro i
    rw [modifyScope, Array.getElem?_modify]
    split
    · exact Option.map_id'
    · rfl
  exact congrArg (fun modules => { r with modules }) same

/-- The registry with a module added and registered. -/
def load (r : Registry) (m : Module) : Registry := (r.add m).2.register (r.add m).1

/-- The number a module gets that is added next. -/
def next (r : Registry) : ModuleId := ⟨r.modules.size⟩

theorem module_push_self (r : Registry) (m : Module) :
    ({ r with modules := r.modules.push m } : Registry).module r.next = m := by
  simp [module, next]

theorem module_push_of_lt {r : Registry} {m : Module} {m' : ModuleId}
    (here : m'.index < r.modules.size) :
    ({ r with modules := r.modules.push m } : Registry).module m' = r.module m' := by
  simp [module, Array.getElem?_push, Nat.ne_of_lt here]

@[simp] theorem size_load (r : Registry) (m : Module) :
    (r.load m).modules.size = r.modules.size + 1 := by
  simp [load, add, register]

theorem module_load_next (r : Registry) (m : Module) : (r.load m).module r.next = m :=
  module_push_self r m

theorem module_load_of_lt {r : Registry} {m : Module} {m' : ModuleId}
    (here : m'.index < r.modules.size) : (r.load m).module m' = r.module m' :=
  module_push_of_lt here

theorem module_load_of_ne {r : Registry} {m : Module} {m' : ModuleId} (other : m' ≠ r.next) :
    (r.load m).module m' = r.module m' := by
  by_cases here : m'.index < r.modules.size
  · exact module_load_of_lt here
  · have apart : m'.index ≠ r.modules.size := by
      intro same
      apply other
      cases m'
      exact congrArg ModuleId.mk same
    rw [module_of_le (Nat.le_of_not_lt here), module_of_le]
    rw [size_load]
    omega

theorem keys_load (r : Registry) (m : Module) : (r.load m).keys = r.keys.insert m.key r.next := by
  have added := module_push_self r m
  simp only [load, add, register]
  rw [next] at added
  rw [added, next]

theorem find?_load (r : Registry) (m : Module) (key : String) :
    (r.load m).find? key = if key = m.key then some r.next else r.find? key := by
  rw [find?, keys_load, OrderedMap.get?_insert]
  rfl

end Registry

/-! ## Operations -/

/-- The boxes of an entry. -/
def Entry.boxes (e : Entry) : Multiset BoxId := {e.key, e.value}

/-- The boxes of the entries of a dictionary. -/
def Dictionary.boxes (d : Dictionary) : Multiset BoxId :=
  (d.values : Multiset Entry).bind Entry.boxes

/-- What one step can do to the heap, the names and the output. -/
inductive Operation where
  | alloc (v : Value)
  | write (b : BoxId) (v : Value)
  | allocList (items : Array BoxId)
  | allocDict (m : Dictionary)
  | file (d : DictId) (k : Key) (e : Entry)
  | unfile (d : DictId) (k : Key)
  | allocInstance (i : Instance)
  | allocFunction (f : Function)
  | allocStruct (d : StructDef)
  | setObj (m : ModuleId) (name : String) (b : BoxId)
  | declareObj (m : ModuleId) (name : String) (b : BoxId)
  | setStruct (m : ModuleId) (name : String) (d : StructId)
  | print (line : Line)

namespace State

/-- The state with another heap. -/
def withHeap (s : State) (h : Heap) : State := { s with heap := h }

/-- The state with the scope of a module changed. -/
def modifyScope (s : State) (m : ModuleId)
    (f : Scope BoxId StructId → Scope BoxId StructId) : State :=
  { s with registry := s.registry.modifyScope m f }

end State

namespace Operation

/-- The state after an operation. -/
def apply : Operation → State → State
  | .alloc v, s => s.withHeap { s.heap with boxes := s.heap.boxes.push v }
  | .write b v, s => s.withHeap (s.heap.write b v)
  | .allocList items, s => s.withHeap { s.heap with lists := s.heap.lists.push items }
  | .allocDict m, s => s.withHeap { s.heap with dicts := s.heap.dicts.push m }
  | .file d k e, s => s.withHeap (s.heap.setDictionary d ((s.heap.dictionary d).insert k e))
  | .unfile d k, s => s.withHeap (s.heap.setDictionary d ((s.heap.dictionary d).erase k))
  | .allocInstance i, s => s.withHeap { s.heap with instances := s.heap.instances.push i }
  | .allocFunction f, s => s.withHeap { s.heap with functions := s.heap.functions.push f }
  | .allocStruct d, s => s.withHeap { s.heap with structs := s.heap.structs.push d }
  | .setObj m name b, s => s.modifyScope m (·.setObj name b)
  | .declareObj m name b, s => s.modifyScope m (·.declareObj name b)
  | .setStruct m name d, s => s.modifyScope m (·.setStruct name d)
  | .print line, s => { s with output := s.output.push line }

/-- When an operation is taken: `H` are the boxes in hand before it, `K` those after it. -/
def Allowed : Operation → (H : Multiset BoxId) → State → (K : Multiset BoxId) → Prop
  | .alloc v, H, s, K => s.Valid v ∧ K = ⟨s.heap.boxes.size⟩ ::ₘ H
  | .write b v, H, s, K => s.OwnBox b ∧ s.Valid v ∧ K = H
  | .allocList items, H, _, K => H = (items.toList : Multiset BoxId) + K
  | .allocDict m, H, _, K => H = m.boxes + K
  | .file d k e, H, s, K =>
    (∃ old, (s.heap.dictionary d).get? k = some old ∧ e.key = old.key ∧ H = e.value ::ₘ K) ∨
      H = e.boxes + K
  | .unfile _ _, H, _, K => K = H
  | .allocInstance i, H, s, K =>
    s.HasStruct i.definition ∧ i.fields.keys = (s.heap.structDef i.definition).fields ∧
      H = (i.fields.values : Multiset BoxId) + K
  | .allocFunction f, H, s, K => s.HasModule f.module ∧ K = H
  | .allocStruct d, H, s, K =>
    (d.fields.Nodup ∧ d.methods.keys.Nodup) ∧ (∀ f ∈ d.methods.values, s.HasFunction f) ∧ K = H
  | .setObj m _ b, H, s, K => s.HasModule m ∧ H = b ::ₘ K
  | .declareObj m _ b, H, s, K => s.HasModule m ∧ H = b ::ₘ K
  | .setStruct m _ d, H, s, K => s.HasModule m ∧ s.HasStruct d ∧ K = H
  | .print _, H, _, K => K = H

/-- The box an operation writes into. -/
def written? : Operation → Option BoxId
  | .write b _ => some b
  | _ => none

/-- The module whose names an operation binds. -/
def target? : Operation → Option ModuleId
  | .setObj m _ _ | .declareObj m _ _ | .setStruct m _ _ => some m
  | _ => none

/-- An operation that binds a name writes into no box. -/
theorem written?_of_target? {op : Operation} {m : ModuleId} (binds : op.target? = some m) :
    op.written? = none := by
  cases op with
  | write => cases binds
  | _ => rfl

end Operation

/-! ## Calls, blocks and modules -/

namespace State

/-- A call of a function of a module begins, with some names bound in its body. -/
def enter (s : State) (m : ModuleId) (names : OrderedMap String BoxId) : State :=
  s.modifyScope m (·.addFrame names)

/-- The innermost call in a module ends. -/
def leave (s : State) (m : ModuleId) : State :=
  s.modifyScope m Scope.dropFrame

/-- A block opens in a module. -/
def openBlock (s : State) (m : ModuleId) : State := s.modifyScope m Scope.pushBlock

/-- The innermost block of a module closes. -/
def closeBlock (s : State) (m : ModuleId) : State :=
  s.modifyScope m Scope.dropBlock

/-- A module is added and registered. -/
def load (s : State) (m : Module) : State := { s with registry := s.registry.load m }

/-- The boxes in hand are boxes of the program. -/
def Holding (s : State) (H : Multiset BoxId) : Prop := ∀ b ∈ H, s.OwnBox b

/-- The names a call can begin with: none, or the fields of an instance. -/
def Receives (s : State) (names : OrderedMap String BoxId) : Prop :=
  names = .empty ∨ ∃ i, s.HasInstance i ∧ names = (s.heap.instanceAt i).fields

end State

/-! ## Later states -/

namespace State

theorem extends_modifyScope (s : State) (m : ModuleId)
    (f : Scope BoxId StructId → Scope BoxId StructId) : s.Extends (s.modifyScope m f) :=
  { Extends.refl s with
    modules := Nat.le_of_eq (Registry.size_modifyScope ..).symm
    keys := fun m' _ => Registry.key_modifyScope s.registry m m' f }

/-- A module whose key is not taken yet can be added. -/
theorem extends_load {s : State} {m : Module} (fresh : s.registry.find? m.key = none) :
    s.Extends (s.load m) := by
  refine { Extends.refl s with modules := ?_, keys := ?_, found := ?_ }
  · rw [load, Registry.size_load]
    exact Nat.le_succ _
  · intro m' here
    rw [load, Registry.module_load_of_lt here]
  · intro key m' found
    rw [load, Registry.find?_load, if_neg]
    · exact found
    · intro same
      rw [same, fresh] at found
      cases found

end State

theorem toList_push_grown {α : Type} (xs : Array α) (x : α) : xs.toList <+: (xs.push x).toList := by
  rw [Array.toList_push]
  exact List.prefix_append _ _

/-- An operation leads to a later state. -/
theorem Operation.extends (op : Operation) (s : State) : s.Extends (op.apply s) := by
  have same := State.Extends.refl s
  cases op with
  | alloc v => exact { same with boxes := by simp [apply, State.withHeap] }
  | write b v => exact { same with boxes := by simp [apply, State.withHeap, Heap.write] }
  | allocList items => exact { same with lists := toList_push_grown _ _ }
  | allocDict m => exact { same with dicts := by simp [apply, State.withHeap] }
  | file d k e => exact { same with dicts := by simp [apply, State.withHeap, Heap.setDictionary] }
  | unfile d k => exact { same with dicts := by simp [apply, State.withHeap, Heap.setDictionary] }
  | allocInstance i => exact { same with instances := toList_push_grown _ _ }
  | allocFunction f => exact { same with functions := toList_push_grown _ _ }
  | allocStruct d => exact { same with structs := toList_push_grown _ _ }
  | setObj m name b => exact s.extends_modifyScope m _
  | declareObj m name b => exact s.extends_modifyScope m _
  | setStruct m name d => exact s.extends_modifyScope m _
  | print line => exact { same with }

/-! ## Well-formed states stay well formed -/

namespace State

/-- A later state whose every part was there before, unless it fits into the later state. -/
structure Adds (s t : State) : Prop where
  later : s.Extends t
  values : ∀ v ∈ t.heap.boxes, v ∈ s.heap.boxes ∨ t.Valid v
  lists : ∀ items ∈ t.heap.lists, items ∈ s.heap.lists ∨ ∀ b ∈ items, t.OwnBox b
  dicts : ∀ d ∈ t.heap.dicts,
      d ∈ s.heap.dicts ∨ ∀ e ∈ d.values, t.OwnBox e.key ∧ t.OwnBox e.value
  instances : ∀ i ∈ t.heap.instances, i ∈ s.heap.instances ∨ t.Shaped i
  functions : ∀ f ∈ t.heap.functions, f ∈ s.heap.functions ∨ t.HasModule f.module
  structs : ∀ d ∈ t.heap.structs, d ∈ s.heap.structs ∨
      (d.fields.Nodup ∧ ∀ f ∈ d.methods.values, t.HasFunction f)
  scopes : ∀ m ∈ t.registry.modules, m ∈ s.registry.modules ∨
      ((∀ b ∈ m.scope.objs, t.OwnBox b) ∧ ∀ d ∈ m.scope.structs, t.HasStruct d)
  found : ∀ key m, t.registry.find? key = some m → s.registry.find? key = some m ∨
      (t.HasModule m ∧ (t.registry.module m).key = key)
  registered : ∀ m, t.HasModule m → s.HasModule m ∨
      ∃ m', t.registry.find? (t.registry.module m).key = some m'

theorem WellFormed.adds {s t : State} (wf : s.WellFormed) (new : s.Adds t) : t.WellFormed where
  values v member := by
    rcases new.values v member with old | valid
    · exact (wf.values v old).mono new.later
    · exact valid
  lists items member := by
    rcases new.lists items member with old | own
    · exact fun b inside => (wf.lists items old b inside).mono new.later
    · exact own
  dicts d member := by
    rcases new.dicts d member with old | own
    · intro e inside
      have boxes := wf.dicts d old e inside
      exact ⟨boxes.1.mono new.later, boxes.2.mono new.later⟩
    · exact own
  instances i member := by
    rcases new.instances i member with old | shaped
    · exact (wf.instances i old).mono new.later
    · exact shaped
  functions f member := by
    rcases new.functions f member with old | here
    · exact (wf.functions f old).mono new.later
    · exact here
  structs d member := by
    rcases new.structs d member with old | fits
    · exact ⟨(wf.structs d old).1, fun f method => ((wf.structs d old).2 f method).mono new.later⟩
    · exact fits
  builtins := by
    rw [new.later.builtins]
    exact wf.builtins
  builtinBoxes := by
    rw [new.later.builtins]
    exact Nat.le_trans wf.builtinBoxes new.later.boxes
  scopes m member := by
    rcases new.scopes m member with old | fits
    · exact ⟨fun b listed => ((wf.scopes m old).1 b listed).mono new.later,
        fun d listed => ((wf.scopes m old).2 d listed).mono new.later⟩
    · exact fits
  found key m found := by
    rcases new.found key m found with old | fits
    · have there := wf.found key m old
      exact ⟨there.1.mono new.later, (new.later.keys m there.1).trans there.2⟩
    · exact fits
  registered m here := by
    rcases new.registered m here with old | there
    · obtain ⟨m', found⟩ := wf.registered m old
      refine ⟨m', ?_⟩
      rw [new.later.keys m old]
      exact new.later.found _ m' found
    · exact there

theorem holding_zero (s : State) : s.Holding 0 := fun b member => absurd member (Multiset.notMem_zero b)

theorem Holding.mono {s t : State} {H : Multiset BoxId} (grew : s.Extends t) (held : s.Holding H) :
    t.Holding H :=
  fun b member => (held b member).mono grew

theorem Holding.drop {s : State} {H K : Multiset BoxId} (fewer : K ≤ H) (held : s.Holding H) :
    s.Holding K :=
  fun b member => held b (Multiset.mem_of_le fewer member)

/-- The scope of a module may change to one with the names it had and boxes that are there. -/
theorem Adds.modifyScope {s : State} {m : ModuleId} {f : Scope BoxId StructId → Scope BoxId StructId}
    (objs : ∀ b ∈ (f (s.registry.module m).scope).objs, s.OwnBox b)
    (structs : ∀ d ∈ (f (s.registry.module m).scope).structs, s.HasStruct d) :
    s.Adds (s.modifyScope m f) := by
  apply mk (s.extends_modifyScope m f)
  case scopes =>
    intro M member
    obtain ⟨i, inside, at_i⟩ := Array.mem_iff_getElem.1 member
    have bound : i < s.registry.modules.size := by simpa [State.modifyScope] using inside
    simp only [State.modifyScope, Registry.modifyScope, Array.getElem_modify] at at_i
    split at at_i
    · next same =>
      have module_eq : s.registry.modules[i] = s.registry.module m := by
        simp [Registry.module, same, bound]
      rw [module_eq] at at_i
      subst at_i
      exact .inr ⟨objs, structs⟩
    · exact .inl (at_i ▸ Array.getElem_mem bound)
  case registered => exact fun m' there => .inl (by simpa [HasModule, State.modifyScope] using there)
  all_goals intros; left; assumption

section

variable {s : State} {m : ModuleId} {b : BoxId} {f : Scope BoxId StructId → Scope BoxId StructId}

/-- The scope of a module may bind one more box, and lose others. -/
theorem WellFormed.adds_bound (wf : s.WellFormed) (here : s.HasModule m) (there : s.OwnBox b)
    (objs : ((f (s.registry.module m).scope).objs : Multiset BoxId) ≤
      b ::ₘ ((s.registry.module m).scope.objs : Multiset BoxId))
    (structs : (f (s.registry.module m).scope).structs = (s.registry.module m).scope.structs) :
    s.Adds (s.modifyScope m f) := by
  apply Adds.modifyScope
  · intro b' listed
    rcases Multiset.mem_cons.1 (Multiset.mem_of_le objs (Multiset.mem_coe.2 listed)) with rfl | old
    · exact there
    · exact wf.own_obj here (Multiset.mem_coe.1 old)
  · intro d listed
    rw [structs] at listed
    exact wf.has_struct here listed

/-- The scope of a module may lose names. -/
theorem WellFormed.adds_lost (wf : s.WellFormed) (here : s.HasModule m)
    (objs : ((f (s.registry.module m).scope).objs : Multiset BoxId) ≤
      ((s.registry.module m).scope.objs : Multiset BoxId))
    (structs : ((f (s.registry.module m).scope).structs : Multiset StructId) ≤
      ((s.registry.module m).scope.structs : Multiset StructId)) :
    s.Adds (s.modifyScope m f) := by
  apply Adds.modifyScope
  · intro b listed
    have kept := Multiset.mem_of_le objs (Multiset.mem_coe.2 listed)
    exact wf.own_obj here (Multiset.mem_coe.1 kept)
  · intro d listed
    have kept := Multiset.mem_of_le structs (Multiset.mem_coe.2 listed)
    exact wf.has_struct here (Multiset.mem_coe.1 kept)

end

/-- The boxes in hand after an operation are boxes of the program. -/
theorem Holding.step {s : State} {op : Operation} {H K : Multiset BoxId} (wf : s.WellFormed)
    (held : s.Holding H) (allowed : op.Allowed H s K) : (op.apply s).Holding K := by
  cases op with
  | alloc v =>
    rcases allowed with ⟨-, rfl⟩
    intro b member
    rcases Multiset.mem_cons.1 member with rfl | old
    · exact ⟨wf.builtinBoxes, by simp [HasBox, Operation.apply, withHeap]⟩
    · exact (held b old).mono ((Operation.alloc v).extends s)
  | allocList items =>
    exact (held.drop (allowed ▸ Multiset.le_add_left K _)).mono (Operation.extends _ s)
  | allocDict m =>
    exact (held.drop (allowed ▸ Multiset.le_add_left K _)).mono (Operation.extends _ s)
  | file d k e =>
    rcases allowed with ⟨old, -, -, rfl⟩ | rfl
    · exact (held.drop (Multiset.le_cons_self _ _)).mono (Operation.extends _ s)
    · exact (held.drop (Multiset.le_add_left _ _)).mono (Operation.extends _ s)
  | allocInstance i =>
    exact (held.drop (allowed.2.2 ▸ Multiset.le_add_left _ _)).mono (Operation.extends _ s)
  | setObj m name b =>
    exact (held.drop (allowed.2 ▸ Multiset.le_cons_self _ _)).mono (Operation.extends _ s)
  | declareObj m name b =>
    exact (held.drop (allowed.2 ▸ Multiset.le_cons_self _ _)).mono (Operation.extends _ s)
  | write b v => exact (allowed.2.2 ▸ held).mono (Operation.extends _ s)
  | unfile d k => exact (allowed.symm ▸ held : s.Holding K).mono (Operation.extends _ s)
  | allocFunction f => exact (allowed.2 ▸ held).mono (Operation.extends _ s)
  | allocStruct d => exact (allowed.2.2 ▸ held).mono (Operation.extends _ s)
  | setStruct m name d => exact (allowed.2.2 ▸ held).mono (Operation.extends _ s)
  | print line => exact (allowed.symm ▸ held : s.Holding K).mono (Operation.extends _ s)

theorem mem_boxes_of_mem_values {d : Dictionary} {e : Entry} (member : e ∈ d.values) :
    e.key ∈ d.boxes ∧ e.value ∈ d.boxes := by
  constructor
  · exact Multiset.mem_bind.2 ⟨e, Multiset.mem_coe.2 member, by simp [Entry.boxes]⟩
  · exact Multiset.mem_bind.2 ⟨e, Multiset.mem_coe.2 member, by simp [Entry.boxes]⟩

/-- The boxes of an entry that may be filed are boxes of the program. -/
theorem WellFormed.own_filed {s : State} {d : DictId} {k : Key} {e : Entry} {H K : Multiset BoxId}
    (wf : s.WellFormed) (held : s.Holding H) (allowed : (Operation.file d k e).Allowed H s K) :
    s.OwnBox e.key ∧ s.OwnBox e.value := by
  rcases allowed with ⟨old, found, same, rfl⟩ | rfl
  · have key := (wf.own_entries d old (OrderedMap.mem_values_of_get? found)).1
    rw [← same] at key
    exact ⟨key, held _ (Multiset.mem_cons_self _ _)⟩
  · exact ⟨held _ (by simp [Entry.boxes]), held _ (by simp [Entry.boxes])⟩

section

variable {α : Type} {P : α → Prop} {xs : Array α} {x : α}

theorem mem_push_or (new : P x) : ∀ y ∈ xs.push x, y ∈ xs ∨ P y := by
  intro y member
  rcases Array.mem_push.1 member with old | rfl
  · exact .inl old
  · exact .inr new

theorem mem_set_or {i : Nat} (new : P x) : ∀ y ∈ xs.setIfInBounds i x, y ∈ xs ∨ P y := by
  intro y member
  rcases Array.mem_or_eq_of_mem_setIfInBounds member with old | rfl
  · exact .inl old
  · exact .inr new

end

/-- An operation that is allowed keeps a state well formed. -/
theorem WellFormed.step {s : State} {op : Operation} {H K : Multiset BoxId} (wf : s.WellFormed)
    (held : s.Holding H) (allowed : op.Allowed H s K) : (op.apply s).WellFormed := by
  have later := op.extends s
  apply wf.adds
  cases op with
  | alloc v =>
    apply Adds.mk later
    case values => exact mem_push_or (allowed.1.mono later)
    all_goals intros; left; assumption
  | write b v =>
    apply Adds.mk later
    case values => exact mem_set_or (allowed.2.1.mono later)
    all_goals intros; left; assumption
  | allocList items =>
    apply Adds.mk later
    case lists =>
      refine mem_push_or fun b inside => (held b ?_).mono later
      rw [show H = _ from allowed]
      exact Multiset.mem_add.2 (.inl (Multiset.mem_coe.2 (Array.mem_toList_iff.2 inside)))
    all_goals intros; left; assumption
  | allocDict m =>
    apply Adds.mk later
    case dicts =>
      refine mem_push_or fun e inside => ?_
      have boxes := mem_boxes_of_mem_values inside
      rw [show H = _ from allowed] at held
      exact ⟨(held _ (Multiset.mem_add.2 (.inl boxes.1))).mono later,
        (held _ (Multiset.mem_add.2 (.inl boxes.2))).mono later⟩
    all_goals intros; left; assumption
  | file d k e =>
    have filed := wf.own_filed held allowed
    apply Adds.mk later
    case dicts =>
      refine mem_set_or fun e' inside => ?_
      rcases OrderedMap.mem_values_insert inside with rfl | old
      · exact ⟨filed.1.mono later, filed.2.mono later⟩
      · have boxes := wf.own_entries d e' old
        exact ⟨boxes.1.mono later, boxes.2.mono later⟩
    all_goals intros; left; assumption
  | unfile d k =>
    apply Adds.mk later
    case dicts =>
      refine mem_set_or fun e inside => ?_
      have kept := Multiset.mem_of_le (OrderedMap.values_erase_le _ k) (Multiset.mem_coe.2 inside)
      have boxes := wf.own_entries d e (Multiset.mem_coe.1 kept)
      exact ⟨boxes.1.mono later, boxes.2.mono later⟩
    all_goals intros; left; assumption
  | allocInstance i =>
    rcases allowed with ⟨definition, fields, rfl⟩
    have shaped : s.Shaped i :=
      ⟨definition, fields, fun b inside => held b (Multiset.mem_add.2 (.inl inside))⟩
    apply Adds.mk later
    case instances => exact mem_push_or (shaped.mono later)
    all_goals intros; left; assumption
  | allocFunction f =>
    apply Adds.mk later
    case functions => exact mem_push_or (allowed.1.mono later)
    all_goals intros; left; assumption
  | allocStruct d =>
    apply Adds.mk later
    case structs => exact mem_push_or ⟨allowed.1.1, fun f method => (allowed.2.1 f method).mono later⟩
    all_goals intros; left; assumption
  | setObj m name b =>
    rcases allowed with ⟨here, rfl⟩
    exact wf.adds_bound here (held b (Multiset.mem_cons_self _ _)) (Scope.objs_setObj_le _ name b)
      (Scope.structs_setObj _ name b)
  | declareObj m name b =>
    rcases allowed with ⟨here, rfl⟩
    exact wf.adds_bound here (held b (Multiset.mem_cons_self _ _)) (Scope.objs_declareObj_le _ name b)
      (Scope.structs_declareObj _ name b)
  | setStruct m name d =>
    rcases allowed with ⟨here, there, rfl⟩
    apply Adds.modifyScope
    · intro b listed
      rw [Scope.objs_setStruct] at listed
      exact wf.own_obj here listed
    · intro d' listed
      have slots :=
        Multiset.mem_of_le (Scope.structs_setStruct_le _ name d) (Multiset.mem_coe.2 listed)
      rcases Multiset.mem_cons.1 slots with rfl | old
      · exact there
      · exact wf.has_struct here (Multiset.mem_coe.1 old)
  | print line =>
    apply Adds.mk later
    all_goals intros; left; assumption

/-- The lines a program has written have no part in it. -/
theorem WellFormed.write {s : State} (wf : s.WellFormed) (lines : Array Line) :
    WellFormed { s with output := lines } :=
  { wf with instances := fun i member => { wf.instances i member with } }

/-! ### Calls, blocks and modules -/

variable {s : State} {m : ModuleId}

theorem WellFormed.enter {names : OrderedMap String BoxId} (wf : s.WellFormed) (here : s.HasModule m)
    (received : s.Receives names) : (s.enter m names).WellFormed := by
  apply wf.adds
  apply Adds.modifyScope
  · intro b listed
    rcases Scope.mem_objs_addFrame listed with new | old
    · rcases received with rfl | ⟨i, there, rfl⟩
      · cases new
      · exact (wf.shaped there).boxes b new
    · exact wf.own_obj here old
  · intro d listed
    rw [Scope.structs_addFrame] at listed
    exact wf.has_struct here listed

theorem WellFormed.leave (wf : s.WellFormed) (here : s.HasModule m) : (s.leave m).WellFormed :=
  wf.adds (wf.adds_lost here (Scope.objs_dropFrame_le _) (Scope.structs_dropFrame_le _))

theorem WellFormed.openBlock (wf : s.WellFormed) (here : s.HasModule m) :
    (s.openBlock m).WellFormed := by
  have objs := Scope.objs_pushBlock (s.registry.module m).scope
  have structs := Scope.structs_pushBlock (s.registry.module m).scope
  exact wf.adds (wf.adds_lost here (le_of_eq (congrArg _ objs)) (le_of_eq (congrArg _ structs)))

theorem WellFormed.closeBlock (wf : s.WellFormed) (here : s.HasModule m) :
    (s.closeBlock m).WellFormed :=
  wf.adds (wf.adds_lost here (Scope.objs_dropBlock_le _) (Scope.structs_dropBlock_le _))

theorem hasModule_load (s : State) (M : Module) : (s.load M).HasModule s.registry.next := by
  simp [HasModule, State.load, Registry.next]

theorem eq_next_of_hasModule_load {M : Module} {m' : ModuleId} (there : (s.load M).HasModule m')
    (new : ¬ s.HasModule m') : m' = s.registry.next := by
  have bound : m'.index < s.registry.modules.size + 1 := by
    simpa [HasModule, State.load] using there
  have least : s.registry.modules.size ≤ m'.index := Nat.le_of_not_lt new
  have same : m'.index = s.registry.modules.size := by omega
  cases m'
  exact congrArg ModuleId.mk same

/-- A module may be added whose names are bound to boxes of the program. -/
theorem WellFormed.load {M : Module} (wf : s.WellFormed) (fresh : s.registry.find? M.key = none)
    (objs : ∀ b ∈ M.scope.objs, s.OwnBox b) (structs : M.scope.structs = []) :
    (s.load M).WellFormed := by
  have later := extends_load fresh
  apply wf.adds
  apply Adds.mk later
  case scopes =>
    intro M' member
    rcases Array.mem_push.1 member with old | rfl
    · exact .inl old
    · refine .inr ⟨fun b listed => (objs b listed).mono later, ?_⟩
      rw [structs]
      exact fun _ listed => absurd listed List.not_mem_nil
  case found =>
    intro key m' found
    rw [State.load, Registry.find?_load] at found
    split at found
    · next same =>
      cases found
      refine .inr ⟨hasModule_load s M, ?_⟩
      rw [State.load, Registry.module_load_next, same]
    · exact .inl found
  case registered =>
    intro m' there
    by_cases old : s.HasModule m'
    · exact .inl old
    · have isNext := eq_next_of_hasModule_load there old
      refine .inr ⟨s.registry.next, ?_⟩
      rw [isNext, State.load, Registry.module_load_next, Registry.find?_load, if_pos rfl]
  all_goals intros; left; assumption

end State

end Shiba

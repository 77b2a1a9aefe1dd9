import Shiba.Proofs.Lockstep.Basic

/-!
# Rules for the steps of the machine

One rule for every step that constructs are made of.  Steps that only read leave both states as they
are, and their rules say so by equations; steps that change a state are operations that the discipline
keeps, and their rules say which boxes are in hand afterwards.  `Agree.inBlock` and `Agree.inFunction`
carry a statement about what happens inside a block or a call to the outside.
-/

namespace Shiba

namespace Eval

variable {α β : Type}

theorem onHeap_apply (act : HeapM α) (s : State) :
    onHeap act s = ((act s.heap).1, s.withHeap (act s.heap).2) := by
  cases s
  rfl

theorem onHeap_pure (x : α) : onHeap (pure x : HeapM α) = pure x := by
  funext s
  cases s
  rfl

theorem onHeap_bind (a : HeapM α) (f : α → HeapM β) :
    onHeap (a >>= f) = onHeap a >>= fun x => onHeap (f x) := by
  funext s
  change _ = (ExceptT.bindCont (fun x => onHeap (f x)) (onHeap a s).1 : StateM State _) (onHeap a s).2
  rw [onHeap_apply, onHeap_apply]
  change ((ExceptT.bindCont f (a s.heap).1 : StateM Heap _) (a s.heap).2 |>.1,
    s.withHeap ((ExceptT.bindCont f (a s.heap).1 : StateM Heap _) (a s.heap).2).2) = _
  rcases a s.heap with ⟨- | x, h⟩
  · rfl
  · rfl

theorem onHeap_throw (stop : Stop) : onHeap (throw stop : HeapM α) = throw stop := by
  funext s
  cases s
  rfl

theorem onHeap_raise (cause : Cause) : onHeap (HeapM.raise cause : HeapM α) = raise cause :=
  onHeap_throw _

theorem onHeap_get_bind (f : Heap → HeapM β) :
    onHeap (get >>= f) = get >>= fun s => onHeap (f s.heap) := by
  funext s
  cases s
  rfl

theorem onHeap_mapM (f : α → HeapM β) (xs : List α) :
    onHeap (xs.mapM f) = xs.mapM fun x => onHeap (f x) := by
  induction xs with
  | nil => exact onHeap_pure _
  | cons x xs ih =>
    rw [List.mapM_cons, List.mapM_cons, onHeap_bind]
    congr 1
    funext y
    rw [onHeap_bind, ih]
    rfl

end Eval

namespace Discipline.Agree

open Eval

variable {D : Discipline} {w : D.World} {H K : Multiset BoxId} {s₁ s₂ : State}
variable {α β : Type} {a₁ a₂ : Eval α} {f₁ f₂ : α → Eval β} {x : α} {P Q : α → State → State → Prop}
variable {R : β → State → State → Prop}

/-! ## Reading -/

/-- Two states are those a step started from. -/
abbrev Unchanged (s₁ s₂ : State) (t₁ t₂ : State) : Prop := t₁ = s₁ ∧ t₂ = s₂

/-- What follows a step that only reads runs in the states there were. -/
theorem look_bind (first : D.Agree w s₁ s₂ a₁ a₂ fun _ t₁ t₂ => Unchanged s₁ s₂ t₁ t₂)
    (rest : ∀ x, D.Agree w s₁ s₂ (f₁ x) (f₂ x) R) :
    D.Agree w s₁ s₂ (a₁ >>= f₁) (a₂ >>= f₂) R := by
  apply bind first
  intro x t₁ t₂ _ unchanged
  rw [unchanged.1, unchanged.2]
  exact rest x

/-- What follows a step that only reads runs in the states there were, and may use what was found. -/
theorem find_bind (first : D.Agree w s₁ s₂ a₁ a₂ fun x t₁ t₂ => Unchanged s₁ s₂ t₁ t₂ ∧ P x t₁ t₂)
    (rest : ∀ x, P x s₁ s₂ → D.Agree w s₁ s₂ (f₁ x) (f₂ x) R) :
    D.Agree w s₁ s₂ (a₁ >>= f₁) (a₂ >>= f₂) R := by
  apply bind first
  intro x t₁ t₂ _ after
  obtain ⟨⟨same₁, same₂⟩, found⟩ := after
  rw [same₁, same₂] at found ⊢
  exact rest x found

theorem read (holds : D.Holds w H s₁ s₂) (b : BoxId) :
    D.Agree w s₁ s₂ (Eval.read b) (Eval.read b) fun v t₁ t₂ =>
      Unchanged s₁ s₂ t₁ t₂ ∧ v = s₁.heap.value b := by
  refine of_run rfl ?_ (.refl s₁) ⟨⟨rfl, rfl⟩, rfl⟩
  change (Except.ok (s₂.heap.value b), s₂) = _
  rw [holds.alike.heap]

theorem read_bind {f₁ f₂ : Value → Eval β} (holds : D.Holds w H s₁ s₂) (b : BoxId)
    (rest : D.Agree w s₁ s₂ (f₁ (s₁.heap.value b)) (f₂ (s₁.heap.value b)) R) :
    D.Agree w s₁ s₂ (Eval.read b >>= f₁) (Eval.read b >>= f₂) R := by
  apply find_bind (read holds b)
  intro v isValue
  rw [isValue]
  exact rest

theorem typeName (holds : D.Holds w H s₁ s₂) (b : BoxId) :
    D.Agree w s₁ s₂ (Eval.typeName b) (Eval.typeName b) fun _ t₁ t₂ => Unchanged s₁ s₂ t₁ t₂ := by
  refine of_run rfl ?_ (.refl s₁) ⟨rfl, rfl⟩
  change (Except.ok (s₂.heap.typeName (s₂.heap.value b)), s₂) = _
  rw [holds.alike.heap]

/-- A bounded traversal of the heap. -/
theorem bounded (holds : D.Holds w H s₁ s₂) (f : Heap → Option α) :
    D.Agree w s₁ s₂ (onHeap (HeapM.bounded f)) (onHeap (HeapM.bounded f)) fun x t₁ t₂ =>
      Unchanged s₁ s₂ t₁ t₂ ∧ f s₁.heap = some x := by
  rw [HeapM.bounded, onHeap_get_bind]
  apply get_bind
  rw [holds.alike.heap]
  cases answer : f s₁.heap with
  | none =>
    rw [onHeap_throw]
    exact throw holds id
  | some x =>
    rw [onHeap_pure]
    exact pure x ⟨⟨rfl, rfl⟩, rfl⟩

theorem canonical (holds : D.Holds w H s₁ s₂) (cfg : Config) (b : BoxId) :
    D.Agree w s₁ s₂ (Eval.canonical cfg b) (Eval.canonical cfg b) fun _ t₁ t₂ =>
      Unchanged s₁ s₂ t₁ t₂ := by
  apply read_bind holds b
  apply (bounded holds _).mono
  intro text u₁ u₂ _ ended
  obtain ⟨same, -⟩ := ended
  exact same

theorem display (holds : D.Holds w H s₁ s₂) (cfg : Config) (b : BoxId) :
    D.Agree w s₁ s₂ (Eval.display cfg b) (Eval.display cfg b) fun _ t₁ t₂ =>
      Unchanged s₁ s₂ t₁ t₂ := by
  apply read_bind holds b
  apply (bounded holds _).mono
  intro text u₁ u₂ _ ended
  obtain ⟨same, -⟩ := ended
  exact same

/-! ## Operations on the heap -/

/-- A step that is an operation. -/
theorem operation (op : Operation) (x : α) (holds : D.Holds w H s₁ s₂)
    (allowed : op.Allowed H s₁ K) (stored : ∀ b ∈ op.written?, s₁.Stored b)
    (opened : ∀ m ∈ op.target?, D.Open w m)
    (run₁ : a₁ s₁ = (.ok x, op.apply s₁)) (run₂ : a₂ s₂ = (.ok x, op.apply s₂)) :
    D.Agree w s₁ s₂ a₁ a₂ fun y t₁ t₂ => D.Holds w K t₁ t₂ ∧ y = x ∧ t₁ = op.apply s₁ :=
  of_run run₁ run₂ (op.extends s₁) ⟨holds.step allowed stored opened, rfl, rfl⟩

/-- An operation on the heap alone. -/
theorem heapOperation {act : HeapM α} {P : α → State → Prop} (op : Operation) (answer : Heap → α)
    (holds : D.Holds w H s₁ s₂) (allowed : op.Allowed H s₁ K)
    (stored : ∀ b ∈ op.written?, s₁.Stored b) (unbound : op.target? = none)
    (run : ∀ s : State, onHeap act s = (.ok (answer s.heap), op.apply s))
    (made : P (answer s₁.heap) (op.apply s₁)) :
    D.Agree w s₁ s₂ (onHeap act) (onHeap act) fun x t₁ t₂ => D.Holds w K t₁ t₂ ∧ P x t₁ := by
  have opened : ∀ m ∈ op.target?, D.Open w m := by
    intro m bound
    rw [unbound] at bound
    cases bound
  have run₂ := run s₂
  rw [holds.alike.heap] at run₂
  apply (operation op (answer s₁.heap) holds allowed stored opened (run s₁) run₂).mono
  intro x t₁ t₂ _ after
  obtain ⟨last, rfl, rfl⟩ := after
  exact ⟨last, made⟩

/-- A new box is in hand, and the modules are what they were. -/
theorem allocKeeping {v : Value} (holds : D.Holds w H s₁ s₂) (valid : s₁.Valid v) :
    D.Agree w s₁ s₂ (Eval.alloc v) (Eval.alloc v) fun b t₁ t₂ =>
      D.Holds w (b ::ₘ H) t₁ t₂ ∧ t₁.registry = s₁.registry := by
  have step : D.Agree w s₁ s₂ (Eval.alloc v) (Eval.alloc v) fun b t₁ t₂ =>
      D.Holds w (⟨s₁.heap.boxes.size⟩ ::ₘ H) t₁ t₂ ∧ b = ⟨s₁.heap.boxes.size⟩ ∧
        t₁.registry = s₁.registry :=
    heapOperation (.alloc v) (fun h => ⟨h.boxes.size⟩) holds ⟨valid, rfl⟩ nofun rfl (fun _ => rfl)
      ⟨rfl, rfl⟩
  apply step.mono
  intro b t₁ t₂ _ after
  obtain ⟨last, isNew, modules⟩ := after
  rw [isNew]
  exact ⟨last, modules⟩

/-- A new box is in hand. -/
theorem alloc {v : Value} (holds : D.Holds w H s₁ s₂) (valid : s₁.Valid v) :
    D.Agree w s₁ s₂ (Eval.alloc v) (Eval.alloc v) fun b t₁ t₂ => D.Holds w (b ::ₘ H) t₁ t₂ :=
  (allocKeeping holds valid).mono fun _ _ _ _ after => after.1

/-- A new box that is not kept in hand. -/
theorem allocFree {v : Value} (holds : D.Holds w H s₁ s₂) (valid : s₁.Valid v) :
    D.Agree w s₁ s₂ (Eval.alloc v) (Eval.alloc v) fun b t₁ t₂ =>
      D.Holds w H t₁ t₂ ∧ t₁.HasBox b := by
  apply (alloc holds valid).mono
  intro b t₁ t₂ _ after
  exact ⟨after.drop (Multiset.le_cons_self _ _), (after.held b (Multiset.mem_cons_self _ _)).2⟩

/-- The value a step has made is put into a new box. -/
theorem boxed {f : α → Value}
    (made : D.Agree w s₁ s₂ a₁ a₂ fun x t₁ t₂ => D.Holds w H t₁ t₂ ∧ t₁.Valid (f x)) :
    D.Agree w s₁ s₂ (a₁ >>= fun x => Eval.alloc (f x)) (a₂ >>= fun x => Eval.alloc (f x))
      fun b t₁ t₂ => D.Holds w H t₁ t₂ ∧ t₁.HasBox b := by
  apply bind made
  intro x t₁ t₂ _ after
  exact allocFree after.1 after.2

theorem write {b : BoxId} {v : Value} (holds : D.Holds w H s₁ s₂) (stored : s₁.Stored b)
    (valid : s₁.Valid v) :
    D.Agree w s₁ s₂ (Eval.write b v) (Eval.write b v) fun _ t₁ t₂ => D.Holds w H t₁ t₂ := by
  have own := holds.wf.own_stored stored
  have isStored : ∀ b' ∈ (Operation.write b v).written?, s₁.Stored b' := by
    rintro b' ⟨⟩
    exact stored
  have step : D.Agree w s₁ s₂ (Eval.write b v) (Eval.write b v) fun _ t₁ t₂ =>
      D.Holds w H t₁ t₂ ∧ True :=
    heapOperation (.write b v) (fun _ => ()) holds ⟨own, valid, rfl⟩ isStored rfl (fun _ => rfl) trivial
  exact step.mono fun _ _ _ _ after => after.1

/-- A copy of a box is in hand. -/
theorem heapCopy (holds : D.Holds w H s₁ s₂) (b : BoxId) :
    D.Agree w s₁ s₂ (onHeap (HeapM.copy b)) (onHeap (HeapM.copy b)) fun c t₁ t₂ =>
      D.Holds w (c ::ₘ H) t₁ t₂ := by
  have whole : onHeap (HeapM.copy b) = Eval.read b >>= Eval.alloc := by
    rw [HeapM.copy, onHeap_bind]
    rfl
  rw [whole]
  apply read_bind holds b
  exact alloc holds (holds.wf.valid_value b)

theorem copy (holds : D.Holds w H s₁ s₂) (b : BoxId) :
    D.Agree w s₁ s₂ (Eval.copy b) (Eval.copy b) fun c t₁ t₂ => D.Holds w (c ::ₘ H) t₁ t₂ :=
  heapCopy holds b

/-- A new list takes its boxes out of hand. -/
theorem allocList {items : Array BoxId}
    (holds : D.Holds w ((items.toList : Multiset BoxId) + H) s₁ s₂) :
    D.Agree w s₁ s₂ (onHeap (HeapM.allocList items)) (onHeap (HeapM.allocList items))
      fun l t₁ t₂ => D.Holds w H t₁ t₂ ∧ t₁.Valid (.list l) := by
  refine heapOperation (.allocList items) (fun h => ⟨h.lists.size⟩) holds rfl nofun rfl (fun _ => rfl) ?_
  simp [State.Valid, State.HasList, Operation.apply, State.withHeap]

/-- A new dictionary takes the boxes of its entries out of hand. -/
theorem allocDict {m : Dictionary} (holds : D.Holds w (m.boxes + H) s₁ s₂) :
    D.Agree w s₁ s₂ (onHeap (HeapM.allocDict m)) (onHeap (HeapM.allocDict m))
      fun d t₁ t₂ => D.Holds w H t₁ t₂ ∧ t₁.Valid (.dict d) := by
  refine heapOperation (.allocDict m) (fun h => ⟨h.dicts.size⟩) holds rfl nofun rfl (fun _ => rfl) ?_
  simp [State.Valid, State.HasDict, Operation.apply, State.withHeap]

/-- A new instance takes its boxes out of hand. -/
theorem allocInstance {i : Instance} (definition : s₁.HasStruct i.definition)
    (fields : i.fields.keys = (s₁.heap.structDef i.definition).fields)
    (holds : D.Holds w ((i.fields.values : Multiset BoxId) + H) s₁ s₂) :
    D.Agree w s₁ s₂ (onHeap (HeapM.allocInstance i)) (onHeap (HeapM.allocInstance i))
      fun j t₁ t₂ => D.Holds w H t₁ t₂ ∧ t₁.Valid (.struct j) := by
  refine heapOperation (.allocInstance i) (fun h => ⟨h.instances.size⟩) holds ⟨definition, fields, rfl⟩
    nofun rfl (fun _ => rfl) ?_
  simp [State.Valid, State.HasInstance, Operation.apply, State.withHeap]

theorem allocFunction {f : Function} (holds : D.Holds w H s₁ s₂) (here : s₁.HasModule f.module) :
    D.Agree w s₁ s₂ (onHeap (HeapM.allocFunction f)) (onHeap (HeapM.allocFunction f))
      fun g t₁ t₂ => D.Holds w H t₁ t₂ ∧ t₁.HasFunction g := by
  refine heapOperation (.allocFunction f) (fun h => ⟨h.functions.size⟩) holds ⟨here, rfl⟩ nofun rfl
    (fun _ => rfl) ?_
  simp [State.HasFunction, Operation.apply, State.withHeap]

theorem allocStruct {d : StructDef} (holds : D.Holds w H s₁ s₂)
    (distinct : d.fields.Nodup ∧ d.methods.keys.Nodup) (methods : ∀ f ∈ d.methods.values, s₁.HasFunction f) :
    D.Agree w s₁ s₂ (onHeap (HeapM.allocStruct d)) (onHeap (HeapM.allocStruct d))
      fun c t₁ t₂ => D.Holds w H t₁ t₂ ∧ t₁.HasStruct c := by
  refine heapOperation (.allocStruct d) (fun h => ⟨h.structs.size⟩) holds ⟨distinct, methods, rfl⟩ nofun
    rfl (fun _ => rfl) ?_
  simp [State.HasStruct, Operation.apply, State.withHeap]

/-! ## Names -/

theorem run_resolve {s : State} {m m' : ModuleId} (stands : s.Stands m m') :
    resolve m s = (.ok m', s) := by
  rw [resolve, bind_ok (run_get s), stands.resolve]
  rfl

theorem stands_alike {m m' : ModuleId} (alike : s₁.Alike s₂) (stands : s₁.Stands m m') :
    s₂.Stands m m' := by
  rw [State.Stands, alike.find?, alike.key]
  exact stands

/-- Reading off the scope of the module that stands for `m`. -/
theorem inScope {m : ModuleId} (holds : D.Holds w H s₁ s₂) (here : s₁.HasModule m)
    (f : Scope BoxId StructId → α)
    (same : ∀ m', s₁.Stands m m' →
      f (s₂.registry.module m').scope = f (s₁.registry.module m').scope) :
    D.Agree w s₁ s₂ (Eval.inScope m f) (Eval.inScope m f) fun x t₁ t₂ =>
      Unchanged s₁ s₂ t₁ t₂ ∧ ∃ m', s₁.Stands m m' ∧ s₁.HasModule m' ∧
        x = f (s₁.registry.module m').scope := by
  obtain ⟨m', stands, there⟩ := holds.wf.stands here
  apply bind (of_run (run_resolve stands) (run_resolve (stands_alike holds.alike stands)) (.refl s₁)
    (Q := fun found t₁ t₂ => found = m' ∧ Unchanged s₁ s₂ t₁ t₂) ⟨rfl, rfl, rfl⟩)
  intro found t₁ t₂ _ ended
  obtain ⟨rfl, rfl, rfl⟩ := ended
  apply get_bind
  rw [same found stands]
  exact pure _ ⟨⟨rfl, rfl⟩, found, stands, there, rfl⟩

theorem getObj? {m : ModuleId} (holds : D.Holds w H s₁ s₂) (here : s₁.HasModule m) (name : String) :
    D.Agree w s₁ s₂ (Eval.getObj? m name) (Eval.getObj? m name) fun found t₁ t₂ =>
      Unchanged s₁ s₂ t₁ t₂ ∧ ∀ b, found = some b → s₁.Stored b := by
  apply (inScope holds here _ fun m' stands =>
    (holds.alike.members m' (holds.wf.registered_of_stands stands) name).1).mono
  intro found t₁ t₂ _ ended
  obtain ⟨same, m', -, there, rfl⟩ := ended
  exact ⟨same, fun b isBox => .name there (Scope.mem_objs_of_getObj? isBox)⟩

/-- Code of a module sees its structs. -/
theorem getStruct? {m : ModuleId} (holds : D.Holds w H s₁ s₂) (here : D.Here w s₁ m)
    (name : String) :
    D.Agree w s₁ s₂ (Eval.getStruct? m name) (Eval.getStruct? m name) fun found t₁ t₂ =>
      Unchanged s₁ s₂ t₁ t₂ ∧ ∀ d, found = some d → s₁.HasStruct d := by
  obtain ⟨m', stands, isLocal⟩ := here.isLocal
  apply (inScope holds here.module _ ?_).mono
  · intro found t₁ t₂ _ ended
    obtain ⟨same, m'', -, there, rfl⟩ := ended
    exact ⟨same, fun d isStruct =>
      holds.wf.has_struct there (Scope.mem_structs_of_getStruct? isStruct)⟩
  · intro m'' stands'
    cases stands.symm.trans stands'
    exact D.structs holds.rel isLocal name

/-- What a name means in a module: an object, else a struct, else what `rest` makes of it. -/
theorem member {m : ModuleId} {rest₁ rest₂ : Eval BoxId} (holds : D.Holds w H s₁ s₂)
    (there : s₁.HasModule m) (name : String)
    (missing : D.Agree w s₁ s₂ rest₁ rest₂ fun b t₁ t₂ => D.Holds w H t₁ t₂ ∧ t₁.HasBox b) :
    D.Agree w s₁ s₂
      (do
        match ← Eval.getObj? m name with
        | some b => return b
        | none =>
          match ← Eval.getStruct? m name with
          | some d => Eval.alloc (.structDef d)
          | none => rest₁)
      (do
        match ← Eval.getObj? m name with
        | some b => return b
        | none =>
          match ← Eval.getStruct? m name with
          | some d => Eval.alloc (.structDef d)
          | none => rest₂)
      fun b t₁ t₂ => D.Holds w H t₁ t₂ ∧ t₁.HasBox b := by
  have same : ∀ m', s₁.Stands m m' → _ := fun m' stands =>
    holds.alike.members m' (holds.wf.registered_of_stands stands) name
  apply bind (inScope holds there _ fun m' stands => (same m' stands).1)
  intro found t₁ t₂ _ ended
  obtain ⟨⟨rfl, rfl⟩, m', stands, inside, isFound⟩ := ended
  cases found with
  | some b =>
    exact pure b ⟨holds, (holds.wf.own_obj inside (Scope.mem_objs_of_getObj? isFound.symm)).2⟩
  | none =>
    apply bind (inScope holds there _ ?_)
    · intro found t₁ t₂ _ ended
      obtain ⟨⟨rfl, rfl⟩, m'', -, inside', isStruct⟩ := ended
      cases found with
      | some d =>
        exact allocFree holds
          (holds.wf.has_struct inside' (Scope.mem_structs_of_getStruct? isStruct.symm))
      | none => exact missing
    · intro m'' stands'
      cases stands.symm.trans stands'
      exact (same m' stands).2 isFound.symm

/-- An operation that binds a name in the module that stands for `m`. -/
theorem onScope {m : ModuleId} {f : Scope BoxId StructId → Scope BoxId StructId}
    (op : ModuleId → Operation) (holds : D.Holds w H s₁ s₂) (opened : D.OpenFor w s₁ m)
    (target : ∀ m', (op m').target? = some m')
    (allowed : ∀ m', s₁.HasModule m' → (op m').Allowed H s₁ K)
    (run : ∀ m' s, (op m').apply s = s.modifyScope m' f) :
    D.Agree w s₁ s₂ (Eval.onScope m f) (Eval.onScope m f) fun _ t₁ t₂ => D.Holds w K t₁ t₂ := by
  obtain ⟨m', stands, isOpen⟩ := opened.isOpen
  have there := (holds.wf.found _ m' stands).1
  have stored : ∀ b ∈ (op m').written?, s₁.Stored b := by
    rw [Operation.written?_of_target? (target m')]
    exact nofun
  have bound : ∀ m'' ∈ (op m').target?, D.Open w m'' := by
    intro m'' isTarget
    rw [target m'] at isTarget
    cases isTarget
    exact isOpen
  have run₁ : Eval.onScope m f s₁ = (.ok (), (op m').apply s₁) := by
    rw [run]
    exact bind_ok (run_resolve stands)
  have run₂ : Eval.onScope m f s₂ = (.ok (), (op m').apply s₂) := by
    rw [run]
    exact bind_ok (run_resolve (stands_alike holds.alike stands))
  apply (operation (op m') () holds (allowed m' there) stored bound run₁ run₂).mono
  exact fun _ _ _ _ after => after.1

/-- Binding an object takes its box out of hand. -/
theorem setObj {m : ModuleId} {b : BoxId} (holds : D.Holds w (b ::ₘ H) s₁ s₂)
    (opened : D.OpenFor w s₁ m) (name : String) :
    D.Agree w s₁ s₂ (Eval.setObj m name b) (Eval.setObj m name b) fun _ t₁ t₂ => D.Holds w H t₁ t₂ :=
  onScope (.setObj · name b) holds opened (fun _ => rfl) (fun _ there => ⟨there, rfl⟩)
    fun _ _ => rfl

/-- Declaring an object takes its box out of hand. -/
theorem declareObj {m : ModuleId} {b : BoxId} (holds : D.Holds w (b ::ₘ H) s₁ s₂)
    (opened : D.OpenFor w s₁ m) (name : String) :
    D.Agree w s₁ s₂ (Eval.declareObj m name b) (Eval.declareObj m name b) fun _ t₁ t₂ =>
      D.Holds w H t₁ t₂ :=
  onScope (.declareObj · name b) holds opened (fun _ => rfl) (fun _ there => ⟨there, rfl⟩)
    fun _ _ => rfl

theorem setStruct {m : ModuleId} {d : StructId} (holds : D.Holds w H s₁ s₂)
    (opened : D.OpenFor w s₁ m) (name : String) (there : s₁.HasStruct d) :
    D.Agree w s₁ s₂ (Eval.setStruct m name d) (Eval.setStruct m name d) fun _ t₁ t₂ =>
      D.Holds w H t₁ t₂ :=
  onScope (.setStruct · name d) holds opened (fun _ => rfl)
    (fun _ inside => ⟨inside, there, rfl⟩) fun _ _ => rfl

/-! ## Output and places of errors -/

theorem writeLine (holds : D.Holds w H s₁ s₂) (line : Line)
    (run : ∀ s, a₁ s = (.ok x, (Operation.print line).apply s)) :
    D.Agree w s₁ s₂ a₁ a₁ fun _ t₁ t₂ => D.Holds w H t₁ t₂ := by
  apply (operation (.print line) x holds rfl nofun nofun (run s₁) (run s₂)).mono
  exact fun _ _ _ _ after => after.1

theorem print (holds : D.Holds w H s₁ s₂) (text : String) :
    D.Agree w s₁ s₂ (Eval.print text) (Eval.print text) fun _ t₁ t₂ => D.Holds w H t₁ t₂ :=
  writeLine holds (.program text) fun _ => rfl

/-- Tracing writes at most one line, the text of which is only read off. -/
theorem trace {text : Eval String} (holds : D.Holds w H s₁ s₂) (cfg : Config) (level : Int)
    (reads : D.Agree w s₁ s₂ text text fun _ t₁ t₂ => Unchanged s₁ s₂ t₁ t₂) :
    D.Agree w s₁ s₂ (Eval.trace cfg level text) (Eval.trace cfg level text) fun _ t₁ t₂ =>
      D.Holds w H t₁ t₂ := by
  rw [Eval.trace]
  split
  · apply look_bind reads
    intro line
    exact writeLine holds (.trace line) fun _ => rfl
  · exact pure _ holds

/-- A place is given to an error when the steps have ended. -/
theorem located {m : ModuleId} (p : Position) (ends : D.Agree w s₁ s₂ a₁ a₂ Q) :
    D.Agree w s₁ s₂ (Eval.located m p a₁) (Eval.located m p a₂) Q := by
  rcases ends with ⟨result, t₁, t₂, run₁, run₂, grew, after⟩
  cases result with
  | ok x =>
    refine ⟨.ok x, t₁, t₂, ?_, ?_, grew, after⟩
    · rw [Eval.located, run₁]
    · rw [Eval.located, run₂]
  | error stop =>
    have outer := mt (Stop.internal_locate ⟨(t₁.registry.module m).name, p⟩ stop).1 after.2
    refine ⟨.error (stop.locate ⟨(t₁.registry.module m).name, p⟩), t₁, t₂, ?_, ?_, grew, after.1,
      outer⟩
    · rw [Eval.located, run₁]
    · rw [Eval.located, run₂, ← after.1.alike.name]

theorem raiseAt {m : ModuleId} {p : Position} {cause : Cause} (holds : D.Holds w H s₁ s₂)
    (outer : ∀ failure, cause ≠ .invariant failure) :
    D.Agree w s₁ s₂ (Eval.raiseAt m p cause : Eval α) (Eval.raiseAt m p cause) Q :=
  located p (raise holds outer)

theorem raiseAt_bind {f₁ f₂ : α → Eval β} {R : β → State → State → Prop} {m : ModuleId} {p : Position}
    {cause : Cause} (holds : D.Holds w H s₁ s₂) (outer : ∀ failure, cause ≠ .invariant failure) :
    D.Agree w s₁ s₂ (Eval.raiseAt m p cause >>= f₁) (Eval.raiseAt m p cause >>= f₂) R :=
  bind (raiseAt holds outer (Q := fun _ _ _ => False)) fun _ _ _ _ never => never.elim

/-- A step that is watched answers how it went. -/
theorem observe (ends : D.Agree w s₁ s₂ a₁ a₂ Q) :
    D.Agree w s₁ s₂ (Eval.observe a₁) (Eval.observe a₂) fun result t₁ t₂ =>
      match result with
      | .ok x => Q x t₁ t₂
      | .error stop => D.Holds w 0 t₁ t₂ ∧ ¬ stop.Internal := by
  rcases ends with ⟨result, t₁, t₂, run₁, run₂, grew, after⟩
  refine of_run ?_ ?_ grew after
  · rw [Eval.observe, run₁]
  · rw [Eval.observe, run₂]

/-! ## Lists -/

/-- Steps for the elements of a list, with an invariant over the elements that were done and what
they came to. -/
theorem mapM {f₁ f₂ : α → Eval β} {I : List α → List β → State → State → Prop} (xs : List α)
    (start : I [] [] s₁ s₂)
    (turn : ∀ x ∈ xs, ∀ before ys t₁ t₂, s₁.Extends t₁ → I before ys t₁ t₂ →
      D.Agree w t₁ t₂ (f₁ x) (f₂ x) fun y u₁ u₂ => I (before ++ [x]) (ys ++ [y]) u₁ u₂) :
    D.Agree w s₁ s₂ (xs.mapM f₁) (xs.mapM f₂) fun ys t₁ t₂ => I xs ys t₁ t₂ := by
  suffices general : ∀ (rest before : List α) (ys : List β) (t₁ t₂ : State), before ++ rest = xs →
      s₁.Extends t₁ → I before ys t₁ t₂ →
      D.Agree w t₁ t₂ (rest.mapM f₁) (rest.mapM f₂) fun zs u₁ u₂ => I xs (ys ++ zs) u₁ u₂ by
    exact general xs [] [] s₁ s₂ rfl (.refl s₁) start
  intro rest
  induction rest with
  | nil =>
    intro before ys t₁ t₂ whole grew here
    rw [List.append_nil] at whole
    subst whole
    rw [List.mapM_nil, List.mapM_nil]
    exact pure [] (by simpa using here)
  | cons x rest ih =>
    intro before ys t₁ t₂ whole grew here
    have member : x ∈ xs := whole ▸ List.mem_append_right before List.mem_cons_self
    rw [List.mapM_cons, List.mapM_cons]
    apply bind (turn x member before ys t₁ t₂ grew here)
    intro y u₁ u₂ grew' there
    apply bind (ih (before ++ [x]) (ys ++ [y]) u₁ u₂ (by simpa using whole) (grew.trans grew') there)
    intro zs v₁ v₂ _ last
    exact pure (y :: zs) (by simpa using last)

/-- Steps that each take some boxes in hand. -/
theorem collect {f₁ f₂ : α → Eval β} {g : β → Multiset BoxId} {R : α → β → Prop} (xs : List α)
    (holds : D.Holds w H s₁ s₂)
    (turn : ∀ x ∈ xs, ∀ {K t₁ t₂}, s₁.Extends t₁ → D.Holds w K t₁ t₂ →
      D.Agree w t₁ t₂ (f₁ x) (f₂ x) fun y u₁ u₂ => D.Holds w (g y + K) u₁ u₂ ∧ R x y) :
    D.Agree w s₁ s₂ (xs.mapM f₁) (xs.mapM f₂) fun ys t₁ t₂ =>
      D.Holds w ((ys : Multiset β).bind g + H) t₁ t₂ ∧ List.Forall₂ R xs ys := by
  apply mapM (I := fun before ys t₁ t₂ =>
    D.Holds w ((ys : Multiset β).bind g + H) t₁ t₂ ∧ List.Forall₂ R before ys) xs
  · exact ⟨by simpa using holds, .nil⟩
  · intro x member before ys t₁ t₂ grew here
    apply (turn x member grew here.1).mono
    intro y u₁ u₂ _ ended
    obtain ⟨after, related⟩ := ended
    refine ⟨?_, List.rel_append here.2 (.cons related .nil)⟩
    have order : ((ys ++ [y] : List β) : Multiset β).bind g + H =
        g y + ((ys : Multiset β).bind g + H) := by
      rw [← Multiset.coe_add, Multiset.add_bind, Multiset.coe_singleton, Multiset.singleton_bind,
        add_right_comm, add_comm]
    rw [order]
    exact after

theorem forM {f₁ f₂ : α → Eval Unit} {I : List α → State → State → Prop} (xs : List α)
    (start : I [] s₁ s₂)
    (turn : ∀ x ∈ xs, ∀ before t₁ t₂, s₁.Extends t₁ → I before t₁ t₂ →
      D.Agree w t₁ t₂ (f₁ x) (f₂ x) fun _ u₁ u₂ => I (before ++ [x]) u₁ u₂) :
    D.Agree w s₁ s₂ (xs.forM f₁) (xs.forM f₂) fun _ t₁ t₂ => I xs t₁ t₂ := by
  suffices general : ∀ (rest before : List α) (t₁ t₂ : State), before ++ rest = xs →
      s₁.Extends t₁ → I before t₁ t₂ →
      D.Agree w t₁ t₂ (rest.forM f₁) (rest.forM f₂) fun _ u₁ u₂ => I xs u₁ u₂ by
    exact general xs [] s₁ s₂ rfl (.refl s₁) start
  intro rest
  induction rest with
  | nil =>
    intro before t₁ t₂ whole grew here
    rw [List.append_nil] at whole
    subst whole
    exact pure () here
  | cons x rest ih =>
    intro before t₁ t₂ whole grew here
    have member : x ∈ xs := whole ▸ List.mem_append_right before List.mem_cons_self
    change D.Agree w t₁ t₂ (f₁ x >>= fun _ => rest.forM f₁) (f₂ x >>= fun _ => rest.forM f₂) _
    apply bind (turn x member before t₁ t₂ grew here)
    intro _ u₁ u₂ grew' there
    exact ih (before ++ [x]) u₁ u₂ (by simpa using whole) (grew.trans grew') there

/-! ## Blocks and calls -/

theorem run_within {opening closing : Eval Unit} {act : Eval α} {s s' t u : State}
    {result : Except Stop α} (opens : opening s = (.ok (), s')) (run : act s' = (result, t))
    (closes : closing t = (.ok (), u)) : within opening closing act s = (result, u) := by
  have watched : Eval.observe act s' = (.ok result, t) := by rw [Eval.observe, run]
  rw [within, bind_ok opens, bind_ok watched, bind_ok closes]
  cases result with
  | ok x => rfl
  | error stop => rfl

theorem run_popFunction {t : State} {m : ModuleId}
    (active : (t.registry.module m).scope.frames ≠ []) : popFunction m t = (.ok (), t.leave m) := by
  have popped : Scope.popFunction? (t.registry.module m).scope =
      some (t.registry.module m).scope.dropFrame := by
    rw [Scope.popFunction?, Scope.dropFrame]
    split
    · next none => exact absurd none active
    · next frame outer some => rw [some, List.tail_cons]
  rw [popFunction, popScope, bind_ok (run_get t), popped]
  exact congrArg (fun r => (_, { t with registry := r })) (t.registry.modifyScope_const m _)

theorem run_popBlock {t : State} {m : ModuleId}
    (active : (t.registry.module m).scope.blockDepth ≠ 0) :
    popBlock m t = (.ok (), t.closeBlock m) := by
  have popped : Scope.popBlock? (t.registry.module m).scope =
      some (t.registry.module m).scope.dropBlock := by
    rw [Scope.blockDepth] at active
    rw [Scope.popBlock?, Frame.popBlock?, if_neg active, Scope.dropBlock]
    rcases (t.registry.module m).scope with ⟨root, - | ⟨frame, outer⟩⟩
    · rfl
    · rfl
  rw [popBlock, popScope, bind_ok (run_get t), popped]
  exact congrArg (fun r => (_, { t with registry := r })) (t.registry.modifyScope_const m _)

theorem run_inFunction {m m' : ModuleId} {act : Eval α} {s t : State} {result : Except Stop α}
    (stands : s.Stands m m') (run : act (s.modifyScope m' Scope.pushFunction) = (result, t))
    (active : (t.registry.module m').scope.frames ≠ []) :
    inFunction m act s = (result, t.leave m') := by
  rw [inFunction, bind_ok (run_resolve stands)]
  exact run_within rfl run (run_popFunction active)

theorem run_inBlock {m m' : ModuleId} {act : Eval α} {s t : State} {result : Except Stop α}
    (stands : s.Stands m m') (run : act (s.openBlock m') = (result, t))
    (active : (t.registry.module m').scope.blockDepth ≠ 0) :
    inBlock m act s = (result, t.closeBlock m') := by
  rw [inBlock, bind_ok (run_resolve stands)]
  exact run_within rfl run (run_popBlock active)

/-- What holds inside a block or a call holds outside when it has been closed, however it ended. -/
theorem bracket {w' : D.World} {s₁' s₂' : State} {act₁ act₂ whole₁ whole₂ : Eval Flow}
    (active : State → Prop) (close : State → State) (grew : s₁.Extends s₁')
    (inside : D.Agree w' s₁' s₂' act₁ act₂ fun flow u₁ u₂ =>
      D.Holds w' H u₁ u₂ ∧ u₁.HasFlow flow)
    (closes : ∀ {K t₁ t₂}, s₁'.Extends t₁ → D.Holds w' K t₁ t₂ →
      active t₁ ∧ active t₂ ∧ D.Holds w K (close t₁) (close t₂))
    (later : ∀ t : State, t.Extends (close t))
    (run₁ : ∀ result t, act₁ s₁' = (result, t) → active t → whole₁ s₁ = (result, close t))
    (run₂ : ∀ result t, act₂ s₂' = (result, t) → active t → whole₂ s₂ = (result, close t)) :
    D.Agree w s₁ s₂ whole₁ whole₂ fun flow t₁ t₂ => D.Holds w H t₁ t₂ ∧ t₁.HasFlow flow := by
  rcases inside with ⟨result, t₁, t₂, ends₁, ends₂, grew', after⟩
  have grew'' := (grew.trans grew').trans (later t₁)
  cases result with
  | ok flow =>
    obtain ⟨active₁, active₂, last⟩ := closes grew' after.1
    exact ⟨.ok flow, close t₁, close t₂, run₁ _ _ ends₁ active₁, run₂ _ _ ends₂ active₂, grew'', last,
      after.2.mono (later t₁)⟩
  | error stop =>
    obtain ⟨active₁, active₂, last⟩ := closes grew' after.1
    exact ⟨.error stop, close t₁, close t₂, run₁ _ _ ends₁ active₁, run₂ _ _ ends₂ active₂, grew'',
      last, after.2⟩

theorem inBlock {m : ModuleId} {act₁ act₂ : Eval Flow} (holds : D.Holds w H s₁ s₂)
    (blocks : D.BlocksFor w s₁ m)
    (inside : ∀ w' t₁ t₂, s₁.Extends t₁ → D.OpenFor w' t₁ m → D.Holds w' H t₁ t₂ →
      D.Agree w' t₁ t₂ act₁ act₂ fun flow u₁ u₂ => D.Holds w' H u₁ u₂ ∧ u₁.HasFlow flow) :
    D.Agree w s₁ s₂ (Eval.inBlock m act₁) (Eval.inBlock m act₂) fun flow t₁ t₂ =>
      D.Holds w H t₁ t₂ ∧ t₁.HasFlow flow := by
  obtain ⟨m', stands, hasBlocks⟩ := blocks.hasBlocks
  have there := (holds.wf.found _ m' stands).1
  obtain ⟨w', isOpen, rel, closes⟩ := D.block holds.wf there hasBlocks holds.rel
  have grew : s₁.Extends (s₁.openBlock m') := s₁.extends_modifyScope m' _
  have holds' : D.Holds w' H (s₁.openBlock m') (s₂.openBlock m') :=
    ⟨holds.wf.openBlock there, holds.held.mono grew, rel⟩
  have opened' : D.OpenFor w' (s₁.openBlock m') m :=
    ⟨blocks.module.mono grew, m', stands.mono grew blocks.module, isOpen⟩
  apply bracket (fun t => (t.registry.module m').scope.blockDepth ≠ 0) (·.closeBlock m') grew
    (inside w' _ _ grew opened' holds')
  · intro K t₁ t₂ grew' last
    have there' := (there.mono grew).mono grew'
    obtain ⟨active₁, active₂, rel'⟩ := closes last.wf there' last.rel
    exact ⟨active₁, active₂, last.wf.closeBlock there',
      last.held.mono (t₁.extends_modifyScope m' _), rel'⟩
  · exact fun t => t.extends_modifyScope m' _
  · exact fun result t run active => run_inBlock stands run active
  · exact fun result t run active => run_inBlock (stands_alike holds.alike stands) run active

/-- A call begins with some names bound, which is what the first steps of `act₁` and `act₂` do. -/
theorem inFunction {m m' : ModuleId} {names : OrderedMap String BoxId}
    {act₁ act₂ rest₁ rest₂ : Eval Flow} (holds : D.Holds w H s₁ s₂) (here : s₁.HasModule m)
    (stands : s₁.Stands m m') (received : s₁.Receives names)
    (begins₁ : act₁ (s₁.modifyScope m' Scope.pushFunction) = rest₁ (s₁.enter m' names))
    (begins₂ : act₂ (s₂.modifyScope m' Scope.pushFunction) = rest₂ (s₂.enter m' names))
    (inside : ∀ w' t₁ t₂, s₁.Extends t₁ → D.OpenFor w' t₁ m → D.Holds w' H t₁ t₂ →
      D.Agree w' t₁ t₂ rest₁ rest₂ fun flow u₁ u₂ => D.Holds w' H u₁ u₂ ∧ u₁.HasFlow flow) :
    D.Agree w s₁ s₂ (Eval.inFunction m act₁) (Eval.inFunction m act₂) fun flow t₁ t₂ =>
      D.Holds w H t₁ t₂ ∧ t₁.HasFlow flow := by
  have there := (holds.wf.found _ m' stands).1
  obtain ⟨w', isOpen, rel, closes⟩ := D.call holds.wf there received holds.rel
  have grew : s₁.Extends (s₁.enter m' names) := s₁.extends_modifyScope m' _
  have holds' : D.Holds w' H (s₁.enter m' names) (s₂.enter m' names) :=
    ⟨holds.wf.enter there received, holds.held.mono grew, rel⟩
  have opened' : D.OpenFor w' (s₁.enter m' names) m :=
    ⟨here.mono grew, m', stands.mono grew here, isOpen⟩
  apply bracket (fun t => (t.registry.module m').scope.frames ≠ []) (·.leave m') grew
    (inside w' _ _ grew opened' holds')
  · intro K t₁ t₂ grew' last
    have there' := (there.mono grew).mono grew'
    obtain ⟨active₁, active₂, rel'⟩ := closes last.wf there' last.rel
    exact ⟨active₁, active₂, last.wf.leave there', last.held.mono (t₁.extends_modifyScope m' _), rel'⟩
  · exact fun t => t.extends_modifyScope m' _
  · exact fun result t run active => run_inFunction stands (begins₁.trans run) active
  · exact fun result t run active =>
      run_inFunction (stands_alike holds.alike stands) (begins₂.trans run) active

end Discipline.Agree

end Shiba

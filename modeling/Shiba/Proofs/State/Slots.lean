import Mathlib.Algebra.BigOperators.Group.Finset.Basic
import Mathlib.Algebra.Order.BigOperators.Group.Finset
import Shiba.Proofs.Lockstep.Call

/-!
# The slots of a state

Everything a state holds boxes in, counted slot by slot: the functions visible everywhere, every level
of every frame and top level of every module, the elements of lists, the keys and values of
dictionaries, and the fields of instances.  A box that stands in two slots is counted twice.

The frame of a running method is the one exception.  Its body holds the receiver's own field boxes
under their names, and these are counted with the instance only.  Which frames belong to methods the
state does not tell, so `State.slots` is given the receivers of the active calls of every module.

The lemmas say what each operation can do to the slots: together with the boxes in hand they never
become more, but for the box that is allocated.
-/

namespace Shiba

/-! ## Slots of maps and scopes -/

namespace OrderedMap

variable {α β : Type} [DecidableEq α]

/-- Binding a key adds at most the new value to the values of the entries of some kind. -/
theorem values_filter_insertEntry_le (p : α × β → Bool) (a : α) (b : β) (entries : List (α × β)) :
    ((((insertEntry a b entries).filter p).map (·.2) : List β) : Multiset β) ≤
      b ::ₘ (((entries.filter p).map (·.2) : List β) : Multiset β) := by
  induction entries with
  | nil =>
    rw [insertEntry]
    exact Multiset.coe_le.2 (List.filter_sublist.map _).subperm
  | cons entry entries ih =>
    rcases entry with ⟨key, value⟩
    rw [insertEntry]
    split
    · have new : ((((key, b) :: entries).filter p).map (·.2)).Subperm
          (b :: (entries.filter p).map (·.2)) := by
        rw [List.filter_cons]
        split
        · exact List.Subperm.refl _
        · exact (List.sublist_cons_self _ _).subperm
      have old : (((entries.filter p).map (·.2) : List β)).Sublist
          ((((key, value) :: entries).filter p).map (·.2)) :=
        ((List.sublist_cons_self _ _).filter p).map _
      exact Multiset.coe_le.2 (new.trans ((List.subperm_cons b).2 old.subperm))
    · rw [List.filter_cons, List.filter_cons]
      split
      · rw [List.map_cons, List.map_cons, ← Multiset.cons_coe, ← Multiset.cons_coe,
          Multiset.cons_swap]
        exact Multiset.cons_le_cons _ ih
      · exact ih

/-- Where the keys are different, every entry is the one found under its key. -/
theorem get?_of_mem_entries {m : OrderedMap α β} (distinct : m.keys.Nodup) {e : α × β}
    (member : e ∈ m.entries) : m.get? e.1 = some e.2 := by
  rcases m with ⟨entries⟩
  induction entries with
  | nil => cases member
  | cons entry entries ih =>
    rw [keys, List.map_cons, List.nodup_cons] at distinct
    rw [get?, findEntry]
    rcases List.mem_cons.1 member with rfl | later
    · rw [if_pos rfl]
    · have other : entry.1 ≠ e.1 := by
        intro same
        exact distinct.1 (same ▸ List.mem_map_of_mem later)
      rw [if_neg other]
      exact ih distinct.2 later

end OrderedMap

namespace Frame

/-- The boxes of a frame, but for those of its body that are the fields of a receiver. -/
def ownBoxes (fields : OrderedMap String BoxId) (f : Frame BoxId StructId) : Multiset BoxId :=
  (f.objs.blocks.flatMap OrderedMap.values : List BoxId) +
    ((f.objs.body.entries.filter fun e => fields.get? e.1 ≠ some e.2).map (·.2) : List BoxId)

theorem ownBoxes_le (fields : OrderedMap String BoxId) (f : Frame BoxId StructId) :
    f.ownBoxes fields ≤ (f.objs.values : Multiset BoxId) := by
  rw [ownBoxes, Levels.values_eq, ← Multiset.coe_add]
  apply add_le_add_right
  exact Multiset.coe_le.2 (List.filter_sublist.map _).subperm

theorem ownBoxes_empty (f : Frame BoxId StructId) :
    f.ownBoxes .empty = (f.objs.values : Multiset BoxId) := by
  simp [ownBoxes, Levels.values_eq, OrderedMap.values]

/-- A method's frame begins with nothing of its own. -/
theorem ownBoxes_begin {fields : OrderedMap String BoxId} (distinct : fields.keys.Nodup) :
    ownBoxes fields ⟨⟨fields, []⟩, .empty⟩ = 0 := by
  simp only [ownBoxes, List.flatMap_nil, Multiset.coe_nil, zero_add, Multiset.coe_eq_zero,
    List.map_eq_nil_iff, List.filter_eq_nil_iff]
  intro e member
  simp [OrderedMap.get?_of_mem_entries distinct member]

theorem ownBoxes_declare_le (fields : OrderedMap String BoxId) (f : Frame BoxId StructId)
    (name : String) (b : BoxId) :
    ownBoxes fields { f with objs := f.objs.declare name b } ≤ b ::ₘ f.ownBoxes fields := by
  rw [ownBoxes, ownBoxes, Levels.declare]
  split
  · next none =>
    have inserted := OrderedMap.values_filter_insertEntry_le
      (fun e => fields.get? e.1 ≠ some e.2) name b f.objs.body.entries
    rw [none]
    simpa [OrderedMap.insert] using inserted
  · next inner outer some =>
    have inserted := OrderedMap.values_insert_le inner name b
    have grown := add_le_add_left inserted (outer.flatMap OrderedMap.values : Multiset BoxId)
    rw [some, ← Multiset.cons_add]
    apply add_le_add_left
    simpa [Multiset.cons_add] using grown

theorem ownBoxes_set_le (fields : OrderedMap String BoxId) (f : Frame BoxId StructId)
    (name : String) (b : BoxId) :
    ownBoxes fields { f with objs := f.objs.set name b } ≤ b ::ₘ f.ownBoxes fields := by
  rw [Levels.set]
  split
  · next blocks rebound =>
    rw [ownBoxes, ownBoxes, ← Multiset.cons_add]
    exact add_le_add_left (Levels.values_rebindIn_le rebound) _
  · split
    · have inserted := OrderedMap.values_filter_insertEntry_le
        (fun e => fields.get? e.1 ≠ some e.2) name b f.objs.body.entries
      rw [ownBoxes, ownBoxes, ← Multiset.add_cons]
      exact add_le_add_right inserted _
    · exact ownBoxes_declare_le fields f name b

theorem ownBoxes_pushBlock (fields : OrderedMap String BoxId) (f : Frame BoxId StructId) :
    f.pushBlock.ownBoxes fields = f.ownBoxes fields := by
  simp [ownBoxes, pushBlock, Levels.push]

theorem ownBoxes_pop_le (fields : OrderedMap String BoxId) (f : Frame BoxId StructId) :
    ownBoxes fields ⟨f.objs.pop, f.structs.pop⟩ ≤ f.ownBoxes fields := by
  apply add_le_add_left
  exact Multiset.coe_le.2 ((List.tail_sublist f.objs.blocks).flatMap _).subperm

end Frame

namespace Scope

/-- The boxes of a scope.  The calls of methods are told by their receivers, the innermost first. -/
def ownBoxes (h : Heap) (receivers : List (Option InstanceId)) (s : Scope BoxId StructId) :
    Multiset BoxId :=
  (s.root.objs.values : List BoxId) +
    (List.zipWith (fun r f => f.ownBoxes (Eval.receivedNames h r)) receivers s.frames).sum

theorem ownBoxes_le (h : Heap) (receivers : List (Option InstanceId)) (s : Scope BoxId StructId) :
    s.ownBoxes h receivers ≤ (s.objs : Multiset BoxId) := by
  rcases s with ⟨root, frames⟩
  rw [ownBoxes, objs_eq, ← Multiset.coe_add]
  apply add_le_add_right
  induction frames generalizing receivers with
  | nil => simp
  | cons frame frames ih =>
    cases receivers with
    | nil => exact Multiset.zero_le _
    | cons r receivers =>
      rw [List.zipWith_cons_cons, List.sum_cons, List.flatMap_cons, ← Multiset.coe_add]
      exact add_le_add (Frame.ownBoxes_le _ frame) (ih receivers)

/-- A change of the current frame adds to a scope at most what it adds to every frame. -/
theorem ownBoxes_modifyCurrent_le {h : Heap} {receivers : List (Option InstanceId)}
    {s : Scope BoxId StructId} {f : Frame BoxId StructId → Frame BoxId StructId}
    {added : Multiset BoxId}
    (grown : ∀ fields frame, (f frame).ownBoxes fields ≤ added + frame.ownBoxes fields) :
    (s.modifyCurrent f).ownBoxes h receivers ≤ added + s.ownBoxes h receivers := by
  rcases s with ⟨root, - | ⟨frame, outer⟩⟩
  · have whole := grown .empty root
    rw [Frame.ownBoxes_empty, Frame.ownBoxes_empty] at whole
    simpa [ownBoxes, modifyCurrent] using whole
  · cases receivers with
    | nil => exact Multiset.le_add_left _ _
    | cons r receivers =>
      have whole := grown (Eval.receivedNames h r) frame
      simp only [ownBoxes, modifyCurrent, List.zipWith_cons_cons, List.sum_cons]
      rw [← add_assoc, ← add_assoc, ← add_assoc]
      apply add_le_add_left
      rw [add_comm added, add_assoc]
      exact add_le_add_right whole _

theorem ownBoxes_congr {h h' : Heap} {receivers : List (Option InstanceId)}
    (same : ∀ r ∈ receivers, Eval.receivedNames h' r = Eval.receivedNames h r)
    (s : Scope BoxId StructId) : s.ownBoxes h' receivers = s.ownBoxes h receivers := by
  rcases s with ⟨root, frames⟩
  rw [ownBoxes, ownBoxes]
  congr 2
  induction frames generalizing receivers with
  | nil => simp
  | cons frame frames ih =>
    cases receivers with
    | nil => rfl
    | cons r receivers =>
      rw [List.zipWith_cons_cons, List.zipWith_cons_cons, same r List.mem_cons_self,
        ih fun r' member => same r' (List.mem_cons_of_mem r member)]

/-- A new frame that holds nothing but the fields of its receiver adds nothing. -/
theorem ownBoxes_addFrame {h : Heap} {x : Option InstanceId} (receivers : List (Option InstanceId))
    (distinct : (Eval.receivedNames h x).keys.Nodup) (s : Scope BoxId StructId) :
    (s.addFrame (Eval.receivedNames h x)).ownBoxes h (x :: receivers) = s.ownBoxes h receivers := by
  rw [ownBoxes, ownBoxes, addFrame, List.zipWith_cons_cons, List.sum_cons,
    Frame.ownBoxes_begin distinct, zero_add]

theorem ownBoxes_dropFrame_le (h : Heap) (x : Option InstanceId)
    (receivers : List (Option InstanceId)) (s : Scope BoxId StructId) :
    s.dropFrame.ownBoxes h receivers ≤ s.ownBoxes h (x :: receivers) := by
  rcases s with ⟨root, - | ⟨frame, outer⟩⟩
  · rw [ownBoxes, ownBoxes, dropFrame, List.tail_nil, List.zipWith_nil_right,
      List.zipWith_nil_right]
  · rw [ownBoxes, ownBoxes, dropFrame, List.tail_cons, List.zipWith_cons_cons, List.sum_cons]
    exact add_le_add_right (Multiset.le_add_left _ _) _

theorem length_frames_modifyCurrent (s : Scope BoxId StructId)
    (f : Frame BoxId StructId → Frame BoxId StructId) :
    (s.modifyCurrent f).frames.length = s.frames.length := by
  rcases s with ⟨root, - | ⟨frame, outer⟩⟩ <;> rfl

end Scope

/-! ## Slots of the heap -/

/-- Where one summand is changed, a sum grows by what that one grows. -/
theorem sum_range_le_of_eq {n k : Nat} {f g : Nat → Multiset BoxId} {added : Multiset BoxId}
    (same : ∀ i < n, i ≠ k → g i = f i) (changed : g k ≤ added + f k) :
    ∑ i ∈ Finset.range n, g i ≤ added + ∑ i ∈ Finset.range n, f i := by
  by_cases inside : k ∈ Finset.range n
  · rw [← Finset.add_sum_erase _ g inside, ← Finset.add_sum_erase _ f inside, ← add_assoc]
    have others : ∑ i ∈ (Finset.range n).erase k, g i = ∑ i ∈ (Finset.range n).erase k, f i := by
      apply Finset.sum_congr rfl
      intro i member
      obtain ⟨other, bound⟩ := Finset.mem_erase.1 member
      exact same i (Finset.mem_range.1 bound) other
    rw [others]
    exact add_le_add_left changed _
  · have all : ∑ i ∈ Finset.range n, g i = ∑ i ∈ Finset.range n, f i := by
      apply Finset.sum_congr rfl
      intro i bound
      exact same i (Finset.mem_range.1 bound) fun isK => inside (isK ▸ bound)
    rw [all]
    exact Multiset.le_add_left _ _

/-- A sum over the numbers given out gets one summand more when one is given out. -/
theorem sum_range_push {α : Type} {x d : α} (xs : Array α) (f : α → Multiset BoxId) :
    ∑ i ∈ Finset.range (xs.push x).size, f ((xs.push x).getD i d) =
      f x + ∑ i ∈ Finset.range xs.size, f (xs.getD i d) := by
  rw [Array.size_push, Finset.sum_range_succ, add_comm]
  congr 1
  · simp
  · apply Finset.sum_congr rfl
    intro i bound
    have apart := Nat.ne_of_lt (Finset.mem_range.1 bound)
    simp [Array.getElem?_push, apart]

namespace Dictionary

theorem boxes_le {d d' : Dictionary}
    (fewer : (d'.values : Multiset Entry) ≤ (d.values : Multiset Entry)) : d'.boxes ≤ d.boxes := by
  obtain ⟨more, whole⟩ := Multiset.le_iff_exists_add.1 fewer
  rw [boxes, boxes, whole, Multiset.add_bind]
  exact Multiset.le_add_right _ _

/-- Filing an entry adds at most its two boxes. -/
theorem boxes_insert_le (d : Dictionary) (k : Key) (e : Entry) :
    boxes (d.insert k e) ≤ e.boxes + d.boxes := by
  obtain ⟨more, whole⟩ := Multiset.le_iff_exists_add.1 (OrderedMap.values_insert_le d k e)
  rw [boxes, boxes, ← Multiset.cons_bind, whole, Multiset.add_bind]
  exact Multiset.le_add_right _ _

theorem boxes_cons (k : Key) (e : Entry) (entries : List (Key × Entry)) :
    boxes ⟨(k, e) :: entries⟩ = e.boxes + boxes ⟨entries⟩ := by
  rw [boxes, boxes, OrderedMap.values, List.map_cons, ← Multiset.cons_coe, Multiset.cons_bind]
  rfl

/-- An entry that is filed under a key that is there keeps the box of the key: only the box of the
value is added. -/
theorem boxes_insert_le_of_get? {d : Dictionary} {k : Key} {e old : Entry}
    (found : d.get? k = some old) (same : e.key = old.key) :
    boxes (d.insert k e) ≤ e.value ::ₘ d.boxes := by
  rcases d with ⟨entries⟩
  induction entries with
  | nil => cases found
  | cons entry entries ih =>
    rcases entry with ⟨key, e'⟩
    rw [OrderedMap.get?, OrderedMap.findEntry] at found
    rw [OrderedMap.insert, OrderedMap.insertEntry]
    split
    · next here =>
      rw [if_pos here] at found
      cases found
      rw [boxes_cons, boxes_cons, ← Multiset.cons_add, Entry.boxes, Entry.boxes, same]
      apply add_le_add_left
      rw [Multiset.pair_comm]
      exact Multiset.cons_le_cons _ (Multiset.singleton_le.2 (Multiset.mem_cons_self _ _))
    · next there =>
      rw [if_neg there] at found
      rw [boxes_cons, boxes_cons, ← Multiset.add_cons]
      exact add_le_add_right (ih found) _

end Dictionary

namespace Heap

/-- The boxes the data on the heap is made of. -/
def slots (h : Heap) : Multiset BoxId :=
  ∑ i ∈ Finset.range h.lists.size, ((h.items ⟨i⟩).toList : Multiset BoxId) +
    ∑ i ∈ Finset.range h.dicts.size, (h.dictionary ⟨i⟩).boxes +
    ∑ i ∈ Finset.range h.instances.size, ((h.instanceAt ⟨i⟩).fields.values : Multiset BoxId)

variable (h : Heap)

theorem slots_pushList (items : Array BoxId) :
    slots { h with lists := h.lists.push items } = (items.toList : Multiset BoxId) + h.slots := by
  have pushed := sum_range_push (x := items) (d := #[]) h.lists
    fun items => (items.toList : Multiset BoxId)
  simp only [slots, Heap.items, pushed, add_assoc]
  rfl

theorem slots_pushDict (m : Dictionary) :
    slots { h with dicts := h.dicts.push m } = m.boxes + h.slots := by
  have pushed := sum_range_push (x := m) (d := .empty) h.dicts Dictionary.boxes
  simp only [slots, Heap.dictionary, pushed]
  simp only [add_assoc, add_left_comm m.boxes]
  rfl

theorem slots_pushInstance (i : Instance) :
    slots { h with instances := h.instances.push i } =
      (i.fields.values : Multiset BoxId) + h.slots := by
  have pushed := sum_range_push (x := i) (d := default) h.instances
    fun i => (i.fields.values : Multiset BoxId)
  simp only [slots, Heap.instanceAt, pushed]
  rw [add_left_comm]
  rfl

theorem slots_setDictionary_le {d : DictId} {m : Dictionary} {added : Multiset BoxId}
    (grown : m.boxes ≤ added + (h.dictionary d).boxes) :
    (h.setDictionary d m).slots ≤ added + h.slots := by
  have size : (h.setDictionary d m).dicts.size = h.dicts.size := by simp [setDictionary]
  have dicts : ∑ i ∈ Finset.range h.dicts.size, ((h.setDictionary d m).dictionary ⟨i⟩).boxes ≤
      added + ∑ i ∈ Finset.range h.dicts.size, (h.dictionary ⟨i⟩).boxes := by
    apply sum_range_le_of_eq (k := d.index)
    · intro i _ other
      rw [dictionary, dictionary, setDictionary, Array.getD_eq_getD_getElem?,
        Array.getD_eq_getD_getElem?, Array.getElem?_setIfInBounds_ne other.symm]
    · by_cases here : d.index < h.dicts.size
      · have stored : (h.setDictionary d m).dictionary ⟨d.index⟩ = m := by
          simp [dictionary, setDictionary, here]
        rw [stored]
        exact grown
      · have none : (h.setDictionary d m).dictionary ⟨d.index⟩ = .empty := by
          simp [dictionary, setDictionary, here]
        rw [none]
        exact Multiset.zero_le _
  rw [slots, slots, size, ← add_assoc]
  apply add_le_add_left
  rw [add_left_comm]
  exact add_le_add_right dicts _

end Heap

/-! ## Slots of a state -/

/-- The boxes names are bound to, given the receivers of the active calls of every module. -/
def Registry.slots (h : Heap) (receivers : ModuleId → List (Option InstanceId)) (r : Registry) :
    Multiset BoxId :=
  ∑ i ∈ Finset.range r.modules.size, (r.module ⟨i⟩).scope.ownBoxes h (receivers ⟨i⟩)

namespace Registry

variable {h h' : Heap} {receivers receivers' : ModuleId → List (Option InstanceId)} {r : Registry}
  {m : ModuleId} {f : Scope BoxId StructId → Scope BoxId StructId} {added : Multiset BoxId}

theorem slots_congr
    (same : ∀ m, ∀ x ∈ receivers m, Eval.receivedNames h' x = Eval.receivedNames h x) :
    r.slots h' receivers = r.slots h receivers := by
  apply Finset.sum_congr rfl
  intro i _
  exact Scope.ownBoxes_congr (same ⟨i⟩) _

/-- A change of one scope, and of the receivers of its calls, adds to all slots what it adds there. -/
theorem slots_modifyScope_le (others : ∀ m', m' ≠ m → receivers' m' = receivers m')
    (grown : (f (r.module m).scope).ownBoxes h (receivers' m) ≤
      added + (r.module m).scope.ownBoxes h (receivers m)) :
    (r.modifyScope m f).slots h receivers' ≤ added + r.slots h receivers := by
  rw [slots, slots, size_modifyScope]
  by_cases here : m.index < r.modules.size
  · apply sum_range_le_of_eq (k := m.index)
    · intro i _ other
      have apart : (⟨i⟩ : ModuleId) ≠ m := fun same => other (congrArg ModuleId.index same)
      rw [module_modifyScope_of_ne f apart, others _ apart]
    · rw [module_modifyScope_self f here]
      exact grown
  · have same : ∑ i ∈ Finset.range r.modules.size,
        ((r.modifyScope m f).module ⟨i⟩).scope.ownBoxes h (receivers' ⟨i⟩) =
          ∑ i ∈ Finset.range r.modules.size, (r.module ⟨i⟩).scope.ownBoxes h (receivers ⟨i⟩) := by
      apply Finset.sum_congr rfl
      intro i bound
      have apart : (⟨i⟩ : ModuleId) ≠ m := by
        rintro rfl
        exact here (Finset.mem_range.1 bound)
      rw [module_modifyScope_of_ne f apart, others _ apart]
    rw [same]
    exact Multiset.le_add_left _ _

theorem slots_load (M : Module) :
    (r.load M).slots h receivers = M.scope.ownBoxes h (receivers r.next) + r.slots h receivers := by
  rw [slots, slots, size_load, Finset.sum_range_succ, add_comm]
  congr 1
  · exact congrArg (fun M : Module => M.scope.ownBoxes h (receivers r.next)) (module_load_next r M)
  · apply Finset.sum_congr rfl
    intro i bound
    rw [module_load_of_lt (Finset.mem_range.1 bound)]

end Registry

namespace State

/-- Every slot of a state, given the receivers of the active calls of every module. -/
def slots (receivers : ModuleId → List (Option InstanceId)) (s : State) : Multiset BoxId :=
  s.builtins.values + s.registry.slots s.heap receivers + s.heap.slots

variable {s : State} {receivers receivers' : ModuleId → List (Option InstanceId)} {m : ModuleId}
  {f : Scope BoxId StructId → Scope BoxId StructId} {h : Heap} {H K added : Multiset BoxId}

theorem slots_withHeap_le
    (same : ∀ m, ∀ x ∈ receivers m, Eval.receivedNames h x = Eval.receivedNames s.heap x)
    (grown : h.slots ≤ added + s.heap.slots) :
    (s.withHeap h).slots receivers ≤ added + s.slots receivers := by
  rw [slots, slots, withHeap, Registry.slots_congr same, add_left_comm]
  exact add_le_add_right grown _

theorem slots_modifyScope_le (others : ∀ m', m' ≠ m → receivers' m' = receivers m')
    (grown : (f (s.registry.module m).scope).ownBoxes s.heap (receivers' m) ≤
      added + (s.registry.module m).scope.ownBoxes s.heap (receivers m)) :
    (s.modifyScope m f).slots receivers' ≤ added + s.slots receivers := by
  have scopes := Registry.slots_modifyScope_le (h := s.heap) others grown
  rw [slots, slots, modifyScope, ← add_assoc]
  apply add_le_add_left
  rw [add_left_comm]
  exact add_le_add_right scopes _

theorem slots_load (M : Module) :
    (s.load M).slots receivers =
      M.scope.ownBoxes s.heap (receivers s.registry.next) + s.slots receivers := by
  rw [slots, slots, load, Registry.slots_load, add_left_comm, ← add_assoc, ← add_assoc, ← add_assoc]

end State

/-- The box an operation allocates. -/
def Operation.fresh : Operation → State → Multiset BoxId
  | .alloc _, s => {⟨s.heap.boxes.size⟩}
  | _, _ => 0

/-- What an operation adds to the slots comes out of the hand. -/
theorem Operation.slots_apply_le {s : State} {op : Operation} {H K : Multiset BoxId}
    {receivers : ModuleId → List (Option InstanceId)}
    (there : ∀ m, ∀ x ∈ receivers m, ∀ i ∈ x, s.HasInstance i) (allowed : op.Allowed H s K) :
    ∃ added, (op.apply s).slots receivers ≤ added + s.slots receivers ∧
      op.fresh s + H = added + K := by
  have same : ∀ m, ∀ x ∈ receivers m,
      Eval.receivedNames (op.apply s).heap x = Eval.receivedNames s.heap x := by
    intro m x member
    cases x with
    | none => rfl
    | some i =>
      have kept := (op.extends s).instanceAt_eq (there m _ member i rfl)
      exact congrArg Instance.fields kept
  cases op with
  | alloc v =>
    rcases allowed with ⟨-, rfl⟩
    exact ⟨0, State.slots_withHeap_le same (by rw [zero_add]; rfl), by rw [zero_add]; rfl⟩
  | write b v =>
    rcases allowed with ⟨-, -, rfl⟩
    exact ⟨0, State.slots_withHeap_le same (by rw [zero_add]; rfl), rfl⟩
  | allocList items =>
    rw [show H = _ from allowed]
    exact ⟨_, State.slots_withHeap_le same (Heap.slots_pushList _ items).le, zero_add _⟩
  | allocDict m =>
    rw [show H = _ from allowed]
    exact ⟨_, State.slots_withHeap_le same (Heap.slots_pushDict _ m).le, zero_add _⟩
  | file d k e =>
    rcases allowed with ⟨old, found, sameKey, rfl⟩ | rfl
    · refine ⟨{e.value}, State.slots_withHeap_le same (Heap.slots_setDictionary_le _ ?_), zero_add _⟩
      exact Dictionary.boxes_insert_le_of_get? found sameKey
    · exact ⟨e.boxes, State.slots_withHeap_le same
        (Heap.slots_setDictionary_le _ (Dictionary.boxes_insert_le _ k e)), zero_add _⟩
  | unfile d k =>
    rw [show K = _ from allowed]
    refine ⟨0, State.slots_withHeap_le same (Heap.slots_setDictionary_le _ ?_), rfl⟩
    rw [zero_add]
    exact Dictionary.boxes_le (OrderedMap.values_erase_le _ k)
  | allocInstance i =>
    rcases allowed with ⟨-, -, rfl⟩
    exact ⟨_, State.slots_withHeap_le same (Heap.slots_pushInstance _ i).le, zero_add _⟩
  | allocFunction f =>
    rcases allowed with ⟨-, rfl⟩
    exact ⟨0, State.slots_withHeap_le same (by rw [zero_add]; rfl), rfl⟩
  | allocStruct d =>
    rcases allowed with ⟨-, -, rfl⟩
    exact ⟨0, State.slots_withHeap_le same (by rw [zero_add]; rfl), rfl⟩
  | setObj m name b =>
    rcases allowed with ⟨-, rfl⟩
    refine ⟨{b}, State.slots_modifyScope_le (fun _ _ => rfl) ?_, zero_add _⟩
    exact Scope.ownBoxes_modifyCurrent_le fun fields frame =>
      Frame.ownBoxes_set_le fields frame name b
  | declareObj m name b =>
    rcases allowed with ⟨-, rfl⟩
    refine ⟨{b}, State.slots_modifyScope_le (fun _ _ => rfl) ?_, zero_add _⟩
    exact Scope.ownBoxes_modifyCurrent_le fun fields frame =>
      Frame.ownBoxes_declare_le fields frame name b
  | setStruct m name d =>
    rcases allowed with ⟨-, -, rfl⟩
    refine ⟨0, State.slots_modifyScope_le (fun _ _ => rfl) ?_, rfl⟩
    exact Scope.ownBoxes_modifyCurrent_le fun fields frame => by rw [zero_add]; rfl
  | print line =>
    rw [show K = _ from allowed]
    exact ⟨0, by rw [zero_add]; rfl, rfl⟩

end Shiba

import Shiba.Proofs.Zones.Safe

/-!
# Operations and their zones

What the machine does to a state one operation at a time, and where things lie afterwards.  A new part of
the heap may lie in any zone its own parts lie in; boxes are overwritten and entries are filed in the live
zone alone; and a name is bound to a live box.

* `Guarded.Safe.operation`: an operation is safe when what it adds lies where it should.
* One rule for every operation follows.  Each says where the new part lies.
-/

namespace Shiba

/-! ## What is where after a change -/

namespace OrderedMap

variable {α β : Type} [DecidableEq α]

theorem mem_entries_insertEntry {a : α} {b : β} {e : α × β} {entries : List (α × β)}
    (member : e ∈ insertEntry a b entries) : e = (a, b) ∨ e ∈ entries := by
  induction entries with
  | nil => exact .inl (List.mem_singleton.1 member)
  | cons entry entries ih =>
    rcases entry with ⟨key, value⟩
    rw [insertEntry] at member
    split at member
    · next same =>
      rcases List.mem_cons.1 member with rfl | later
      · exact .inl (by rw [same])
      · exact .inr (List.mem_cons_of_mem _ later)
    · rcases List.mem_cons.1 member with rfl | later
      · exact .inr List.mem_cons_self
      · exact (ih later).imp_right (List.mem_cons_of_mem _)

/-- An entry is the one just bound, or it was there before. -/
theorem mem_entries_insert {m : OrderedMap α β} {a : α} {b : β} {e : α × β}
    (member : e ∈ (m.insert a b).entries) : e = (a, b) ∨ e ∈ m.entries :=
  mem_entries_insertEntry member

end OrderedMap

namespace Heap

theorem value_push (h : Heap) (v : Value) (b : BoxId) :
    value { h with boxes := h.boxes.push v } b = if b = ⟨h.boxes.size⟩ then v else h.value b := by
  rw [value, value, HeapM.getD_push]
  cases b
  simp only [BoxId.mk.injEq]

theorem items_push (h : Heap) (items : Array BoxId) (l : ListId) :
    Heap.items { h with lists := h.lists.push items } l =
      if l = ⟨h.lists.size⟩ then items else h.items l := by
  rw [Heap.items, Heap.items, HeapM.getD_push]
  cases l
  simp only [ListId.mk.injEq]

theorem dictionary_push (h : Heap) (m : Dictionary) (d : DictId) :
    dictionary { h with dicts := h.dicts.push m } d =
      if d = ⟨h.dicts.size⟩ then m else h.dictionary d := by
  rw [dictionary, dictionary, HeapM.getD_push]
  cases d
  simp only [DictId.mk.injEq]

theorem instanceAt_push (h : Heap) (shape : Instance) (i : InstanceId) :
    instanceAt { h with instances := h.instances.push shape } i =
      if i = ⟨h.instances.size⟩ then shape else h.instanceAt i := by
  rw [instanceAt, instanceAt, HeapM.getD_push]
  cases i
  simp only [InstanceId.mk.injEq]

theorem value_write_of_ne (h : Heap) {b c : BoxId} (v : Value) (other : c ≠ b) :
    (h.write b v).value c = h.value c := by
  have apart : b.index ≠ c.index := fun same => other (by cases b; cases c; cases same; rfl)
  rw [value, value, write, Array.getD_eq_getD_getElem?, Array.getD_eq_getD_getElem?,
    Array.getElem?_setIfInBounds_ne apart]

theorem value_write_self {h : Heap} {b : BoxId} (there : b.index < h.boxes.size) (v : Value) :
    (h.write b v).value b = v := by
  simp [value, write, there]

theorem dictionary_set_of_ne (h : Heap) {d c : DictId} (m : Dictionary) (other : c ≠ d) :
    (h.setDictionary d m).dictionary c = h.dictionary c := by
  have apart : d.index ≠ c.index := fun same => other (by cases d; cases c; cases same; rfl)
  rw [dictionary, dictionary, setDictionary, Array.getD_eq_getD_getElem?,
    Array.getD_eq_getD_getElem?, Array.getElem?_setIfInBounds_ne apart]

theorem dictionary_set_self {h : Heap} {d : DictId} (there : d.index < h.dicts.size) (m : Dictionary) :
    (h.setDictionary d m).dictionary d = m := by
  simp [dictionary, setDictionary, there]

end Heap

/-! ## Zones with one more place -/

namespace Zoning

variable (Z : Zoning)

/-- The zones with a box put into one. -/
def withBox (b : BoxId) (z : Zone) : Zoning := { Z with box := Function.update Z.box b z }

/-- The zones with a list put into one. -/
def withList (l : ListId) (z : Zone) : Zoning := { Z with list := Function.update Z.list l z }

/-- The zones with a dictionary put into one. -/
def withDict (d : DictId) (z : Zone) : Zoning := { Z with dict := Function.update Z.dict d z }

/-- The zones with an instance put into one. -/
def withInstance (i : InstanceId) (z : Zone) : Zoning := { Z with inst := Function.update Z.inst i z }

end Zoning

namespace Guarded

open Eval

variable {P : Policy} {σ τ : Guarded P} {α : Type} {a₁ a₂ : Eval α} {x : α}
  {Q : α → Guarded P → Prop}

namespace Safe

/-- A step that is an operation leads to a later state when what is new in it lies where it should. -/
theorem operation (op : Operation) {H K : Multiset BoxId} {Z : Zoning} (held : σ.state.Holding H)
    (allowed : op.Allowed H σ.state K) (shift : σ.Shift (op.apply σ.state) Z)
    (adds : σ.Adds (op.apply σ.state) Z) (run₁ : a₁ σ.state = (.ok x, op.apply σ.state))
    (run₂ : a₂ σ.state = (.ok x, op.apply σ.state))
    (after : ∀ τ : Guarded P, σ.Later τ → τ.state = op.apply σ.state → τ.zones = Z → Q x τ) :
    σ.Safe a₁ a₂ Q :=
  .of_run (τ := σ.advance _ Z (σ.wf.step held allowed) shift adds) run₁ run₂ shift
    (after _ shift rfl rfl)

end Safe

/-! ## Boxes -/

namespace Safe

/-- A new box lies in the zone its value fits into. -/
theorem allocIn {v : Value} {z : Zone} (fit : σ.Fit z v) :
    σ.Safe (Eval.alloc v) (Eval.alloc v) fun b τ =>
      τ.In z b ∧ τ.state.registry = σ.state.registry := by
  let b : BoxId := ⟨σ.state.heap.boxes.size⟩
  have other : ∀ c, σ.state.HasBox c → c ≠ b := fun c there same =>
    Nat.lt_irrefl _ (same ▸ there : σ.state.HasBox b)
  refine operation (.alloc v) (H := 0) (Z := σ.zones.withBox b z) (x := b) (State.holding_zero _)
    ⟨fit.1, rfl⟩ ?_ ?_ rfl rfl ?_
  · refine ⟨Operation.extends _ _, fun c there => Function.update_of_ne (other c there) _ _,
      fun _ _ => rfl, fun _ _ => rfl, fun _ _ => rfl, fun c there _ => ?_, fun _ _ _ => rfl⟩
    exact (Heap.value_push _ v c).trans (if_neg (other c there))
  · refine ⟨fun c => ?_, fun _ => .inl rfl, fun _ => .inl rfl, fun _ => .inl rfl,
      fun _ there _ _ listed => .inl ⟨there, listed⟩⟩
    have pushed := Heap.value_push σ.state.heap v c
    by_cases isNew : c = b
    · refine .inr ?_
      rw [if_pos isNew] at pushed
      have zone : (σ.zones.withBox b z).box c = z := isNew ▸ Function.update_self _ _ _
      have holds : ((Operation.alloc v).apply σ.state).heap.value c = v := pushed
      rw [zone, holds]
      exact fit.2
    · rw [if_neg isNew] at pushed
      exact .inl pushed
  · rintro τ - same zones
    refine ⟨⟨?_, ?_⟩, by rw [same]; rfl⟩
    · rw [same]
      simp [State.HasBox, b, Operation.apply, State.withHeap]
    · rw [zones]
      exact Function.update_self _ _ _

theorem alloc {v : Value} (fit : σ.Fit .live v) :
    σ.Safe (Eval.alloc v) (Eval.alloc v) fun b τ => τ.In .live b :=
  (allocIn fit).mono fun _ _ _ after => after.1

/-- What is written into a live box has to fit there. -/
theorem write {b : BoxId} {v : Value} (live : σ.In .live b) (fit : σ.Fit .live v) :
    σ.Safe (Eval.write b v) (Eval.write b v) fun _ _ => True := by
  refine operation (.write b v) (H := 0) (Z := σ.zones) (x := ()) (State.holding_zero _)
    ⟨live.own Zone.live_ne_old, fit.1, rfl⟩ ?_ ?_ rfl rfl fun _ _ _ _ => trivial
  · refine ⟨Operation.extends _ _, fun _ _ => rfl, fun _ _ => rfl, fun _ _ => rfl, fun _ _ => rfl,
      fun c _ other => ?_, fun _ _ _ => rfl⟩
    exact Heap.value_write_of_ne _ v fun same => other (same ▸ live.2)
  · refine ⟨fun c => ?_, fun _ => .inl rfl, fun _ => .inl rfl, fun _ => .inl rfl,
      fun _ there _ _ listed => .inl ⟨there, listed⟩⟩
    by_cases same : c = b
    · subst same
      refine .inr ?_
      rw [live.2]
      exact (Heap.value_write_self live.1 v).symm ▸ fit.2
    · exact .inl (Heap.value_write_of_ne _ v same)

/-- A copy of a box lies where the box lies. -/
theorem heapCopy {z : Zone} {b : BoxId} (fit : σ.Fit z (σ.state.heap.value b)) :
    σ.Safe (onHeap (HeapM.copy b)) (onHeap (HeapM.copy b)) fun c τ => τ.In z c := by
  have whole : onHeap (HeapM.copy b) = Eval.read b >>= Eval.alloc := by
    rw [HeapM.copy, onHeap_bind]
    rfl
  rw [whole]
  apply read_bind b
  exact (allocIn fit).mono fun _ _ _ after => after.1

theorem copy {b : BoxId} (seen : σ.Seen b) :
    σ.Safe (Eval.copy b) (Eval.copy b) fun c τ => τ.In .live c :=
  heapCopy seen.fit

/-! ## Lists, dictionaries and instances -/

/-- Boxes outside the old zone are boxes of the program. -/
theorem holding {H : Multiset BoxId} (inside : ∀ b ∈ H, ∃ z, z ≠ .old ∧ σ.In z b) :
    σ.state.Holding H := by
  intro b member
  obtain ⟨z, other, here⟩ := inside b member
  exact here.own other

theorem holding_entry {e : Entry} {y z : Zone} (key : σ.In y e.key) (notOld : y ≠ .old)
    (value : σ.In z e.value) (notOld' : z ≠ .old) : σ.state.Holding e.boxes := by
  refine holding fun b member => ?_
  rw [Entry.boxes, Multiset.insert_eq_cons] at member
  rcases Multiset.mem_cons.1 member with rfl | isValue
  · exact ⟨y, notOld, key⟩
  · rw [Multiset.mem_singleton.1 isValue]
    exact ⟨z, notOld', value⟩

theorem allocList {items : Array BoxId} {z : Zone} (other : z ≠ .old)
    (inside : ∀ b ∈ items, σ.In z b) :
    σ.Safe (onHeap (HeapM.allocList items)) (onHeap (HeapM.allocList items)) fun l τ =>
      τ.Fit z (.list l) := by
  let l : ListId := ⟨σ.state.heap.lists.size⟩
  have apart : ∀ l', σ.state.HasList l' → l' ≠ l := fun l' there same =>
    Nat.lt_irrefl _ (same ▸ there : σ.state.HasList l)
  have held : σ.state.Holding (items.toList : Multiset BoxId) := holding fun b member =>
    ⟨z, other, inside b (Array.mem_toList_iff.1 (Multiset.mem_coe.1 member))⟩
  refine operation (.allocList items) (K := 0) (Z := σ.zones.withList l z) (x := l) held
    (add_zero _).symm ?_ ?_ rfl rfl ?_
  · exact ⟨Operation.extends _ _, fun _ _ => rfl,
      fun l' there => Function.update_of_ne (apart l' there) _ _,
      fun _ _ => rfl, fun _ _ => rfl, fun _ _ _ => rfl, fun _ _ _ => rfl⟩
  · refine ⟨fun _ => .inl rfl, fun l' => ?_, fun _ => .inl rfl, fun _ => .inl rfl,
      fun _ there _ _ listed => .inl ⟨there, listed⟩⟩
    have pushed := Heap.items_push σ.state.heap items l'
    by_cases isNew : l' = l
    · refine .inr ?_
      rw [if_pos isNew] at pushed
      have zone : (σ.zones.withList l z).list l' = z := isNew ▸ Function.update_self _ _ _
      rw [zone]
      intro b member
      exact (inside b (pushed ▸ member)).2
    · rw [if_neg isNew] at pushed
      exact .inl pushed
  · rintro τ - same zones
    refine ⟨?_, ?_⟩
    · rw [same]
      simp [State.Valid, State.HasList, l, Operation.apply, State.withHeap]
    · rw [zones]
      exact Function.update_self _ _ _

/-- A new dictionary files its entries under what their keys are filed under. -/
theorem allocDict {m : Dictionary} {z : Zone} (other : z ≠ .old)
    (inside : ∀ e ∈ m.values, σ.In z.inner e.key ∧ σ.In z e.value)
    (filed : ∀ e ∈ m.entries,
      σ.state.heap.key P.limit (σ.state.heap.value e.2.key) = some e.1)
    (distinct : m.keys.Nodup) :
    σ.Safe (onHeap (HeapM.allocDict m)) (onHeap (HeapM.allocDict m)) fun d τ =>
      τ.Fit z (.dict d) := by
  let d : DictId := ⟨σ.state.heap.dicts.size⟩
  have apart : ∀ d', σ.state.HasDict d' → d' ≠ d := fun d' there same =>
    Nat.lt_irrefl _ (same ▸ there : σ.state.HasDict d)
  have held : σ.state.Holding m.boxes := by
    intro b member
    obtain ⟨e, listed, isBox⟩ := Multiset.mem_bind.1 member
    have ⟨key, value⟩ := inside e (Multiset.mem_coe.1 listed)
    exact holding_entry key (Zone.inner_of_ne_old other ▸ Zone.kept_ne_old) value other b isBox
  have shift : σ.Shift ((Operation.allocDict m).apply σ.state) (σ.zones.withDict d z) := by
    refine ⟨Operation.extends _ _, fun _ _ => rfl, fun _ _ => rfl,
      fun d' there => Function.update_of_ne (apart d' there) _ _, fun _ _ => rfl, fun _ _ _ => rfl,
      fun d' there _ => ?_⟩
    exact (Heap.dictionary_push _ m d').trans (if_neg (apart d' there))
  refine operation (.allocDict m) (K := 0) (x := d) held (add_zero _).symm shift ?_ rfl rfl ?_
  · refine ⟨fun _ => .inl rfl, fun _ => .inl rfl, fun d' => ?_, fun _ => .inl rfl,
      fun _ there _ _ listed => .inl ⟨there, listed⟩⟩
    have pushed : ((Operation.allocDict m).apply σ.state).heap.dictionary d' = _ :=
      Heap.dictionary_push σ.state.heap m d'
    by_cases isNew : d' = d
    · refine .inr ?_
      rw [if_pos isNew] at pushed
      have zone : (σ.zones.withDict d z).dict d' = z := isNew ▸ Function.update_self _ _ _
      refine ⟨?_, ?_, ?_⟩
      · rw [pushed, zone]
        exact fun e member => ⟨(inside e member).1.2, (inside e member).2.2⟩
      · rw [pushed]
        intro e member
        have ⟨there, zone⟩ := (inside e.2 (List.mem_map_of_mem member)).1
        rw [shift.key_eq there (zone ▸ Zone.inner_ne_live z)]
        exact filed e member
      · rw [pushed]
        exact distinct
    · rw [if_neg isNew] at pushed
      exact .inl pushed
  · rintro τ - same zones
    refine ⟨?_, ?_⟩
    · rw [same]
      simp [State.Valid, State.HasDict, d, Operation.apply, State.withHeap]
    · rw [zones]
      exact Function.update_self _ _ _

theorem allocInstance {i : Instance} {z : Zone} (other : z ≠ .old)
    (definition : σ.state.HasStruct i.definition)
    (fields : i.fields.keys = (σ.state.heap.structDef i.definition).fields)
    (inside : ∀ b ∈ i.fields.values, σ.In z b) :
    σ.Safe (onHeap (HeapM.allocInstance i)) (onHeap (HeapM.allocInstance i)) fun j τ =>
      τ.Fit z (.struct j) := by
  let j : InstanceId := ⟨σ.state.heap.instances.size⟩
  have apart : ∀ j', σ.state.HasInstance j' → j' ≠ j := fun j' there same =>
    Nat.lt_irrefl _ (same ▸ there : σ.state.HasInstance j)
  have held : σ.state.Holding (i.fields.values : Multiset BoxId) := holding fun b member =>
    ⟨z, other, inside b (Multiset.mem_coe.1 member)⟩
  refine operation (.allocInstance i) (K := 0) (Z := σ.zones.withInstance j z) (x := j) held
    ⟨definition, fields, (add_zero _).symm⟩ ?_ ?_ rfl rfl ?_
  · exact ⟨Operation.extends _ _, fun _ _ => rfl, fun _ _ => rfl, fun _ _ => rfl,
      fun j' there => Function.update_of_ne (apart j' there) _ _, fun _ _ _ => rfl, fun _ _ _ => rfl⟩
  · refine ⟨fun _ => .inl rfl, fun _ => .inl rfl, fun _ => .inl rfl, fun j' => ?_,
      fun _ there _ _ listed => .inl ⟨there, listed⟩⟩
    have pushed := Heap.instanceAt_push σ.state.heap i j'
    by_cases isNew : j' = j
    · refine .inr ?_
      rw [if_pos isNew] at pushed
      have zone : (σ.zones.withInstance j z).inst j' = z := isNew ▸ Function.update_self _ _ _
      rw [zone]
      intro b member
      exact (inside b (pushed ▸ member)).2
    · rw [if_neg isNew] at pushed
      exact .inl pushed
  · rintro τ - same zones
    refine ⟨?_, ?_⟩
    · rw [same]
      simp [State.Valid, State.HasInstance, j, Operation.apply, State.withHeap]
    · rw [zones]
      exact Function.update_self _ _ _

/-- A state that differs from another one in nothing that has a zone. -/
theorem shift_of_same {t : State} (grew : σ.state.Extends t) (boxes : t.heap.boxes = σ.state.heap.boxes)
    (dicts : t.heap.dicts = σ.state.heap.dicts) : σ.Shift t σ.zones :=
  ⟨grew, fun _ _ => rfl, fun _ _ => rfl, fun _ _ => rfl, fun _ _ => rfl,
    fun b _ _ => by rw [Heap.value, Heap.value, boxes],
    fun d _ _ => by rw [Heap.dictionary, Heap.dictionary, dicts]⟩

theorem adds_of_same {t : State} (boxes : t.heap.boxes = σ.state.heap.boxes)
    (lists : t.heap.lists = σ.state.heap.lists) (dicts : t.heap.dicts = σ.state.heap.dicts)
    (instances : t.heap.instances = σ.state.heap.instances)
    (registry : t.registry = σ.state.registry) : σ.Adds t σ.zones := by
  refine ⟨fun b => .inl ?_, fun l => .inl ?_, fun d => .inl ?_, fun i => .inl ?_,
    fun m there _ b listed => .inl ⟨?_, ?_⟩⟩
  · rw [Heap.value, Heap.value, boxes]
  · rw [Heap.items, Heap.items, lists]
  · rw [Heap.dictionary, Heap.dictionary, dicts]
  · rw [Heap.instanceAt, Heap.instanceAt, instances]
  · rwa [State.HasModule, ← registry]
  · rwa [← registry]

theorem allocFunction {f : Function} (there : σ.state.HasModule f.module) :
    σ.Safe (onHeap (HeapM.allocFunction f)) (onHeap (HeapM.allocFunction f)) fun g τ =>
      τ.state.HasFunction g := by
  refine operation (.allocFunction f) (H := 0) (x := ⟨σ.state.heap.functions.size⟩)
    (State.holding_zero _) ⟨there, rfl⟩ (shift_of_same (Operation.extends _ _) rfl rfl)
    (adds_of_same rfl rfl rfl rfl rfl) rfl rfl ?_
  rintro τ - same -
  rw [same]
  simp [State.HasFunction, Operation.apply, State.withHeap]

theorem allocStruct {d : StructDef} (distinct : d.fields.Nodup ∧ d.methods.keys.Nodup)
    (methods : ∀ f ∈ d.methods.values, σ.state.HasFunction f) :
    σ.Safe (onHeap (HeapM.allocStruct d)) (onHeap (HeapM.allocStruct d)) fun c τ =>
      τ.state.HasStruct c := by
  refine operation (.allocStruct d) (H := 0) (x := ⟨σ.state.heap.structs.size⟩)
    (State.holding_zero _) ⟨distinct, methods, rfl⟩ (shift_of_same (Operation.extends _ _) rfl rfl)
    (adds_of_same rfl rfl rfl rfl rfl) rfl rfl ?_
  rintro τ - same -
  rw [same]
  simp [State.HasStruct, Operation.apply, State.withHeap]

/-! ## Entries -/

/-- A dictionary that is changed is live, and so files its entries as it should. -/
theorem onDictionary {d : DictId} {m : Dictionary} (op : Operation) {H K : Multiset BoxId}
    {act : HeapM Unit} (there : σ.state.HasDict d) (live : σ.zones.dict d = .live)
    (held : σ.state.Holding H) (allowed : op.Allowed H σ.state K)
    (run : onHeap act σ.state = (.ok (), op.apply σ.state))
    (sets : op.apply σ.state = σ.state.withHeap (σ.state.heap.setDictionary d m))
    (inside : ∀ e ∈ m.values, σ.In .kept e.key ∧ σ.In .live e.value)
    (filed : ∀ e ∈ m.entries,
      σ.state.heap.key P.limit (σ.state.heap.value e.2.key) = some e.1)
    (distinct : m.keys.Nodup) : σ.Safe (onHeap act) (onHeap act) fun _ _ => True := by
  have grew := op.extends σ.state
  have shift : σ.Shift (op.apply σ.state) σ.zones := by
    refine ⟨grew, fun _ _ => rfl, fun _ _ => rfl, fun _ _ => rfl, fun _ _ => rfl, ?_, ?_⟩
    · rw [sets]
      exact fun _ _ _ => rfl
    · rw [sets]
      exact fun d' _ other => Heap.dictionary_set_of_ne _ m fun same => other (same ▸ live)
  have adds : σ.Adds (op.apply σ.state) σ.zones := by
    have fine : Fine P (op.apply σ.state) σ.zones d := by
      have stored : (op.apply σ.state).heap.dictionary d = m := by
        rw [sets]
        exact Heap.dictionary_set_self there m
      refine ⟨?_, ?_, ?_⟩
      · rw [stored, live]
        exact fun e member => ⟨(inside e member).1.2, (inside e member).2.2⟩
      · rw [stored]
        intro e member
        have ⟨there, zone⟩ := (inside e.2 (List.mem_map_of_mem member)).1
        rw [shift.key_eq there (zone ▸ Zone.kept_ne_live)]
        exact filed e member
      · rw [stored]
        exact distinct
    rw [sets] at fine ⊢
    refine ⟨fun _ => .inl rfl, fun _ => .inl rfl, fun d' => ?_, fun _ => .inl rfl,
      fun _ there _ _ listed => .inl ⟨there, listed⟩⟩
    by_cases same : d' = d
    · exact .inr (same ▸ fine)
    · exact .inl (Heap.dictionary_set_of_ne _ m same)
  exact operation op held allowed shift adds run run fun _ _ _ _ => trivial

end Safe

/-- The keys of a live dictionary are kept, and its values are live. -/
theorem in_entries {d : DictId} (live : σ.zones.dict d = .live) :
    ∀ e ∈ (σ.state.heap.dictionary d).values, σ.In .kept e.key ∧ σ.In .live e.value := by
  intro e member
  have ⟨key, value⟩ := σ.entries d e member
  have ⟨ownKey, ownValue⟩ := σ.wf.own_entries d e member
  rw [live] at key value
  exact ⟨⟨ownKey.2, key⟩, ownValue.2, value⟩

namespace Safe

theorem file {d : DictId} {k : Key} {e : Entry} (fit : σ.Fit .live (.dict d)) (key : σ.In .kept e.key)
    (filed : σ.state.heap.key P.limit (σ.state.heap.value e.key) = some k)
    (value : σ.In .live e.value) :
    σ.Safe (onHeap (modify fun h => h.setDictionary d ((h.dictionary d).insert k e)))
      (onHeap (modify fun h => h.setDictionary d ((h.dictionary d).insert k e))) fun _ _ => True := by
  have held : σ.state.Holding e.boxes := holding_entry key Zone.kept_ne_old value Zone.live_ne_old
  refine onDictionary (.file d k e) (K := 0) fit.1 fit.2 held (.inr (add_zero _).symm) rfl rfl ?_ ?_ ?_
  · intro e' member
    rcases OrderedMap.mem_values_insert member with rfl | old
    · exact ⟨key, value⟩
    · exact in_entries fit.2 e' old
  · intro e' member
    rcases OrderedMap.mem_entries_insert member with rfl | old
    · exact filed
    · exact σ.filed.key d e' old
  · exact OrderedMap.nodup_keys_insert (σ.filed.distinct d) k e

theorem unfile {d : DictId} {k : Key} (fit : σ.Fit .live (.dict d)) :
    σ.Safe (onHeap (modify fun h => h.setDictionary d ((h.dictionary d).erase k)))
      (onHeap (modify fun h => h.setDictionary d ((h.dictionary d).erase k))) fun _ _ => True := by
  have fewer : ∀ e ∈ ((σ.state.heap.dictionary d).erase k).entries,
      e ∈ (σ.state.heap.dictionary d).entries := fun e member => List.mem_of_mem_filter member
  refine onDictionary (.unfile d k) (H := 0) fit.1 fit.2 (State.holding_zero _) rfl rfl rfl ?_ ?_ ?_
  · intro e member
    obtain ⟨entry, listed, rfl⟩ := List.mem_map.1 member
    exact in_entries fit.2 entry.2 (List.mem_map_of_mem (fewer entry listed))
  · exact fun e member => σ.filed.key d e (fewer e member)
  · rw [OrderedMap.keys_erase]
    exact (σ.filed.distinct d).filter _

/-! ## Output -/

theorem writeLine {a : Eval α} (line : Line)
    (run : a σ.state = (.ok x, (Operation.print line).apply σ.state)) :
    σ.Safe a a fun _ τ => τ.state.registry = σ.state.registry := by
  refine operation (.print line) (H := 0) (State.holding_zero _) rfl
    (shift_of_same (Operation.extends _ _) rfl rfl) (adds_of_same rfl rfl rfl rfl rfl) run run ?_
  rintro τ - same -
  rw [same]
  rfl

theorem print (text : String) : σ.Safe (Eval.print text) (Eval.print text) fun _ _ => True :=
  (writeLine (.program text) rfl).mono fun _ _ _ _ => trivial

/-- Tracing writes at most one line, the text of which is only read off. -/
theorem trace {text : Eval String} (cfg : Config) (level : Int)
    (reads : text.Looks fun _ => True) :
    σ.Safe (Eval.trace cfg level text) (Eval.trace cfg level text) fun _ _ => True := by
  rw [Eval.trace]
  split
  · apply look_bind reads
    intro line _
    exact (writeLine (.trace line) rfl).mono fun _ _ _ _ => trivial
  · exact pure trivial

end Safe

/-! ## Names -/

/-- The module `m` is there, and names may be looked up in the module that stands for it. -/
structure Here (σ : Guarded P) (m : ModuleId) : Prop where
  module : σ.state.HasModule m
  within : ∃ m', σ.state.Stands m m' ∧ P.modules m'

theorem Here.mono {m : ModuleId} (later : σ.Later τ) (here : σ.Here m) : τ.Here m := by
  obtain ⟨m', stands, within⟩ := here.within
  exact ⟨here.module.mono later.grew, m', stands.mono later.grew here.module, within⟩

/-- In a module that is there, all names are within reach when nothing is left out. -/
theorem here_of_full {m : ModuleId} (full : P.full) (there : σ.state.HasModule m) : σ.Here m := by
  obtain ⟨m', stands, -⟩ := σ.wf.stands there
  exact ⟨there, m', stands, (P.whole full).2.1 m'⟩

/-- The scope of a module may change to one with no more names within reach than it had, and live
boxes. -/
theorem adds_modifyScope {m : ModuleId} {f : Scope BoxId StructId → Scope BoxId StructId}
    (there : σ.state.HasModule m)
    (parts : ∀ c ∈ P.part (f (σ.state.registry.module m).scope),
      c ∈ P.part (σ.state.registry.module m).scope ∨ σ.zones.box c = .live) :
    σ.Adds (σ.state.modifyScope m f) σ.zones := by
  refine ⟨fun _ => .inl rfl, fun _ => .inl rfl, fun _ => .inl rfl, fun _ => .inl rfl,
    fun m' there' _ b listed => ?_⟩
  have here : σ.state.HasModule m' := by simpa [State.HasModule, State.modifyScope] using there'
  by_cases same : m' = m
  · subst same
    rw [State.modifyScope, Registry.module_modifyScope_self f there] at listed
    exact (parts b listed).imp_left fun old => ⟨there, old⟩
  · rw [State.modifyScope, Registry.module_modifyScope_of_ne f same] at listed
    exact .inl ⟨here, listed⟩

namespace Safe

variable {β : Type} {R : β → Guarded P → Prop}

theorem resolve_bind {m m' : ModuleId} {f₁ f₂ : ModuleId → Eval β} (stands : σ.state.Stands m m')
    (rest : σ.Safe (f₁ m') (f₂ m') R) :
    σ.Safe (Eval.resolve m >>= f₁) (Eval.resolve m >>= f₂) R := by
  have run := Discipline.Agree.run_resolve stands
  rw [Safe, bind_ok run, bind_ok run]
  exact rest

/-- A name that may be looked up is bound to a live box. -/
theorem getObj?_bind {m : ModuleId} {name : String} {f₁ f₂ : Option BoxId → Eval β}
    (here : σ.Here m) (allowed : P.names name)
    (rest : ∀ found, (∀ b, found = some b → σ.In .live b) → σ.Safe (f₁ found) (f₂ found) R) :
    σ.Safe (Eval.getObj? m name >>= f₁) (Eval.getObj? m name >>= f₂) R := by
  obtain ⟨m', stands, within⟩ := here.within
  have there := (σ.wf.found _ m' stands).1
  rw [Eval.getObj?, Eval.inScope, bind_assoc, bind_assoc]
  apply resolve_bind stands
  apply rest
  intro b isBox
  have listed := P.lookup allowed isBox
  exact ⟨(σ.wf.own_obj there (P.objs listed)).2, σ.scopes m' there within b listed⟩

theorem getStruct?_bind {m : ModuleId} {name : String} {f₁ f₂ : Option StructId → Eval β}
    (there : σ.state.HasModule m)
    (rest : ∀ found, (∀ d, found = some d → σ.state.HasStruct d) → σ.Safe (f₁ found) (f₂ found) R) :
    σ.Safe (Eval.getStruct? m name >>= f₁) (Eval.getStruct? m name >>= f₂) R := by
  obtain ⟨m', stands, there'⟩ := σ.wf.stands there
  rw [Eval.getStruct?, Eval.inScope, bind_assoc, bind_assoc]
  apply resolve_bind stands
  apply rest
  exact fun d isStruct => σ.wf.has_struct there' (Scope.mem_structs_of_getStruct? isStruct)

/-- An operation that binds a name in the module that stands for `m`. -/
theorem onScope {m : ModuleId} {f : Scope BoxId StructId → Scope BoxId StructId}
    (op : ModuleId → Operation) {H K : Multiset BoxId} (there : σ.state.HasModule m)
    (held : σ.state.Holding H) (allowed : ∀ m', σ.state.HasModule m' → (op m').Allowed H σ.state K)
    (run : ∀ m', (op m').apply σ.state = σ.state.modifyScope m' f)
    (parts : ∀ s c, c ∈ P.part (f s) → c ∈ P.part s ∨ σ.zones.box c = .live) :
    σ.Safe (Eval.onScope m f) (Eval.onScope m f) fun _ _ => True := by
  obtain ⟨m', stands, there'⟩ := σ.wf.stands there
  have runs : Eval.onScope m f σ.state = (.ok (), (op m').apply σ.state) := by
    rw [run, Eval.onScope, bind_ok (Discipline.Agree.run_resolve stands)]
    rfl
  refine operation (op m') held (allowed m' there') (Z := σ.zones) ?_ ?_ runs runs
    fun _ _ _ _ => trivial
  · rw [run]
    exact shift_of_same (σ.state.extends_modifyScope m' f) rfl rfl
  · rw [run]
    exact adds_modifyScope there' (parts _)

theorem setObj {m : ModuleId} {b : BoxId} (there : σ.state.HasModule m) (live : σ.In .live b)
    (name : String) : σ.Safe (Eval.setObj m name b) (Eval.setObj m name b) fun _ _ => True := by
  refine onScope (.setObj · name b) (H := {b}) (K := 0) there
    (holding fun c isBox => ⟨.live, Zone.live_ne_old, Multiset.mem_singleton.1 isBox ▸ live⟩)
    (fun _ there' => ⟨there', rfl⟩) (fun _ => rfl) fun s c listed => ?_
  rcases P.setObj listed with rfl | old
  · exact .inr live.2
  · exact .inl old

theorem declareObj {m : ModuleId} {b : BoxId} (there : σ.state.HasModule m) (live : σ.In .live b)
    (name : String) :
    σ.Safe (Eval.declareObj m name b) (Eval.declareObj m name b) fun _ _ => True := by
  refine onScope (.declareObj · name b) (H := {b}) (K := 0) there
    (holding fun c isBox => ⟨.live, Zone.live_ne_old, Multiset.mem_singleton.1 isBox ▸ live⟩)
    (fun _ there' => ⟨there', rfl⟩) (fun _ => rfl) fun s c listed => ?_
  rcases P.declareObj listed with rfl | old
  · exact .inr live.2
  · exact .inl old

theorem setStruct {m : ModuleId} {d : StructId} (there : σ.state.HasModule m)
    (defined : σ.state.HasStruct d) (name : String) :
    σ.Safe (Eval.setStruct m name d) (Eval.setStruct m name d) fun _ _ => True :=
  onScope (.setStruct · name d) (H := 0) there (State.holding_zero _)
    (fun _ there' => ⟨there', defined, rfl⟩) (fun _ => rfl) fun _ _ listed => .inl (P.setStruct listed)

/-! ## Blocks, calls and modules -/

/-- A change of one scope that leaves the state well formed. -/
theorem changeScope {a : Eval Unit} {m : ModuleId} {f : Scope BoxId StructId → Scope BoxId StructId}
    (there : σ.state.HasModule m) (wf : (σ.state.modifyScope m f).WellFormed)
    (parts : ∀ c ∈ P.part (f (σ.state.registry.module m).scope),
      c ∈ P.part (σ.state.registry.module m).scope)
    (run : a σ.state = (.ok (), σ.state.modifyScope m f)) : σ.Safe a a fun _ _ => True := by
  have shift : σ.Shift (σ.state.modifyScope m f) σ.zones :=
    shift_of_same (σ.state.extends_modifyScope m f) rfl rfl
  have adds : σ.Adds (σ.state.modifyScope m f) σ.zones :=
    adds_modifyScope there fun c listed => .inl (parts c listed)
  exact of_run (τ := σ.advance _ _ wf shift adds) run run shift trivial

/-- What runs between an opening and a closing step. -/
theorem within {opening closing : Eval Unit} {act₁ act₂ : Eval β}
    (opens : σ.Safe opening opening fun _ _ => True)
    (inside : ∀ τ, σ.Later τ → τ.Safe act₁ act₂ R)
    (closes : ∀ τ, σ.Later τ → τ.Safe closing closing fun _ _ => True)
    (stable : ∀ {x τ υ}, τ.Later υ → R x τ → R x υ) :
    σ.Safe (Eval.within opening closing act₁) (Eval.within opening closing act₂) R := by
  apply bind opens
  intro _ τ later _
  apply bind (observe (inside τ later))
  intro result υ later' ended
  apply bind (closes υ (later.trans later'))
  intro _ φ later'' _
  cases result with
  | ok x => exact pure (stable later'' (ended x rfl))
  | error stop => exact throw

theorem popBlock {m : ModuleId} (there : σ.state.HasModule m) :
    σ.Safe (Eval.popBlock m) (Eval.popBlock m) fun _ _ => True := by
  by_cases active : (σ.state.registry.module m).scope.blockDepth = 0
  · have none : Scope.popBlock? (σ.state.registry.module m).scope = none := by
      rw [Scope.blockDepth] at active
      rw [Scope.popBlock?, Frame.popBlock?, if_pos active]
      rfl
    apply get_bind
    rw [none]
    exact raise
  · exact changeScope there (σ.wf.closeBlock there) (fun _ listed => P.dropBlock listed)
      (Discipline.Agree.run_popBlock active)

theorem inBlock {m : ModuleId} {act₁ act₂ : Eval β} (there : σ.state.HasModule m)
    (inside : ∀ τ, σ.Later τ → τ.Safe act₁ act₂ R)
    (stable : ∀ {x τ υ}, τ.Later υ → R x τ → R x υ) :
    σ.Safe (Eval.inBlock m act₁) (Eval.inBlock m act₂) R := by
  obtain ⟨m', stands, there'⟩ := σ.wf.stands there
  apply resolve_bind stands
  exact within (changeScope there' (σ.wf.openBlock there') (fun _ listed => P.pushBlock listed) rfl)
    inside (fun τ later => popBlock (there'.mono later.grew)) stable

end Safe

end Guarded

end Shiba

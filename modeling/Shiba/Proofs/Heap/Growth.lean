import Mathlib.Data.List.Forall2
import Shiba.Proofs.State.WellFormed
import Shiba.Value.Text

/-!
# Heaps that grow

What an operation adds to a heap leaves what is there as it is.

* `Heap.Sound`: every number that stands anywhere in a heap was given out.
* `Heap.Grows`: a later heap, in which everything is still there and as it was.
* `Heap.Preserves V h h'`: all that values with the property `V` lead to is the same in `h` and `h'`, and
  has the property again.  Such values keep their canonical forms (`Preserves.canonical_eq`).
* `Heap.Alike`: values of two heaps with one kind and one canonical form.
-/

namespace Shiba

namespace Heap

/-! ## Sound heaps -/

/-- The containers a value refers to are there. -/
def Knows (h : Heap) : Value → Prop
  | .list l => l.index < h.lists.size
  | .dict d => d.index < h.dicts.size
  | .struct i => i.index < h.instances.size
  | .method _ i => i.index < h.instances.size
  | _ => True

/-- Every number that stands anywhere in a heap was given out. -/
structure Sound (h : Heap) : Prop where
  value : ∀ b, h.Knows (h.value b)
  items : ∀ l, ∀ b ∈ h.items l, b.index < h.boxes.size
  entries : ∀ d, ∀ e ∈ (h.dictionary d).values,
    e.key.index < h.boxes.size ∧ e.value.index < h.boxes.size
  fields : ∀ i, ∀ b ∈ (h.instanceAt i).fields.values, b.index < h.boxes.size

end Heap

theorem State.WellFormed.sound {s : State} (wf : s.WellFormed) : s.heap.Sound where
  value b := by
    have valid := wf.valid_value b
    cases here : s.heap.value b with
    | list | dict | struct =>
      rw [here] at valid
      exact valid
    | method f i =>
      rw [here] at valid
      exact valid.2
    | nil | bool | int | float | str | function | builtin | module | structDef => trivial
  items l b member := (wf.own_items l b member).2
  entries d e member := ⟨(wf.own_entries d e member).1.2, (wf.own_entries d e member).2.2⟩
  fields i b member := by
    rcases State.getD_mem_or s.heap.instances i.index default with listed | none
    · exact ((wf.instances _ listed).boxes b member).2
    · rw [Heap.instanceAt, none] at member
      cases member

namespace Heap

/-! ## Heaps that grow -/

/-- A later heap, in which everything is still there and as it was. -/
structure Grows (h h' : Heap) : Prop where
  boxes : h.boxes.toList <+: h'.boxes.toList
  lists : h.lists.toList <+: h'.lists.toList
  dicts : h.dicts.toList <+: h'.dicts.toList
  instances : h.instances.toList <+: h'.instances.toList
  functions : h'.functions = h.functions
  structs : h'.structs = h.structs

section Growth

variable {h h' h'' : Heap}

@[refl] theorem Grows.refl (h : Heap) : h.Grows h :=
  ⟨List.prefix_rfl, List.prefix_rfl, List.prefix_rfl, List.prefix_rfl, rfl, rfl⟩

theorem Grows.trans (first : h.Grows h') (second : h'.Grows h'') : h.Grows h'' where
  boxes := first.boxes.trans second.boxes
  lists := first.lists.trans second.lists
  dicts := first.dicts.trans second.dicts
  instances := first.instances.trans second.instances
  functions := second.functions.trans first.functions
  structs := second.structs.trans first.structs

theorem Grows.size_boxes (grows : h.Grows h') : h.boxes.size ≤ h'.boxes.size :=
  State.size_le_of_grown grows.boxes

theorem Grows.value_eq (grows : h.Grows h') {b : BoxId} (there : b.index < h.boxes.size) :
    h'.value b = h.value b :=
  State.getD_of_grown grows.boxes there

theorem Grows.items_eq (grows : h.Grows h') {l : ListId} (there : l.index < h.lists.size) :
    h'.items l = h.items l :=
  State.getD_of_grown grows.lists there

theorem Grows.dictionary_eq (grows : h.Grows h') {d : DictId} (there : d.index < h.dicts.size) :
    h'.dictionary d = h.dictionary d :=
  State.getD_of_grown grows.dicts there

theorem Grows.instanceAt_eq (grows : h.Grows h') {i : InstanceId} (there : i.index < h.instances.size) :
    h'.instanceAt i = h.instanceAt i :=
  State.getD_of_grown grows.instances there

theorem Grows.structName_eq (grows : h.Grows h') {i : InstanceId}
    (there : i.index < h.instances.size) : h'.structName i = h.structName i := by
  rw [structName, structName, grows.instanceAt_eq there, structDef, structDef, grows.structs]

theorem Knows.mono {v : Value} (grows : h.Grows h') (knows : h.Knows v) : h'.Knows v := by
  cases v with
  | list l => exact Nat.lt_of_lt_of_le knows (State.size_le_of_grown grows.lists)
  | dict d => exact Nat.lt_of_lt_of_le knows (State.size_le_of_grown grows.dicts)
  | struct i => exact Nat.lt_of_lt_of_le knows (State.size_le_of_grown grows.instances)
  | method f i => exact Nat.lt_of_lt_of_le knows (State.size_le_of_grown grows.instances)
  | nil | bool | int | float | str | function | builtin | module | structDef => trivial

end Growth

/-! ## Values that keep their canonical forms -/

/-- All that values with a property lead to is the same in two heaps, and has the property again. -/
structure Preserves (V : Value → Prop) (h h' : Heap) : Prop where
  items : ∀ l, V (.list l) → h'.items l = h.items l ∧
    ∀ b ∈ h.items l, h'.value b = h.value b ∧ V (h.value b)
  entries : ∀ d, V (.dict d) → h'.dictionary d = h.dictionary d ∧
    ∀ e ∈ (h.dictionary d).values, (h'.value e.key = h.value e.key ∧ V (h.value e.key)) ∧
      h'.value e.value = h.value e.value ∧ V (h.value e.value)
  fields : ∀ i, V (.struct i) → h'.instanceAt i = h.instanceAt i ∧ h'.structName i = h.structName i ∧
    ∀ b ∈ (h.instanceAt i).fields.values, h'.value b = h.value b ∧ V (h.value b)
  functions : ∀ f, V (.function f) → h'.function f = h.function f
  methods : ∀ f i, V (.method f i) → h'.function f = h.function f ∧ h'.structName i = h.structName i
  structs : ∀ d, V (.structDef d) → h'.structDef d = h.structDef d

theorem mapM_congr {α β γ : Type} {f : α → Option γ} {g : β → Option γ} {as : List α} {bs : List β}
    (same : List.Forall₂ (fun a b => g b = f a) as bs) : bs.mapM g = as.mapM f := by
  induction same with
  | nil => rfl
  | cons here _ ih => rw [List.mapM_cons, List.mapM_cons, here, ih]

theorem mapM_congr_self {α γ : Type} {f g : α → Option γ} {as : List α}
    (same : ∀ a ∈ as, g a = f a) : as.mapM g = as.mapM f :=
  mapM_congr (List.forall₂_same.2 same)

theorem mapM_eq_none_of_mem {α β : Type} {f : α → Option β} {x : α} {xs : List α} (inside : x ∈ xs)
    (fails : f x = none) : xs.mapM f = none := by
  induction inside with
  | head xs =>
    rw [List.mapM_cons, fails]
    rfl
  | tail y _ ih =>
    rw [List.mapM_cons, ih]
    cases f y with
    | none => rfl
    | some z => rfl

/-- A list that holds itself has no written form, however deep data may be nested. -/
theorem canonical_cyclic {h : Heap} {l : ListId} {b : BoxId} (inside : b ∈ (h.items l).toList)
    (itself : h.value b = .list l) (limit : Nat) : h.canonical limit (.list l) = none := by
  induction limit with
  | zero => rfl
  | succ limit ih =>
    have fails : h.canonical limit (h.value b) = none := by
      rw [itself]
      exact ih
    rw [canonical, mapM_eq_none_of_mem inside fails]
    rfl

/-- Values keep their canonical forms with all that they lead to. -/
theorem Preserves.canonical_eq {V : Value → Prop} {h h' : Heap} (preserves : Preserves V h h') (n : Nat)
    {v : Value} (property : V v) : h'.canonical n v = h.canonical n v := by
  induction n generalizing v with
  | zero => rfl
  | succ n ih =>
    have box : ∀ {b : BoxId}, h'.value b = h.value b ∧ V (h.value b) →
        h'.canonical n (h'.value b) = h.canonical n (h.value b) := by
      intro b kept
      rw [kept.1]
      exact ih kept.2
    cases v with
    | list l =>
      obtain ⟨same, each⟩ := preserves.items l property
      have parts := mapM_congr_self fun b member => box (each b (Array.mem_toList_iff.1 member))
      simp only [canonical, same, parts]
    | dict d =>
      obtain ⟨same, each⟩ := preserves.entries d property
      simp only [canonical, same]
      congr 1
      refine mapM_congr_self fun e member => ?_
      rw [box (each e member).1, box (each e member).2]
    | struct i =>
      obtain ⟨same, name, each⟩ := preserves.fields i property
      simp only [canonical, same, name]
      congr 1
      refine mapM_congr_self fun e member => ?_
      rw [box (each e.2 (List.mem_map_of_mem member))]
    | function f =>
      simp only [canonical, preserves.functions f property]
    | method f i =>
      simp only [canonical, preserves.methods f i property]
    | structDef d =>
      simp only [canonical, preserves.structs d property]
    | nil | bool | int | float | str | builtin | module => rfl

/-- What is there keeps its canonical form in a heap that grows. -/
theorem Sound.preserves {h h' : Heap} (sound : h.Sound) (grows : h.Grows h') :
    Preserves h.Knows h h' where
  items l there :=
    ⟨grows.items_eq there, fun b member => ⟨grows.value_eq (sound.items l b member), sound.value b⟩⟩
  entries d there := ⟨grows.dictionary_eq there, fun e member =>
    ⟨⟨grows.value_eq (sound.entries d e member).1, sound.value e.key⟩,
      grows.value_eq (sound.entries d e member).2, sound.value e.value⟩⟩
  fields i there := ⟨grows.instanceAt_eq there, grows.structName_eq there, fun b member =>
    ⟨grows.value_eq (sound.fields i b member), sound.value b⟩⟩
  functions f _ := by rw [function, function, grows.functions]
  methods f i there := ⟨by rw [function, function, grows.functions], grows.structName_eq there⟩
  structs d _ := by rw [structDef, structDef, grows.structs]

/-! ## Values that look alike -/

/-- A value of a heap looks like a value of another heap. -/
structure Alike (h : Heap) (v : Value) (h' : Heap) (u : Value) : Prop where
  kind : u.kind = v.kind
  canonical : ∀ n, h'.canonical n u = h.canonical n v

/-- A box is there, and what is in it looks like what is in a box of another heap. -/
structure AlikeBox (h : Heap) (b : BoxId) (h' : Heap) (c : BoxId) : Prop where
  there : c.index < h'.boxes.size
  alike : h.Alike (h.value b) h' (h'.value c)

theorem Alike.key_eq {h h' : Heap} {v u : Value} (alike : h.Alike v h' u) (limit : Nat) :
    h'.key limit u = h.key limit v := by
  rw [key, key, alike.canonical, alike.kind]

section

variable {h h' : Heap}

theorem alike_list {l l' : ListId}
    (items : List.Forall₂ (h.AlikeBox · h' ·) (h.items l).toList (h'.items l').toList) :
    h.Alike (.list l) h' (.list l') := by
  refine ⟨rfl, fun n => ?_⟩
  cases n with
  | zero => rfl
  | succ n =>
    have parts := mapM_congr (items.imp fun b c same => same.alike.canonical n)
    simp only [canonical, parts]

theorem alike_dict {d d' : DictId}
    (entries : List.Forall₂
      (fun e e' => h.AlikeBox e.2.key h' e'.2.key ∧ h.AlikeBox e.2.value h' e'.2.value)
      (h.dictionary d).entries (h'.dictionary d').entries) :
    h.Alike (.dict d) h' (.dict d') := by
  refine ⟨rfl, fun n => ?_⟩
  cases n with
  | zero => rfl
  | succ n =>
    simp only [canonical, OrderedMap.values]
    congr 1
    refine mapM_congr (List.forall₂_map_left_iff.2 (List.forall₂_map_right_iff.2 ?_))
    refine entries.imp fun e e' same => ?_
    rw [same.1.alike.canonical, same.2.alike.canonical]

theorem alike_struct {i i' : InstanceId} (name : h'.structName i' = h.structName i)
    (fields : List.Forall₂ (fun e e' => e'.1 = e.1 ∧ h.AlikeBox e.2 h' e'.2)
      (h.instanceAt i).fields.entries (h'.instanceAt i').fields.entries) :
    h.Alike (.struct i) h' (.struct i') := by
  refine ⟨rfl, fun n => ?_⟩
  cases n with
  | zero => rfl
  | succ n =>
    simp only [canonical, name]
    congr 1
    refine mapM_congr (fields.imp fun e e' same => ?_)
    rw [same.2.alike.canonical, same.1]

end

end Heap

end Shiba

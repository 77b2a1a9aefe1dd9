import Shiba.Proofs.Heap.Reach

/-!
# Deep copies look like what they are copies of

A deep copy adds to the heap and leaves what is there as it is.  When it comes to an end, the copy is made
of new boxes and containers, which stand to each other as those of the value do; and it does come to an end
for a value that has a canonical form.

* `Heap.Copied h k n v u`: in the later heap `k`, the value `u` is a deep copy of the value `v` of `h`.
* `Heap.Copied.alike`: a deep copy has the kind and the canonical form of the value.
* `HeapM.Adds`: a step that makes a heap grow, with what is known of its answer, and when it has one.
* `HeapM.adds_cloneValue`, `HeapM.adds_clone` are the statements.
-/

namespace Shiba

namespace Heap

/-! ## Copies -/

/-- A box or container that a heap has and an earlier one had not. -/
structure Added (h k : Heap) (p : Node) : Prop where
  new : ¬ h.Has p
  there : k.Has p

/-- The value `u` of the heap `k` is a deep copy of the value `v` of the heap `h`, which is nested no deeper
than the limit.  Containers are copied to new ones with new boxes in the same places; the entries of a
dictionary stay filed under the same keys, and an instance keeps its definition. -/
def Copied (h k : Heap) : (limit : Nat) → (v u : Value) → Prop
  | 0, _, _ => False
  | limit + 1, v, u =>
    let inside (b c : BoxId) : Prop :=
      Added h k (.box c) ∧ Copied h k limit (h.value b) (k.value c)
    match v with
    | .list l => ∃ l', u = .list l' ∧ Added h k (.container (.list l')) ∧
      List.Forall₂ inside (h.items l).toList (k.items l').toList
    | .dict d => ∃ d', u = .dict d' ∧ Added h k (.container (.dict d')) ∧
      List.Forall₂ (fun e e' => e'.1 = e.1 ∧ inside e.2.key e'.2.key ∧ inside e.2.value e'.2.value)
        (h.dictionary d).entries (k.dictionary d').entries
    | .struct i => ∃ i', u = .struct i' ∧ Added h k (.container (.struct i')) ∧
      (k.instanceAt i').definition = (h.instanceAt i).definition ∧
      List.Forall₂ (fun e e' => e'.1 = e.1 ∧ inside e.2 e'.2)
        (h.instanceAt i).fields.entries (k.instanceAt i').fields.entries
    | v => u = v

/-- What is in the new box `c` is a deep copy of what is in the box `b`. -/
def CopiedBox (h k : Heap) (limit : Nat) (b c : BoxId) : Prop :=
  Added h k (.box c) ∧ Copied h k limit (h.value b) (k.value c)

section

variable {h k k' : Heap} {n : Nat} {v u : Value} {b c : BoxId} {p : Node}

theorem Grows.has (grows : h.Grows k) (there : h.Has p) : k.Has p := by
  match p, there with
  | .box b, there => exact Nat.lt_of_lt_of_le there grows.size_boxes
  | .container (.list l), there => exact Nat.lt_of_lt_of_le there (State.size_le_of_grown grows.lists)
  | .container (.dict d), there => exact Nat.lt_of_lt_of_le there (State.size_le_of_grown grows.dicts)
  | .container (.struct i), there =>
    exact Nat.lt_of_lt_of_le there (State.size_le_of_grown grows.instances)

theorem Added.grown (added : Added h k p) (grows : k.Grows k') : Added h k' p :=
  ⟨added.new, grows.has added.there⟩

/-- What a later heap had not, an earlier one had not. -/
theorem Added.since (added : Added k k' p) (grows : h.Grows k) : Added h k' p :=
  ⟨fun there => added.new (grows.has there), added.there⟩

/-- A copy stays a copy while the heap grows. -/
theorem Copied.grown (copied : Copied h k n v u) (grows : k.Grows k') : Copied h k' n v u := by
  induction n generalizing v u with
  | zero => cases copied
  | succ n ih =>
    have inside : ∀ {b c}, CopiedBox h k n b c → CopiedBox h k' n b c := fun both => by
      refine ⟨both.1.grown grows, ?_⟩
      rw [grows.value_eq both.1.there]
      exact ih both.2
    cases v with
    | list l =>
      obtain ⟨l', rfl, added, each⟩ := copied
      refine ⟨l', rfl, added.grown grows, ?_⟩
      rw [grows.items_eq added.there]
      exact each.imp fun _ _ => inside
    | dict d =>
      obtain ⟨d', rfl, added, each⟩ := copied
      refine ⟨d', rfl, added.grown grows, ?_⟩
      rw [grows.dictionary_eq added.there]
      exact each.imp fun _ _ both => ⟨both.1, inside both.2.1, inside both.2.2⟩
    | struct i =>
      obtain ⟨i', rfl, added, definition, each⟩ := copied
      refine ⟨i', rfl, added.grown grows, ?_⟩
      rw [grows.instanceAt_eq added.there]
      exact ⟨definition, each.imp fun _ _ both => ⟨both.1, inside both.2⟩⟩
    | nil | bool | int | float | str | function | method | builtin | module | structDef => exact copied

theorem CopiedBox.grown (copied : CopiedBox h k n b c) (grows : k.Grows k') : CopiedBox h k' n b c := by
  refine ⟨copied.1.grown grows, ?_⟩
  rw [grows.value_eq copied.1.there]
  exact copied.2.grown grows

theorem Copied.knows (copied : Copied h k n v u) (knows : h.Knows v) (grows : h.Grows k) : k.Knows u := by
  cases n with
  | zero => cases copied
  | succ n =>
    cases v with
    | list | dict | struct =>
      obtain ⟨_, rfl, added, -⟩ := copied
      exact added.there
    | nil | bool | int | float | str | function | method | builtin | module | structDef =>
      obtain rfl : u = _ := copied
      exact knows.mono grows

/-- A deep copy has the kind and the canonical form of the value. -/
theorem Copied.alike (copied : Copied h k n v u) (sound : h.Sound) (knows : h.Knows v)
    (grows : h.Grows k) : h.Alike v k u := by
  induction n generalizing v u with
  | zero => cases copied
  | succ n ih =>
    have inside : ∀ {b c}, CopiedBox h k n b c → h.AlikeBox b k c := fun both =>
      ⟨both.1.there, ih both.2 (sound.value _)⟩
    cases v with
    | list l =>
      obtain ⟨l', rfl, -, each⟩ := copied
      exact alike_list (each.imp fun _ _ => inside)
    | dict d =>
      obtain ⟨d', rfl, -, each⟩ := copied
      exact alike_dict (each.imp fun _ _ both => ⟨inside both.2.1, inside both.2.2⟩)
    | struct i =>
      obtain ⟨i', rfl, -, definition, each⟩ := copied
      refine alike_struct ?_ (each.imp fun _ _ both => ⟨both.1, inside both.2⟩)
      rw [structName, structName, definition, structDef, structDef, grows.structs]
    | nil | bool | int | float | str | function | method | builtin | module | structDef =>
      obtain rfl : u = _ := copied
      exact ⟨rfl, fun m => (sound.preserves grows).canonical_eq m knows⟩

theorem CopiedBox.alike (copied : CopiedBox h k n b c) (sound : h.Sound) (grows : h.Grows k) :
    h.AlikeBox b k c :=
  ⟨copied.1.there, copied.2.alike sound (sound.value b) grows⟩

end

end Heap

/-! ## Steps that add to a heap -/

namespace HeapM

open Heap

variable {α β : Type} {h : Heap} {can can' : Prop}

/-- From a sound heap, a step makes a larger one that is sound again, `Q` holds of what it answers, and
it answers if it `can`. -/
def Adds (act : HeapM α) (h : Heap) (can : Prop) (Q : α → Heap → Prop) : Prop :=
  ∃ result h', act h = (result, h') ∧ h.Grows h' ∧ h'.Sound ∧ (∀ x, result = .ok x → Q x h') ∧
    (can → ∃ x, result = .ok x)

namespace Adds

variable {act : HeapM α} {f : α → HeapM β} {P Q : α → Heap → Prop} {R : β → Heap → Prop}

theorem pure {x : α} (sound : h.Sound) (here : Q x h) : Adds (Pure.pure x) h can Q := by
  refine ⟨.ok x, h, rfl, .refl h, sound, ?_, fun _ => ⟨x, rfl⟩⟩
  rintro y ⟨⟩
  exact here

theorem bind (first : Adds act h can P)
    (rest : ∀ x h', h.Grows h' → h'.Sound → P x h' → Adds (f x) h' can R) :
    Adds (act >>= f) h can R := by
  obtain ⟨result, h', run, grows, sound, after, answers⟩ := first
  have whole : (act >>= f) h = (ExceptT.bindCont f result : StateM Heap _) h' := by
    change (ExceptT.bindCont f (act h).1 : StateM Heap _) (act h).2 = _
    rw [run]
  cases result with
  | ok x =>
    obtain ⟨result, h'', run', grows', rest⟩ := rest x h' grows sound (after x rfl)
    exact ⟨result, h'', whole.trans run', grows.trans grows', rest⟩
  | error stop =>
    refine ⟨.error stop, h', whole, grows, sound, nofun, fun possible => ?_⟩
    obtain ⟨x, answered⟩ := answers possible
    cases answered

theorem get_bind {f : Heap → HeapM β} (rest : Adds (f h) h can R) : Adds (get >>= f) h can R := rest

theorem mono (adds : Adds act h can P) (fewer : can' → can)
    (weaker : ∀ x h', h.Grows h' → h'.Sound → P x h' → Q x h') : Adds act h can' Q := by
  obtain ⟨result, h', run, grows, sound, after, answers⟩ := adds
  exact ⟨result, h', run, grows, sound, fun x answered => weaker x h' grows sound (after x answered),
    fun possible => answers (fewer possible)⟩

/-- Steps for the elements of a list, with a relation that lasts while the heap grows. -/
theorem mapM {step : α → HeapM β} {S : Heap → α → β → Prop} (sound : h.Sound) (xs : List α)
    (stable : ∀ {k k' : Heap} {x y}, k.Sound → k.Grows k' → S k x y → S k' x y)
    (each : ∀ x ∈ xs, ∀ h', h.Grows h' → h'.Sound → Adds (step x) h' can fun y h'' => S h'' x y) :
    Adds (xs.mapM step) h can fun ys h' => List.Forall₂ (S h') xs ys := by
  induction xs generalizing h with
  | nil => exact pure sound .nil
  | cons x xs ih =>
    have ⟨here, later⟩ := List.forall_mem_cons.1 each
    rw [List.mapM_cons]
    refine bind (here h (.refl h) sound) fun y h' grows sound' done => ?_
    refine bind (ih sound' fun x' member h'' grows' => later x' member h'' (grows.trans grows'))
      fun ys h'' grows' sound'' rest => ?_
    exact pure sound'' (.cons (stable sound' grows' done) rest)

end Adds

/-! ## New parts of a heap -/

theorem getD_push {γ : Type} (xs : Array γ) (x : γ) (i : Nat) (default : γ) :
    (xs.push x).getD i default = if i = xs.size then x else xs.getD i default := by
  rw [Array.getD_eq_getD_getElem?, Array.getD_eq_getD_getElem?, Array.getElem?_push]
  split <;> rfl

theorem prefix_push {γ : Type} (xs : Array γ) (x : γ) : xs.toList <+: (xs.push x).toList := by
  rw [Array.toList_push]
  exact List.prefix_append _ _

section New

variable (sound : h.Sound)

include sound

theorem adds_alloc {v : Value} (knows : h.Knows v) :
    Adds (alloc v) h can fun b h' => h.Added h' (.box b) ∧ h'.value b = v := by
  let h' : Heap := { h with boxes := h.boxes.push v }
  have grows : h.Grows h' := { Grows.refl h with boxes := prefix_push _ _ }
  have sound' : h'.Sound := by
    refine ⟨fun b => ?_, ?_, ?_, ?_⟩
    · rw [value, getD_push]
      split
      · exact knows.mono grows
      · exact (sound.value b).mono grows
    · exact fun l b member => Nat.lt_of_lt_of_le (sound.items l b member) grows.size_boxes
    · exact fun d e member => ⟨Nat.lt_of_lt_of_le (sound.entries d e member).1 grows.size_boxes,
        Nat.lt_of_lt_of_le (sound.entries d e member).2 grows.size_boxes⟩
    · exact fun i b member => Nat.lt_of_lt_of_le (sound.fields i b member) grows.size_boxes
  refine ⟨.ok ⟨h.boxes.size⟩, h', rfl, grows, sound', ?_, fun _ => ⟨_, rfl⟩⟩
  rintro b ⟨⟩
  refine ⟨⟨Nat.lt_irrefl _, by simp [Has, h']⟩, ?_⟩
  rw [value, getD_push, if_pos rfl]

theorem adds_allocList {items : Array BoxId} (there : ∀ b ∈ items, b.index < h.boxes.size) :
    Adds (allocList items) h can fun l h' =>
      h.Added h' (.container (.list l)) ∧ h'.items l = items := by
  let h' : Heap := { h with lists := h.lists.push items }
  have grows : h.Grows h' := { Grows.refl h with lists := prefix_push _ _ }
  have sound' : h'.Sound := by
    refine ⟨fun b => (sound.value b).mono grows, fun l => ?_, sound.entries, sound.fields⟩
    rw [Heap.items, getD_push]
    split
    · exact there
    · exact sound.items l
  refine ⟨.ok ⟨h.lists.size⟩, h', rfl, grows, sound', ?_, fun _ => ⟨_, rfl⟩⟩
  rintro l ⟨⟩
  refine ⟨⟨Nat.lt_irrefl _, by simp [Has, h']⟩, ?_⟩
  rw [Heap.items, getD_push, if_pos rfl]

theorem adds_allocDict {m : Dictionary}
    (there : ∀ e ∈ m.values, e.key.index < h.boxes.size ∧ e.value.index < h.boxes.size) :
    Adds (allocDict m) h can fun d h' =>
      h.Added h' (.container (.dict d)) ∧ h'.dictionary d = m := by
  let h' : Heap := { h with dicts := h.dicts.push m }
  have grows : h.Grows h' := { Grows.refl h with dicts := prefix_push _ _ }
  have sound' : h'.Sound := by
    refine ⟨fun b => (sound.value b).mono grows, sound.items, fun d => ?_, sound.fields⟩
    rw [dictionary, getD_push]
    split
    · exact there
    · exact sound.entries d
  refine ⟨.ok ⟨h.dicts.size⟩, h', rfl, grows, sound', ?_, fun _ => ⟨_, rfl⟩⟩
  rintro d ⟨⟩
  refine ⟨⟨Nat.lt_irrefl _, by simp [Has, h']⟩, ?_⟩
  rw [dictionary, getD_push, if_pos rfl]

theorem adds_allocInstance {i : Instance} (there : ∀ b ∈ i.fields.values, b.index < h.boxes.size) :
    Adds (allocInstance i) h can fun j h' =>
      h.Added h' (.container (.struct j)) ∧ h'.instanceAt j = i := by
  let h' : Heap := { h with instances := h.instances.push i }
  have grows : h.Grows h' := { Grows.refl h with instances := prefix_push _ _ }
  have sound' : h'.Sound := by
    refine ⟨fun b => (sound.value b).mono grows, sound.items, sound.entries, fun j => ?_⟩
    rw [instanceAt, getD_push]
    split
    · exact there
    · exact sound.fields j
  refine ⟨.ok ⟨h.instances.size⟩, h', rfl, grows, sound', ?_, fun _ => ⟨_, rfl⟩⟩
  rintro j ⟨⟩
  refine ⟨⟨Nat.lt_irrefl _, by simp [Has, h']⟩, ?_⟩
  rw [instanceAt, getD_push, if_pos rfl]

end New

/-! ## Deep copies -/

section Clone

variable {inside : BoxId → HeapM BoxId} {n : Nat} {k : Heap} (sound : h.Sound)
  (each : ∀ {k : Heap} {b : BoxId}, h.Grows k → k.Sound → h.Has (.box b) →
    Adds (inside b) k (h.canonical n (h.value b)).isSome fun c k' => h.CopiedBox k' n b c)
  (grows : h.Grows k) (sound' : k.Sound)

include sound each grows sound'

theorem adds_cloneList {l : ListId} (there : h.Has (.container (.list l))) :
    Adds (cloneList inside l) k (h.canonical (n + 1) (.list l)).isSome fun u k' =>
      h.Copied k' (n + 1) (.list l) u := by
  apply Adds.get_bind
  rw [grows.items_eq there]
  apply Adds.bind (Adds.mapM (S := fun k b c => h.CopiedBox k n b c) sound' _
    (fun _ grows copied => copied.grown grows) ?_)
  · intro items k' grows' sound' copied
    have boxes : ∀ c ∈ items.toArray, c.index < k'.boxes.size := by
      intro c member
      obtain ⟨b, -, copied⟩ := exists_of_mem copied.flip (List.mem_toArray.1 member)
      exact copied.1.there
    apply Adds.bind (adds_allocList sound' boxes)
    intro l' k'' grows'' sound'' made
    refine .pure sound'' ⟨l', rfl, made.1.since (grows.trans grows'), ?_⟩
    rw [made.2]
    exact copied.imp fun b c copied => copied.grown grows''
  · intro b member k' grows' sound'
    refine (each (grows.trans grows') sound' (sound.items l b (Array.mem_toList_iff.1 member))).mono ?_
      fun _ _ _ _ => id
    exact fun possible => isSome_canonical_iff.1 possible _ rfl _ member

theorem adds_cloneDict {d : DictId} (there : h.Has (.container (.dict d))) :
    Adds (cloneDict inside d) k (h.canonical (n + 1) (.dict d)).isSome fun u k' =>
      h.Copied k' (n + 1) (.dict d) u := by
  let copied (k : Heap) (e e' : Key × Entry) : Prop :=
    e'.1 = e.1 ∧ h.CopiedBox k n e.2.key e'.2.key ∧ h.CopiedBox k n e.2.value e'.2.value
  apply Adds.get_bind
  rw [grows.dictionary_eq there]
  apply Adds.bind (Adds.mapM (S := copied) sound' _
    (fun _ grows both => ⟨both.1, both.2.1.grown grows, both.2.2.grown grows⟩) ?_)
  · intro entries k' grows' sound' copied
    have boxes : ∀ e ∈ (OrderedMap.mk entries).values,
        e.key.index < k'.boxes.size ∧ e.value.index < k'.boxes.size := by
      intro e member
      obtain ⟨entry, listed, rfl⟩ := List.mem_map.1 member
      obtain ⟨_, -, -, key, value⟩ := exists_of_mem copied.flip listed
      exact ⟨key.1.there, value.1.there⟩
    apply Adds.bind (adds_allocDict sound' boxes)
    intro d' k'' grows'' sound'' made
    refine .pure sound'' ⟨d', rfl, made.1.since (grows.trans grows'), ?_⟩
    rw [made.2]
    exact copied.imp fun e e' both => ⟨both.1, both.2.1.grown grows'', both.2.2.grown grows''⟩
  · intro e member k' grows' sound'
    have listed : e.2 ∈ (h.dictionary d).values := List.mem_map_of_mem member
    have parts (possible : (h.canonical (n + 1) (.dict d)).isSome) (b : BoxId)
        (part : b = e.2.key ∨ b = e.2.value) : (h.canonical n (h.value b)).isSome :=
      isSome_canonical_iff.1 possible _ rfl b (mem_contents_dict.2 ⟨e.2, listed, part⟩)
    have later := grows.trans grows'
    have ⟨key, value⟩ := sound.entries d e.2 listed
    apply Adds.bind ((each later sound' key).mono (fun possible => parts possible _ (.inl rfl))
      fun _ _ _ _ => id)
    intro key' k₁ grows₁ sound₁ keyCopied
    apply Adds.bind ((each (later.trans grows₁) sound₁ value).mono
      (fun possible => parts possible _ (.inr rfl)) fun _ _ _ _ => id)
    intro value' k₂ grows₂ sound₂ valueCopied
    exact .pure sound₂ ⟨rfl, keyCopied.grown grows₂, valueCopied⟩

theorem adds_cloneInstance {i : InstanceId} (there : h.Has (.container (.struct i))) :
    Adds (cloneInstance inside i) k (h.canonical (n + 1) (.struct i)).isSome fun u k' =>
      h.Copied k' (n + 1) (.struct i) u := by
  let copied (k : Heap) (e e' : String × BoxId) : Prop := e'.1 = e.1 ∧ h.CopiedBox k n e.2 e'.2
  apply Adds.get_bind
  rw [grows.instanceAt_eq there]
  apply Adds.bind (Adds.mapM (S := copied) sound' _
    (fun _ grows both => ⟨both.1, both.2.grown grows⟩) ?_)
  · intro fields k' grows' sound' copied
    have boxes : ∀ b ∈ (OrderedMap.mk fields).values, b.index < k'.boxes.size := by
      intro b member
      obtain ⟨entry, listed, rfl⟩ := List.mem_map.1 member
      obtain ⟨_, -, -, value⟩ := exists_of_mem copied.flip listed
      exact value.1.there
    apply Adds.bind (adds_allocInstance (i := ⟨_, ⟨fields⟩⟩) sound' boxes)
    intro j k'' grows'' sound'' made
    refine .pure sound'' ⟨j, rfl, made.1.since (grows.trans grows'), ?_⟩
    rw [made.2]
    exact ⟨rfl, copied.imp fun e e' both => ⟨both.1, both.2.grown grows''⟩⟩
  · intro e member k' grows' sound'
    have listed : e.2 ∈ (h.instanceAt i).fields.values := List.mem_map_of_mem member
    apply Adds.bind ((each (grows.trans grows') sound' (sound.fields i e.2 listed)).mono
      (fun possible => isSome_canonical_iff.1 possible (.struct i) rfl _ listed) fun _ _ _ _ => id)
    intro value k₁ _ sound₁ copied
    exact .pure sound₁ ⟨rfl, copied⟩

end Clone

section

variable {n : Nat} {k : Heap} {b : BoxId}

/-- A copy in a new box. -/
theorem adds_boxed (sound : h.Sound) (grows : h.Grows k) (same : k.value b = h.value b)
    (copies : Adds (cloneValue n (h.value b)) k can fun u k' => h.Copied k' n (h.value b) u) :
    Adds (clone n b) k can fun c k' => h.CopiedBox k' n b c := by
  change Adds (cloneValue n (k.value b) >>= alloc) k can _
  rw [same]
  apply Adds.bind copies
  intro u k' grows' sound' copied
  have later := grows.trans grows'
  refine (adds_alloc sound' (copied.knows (sound.value b) later)).mono id fun c k'' grows'' _ made => ?_
  refine ⟨made.1.since later, ?_⟩
  rw [made.2]
  exact copied.grown grows''

/-- What is copied of a value of a heap when the heap has grown.  The induction is on the depth that is
left. -/
theorem adds_cloneValue (n : Nat) {v : Value} (sound : h.Sound) (knows : h.Knows v) (grows : h.Grows k)
    (sound' : k.Sound) :
    Adds (cloneValue n v) k (h.canonical n v).isSome fun u k' => h.Copied k' n v u := by
  induction n generalizing k v with
  | zero => exact ⟨.error .tooDeep, k, rfl, .refl k, sound', nofun, nofun⟩
  | succ n ih =>
    have each {k : Heap} {b : BoxId} (grows : h.Grows k) (sound' : k.Sound) (there : h.Has (.box b)) :
        Adds (clone n b) k (h.canonical n (h.value b)).isSome fun c k' => h.CopiedBox k' n b c :=
      adds_boxed sound grows (grows.value_eq there) (ih (sound.value b) grows sound')
    cases v with
    | list l => exact adds_cloneList sound each grows sound' knows
    | dict d => exact adds_cloneDict sound each grows sound' knows
    | struct i => exact adds_cloneInstance sound each grows sound' knows
    | nil | bool | int | float | str | function | method | builtin | module | structDef =>
      exact .pure sound' rfl

/-- What is copied of a box of a heap when the heap has grown. -/
theorem adds_clone_later (n : Nat) (sound : h.Sound) (there : h.Has (.box b)) (grows : h.Grows k)
    (sound' : k.Sound) :
    Adds (clone n b) k (h.canonical n (h.value b)).isSome fun c k' => h.CopiedBox k' n b c :=
  adds_boxed sound grows (grows.value_eq there) (adds_cloneValue n sound (sound.value b) grows sound')

/-- A deep copy of what is in a box. -/
theorem adds_copy (n : Nat) (sound : h.Sound) (b : BoxId) :
    Adds (clone n b) h (h.canonical n (h.value b)).isSome fun c h' => h.CopiedBox h' n b c :=
  adds_boxed sound (.refl h) rfl (adds_cloneValue n sound (sound.value b) (.refl h) sound)

/-- A deep copy of what is in a box looks like it. -/
theorem adds_clone (n : Nat) (sound : h.Sound) (b : BoxId) :
    Adds (clone n b) h (h.canonical n (h.value b)).isSome fun c h' => h.AlikeBox b h' c :=
  (adds_copy n sound b).mono id fun _ _ grows _ copied => copied.alike sound grows

end

end HeapM

end Shiba

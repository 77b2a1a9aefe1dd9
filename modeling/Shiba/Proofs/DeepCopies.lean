import Shiba.Proofs.Zones.Reachable

/-!
# Deep copies are equal and independent

What a deep copy leads to is new, down to the keys of its dictionaries.  So it is equal to the original as
long as both stay as they are, and from then on each goes its own way: what is done to boxes and
dictionaries that only one of them leads to is not seen from the other.

* `Heap.Proper`: sound heaps, in which no dictionary files two entries under one key and no instance has
  two fields of one name.  The heaps of all reachable states are (`Reachable.proper`).
* `Heap.CopiedBox.added_of_reaches`, `Heap.CopiedBox.equal`: a deep copy is new and equal.
* `Heap.Elsewhere r h k`: the heap `k` has come from `h` by updates of what `r` does not lead to.
* `HeapM.clone_acyclic` is the statement.
-/

namespace Shiba

namespace Heap

/-- A sound heap with different keys in each dictionary and different names in each instance. -/
structure Proper (h : Heap) : Prop extends Sound h where
  keys : ∀ d, (h.dictionary d).keys.Nodup
  names : ∀ i, (h.instanceAt i).fields.keys.Nodup

end Heap

/-- The heaps of reachable states are proper. -/
theorem Reachable.proper {cfg : Config} {s : State} (reachable : Reachable cfg s) : s.heap.Proper where
  toSound := reachable.wellFormed.sound
  keys := reachable.filed.distinct
  names i := by
    rcases State.getD_mem_or s.heap.instances i.index default with listed | none
    · have shaped := reachable.wellFormed.instances _ listed
      exact shaped.fields ▸ (reachable.wellFormed.struct_ok shaped.definition).1
    · rw [Heap.instanceAt, none]
      exact List.nodup_nil

namespace Heap

variable {h k k' : Heap} {b c : BoxId} {v u : Value} {n m : Nat} {r p : Node}

/-! ## Copies are new -/

/-- What is directly inside a copy is new, and copied in turn. -/
theorem Copied.added (copied : Copied h k (n + 1) v u) {x : Container} (refers : u.container? = some x) :
    Added h k (.container x) ∧ ∀ c ∈ k.contents x, ∃ b, CopiedBox h k n b c := by
  cases v with
  | list l =>
    obtain ⟨l', rfl, added, each⟩ := copied
    cases refers
    refine ⟨added, fun c inside => ?_⟩
    obtain ⟨b, -, copied⟩ := exists_of_mem each.flip inside
    exact ⟨b, copied⟩
  | dict d =>
    obtain ⟨d', rfl, added, each⟩ := copied
    cases refers
    refine ⟨added, fun c inside => ?_⟩
    obtain ⟨_, valued, which⟩ := mem_contents_dict.1 inside
    obtain ⟨e', listed, rfl⟩ := List.mem_map.1 valued
    obtain ⟨e, -, -, key, value⟩ := exists_of_mem each.flip listed
    rcases which with rfl | rfl
    · exact ⟨e.2.key, key⟩
    · exact ⟨e.2.value, value⟩
  | struct i =>
    obtain ⟨i', rfl, added, -, each⟩ := copied
    cases refers
    refine ⟨added, fun c inside => ?_⟩
    obtain ⟨e', listed, rfl⟩ := List.mem_map.1 inside
    obtain ⟨e, -, -, copied⟩ := exists_of_mem each.flip listed
    exact ⟨e.2, copied⟩
  | nil | bool | int | float | str | function | method | builtin | module | structDef =>
    obtain rfl : u = _ := copied
    cases refers

/-- What a copy leads to is new.  The induction is on the depth of the copy, two steps at a time. -/
theorem CopiedBox.added_of_reaches (copied : CopiedBox h k n b c) (reaches : k.Reaches (.box c) p) :
    Added h k p := by
  induction n generalizing b c with
  | zero => cases copied.2
  | succ n ih =>
    obtain rfl | ⟨_, first, reaches⟩ := reaches.cases_head
    · exact copied.1
    cases first with
    | value refers =>
      obtain ⟨added, inside⟩ := copied.2.added refers
      obtain rfl | ⟨_, second, reaches⟩ := reaches.cases_head
      · exact added
      cases second with
      | content member =>
        obtain ⟨b, copied⟩ := inside _ member
        exact ih copied reaches

/-! ## Copies are equal -/

theorem forall₂_imp_left {α β : Type} {R S : α → β → Prop} {as : List α} {bs : List β}
    (all : List.Forall₂ R as bs) (imp : ∀ a ∈ as, ∀ b, R a b → S a b) : List.Forall₂ S as bs :=
  (forall₂_imp_of_mem (fun b a member => imp a member b) all.flip).flip

theorem map_fst_of_forall₂ {α β γ : Type} {R : α × β → α × γ → Prop} {as : List (α × β)}
    {bs : List (α × γ)} (all : List.Forall₂ (fun e e' => e'.1 = e.1 ∧ R e e') as bs) :
    bs.map (·.1) = as.map (·.1) := by
  induction all with
  | nil => rfl
  | cons here _ ih => rw [List.map_cons, List.map_cons, here.1, ih]

/-- A copy is nested as deep as the value. -/
theorem Copied.of_canonical (copied : Copied h k m v u) (fits : (h.canonical n v).isSome) :
    Copied h k n v u := by
  induction n generalizing m v u with
  | zero => cases fits
  | succ n ih =>
    obtain ⟨m, rfl⟩ : ∃ m', m = m' + 1 := Nat.exists_eq_succ_of_ne_zero fun none => by
      rw [none] at copied
      cases copied
    have inside {x : Container} (refers : v.container? = some x) {b c : BoxId} (member : b ∈ h.contents x)
        (copied : CopiedBox h k m b c) : CopiedBox h k n b c :=
      ⟨copied.1, ih copied.2 (isSome_canonical_iff.1 fits x refers b member)⟩
    cases v with
    | list l =>
      obtain ⟨l', rfl, added, each⟩ := copied
      exact ⟨l', rfl, added, forall₂_imp_left each fun b member c => inside rfl member⟩
    | dict d =>
      obtain ⟨d', rfl, added, each⟩ := copied
      refine ⟨d', rfl, added, forall₂_imp_left each fun e member e' both => ⟨both.1, ?_, ?_⟩⟩
      · have listed := mem_contents_dict.2 ⟨e.2, List.mem_map_of_mem member, .inl rfl⟩
        exact inside rfl listed both.2.1
      · have listed := mem_contents_dict.2 ⟨e.2, List.mem_map_of_mem member, .inr rfl⟩
        exact inside rfl listed both.2.2
    | struct i =>
      obtain ⟨i', rfl, added, definition, each⟩ := copied
      refine ⟨i', rfl, added, definition, forall₂_imp_left each fun e member e' both => ⟨both.1, ?_⟩⟩
      exact inside (x := .struct i) rfl (List.mem_map_of_mem member) both.2
    | nil | bool | int | float | str | function | method | builtin | module | structDef => exact copied

theorem equal_struct {i j : InstanceId} (definition : (h.instanceAt i).definition = (h.instanceAt j).definition)
    (distinct : (h.instanceAt j).fields.keys.Nodup)
    (fields : List.Forall₂ (fun e e' => e'.1 = e.1 ∧ h.equal n (h.value e.2) (h.value e'.2) = .ok true)
      (h.instanceAt i).fields.entries (h.instanceAt j).fields.entries) :
    h.equal (n + 1) (.struct i) (.struct j) = .ok true := by
  simp only [equal]
  rw [if_neg (not_not.2 definition)]
  refine allM_of_forall fun e member => ?_
  obtain ⟨e', listed, name, same⟩ := exists_of_mem fields member
  rw [← name, OrderedMap.get?_of_mem_entries distinct listed]
  exact same

/-- There is no NaN in a box or in what it leads to: no float that is not equal to itself. -/
def WithoutNaN (h : Heap) (b : BoxId) : Prop :=
  ∀ c x, h.Reaches (.box b) (.box c) → h.value c = .float x → (x == x) = true

theorem WithoutNaN.inside (without : h.WithoutNaN b) {x : Container} (refers : (h.value b).container? = some x)
    (member : c ∈ h.contents x) : h.WithoutNaN c := by
  have steps : h.Reaches (.box b) (.box c) :=
    (Relation.ReflTransGen.single (.value refers)).tail (.content member)
  exact fun d y reaches => without d y (steps.trans reaches)

/-- A copy is equal to the value, unless there is a NaN in it. -/
theorem CopiedBox.equal (copied : CopiedBox h k n b c) (proper : h.Proper) (grows : h.Grows k)
    (there : h.Has (.box b)) (without : h.WithoutNaN b) :
    k.equal n (k.value b) (k.value c) = .ok true := by
  induction n generalizing b c with
  | zero => cases copied.2
  | succ n ih =>
    obtain ⟨-, copied⟩ := copied
    have knows := proper.value b
    have inside {x : Container} (refers : (h.value b).container? = some x) {b' c' : BoxId}
        (member : b' ∈ h.contents x) (copied : CopiedBox h k n b' c') :
        k.equal n (k.value b') (k.value c') = .ok true :=
      ih copied (proper.has_contents member) (without.inside refers member)
    rw [grows.value_eq there]
    cases here : h.value b with
    | list l =>
      rw [here] at copied knows inside
      obtain ⟨l', isCopy, -, each⟩ := copied
      rw [isCopy, equal_list_iff, grows.items_eq knows]
      exact forall₂_imp_left each fun b' member c' => inside rfl member
    | dict d =>
      rw [here] at copied knows inside
      obtain ⟨d', isCopy, -, each⟩ := copied
      have same := grows.dictionary_eq knows
      have keys : (k.dictionary d').keys = (h.dictionary d).keys := map_fst_of_forall₂ each
      rw [isCopy, equal_dict_iff (keys ▸ proper.keys d), same]
      · refine forall₂_imp_left each fun e member e' both => ?_
        exact inside rfl (mem_contents_dict.2 ⟨e.2, List.mem_map_of_mem member, .inr rfl⟩) both.2.2
      · rw [same]
        exact each.imp fun _ _ both => both.1.symm
    | struct i =>
      rw [here] at copied knows inside
      obtain ⟨i', isCopy, -, definition, each⟩ := copied
      have same := grows.instanceAt_eq knows
      have names : (k.instanceAt i').fields.keys = (h.instanceAt i).fields.keys := map_fst_of_forall₂ each
      rw [isCopy]
      refine equal_struct (same ▸ definition.symm) (names ▸ proper.names i) ?_
      rw [same]
      refine forall₂_imp_left each fun e member e' both => ⟨both.1, ?_⟩
      exact inside (x := .struct i) rfl (List.mem_map_of_mem member) both.2
    | float x =>
      rw [here] at copied
      rw [copied]
      simp [equal, without b x .refl here]
    | nil | bool | int | str | function | method | builtin | module | structDef =>
      rw [here] at copied
      rw [copied]
      simp [equal]

/-! ## Updates elsewhere -/

/-- The heap `k` has come from `h` by updates of boxes and dictionaries that `r` did not lead to when they
were made, and by additions. -/
inductive Elsewhere (r : Node) (h : Heap) : Heap → Prop
  | refl : Elsewhere r h h
  | write {k : Heap} (before : Elsewhere r h k) {b : BoxId} (apart : ¬ k.Reaches r (.box b)) (v : Value) :
    Elsewhere r h (k.write b v)
  | setDictionary {k : Heap} (before : Elsewhere r h k) {d : DictId}
    (apart : ¬ k.Reaches r (.container (.dict d))) (m : Dictionary) : Elsewhere r h (k.setDictionary d m)
  | grow {k k' : Heap} (before : Elsewhere r h k) (grows : k.Grows k') : Elsewhere r h k'

/-- What `r` leads to in the heap `h` is as it was in the heap `k`, and no list, no instance, no function and
no definition has changed. -/
structure Untouched (r : Node) (h k : Heap) : Prop where
  has : ∀ {p}, h.Has p → k.Has p
  value : ∀ {b}, h.Reaches r (.box b) → k.value b = h.value b
  items : ∀ {l}, h.Has (.container (.list l)) → k.items l = h.items l
  dictionary : ∀ {d}, h.Reaches r (.container (.dict d)) → k.dictionary d = h.dictionary d
  instanceAt : ∀ {i}, h.Has (.container (.struct i)) → k.instanceAt i = h.instanceAt i
  functions : k.functions = h.functions
  structs : k.structs = h.structs

theorem Untouched.contents_eq (same : Untouched r h k) (sound : h.Sound) (there : h.Has r) {x : Container}
    (reaches : h.Reaches r (.container x)) : k.contents x = h.contents x := by
  have there := sound.has_of_reaches (.refl h) there reaches
  cases x with
  | list l => rw [contents, contents, same.items there]
  | dict d => rw [contents, contents, same.dictionary reaches]
  | struct i => rw [contents, contents, same.instanceAt there]

/-- The root leads to what it led to. -/
theorem Untouched.reaches (same : Untouched r h k) (sound : h.Sound) (there : h.Has r)
    (reaches : h.Reaches r p) : k.Reaches r p := by
  induction reaches with
  | refl => exact .refl
  | tail before step ih =>
    cases step with
    | value refers => exact ih.tail (.value (by rwa [same.value before]))
    | content inside => exact ih.tail (.content (by rwa [same.contents_eq sound there before]))

theorem has_write (h : Heap) (b : BoxId) (v : Value) : (h.write b v).Has p ↔ h.Has p := by
  match p with
  | .box _ => simp [Has, Heap.write]
  | .container (.list _) | .container (.dict _) | .container (.struct _) => exact Iff.rfl

theorem has_setDictionary (h : Heap) (d : DictId) (m : Dictionary) :
    (h.setDictionary d m).Has p ↔ h.Has p := by
  match p with
  | .container (.dict _) => simp [Has, setDictionary]
  | .box _ | .container (.list _) | .container (.struct _) => exact Iff.rfl

/-- Updates of what a root does not lead to leave what it leads to untouched.  The induction is on the
updates; each finds the root leading to what it led to. -/
theorem Elsewhere.untouched (elsewhere : Elsewhere r h k) (sound : h.Sound) (there : h.Has r) :
    Untouched r h k := by
  induction elsewhere with
  | refl => exact ⟨id, fun _ => rfl, fun _ => rfl, fun _ => rfl, fun _ => rfl, rfl, rfl⟩
  | @write k _ b apart v ih =>
    refine { ih with has := fun here => (has_write k b v).2 (ih.has here), value := fun {c} reaches => ?_ }
    have other : c ≠ b := by
      rintro rfl
      exact apart (ih.reaches sound there reaches)
    rw [value_write_of_ne k v other, ih.value reaches]
  | @setDictionary k _ d apart m ih =>
    refine { ih with
      has := fun here => (has_setDictionary k d m).2 (ih.has here), dictionary := fun {c} reaches => ?_ }
    have other : c ≠ d := by
      rintro rfl
      exact apart (ih.reaches sound there reaches)
    rw [dictionary_set_of_ne k m other, ih.dictionary reaches]
  | @grow k k' _ grows ih =>
    have known {p : Node} (reaches : h.Reaches r p) : k.Has p :=
      ih.has (sound.has_of_reaches (.refl h) there reaches)
    exact {
      has := fun here => grows.has (ih.has here)
      value := fun reaches => (grows.value_eq (known reaches)).trans (ih.value reaches)
      items := fun here => (grows.items_eq (ih.has here)).trans (ih.items here)
      dictionary := fun reaches => (grows.dictionary_eq (known reaches)).trans (ih.dictionary reaches)
      instanceAt := fun here => (grows.instanceAt_eq (ih.has here)).trans (ih.instanceAt here)
      functions := grows.functions.trans ih.functions
      structs := grows.structs.trans ih.structs }

/-- A box keeps its canonical form while updates are made elsewhere. -/
theorem Elsewhere.canonical_eq (elsewhere : Elsewhere (.box b) h k) (sound : h.Sound) (there : h.Has (.box b))
    (n : Nat) : k.canonical n (k.value b) = h.canonical n (h.value b) := by
  have same := elsewhere.untouched sound there
  let Reached (v : Value) : Prop := ∃ c, h.Reaches (.box b) (.box c) ∧ h.value c = v
  have container {v : Value} {x : Container} (reached : Reached v) (refers : v.container? = some x) :
      h.Reaches (.box b) (.container x) := by
    obtain ⟨c, reaches, rfl⟩ := reached
    exact reaches.tail (.value refers)
  have inside {x : Container} {c : BoxId} (reaches : h.Reaches (.box b) (.container x))
      (member : c ∈ h.contents x) : k.value c = h.value c ∧ Reached (h.value c) :=
    have reaches := reaches.tail (.content member)
    ⟨same.value reaches, c, reaches, rfl⟩
  have preserves : Preserves Reached h k := by
    refine ⟨fun l reached => ?_, fun d reached => ?_, fun i reached => ?_, fun f _ => ?_,
      fun f i reached => ?_, fun d _ => ?_⟩
    · have reaches := container reached rfl
      exact ⟨same.items (sound.has_of_reaches (.refl h) there reaches), fun c member =>
        inside reaches (Array.mem_toList_iff.2 member)⟩
    · have reaches := container reached rfl
      exact ⟨same.dictionary reaches, fun e listed =>
        ⟨inside reaches (mem_contents_dict.2 ⟨e, listed, .inl rfl⟩),
          inside reaches (mem_contents_dict.2 ⟨e, listed, .inr rfl⟩)⟩⟩
    · have reaches := container reached rfl
      have here := same.instanceAt (sound.has_of_reaches (.refl h) there reaches)
      refine ⟨here, ?_, fun c member => inside reaches member⟩
      rw [structName, structName, here, structDef, structDef, same.structs]
    · rw [function, function, same.functions]
    · obtain ⟨c, -, holds⟩ := reached
      have known : h.Has (.container (.struct i)) := by
        have knows := sound.value c
        rwa [holds] at knows
      rw [function, function, same.functions, structName, structName, same.instanceAt known, structDef,
        structDef, same.structs]
      exact ⟨rfl, rfl⟩
    · rw [structDef, structDef, same.structs]
  rw [same.value .refl]
  exact preserves.canonical_eq n ⟨b, .refl, rfl⟩

end Heap

/-! ## The statement -/

namespace HeapM

open Heap

/-- In a proper heap, a box that leads to no cycle can be copied under every bound that its depth does not
exceed, that is, under which it has a canonical form.  What was there stays as it was; all that the copy
leads to is new; keys, fields and elements stand where they stood.  The copy has the canonical form of the
original and is filed under the same key, and it is equal to the original where there is no NaN.  The two
lead to nothing in common, and each keeps its canonical form through all updates of what it does not lead
to. -/
theorem clone_acyclic {h : Heap} {b : BoxId} (proper : h.Proper) (there : h.Has (.box b))
    (acyclic : h.Acyclic (.box b)) :
    (∃ depth text, ∀ n, depth ≤ n → h.canonical n (h.value b) = some text) ∧
      ∀ limit, (h.canonical limit (h.value b)).isSome →
        ∃ c h', clone limit b h = (.ok c, h') ∧ h.Grows h' ∧
          (∀ p, h'.Reaches (.box c) p → h'.Has p ∧ ¬ h.Has p) ∧
          (∀ n, (h.canonical n (h.value b)).isSome → h.CopiedBox h' n b c) ∧
          (∀ n, h'.canonical n (h'.value c) = h.canonical n (h.value b) ∧
            h'.key n (h'.value c) = h.key n (h.value b)) ∧
          (h.WithoutNaN b → ∀ n, (h.canonical n (h.value b)).isSome →
            h'.equal n (h'.value b) (h'.value c) = .ok true) ∧
          (∀ p, h'.Reaches (.box b) p → ¬ h'.Reaches (.box c) p) ∧
          (∀ k, h'.Elsewhere (.box b) k → ∀ n, k.canonical n (k.value b) = h.canonical n (h.value b)) ∧
          ∀ k, h'.Elsewhere (.box c) k → ∀ n, k.canonical n (k.value c) = h.canonical n (h.value b) := by
  constructor
  · obtain ⟨depth, fits⟩ := canonical_of_acyclic proper.toSound there acyclic
    obtain ⟨text, isText⟩ := Option.isSome_iff_exists.1 fits
    exact ⟨depth, text, fun n le => canonical_mono le isText⟩
  intro limit fits
  obtain ⟨result, h', run, grows, sound', after, answers⟩ := adds_copy limit proper.toSound b
  obtain ⟨c, rfl⟩ := answers fits
  have copied := after c rfl
  have alike := copied.alike proper.toSound grows
  have each {n : Nat} (fits : (h.canonical n (h.value b)).isSome) : h.CopiedBox h' n b c :=
    ⟨copied.1, copied.2.of_canonical fits⟩
  refine ⟨c, h', run, grows, fun p reaches => ?_, fun n => each, fun n => ?_, fun without n fits => ?_,
    fun p reaches reaches' => ?_, fun k elsewhere n => ?_, fun k elsewhere n => ?_⟩
  · have added := copied.added_of_reaches reaches
    exact ⟨added.there, added.new⟩
  · exact ⟨alike.alike.canonical n, alike.alike.key_eq n⟩
  · exact (each fits).equal proper grows there without
  · exact (copied.added_of_reaches reaches').new
      (proper.toSound.has_of_reaches grows there reaches)
  · rw [elsewhere.canonical_eq sound' (grows.has there), grows.value_eq there]
    exact (proper.toSound.preserves grows).canonical_eq n (proper.value b)
  · exact (elsewhere.canonical_eq sound' copied.1.there n).trans (alike.alike.canonical n)

/-- A dictionary holds a list twice and as a key; then the element of the list is overwritten. -/
theorem clone_acyclic_shared :
    let main := State.initial.load (.ofSource "main" "/" "")
    let set (name : String) (e : Expr) : Stmt := .assign .start .plain [.ident .start name] [e]
    let a : Expr := .ident .start "a"
    let s := (evalStmt .standard 9 ⟨⟨0⟩, 5⟩ (set "a" (.list .start [.literal .start (.int 1)])) main).2
    let t := (evalStmt .standard 9 ⟨⟨0⟩, 5⟩ (set "d" (.dict .start [(a, .list .start [a, a])])) s).2
    let h := t.heap
    h.Proper ∧ h.Acyclic (.box ⟨19⟩) ∧ h.WithoutNaN ⟨19⟩ ∧ ∃ c h', clone 5 ⟨19⟩ h = (.ok c, h') ∧
      h'.canonical 5 (h'.value c) = some "\x7b[1]: [[1], [1]]\x7d" ∧
      h'.equal 5 (h'.value ⟨19⟩) (h'.value c) = .ok true ∧
      let k := h'.write ⟨9⟩ .nil
      k.canonical 5 (k.value c) = some "\x7b[1]: [[1], [1]]\x7d" := by
  intro main set a s t h
  have begun : Running .standard ⟨0⟩ main :=
    ⟨.register .initial rfl, State.hasModule_load State.initial _⟩
  have first : Running .standard ⟨0⟩ s := begun.evalStmt 9 5 _
  have second : Running .standard ⟨0⟩ t := first.evalStmt 9 5 _
  have proper : h.Proper := second.reachable.proper
  have size : h.boxes.size = 20 := by decide +kernel
  have isText : h.canonical 5 (h.value ⟨19⟩) = some "\x7b[1]: [[1], [1]]\x7d" := by decide +kernel
  have fits : (h.canonical 5 (h.value ⟨19⟩)).isSome := Option.isSome_of_eq_some isText
  have there {i : Nat} (lt : i < 20) : h.Has (.box ⟨i⟩) := Nat.lt_of_lt_of_eq lt size.symm
  have without : h.WithoutNaN ⟨19⟩ := by
    intro c x reaches isFloat
    have none : ∀ i < 20, (h.value ⟨i⟩).kind ≠ .float := by decide +kernel
    have known : c.index < 20 :=
      Nat.lt_of_lt_of_eq (proper.toSound.has_of_reaches (.refl h) (there (by decide)) reaches) size
    exact absurd (congrArg Value.kind isFloat) (none c.index known)
  have acyclic := acyclic_of_canonical fits
  obtain ⟨-, copies⟩ := clone_acyclic proper (there (by decide)) acyclic
  obtain ⟨c, h', run, -, new, -, same, equal, -, -, independent⟩ := copies 5 fits
  refine ⟨proper, acyclic, without, c, h', run, (same 5).1.trans isText, equal without 5 fits, ?_⟩
  have apart : ¬ h'.Reaches (.box c) (.box ⟨9⟩) := fun reaches =>
    (new _ reaches).2 (there (by decide))
  exact (independent _ (.write .refl apart .nil) 5).trans isText

end HeapM

end Shiba

import Mathlib.Data.Fintype.Card
import Mathlib.Data.Set.Finite.Basic
import Mathlib.Logic.Relation
import Shiba.Proofs.Heap.Growth
import Shiba.Proofs.Keys.Digest

/-!
# What a box leads to

A box leads to the list, the dictionary or the instance that its value refers to, and these lead to the
boxes inside them.  A method does not lead to its receiver.

* `Heap.Reaches h p q`: from the box or container `p`, the box or container `q` is reached.
* `Heap.Acyclic h p`: nothing that is reached from `p` is reached from itself.
* `Heap.canonical_of_acyclic`, `Heap.acyclic_of_canonical`: the value of a box has a canonical form if the box
  is acyclic, and only then.
-/

namespace Shiba

/-- The lists, dictionaries and instances of a heap. -/
inductive Container where
  | list (l : ListId)
  | dict (d : DictId)
  | struct (i : InstanceId)

/-- The container a value refers to. -/
def Value.container? : Value → Option Container
  | .list l => some (.list l)
  | .dict d => some (.dict d)
  | .struct i => some (.struct i)
  | _ => none

/-- The boxes and containers of a heap. -/
inductive Node where
  | box (b : BoxId)
  | container (x : Container)

namespace Heap

variable {h k : Heap} {p q : Node} {b : BoxId} {v : Value} {n : Nat}

/-- The boxes inside a container: elements, keys and values, or fields. -/
def contents (h : Heap) : Container → List BoxId
  | .list l => (h.items l).toList
  | .dict d => (h.dictionary d).values.flatMap fun e => [e.key, e.value]
  | .struct i => (h.instanceAt i).fields.values

/-- A box or container was given out. -/
def Has (h : Heap) : Node → Prop
  | .box b => b.index < h.boxes.size
  | .container (.list l) => l.index < h.lists.size
  | .container (.dict d) => d.index < h.dicts.size
  | .container (.struct i) => i.index < h.instances.size

/-- A box refers to a container, or a container has a box inside. -/
inductive Refers (h : Heap) : Node → Node → Prop
  | value {b : BoxId} {x : Container} (refers : (h.value b).container? = some x) :
    Refers h (.box b) (.container x)
  | content {x : Container} {b : BoxId} (inside : b ∈ h.contents x) : Refers h (.container x) (.box b)

/-- What is reached from a box or container, itself among it. -/
abbrev Reaches (h : Heap) : Node → Node → Prop := Relation.ReflTransGen h.Refers

/-- Nothing that is reached is reached from itself in one step or more. -/
def Acyclic (h : Heap) (p : Node) : Prop :=
  ∀ q, h.Reaches p q → ¬ Relation.TransGen h.Refers q q

/-! ## Sound heaps -/

theorem mem_contents_dict {d : DictId} : b ∈ h.contents (.dict d) ↔
    ∃ e ∈ (h.dictionary d).values, b = e.key ∨ b = e.value := by
  simp [contents]

theorem Knows.has {x : Container} (knows : h.Knows v) (refers : v.container? = some x) :
    h.Has (.container x) := by
  cases v with
  | list | dict | struct =>
    cases refers
    exact knows
  | nil | bool | int | float | str | function | method | builtin | module | structDef => cases refers

theorem Sound.has_contents (sound : h.Sound) {x : Container} (inside : b ∈ h.contents x) :
    h.Has (.box b) := by
  cases x with
  | list l => exact sound.items l b (Array.mem_toList_iff.1 inside)
  | dict d =>
    obtain ⟨e, listed, rfl | rfl⟩ := mem_contents_dict.1 inside
    · exact (sound.entries d e listed).1
    · exact (sound.entries d e listed).2
  | struct i => exact sound.fields i b inside

theorem Grows.contents_eq (grows : h.Grows k) {x : Container} (there : h.Has (.container x)) :
    k.contents x = h.contents x := by
  cases x with
  | list l => rw [contents, contents, grows.items_eq there]
  | dict d => rw [contents, contents, grows.dictionary_eq there]
  | struct i => rw [contents, contents, grows.instanceAt_eq there]

/-- What is reached from a part of a sound heap was given out there, also when the heap has grown. -/
theorem Sound.has_of_reaches (sound : h.Sound) (grows : h.Grows k) (there : h.Has p)
    (reaches : k.Reaches p q) : h.Has q := by
  induction reaches with
  | refl => exact there
  | tail _ step there =>
    cases step with
    | value refers =>
      rw [grows.value_eq there] at refers
      exact (sound.value _).has refers
    | content inside =>
      rw [grows.contents_eq there] at inside
      exact sound.has_contents inside

/-- There are finitely many boxes and containers. -/
theorem finite_has (h : Heap) : {p | h.Has p}.Finite := by
  have boxes := (Set.finite_lt_nat h.boxes.size).image fun i => Node.box ⟨i⟩
  have lists := (Set.finite_lt_nat h.lists.size).image fun i => Node.container (.list ⟨i⟩)
  have dicts := (Set.finite_lt_nat h.dicts.size).image fun i => Node.container (.dict ⟨i⟩)
  have instances := (Set.finite_lt_nat h.instances.size).image fun i => Node.container (.struct ⟨i⟩)
  refine (boxes.union (lists.union (dicts.union instances))).subset fun p there => ?_
  match p, there with
  | .box b, there => exact .inl ⟨b.index, there, rfl⟩
  | .container (.list l), there => exact .inr (.inl ⟨l.index, there, rfl⟩)
  | .container (.dict d), there => exact .inr (.inr (.inl ⟨d.index, there, rfl⟩))
  | .container (.struct i), there => exact .inr (.inr (.inr ⟨i.index, there, rfl⟩))

/-! ## Canonical forms and depth -/

theorem isSome_mapM_iff {α β : Type} {f : α → Option β} {xs : List α} :
    (xs.mapM f).isSome ↔ ∀ x ∈ xs, (f x).isSome := by
  induction xs with
  | nil => simp
  | cons x xs ih =>
    rw [List.mapM_cons, List.forall_mem_cons, ← ih]
    cases f x <;> cases xs.mapM f <;> simp

/-- A value has a canonical form under a bound if and only if what is inside has one under the next. -/
theorem isSome_canonical_iff : (h.canonical (n + 1) v).isSome ↔
    ∀ x, v.container? = some x → ∀ b ∈ h.contents x, (h.canonical n (h.value b)).isSome := by
  have mapped {α : Type} (o : Option α) (f : α → String) : (do let a ← o; return f a).isSome = o.isSome := by
    cases o <;> rfl
  have paired (x y : Option String) : (do
      let key ← x
      let value ← y
      return key ++ ": " ++ value).isSome ↔ x.isSome ∧ y.isSome := by
    cases x <;> cases y <;> simp
  cases v with
  | list l =>
    simp only [canonical, mapped, isSome_mapM_iff]
    exact ⟨by rintro each x ⟨⟩; exact each, fun each => each _ rfl⟩
  | dict d =>
    simp only [canonical, mapped, isSome_mapM_iff, paired]
    constructor
    · rintro each x ⟨⟩ b inside
      obtain ⟨e, listed, rfl | rfl⟩ := mem_contents_dict.1 inside
      · exact (each e listed).1
      · exact (each e listed).2
    · intro each e listed
      exact ⟨each _ rfl _ (mem_contents_dict.2 ⟨e, listed, .inl rfl⟩),
        each _ rfl _ (mem_contents_dict.2 ⟨e, listed, .inr rfl⟩)⟩
  | struct i =>
    simp only [canonical, mapped, isSome_mapM_iff]
    constructor
    · rintro each x ⟨⟩ b inside
      obtain ⟨e, listed, rfl⟩ := List.mem_map.1 inside
      exact each e listed
    · intro each e listed
      exact each _ rfl _ (List.mem_map_of_mem listed)
  | nil | bool | int | float | str | function | method | builtin | module | structDef =>
    exact ⟨fun _ x refers => (by cases refers), fun _ => rfl⟩

theorem isSome_canonical_mono {m : Nat} (le : n ≤ m) (holds : (h.canonical n v).isSome) :
    (h.canonical m v).isSome := by
  obtain ⟨text, isText⟩ := Option.isSome_iff_exists.1 holds
  rw [canonical_mono le isText]
  rfl

/-- One bound does for finitely many boxes. -/
theorem exists_canonical_of_each {boxes : List BoxId}
    (each : ∀ b ∈ boxes, ∃ n, (h.canonical n (h.value b)).isSome) :
    ∃ n, ∀ b ∈ boxes, (h.canonical n (h.value b)).isSome := by
  induction boxes with
  | nil => exact ⟨0, nofun⟩
  | cons b boxes ih =>
    obtain ⟨⟨n, here⟩, later⟩ := List.forall_mem_cons.1 each
    obtain ⟨m, rest⟩ := ih later
    refine ⟨max n m, List.forall_mem_cons.2 ⟨isSome_canonical_mono (Nat.le_max_left n m) here, ?_⟩⟩
    exact fun c member => isSome_canonical_mono (Nat.le_max_right n m) (rest c member)

/-! ## Acyclic boxes -/

/-- From what leads to a cycle, a step can be taken towards it. -/
theorem exists_refers_of_cycle (reaches : h.Reaches p q) (cycle : Relation.TransGen h.Refers q q) :
    ∃ p', h.Refers p p' ∧ h.Reaches p' q :=
  Relation.TransGen.head'_iff.1 (Relation.TransGen.trans_right reaches cycle)

/-- What has a canonical form leads to no cycle.  The induction is on the bound. -/
theorem acyclic_of_canonical (holds : (h.canonical n (h.value b)).isSome) : h.Acyclic (.box b) := by
  intro q reaches cycle
  induction n generalizing b with
  | zero => cases holds
  | succ n ih =>
    obtain ⟨_, first, reaches⟩ := exists_refers_of_cycle reaches cycle
    cases first with
    | value refers =>
      obtain ⟨_, second, reaches⟩ := exists_refers_of_cycle reaches cycle
      cases second with
      | content inside => exact ih (isSome_canonical_iff.1 holds _ refers _ inside) reaches

/-- What leads to no cycle has a canonical form.  The induction is on the boxes that are reached: there are
finitely many, and none is reached from itself. -/
theorem canonical_of_acyclic (sound : h.Sound) (there : h.Has (.box b)) (acyclic : h.Acyclic (.box b)) :
    ∃ n, (h.canonical n (h.value b)).isSome := by
  let Reached := {c : BoxId // h.Reaches (.box b) (.box c)}
  have finite : Finite Reached := by
    have nodes := (finite_has h).subset fun q (reaches : h.Reaches (.box b) q) =>
      sound.has_of_reaches (.refl h) there reaches
    exact (nodes.preimage (Set.injOn_of_injective fun _ _ same => Node.box.inj same)).to_subtype
  let Below (c d : Reached) : Prop := Relation.TransGen h.Refers (.box d.1) (.box c.1)
  have : IsTrans Reached Below := ⟨fun _ _ _ first second => second.trans first⟩
  have : Std.Irrefl Below := ⟨fun c => acyclic _ c.2⟩
  suffices all : ∀ c : Reached, ∃ n, (h.canonical n (h.value c.1)).isSome from all ⟨b, .refl⟩
  intro c
  induction c using (Finite.wellFounded_of_trans_of_irrefl Below).induction with
  | _ c ih =>
    have inside : ∀ x, (h.value c.1).container? = some x →
        ∃ n, ∀ d ∈ h.contents x, (h.canonical n (h.value d)).isSome := by
      refine fun x refers => exists_canonical_of_each fun d inside => ?_
      have steps := (Relation.TransGen.single (Refers.value refers)).tail (.content inside)
      exact ih ⟨d, c.2.trans steps.to_reflTransGen⟩ steps
    cases refers : (h.value c.1).container? with
    | none => exact ⟨1, isSome_canonical_iff.2 fun x refers' => by cases refers.symm.trans refers'⟩
    | some x =>
      obtain ⟨n, each⟩ := inside x refers
      refine ⟨n + 1, isSome_canonical_iff.2 fun y refers' => ?_⟩
      cases refers.symm.trans refers'
      exact each

end Heap

end Shiba

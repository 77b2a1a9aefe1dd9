import Mathlib.Data.List.Perm.Basic
import Shiba.Proofs.Heap.Equality
import Shiba.Proofs.KeyEquality
import Shiba.Proofs.StoredKeys

/-!
# Equality is an equivalence relation

Comparing two dictionaries goes through the entries of the left one alone, and comparing two instances
through the fields of the left one.  That the right one has nothing else follows from what a heap of a run
is: the keys of a dictionary are all different, and instances of one definition have the same fields.  So
values without floats are equal if and only if one is the other with the entries of the dictionaries in it
listed in another order, at any depth outside of keys; and this is an equivalence relation.  Inside a key the
order does make a difference: a key is told by its digest, which lists the entries as they were inserted.

* `Heap.Comparable`: boxes that lead to no cycle and to no float.
* `Heap.Rearranged`: one value is the other up to the order of entries.
* `Heap.equal_iff_rearranged`: under one bound, equality is that relation.
* `equals_equivalence` is the statement, over all reachable states; `not_equal_of_other_order_in_key` is an
  order that is told apart.
-/

namespace Shiba

/-- What makes a value without contents the value it is: the number of a module does, its name does not. -/
def Value.nameless : Value → Value
  | .module m _ => .module m ""
  | v => v

namespace Heap

variable {h : Heap} {u v w : Value} {b c : BoxId} {n m : Nat}

/-! ## Comparable values -/

/-- A box does not lead to a float. -/
def WithoutFloat (h : Heap) (b : BoxId) : Prop :=
  ∀ c x, h.Reaches (.box b) (.box c) → h.value c ≠ .float x

theorem WithoutFloat.inside (without : h.WithoutFloat b) {x : Container}
    (refers : (h.value b).container? = some x) (member : c ∈ h.contents x) : h.WithoutFloat c := by
  have steps : h.Reaches (.box b) (.box c) :=
    (Relation.ReflTransGen.single (.value refers)).tail (.content member)
  exact fun d y reaches => without d y (steps.trans reaches)

/-- A box that leads to no cycle and to no float. -/
structure Comparable (h : Heap) (b : BoxId) : Prop where
  there : h.Has (.box b)
  acyclic : h.Acyclic (.box b)
  withoutFloat : h.WithoutFloat b

/-- The values in two boxes are equal, under some bound. -/
def Equals (h : Heap) (b c : BoxId) : Prop := ∃ limit, h.equal limit (h.value b) (h.value c) = .ok true

/-! ## Values up to the order of entries -/

/-- Two values are the same up to the order in which dictionaries list their entries, where what is inside is
told by `inside`.  The keys of a dictionary are told by what its entries are filed under. -/
inductive Matches (h : Heap) (inside : BoxId → BoxId → Prop) : Value → Value → Prop
  | list {l l' : ListId} (elements : List.Forall₂ inside (h.items l).toList (h.items l').toList) :
    Matches h inside (.list l) (.list l')
  | dict {d d' : DictId} {entries : List (Key × Entry)} (order : entries.Perm (h.dictionary d').entries)
    (values : List.Forall₂ (fun e e' => e'.1 = e.1 ∧ inside e.2.value e'.2.value) (h.dictionary d).entries
      entries) : Matches h inside (.dict d) (.dict d')
  | struct {i j : InstanceId} (definition : (h.instanceAt i).definition = (h.instanceAt j).definition)
    (fields : List.Forall₂ (fun e e' => e'.1 = e.1 ∧ inside e.2 e'.2) (h.instanceAt i).fields.entries
      (h.instanceAt j).fields.entries) : Matches h inside (.struct i) (.struct j)
  | atom {v w : Value} (isAtom : v.container? = none) (same : v.nameless = w.nameless) :
    Matches h inside v w

/-- One value is the other up to the order in which the dictionaries in it list their entries, where both are
nested no deeper than the limit. -/
def Rearranged (h : Heap) : (limit : Nat) → Value → Value → Prop
  | 0 => fun _ _ => False
  | limit + 1 => h.Matches fun b c => Rearranged h limit (h.value b) (h.value c)

theorem container?_eq_of_nameless (same : v.nameless = w.nameless) : v.container? = w.container? := by
  have kept (u : Value) : u.nameless.container? = u.container? := by cases u <;> rfl
  rw [← kept v, same, kept]

/-- The places of two sequences are matched, so those of a rearranged one are with a rearrangement. -/
theorem exists_perm_forall₂ {α β : Type} {R : α → β → Prop} {as : List α} {bs cs : List β}
    (order : bs.Perm cs) (each : List.Forall₂ R as bs) : ∃ ds, ds.Perm as ∧ List.Forall₂ R ds cs := by
  obtain ⟨ds, each', order'⟩ := List.perm_comp_forall₂ order.symm each.flip
  exact ⟨ds, order', each'.flip⟩

theorem forall₂_trans {α β γ : Type} {R : α → β → Prop} {S : β → γ → Prop} {T : α → γ → Prop} {as : List α}
    {bs : List β} {cs : List γ} (left : List.Forall₂ R as bs) (right : List.Forall₂ S bs cs)
    (both : ∀ {a b c}, R a b → S b c → T a c) : List.Forall₂ T as cs := by
  induction left generalizing cs with
  | nil =>
    cases right
    exact .nil
  | cons here _ ih =>
    cases right with
    | cons here' later => exact .cons (both here here') (ih later)

namespace Rearranged

/-- A value is itself. -/
theorem refl (fits : (h.canonical n v).isSome) : h.Rearranged n v v := by
  induction n generalizing v with
  | zero => cases fits
  | succ n ih =>
    have inside := isSome_canonical_iff.1 fits
    cases v with
    | list l => exact .list (List.forall₂_same.2 fun b member => ih (inside _ rfl b member))
    | dict d =>
      refine .dict (.refl _) (List.forall₂_same.2 fun e member => ⟨rfl, ih (inside _ rfl _ ?_)⟩)
      exact mem_contents_dict.2 ⟨e.2, List.mem_map_of_mem member, .inr rfl⟩
    | struct i =>
      exact .struct rfl (List.forall₂_same.2 fun e member =>
        ⟨rfl, ih (inside (.struct i) rfl _ (List.mem_map_of_mem member))⟩)
    | nil | bool | int | float | str | function | method | builtin | module | structDef =>
      exact .atom rfl rfl

theorem symm (same : h.Rearranged n v w) : h.Rearranged n w v := by
  induction n generalizing v w with
  | zero => exact same
  | succ n ih =>
    cases same with
    | list elements => exact .list (elements.flip.imp fun _ _ => ih)
    | dict order values =>
      -- the entries of the one are listed as the other lists its own
      obtain ⟨entries, order', values'⟩ := exists_perm_forall₂ order values
      exact .dict order' (values'.flip.imp fun _ _ both => ⟨both.1.symm, ih both.2⟩)
    | struct definition fields =>
      exact .struct definition.symm (fields.flip.imp fun _ _ both => ⟨both.1.symm, ih both.2⟩)
    | atom isAtom same => exact .atom ((container?_eq_of_nameless same).symm.trans isAtom) same.symm

theorem trans (first : h.Rearranged n u v) (second : h.Rearranged n v w) : h.Rearranged n u w := by
  induction n generalizing u v w with
  | zero => exact first
  | succ n ih =>
    cases first with
    | list elements =>
      cases second with
      | list elements' => exact .list (forall₂_trans elements elements' ih)
      | atom isAtom => cases isAtom
    | dict order values =>
      cases second with
      | dict order' values' =>
        obtain ⟨entries, values'', order''⟩ := List.perm_comp_forall₂ order values'
        refine .dict (order''.trans order') (forall₂_trans values values'' ?_)
        exact fun first second => ⟨second.1.trans first.1, ih first.2 second.2⟩
      | atom isAtom => cases isAtom
    | struct definition fields =>
      cases second with
      | struct definition' fields' =>
        refine .struct (definition.trans definition') (forall₂_trans fields fields' ?_)
        exact fun first second => ⟨second.1.trans first.1, ih first.2 second.2⟩
      | atom isAtom => cases isAtom
    | atom isAtom same =>
      have isAtom' := (container?_eq_of_nameless same).symm.trans isAtom
      cases second with
      | list | dict | struct => cases isAtom'
      | atom _ same' => exact .atom isAtom (same.trans same')

/-- Values that match are nested equally deep. -/
theorem of_canonical (same : h.Rearranged m v w) (fits : (h.canonical n v).isSome) : h.Rearranged n v w := by
  induction n generalizing m v w with
  | zero => cases fits
  | succ n ih =>
    rcases m with _ | m
    · cases same
    have inside := isSome_canonical_iff.1 fits
    cases same with
    | list elements =>
      exact .list (forall₂_imp_left elements fun b member c here => ih here (inside _ rfl b member))
    | dict order values =>
      refine .dict order (forall₂_imp_left values fun e member e' both => ⟨both.1, ih both.2 ?_⟩)
      exact inside _ rfl _ (mem_contents_dict.2 ⟨e.2, List.mem_map_of_mem member, .inr rfl⟩)
    | @struct i j definition fields =>
      refine .struct definition (forall₂_imp_left fields fun e member e' both => ⟨both.1, ih both.2 ?_⟩)
      exact inside (.struct i) rfl _ (List.mem_map_of_mem member)
    | atom isAtom same => exact .atom isAtom same

end Rearranged

/-! ## Equality is that relation -/

theorem forall₂_congr_of_mem {α β : Type} {R S : α → β → Prop} {as : List α} {bs : List β}
    (same : ∀ a ∈ as, ∀ b ∈ bs, (R a b ↔ S a b)) : List.Forall₂ R as bs ↔ List.Forall₂ S as bs := by
  rw [List.forall₂_iff_zip, List.forall₂_iff_zip]
  refine and_congr_right fun _ => ⟨fun each a b member => ?_, fun each a b member => ?_⟩
  all_goals obtain ⟨left, right⟩ := List.of_mem_zip member
  · exact (same a left b right).1 (each member)
  · exact (same a left b right).2 (each member)

/-- Values without contents are equal when they are the same, floats aside. -/
theorem equal_atom_iff (isAtom : v.container? = none) (notFloat : ∀ x, v ≠ .float x) :
    h.equal (n + 1) v w = .ok true ↔ v.nameless = w.nameless := by
  cases v with
  | list | dict | struct => cases isAtom
  | float x => exact absurd rfl (notFloat x)
  | nil | bool | int | str | function | method | builtin | module | structDef =>
    cases w <;> simp [equal, Value.nameless]

/-- A value that does not lead to floats is equal to another one, under a bound, if and only if it is that one
up to the order of entries. -/
theorem equal_iff_rearranged (regular : h.Regular) (there : h.Has (.box b)) (there' : h.Has (.box c))
    (without : h.WithoutFloat b) :
    h.equal n (h.value b) (h.value c) = .ok true ↔ h.Rearranged n (h.value b) (h.value c) := by
  induction n generalizing b c with
  | zero => exact ⟨nofun, nofun⟩
  | succ n ih =>
    have inside {x y : Container} (refers : (h.value b).container? = some x)
        (refers' : (h.value c).container? = some y) {b' c' : BoxId} (member : b' ∈ h.contents x)
        (member' : c' ∈ h.contents y) : h.equal n (h.value b') (h.value c') = .ok true ↔
          h.Rearranged n (h.value b') (h.value c') :=
      ih (regular.has_contents member) (regular.has_contents member') (without.inside refers member)
    have knows := regular.value b
    have knows' := regular.value c
    have notFloat : ∀ x, h.value b ≠ .float x := fun x => without b x .refl
    generalize h.value b = v at inside knows notFloat ⊢
    generalize h.value c = w at inside knows' ⊢
    cases v with
    | list l =>
      cases w with
      | list l' =>
        refine equal_list_iff.trans ((forall₂_congr_of_mem fun b' member c' member' =>
          inside rfl rfl member member').trans ⟨.list, fun same => ?_⟩)
        cases same with
        | list elements => exact elements
        | atom isAtom => cases isAtom
      | _ => exact ⟨nofun, fun same => by cases same with | atom isAtom => cases isAtom⟩
    | dict d =>
      cases w with
      | dict d' =>
        have value {e e' : Key × Entry} (member : e ∈ (h.dictionary d).entries)
            (member' : e' ∈ (h.dictionary d').entries) :=
          inside rfl rfl (mem_contents_dict.2 ⟨e.2, List.mem_map_of_mem member, .inr rfl⟩)
            (mem_contents_dict.2 ⟨e'.2, List.mem_map_of_mem member', .inr rfl⟩)
        rw [equal_dict_perm_iff regular.toProper]
        constructor
        · rintro ⟨entries, order, values⟩
          exact .dict order ((forall₂_congr_of_mem fun e member e' member' =>
            and_congr_right fun _ => value member (order.subset member')).1 values)
        · intro same
          cases same with
          | @dict _ _ entries order values =>
            exact ⟨entries, order, (forall₂_congr_of_mem fun e member e' member' =>
              and_congr_right fun _ => value member (order.subset member')).2 values⟩
          | atom isAtom => cases isAtom
      | _ => exact ⟨nofun, fun same => by cases same with | atom isAtom => cases isAtom⟩
    | struct i =>
      cases w with
      | struct j =>
        rw [equal_struct_iff regular knows knows', forall₂_congr_of_mem fun e member e' member' =>
          and_congr_right fun _ => inside (x := .struct i) (y := .struct j) rfl rfl
            (List.mem_map_of_mem member) (List.mem_map_of_mem member')]
        refine ⟨fun both => .struct both.1 both.2, fun same => ?_⟩
        cases same with
        | struct definition fields => exact ⟨definition, fields⟩
        | atom isAtom => cases isAtom
      | _ => exact ⟨nofun, fun same => by cases same with | atom isAtom => cases isAtom⟩
    | nil | bool | int | float | str | function | method | builtin | module | structDef =>
      refine (equal_atom_iff rfl notFloat).trans ⟨.atom rfl, fun same => ?_⟩
      cases same with
      | atom _ same => exact same

/-- One box holds what the other one does, up to the order in which dictionaries list their entries. -/
def Reordered (h : Heap) (b c : BoxId) : Prop := ∃ limit, h.Rearranged limit (h.value b) (h.value c)

/-- A box with a canonical form is comparable in a heap without floats. -/
theorem comparable_of_canonical (there : b.index < h.boxes.size) (fits : (h.canonical n (h.value b)).isSome)
    (noFloat : ∀ v ∈ h.boxes.toList, v.kind ≠ .float) : h.Comparable b where
  there := there
  acyclic := acyclic_of_canonical fits
  withoutFloat := by
    intro c x _ isFloat
    rw [value, Array.getD_eq_getD_getElem?] at isFloat
    cases found : h.boxes[c.index]? with
    | none =>
      rw [found] at isFloat
      cases isFloat
    | some v =>
      rw [found] at isFloat
      exact noFloat v (Array.mem_of_getElem? found).val (congrArg Value.kind isFloat)

theorem Comparable.equals_iff_reordered (left : h.Comparable b) (right : h.Comparable c)
    (regular : h.Regular) : h.Equals b c ↔ h.Reordered b c :=
  exists_congr fun _ => equal_iff_rearranged regular left.there right.there left.withoutFloat

/-- Values without floats compare alike under every bound that leaves room for the left one. -/
theorem Comparable.exists_answer (left : h.Comparable b) (right : h.Comparable c) (regular : h.Regular) :
    ∃ answer, (answer = true ↔ h.Equals b c) ∧ ∀ limit, (h.canonical limit (h.value b)).isSome →
      h.equal limit (h.value b) (h.value c) = .ok answer := by
  by_cases same : h.Equals b c
  · refine ⟨true, iff_of_true rfl same, fun limit fits => ?_⟩
    obtain ⟨_, rearranged⟩ := (left.equals_iff_reordered right regular).1 same
    exact (equal_iff_rearranged regular left.there right.there left.withoutFloat).2
      (rearranged.of_canonical fits)
  · refine ⟨false, iff_of_false nofun same, fun limit fits => ?_⟩
    obtain ⟨answer, compared⟩ := exists_equal regular (regular.value b) (regular.value c) fits
    cases answer with
    | false => exact compared
    | true => exact absurd ⟨limit, compared⟩ same

/-- Boxes are reordered one into the other as an equivalence relation.  Two rearrangements are put together
under a bound that leaves room for both. -/
theorem reordered_equivalence (regular : h.Regular) :
    Equivalence fun b c : {b // h.Comparable b} => h.Reordered b c where
  refl b := (canonical_of_acyclic regular.toSound b.2.there b.2.acyclic).imp fun _ => Rearranged.refl
  symm := Exists.imp fun _ => Rearranged.symm
  trans {b c d} := by
    rintro ⟨_, first⟩ ⟨_, second⟩
    obtain ⟨n, fits⟩ := canonical_of_acyclic regular.toSound b.2.there b.2.acyclic
    obtain ⟨m, fits'⟩ := canonical_of_acyclic regular.toSound c.2.there c.2.acyclic
    exact ⟨max n m,
      (first.of_canonical (isSome_canonical_mono (Nat.le_max_left n m) fits)).trans
        (second.of_canonical (isSome_canonical_mono (Nat.le_max_right n m) fits'))⟩

end Heap

/-- In every reachable state, comparing two boxes that lead to no cycle and to no float comes to one answer
under all bounds that leave room for the left one.  Being equal is an equivalence relation, and boxes that
differ only by the order of entries are equal to the same boxes. -/
theorem equals_equivalence {cfg : Config} {s : State} (reachable : Reachable cfg s) :
    (∀ b c, s.heap.Comparable b → s.heap.Comparable c → ∃ answer, (answer = true ↔ s.heap.Equals b c) ∧
      ∀ limit, (s.heap.canonical limit (s.heap.value b)).isSome →
        s.heap.equal limit (s.heap.value b) (s.heap.value c) = .ok answer) ∧
      (Equivalence fun b c : {b // s.heap.Comparable b} => s.heap.Equals b c) ∧
      ∀ b b' c c' : {b // s.heap.Comparable b}, s.heap.Reordered b b' → s.heap.Reordered c c' →
        (s.heap.Equals b c ↔ s.heap.Equals b' c') := by
  have regular := reachable.regular
  have laws := Heap.reordered_equivalence regular
  have same (b c : {b // s.heap.Comparable b}) : s.heap.Equals b c ↔ s.heap.Reordered b c :=
    b.2.equals_iff_reordered c.2 regular
  refine ⟨fun b c left right => left.exists_answer right regular, ?_, fun b b' c c' left right => ?_⟩
  · simpa only [same] using laws
  · rw [same, same]
    exact ⟨fun equal => laws.trans (laws.symm left) (laws.trans equal right),
      fun equal => laws.trans left (laws.trans equal (laws.symm right))⟩

/-- Two dictionaries with the same entries in different orders are equal to each other and to themselves. -/
theorem equals_equivalence_two_orders :
    let s := listOfTwo [numbered 1, numbered 2] [numbered 2, numbered 1]
    s.heap.Equals ⟨17⟩ ⟨27⟩ ∧ s.heap.Equals ⟨27⟩ ⟨17⟩ ∧
      s.heap.equal 5000 (s.heap.value ⟨27⟩) (s.heap.value ⟨17⟩) = .ok true := by
  intro s
  have reachable : Reachable .standard s := reachable_listOfTwo _ _
  have noFloat : ∀ v ∈ s.heap.boxes.toList, v.kind ≠ .float := by decide +kernel
  have fits : (s.heap.canonical 5000 (s.heap.value ⟨27⟩)).isSome := by decide +kernel
  have left : s.heap.Comparable ⟨17⟩ :=
    Heap.comparable_of_canonical (n := 5000) (by decide +kernel) (by decide +kernel) noFloat
  have right : s.heap.Comparable ⟨27⟩ :=
    Heap.comparable_of_canonical (by decide +kernel) fits noFloat
  have compared : s.heap.equal 5000 (s.heap.value ⟨17⟩) (s.heap.value ⟨27⟩) = .ok true :=
    Stop.eq_of_toOption (by decide +kernel)
  clear_value s
  obtain ⟨answers, laws, -⟩ := equals_equivalence reachable
  have equal : s.heap.Equals ⟨27⟩ ⟨17⟩ := laws.symm (x := ⟨_, left⟩) (y := ⟨_, right⟩) ⟨5000, compared⟩
  obtain ⟨answer, isTrue, given⟩ := answers ⟨27⟩ ⟨17⟩ right left
  exact ⟨⟨5000, compared⟩, equal, isTrue.2 equal ▸ given 5000 fits⟩

/-- The boxes of the entries of a dictionary. -/
def Heap.pairs (h : Heap) (d : DictId) : List (BoxId × BoxId) :=
  (h.dictionary d).entries.map fun e => (e.2.key, e.2.value)

/-- An entry with a dictionary as its key. -/
def keyedBy (entries : List (Expr × Expr)) : Expr × Expr := (.dict .start entries, .literal .start (.int 0))

/-- Two dictionaries with one entry each, which differ only by the order of the entries of the key, are not
equal. -/
theorem not_equal_of_other_order_in_key :
    let s := listOfTwo [keyedBy [numbered 1, numbered 2]] [keyedBy [numbered 2, numbered 1]]
    Reachable .standard s ∧ s.heap.Comparable ⟨24⟩ ∧ s.heap.Comparable ⟨42⟩ ∧
      (∃ d d' e e', s.heap.value ⟨24⟩ = .dict d ∧ s.heap.value ⟨42⟩ = .dict d' ∧
        s.heap.pairs d = [e] ∧ s.heap.pairs d' = [e'] ∧ s.heap.Reordered e.1 e'.1 ∧
        s.heap.Reordered e.2 e'.2) ∧
      ¬ s.heap.Equals ⟨24⟩ ⟨42⟩ := by
  intro s
  have reachable : Reachable .standard s := reachable_listOfTwo _ _
  have noFloat : ∀ v ∈ s.heap.boxes.toList, v.kind ≠ .float := by decide +kernel
  have fits : ∀ i ∈ [18, 23, 24, 36, 41, 42], i < s.heap.boxes.size ∧
      (s.heap.canonical 5000 (s.heap.value ⟨i⟩)).isSome := by decide +kernel
  have comparable (i : Nat) (listed : i ∈ [18, 23, 24, 36, 41, 42]) : s.heap.Comparable ⟨i⟩ :=
    Heap.comparable_of_canonical (fits i listed).1 (fits i listed).2 noFloat
  have first : s.heap.value ⟨24⟩ = .dict ⟨0⟩ := Value.eq_of_dict? (by decide +kernel)
  have second : s.heap.value ⟨42⟩ = .dict ⟨3⟩ := Value.eq_of_dict? (by decide +kernel)
  have entries : s.heap.pairs ⟨0⟩ = [(⟨23⟩, ⟨18⟩)] ∧ s.heap.pairs ⟨3⟩ = [(⟨41⟩, ⟨36⟩)] := by decide +kernel
  have keys : s.heap.equal 5000 (s.heap.value ⟨23⟩) (s.heap.value ⟨41⟩) = .ok true :=
    Stop.eq_of_toOption (by decide +kernel)
  have values : s.heap.equal 5000 (s.heap.value ⟨18⟩) (s.heap.value ⟨36⟩) = .ok true :=
    Stop.eq_of_toOption (by decide +kernel)
  have compared : (s.heap.equal 5000 (s.heap.value ⟨24⟩) (s.heap.value ⟨42⟩)).toOption = some false := by
    decide +kernel
  clear_value s
  have regular := reachable.regular
  have reordered {i j : Nat} (left : i ∈ [18, 23, 24, 36, 41, 42]) (right : j ∈ [18, 23, 24, 36, 41, 42]) :=
    (comparable i left).equals_iff_reordered (comparable j right) regular
  have left := comparable 24 (by decide)
  have right := comparable 42 (by decide)
  refine ⟨reachable, left, right, ⟨_, _, _, _, first, second, entries.1, entries.2,
    (reordered (by decide) (by decide)).1 ⟨_, keys⟩, (reordered (by decide) (by decide)).1 ⟨_, values⟩⟩,
    fun equal => ?_⟩
  obtain ⟨answer, isTrue, given⟩ := left.exists_answer right regular
  rw [given 5000 (fits 24 (by decide)).2, isTrue.2 equal] at compared
  cases compared

end Shiba

import Shiba.Proofs.DeepCopies

/-!
# What equality comes to

Comparing two values comes to an answer wherever one of them has a canonical form: the comparison goes no
deeper than the shallower of the two.  An instance never lacks a field of another one of its definition.

* `Heap.Regular`: proper heaps in which instances of one definition have the same fields.  The heaps of all
  reachable states are (`Reachable.regular`).
* `Heap.exists_equal`: there is an answer.
* `Heap.equal_dict_perm_iff`: dictionaries are equal when the entries of one can be listed in such an order
  that they are those of the other, place by place.
* `Heap.equal_copied`: deep copies of two values compare as the values do.
-/

namespace Shiba

namespace Heap

/-- A proper heap in which instances of one definition have the same fields. -/
structure Regular (h : Heap) : Prop extends Proper h where
  sameFields : ∀ i j, h.Has (.container (.struct i)) → h.Has (.container (.struct j)) →
    (h.instanceAt i).definition = (h.instanceAt j).definition →
    (h.instanceAt i).fields.keys = (h.instanceAt j).fields.keys

end Heap

/-- The heaps of reachable states are regular. -/
theorem Reachable.regular {cfg : Config} {s : State} (reachable : Reachable cfg s) : s.heap.Regular where
  toProper := reachable.proper
  sameFields i j here there same := by
    have wf := reachable.wellFormed
    rw [(wf.shaped here).fields, (wf.shaped there).fields, same]

namespace Heap

variable {h k : Heap} {u v w v' w' : Value} {b c : BoxId} {n m m' : Nat}

/-! ## There is an answer -/

theorem exists_allM {α : Type} {p : α → Except Stop Bool} {as : List α}
    (each : ∀ a ∈ as, ∃ answer, p a = .ok answer) : ∃ answer, as.allM p = .ok answer := by
  induction as with
  | nil => exact ⟨true, rfl⟩
  | cons a as ih =>
    obtain ⟨⟨here, isHere⟩, later⟩ := List.forall_mem_cons.1 each
    rw [List.allM, isHere]
    cases here with
    | false => exact ⟨false, rfl⟩
    | true => exact ih later

/-- A value that has a canonical form under a bound can be compared under it. -/
theorem exists_equal (regular : h.Regular) (knows : h.Knows v) (knows' : h.Knows w)
    (fits : (h.canonical n v).isSome) : ∃ answer, h.equal n v w = .ok answer := by
  induction n generalizing v w with
  | zero => cases fits
  | succ n ih =>
    have inside {x : Container} (refers : v.container? = some x) {b : BoxId} (member : b ∈ h.contents x)
        (c : BoxId) : ∃ answer, h.equal n (h.value b) (h.value c) = .ok answer :=
      ih (regular.value b) (regular.value c) (isSome_canonical_iff.1 fits x refers b member)
    cases v with
    | list l =>
      cases w with
      | list l' =>
        simp only [equal]
        split
        · exact ⟨false, rfl⟩
        · exact exists_allM fun e member => inside rfl (List.of_mem_zip member).1 e.2
      | _ => exact ⟨false, rfl⟩
    | dict d =>
      cases w with
      | dict d' =>
        simp only [equal]
        split
        · exact ⟨false, rfl⟩
        · refine exists_allM fun e member => ?_
          split
          · have listed := mem_contents_dict.2 ⟨e.2, List.mem_map_of_mem member, .inr rfl⟩
            exact inside rfl listed _
          · exact ⟨false, rfl⟩
      | _ => exact ⟨false, rfl⟩
    | struct i =>
      cases w with
      | struct j =>
        simp only [equal]
        split
        · exact ⟨false, rfl⟩
        · next same =>
          refine exists_allM fun e member => ?_
          have named : e.1 ∈ (h.instanceAt j).fields.keys := by
            rw [← regular.sameFields i j knows knows' (not_not.1 same)]
            exact List.mem_map_of_mem member
          obtain ⟨c, found⟩ := OrderedMap.exists_get?_of_mem_keys named
          rw [found]
          exact inside (x := .struct i) rfl (List.mem_map_of_mem member) c
      | _ => exact ⟨false, rfl⟩
    | nil | bool | int | float | str | function | method | builtin | module | structDef =>
      cases w <;> exact ⟨_, rfl⟩

/-! ## Dictionaries and instances -/

theorem exists_forall₂ {α β : Type} {R : α → β → Prop} {as : List α} (bs : List β)
    (each : ∀ a ∈ as, ∃ b ∈ bs, R a b) : ∃ cs, List.Forall₂ R as cs ∧ cs ⊆ bs := by
  induction as with
  | nil => exact ⟨[], .nil, List.nil_subset bs⟩
  | cons a as ih =>
    obtain ⟨⟨b, member, here⟩, later⟩ := List.forall_mem_cons.1 each
    obtain ⟨cs, rest, inside⟩ := ih later
    exact ⟨b :: cs, .cons here rest, List.cons_subset.2 ⟨member, inside⟩⟩

theorem paired_of_map_eq {α β γ : Type} {f : α → γ} {g : β → γ} {as : List α} {bs : List β}
    (same : as.map f = bs.map g) : List.Forall₂ (fun a b => g b = f a) as bs := by
  have all : List.Forall₂ (fun x y => y = x) (as.map f) (bs.map g) := by
    rw [same]
    exact List.forall₂_same.2 fun _ _ => rfl
  exact List.forall₂_map_left_iff.1 (List.forall₂_map_right_iff.1 all)

/-- Dictionaries are equal when the entries of one can be listed in such an order that they are filed under
the keys of the other and have equal values.  Each key of the one is found in the other; as there are as many
and all are different, none is left over. -/
theorem equal_dict_perm_iff (proper : h.Proper) {d d' : DictId} :
    h.equal (n + 1) (.dict d) (.dict d') = .ok true ↔
      ∃ entries, entries.Perm (h.dictionary d').entries ∧
        List.Forall₂ (fun e e' => e'.1 = e.1 ∧ h.equal n (h.value e.2.value) (h.value e'.2.value) = .ok true)
          (h.dictionary d).entries entries := by
  simp only [equal]
  constructor
  · intro same
    split at same
    · cases same
    · next sizes =>
      obtain ⟨entries, each, inside⟩ := exists_forall₂ (h.dictionary d').entries
        (R := fun e e' : Key × Entry =>
          e'.1 = e.1 ∧ h.equal n (h.value e.2.value) (h.value e'.2.value) = .ok true)
        fun e member => by
          have here := forall_of_allM same e member
          cases found : (h.dictionary d').get? e.1 with
          | none =>
            rw [found] at here
            cases here
          | some other =>
            rw [found] at here
            exact ⟨(e.1, other), OrderedMap.mem_entries_of_get? found, rfl, here⟩
      have keys : entries.map (·.1) = (h.dictionary d).keys := map_fst_of_forall₂ each
      have distinct : entries.Nodup := .of_map (·.1) (keys ▸ proper.keys d)
      have all : (h.dictionary d').entries.length ≤ entries.length := by
        rw [← each.length_eq]
        exact Nat.le_of_eq (not_not.1 sizes).symm
      exact ⟨entries, (List.subperm_of_subset distinct inside).perm_of_length_le all, each⟩
  · rintro ⟨entries, order, each⟩
    have sizes : (h.dictionary d).size = (h.dictionary d').size := each.length_eq.trans order.length_eq
    rw [if_neg (not_not.2 sizes)]
    refine allM_of_forall fun e member => ?_
    obtain ⟨e', listed, key, same⟩ := exists_of_mem each member
    rw [← key, OrderedMap.get?_of_mem_entries (proper.keys d') (order.subset listed)]
    exact same

/-- Instances are equal when they have one definition and their fields are equal, one by one. -/
theorem equal_struct_iff (regular : h.Regular) {i j : InstanceId} (here : h.Has (.container (.struct i)))
    (there : h.Has (.container (.struct j))) :
    h.equal (n + 1) (.struct i) (.struct j) = .ok true ↔
      (h.instanceAt i).definition = (h.instanceAt j).definition ∧
        List.Forall₂ (fun e e' => e'.1 = e.1 ∧ h.equal n (h.value e.2) (h.value e'.2) = .ok true)
          (h.instanceAt i).fields.entries (h.instanceAt j).fields.entries := by
  constructor
  · intro same
    simp only [equal] at same
    split at same
    · cases same
    · next definition =>
      have definition := not_not.1 definition
      have paired := paired_of_map_eq (regular.sameFields i j here there definition)
      rw [List.forall₂_iff_zip] at paired ⊢
      refine ⟨definition, paired.1, fun {e e'} member => ⟨paired.2 member, ?_⟩⟩
      obtain ⟨left, right⟩ := List.of_mem_zip member
      have compared := forall_of_allM same e left
      rw [← paired.2 member, OrderedMap.get?_of_mem_entries (regular.names j) right] at compared
      exact compared
  · rintro ⟨definition, fields⟩
    exact equal_struct definition (regular.names j) fields

/-! ## Copies compare as the values do -/

theorem allM_congr {α β : Type} {p : α → Except Stop Bool} {q : β → Except Stop Bool} {as : List α}
    {bs : List β} (same : List.Forall₂ (fun a b => q b = p a) as bs) : bs.allM q = as.allM p := by
  induction same with
  | nil => rfl
  | cons here _ ih => rw [List.allM, List.allM, here, ih]

theorem forall₂_zip {α β γ δ : Type} {R : α → β → Prop} {S : γ → δ → Prop} {as : List α} {bs : List β}
    {cs : List γ} {ds : List δ} (left : List.Forall₂ R as bs) (right : List.Forall₂ S cs ds) :
    List.Forall₂ (fun e e' => R e.1 e'.1 ∧ S e.2 e'.2) (as.zip cs) (bs.zip ds) := by
  induction left generalizing cs ds with
  | nil => exact .nil
  | cons here _ ih =>
    cases right with
    | nil => exact .nil
    | cons here' later' => exact .cons ⟨here, here'⟩ (ih later')

/-- Entries that are listed alike are found alike. -/
theorem found_alike {α β γ : Type} [DecidableEq α] {R : β → γ → Prop} {entries : OrderedMap α β}
    {entries' : OrderedMap α γ}
    (each : List.Forall₂ (fun e e' => e'.1 = e.1 ∧ R e.2 e'.2) entries.entries entries'.entries) (a : α) :
    (entries.get? a = none ∧ entries'.get? a = none) ∨
      ∃ b c, entries.get? a = some b ∧ entries'.get? a = some c ∧ R b c := by
  rcases entries with ⟨as⟩
  rcases entries' with ⟨bs⟩
  simp only [OrderedMap.get?] at each ⊢
  induction each with
  | nil => exact .inl ⟨rfl, rfl⟩
  | @cons e e' _ _ here _ ih =>
    rw [OrderedMap.findEntry, OrderedMap.findEntry, here.1]
    by_cases asked : e.1 = a
    · rw [if_pos asked, if_pos asked]
      exact .inr ⟨e.2, e'.2, rfl, rfl, here.2⟩
    · rwa [if_neg asked, if_neg asked]

/-- Deep copies of two values compare as the values do, under every bound. -/
theorem equal_copied (copied : Copied h k m v v') (copied' : Copied h k m' w w') :
    k.equal n v' w' = h.equal n v w := by
  induction n generalizing m m' v w v' w' with
  | zero => rfl
  | succ n ih =>
    obtain ⟨m, rfl⟩ : ∃ i, m = i + 1 := Nat.exists_eq_succ_of_ne_zero fun none => by
      rw [none] at copied
      cases copied
    obtain ⟨m', rfl⟩ : ∃ i, m' = i + 1 := Nat.exists_eq_succ_of_ne_zero fun none => by
      rw [none] at copied'
      cases copied'
    have inside {b b' c c' : BoxId} (left : CopiedBox h k m b b') (right : CopiedBox h k m' c c') :
        k.equal n (k.value b') (k.value c') = h.equal n (h.value b) (h.value c) := ih left.2 right.2
    cases v with
    | list l =>
      obtain ⟨l₁, rfl, -, each⟩ := copied
      cases w with
      | list l' =>
        obtain ⟨l₂, rfl, -, each'⟩ := copied'
        have paired := (forall₂_zip each each').imp fun e e' both => inside both.1 both.2
        simp only [equal, each.length_eq, each'.length_eq, allM_congr paired]
      | dict | struct =>
        obtain ⟨_, rfl, -⟩ := copied'
        rfl
      | nil | bool | int | float | str | function | method | builtin | module | structDef =>
        obtain rfl : w' = _ := copied'
        rfl
    | dict d =>
      obtain ⟨d₁, rfl, -, each⟩ := copied
      cases w with
      | dict d' =>
        obtain ⟨d₂, rfl, -, each'⟩ := copied'
        have sizes : (k.dictionary d₁).size = (h.dictionary d).size := each.length_eq.symm
        have sizes' : (k.dictionary d₂).size = (h.dictionary d').size := each'.length_eq.symm
        simp only [equal, sizes, sizes']
        congr 1
        refine allM_congr (each.imp fun e e' both => ?_)
        rw [both.1]
        rcases found_alike
          (R := fun a b : Entry => CopiedBox h k m' a.key b.key ∧ CopiedBox h k m' a.value b.value)
          each' e.1 with ⟨none, none'⟩ | ⟨b, c, some, some', -, value⟩
        · rw [none, none']
        · rw [some, some']
          exact inside both.2.2 value
      | list | struct =>
        obtain ⟨_, rfl, -⟩ := copied'
        rfl
      | nil | bool | int | float | str | function | method | builtin | module | structDef =>
        obtain rfl : w' = _ := copied'
        rfl
    | struct i =>
      obtain ⟨i₁, rfl, -, definition, each⟩ := copied
      cases w with
      | struct j =>
        obtain ⟨j₁, rfl, -, definition', each'⟩ := copied'
        simp only [equal, definition, definition']
        congr 1
        refine allM_congr (each.imp fun e e' both => ?_)
        rw [both.1]
        rcases found_alike (R := CopiedBox h k m') each' e.1 with ⟨none, none'⟩ | ⟨b, c, some, some', value⟩
        · rw [none, none']
        · rw [some, some']
          exact inside both.2 value
      | list | dict =>
        obtain ⟨_, rfl, -⟩ := copied'
        rfl
      | nil | bool | int | float | str | function | method | builtin | module | structDef =>
        obtain rfl : w' = _ := copied'
        rfl
    | nil | bool | int | float | str | function | method | builtin | module | structDef =>
      obtain rfl : v' = _ := copied
      cases w with
      | list | dict | struct =>
        obtain ⟨_, rfl, -⟩ := copied'
        rfl
      | nil | bool | int | float | str | function | method | builtin | module | structDef =>
        obtain rfl : w' = _ := copied'
        rfl

end Heap

end Shiba

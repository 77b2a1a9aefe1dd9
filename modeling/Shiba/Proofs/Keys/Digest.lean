import Shiba.Proofs.Keys.UniqueText
import Shiba.Proofs.RoundTrip.Held
import Shiba.Proofs.State.Slots

/-!
# What keys are filed under, and equality

A dictionary files an entry under the kind and the canonical form of its key.  Equality of values is
defined apart from canonical forms, and this module compares the two, on values that stand for trees
without floats.

* `Heap.Filed limit h`: every dictionary files its entries under what their keys are filed under, no two
  in one place.
* `Heap.equal_of_data`: values that stand for one tree are equal.
* `Heap.SameOrder n v w`: dictionaries at corresponding places of `v` and `w` list the same keys in the
  same order.
* `Heap.data_eq_of_equal`: equal values in the same order stand for one tree.
-/

namespace Shiba.Heap

variable {h : Heap} {limit n m : Nat} {v w : Value} {x y : Data}

/-- Every dictionary files its entries under what their keys are filed under, no two in one place. -/
structure Filed (limit : Nat) (h : Heap) : Prop where
  key : ∀ d, ∀ e ∈ (h.dictionary d).entries, h.key limit (h.value e.2.key) = some e.1
  distinct : ∀ d, (h.dictionary d).keys.Nodup

/-! ## Trees and canonical forms -/

theorem forall₂_of_mapM {α β : Type} {f : α → Option β} {xs : List α} {ys : List β}
    (all : xs.mapM f = some ys) : List.Forall₂ (fun x y => f x = some y) xs ys := by
  induction xs generalizing ys with
  | nil =>
    cases all
    exact .nil
  | cons x xs ih =>
    rw [List.mapM_cons] at all
    obtain ⟨y, here, all⟩ := Option.bind_eq_some_iff.1 all
    obtain ⟨rest, later, all⟩ := Option.bind_eq_some_iff.1 all
    cases all
    exact .cons here (ih later)

theorem mapM_of_each {α β : Type} {f : α → Option β} {xs : List α} {ys : List β}
    (all : List.Forall₂ (fun x y => f x = some y) xs ys) : xs.mapM f = some ys := by
  have whole := mapM_of_forall₂ (g := id) all fun x y _ here => here
  rwa [List.map_id] at whole

/-- What makes a tree of a value makes its canonical form too. -/
theorem canonical_of_data (holds : h.data n v = some x) : h.canonical n v = some x.text := by
  induction n generalizing v x with
  | zero => cases holds
  | succ n ih =>
    cases v with
    | list l =>
      obtain ⟨xs, elements, whole⟩ := Option.bind_eq_some_iff.1 holds
      cases whole
      have texts : (h.items l).toList.mapM (fun b => h.canonical n (h.value b)) = some (xs.map Data.text) :=
        mapM_of_forall₂ (forall₂_of_mapM elements) fun b y _ here => ih here
      simp only [canonical, texts, Data.text, Data.texts_eq_map]
      rfl
    | dict d =>
      obtain ⟨entries, parts, whole⟩ := Option.bind_eq_some_iff.1 holds
      cases whole
      have texts : (h.dictionary d).values.mapM (fun e => do
          let key ← h.canonical n (h.value e.key)
          let value ← h.canonical n (h.value e.value)
          return key ++ ": " ++ value) = some (entries.map fun y => y.1.text ++ ": " ++ y.2.text) := by
        refine mapM_of_forall₂ (forall₂_of_mapM parts) fun e y _ here => ?_
        obtain ⟨key, isKey, here⟩ := Option.bind_eq_some_iff.1 here
        obtain ⟨value, isValue, here⟩ := Option.bind_eq_some_iff.1 here
        cases here
        rw [ih isKey, ih isValue]
        rfl
      simp only [canonical, texts, Data.text, Data.entryTexts_eq_map]
      rfl
    | struct | function | method | builtin | module | structDef =>
      simp only [data, Option.map_eq_some_iff] at holds
      obtain ⟨text, isText, rfl⟩ := holds
      exact isText
    | nil | bool | int | float | str =>
      cases holds
      rfl

theorem kind_of_data (holds : h.data n v = some x) : x.kind = v.kind := by
  cases n with
  | zero => cases holds
  | succ n =>
    cases v with
    | list | dict =>
      obtain ⟨_, _, whole⟩ := Option.bind_eq_some_iff.1 holds
      cases whole
      rfl
    | struct | function | method | builtin | module | structDef =>
      simp only [data, Option.map_eq_some_iff] at holds
      obtain ⟨text, isText, rfl⟩ := holds
      rfl
    | nil | bool | int | float | str =>
      cases holds
      rfl

/-- A canonical form is the same under every bound that is wide enough. -/
theorem canonical_mono {text : String} (le : n ≤ m) (holds : h.canonical n v = some text) :
    h.canonical m v = some text := by
  induction n generalizing m v text with
  | zero => cases holds
  | succ n ih =>
    obtain ⟨m, rfl⟩ : ∃ k, m = k + 1 := ⟨m - 1, by omega⟩
    have wider : ∀ {b : BoxId} {t : String}, h.canonical n (h.value b) = some t →
        h.canonical m (h.value b) = some t := ih (Nat.le_of_succ_le_succ le)
    cases v with
    | list l =>
      obtain ⟨parts, each, whole⟩ := Option.bind_eq_some_iff.1 holds
      have each' : (h.items l).toList.mapM (fun b => h.canonical m (h.value b)) = some parts :=
        mapM_of_each ((forall₂_of_mapM each).imp fun _ _ => wider)
      simp only [canonical, each']
      exact whole
    | dict d =>
      obtain ⟨parts, each, whole⟩ := Option.bind_eq_some_iff.1 holds
      have each' : (h.dictionary d).values.mapM (fun e => do
          let key ← h.canonical m (h.value e.key)
          let value ← h.canonical m (h.value e.value)
          return key ++ ": " ++ value) = some parts := by
        refine mapM_of_each ((forall₂_of_mapM each).imp fun e t here => ?_)
        obtain ⟨key, isKey, here⟩ := Option.bind_eq_some_iff.1 here
        obtain ⟨value, isValue, here⟩ := Option.bind_eq_some_iff.1 here
        rw [wider isKey, wider isValue]
        exact here
      simp only [canonical, each']
      exact whole
    | struct i =>
      obtain ⟨parts, each, whole⟩ := Option.bind_eq_some_iff.1 holds
      have each' : (h.instanceAt i).fields.entries.mapM (fun e => do
          let value ← h.canonical m (h.value e.2)
          return e.1 ++ ": " ++ value) = some parts := by
        refine mapM_of_each ((forall₂_of_mapM each).imp fun e t here => ?_)
        obtain ⟨value, isValue, here⟩ := Option.bind_eq_some_iff.1 here
        rw [wider isValue]
        exact here
      simp only [canonical, each']
      exact whole
    | nil | bool | int | float | str | function | method | builtin | module | structDef => exact holds

/-- What a value that stands for a tree is filed under. -/
theorem key_of_data (le : n ≤ limit) (holds : h.data n v = some x) : h.key limit v = some x.key := by
  rw [key, canonical_mono le (canonical_of_data holds), Data.key, kind_of_data holds]
  rfl

/-! ## Trees without floats -/

/-- An entry of a dictionary holds two trees, and is filed under what the first of them is filed
under. -/
structure EntryData (h : Heap) (n : Nat) (e : Key × Entry) (x : Data × Data) : Prop where
  filed : e.1 = x.1.key
  key : h.data n (h.value e.2.key) = some x.1
  value : h.data n (h.value e.2.value) = some x.2

/-- A value is made like a tree without floats, and the parts stand for the parts of the tree. -/
inductive Made (h : Heap) (n : Nat) : Value → Data → Prop
  | nil : Made h n .nil .nil
  | bool {b : Bool} : Made h n (.bool b) (.bool b)
  | int {i : Int64} : Made h n (.int i) (.int i)
  | str {s : String} : Made h n (.str s) (.str s)
  | list {l : ListId} {xs : List Data} : (∀ x ∈ xs, x.Discrete) →
    List.Forall₂ (fun b x => h.data n (h.value b) = some x) (h.items l).toList xs →
    Made h n (.list l) (.list xs)
  | dict {d : DictId} {entries : List (Data × Data)} : (∀ e ∈ entries, e.1.Discrete ∧ e.2.Discrete) →
    List.Forall₂ (h.EntryData n) (h.dictionary d).entries entries → Made h n (.dict d) (.dict entries)

theorem made_of_data (filed : h.Filed limit) (le : n ≤ limit) (discrete : x.Discrete)
    (holds : h.data (n + 1) v = some x) : h.Made n v x := by
  cases v with
  | list l =>
    obtain ⟨xs, elements, whole⟩ := Option.bind_eq_some_iff.1 holds
    cases whole
    exact .list (Data.discrete_list.1 discrete) (forall₂_of_mapM elements)
  | dict d =>
    obtain ⟨entries, parts, whole⟩ := Option.bind_eq_some_iff.1 holds
    cases whole
    refine .dict (Data.discrete_dict.1 discrete) ?_
    have each := List.forall₂_map_left_iff.1 (forall₂_of_mapM parts)
    rw [List.forall₂_iff_zip] at each ⊢
    refine ⟨each.1, fun {e y} member => ?_⟩
    obtain ⟨key, isKey, here⟩ := Option.bind_eq_some_iff.1 (each.2 member)
    obtain ⟨value, isValue, here⟩ := Option.bind_eq_some_iff.1 here
    cases here
    have filedHere := filed.key d e (List.of_mem_zip member).1
    rw [key_of_data le isKey] at filedHere
    exact ⟨(Option.some.inj filedHere).symm, isKey, isValue⟩
  | struct | function | method | builtin | module | structDef =>
    simp only [data, Option.map_eq_some_iff] at holds
    obtain ⟨text, isText, rfl⟩ := holds
    cases discrete
  | float =>
    cases holds
    cases discrete
  | nil =>
    cases holds
    exact .nil
  | bool =>
    cases holds
    exact .bool
  | int =>
    cases holds
    exact .int
  | str =>
    cases holds
    exact .str

/-- Two sequences that are related to one are related to each other. -/
theorem forall₂_join {α β γ : Type} {R : α → γ → Prop} {S : β → γ → Prop} {as : List α} {bs : List β}
    {cs : List γ} (left : List.Forall₂ R as cs) (right : List.Forall₂ S bs cs) :
    List.Forall₂ (fun a b => ∃ c ∈ cs, R a c ∧ S b c) as bs := by
  induction left generalizing bs with
  | nil =>
    cases right
    exact .nil
  | cons here _ ih =>
    rcases right with _ | ⟨here', later'⟩
    refine .cons ⟨_, List.mem_cons_self, here, here'⟩ ((ih later').imp fun a b related => ?_)
    obtain ⟨c, member, both⟩ := related
    exact ⟨c, List.mem_cons_of_mem _ member, both⟩

/-! ## Equality -/

theorem forall_of_allM {α : Type} {p : α → Except Stop Bool} {as : List α} (all : as.allM p = .ok true) :
    ∀ a ∈ as, p a = .ok true := by
  induction as with
  | nil => exact nofun
  | cons a as ih =>
    rw [List.allM] at all
    cases here : p a with
    | error stop =>
      rw [here] at all
      cases all
    | ok b =>
      rw [here] at all
      cases b with
      | false => cases all
      | true => exact List.forall_mem_cons.2 ⟨here, ih all⟩

/-- Lists are equal when they are so element by element. -/
theorem equal_list_iff {l l' : ListId} : h.equal (n + 1) (.list l) (.list l') = .ok true ↔
    List.Forall₂ (fun b c => h.equal n (h.value b) (h.value c) = .ok true) (h.items l).toList
      (h.items l').toList := by
  rw [List.forall₂_iff_zip]
  simp only [equal]
  constructor
  · intro same
    split at same
    · cases same
    · next sizes =>
      exact ⟨not_not.1 sizes, fun {b c} member => forall_of_allM same (b, c) member⟩
  · rintro ⟨sizes, each⟩
    rw [if_neg (not_not.2 sizes)]
    exact allM_of_forall fun e member => each member

/-- Dictionaries with the same keys in the same order are equal when their values are. -/
theorem equal_dict_iff {d d' : DictId} (distinct : (h.dictionary d').keys.Nodup)
    (order : List.Forall₂ (fun e e' : Key × Entry => e.1 = e'.1) (h.dictionary d).entries
      (h.dictionary d').entries) :
    h.equal (n + 1) (.dict d) (.dict d') = .ok true ↔
      List.Forall₂ (fun e e' => h.equal n (h.value e.2.value) (h.value e'.2.value) = .ok true)
        (h.dictionary d).entries (h.dictionary d').entries := by
  have sizes : (h.dictionary d).size = (h.dictionary d').size := order.length_eq
  rw [List.forall₂_iff_zip] at order ⊢
  have found : ∀ {e e' : Key × Entry},
      (e, e') ∈ (h.dictionary d).entries.zip (h.dictionary d').entries →
        (h.dictionary d').get? e.1 = some e'.2 := by
    intro e e' member
    rw [order.2 member]
    exact OrderedMap.get?_of_mem_entries distinct (List.of_mem_zip member).2
  simp only [equal, if_neg (not_not.2 sizes)]
  constructor
  · intro same
    refine ⟨order.1, fun {e e'} member => ?_⟩
    have here := forall_of_allM same e (List.of_mem_zip member).1
    simp only [found member] at here
    exact here
  · rintro ⟨-, each⟩
    refine allM_of_forall fun e member => ?_
    obtain ⟨i, inside, rfl⟩ := List.mem_iff_getElem.1 member
    have inside' : i < (h.dictionary d').entries.length := order.1 ▸ inside
    have paired : ((h.dictionary d).entries[i], (h.dictionary d').entries[i]) ∈
        (h.dictionary d).entries.zip (h.dictionary d').entries := by
      rw [← List.getElem_zip (h := by simpa using ⟨inside, inside'⟩)]
      exact List.getElem_mem _
    simp only [found paired]
    exact each paired

/-- Two values that stand for one tree are equal. -/
theorem equal_of_data (filed : h.Filed limit) (le : n ≤ limit) (discrete : x.Discrete)
    (left : h.data n v = some x) (right : h.data n w = some x) : h.equal n v w = .ok true := by
  induction n generalizing v w x with
  | zero => cases left
  | succ n ih =>
    have le' := Nat.le_of_succ_le le
    cases made_of_data filed le' discrete left with
    | nil =>
      cases made_of_data filed le' discrete right
      rfl
    | bool | int | str =>
      cases made_of_data filed le' discrete right
      simp [equal]
    | @list l xs parts each =>
      cases made_of_data filed le' discrete right with
      | list _ each' =>
        refine equal_list_iff.2 ((forall₂_join each each').imp fun b c both => ?_)
        obtain ⟨y, member, here, here'⟩ := both
        exact ih le' (parts y member) here here'
    | @dict d entries parts each =>
      cases made_of_data filed le' discrete right with
      | dict _ each' =>
        have both := forall₂_join each each'
        refine (equal_dict_iff (filed.distinct _) (both.imp fun e e' both => ?_)).2
          (both.imp fun e e' both => ?_)
        · obtain ⟨y, -, here, here'⟩ := both
          exact here.filed.trans here'.filed.symm
        · obtain ⟨y, member, here, here'⟩ := both
          exact ih le' (parts y member).2 here.value here'.value

/-! ## Order -/

/-- Dictionaries at corresponding places of two values list the same keys in the same order. -/
def SameOrder (h : Heap) : (n : Nat) → Value → Value → Prop
  | n + 1, .list l, .list l' =>
    List.Forall₂ (fun b c => SameOrder h n (h.value b) (h.value c)) (h.items l).toList
      (h.items l').toList
  | n + 1, .dict d, .dict d' =>
    List.Forall₂ (fun e e' => e.1 = e'.1 ∧ SameOrder h n (h.value e.2.value) (h.value e'.2.value))
      (h.dictionary d).entries (h.dictionary d').entries
  | _, _, _ => True

/-- Values that stand for one tree are in the same order. -/
theorem sameOrder_of_data (filed : h.Filed limit) (le : n ≤ limit) (discrete : x.Discrete)
    (left : h.data n v = some x) (right : h.data n w = some x) : h.SameOrder n v w := by
  induction n generalizing v w x with
  | zero => cases left
  | succ n ih =>
    have le' := Nat.le_of_succ_le le
    cases made_of_data filed le' discrete left with
    | nil | bool | int | str => simp only [SameOrder]
    | @list l xs parts each =>
      cases made_of_data filed le' discrete right with
      | list _ each' =>
        refine (forall₂_join each each').imp fun b c both => ?_
        obtain ⟨y, member, here, here'⟩ := both
        exact ih le' (parts y member) here here'
    | @dict d entries parts each =>
      cases made_of_data filed le' discrete right with
      | dict _ each' =>
        refine (forall₂_join each each').imp fun e e' both => ?_
        obtain ⟨y, member, here, here'⟩ := both
        exact ⟨here.filed.trans here'.filed.symm,
          ih le' (parts y member).2 here.value here'.value⟩

theorem forall₂_and {α β : Type} {R S : α → β → Prop} {as : List α} {bs : List β}
    (left : List.Forall₂ R as bs) (right : List.Forall₂ S as bs) :
    List.Forall₂ (fun a b => R a b ∧ S a b) as bs := by
  rw [List.forall₂_iff_zip] at left right ⊢
  exact ⟨left.1, fun member => ⟨left.2 member, right.2 member⟩⟩

/-- What two sequences stand for, place by place, is one sequence. -/
theorem eq_of_forall₂ {α β γ : Type} {R : α → γ → Prop} {S : β → γ → Prop} {T : α → β → Prop}
    {as : List α} {bs : List β} {cs ds : List γ} (left : List.Forall₂ R as cs)
    (right : List.Forall₂ S bs ds) (both : List.Forall₂ T as bs)
    (same : ∀ a b, ∀ c ∈ cs, ∀ d ∈ ds, R a c → S b d → T a b → c = d) : cs = ds := by
  induction left generalizing bs ds with
  | nil =>
    cases both
    cases right
    rfl
  | cons here _ ih =>
    rcases both with _ | ⟨hereToo, laterToo⟩
    rcases right with _ | ⟨here', later'⟩
    rw [same _ _ _ List.mem_cons_self _ List.mem_cons_self here here' hereToo,
      ih later' laterToo fun a b c inside d inside' =>
        same a b c (List.mem_cons_of_mem _ inside) d (List.mem_cons_of_mem _ inside')]

/-- Equal values in the same order stand for one tree. -/
theorem data_eq_of_equal (filed : h.Filed limit) (le : n ≤ limit) (discrete : x.Discrete)
    (discrete' : y.Discrete) (left : h.data n v = some x) (right : h.data n w = some y)
    (same : h.equal n v w = .ok true) (order : h.SameOrder n v w) : x = y := by
  induction n generalizing v w x y with
  | zero => cases left
  | succ n ih =>
    have le' := Nat.le_of_succ_le le
    have made := made_of_data filed le' discrete left
    have made' := made_of_data filed le' discrete' right
    cases made with
    | nil | bool | int | str =>
      cases made' <;> simp_all [equal]
    | @list l xs parts each =>
      cases made' with
      | @list l' ys parts' each' =>
        have elements := eq_of_forall₂ each each' (forall₂_and (equal_list_iff.1 same) order)
          fun b c y inside y' inside' here here' both =>
            ih le' (parts y inside) (parts' y' inside') here here' both.1 both.2
        rw [elements]
      | nil | bool | int | str | dict => simp [equal] at same
    | @dict d entries parts each =>
      cases made' with
      | @dict d' entries' parts' each' =>
        have values := (equal_dict_iff (filed.distinct d') (order.imp fun _ _ both => both.1)).1 same
        have all : entries = entries' := by
          refine eq_of_forall₂ each each' (forall₂_and values order) ?_
          intro e e' y inside y' inside' here here' both
          -- the two keys are filed in one place, so they have one canonical form
          have filedAlike : y.1.key = y'.1.key := by rw [← here.filed, both.2.1, here'.filed]
          have keys := (parts y inside).1.text_inj (parts' y' inside').1
            (congrArg Key.text filedAlike)
          exact Prod.ext keys (ih le' (parts y inside).2 (parts' y' inside').2 here.value here'.value
            both.1 both.2.2)
        rw [all]
      | nil | bool | int | str | list => simp [equal] at same

end Shiba.Heap

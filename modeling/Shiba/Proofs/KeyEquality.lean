import Shiba.Proofs.Keys.Access
import Shiba.Proofs.Zones.Reachable

/-!
# Keys and equality

Values made of nil, booleans, integers, strings, lists and dictionaries, nested to any depth, and what
they are filed under as keys of a dictionary.

* `equal_of_key_eq`: what is filed under one key is equal, so unequal values never meet in a dictionary.
* `key_eq_iff_sameOrder`: equal values are filed under one key when their dictionaries list their keys in
  the same order, and only then; every dictionary then treats the one like the other.
-/

namespace Shiba

/-- Values that are filed under one key are equal; filing or removing an entry under the one of two
unequal values leaves what is filed under the other.  That dictionaries file their entries as they should
is so in every reachable state (`Reachable.filed`). -/
theorem equal_of_key_eq {h : Heap} {limit : Nat} (filed : h.Filed limit) {v w : Value} {x y : Data}
    (left : h.data limit v = some x) (right : h.data limit w = some y) (discrete : x.Discrete)
    (discrete' : y.Discrete) :
    (h.key limit v = h.key limit w → h.equal limit v w = .ok true) ∧
      (h.equal limit v w ≠ .ok true → ∃ k k', h.key limit v = some k ∧ h.key limit w = some k' ∧
        k ≠ k' ∧ ∀ (m : Dictionary) (e : Entry),
          (m.insert k e).get? k' = m.get? k' ∧ (m.erase k).get? k' = m.get? k') := by
  have equal : x.key = y.key → h.equal limit v w = .ok true := by
    intro same
    cases discrete.text_inj discrete' (congrArg Key.text same)
    exact Heap.equal_of_data filed le_rfl discrete left right
  rw [Heap.key_of_data le_rfl left, Heap.key_of_data le_rfl right]
  refine ⟨fun same => equal (Option.some.inj same), fun unequal => ?_⟩
  have apart : x.key ≠ y.key := fun same => unequal (equal same)
  refine ⟨x.key, y.key, rfl, rfl, apart, fun m e => ?_⟩
  rw [OrderedMap.get?_insert, OrderedMap.get?_erase, if_neg (Ne.symm apart), if_neg (Ne.symm apart)]
  exact ⟨rfl, rfl⟩

/-- Two dictionaries with one entry each, which are made of different boxes. -/
def twoDictionaries : Heap :=
  { Heap.empty with
    boxes := #[.str "a\"", .int 1, .str "a\"", .int 1]
    dicts := #[⟨[(⟨.str, "\"a\\\"\""⟩, ⟨⟨0⟩, ⟨1⟩⟩)]⟩, ⟨[(⟨.str, "\"a\\\"\""⟩, ⟨⟨2⟩, ⟨3⟩⟩)]⟩] }

theorem filed_twoDictionaries : twoDictionaries.Filed 2 where
  key := by
    rintro ⟨_ | _ | i⟩ e member
    · cases List.mem_singleton.1 member
      rfl
    · cases List.mem_singleton.1 member
      rfl
    · cases member
  distinct := by
    rintro ⟨_ | _ | i⟩
    · exact List.nodup_singleton _
    · exact List.nodup_singleton _
    · exact List.nodup_nil

theorem equal_of_key_eq_twoDictionaries :
    twoDictionaries.equal 2 (.dict ⟨0⟩) (.dict ⟨1⟩) = .ok true := by
  have discrete : (Data.dict [(.str "a\"", .int 1)]).Discrete :=
    .dict (List.forall_mem_singleton.2 .str) (List.forall_mem_singleton.2 .int)
  exact (equal_of_key_eq filed_twoDictionaries rfl rfl discrete discrete).1 rfl

/-! ## Equal values as keys -/

/-- In every dictionary, two boxes lead to the entry under one key: it is found and removed through the one
as through the other, and a value is filed under it through both. -/
structure SameEntry (limit : Nat) (h : Heap) (a b : BoxId) (k : Key) (d : DictId) : Prop where
  found : HeapM.dictGet? limit d a h = (.ok (((h.dictionary d).get? k).map (·.value)), h) ∧
    HeapM.dictGet? limit d b h = HeapM.dictGet? limit d a h
  deleted : HeapM.dictDelete limit d a h =
      (if (h.dictionary d).contains k then (.ok true, h.setDictionary d ((h.dictionary d).erase k))
      else (.ok false, h)) ∧
    HeapM.dictDelete limit d b h = HeapM.dictDelete limit d a h
  set : ∀ value, (∃ h' kept, HeapM.Files limit d a value k h h' kept) ∧
    ∃ h' kept, HeapM.Files limit d b value k h h' kept

theorem sameEntry {limit : Nat} {h : Heap} {a b : BoxId} {k : Key} {d : DictId} (sound : h.Sound)
    (filed : h.Filed limit) (left : h.key limit (h.value a) = some k)
    (right : h.key limit (h.value b) = some k) (there : d.index < h.dicts.size) :
    SameEntry limit h a b k d where
  found := ⟨HeapM.run_dictGet? left, (HeapM.run_dictGet? right).trans (HeapM.run_dictGet? left).symm⟩
  deleted :=
    ⟨HeapM.run_dictDelete left, (HeapM.run_dictDelete right).trans (HeapM.run_dictDelete left).symm⟩
  set value := ⟨HeapM.run_dictSet sound filed there value left,
    HeapM.run_dictSet sound filed there value right⟩

/-- In a reachable state, equal values are filed under one key if and only if dictionaries at corresponding
places of them list the same keys in the same order, and then they lead to the same entry of every
dictionary. -/
theorem key_eq_iff_sameOrder {cfg : Config} {s : State} (reachable : Reachable cfg s) {a b : BoxId}
    {x y : Data} (left : s.heap.data cfg.dataLimit (s.heap.value a) = some x)
    (right : s.heap.data cfg.dataLimit (s.heap.value b) = some y) (discrete : x.Discrete)
    (discrete' : y.Discrete)
    (equal : s.heap.equal cfg.dataLimit (s.heap.value a) (s.heap.value b) = .ok true) :
    (s.heap.key cfg.dataLimit (s.heap.value a) = s.heap.key cfg.dataLimit (s.heap.value b) ↔
        s.heap.SameOrder cfg.dataLimit (s.heap.value a) (s.heap.value b)) ∧
      (s.heap.SameOrder cfg.dataLimit (s.heap.value a) (s.heap.value b) → ∃ k,
        s.heap.key cfg.dataLimit (s.heap.value a) = some k ∧
          s.heap.key cfg.dataLimit (s.heap.value b) = some k ∧
          ∀ d, s.HasDict d → SameEntry cfg.dataLimit s.heap a b k d) := by
  have filed := reachable.filed
  have keyLeft := Heap.key_of_data le_rfl left
  have keyRight := Heap.key_of_data le_rfl right
  have one : s.heap.SameOrder cfg.dataLimit (s.heap.value a) (s.heap.value b) → x = y :=
    Heap.data_eq_of_equal filed le_rfl discrete discrete' left right equal
  refine ⟨⟨fun same => ?_, fun order => ?_⟩, fun order => ?_⟩
  · rw [keyLeft, keyRight] at same
    cases discrete.text_inj discrete' (congrArg Key.text (Option.some.inj same))
    exact Heap.sameOrder_of_data filed le_rfl discrete left right
  · rw [keyLeft, keyRight, one order]
  · rw [← one order] at keyRight
    exact ⟨x.key, keyLeft, keyRight, fun d there =>
      sameEntry reachable.wellFormed.sound filed keyLeft keyRight there⟩

/-- The state in which a list of two dictionaries has been evaluated. -/
def listOfTwo (first second : List (Expr × Expr)) : State :=
  (evalExpr .standard 9 ⟨⟨0⟩, 5⟩ (.list .start [.dict .start first, .dict .start second])
    (State.initial.load (.ofSource "main" "/" ""))).2

theorem reachable_listOfTwo (first second : List (Expr × Expr)) :
    Reachable .standard (listOfTwo first second) :=
  .exprEnd 9 _ (.register .initial rfl) (State.hasModule_load State.initial _)

/-- An entry with a number as its key and its value. -/
def numbered (n : Int64) : Expr × Expr := (.literal .start (.int n), .literal .start (.int n))

/-- Two dictionaries with the same entries in the same order are the same key. -/
theorem key_eq_iff_sameOrder_listed :
    let s := listOfTwo [numbered 1, numbered 2] [numbered 1, numbered 2]
    ∃ k, s.heap.key 5000 (s.heap.value ⟨17⟩) = some k ∧ SameEntry 5000 s.heap ⟨17⟩ ⟨27⟩ k ⟨0⟩ := by
  intro s
  have first : ∃ x ∈ s.heap.data 5000 (s.heap.value ⟨17⟩), x.Discrete := by decide +kernel
  have second : ∃ y ∈ s.heap.data 5000 (s.heap.value ⟨27⟩), y.Discrete := by decide +kernel
  have equal : s.heap.equal 5000 (s.heap.value ⟨17⟩) (s.heap.value ⟨27⟩) = .ok true :=
    Stop.eq_of_toOption (by decide +kernel)
  have same : s.heap.key 5000 (s.heap.value ⟨17⟩) = s.heap.key 5000 (s.heap.value ⟨27⟩) := by
    decide +kernel
  have there : s.HasDict ⟨0⟩ := by
    change 0 < s.heap.dicts.size
    decide +kernel
  have reachable : Reachable .standard s := reachable_listOfTwo _ _
  clear_value s
  obtain ⟨x, left, discrete⟩ := first
  obtain ⟨y, right, discrete'⟩ := second
  have ⟨order, entry⟩ := key_eq_iff_sameOrder reachable left right discrete discrete' equal
  obtain ⟨k, isKey, -, every⟩ := entry (order.1 same)
  exact ⟨k, isKey, every ⟨0⟩ there⟩

/-- Two dictionaries with the same entries in different orders are equal, and different keys. -/
theorem key_ne_of_other_order :
    let s := listOfTwo [numbered 1, numbered 2] [numbered 2, numbered 1]
    let v := s.heap.value ⟨17⟩
    let w := s.heap.value ⟨27⟩
    Reachable .standard s ∧ (∃ x ∈ s.heap.data 5000 v, x.Discrete) ∧
      (∃ y ∈ s.heap.data 5000 w, y.Discrete) ∧ s.heap.equal 5000 v w = .ok true ∧
      s.heap.key 5000 v ≠ s.heap.key 5000 w :=
  ⟨reachable_listOfTwo _ _, by decide +kernel, by decide +kernel, Stop.eq_of_toOption (by decide +kernel),
    by decide +kernel⟩

end Shiba

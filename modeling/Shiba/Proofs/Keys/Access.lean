import Shiba.Proofs.Heap.Copy

/-!
# Access by key

Finding, filing and removing an entry of a dictionary depend on nothing but the key that a box is filed
under.

* `HeapM.run_dictGet?`, `HeapM.run_dictDelete`: what is found and removed under a key.
* `HeapM.run_dictSet`: a value is filed under a key.  A key that is not there yet is copied, and it can be
  copied because it could be filed.
-/

namespace Shiba

/-- A key that was removed is not found, and the others are found as before. -/
theorem OrderedMap.get?_erase {α β : Type} [DecidableEq α] (m : OrderedMap α β) (a a' : α) :
    (m.erase a).get? a' = if a' = a then none else m.get? a' := by
  rcases m with ⟨entries⟩
  simp only [get?, erase]
  induction entries with
  | nil => simp [findEntry]
  | cons entry entries ih =>
    rw [List.filter_cons]
    by_cases same : entry.1 = a
    · by_cases asked : a' = a <;> grind [findEntry]
    · by_cases asked : a' = a <;> grind [findEntry]

/-- What is filed under a key has a canonical form. -/
theorem Heap.isSome_canonical_of_key {h : Heap} {limit : Nat} {v : Value} {k : Key}
    (filed : h.key limit v = some k) : (h.canonical limit v).isSome := by
  obtain ⟨text, holds, -⟩ := Option.map_eq_some_iff.1 filed
  rw [holds]
  rfl

namespace HeapM

variable {α β : Type} {h : Heap} {limit : Nat} {d : DictId} {key : BoxId} {k : Key}

theorem run_bind {act : HeapM α} {f : α → HeapM β} {h' : Heap} {x : α} (run : act h = (.ok x, h')) :
    (act >>= f) h = f x h' := by
  change (ExceptT.bindCont f (act h).1 : StateM Heap _) (act h).2 = _
  rw [run]
  rfl

theorem run_bind_error {act : HeapM α} {f : α → HeapM β} {h' : Heap} {stop : Stop}
    (run : act h = (.error stop, h')) : (act >>= f) h = (.error stop, h') := by
  change (ExceptT.bindCont f (act h).1 : StateM Heap _) (act h).2 = _
  rw [run]
  rfl

theorem run_get (h : Heap) : (get : HeapM Heap) h = (.ok h, h) := rfl

theorem run_keyOf (filed : h.key limit (h.value key) = some k) : keyOf limit key h = (.ok k, h) := by
  have reads : read key h = (.ok (h.value key), h) := rfl
  rw [keyOf, run_bind reads, bounded, run_bind (run_get h), filed]
  rfl

theorem run_dictGet? (filed : h.key limit (h.value key) = some k) :
    dictGet? limit d key h = (.ok (((h.dictionary d).get? k).map (·.value)), h) :=
  run_bind (run_keyOf filed)

theorem run_dictDelete (filed : h.key limit (h.value key) = some k) :
    dictDelete limit d key h =
      if (h.dictionary d).contains k then
        (.ok true, h.setDictionary d ((h.dictionary d).erase k))
      else (.ok false, h) := by
  rw [dictDelete, run_bind (run_keyOf filed), run_bind (run_get h)]
  split
  · rfl
  · rfl

/-- A value is filed under a key that is there: the stored key stays. -/
theorem run_dictSet_known {e : Entry} (filed : h.key limit (h.value key) = some k)
    (found : (h.dictionary d).get? k = some e) (value : BoxId) :
    dictSet limit d key value h =
      (.ok (), h.setDictionary d ((h.dictionary d).insert k ⟨e.key, value⟩)) := by
  rw [dictSet, run_bind (run_keyOf filed), run_bind (run_get h), found]
  rfl

/-- A value is filed under a new key, next to a deep copy of it, which can be made because the key could be
told. -/
theorem run_dictSet_new (sound : h.Sound) (there : d.index < h.dicts.size)
    (filed : h.key limit (h.value key) = some k) (absent : (h.dictionary d).get? k = none) (value : BoxId) :
    ∃ kept made, clone limit key h = (.ok kept, made) ∧ h.Grows made ∧ made.Sound ∧
      h.AlikeBox key made kept ∧ dictSet limit d key value h =
        (.ok (), made.setDictionary d ((h.dictionary d).insert k ⟨kept, value⟩)) := by
  obtain ⟨result, made, run, grows, sound', copied, answers⟩ := adds_clone limit sound key
  obtain ⟨kept, rfl⟩ := answers (Heap.isSome_canonical_of_key filed)
  refine ⟨kept, made, run, grows, sound', copied kept rfl, ?_⟩
  rw [dictSet, run_bind (run_keyOf filed), run_bind (run_get h), absent]
  refine (run_bind run).trans ?_
  rw [← grows.dictionary_eq there]
  rfl

/-- A value is filed under the key of a box, next to a stored key that is filed under it. -/
structure Files (limit : Nat) (d : DictId) (key value : BoxId) (k : Key) (h h' : Heap) (kept : BoxId) :
    Prop where
  grows : h.Grows h'
  filed : h'.key limit (h'.value kept) = some k
  run : dictSet limit d key value h =
    (.ok (), h'.setDictionary d ((h.dictionary d).insert k ⟨kept, value⟩))

theorem run_dictSet (sound : h.Sound) (known : h.Filed limit) (there : d.index < h.dicts.size)
    (value : BoxId) (filed : h.key limit (h.value key) = some k) :
    ∃ h' kept, Files limit d key value k h h' kept := by
  cases found : (h.dictionary d).get? k with
  | some e =>
    exact ⟨h, e.key, .refl h, known.key d (k, e) (OrderedMap.mem_entries_of_get? found),
      run_dictSet_known filed found value⟩
  | none =>
    obtain ⟨kept, made, -, grows, -, alike, run⟩ := run_dictSet_new sound there filed found value
    exact ⟨made, kept, grows, (alike.alike.key_eq limit).trans filed, run⟩

end HeapM

end Shiba

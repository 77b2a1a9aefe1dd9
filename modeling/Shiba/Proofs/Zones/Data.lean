import Shiba.Proofs.Lockstep.Data
import Shiba.Proofs.Zones.Operation

/-!
# Deep copies, dictionaries and sequences

A deep copy may be made into the live zone or into that of keys, whatever zone its source lies in; what is
copied from the old zone has to be a finite tree of data, because functions and modules are shared by
copies.  A dictionary keeps a deep copy of a new key, which is why the key stays filed under what it is
filed under.

* `Heap.Tree`: finite trees of data.
* `Guarded.Source`: what may be copied.
* `Guarded.Safe.clone`: where a deep copy lies, and what it is filed under.
* `Guarded.Safe.dictSet`, `Guarded.Safe.dictDelete`: the two ways a dictionary changes.
-/

namespace Shiba

/-- A finite tree of data: nil, booleans, numbers and strings, and lists and dictionaries of such
trees. -/
inductive Heap.Tree (h : Heap) : Value → Prop
  | nil : Tree h .nil
  | bool (b : Bool) : Tree h (.bool b)
  | int (n : Int64) : Tree h (.int n)
  | float (x : Float) : Tree h (.float x)
  | str (s : String) : Tree h (.str s)
  | list {l : ListId} : (∀ b ∈ h.items l, Tree h (h.value b)) → Tree h (.list l)
  | dict {d : DictId} : (∀ e ∈ (h.dictionary d).values, Tree h (h.value e.key)) →
    (∀ e ∈ (h.dictionary d).values, Tree h (h.value e.value)) → Tree h (.dict d)

namespace Guarded

open Eval

variable {P : Policy} {σ τ : Guarded P} {α β : Type} {Q : α → Guarded P → Prop}
  {R : β → Guarded P → Prop}

/-! ## What may be copied -/

/-- A value that may be copied: it stands outside the old zone, or it is a finite tree of data. -/
def Source (σ : Guarded P) (v : Value) : Prop :=
  (∃ z, z ≠ .old ∧ σ.Fit z v) ∨ σ.Fit .old v ∧ σ.state.heap.Tree v

/-- A box with a value that may be copied. -/
def SourceBox (σ : Guarded P) (b : BoxId) : Prop :=
  (∃ z, z ≠ .old ∧ σ.In z b) ∨ σ.In .old b ∧ σ.state.heap.Tree (σ.state.heap.value b)

theorem SourceBox.source {b : BoxId} (box : σ.SourceBox b) : σ.Source (σ.state.heap.value b) := by
  rcases box with ⟨z, other, inside⟩ | ⟨old, tree⟩
  · exact .inl ⟨z, other, fit_value inside⟩
  · exact .inr ⟨fit_value old, tree⟩

theorem Seen.source {b : BoxId} (seen : σ.Seen b) : σ.Source (σ.state.heap.value b) :=
  .inl ⟨.live, Zone.live_ne_old, seen.fit⟩

/-- A tree in the old zone stays as it is.  The induction is on the tree. -/
theorem tree_mono {v : Value} (later : σ.Later τ) (fit : σ.Fit .old v) (tree : σ.state.heap.Tree v) :
    τ.state.heap.Tree v := by
  induction tree with
  | nil => exact .nil
  | bool b => exact .bool b
  | int n => exact .int n
  | float x => exact .float x
  | str s => exact .str s
  | @list l _ ih =>
    obtain ⟨same, boxes⟩ := (later.preserves Zone.old_ne_live).items l fit
    refine .list fun b member => ?_
    rw [same] at member
    rw [(boxes b member).1]
    exact ih b member (boxes b member).2
  | @dict d _ _ ihKey ihValue =>
    obtain ⟨same, boxes⟩ := (later.preserves Zone.old_ne_live).entries d fit
    refine .dict (fun e member => ?_) fun e member => ?_
    · rw [same] at member
      obtain ⟨key, -⟩ := boxes e member
      rw [key.1]
      exact ihKey e member key.2
    · rw [same] at member
      obtain ⟨-, value⟩ := boxes e member
      rw [value.1]
      exact ihValue e member value.2

theorem SourceBox.mono {b : BoxId} (later : σ.Later τ) (box : σ.SourceBox b) : τ.SourceBox b := by
  rcases box with ⟨z, other, inside⟩ | ⟨old, tree⟩
  · exact .inl ⟨z, other, inside.mono later⟩
  · refine .inr ⟨old.mono later, ?_⟩
    rw [later.value b old.1 (old.2 ▸ Zone.old_ne_live)]
    exact tree_mono later (fit_value old) tree

theorem Source.items {l : ListId} (source : σ.Source (.list l)) :
    ∀ b ∈ σ.state.heap.items l, σ.SourceBox b := by
  intro b member
  have inside : σ.In (σ.zones.list l) b := ⟨(σ.wf.own_items l b member).2, σ.items l b member⟩
  rcases source with ⟨z, other, fit⟩ | ⟨fit, tree⟩
  · exact .inl ⟨_, fun same => other (fit.2.symm.trans same), inside⟩
  · cases tree with
    | list parts => exact .inr ⟨fit.2 ▸ inside, parts b member⟩

theorem Source.entries {d : DictId} (source : σ.Source (.dict d)) :
    ∀ e ∈ (σ.state.heap.dictionary d).values, σ.SourceBox e.key ∧ σ.SourceBox e.value := by
  intro e member
  have ⟨key, value⟩ := σ.entries d e member
  have ⟨ownKey, ownValue⟩ := σ.wf.own_entries d e member
  rcases source with ⟨z, other, fit⟩ | ⟨fit, tree⟩
  · rw [show σ.zones.dict d = z from fit.2] at key value
    rw [Zone.inner_of_ne_old other] at key
    exact ⟨.inl ⟨.kept, Zone.kept_ne_old, ownKey.2, key⟩, .inl ⟨z, other, ownValue.2, value⟩⟩
  · rw [show σ.zones.dict d = .old from fit.2] at key value
    cases tree with
    | dict keys values =>
      exact ⟨.inr ⟨⟨ownKey.2, key⟩, keys e member⟩, .inr ⟨⟨ownValue.2, value⟩, values e member⟩⟩

theorem Source.fields {i : InstanceId} (source : σ.Source (.struct i)) :
    ∀ b ∈ (σ.state.heap.instanceAt i).fields.values, σ.SourceBox b := by
  intro b member
  rcases source with ⟨z, other, fit⟩ | ⟨-, tree⟩
  · exact .inl ⟨z, other, ((σ.wf.shaped fit.1).boxes b member).2, (σ.fields i b member).trans fit.2⟩
  · cases tree

/-- What a copy shares with its source may stand wherever copies are made. -/
theorem Source.fit_leaf {v : Value} (source : σ.Source v) {z : Zone} (list : ∀ l, v ≠ .list l)
    (dict : ∀ d, v ≠ .dict d) (struct : ∀ i, v ≠ .struct i) : σ.Fit z v := by
  rcases source with ⟨z', other, valid, fits⟩ | ⟨fit, tree⟩
  · refine ⟨valid, ?_⟩
    cases v with
    | list l => exact absurd rfl (list l)
    | dict d => exact absurd rfl (dict d)
    | struct i => exact absurd rfl (struct i)
    | function | module => exact fits.imp_left fun old => absurd old other
    | method f i => exact fits.imp_left fun old => absurd old other
    | nil | bool | int | float | str | builtin | structDef => trivial
  · cases tree with
    | nil | bool | int | float | str => exact ⟨fit.1, trivial⟩
    | list => exact absurd rfl (list _)
    | dict => exact absurd rfl (dict _)

/-- The entry `e'` is a copy of the entry `e`, made for a dictionary of a zone.  Its key lies where no
evaluation leads. -/
structure CopiedEntry (σ : Guarded P) (z : Zone) (e e' : Key × Entry) : Prop where
  name : e'.1 = e.1
  key : σ.In .kept e'.2.key
  value : σ.In z e'.2.value
  filed : σ.state.heap.key P.limit (σ.state.heap.value e'.2.key) = some e.1

theorem CopiedEntry.mono {z : Zone} {e e' : Key × Entry} (later : σ.Later τ)
    (copied : σ.CopiedEntry z e e') : τ.CopiedEntry z e e' where
  name := copied.name
  key := copied.key.mono later
  value := copied.value.mono later
  filed := by rw [later.key_eq copied.key.1 (copied.key.2 ▸ Zone.kept_ne_live), copied.filed]

namespace Safe

/-- What is known of a step of the heap alone, and of its zones, holds together. -/
theorem and_adds {act : HeapM α} {can : Prop} {A : α → Heap → Prop}
    (safe : σ.Safe (onHeap act) (onHeap act) Q) (adds : HeapM.Adds act σ.state.heap can A) :
    σ.Safe (onHeap act) (onHeap act) fun x τ => Q x τ ∧ A x τ.state.heap := by
  obtain ⟨result, τ, run, run', later, after⟩ := safe
  obtain ⟨result', h', runs, -, -, answers, -⟩ := adds
  refine ⟨result, τ, run, run', later, fun x answered => ⟨after x answered, ?_⟩⟩
  rw [onHeap_apply, runs] at run
  have sameResult : result' = result := congrArg Prod.fst run
  have sameHeap : h' = τ.state.heap := congrArg (fun r => r.2.heap) run
  rw [← sameHeap]
  exact answers x (sameResult.trans answered)

/-! ## Deep copies -/

section Clone

variable {inside : BoxId → HeapM BoxId}
  (each : ∀ {τ : Guarded P} {b : BoxId} {z : Zone}, τ.SourceBox b → z ≠ .old →
    τ.Safe (onHeap (inside b)) (onHeap (inside b)) fun c υ => υ.In z c ∧
      υ.state.heap.key P.limit (υ.state.heap.value c) = τ.state.heap.key P.limit (τ.state.heap.value b))
  {z : Zone} (other : z ≠ .old)

include each other

theorem cloneList {l : ListId} (source : σ.Source (.list l)) :
    σ.Safe (onHeap (HeapM.cloneList inside l)) (onHeap (HeapM.cloneList inside l)) fun u τ =>
      τ.Fit z u := by
  rw [HeapM.cloneList, onHeap_get_bind]
  simp only [onHeap_bind, onHeap_mapM, onHeap_pure]
  apply get_bind
  apply bind (mapM_all (S := fun τ c => τ.In z c) _ (fun later inside => inside.mono later) ?_)
  · intro items τ _ ended
    apply bind (allocList other fun b member => ended.2 b (List.mem_toArray.1 member))
    intro l' υ _ fit
    exact pure fit
  · intro b member τ later
    have box := source.items b (Array.mem_toList_iff.1 member)
    exact (each (box.mono later) other).mono fun _ _ _ after => after.1

theorem copyEntry {d : DictId} (source : σ.Source (.dict d)) {e : Key × Entry}
    (member : e ∈ (σ.state.heap.dictionary d).entries) (later : σ.Later τ) :
    let act : Eval (Key × Entry) := do
      let key ← onHeap (inside e.2.key)
      let value ← onHeap (inside e.2.value)
      return (e.1, ⟨key, value⟩)
    τ.Safe act act fun e' υ => υ.CopiedEntry z e e' := by
  intro act
  have listed : e.2 ∈ (σ.state.heap.dictionary d).values := List.mem_map_of_mem member
  have ⟨keySource, valueSource⟩ := source.entries e.2 listed
  have there := (σ.wf.own_entries d e.2 listed).1.2
  have apart : σ.zones.box e.2.key ≠ .live := (σ.entries d e.2 listed).1 ▸ Zone.inner_ne_live _
  apply bind (each (keySource.mono later) Zone.kept_ne_old)
  intro key υ later' keyCopied
  apply bind (each (valueSource.mono (later.trans later')) other)
  intro value φ later'' valueCopied
  refine pure ⟨rfl, keyCopied.1.mono later'', valueCopied.1, ?_⟩
  calc φ.state.heap.key P.limit (φ.state.heap.value key)
      = υ.state.heap.key P.limit (υ.state.heap.value key) :=
        later''.key_eq keyCopied.1.1 (keyCopied.1.2 ▸ Zone.kept_ne_live) _
    _ = τ.state.heap.key P.limit (τ.state.heap.value e.2.key) := keyCopied.2
    _ = σ.state.heap.key P.limit (σ.state.heap.value e.2.key) := later.key_eq there apart _
    _ = some e.1 := σ.filed.key d e member

theorem cloneDict {d : DictId} (source : σ.Source (.dict d)) :
    σ.Safe (onHeap (HeapM.cloneDict inside d)) (onHeap (HeapM.cloneDict inside d)) fun u τ =>
      τ.Fit z u := by
  rw [HeapM.cloneDict, onHeap_get_bind]
  simp only [onHeap_bind, onHeap_mapM, onHeap_pure]
  apply get_bind
  apply bind (mapM (S := fun τ e e' => τ.CopiedEntry z e e') _
    (fun later copied => copied.mono later) fun e member τ later =>
      copyEntry each other source member later)
  intro entries τ _ related
  have listed : ∀ e' ∈ entries, ∃ e, τ.CopiedEntry z e e' := fun e' member =>
    (Heap.exists_of_mem related.flip member).imp fun _ => And.right
  have names : entries.map (·.1) = (σ.state.heap.dictionary d).entries.map (·.1) :=
    Discipline.Agree.map_fst_of_forall₂ (related.imp fun _ _ copied => copied.name)
  apply bind (allocDict (m := ⟨entries⟩) other ?_ ?_ ?_)
  · intro d' υ _ fit
    exact pure fit
  · intro e member
    obtain ⟨entry, inside, rfl⟩ := List.mem_map.1 member
    obtain ⟨_, copied⟩ := listed entry inside
    exact ⟨(Zone.inner_of_ne_old other).symm ▸ copied.key, copied.value⟩
  · intro e member
    obtain ⟨_, copied⟩ := listed e member
    rw [copied.filed, copied.name]
  · rw [OrderedMap.keys, names]
    exact σ.filed.distinct d

theorem cloneInstance {i : InstanceId} (source : σ.Source (.struct i))
    (there : σ.state.HasInstance i) :
    σ.Safe (onHeap (HeapM.cloneInstance inside i)) (onHeap (HeapM.cloneInstance inside i)) fun u τ =>
      τ.Fit z u := by
  have shaped := σ.wf.shaped there
  rw [HeapM.cloneInstance, onHeap_get_bind]
  simp only [onHeap_bind, onHeap_mapM, onHeap_pure]
  apply get_bind
  apply bind (mapM (S := fun τ (e e' : String × BoxId) => e'.1 = e.1 ∧ τ.In z e'.2) _
    (fun later both => ⟨both.1, both.2.mono later⟩) ?_)
  · intro fields τ later related
    have names : fields.map (·.1) =
        (τ.state.heap.structDef (σ.state.heap.instanceAt i).definition).fields := by
      rw [Discipline.Agree.map_fst_of_forall₂ (related.imp fun _ _ both => both.1),
        later.grew.structDef_eq shaped.definition]
      exact shaped.fields
    apply bind (allocInstance (i := ⟨_, ⟨fields⟩⟩) other (shaped.definition.mono later.grew) names ?_)
    · intro j υ _ fit
      exact pure fit
    · intro b member
      obtain ⟨entry, listed, rfl⟩ := List.mem_map.1 member
      obtain ⟨_, -, -, inside⟩ := Heap.exists_of_mem related.flip listed
      exact inside
  · intro e member τ later
    have box := source.fields e.2 (List.mem_map_of_mem member)
    apply bind (each (box.mono later) other)
    intro value υ _ after
    exact pure ⟨rfl, after.1⟩

end Clone

/-- A copy in a new box. -/
theorem boxed_clone {limit : Nat} {b : BoxId} {z : Zone}
    (copies : σ.Safe (onHeap (HeapM.cloneValue limit (σ.state.heap.value b)))
      (onHeap (HeapM.cloneValue limit (σ.state.heap.value b))) fun u τ => τ.Fit z u) :
    σ.Safe (onHeap (HeapM.clone limit b)) (onHeap (HeapM.clone limit b)) fun c τ => τ.In z c ∧
      τ.state.heap.key P.limit (τ.state.heap.value c) =
        σ.state.heap.key P.limit (σ.state.heap.value b) := by
  have zoned : σ.Safe (onHeap (HeapM.clone limit b)) (onHeap (HeapM.clone limit b)) fun c τ =>
      τ.In z c := by
    simp only [HeapM.clone, onHeap_bind, Discipline.Agree.onHeap_read]
    apply read_bind b
    apply bind copies
    intro u τ _ fit
    exact (allocIn fit).mono fun _ _ _ after => after.1
  apply (zoned.and_adds (HeapM.adds_clone limit σ.wf.sound b)).mono
  intro c τ _ both
  exact ⟨both.1, both.2.alike.key_eq P.limit⟩

/-- A deep copy fits into the zone it is made for.  The induction is on the depth that is left. -/
theorem cloneValue (limit : Nat) {σ : Guarded P} {v : Value} {z : Zone} (source : σ.Source v)
    (valid : σ.state.Valid v) (other : z ≠ .old) :
    σ.Safe (onHeap (HeapM.cloneValue limit v)) (onHeap (HeapM.cloneValue limit v)) fun u τ =>
      τ.Fit z u := by
  induction limit generalizing σ v z with
  | zero =>
    rw [HeapM.cloneValue, onHeap_throw]
    exact throw
  | succ limit ih =>
    have each : ∀ {τ : Guarded P} {b : BoxId} {z : Zone}, τ.SourceBox b → z ≠ .old →
        τ.Safe (onHeap (HeapM.clone limit b)) (onHeap (HeapM.clone limit b)) fun c υ => υ.In z c ∧
          υ.state.heap.key P.limit (υ.state.heap.value c) =
            τ.state.heap.key P.limit (τ.state.heap.value b) :=
      fun {τ b z} box other' => boxed_clone (ih box.source (τ.wf.valid_value b) other')
    cases v with
    | list l => exact cloneList each other source
    | dict d => exact cloneDict each other source
    | struct i => exact cloneInstance each other source valid
    | nil | bool | int | float | str | function | method | builtin | module | structDef =>
      change σ.Safe (onHeap (Pure.pure _)) (onHeap (Pure.pure _)) _
      rw [onHeap_pure]
      exact pure (source.fit_leaf (by simp) (by simp) (by simp))

/-- A deep copy of what is in a box lies in the zone it is made for, and is filed under what the value is
filed under. -/
theorem clone (limit : Nat) {b : BoxId} {z : Zone} (source : σ.Source (σ.state.heap.value b))
    (other : z ≠ .old) :
    σ.Safe (onHeap (HeapM.clone limit b)) (onHeap (HeapM.clone limit b)) fun c τ => τ.In z c ∧
      τ.state.heap.key P.limit (τ.state.heap.value c) =
        σ.state.heap.key P.limit (σ.state.heap.value b) :=
  boxed_clone (cloneValue limit source (σ.wf.valid_value b) other)

/-! ## Dictionaries -/

theorem bounded_bind {f : Heap → Option α} {f₁ f₂ : α → Eval β}
    (rest : ∀ x, f σ.state.heap = some x → σ.Safe (f₁ x) (f₂ x) R) :
    σ.Safe (onHeap (HeapM.bounded f) >>= f₁) (onHeap (HeapM.bounded f) >>= f₂) R := by
  rw [HeapM.bounded, onHeap_get_bind, bind_assoc, bind_assoc]
  apply get_bind
  cases answer : f σ.state.heap with
  | none => exact throw
  | some x => exact rest x answer

theorem keyOf_bind {limit : Nat} {b : BoxId} {f₁ f₂ : Key → Eval β}
    (rest : ∀ k, σ.state.heap.key limit (σ.state.heap.value b) = some k → σ.Safe (f₁ k) (f₂ k) R) :
    σ.Safe (onHeap (HeapM.keyOf limit b) >>= f₁) (onHeap (HeapM.keyOf limit b) >>= f₂) R := by
  simp only [HeapM.keyOf, onHeap_bind, Discipline.Agree.onHeap_read, bind_assoc]
  apply read_bind b
  exact bounded_bind rest

/-- What a live dictionary has under a key is live. -/
theorem dictGet?_bind {d : DictId} {limit : Nat} {key : BoxId} {f₁ f₂ : Option BoxId → Eval β}
    (fit : σ.Fit .live (.dict d))
    (rest : ∀ found, (∀ b, found = some b → σ.In .live b) → σ.Safe (f₁ found) (f₂ found) R) :
    σ.Safe (onHeap (HeapM.dictGet? limit d key) >>= f₁) (onHeap (HeapM.dictGet? limit d key) >>= f₂)
      R := by
  rw [HeapM.dictGet?, onHeap_bind, bind_assoc, bind_assoc]
  apply keyOf_bind
  intro k _
  apply rest
  intro b isBox
  obtain ⟨e, found, rfl⟩ := Option.map_eq_some_iff.1 isBox
  exact (in_entries fit.2 e (OrderedMap.mem_values_of_get? found)).2

theorem keyNotFound {limit : Nat} {container key : BoxId} :
    σ.Safe (onHeap (HeapM.keyNotFound limit container key))
      (onHeap (HeapM.keyNotFound limit container key)) Q := by
  simp only [HeapM.keyNotFound, onHeap_bind, Discipline.Agree.onHeap_read, onHeap_raise]
  apply read_bind key
  apply bounded_bind
  intro shown _
  apply read_bind container
  exact raise

/-- Filing a live value.  A key that is new is kept as a deep copy. -/
theorem dictSet {d : DictId} {key value : BoxId} (fit : σ.Fit .live (.dict d))
    (source : σ.Source (σ.state.heap.value key)) (live : σ.In .live value) :
    σ.Safe (onHeap (HeapM.dictSet P.limit d key value)) (onHeap (HeapM.dictSet P.limit d key value))
      fun _ _ => True := by
  rw [HeapM.dictSet, onHeap_bind]
  apply keyOf_bind
  intro k filed
  rw [onHeap_get_bind]
  apply get_bind
  cases known : (σ.state.heap.dictionary d).get? k with
  | some old =>
    have listed := OrderedMap.mem_entries_of_get? known
    exact file fit (in_entries fit.2 old (List.mem_map_of_mem listed)).1 (σ.filed.key d _ listed) live
  | none =>
    simp only [onHeap_bind]
    apply bind (clone P.limit source Zone.kept_ne_old)
    intro kept τ later copied
    exact file (fit.mono later) copied.1 (copied.2.trans filed) (live.mono later)

theorem dictDelete {d : DictId} {key : BoxId} (fit : σ.Fit .live (.dict d)) (limit : Nat) :
    σ.Safe (onHeap (HeapM.dictDelete limit d key)) (onHeap (HeapM.dictDelete limit d key))
      fun _ _ => True := by
  rw [HeapM.dictDelete, onHeap_bind]
  apply keyOf_bind
  intro k _
  rw [onHeap_get_bind]
  apply get_bind
  split
  · simp only [onHeap_bind, onHeap_pure]
    apply bind (unfile fit)
    exact fun _ _ _ _ => pure trivial
  · rw [onHeap_pure]
    exact pure trivial

end Safe

/-! ## Sequences -/

/-- The elements of a sequence are live. -/
def Elements (σ : Guarded P) : Sequence → Prop
  | .text _ => True
  | .boxes items => ∀ b ∈ items, σ.In .live b

theorem Elements.mono {q : Sequence} (later : σ.Later τ) (elements : σ.Elements q) : τ.Elements q := by
  cases q with
  | text chars => trivial
  | boxes items => exact fun b member => (elements b member).mono later

theorem elements_items {l : ListId} (fit : σ.Fit .live (.list l)) :
    ∀ b ∈ σ.state.heap.items l, σ.In .live b :=
  fun b member => ⟨(σ.wf.own_items l b member).2, (σ.items l b member).trans fit.2⟩

theorem fit_str {z : Zone} (s : String) : σ.Fit z (.str s) := ⟨trivial, trivial⟩

namespace Safe

theorem ofValue_bind {v : Value} {f₁ f₂ : Sequence → Eval β} (fit : σ.Fit .live v)
    (rest : ∀ q, σ.Elements q → σ.Safe (f₁ q) (f₂ q) R) :
    σ.Safe (onHeap (Sequence.ofValue v) >>= f₁) (onHeap (Sequence.ofValue v) >>= f₂) R := by
  cases v with
  | str text =>
    rw [Sequence.ofValue, onHeap_pure]
    exact rest _ trivial
  | list l => exact rest (.boxes (σ.state.heap.items l)) (elements_items fit)
  | nil | bool | int | float | dict | struct | function | method | builtin | module | structDef =>
    rw [Sequence.ofValue, onHeap_raise]
    · exact raise
    · simp
    · simp

theorem sequenceIndex {q : Sequence} (elements : σ.Elements q) (i : Nat) :
    σ.Safe (onHeap (q.index i)) (onHeap (q.index i)) fun b τ => τ.In .live b := by
  cases q with
  | text chars =>
    rw [Sequence.index]
    split
    · exact alloc (fit_str _)
    · rw [onHeap_raise]
      exact raise
  | boxes items =>
    rw [Sequence.index]
    split
    · next b found =>
      rw [onHeap_pure]
      exact pure (elements b (Array.mem_of_getElem? found))
    · rw [onHeap_raise]
      exact raise

/-- Copies of live boxes. -/
theorem copyAll {boxes : List BoxId} (live : ∀ b ∈ boxes, σ.In .live b) :
    σ.Safe (boxes.mapM fun b => onHeap (HeapM.copy b)) (boxes.mapM fun b => onHeap (HeapM.copy b))
      fun copies τ => ∀ c ∈ copies, τ.In .live c := by
  apply (mapM_all (S := fun τ c => τ.In .live c) boxes (fun later inside => inside.mono later) ?_).mono
  · exact fun _ _ _ after => after.2
  · exact fun b member τ later => heapCopy (fit_value ((live b member).mono later))

/-- A new list of copies of live boxes. -/
theorem copyList {boxes : List BoxId} (live : ∀ b ∈ boxes, σ.In .live b) :
    σ.Safe
      (do
        let copies ← boxes.mapM fun b => onHeap (HeapM.copy b)
        let l ← onHeap (HeapM.allocList copies.toArray)
        Pure.pure (Value.list l))
      (do
        let copies ← boxes.mapM fun b => onHeap (HeapM.copy b)
        let l ← onHeap (HeapM.allocList copies.toArray)
        Pure.pure (Value.list l))
      fun v τ => τ.Fit .live v := by
  apply bind (copyAll live)
  intro copies τ _ copied
  apply bind (allocList Zone.live_ne_old fun c member => copied c (List.mem_toArray.1 member))
  intro l υ _ fit
  exact pure fit

theorem slice {q : Sequence} (elements : σ.Elements q) (first last : Nat) :
    σ.Safe (onHeap (q.slice first last)) (onHeap (q.slice first last)) fun v τ => τ.Fit .live v := by
  cases q with
  | text chars =>
    rw [Sequence.slice, onHeap_pure]
    exact pure (fit_str _)
  | boxes items =>
    simp only [Sequence.slice, onHeap_bind, onHeap_mapM, onHeap_pure]
    refine copyList fun b member => elements b ?_
    rw [Array.toList_extract] at member
    exact Array.mem_toList_iff.1 (List.mem_of_mem_drop (List.mem_of_mem_take member))

theorem elements {q : Sequence} (here : σ.Elements q) :
    σ.Safe (onHeap q.elements) (onHeap q.elements) fun boxes τ => ∀ b ∈ boxes, τ.In .live b := by
  cases q with
  | text chars =>
    rw [Sequence.elements, onHeap_mapM]
    apply (mapM_all (S := fun τ c => τ.In .live c) _ (fun later inside => inside.mono later) ?_).mono
    · exact fun _ _ _ after => after.2
    · exact fun c _ τ _ => alloc (fit_str _)
  | boxes items =>
    rw [Sequence.elements, onHeap_pure]
    exact pure fun b member => here b (Array.mem_toList_iff.1 member)

end Safe

end Guarded

end Shiba

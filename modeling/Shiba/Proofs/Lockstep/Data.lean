import Shiba.Proofs.Lockstep.Rules
import Shiba.Value.Sequence

/-!
# Rules for data

Deep copies, dictionaries and sequences, which touch nothing but the heap.  A deep copy is a new box
in hand, and everything below it is new and stored once; filing a value gives its box away; and an
element is taken out of a sequence only inside its bounds.
-/

namespace Shiba

namespace Discipline.Agree

open Eval

variable {D : Discipline} {w : D.World} {H K : Multiset BoxId} {s₁ s₂ : State}

theorem onHeap_read (b : BoxId) : onHeap (HeapM.read b) = Eval.read b := by
  funext s
  cases s
  rfl

/-! ## Deep copies -/

theorem map_fst_of_forall₂ {α β γ : Type} {k : α → γ} {xs : List α} {ys : List (γ × β)}
    (related : List.Forall₂ (fun x y => y.1 = k x) xs ys) : ys.map (·.1) = xs.map k := by
  induction related with
  | nil => rfl
  | cons same _ ih => rw [List.map_cons, List.map_cons, same, ih]

section Clone

variable {inside : BoxId → HeapM BoxId}
  (each : ∀ {K t₁ t₂} b, D.Holds w K t₁ t₂ →
    D.Agree w t₁ t₂ (onHeap (inside b)) (onHeap (inside b)) fun c u₁ u₂ => D.Holds w (c ::ₘ K) u₁ u₂)

include each

theorem cloneList (holds : D.Holds w H s₁ s₂) (l : ListId) :
    D.Agree w s₁ s₂ (onHeap (HeapM.cloneList inside l)) (onHeap (HeapM.cloneList inside l))
      fun u t₁ t₂ => D.Holds w H t₁ t₂ ∧ t₁.Valid u := by
  rw [HeapM.cloneList, onHeap_get_bind]
  simp only [onHeap_bind, onHeap_mapM, onHeap_pure]
  apply get_bind
  rw [holds.alike.heap]
  apply bind (collect (R := fun _ _ => True) (g := fun c => {c}) _ holds ?_)
  · intro items t₁ t₂ _ ended
    obtain ⟨copied, -⟩ := ended
    rw [Multiset.bind_singleton, Multiset.map_id'] at copied
    apply bind (allocList (by simpa using copied))
    intro l' u₁ u₂ _ ended
    obtain ⟨after, valid⟩ := ended
    exact pure _ ⟨after, valid⟩
  · intro b _ K t₁ t₂ _ here
    exact (each b here).mono fun _ _ _ _ after => ⟨after, trivial⟩

theorem cloneDict (holds : D.Holds w H s₁ s₂) (d : DictId) :
    D.Agree w s₁ s₂ (onHeap (HeapM.cloneDict inside d)) (onHeap (HeapM.cloneDict inside d))
      fun u t₁ t₂ => D.Holds w H t₁ t₂ ∧ t₁.Valid u := by
  rw [HeapM.cloneDict, onHeap_get_bind]
  simp only [onHeap_bind, onHeap_mapM, onHeap_pure]
  apply get_bind
  rw [holds.alike.heap]
  apply bind (collect (R := fun _ _ => True) (g := fun e => e.2.boxes) _ holds ?_)
  · intro entries t₁ t₂ _ ended
    obtain ⟨copied, -⟩ := ended
    rw [← Multiset.bind_map, Multiset.map_coe] at copied
    apply bind (allocDict (m := ⟨entries⟩) copied)
    intro d' u₁ u₂ _ ended
    obtain ⟨after, valid⟩ := ended
    exact pure _ ⟨after, valid⟩
  · intro e _ K t₁ t₂ _ here
    apply bind (each e.2.key here)
    intro key u₁ u₂ _ after
    apply bind (each e.2.value after)
    intro value v₁ v₂ _ after'
    refine pure _ ⟨?_, trivial⟩
    have order : (Entry.mk key value).boxes + K = value ::ₘ key ::ₘ K := by
      simp [Entry.boxes, Multiset.cons_swap]
    rw [order]
    exact after'

theorem cloneInstance (holds : D.Holds w H s₁ s₂) {i : InstanceId} (there : s₁.HasInstance i) :
    D.Agree w s₁ s₂ (onHeap (HeapM.cloneInstance inside i)) (onHeap (HeapM.cloneInstance inside i))
      fun u t₁ t₂ => D.Holds w H t₁ t₂ ∧ t₁.Valid u := by
  have shaped := holds.wf.shaped there
  rw [HeapM.cloneInstance, onHeap_get_bind]
  simp only [onHeap_bind, onHeap_mapM, onHeap_pure]
  apply get_bind
  rw [holds.alike.heap]
  apply bind (collect (R := fun x y => y.1 = x.1) (g := fun e => {e.2}) _ holds ?_)
  · intro fields t₁ t₂ grew ended
    obtain ⟨copied, related⟩ := ended
    have names : fields.map (·.1) = (t₁.heap.structDef (s₁.heap.instanceAt i).definition).fields := by
      rw [map_fst_of_forall₂ related, grew.structDef_eq shaped.definition]
      exact shaped.fields
    rw [Multiset.bind_singleton, Multiset.map_coe] at copied
    apply bind (allocInstance (i := ⟨_, ⟨fields⟩⟩) (shaped.definition.mono grew) names copied)
    intro j u₁ u₂ _ ended
    obtain ⟨after, valid⟩ := ended
    exact pure _ ⟨after, valid⟩
  · intro e _ K t₁ t₂ _ here
    apply bind (each e.2 here)
    intro value u₁ u₂ _ after
    exact pure _ ⟨after, rfl⟩

end Clone

/-- A deep copy refers to nothing that is not there.  The induction is on the depth that is left. -/
theorem cloneValue (limit : Nat) {H s₁ s₂ v} (holds : D.Holds w H s₁ s₂) (valid : s₁.Valid v) :
    D.Agree w s₁ s₂ (onHeap (HeapM.cloneValue limit v)) (onHeap (HeapM.cloneValue limit v))
      fun u t₁ t₂ => D.Holds w H t₁ t₂ ∧ t₁.Valid u := by
  induction limit generalizing H s₁ s₂ v with
  | zero =>
    rw [HeapM.cloneValue, onHeap_throw]
    exact throw holds id
  | succ limit ih =>
    have each : ∀ {K t₁ t₂} (b : BoxId), D.Holds w K t₁ t₂ →
        D.Agree w t₁ t₂
          (onHeap (do HeapM.alloc (← HeapM.cloneValue limit (← HeapM.read b))))
          (onHeap (do HeapM.alloc (← HeapM.cloneValue limit (← HeapM.read b))))
          fun c u₁ u₂ => D.Holds w (c ::ₘ K) u₁ u₂ := by
      intro K t₁ t₂ b here
      simp only [onHeap_bind, onHeap_read]
      apply read_bind here b
      apply bind (ih here (here.wf.valid_value b))
      intro u v₁ v₂ _ ended
      obtain ⟨after, valid'⟩ := ended
      exact alloc after valid'
    cases v with
    | list l => exact cloneList each holds l
    | dict d => exact cloneDict each holds d
    | struct i => exact cloneInstance each holds valid
    | nil | bool | int | float | str | function | method | builtin | module | structDef =>
      change D.Agree w s₁ s₂ (onHeap (Pure.pure _)) (onHeap (Pure.pure _)) _
      rw [onHeap_pure]
      exact pure _ ⟨holds, valid⟩

/-- A deep copy of what is in a box is in hand. -/
theorem clone (holds : D.Holds w H s₁ s₂) (limit : Nat) (b : BoxId) :
    D.Agree w s₁ s₂ (onHeap (HeapM.clone limit b)) (onHeap (HeapM.clone limit b))
      fun c t₁ t₂ => D.Holds w (c ::ₘ H) t₁ t₂ := by
  simp only [HeapM.clone, onHeap_bind, onHeap_read]
  apply read_bind holds b
  apply bind (cloneValue limit holds (holds.wf.valid_value b))
  intro u u₁ u₂ _ ended
  obtain ⟨after, valid⟩ := ended
  exact alloc after valid

/-! ## Dictionaries -/

theorem keyOf (holds : D.Holds w H s₁ s₂) (limit : Nat) (b : BoxId) :
    D.Agree w s₁ s₂ (onHeap (HeapM.keyOf limit b)) (onHeap (HeapM.keyOf limit b)) fun _ t₁ t₂ =>
      Unchanged s₁ s₂ t₁ t₂ := by
  simp only [HeapM.keyOf, onHeap_bind, onHeap_read]
  apply read_bind holds b
  exact (bounded holds _).mono fun _ _ _ _ after => after.1

theorem dictGet? (holds : D.Holds w H s₁ s₂) (limit : Nat) (d : DictId) (key : BoxId) :
    D.Agree w s₁ s₂ (onHeap (HeapM.dictGet? limit d key)) (onHeap (HeapM.dictGet? limit d key))
      fun found t₁ t₂ => Unchanged s₁ s₂ t₁ t₂ ∧ ∀ b, found = some b → s₁.Stored b := by
  rw [HeapM.dictGet?, onHeap_bind]
  apply look_bind (keyOf holds limit key)
  intro k
  rw [onHeap_get_bind]
  apply get_bind
  rw [holds.alike.heap, onHeap_pure]
  refine pure _ ⟨⟨rfl, rfl⟩, ?_⟩
  intro b isBox
  obtain ⟨e, found, rfl⟩ := Option.map_eq_some_iff.1 isBox
  exact .entry (OrderedMap.mem_values_of_get? found) rfl

/-- An operation that changes a dictionary. -/
theorem onDictionary (d : DictId) (f : Dictionary → Dictionary) (op : Operation)
    (holds : D.Holds w H s₁ s₂) (allowed : op.Allowed H s₁ K) (unwritten : op.written? = none)
    (unbound : op.target? = none)
    (run : ∀ s, op.apply s = s.withHeap (s.heap.setDictionary d (f (s.heap.dictionary d)))) :
    D.Agree w s₁ s₂ (onHeap (modify fun h => h.setDictionary d (f (h.dictionary d))))
      (onHeap (modify fun h => h.setDictionary d (f (h.dictionary d)))) fun _ t₁ t₂ =>
        D.Holds w K t₁ t₂ := by
  have step : D.Agree w s₁ s₂ (onHeap (modify fun h => h.setDictionary d (f (h.dictionary d))))
      (onHeap (modify fun h => h.setDictionary d (f (h.dictionary d)))) fun _ t₁ t₂ =>
        D.Holds w K t₁ t₂ ∧ True := by
    refine heapOperation op (fun _ => ()) holds allowed (by rw [unwritten]; exact nofun) unbound ?_ trivial
    intro s
    rw [run]
    rfl
  exact step.mono fun _ _ _ _ after => after.1

/-- Filing a value takes its box out of hand. -/
theorem dictSet {value : BoxId} (holds : D.Holds w (value ::ₘ H) s₁ s₂) (limit : Nat) (d : DictId)
    (key : BoxId) :
    D.Agree w s₁ s₂ (onHeap (HeapM.dictSet limit d key value))
      (onHeap (HeapM.dictSet limit d key value)) fun _ t₁ t₂ => D.Holds w H t₁ t₂ := by
  rw [HeapM.dictSet, onHeap_bind]
  apply look_bind (keyOf holds limit key)
  intro k
  rw [onHeap_get_bind]
  apply get_bind
  rw [holds.alike.heap]
  cases known : (s₁.heap.dictionary d).get? k with
  | some old =>
    exact onDictionary d (·.insert k ⟨old.key, value⟩) (.file d k ⟨old.key, value⟩) holds
      (.inl ⟨old, known, rfl, rfl⟩) rfl rfl fun _ => rfl
  | none =>
    simp only [onHeap_bind]
    apply bind (clone holds limit key)
    intro kept u₁ u₂ _ after
    have order : kept ::ₘ value ::ₘ H = (Entry.mk kept value).boxes + H := by
      simp [Entry.boxes]
    exact onDictionary d (·.insert k ⟨kept, value⟩) (.file d k _) after (.inr order) rfl rfl fun _ => rfl

theorem dictDelete (holds : D.Holds w H s₁ s₂) (limit : Nat) (d : DictId) (key : BoxId) :
    D.Agree w s₁ s₂ (onHeap (HeapM.dictDelete limit d key)) (onHeap (HeapM.dictDelete limit d key))
      fun _ t₁ t₂ => D.Holds w H t₁ t₂ := by
  rw [HeapM.dictDelete, onHeap_bind]
  apply look_bind (keyOf holds limit key)
  intro k
  rw [onHeap_get_bind]
  apply get_bind
  rw [holds.alike.heap]
  split
  · simp only [onHeap_bind, onHeap_pure]
    apply bind (onDictionary d (·.erase k) (.unfile d k) holds rfl rfl rfl fun _ => rfl)
    intro _ u₁ u₂ _ after
    exact pure _ after
  · rw [onHeap_pure]
    exact pure _ holds

theorem keyNotFound {α : Type} {Q : α → State → State → Prop} (holds : D.Holds w H s₁ s₂)
    (limit : Nat) (container key : BoxId) :
    D.Agree w s₁ s₂ (onHeap (HeapM.keyNotFound limit container key))
      (onHeap (HeapM.keyNotFound limit container key)) Q := by
  simp only [HeapM.keyNotFound, onHeap_bind, onHeap_read, onHeap_raise]
  apply read_bind holds key
  apply find_bind (bounded holds _)
  intro shown _
  apply read_bind holds container
  exact raise holds nofun

/-! ## Sequences -/

/-- The elements of a sequence are in boxes of the program. -/
def HasElements (s : State) : Sequence → Prop
  | .text _ => True
  | .boxes items => ∀ b ∈ items, s.OwnBox b

theorem ofValue {v : Value} (holds : D.Holds w H s₁ s₂) (isSequence : v.isSequence = true) :
    D.Agree w s₁ s₂ (onHeap (Sequence.ofValue v)) (onHeap (Sequence.ofValue v)) fun q t₁ t₂ =>
      Unchanged s₁ s₂ t₁ t₂ ∧ HasElements s₁ q := by
  cases v with
  | str text =>
    rw [Sequence.ofValue, onHeap_pure]
    exact pure _ ⟨⟨rfl, rfl⟩, trivial⟩
  | list l =>
    rw [Sequence.ofValue, onHeap_get_bind]
    apply get_bind
    rw [holds.alike.heap, onHeap_pure]
    exact pure _ ⟨⟨rfl, rfl⟩, holds.wf.own_items l⟩
  | nil | bool | int | float | dict | struct | function | method | builtin | module | structDef =>
    cases isSequence

/-- An element inside a sequence is there. -/
theorem sequenceIndex {q : Sequence} {i : Nat} (holds : D.Holds w H s₁ s₂)
    (elements : HasElements s₁ q) (inside : i < q.size) :
    D.Agree w s₁ s₂ (onHeap (q.index i)) (onHeap (q.index i)) fun b t₁ t₂ =>
      D.Holds w H t₁ t₂ ∧ t₁.OwnBox b := by
  cases q with
  | text chars =>
    simp only [Sequence.size] at inside
    simp only [Sequence.index, Array.getElem?_eq_getElem inside]
    apply (alloc (v := .str _) holds trivial).mono
    intro b t₁ t₂ _ after
    exact ⟨after.drop (Multiset.le_cons_self _ _), after.held b (Multiset.mem_cons_self _ _)⟩
  | boxes items =>
    simp only [Sequence.size] at inside
    simp only [Sequence.index, Array.getElem?_eq_getElem inside, onHeap_pure]
    exact pure _ ⟨holds, elements _ (Array.getElem_mem inside)⟩

/-- An element of a list is in a slot. -/
theorem itemIndex {l : ListId} {i : Nat} (holds : D.Holds w H s₁ s₂) (inside : i < (s₁.heap.items l).size) :
    D.Agree w s₁ s₂ (onHeap ((Sequence.boxes (s₁.heap.items l)).index i))
      (onHeap ((Sequence.boxes (s₁.heap.items l)).index i)) fun b t₁ t₂ =>
        D.Holds w H t₁ t₂ ∧ t₁.Stored b := by
  simp only [Sequence.index, Array.getElem?_eq_getElem inside, onHeap_pure]
  exact pure _ ⟨holds, .element (Array.getElem_mem inside)⟩

/-- A new list of copies of some boxes. -/
theorem copyAll (holds : D.Holds w H s₁ s₂) (boxes : List BoxId) :
    D.Agree w s₁ s₂ (boxes.mapM fun b => onHeap (HeapM.copy b))
      (boxes.mapM fun b => onHeap (HeapM.copy b)) fun copies t₁ t₂ =>
        D.Holds w ((copies : Multiset BoxId) + H) t₁ t₂ ∧ copies.length = boxes.length := by
  apply (collect (R := fun _ _ => True) (g := fun c => {c}) boxes holds ?_).mono
  · intro copies t₁ t₂ _ ended
    obtain ⟨copied, related⟩ := ended
    rw [Multiset.bind_singleton, Multiset.map_id'] at copied
    exact ⟨copied, related.length_eq.symm⟩
  · intro b _ K t₁ t₂ _ here
    exact (heapCopy here b).mono fun _ _ _ _ after => ⟨after, trivial⟩

theorem slice (holds : D.Holds w H s₁ s₂) (q : Sequence) (first last : Nat) :
    D.Agree w s₁ s₂ (onHeap (q.slice first last)) (onHeap (q.slice first last)) fun v t₁ t₂ =>
      D.Holds w H t₁ t₂ ∧ t₁.Valid v := by
  cases q with
  | text chars =>
    rw [Sequence.slice, onHeap_pure]
    exact pure _ ⟨holds, trivial⟩
  | boxes items =>
    simp only [Sequence.slice, onHeap_bind, onHeap_mapM, onHeap_pure]
    apply bind (copyAll holds _)
    intro copies t₁ t₂ _ ended
    obtain ⟨copied, -⟩ := ended
    apply bind (allocList (by simpa using copied))
    intro l u₁ u₂ _ ended
    obtain ⟨after, valid⟩ := ended
    exact pure _ ⟨after, valid⟩

theorem elements (holds : D.Holds w H s₁ s₂) (q : Sequence) :
    D.Agree w s₁ s₂ (onHeap q.elements) (onHeap q.elements) fun boxes t₁ t₂ =>
      D.Holds w H t₁ t₂ ∧ boxes.length = q.size := by
  cases q with
  | text chars =>
    rw [Sequence.elements, onHeap_mapM]
    apply (mapM (D := D) (w := w)
      (I := fun before (boxes : List BoxId) t₁ t₂ =>
        D.Holds w H t₁ t₂ ∧ boxes.length = before.length) chars.toList ⟨holds, rfl⟩ ?_).mono
    · intro boxes t₁ t₂ _ ended
      obtain ⟨after, length⟩ := ended
      exact ⟨after, by simpa [Sequence.size] using length⟩
    · intro c _ before boxes t₁ t₂ _ ended
      obtain ⟨here, length⟩ := ended
      apply (alloc (v := .str _) here trivial).mono
      intro b u₁ u₂ _ after
      exact ⟨after.drop (Multiset.le_cons_self _ _), by simp [length]⟩
  | boxes items =>
    rw [Sequence.elements, onHeap_pure]
    exact pure _ ⟨holds, by simp [Sequence.size]⟩

end Discipline.Agree

end Shiba

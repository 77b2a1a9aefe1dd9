import Shiba.Operator.Apply
import Shiba.Proofs.Keys.Access
import Shiba.Proofs.State.Operation

/-!
# Operators only add to the heap

An operator that combines two values answers in a heap that has grown at most, or it stops for a cause and
leaves the heap as it is (`BinaryOp.compute_run`).
-/

namespace Shiba

/-- A step of the heap answers in a heap that has grown at most, or it stops for a cause and changes
nothing. -/
def HeapM.AddsOrFails {α : Type} (act : HeapM α) (h : Heap) : Prop :=
  (∃ x h', act h = (.ok x, h') ∧ h.Grows h') ∨ ∃ cause, act h = (.error (.ofCause cause), h)

namespace HeapM.AddsOrFails

variable {α : Type} {h : Heap}

theorem pure (x : α) : AddsOrFails (Pure.pure x) h := .inl ⟨x, h, rfl, .refl h⟩

theorem raise (cause : Cause) : AddsOrFails (HeapM.raise cause : HeapM α) h := .inr ⟨cause, rfl⟩

theorem ofCause {β : Type} (result : Except Cause α) (f : α → β) :
    AddsOrFails (do return f (← HeapM.ofCause result)) h := by
  cases result with
  | ok x => exact pure (f x)
  | error cause => exact raise cause

end HeapM.AddsOrFails

theorem Heap.Grows.push (h : Heap) (v : Value) : h.Grows { h with boxes := h.boxes.push v } :=
  { Heap.Grows.refl h with boxes := HeapM.prefix_push _ _ }

/-- Copying boxes makes new ones. -/
theorem HeapM.run_mapM_copy (boxes : List BoxId) (h : Heap) : ∃ copies h',
    boxes.mapM HeapM.copy h = (.ok copies, h') ∧ h.Grows h' := by
  induction boxes generalizing h with
  | nil => exact ⟨[], h, rfl, .refl h⟩
  | cons b boxes ih =>
    let h₁ : Heap := { h with boxes := h.boxes.push (h.value b) }
    obtain ⟨copies, h', run, grown⟩ := ih h₁
    refine ⟨⟨h.boxes.size⟩ :: copies, h', ?_, (Heap.Grows.push h _).trans grown⟩
    have copied : HeapM.copy b h = (.ok ⟨h.boxes.size⟩, h₁) := rfl
    rw [List.mapM_cons, HeapM.run_bind copied, HeapM.run_bind run]
    rfl

theorem BinaryOp.compute_run (op : BinaryOp) (l r : Value) (h : Heap) :
    HeapM.AddsOrFails (op.compute l r) h := by
  unfold compute
  split
  · split
    · exact .ofCause _ Value.int
    · exact .raise _
  case h_2 | h_3 | h_4 =>
    dsimp only
    split
    · exact .ofCause _ Value.float
    · exact .raise _
  · split
    · exact .pure _
    · exact .raise _
  · next a b =>
    split
    · obtain ⟨copies, h', run, grown⟩ := HeapM.run_mapM_copy (h.items a ++ h.items b).toList h
      let joined : Heap := { h' with lists := h'.lists.push copies.toArray }
      have added : h'.Grows joined := { Heap.Grows.refl h' with lists := HeapM.prefix_push _ _ }
      refine .inl ⟨.list ⟨h'.lists.size⟩, joined, ?_, grown.trans added⟩
      rw [HeapM.run_bind (HeapM.run_get h), HeapM.run_bind run]
      rfl
    · exact .raise _
  · exact .raise _

/-- The operator of a computing assignment answers in a heap that has grown at most, or it stops for a
cause and leaves the heap as it is. -/
theorem ComputeOp.apply_run (op : ComputeOp) (limit : Nat) (l r : Value) (h : Heap) :
    HeapM.AddsOrFails (op.binary.apply limit l r) h := by
  have isCompute : op.binary.apply limit l r = op.binary.compute l r := by cases op <;> rfl
  rw [isCompute]
  exact op.binary.compute_run l r h

/-- What is in a slot stays there when the heap grows. -/
theorem State.Stored.withHeap {s : State} {b : BoxId} {h : Heap} (stored : s.Stored b)
    (grown : s.heap.Grows h) : (s.withHeap h).Stored b := by
  cases stored with
  | name here listed => exact .name here listed
  | element item => exact .element (grown.items_eq (hasList_of_mem item) ▸ item)
  | entry member isValue =>
    obtain ⟨listed, inside, rfl⟩ := List.mem_map.1 member
    exact .entry (grown.dictionary_eq (hasDict_of_mem inside) ▸ member) isValue
  | field member => exact .field (grown.instanceAt_eq (hasInstance_of_mem member) ▸ member)

end Shiba

import Shiba.Proofs.BoxOwnership
import Shiba.Proofs.Zones.Operation

/-!
# Boxes in hand

A box that was allocated and that nothing holds yet is out of a program's reach: only boxes in slots are
written, and a box in hand is in none.  So it keeps its value, whatever is evaluated meanwhile.

* `Owned.mem_slots`: what is in a slot is counted among the slots.
* `evalExpr_keeps_held`: the boxes in hand hold what they held when an expression has been evaluated.
-/

namespace Shiba

open Eval (receivedNames)

/-! ## What is in a slot is counted -/

theorem Frame.mem_ownBoxes_or {f : Frame BoxId StructId} {b : BoxId} (fields : OrderedMap String BoxId)
    (listed : b ∈ f.objs.values) : b ∈ f.ownBoxes fields ∨ b ∈ fields.values := by
  rw [Levels.values_eq, List.mem_append] at listed
  rw [ownBoxes, Multiset.mem_add]
  rcases listed with inBlock | inBody
  · exact .inl (.inl inBlock)
  · obtain ⟨e, member, rfl⟩ := List.mem_map.1 inBody
    by_cases isField : fields.get? e.1 = some e.2
    · exact .inr (OrderedMap.mem_values_of_get? isField)
    · exact .inl (.inr (List.mem_map_of_mem (List.mem_filter.2 ⟨member, by simpa using isField⟩)))

/-- What a scope holds is its own, or it is a field of the receiver of a call. -/
theorem Scope.mem_ownBoxes_or {h : Heap} {receivers : List (Option InstanceId)} {s : Scope BoxId StructId}
    {b : BoxId} (calls : receivers.length = s.frames.length) (listed : b ∈ s.objs) :
    b ∈ s.ownBoxes h receivers ∨ ∃ r ∈ receivers, b ∈ (receivedNames h r).values := by
  rcases s with ⟨root, frames⟩
  rw [objs_eq, List.mem_append] at listed
  rw [ownBoxes, Multiset.mem_add, or_assoc]
  refine listed.imp_right fun inFrame => ?_
  induction frames generalizing receivers with
  | nil => cases inFrame
  | cons frame frames ih =>
    rcases receivers with _ | ⟨r, receivers⟩
    · cases calls
    · rw [List.zipWith_cons_cons, List.sum_cons, Multiset.mem_add, or_assoc]
      rw [List.flatMap_cons, List.mem_append] at inFrame
      rcases inFrame with here | there
      · exact (Frame.mem_ownBoxes_or _ here).imp_right fun isField => .inr ⟨r, List.mem_cons_self, isField⟩
      · refine .inr ((ih (Nat.succ.inj calls) (.inr there) there).imp_right ?_)
        rintro ⟨r', member, isField⟩
        exact ⟨r', List.mem_cons_of_mem r member, isField⟩

namespace Heap

variable {s : State} {b : BoxId}

theorem mem_slots_of_item {l : ListId} (item : b ∈ s.heap.items l) : b ∈ s.heap.slots := by
  rw [slots, Multiset.mem_add, Multiset.mem_add, Multiset.mem_sum]
  exact .inl (.inl ⟨l.index, Finset.mem_range.2 (State.hasList_of_mem item), Array.mem_toList_iff.2 item⟩)

theorem mem_slots_of_entry {d : DictId} {e : Entry} (member : e ∈ (s.heap.dictionary d).values) :
    e.value ∈ s.heap.slots := by
  obtain ⟨listed, inside, rfl⟩ := List.mem_map.1 member
  have isEntry : listed.2.value ∈ (s.heap.dictionary d).boxes :=
    Multiset.mem_bind.2 ⟨listed.2, member, by simp [Entry.boxes]⟩
  rw [slots, Multiset.mem_add, Multiset.mem_add, Multiset.mem_sum, Multiset.mem_sum]
  exact .inl (.inr ⟨d.index, Finset.mem_range.2 (State.hasDict_of_mem inside), isEntry⟩)

theorem values_instanceAt_le (h : Heap) (i : InstanceId) :
    ((h.instanceAt i).fields.values : Multiset BoxId) ≤ h.slots := by
  by_cases here : i.index < h.instances.size
  · refine le_trans ?_ (Multiset.le_add_left _ _)
    exact Finset.single_le_sum (f := fun i => ((h.instanceAt ⟨i⟩).fields.values : Multiset BoxId))
      (fun _ _ => Multiset.zero_le _) (Finset.mem_range.2 here)
  · rw [instanceAt, Array.getD_eq_getD_getElem?, Array.getElem?_eq_none (Nat.le_of_not_lt here)]
    exact Multiset.zero_le _

theorem values_received_le (h : Heap) (r : Option InstanceId) :
    ((receivedNames h r).values : Multiset BoxId) ≤ h.slots := by
  cases r with
  | none => exact Multiset.zero_le _
  | some i => exact h.values_instanceAt_le i

end Heap

/-- An operation changes at most the value of the box it writes into. -/
theorem Operation.value_apply {op : Operation} {s : State} {b : BoxId} (there : s.HasBox b)
    (other : b ∉ op.written?) : (op.apply s).heap.value b = s.heap.value b := by
  cases op with
  | alloc v =>
    refine (Heap.value_push _ v b).trans (if_neg ?_)
    rintro rfl
    exact Nat.lt_irrefl _ there
  | write b' v => exact Heap.value_write_of_ne _ v fun same => other (congrArg some same.symm)
  | _ => rfl

/-- What is in hand after an operation was in hand before, or it is the new box. -/
theorem Operation.mem_hand {op : Operation} {s : State} {receivers : ModuleId → List (Option InstanceId)}
    {H K : Multiset BoxId} {b : BoxId} (owned : s.Owned receivers H) (allowed : op.Allowed H s K)
    (inHand : b ∈ K) (there : s.HasBox b) : b ∈ H := by
  obtain ⟨added, -, given⟩ := op.slots_apply_le owned.instances allowed
  have either : b ∈ op.fresh s + H := given ▸ Multiset.mem_add.2 (.inr inHand)
  refine (Multiset.mem_add.1 either).resolve_left fun isFresh => ?_
  cases op with
  | alloc v =>
    rw [Multiset.mem_singleton.1 isFresh] at there
    exact Nat.lt_irrefl _ there
  | _ => cases isFresh

namespace State

variable {s base : State} {receivers : ModuleId → List (Option InstanceId)} {H K : Multiset BoxId}
  {b : BoxId}

theorem Owned.mem_slots (owned : s.Owned receivers H) (stored : s.Stored b) : b ∈ s.slots receivers := by
  rw [slots, Multiset.mem_add, Multiset.mem_add]
  cases stored with
  | @name m here listed =>
    rcases Scope.mem_ownBoxes_or (h := s.heap) (owned.calls m) listed with own | ⟨r, -, field⟩
    · refine .inl (.inr ?_)
      rw [Registry.slots, Multiset.mem_sum]
      exact ⟨m.index, Finset.mem_range.2 here, own⟩
    · exact .inr (Multiset.mem_of_le (s.heap.values_received_le r) field)
  | element item => exact .inr (Heap.mem_slots_of_item item)
  | entry member isValue => exact .inr (isValue ▸ Heap.mem_slots_of_entry member)
  | field member => exact .inr (Multiset.mem_of_le (s.heap.values_instanceAt_le _) member)

/-- A box in hand is in no slot. -/
theorem Owned.not_stored (owned : s.Owned receivers H) (inHand : b ∈ H) : ¬ s.Stored b := by
  intro stored
  have apart := (Multiset.nodup_add.1 owned.nodup).2.2
  exact Multiset.disjoint_left.1 apart (owned.mem_slots stored) inHand

/-! ## Boxes in hand keep their values -/

/-- What was there in an earlier state and is in hand holds what it held. -/
structure Retains (base : State) (H : Multiset BoxId) (s : State) : Prop where
  later : base.heap.boxes.size ≤ s.heap.boxes.size
  kept : ∀ b ∈ H, base.HasBox b → s.heap.value b = base.heap.value b

theorem Retains.refl (s : State) (H : Multiset BoxId) : s.Retains H s := ⟨Nat.le_refl _, fun _ _ _ => rfl⟩

theorem Retains.drop (retains : base.Retains H s) (fewer : K ≤ H) : base.Retains K s :=
  ⟨retains.later, fun b inHand => retains.kept b (Multiset.mem_of_le fewer inHand)⟩

theorem Retains.step {op : Operation} (retains : base.Retains H s) (held : s.Holding H)
    (owned : s.Owned receivers H) (allowed : op.Allowed H s K) (stored : ∀ b ∈ op.written?, s.Stored b) :
    base.Retains K (op.apply s) := by
  refine ⟨retains.later.trans (op.extends s).boxes, fun b inHand there => ?_⟩
  have wasInHand := op.mem_hand owned allowed inHand (Nat.lt_of_lt_of_le there retains.later)
  rw [op.value_apply (held b wasInHand).2 fun written => owned.not_stored wasInHand (stored b written)]
  exact retains.kept b wasInHand there

end State

/-- The discipline of boxes in hand: that of owners, and what was in hand at some point and still is holds
what it held. -/
def Discipline.retaining (base : State) : Discipline where
  World := Discipline.owned.World
  Rel w H s₁ s₂ := Discipline.owned.Rel w H s₁ s₂ ∧ base.Retains H s₁
  Open w m := Discipline.owned.Open w m
  Blocks w m := Discipline.owned.Blocks w m
  Local w m := Discipline.owned.Local w m
  alike related := Discipline.owned.alike related.1
  drop fewer related := ⟨Discipline.owned.drop fewer related.1, related.2.drop fewer⟩
  structs related isLocal := Discipline.owned.structs related.1 isLocal
  blocksOfOpen opened := Discipline.owned.blocksOfOpen opened
  localOfBlocks blocks := Discipline.owned.localOfBlocks blocks
  step op wf held allowed stored opened related :=
    ⟨Discipline.owned.step op wf held allowed stored opened related.1,
      related.2.step held related.1.2 allowed stored⟩
  call {w H s₁ s₂ m names} wf here received related := by
    obtain ⟨w', opened, entered, leave⟩ := Discipline.owned.call wf here received related.1
    refine ⟨w', opened, ⟨entered, ⟨related.2.later, related.2.kept⟩⟩, ?_⟩
    intro K t₁ t₂ wf' there inside
    obtain ⟨active₁, active₂, left⟩ := leave wf' there inside.1
    exact ⟨active₁, active₂, left, ⟨inside.2.later, inside.2.kept⟩⟩
  block {w H s₁ s₂ m} wf here blocks related := by
    obtain ⟨w', opened, entered, leave⟩ := Discipline.owned.block wf here blocks related.1
    refine ⟨w', opened, ⟨entered, ⟨related.2.later, related.2.kept⟩⟩, ?_⟩
    intro K t₁ t₂ wf' there inside
    obtain ⟨active₁, active₂, left⟩ := leave wf' there inside.1
    exact ⟨active₁, active₂, left, ⟨inside.2.later, inside.2.kept⟩⟩
  load {w H K s₁ s₂ M} wf fresh closed structs given related := by
    obtain ⟨w', opened, entered, leave⟩ :=
      Discipline.owned.load wf fresh closed structs given related.1
    have fewer : K ≤ H := given ▸ Multiset.le_add_left _ _
    have kept := related.2.drop fewer
    refine ⟨w', opened, ⟨entered, ⟨kept.later, kept.kept⟩⟩, ?_⟩
    intro L t₁ t₂ wf' inside
    exact ⟨leave wf' inside.1, inside.2⟩

/-- Whatever an expression does, the boxes in hand hold what they held when it has been evaluated. -/
theorem evalExpr_keeps_held {cfg : Config} {s t : State} {w : Discipline.owned.World} {H : Multiset BoxId}
    {ctx : Context} {fuel : Nat} {e : Expr} {b : BoxId} (holds : Discipline.owned.Holds w H s s)
    (here : Discipline.owned.Here w s ctx.module) (run : evalExpr cfg fuel ctx e s = (.ok b, t)) :
    Discipline.owned.Holds w H t t ∧ s.Extends t ∧ ∀ c ∈ H, t.heap.value c = s.heap.value c := by
  have begun : (Discipline.retaining s).Holds w H s s := ⟨holds.wf, holds.held, holds.rel, .refl s H⟩
  obtain ⟨result, t₁, t₂, run', -, later, after⟩ :=
    Discipline.agree_evalExpr ctx begun ⟨here.module, here.isLocal⟩ cfg fuel e
  cases run.symm.trans run'
  obtain ⟨last, -⟩ := after
  cases last.rel.1.1.1
  exact ⟨⟨last.wf, last.held, last.rel.1⟩, later,
    fun c inHand => last.rel.2.kept c inHand (holds.held c inHand).2⟩

end Shiba

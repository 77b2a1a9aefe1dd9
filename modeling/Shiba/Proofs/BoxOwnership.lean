import Shiba.Proofs.Reachable
import Shiba.Proofs.State.Slots
import Shiba.Run

/-!
# Every box has one owner

No box stands in two slots of a state: not in two variables, not in a variable and a list, not twice
in one list.  Values may be shared, as when two variables hold one list, but then the list is shared as
a whole, with its elements in one place.  So overwriting the box of one slot is seen nowhere else.

The frame of a running method is the exception, since it holds the boxes of the fields of its
receiver.  `State.slots` counts these with the instance only.

`State.Owned` is the invariant.  It also covers the boxes in hand: a box that was allocated is in no
slot, and it can be given away once.
-/

namespace Shiba

namespace State

/-- No box stands in two slots, or in a slot and in hand, or in hand twice; and the functions visible
everywhere are as they were at the start. -/
structure Owned (receivers : ModuleId → List (Option InstanceId)) (H : Multiset BoxId) (s : State) :
    Prop where
  /-- Every active call has a receiver or none. -/
  calls : ∀ m, (receivers m).length = (s.registry.module m).scope.frames.length
  instances : ∀ m, ∀ x ∈ receivers m, ∀ i ∈ x, s.HasInstance i
  nodup : (s.slots receivers + H).Nodup
  builtins : s.builtins = State.initial.builtins
  functions : ∀ b, b.index < s.builtins.size → s.heap.value b = State.initial.heap.value b

variable {s : State} {receivers receivers' : ModuleId → List (Option InstanceId)}
  {H K added : Multiset BoxId} {m : ModuleId}

/-! ## Slots hold boxes that are there -/

/-- Every box in a slot is there; so a box that is allocated is in none. -/
theorem WellFormed.hasBox_of_mem_slots {b : BoxId} (wf : s.WellFormed)
    (listed : b ∈ s.slots receivers) : s.HasBox b := by
  rw [slots, Heap.slots, Registry.slots] at listed
  simp only [Multiset.mem_add, Multiset.mem_sum, Finset.mem_range] at listed
  rcases listed with (builtin | ⟨i, bound, name⟩) | (⟨i, -, item⟩ | ⟨i, -, entry⟩) | ⟨i, bound, field⟩
  · exact Nat.lt_of_lt_of_le (wf.builtins b builtin) wf.builtinBoxes
  · have listed := Multiset.mem_of_le (Scope.ownBoxes_le _ _ _) name
    exact (wf.own_obj (m := ⟨i⟩) bound listed).2
  · exact (wf.own_items ⟨i⟩ b (Array.mem_toList_iff.1 item)).2
  · obtain ⟨e, member, isBox⟩ := Multiset.mem_bind.1 entry
    have own := wf.own_entries ⟨i⟩ e member
    rw [Entry.boxes] at isBox
    rcases Multiset.mem_cons.1 isBox with rfl | isValue
    · exact own.1.2
    · rw [Multiset.mem_singleton.1 isValue]
      exact own.2.2
  · exact ((wf.shaped (i := ⟨i⟩) bound).boxes b field).2

/-! ## Operations -/

theorem Owned.drop (owned : s.Owned receivers H) (fewer : K ≤ H) : s.Owned receivers K :=
  { owned with nodup := Multiset.nodup_of_le (add_le_add_right fewer _) owned.nodup }

/-- Slots may take what comes out of the hand. -/
theorem nodup_of_le {old new : Multiset BoxId} (distinct : (old + H).Nodup)
    (grown : new ≤ added + old) (given : H = added + K) : (new + K).Nodup := by
  apply Multiset.nodup_of_le _ distinct
  rw [given, ← add_assoc, add_comm old]
  exact add_le_add_left grown K

/-- The box an operation allocates is in no slot and not in hand. -/
theorem Owned.nodup_fresh (wf : s.WellFormed) (held : s.Holding H) (owned : s.Owned receivers H)
    (op : Operation) : (s.slots receivers + (op.fresh s + H)).Nodup := by
  cases op with
  | alloc v =>
    rw [Operation.fresh, add_left_comm, Multiset.singleton_add, Multiset.nodup_cons]
    refine ⟨?_, owned.nodup⟩
    intro member
    rcases Multiset.mem_add.1 member with listed | inHand
    · exact Nat.lt_irrefl _ (wf.hasBox_of_mem_slots listed)
    · exact Nat.lt_irrefl _ (held _ inHand).2
  | write | allocList | allocDict | file | unfile | allocInstance | allocFunction | allocStruct
  | setObj | declareObj | setStruct | print =>
    change (s.slots receivers + (0 + H)).Nodup
    rw [zero_add]
    exact owned.nodup

/-- A change inside the current frame leaves the calls as they are. -/
theorem Owned.calls_modifyCurrent (owned : s.Owned receivers H)
    (f : Frame BoxId StructId → Frame BoxId StructId) (m' : ModuleId) :
    (receivers m').length =
      ((s.modifyScope m (·.modifyCurrent f)).registry.module m').scope.frames.length := by
  rw [owned.calls]
  by_cases same : m' = m
  · subst same
    by_cases here : m'.index < s.registry.modules.size
    · rw [modifyScope, Registry.module_modifyScope_self _ here, Scope.length_frames_modifyCurrent]
    · rw [modifyScope, Registry.module_modifyScope_of_le _ (Nat.le_of_not_lt here)]
  · rw [modifyScope, Registry.module_modifyScope_of_ne _ same]

/-- An operation that is allowed leaves every box with one owner. -/
theorem Owned.step {op : Operation} (wf : s.WellFormed) (held : s.Holding H)
    (allowed : op.Allowed H s K) (owned : s.Owned receivers H) : (op.apply s).Owned receivers K := by
  obtain ⟨added, grown, given⟩ := op.slots_apply_le owned.instances allowed
  have nodup := nodup_of_le (owned.nodup_fresh wf held op) grown given
  have there : ∀ m, ∀ x ∈ receivers m, ∀ i ∈ x, (op.apply s).HasInstance i :=
    fun m x member i isReceiver => (owned.instances m x member i isReceiver).mono (op.extends s)
  cases op with
  | alloc v =>
    refine ⟨owned.calls, there, nodup, owned.builtins, ?_⟩
    intro b isBuiltin
    have here : b.index < s.heap.boxes.size := Nat.lt_of_lt_of_le isBuiltin wf.builtinBoxes
    rw [← owned.functions b isBuiltin]
    simp [Operation.apply, withHeap, Heap.value, Array.getElem?_push, Nat.ne_of_lt here]
  | write b v =>
    refine ⟨owned.calls, there, nodup, owned.builtins, ?_⟩
    intro b' isBuiltin
    have apart : b.index ≠ b'.index := by
      have own := allowed.1.1
      change b'.index < s.builtins.size at isBuiltin
      omega
    rw [← owned.functions b' isBuiltin]
    simp [Operation.apply, withHeap, Heap.value, Heap.write, Array.getElem?_setIfInBounds_ne apart]
  | setObj | declareObj | setStruct =>
    exact ⟨owned.calls_modifyCurrent _, there, nodup, owned.builtins, owned.functions⟩
  | allocList | allocDict | file | unfile | allocInstance | allocFunction | allocStruct | print =>
    exact ⟨owned.calls, there, nodup, owned.builtins, owned.functions⟩

/-! ## Calls, blocks and modules -/

/-- A change of one scope, and of the receivers of its calls, that takes nothing into the slots. -/
theorem Owned.modifyScope {f : Scope BoxId StructId → Scope BoxId StructId}
    (owned : s.Owned receivers H) (here : s.HasModule m)
    (others : ∀ m', m' ≠ m → receivers' m' = receivers m')
    (calls : (receivers' m).length = (f (s.registry.module m).scope).frames.length)
    (instances : ∀ x ∈ receivers' m, ∀ i ∈ x, s.HasInstance i)
    (fewer : (f (s.registry.module m).scope).ownBoxes s.heap (receivers' m) ≤
      (s.registry.module m).scope.ownBoxes s.heap (receivers m)) :
    (s.modifyScope m f).Owned receivers' H := by
  refine ⟨?_, ?_, ?_, owned.builtins, owned.functions⟩
  · intro m'
    by_cases same : m' = m
    · rw [same, calls, State.modifyScope, Registry.module_modifyScope_self f here]
    · rw [others m' same, State.modifyScope, Registry.module_modifyScope_of_ne f same]
      exact owned.calls m'
  · intro m'
    by_cases same : m' = m
    · rw [same]
      exact instances
    · rw [others m' same]
      exact owned.instances m'
  · have grown := slots_modifyScope_le others (fewer.trans (zero_add _).ge)
    exact nodup_of_le owned.nodup grown (zero_add H).symm

theorem Owned.enter {names : OrderedMap String BoxId} (owned : s.Owned receivers H)
    (wf : s.WellFormed) (here : s.HasModule m) (received : s.Receives names) :
    ∃ x, (s.enter m names).Owned (Function.update receivers m (x :: receivers m)) H := by
  have begun : ∃ x, names = Eval.receivedNames s.heap x ∧ names.keys.Nodup ∧
      ∀ i ∈ x, s.HasInstance i := by
    rcases received with rfl | ⟨i, there, rfl⟩
    · exact ⟨none, rfl, List.nodup_nil, nofun⟩
    · refine ⟨some i, rfl, wf.nodup_fields there, ?_⟩
      intro i' given
      cases given
      exact there
  rcases begun with ⟨x, rfl, distinct, there⟩
  refine ⟨x, owned.modifyScope here ?_ ?_ ?_ ?_⟩
  · exact fun m' other => Function.update_of_ne other ..
  · rw [Function.update_self, List.length_cons, owned.calls]
    rfl
  · rw [Function.update_self]
    intro x' member
    rcases List.mem_cons.1 member with rfl | old
    · exact there
    · exact owned.instances m x' old
  · rw [Function.update_self, Scope.ownBoxes_addFrame _ distinct]

theorem Owned.leave {x : Option InstanceId}
    (owned : s.Owned (Function.update receivers m (x :: receivers m)) H) (here : s.HasModule m) :
    (s.leave m).Owned receivers H := by
  have calls := owned.calls m
  have instances := owned.instances m
  rw [Function.update_self] at calls instances
  refine owned.modifyScope here ?_ ?_ ?_ ?_
  · exact fun m' other => (Function.update_of_ne other ..).symm
  · rw [Scope.dropFrame, List.length_tail, ← calls]
    rfl
  · exact fun x' member => instances x' (List.mem_cons_of_mem x member)
  · rw [Function.update_self]
    exact Scope.ownBoxes_dropFrame_le s.heap x (receivers m) _

theorem Owned.openBlock (owned : s.Owned receivers H) (here : s.HasModule m) :
    (s.openBlock m).Owned receivers H := by
  refine owned.modifyScope here (fun _ _ => rfl) ?_ (owned.instances m) ?_
  · rw [owned.calls, Scope.pushBlock, Scope.length_frames_modifyCurrent]
  · have same : ∀ fields (frame : Frame BoxId StructId),
        frame.pushBlock.ownBoxes fields ≤ 0 + frame.ownBoxes fields := by
      intro fields frame
      rw [Frame.ownBoxes_pushBlock, zero_add]
    exact (Scope.ownBoxes_modifyCurrent_le same).trans (zero_add _).le

theorem Owned.closeBlock (owned : s.Owned receivers H) (here : s.HasModule m) :
    (s.closeBlock m).Owned receivers H := by
  refine owned.modifyScope here (fun _ _ => rfl) ?_ (owned.instances m) ?_
  · rw [owned.calls, Scope.dropBlock, Scope.length_frames_modifyCurrent]
  · have fewer : ∀ fields (frame : Frame BoxId StructId),
        Frame.ownBoxes fields ⟨frame.objs.pop, frame.structs.pop⟩ ≤ 0 + frame.ownBoxes fields := by
      intro fields frame
      rw [zero_add]
      exact Frame.ownBoxes_pop_le fields frame
    exact (Scope.ownBoxes_modifyCurrent_le fewer).trans (zero_add _).le

/-- A module without calls is added, the boxes of its names coming out of the hand. -/
theorem Owned.load {M : Module} (owned : s.Owned receivers H) (closed : M.scope.Closed)
    (given : H = (M.scope.objs : Multiset BoxId) + K) : (s.load M).Owned receivers K := by
  refine ⟨?_, owned.instances, ?_, owned.builtins, owned.functions⟩
  · intro m'
    rw [owned.calls]
    by_cases isNext : m' = s.registry.next
    · have absent : s.registry.modules.size ≤ s.registry.next.index := Nat.le_refl _
      rw [isNext, Registry.module_of_le absent, State.load, Registry.module_load_next, closed.1]
      rfl
    · rw [State.load, Registry.module_load_of_ne isNext]
  · have grown :
        (s.load M).slots receivers ≤ (M.scope.objs : Multiset BoxId) + s.slots receivers := by
      rw [slots_load]
      exact add_le_add_left (Scope.ownBoxes_le _ _ _) _
    exact nodup_of_le owned.nodup grown given

theorem owned_initial : State.initial.Owned (fun _ => []) 0 where
  calls _ := rfl
  instances _ _ member := by cases member
  nodup := by decide
  builtins := rfl
  functions _ _ := rfl

end State

/-! ## Every box has one owner -/

/-- The discipline of boxes: that of scopes, and every box has one owner.  The receivers of the calls
that are active are told by the world. -/
def Discipline.owned : Discipline where
  World := Discipline.scoped.World × (ModuleId → List (Option InstanceId))
  Rel w H s₁ s₂ := Discipline.scoped.Rel w.1 H s₁ s₂ ∧ s₁.Owned w.2 H
  Open w m := Discipline.scoped.Open w.1 m
  Blocks w m := Discipline.scoped.Blocks w.1 m
  Local w m := Discipline.scoped.Local w.1 m
  alike related := Discipline.scoped.alike related.1
  drop fewer related := ⟨Discipline.scoped.drop fewer related.1, related.2.drop fewer⟩
  structs related isLocal := Discipline.scoped.structs related.1 isLocal
  blocksOfOpen opened := Discipline.scoped.blocksOfOpen opened
  localOfBlocks blocks := Discipline.scoped.localOfBlocks blocks
  step op wf held allowed stored opened related :=
    ⟨Discipline.scoped.step op wf held allowed stored opened related.1, related.2.step wf held allowed⟩
  call {w H s₁ s₂ m names} wf here received related := by
    obtain ⟨w', opened, entered, leave⟩ := Discipline.scoped.call wf here received related.1
    obtain ⟨x, owned⟩ := related.2.enter wf here received
    refine ⟨(w', Function.update w.2 m (x :: w.2 m)), opened, ⟨entered, owned⟩, ?_⟩
    intro K t₁ t₂ wf' there inside
    obtain ⟨active₁, active₂, left⟩ := leave wf' there inside.1
    exact ⟨active₁, active₂, left, inside.2.leave there⟩
  block {w H s₁ s₂ m} wf here blocks related := by
    obtain ⟨w', opened', entered, leave⟩ := Discipline.scoped.block wf here blocks related.1
    refine ⟨(w', w.2), opened', ⟨entered, related.2.openBlock here⟩, ?_⟩
    intro K t₁ t₂ wf' there inside
    obtain ⟨active₁, active₂, left⟩ := leave wf' there inside.1
    exact ⟨active₁, active₂, left, inside.2.closeBlock there⟩
  load {w H K s₁ s₂ M} wf fresh closed structs given related := by
    obtain ⟨w', opened, entered, leave⟩ :=
      Discipline.scoped.load wf fresh closed structs given related.1
    refine ⟨(w', w.2), opened, ⟨entered, related.2.load closed given⟩, ?_⟩
    intro L t₁ t₂ wf' inside
    exact ⟨leave wf' inside.1, inside.2⟩

theorem Discipline.owned_upholds :
    Discipline.owned.Upholds fun s => s.WellFormed ∧ ∃ receivers, s.Owned receivers 0 where
  single related := related.1.1
  wf holds := holds.1
  begins {s m} holds here := by
    rcases holds with ⟨wf, receivers, owned⟩
    obtain ⟨w, opened, begun⟩ := Discipline.scoped_upholds.begins wf here
    exact ⟨(w, receivers), opened, wf, State.holding_zero _, begun.rel, owned⟩
  ends {w H s} holds := ⟨holds.wf, w.2, holds.rel.2.drop (Multiset.zero_le H)⟩

theorem Reachable.owned {cfg : Config} {s : State} (reachable : Reachable cfg s) :
    ∃ receivers, s.Owned receivers 0 := by
  have upheld : s.WellFormed ∧ ∃ receivers, s.Owned receivers 0 := by
    apply reachable.upheld Discipline.owned_upholds ⟨State.wellFormed_initial, _, State.owned_initial⟩
    · rintro s M ⟨wf, receivers, owned⟩ empty
      refine ⟨wf.register empty, receivers, owned.load ?_ ?_⟩
      · rw [empty]
        exact ⟨rfl, rfl, rfl⟩
      · rw [empty]
        rfl
    · intro s lines ended
      obtain ⟨wf, receivers, owned⟩ := ended
      exact ⟨wf.write lines, receivers, { owned with }⟩
  exact upheld.2

/-- In every state a run can be in, no box stands in two slots, where the frame of a method shares no
more than the fields of its receiver.  So overwriting the box of a slot changes what no other slot
holds; and the functions visible everywhere are what they were at the start. -/
theorem boxes_have_one_owner {cfg : Config} {s : State} (reachable : Reachable cfg s) :
    ∃ receivers : ModuleId → List (Option InstanceId),
      (∀ m, (receivers m).length = (s.registry.module m).scope.functionDepth) ∧
      (∀ m, ∀ x ∈ receivers m, ∀ i ∈ x, s.HasInstance i) ∧
      (s.slots receivers).Nodup ∧
      (∀ b rest, s.slots receivers = b ::ₘ rest → ∀ v, ∀ c ∈ rest,
        (s.heap.write b v).value c = s.heap.value c) ∧
      s.builtins = State.initial.builtins ∧
      ∀ b ∈ s.builtins.values, s.heap.value b = State.initial.heap.value b := by
  obtain ⟨receivers, owned⟩ := reachable.owned
  have distinct : (s.slots receivers).Nodup := by
    have nodup := owned.nodup
    rwa [add_zero] at nodup
  refine ⟨receivers, owned.calls, owned.instances, distinct, ?_, owned.builtins, ?_⟩
  · intro b rest split v c other
    rw [split, Multiset.nodup_cons] at distinct
    have apart : b.index ≠ c.index := by
      intro same
      have isSame : b = c := by
        cases b
        exact congrArg BoxId.mk same
      exact distinct.1 (isSame ▸ other)
    simp [Heap.value, Heap.write, Array.getElem?_setIfInBounds_ne apart]
  · intro b builtin
    exact owned.functions b (reachable.wellFormed.builtins b builtin)

/-- Two variables of a module hold one list, whose elements are in one place. -/
theorem boxes_have_one_owner_shared :
    let s := State.initial.load (.ofSource "main" "/" "")
    let stmt : Stmt := .assign .start .plain [.ident .start "x"]
      [.list .start [.literal .start (.int 1), .literal .start (.int 2)]]
    let stmt' : Stmt := .assign .start .plain [.ident .start "y"] [.ident .start "x"]
    let t := (evalStmt .standard 9 ⟨⟨0⟩, 5⟩ stmt s).2
    let u := (evalStmt .standard 9 ⟨⟨0⟩, 5⟩ stmt' t).2
    Reachable .standard u ∧ ∃ receivers, (u.slots receivers).Nodup := by
  intro s stmt stmt' t u
  have here : s.HasModule ⟨0⟩ := Nat.zero_lt_one
  have there : t.HasModule ⟨0⟩ := by
    change 0 < t.registry.modules.size
    decide +kernel
  have loaded : Reachable .standard s := .register .initial rfl
  have first : Reachable .standard t := @Reachable.stmtEnd _ s 9 ⟨⟨0⟩, 5⟩ stmt loaded here
  have reachable : Reachable .standard u := @Reachable.stmtEnd _ t 9 ⟨⟨0⟩, 5⟩ stmt' first there
  clear_value u
  exact ⟨reachable, (boxes_have_one_owner reachable).imp fun _ owned => owned.2.2.1⟩

end Shiba

import Shiba.Proofs.Zones.Stmt

/-!
# What a call can reach

The policy of a call that looks up some names only: what is within its reach are the boxes of its frame,
and those that the top level of its module binds to one of the names, unless the body of the call binds
that name itself.

* `Scope.reach`: the boxes of a scope that are within reach.
* `Policy.ofCall`: the policy.
-/

namespace Shiba

/-! ## Names in the body of a frame -/

theorem OrderedMap.mem_keys_insert {α β : Type} [DecidableEq α] {m : OrderedMap α β} {a a' : α} {b : β} :
    a' ∈ (m.insert a b).keys ↔ a' = a ∨ a' ∈ m.keys := by
  rw [keys_insert]
  split
  · next bound => exact ⟨.inr, fun either => either.elim (fun same => same ▸ bound) id⟩
  · rw [List.mem_append, List.mem_singleton, or_comm]

namespace Levels

variable {α : Type}

theorem mem_body_declare {l : Levels α} {name name' : String} (a : α) (bound : name' ∈ l.body.keys) :
    name' ∈ (l.declare name a).body.keys := by
  rw [declare]
  split
  · exact OrderedMap.mem_keys_insert.2 (.inr bound)
  · exact bound

theorem mem_body_set {l : Levels α} {name name' : String} (a : α) (bound : name' ∈ l.body.keys) :
    name' ∈ (l.set name a).body.keys := by
  rw [set]
  split
  · exact bound
  · split
    · exact OrderedMap.mem_keys_insert.2 (.inr bound)
    · exact mem_body_declare a bound

/-- A name that is not found is not bound in the body. -/
theorem not_mem_body_of_get? {l : Levels α} {name : String} (unbound : l.get? name = none) :
    name ∉ l.body.keys := by
  intro bound
  obtain ⟨a, found⟩ := OrderedMap.exists_get?_of_mem_keys bound
  have absent := get?_of_findIn_none unbound l.body (List.mem_append_right _ List.mem_cons_self)
  cases found.symm.trans absent

end Levels

/-! ## Boxes within reach -/

namespace Scope

variable {N : String → Prop} {s : Scope BoxId StructId} {b c : BoxId}

/-- The boxes that are within reach of the current call when it looks up some names only. -/
def reach (N : String → Prop) (s : Scope BoxId StructId) : Set BoxId :=
  {b | b ∈ s.current.objs.values ∨
    ∃ name, N name ∧ name ∉ s.current.objs.body.keys ∧ s.root.objs.get? name = some b}

theorem mem_objs_of_reach (reached : b ∈ s.reach N) : b ∈ s.objs := by
  rw [objs_eq, List.mem_append]
  rcases reached with here | ⟨name, -, -, found⟩
  · rcases s with ⟨root, - | ⟨frame, outer⟩⟩
    · exact .inl here
    · exact .inr (List.mem_append_left _ here)
  · exact .inl (Levels.mem_values_of_get? found)

theorem reach_of_getObj? {name : String} (named : N name) (found : s.getObj? name = some b) :
    b ∈ s.reach N := by
  rcases s with ⟨root, - | ⟨frame, outer⟩⟩
  · exact .inl (Levels.mem_values_of_get? found)
  · rcases Option.or_eq_some_iff.1 found with here | ⟨absent, there⟩
    · exact .inl (Levels.mem_values_of_get? here)
    · exact .inr ⟨name, named, Levels.not_mem_body_of_get? absent, there⟩

/-- A change of the current frame that leaves the names of its body bound brings no box within reach but
the new ones. -/
theorem reach_modifyCurrent {f : Frame BoxId StructId → Frame BoxId StructId} {Q : BoxId → Prop}
    (values : ∀ frame, ∀ c ∈ (f frame).objs.values, Q c ∨ c ∈ frame.objs.values)
    (keys : ∀ frame, ∀ name ∈ frame.objs.body.keys, name ∈ (f frame).objs.body.keys)
    (reached : c ∈ (s.modifyCurrent f).reach N) : Q c ∨ c ∈ s.reach N := by
  rcases s with ⟨root, - | ⟨frame, outer⟩⟩
  · have here : c ∈ (f root).objs.values := by
      rcases reached with here | ⟨name, -, -, found⟩
      · exact here
      · exact Levels.mem_values_of_get? found
    exact (values root c here).imp_right .inl
  · rcases reached with here | ⟨name, named, unbound, found⟩
    · exact (values frame c here).imp_right .inl
    · exact .inr (.inr ⟨name, named, fun bound => unbound (keys frame name bound), found⟩)

/-- A change of the current frame that takes away nothing from its body and adds no boxes. -/
theorem reach_of_modifyCurrent {f : Frame BoxId StructId → Frame BoxId StructId}
    (values : ∀ frame, ∀ c ∈ (f frame).objs.values, c ∈ frame.objs.values)
    (body : ∀ frame, (f frame).objs.body = frame.objs.body)
    (reached : c ∈ (s.modifyCurrent f).reach N) : c ∈ s.reach N := by
  have either := reach_modifyCurrent (Q := fun _ => False)
    (fun frame c listed => .inr (values frame c listed))
    (fun frame name bound => (body frame).symm ▸ bound) reached
  exact either.resolve_left id

end Scope

/-- A call looks up some names only, in the module `m`. -/
def Policy.ofCall (cfg : Config) (N : String → Prop) (m : ModuleId) : Policy where
  config := cfg
  full := False
  names := N
  modules := (· = m)
  part := Scope.reach N
  objs := Scope.mem_objs_of_reach
  lookup := Scope.reach_of_getObj?
  setObj {s name b c} reached :=
    Scope.reach_modifyCurrent (Q := (· = b))
      (f := fun frame => { frame with objs := frame.objs.set name b })
      (fun frame _ listed => eq_or_mem_of_coe_le (frame.objs.values_set_le name b) listed)
      (fun _ _ bound => Levels.mem_body_set b bound) reached
  declareObj {s name b c} reached :=
    Scope.reach_modifyCurrent (Q := (· = b))
      (f := fun frame => { frame with objs := frame.objs.declare name b })
      (fun frame _ listed => eq_or_mem_of_coe_le (frame.objs.values_declare_le name b) listed)
      (fun _ _ bound => Levels.mem_body_declare b bound) reached
  setStruct {s name d c} reached :=
    Scope.reach_of_modifyCurrent (f := fun frame => { frame with structs := frame.structs.set name d })
      (fun _ _ listed => listed) (fun _ => rfl) reached
  pushBlock {s c} reached :=
    Scope.reach_of_modifyCurrent (f := Frame.pushBlock)
      (fun frame _ listed => frame.objs.values_push ▸ listed) (fun _ => rfl) reached
  dropBlock {s c} reached := by
    refine Scope.reach_of_modifyCurrent (f := fun frame => ⟨frame.objs.pop, frame.structs.pop⟩)
      (fun frame c listed => ?_) (fun _ => rfl) reached
    exact Multiset.mem_coe.1 (Multiset.mem_of_le frame.objs.values_pop_le (Multiset.mem_coe.2 listed))
  whole := False.elim

end Shiba

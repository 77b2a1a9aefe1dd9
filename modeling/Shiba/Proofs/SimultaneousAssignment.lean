import Shiba.Proofs.BoxesInHand
import Shiba.Proofs.ComputingAssignment

/-!
# Simultaneous assignment

A plain assignment evaluates its right sides in order and copies each value at once; then it gives the
copies to the names.  The copies are in hand, where nothing changes them, and no two names have one box, so
every name comes to hold what its right side was.

* `Owned.getObj?_injective`: different names of a module mean different boxes.
* `RightSides.copied`: the copies in hand hold the values the right sides had.
* `Eval.assigns_all`: the copies are given to the names, and nothing else changes.
* `evalStmt_assign_simultaneous`: the statement.
-/

namespace Shiba

open Eval (receivedNames)

/-! ## Different names have different boxes -/

/-- The bindings of a frame, but for those of its body that are fields of a receiver. -/
def Frame.ownEntries (fields : OrderedMap String BoxId) (f : Frame BoxId StructId) : List (String × BoxId) :=
  f.objs.blocks.flatMap OrderedMap.entries ++
    f.objs.body.entries.filter fun e => fields.get? e.1 ≠ some e.2

theorem Frame.ownBoxes_eq (fields : OrderedMap String BoxId) (f : Frame BoxId StructId) :
    f.ownBoxes fields = ((f.ownEntries fields).map (·.2) : List BoxId) := by
  rw [ownBoxes, ownEntries, List.map_append, List.map_flatMap, Multiset.coe_add]
  rfl

theorem Levels.mem_entries_of_findIn {name : String} {b : BoxId} {levels : List (OrderedMap String BoxId)}
    (found : findIn name levels = some b) : (name, b) ∈ levels.flatMap OrderedMap.entries := by
  induction levels with
  | nil => cases found
  | cons level outer ih =>
    rw [findIn] at found
    rw [List.flatMap_cons, List.mem_append]
    split at found
    · next here =>
      cases found
      exact .inl (OrderedMap.mem_entries_of_get? here)
    · exact .inr (ih found)

theorem Frame.mem_ownEntries_or {f : Frame BoxId StructId} {name : String} {b : BoxId}
    (fields : OrderedMap String BoxId) (found : f.objs.get? name = some b) :
    (name, b) ∈ f.ownEntries fields ∨ fields.get? name = some b := by
  have listed := Levels.mem_entries_of_findIn found
  rw [Levels.toList, List.flatMap_append, List.mem_append] at listed
  by_cases isField : fields.get? name = some b
  · exact .inr isField
  · rcases listed with inBlock | inBody
    · exact .inl (List.mem_append_left _ inBlock)
    · have inBody : (name, b) ∈ f.objs.body.entries := by simpa using inBody
      exact .inl (List.mem_append_right _ (List.mem_filter.2 ⟨inBody, by simpa using isField⟩))

namespace Scope

/-- The bindings the names of a scope are looked up in, but for the fields of the receiver of the innermost
call. -/
def ownEntries (h : Heap) (receivers : List (Option InstanceId)) (s : Scope BoxId StructId) :
    List (String × BoxId) :=
  s.root.ownEntries .empty ++
    (List.zipWith (fun r f => f.ownEntries (receivedNames h r)) receivers s.frames).headD []

variable {h : Heap} {receivers : List (Option InstanceId)} {s : Scope BoxId StructId} {name : String}
  {b : BoxId}

theorem ownEntries_le :
    ((s.ownEntries h receivers).map (·.2) : List BoxId) ≤ s.ownBoxes h receivers := by
  rcases s with ⟨root, frames⟩
  rw [ownEntries, ownBoxes, List.map_append, ← Multiset.coe_add, ← Frame.ownBoxes_eq, Frame.ownBoxes_empty]
  apply add_le_add_right
  rcases receivers with _ | ⟨r, receivers⟩
  · exact Multiset.zero_le _
  · rcases frames with _ | ⟨frame, frames⟩
    · exact Multiset.zero_le _
    · rw [List.zipWith_cons_cons, List.zipWith_cons_cons, List.headD_cons, List.sum_cons,
        ← Frame.ownBoxes_eq]
      exact Multiset.le_add_right _ _

/-- What a name means is a binding of the scope itself or a field of the receiver. -/
theorem mem_ownEntries_or (calls : receivers.length = s.frames.length) (found : s.getObj? name = some b) :
    (name, b) ∈ s.ownEntries h receivers ∨ (receivedNames h (receivers.headD none)).get? name = some b := by
  have ofRoot (found : s.root.objs.get? name = some b) : (name, b) ∈ s.ownEntries h receivers :=
    List.mem_append_left _ ((Frame.mem_ownEntries_or .empty found).resolve_right nofun)
  rcases s with ⟨root, _ | ⟨frame, frames⟩⟩
  · exact .inl (ofRoot found)
  · rcases receivers with _ | ⟨r, receivers⟩
    · cases calls
    · rcases Option.or_eq_some_iff.1 found with inFrame | ⟨-, inRoot⟩
      · exact (Frame.mem_ownEntries_or (receivedNames h r) inFrame).imp_left (List.mem_append_right _)
      · exact .inl (ofRoot inRoot)

end Scope

/-- Different names of a module mean different boxes. -/
theorem State.Owned.getObj?_injective {s : State} {receivers : ModuleId → List (Option InstanceId)}
    {H : Multiset BoxId} {m : ModuleId} {x y : String} {b : BoxId} (owned : s.Owned receivers H)
    (here : s.HasModule m) (isBox : (s.scopeOf m).getObj? x = some b)
    (isBox' : (s.scopeOf m).getObj? y = some b) : x = y := by
  let entries := (s.scopeOf m).ownEntries s.heap (receivers m)
  let fields := receivedNames s.heap ((receivers m).headD none)
  have own : ((entries.map (·.2) : List BoxId) : Multiset BoxId) + s.heap.slots ≤ s.slots receivers := by
    apply add_le_add_left
    refine (Scope.ownEntries_le.trans ?_).trans (Multiset.le_add_left _ _)
    exact Finset.single_le_sum (f := fun i => (s.scopeOf ⟨i⟩).ownBoxes s.heap (receivers ⟨i⟩))
      (fun _ _ => Multiset.zero_le _) (Finset.mem_range.2 here)
  have distinct := Multiset.nodup_of_le own (Multiset.nodup_add.1 owned.nodup).1
  obtain ⟨distinctOwn, distinctHeap, apart⟩ := Multiset.nodup_add.1 distinct
  have notField {z : String} (isOwn : (z, b) ∈ entries) : b ∉ s.heap.slots :=
    Multiset.disjoint_left.1 apart (Multiset.mem_coe.2 (List.mem_map_of_mem isOwn))
  have ofHeap := s.heap.values_received_le ((receivers m).headD none)
  have isField {z : String} (found : fields.get? z = some b) : b ∈ s.heap.slots :=
    Multiset.mem_of_le ofHeap (OrderedMap.mem_values_of_get? found)
  rcases Scope.mem_ownEntries_or (owned.calls m) isBox with inScope | field
  · rcases Scope.mem_ownEntries_or (owned.calls m) isBox' with inScope' | field'
    · exact congrArg Prod.fst (List.inj_on_of_nodup_map (Multiset.coe_nodup.1 distinctOwn) inScope inScope' rfl)
    · exact absurd (isField field') (notField inScope)
  · rcases Scope.mem_ownEntries_or (owned.calls m) isBox' with inScope' | field'
    · exact absurd (isField field) (notField inScope')
    · have distinctFields := Multiset.coe_nodup.1 (Multiset.nodup_of_le ofHeap distinctHeap)
      exact congrArg Prod.fst (List.inj_on_of_nodup_map distinctFields
        (OrderedMap.mem_entries_of_get? field) (OrderedMap.mem_entries_of_get? field') rfl)

/-! ## Right sides -/

section RightSides

variable {cfg : Config} {fuel : Nat} {ctx : Context}

/-- Evaluated one after another, from `s`, the right sides have the values, each at its time.  A copy is
made of each at once, and `t` is the state in the end. -/
inductive RightSides (cfg : Config) (fuel : Nat) (ctx : Context) :
    List Expr → State → List Value → State → Prop
  | nil {s : State} : RightSides cfg fuel ctx [] s [] s
  | cons {e : Expr} {es : List Expr} {s t t' u : State} {b c : BoxId} {values : List Value} :
    evalExpr cfg fuel ctx e s = (.ok b, t) → Eval.copy b t = (.ok c, t') →
    RightSides cfg fuel ctx es t' values u →
    RightSides cfg fuel ctx (e :: es) s (t.heap.value b :: values) u

theorem RightSides.length_eq {es : List Expr} {s t : State} {values : List Value}
    (sides : RightSides cfg fuel ctx es s values t) : values.length = es.length := by
  induction sides with
  | nil => rfl
  | cons _ _ _ ih => exact congrArg (· + 1) ih

/-- The copies of the values are in hand in the end, and they hold the values: what was evaluated later has
not changed them. -/
theorem RightSides.copied {es : List Expr} {s t : State} {values : List Value} {w : Discipline.owned.World}
    {H : Multiset BoxId} (sides : RightSides cfg fuel ctx es s values t)
    (holds : Discipline.owned.Holds w H s s) (here : Discipline.owned.Here w s ctx.module) :
    ∃ copies : List BoxId,
      (es.mapM fun e => do Eval.copy (← (evaluators cfg fuel).expr ctx e)) s = (.ok copies, t) ∧
      Discipline.owned.Holds w ((copies : Multiset BoxId) + H) t t ∧ s.Extends t ∧
      copies.map t.heap.value = values ∧ ∀ c ∈ H, t.heap.value c = s.heap.value c := by
  induction sides generalizing H with
  | @nil s => exact ⟨[], rfl, by simpa using holds, .refl s, rfl, fun _ _ => rfl⟩
  | @cons e es s t t' u b c values evaluated copy _ ih =>
    obtain ⟨after, later, kept⟩ := evalExpr_keeps_held holds here evaluated
    have made : Eval.copy b t = (.ok ⟨t.heap.boxes.size⟩, (Operation.alloc (t.heap.value b)).apply t) := rfl
    cases made.symm.trans copy
    have inHand : Discipline.owned.Holds w (⟨t.heap.boxes.size⟩ ::ₘ H)
        ((Operation.alloc (t.heap.value b)).apply t) ((Operation.alloc (t.heap.value b)).apply t) :=
      after.step ⟨after.wf.valid_value b, rfl⟩ nofun nofun
    have later' := later.trans (Operation.extends (.alloc (t.heap.value b)) t)
    obtain ⟨copies, run, last, latest, same, kept'⟩ := ih inHand (here.mono later')
    refine ⟨⟨t.heap.boxes.size⟩ :: copies, ?_, ?_, later'.trans latest, ?_, ?_⟩
    · rw [List.mapM_cons, bind_assoc, evaluators_expr, Eval.bind_ok evaluated, Eval.bind_ok copy,
        ← evaluators_expr, Eval.bind_ok run]
      rfl
    · rwa [← Multiset.cons_coe, Multiset.cons_add, ← Multiset.add_cons]
    · rw [List.map_cons, same, kept' _ (Multiset.mem_cons_self _ _)]
      exact congrArg (· :: values) ((Heap.value_push _ _ _).trans (if_pos rfl))
    · intro c inHand'
      rw [kept' c (Multiset.mem_cons_of_mem inHand'), ← kept c inHand']
      exact Operation.value_apply (after.held c inHand').2 nofun

end RightSides

/-! ## Giving values to names -/

/-- Binds names in the innermost level, one after another. -/
def Scope.declareAll (s : Scope BoxId StructId) (entries : List (String × BoxId)) : Scope BoxId StructId :=
  entries.foldl (fun s e => s.declareObj e.1 e.2) s

theorem Scope.declareAll_append (s : Scope BoxId StructId) (entries entries' : List (String × BoxId)) :
    s.declareAll (entries ++ entries') = (s.declareAll entries).declareAll entries' :=
  List.foldl_append

theorem Scope.getObj?_declareAll {s : Scope BoxId StructId} {entries : List (String × BoxId)} {name : String}
    (other : name ∉ entries.map (·.1)) : (s.declareAll entries).getObj? name = s.getObj? name := by
  induction entries generalizing s with
  | nil => rfl
  | cons e entries ih =>
    rw [List.map_cons, List.mem_cons, not_or] at other
    exact (ih other.2).trans ((getObj?_declareObj s e.1 name e.2).trans (if_neg other.1))

namespace State

/-- What a name holds in the current frame of a module. -/
def content? (s : State) (m : ModuleId) (x : String) : Option Value :=
  ((s.scopeOf m).getObj? x).map s.heap.value

/-- The names that mean nothing in the current frame of a module. -/
def unbound (s : State) (m : ModuleId) (names : List String) : List String :=
  names.filter fun x => ((s.scopeOf m).getObj? x).isNone

/-- The boxes may hold something else in `u`, and entries are bound in the innermost level of the current
frame of a module; everything else is as it was in `t`. -/
def Binds (m : ModuleId) (entries : List (String × BoxId)) (t u : State) : Prop :=
  ∃ boxes, u = { t with
    heap := { t.heap with boxes }
    registry := t.registry.modifyScope m (·.declareAll entries) }

/-- The state `u` is the state `t` with the names given the values in the current frame of a module. -/
structure Assigns (m : ModuleId) (names : List String) (values : List Value) (t u : State) : Prop where
  /-- Every name holds its value. -/
  holds : names.map (u.content? m) = values.map some
  /-- Nothing has changed but what boxes hold, and the names that meant nothing are bound. -/
  binds : ∃ fresh, fresh.length = (t.unbound m names).length ∧ t.Binds m ((t.unbound m names).zip fresh) u
  /-- No box that was there holds something else but those of the names. -/
  kept : ∀ b, t.HasBox b → (∀ x ∈ names, (t.scopeOf m).getObj? x ≠ some b) →
    u.heap.value b = t.heap.value b

variable {s t u : State} {m : ModuleId} {x y : String} {names : List String} {v : Value} {values : List Value}
  {b c : BoxId}

theorem Binds.refl_of_heap (t : State) (m : ModuleId) (boxes : Array Value) :
    t.Binds m [] (t.withHeap { t.heap with boxes }) :=
  ⟨boxes, congrArg (fun registry => { t with heap := { t.heap with boxes }, registry })
    (t.registry.modifyScope_id m).symm⟩

theorem Binds.trans {entries entries' : List (String × BoxId)} (first : t.Binds m entries s)
    (second : s.Binds m entries' u) : t.Binds m (entries ++ entries') u := by
  rcases first with ⟨boxes, rfl⟩
  rcases second with ⟨boxes', rfl⟩
  refine ⟨boxes', ?_⟩
  have twice := t.registry.modifyScope_modifyScope m (·.declareAll entries) (·.declareAll entries')
  simp only [Scope.declareAll_append, ← twice]

theorem Binds.getObj?_of_notMem {entries : List (String × BoxId)} (binds : t.Binds m entries u)
    (here : t.HasModule m) (other : y ∉ entries.map (·.1)) :
    (u.scopeOf m).getObj? y = (t.scopeOf m).getObj? y := by
  rcases binds with ⟨boxes, rfl⟩
  have scope := t.scopeOf_modifyScope (f := (·.declareAll entries)) here
  exact (congrArg (·.getObj? y) scope).trans (Scope.getObj?_declareAll other)

/-- Where the other names mean the same, the unbound ones can be told after the first one. -/
theorem unbound_cons (same : ∀ y ∈ names, (s.scopeOf m).getObj? y = (t.scopeOf m).getObj? y) (x : String) :
    t.unbound m (x :: names) = t.unbound m [x] ++ s.unbound m names := by
  have remain : s.unbound m names = t.unbound m names := List.filter_congr fun y member => by rw [same y member]
  rw [remain, unbound, unbound, unbound, ← List.filter_append, List.singleton_append]

namespace Assigns

/-- A name that is given nothing means what it meant. -/
theorem getObj?_of_notMem (assigns : t.Assigns m names values u) (here : t.HasModule m) (other : y ∉ names) :
    (u.scopeOf m).getObj? y = (t.scopeOf m).getObj? y := by
  obtain ⟨fresh, size, binds⟩ := assigns.binds
  refine binds.getObj?_of_notMem here ?_
  rw [List.map_fst_zip size.ge]
  exact fun member => other (List.mem_of_mem_filter member)

/-- No name is given a value. -/
theorem nil (s : State) (m : ModuleId) : s.Assigns m [] [] s :=
  ⟨rfl, ⟨[], rfl, Binds.refl_of_heap s m s.heap.boxes⟩, fun _ _ _ => rfl⟩

/-- The name is bound: its box is written into. -/
theorem write (bound : (t.scopeOf m).getObj? x = some b) (there : t.HasBox b) (v : Value) :
    t.Assigns m [x] [v] (t.withHeap (t.heap.write b v)) := by
  have none : t.unbound m [x] = [] := by simp [unbound, bound]
  refine ⟨?_, ⟨[], by rw [none]; rfl, ?_⟩, fun c _ other => ?_⟩
  · have content : (t.withHeap (t.heap.write b v)).content? m x = some v := by
      change ((t.scopeOf m).getObj? x).map (t.heap.write b v).value = some v
      rw [bound]
      exact congrArg some (Heap.value_write_self there v)
    rw [List.map_singleton, content]
    rfl
  · rw [none]
    exact Binds.refl_of_heap t m (t.heap.write b v).boxes
  · refine Heap.value_write_of_ne _ v ?_
    rintro rfl
    exact other x List.mem_cons_self bound

/-- The name means nothing: it is bound to a box that holds the value. -/
theorem declare (here : t.HasModule m) (absent : (t.scopeOf m).getObj? x = none) (c : BoxId) :
    t.Assigns m [x] [t.heap.value c] (t.modifyScope m (·.declareObj x c)) := by
  have one : t.unbound m [x] = [x] := by simp [unbound, absent]
  refine ⟨?_, ⟨[c], by rw [one]; rfl, ?_⟩, fun _ _ _ => rfl⟩
  · have content : (t.modifyScope m (·.declareObj x c)).content? m x = some (t.heap.value c) := by
      rw [content?, scopeOf_modifyScope here, Scope.getObj?_declareObj, if_pos rfl]
      rfl
    rw [List.map_singleton, content]
    rfl
  · rw [one]
    exact ⟨t.heap.boxes, rfl⟩

/-- Other names after a first one are given their values.  When the first one has its value, no other name
means its box. -/
theorem cons (first : t.Assigns m [x] [v] s) (rest : s.Assigns m names values u) (here : t.HasModule m)
    (grew : t.Extends s) (other : x ∉ names) (isBox : (s.scopeOf m).getObj? x = some b) (there : s.HasBox b)
    (apart : ∀ y ∈ names, (s.scopeOf m).getObj? y ≠ some b) :
    t.Assigns m (x :: names) (v :: values) u := by
  have same : ∀ y ∈ names, (s.scopeOf m).getObj? y = (t.scopeOf m).getObj? y := fun y member =>
    first.getObj?_of_notMem here fun isFirst => other (List.mem_singleton.1 isFirst ▸ member)
  refine ⟨?_, ?_, fun c there' others => ?_⟩
  · have isBox' : (u.scopeOf m).getObj? x = some b :=
      (rest.getObj?_of_notMem (here.mono grew) other).trans isBox
    have content : u.content? m x = s.content? m x := by
      rw [content?, content?, isBox, isBox', Option.map_some, Option.map_some, rest.kept b there apart]
    have value : s.content? m x = some v := List.singleton_inj.1 first.holds
    rw [List.map_cons, List.map_cons, content, value, rest.holds]
  · obtain ⟨fresh, size, binds⟩ := first.binds
    obtain ⟨fresh', size', binds'⟩ := rest.binds
    refine ⟨fresh ++ fresh', ?_, ?_⟩
    · rw [unbound_cons same, List.length_append, List.length_append, size, size']
    · rw [unbound_cons same, List.zip_append size.symm]
      exact binds.trans binds'
  · rw [rest.kept c (there'.mono grew), first.kept c there']
    · intro y member
      rw [List.mem_singleton.1 member]
      exact others x List.mem_cons_self
    · intro y member
      rw [same y member]
      exact others y (List.mem_cons_of_mem x member)

end Assigns

/-- The slots of `t` but those of some names hold in `u` what they held in `t`. -/
def LeavesOthers (m : ModuleId) (names : List String) (t u : State) : Prop :=
  ∃ (receivers : ModuleId → List (Option InstanceId)) (others : Multiset BoxId),
    (∀ m, (receivers m).length = (t.scopeOf m).functionDepth) ∧
    (∀ m, ∀ x ∈ receivers m, ∀ i ∈ x, t.HasInstance i) ∧
    t.slots receivers = (names.filterMap (t.scopeOf m).getObj? : List BoxId) + others ∧
    ∀ b ∈ others, u.heap.value b = t.heap.value b

/-- Each name has one slot, and no other slot has a box of theirs. -/
theorem Assigns.leavesOthers {receivers : ModuleId → List (Option InstanceId)} {H : Multiset BoxId}
    (assigns : t.Assigns m names values u) (wf : t.WellFormed) (owned : t.Owned receivers H)
    (here : t.HasModule m) (distinct : names.Nodup) : t.LeavesOthers m names u := by
  have nodup : (names.filterMap (t.scopeOf m).getObj?).Nodup :=
    distinct.filterMap fun _ _ _ isBox isBox' => owned.getObj?_injective here isBox isBox'
  have listed :
      ((names.filterMap (t.scopeOf m).getObj? : List BoxId) : Multiset BoxId) ≤ t.slots receivers := by
    rw [Multiset.le_iff_subset (Multiset.coe_nodup.2 nodup)]
    intro b member
    obtain ⟨x, -, isBox⟩ := List.mem_filterMap.1 (Multiset.mem_coe.1 member)
    exact owned.mem_slots (.name here (Scope.mem_objs_of_getObj? isBox))
  obtain ⟨others, whole⟩ := Multiset.le_iff_exists_add.1 listed
  refine ⟨receivers, others, owned.calls, owned.instances, whole, fun b isOther => ?_⟩
  have inSlots : b ∈ t.slots receivers := whole ▸ Multiset.mem_add.2 (.inr isOther)
  refine assigns.kept b (wf.hasBox_of_mem_slots inSlots) fun x named isBox => ?_
  have apart := (Multiset.nodup_add.1 (whole ▸ (Multiset.nodup_add.1 owned.nodup).1)).2.2
  exact Multiset.disjoint_left.1 apart (Multiset.mem_coe.2 (List.mem_filterMap.2 ⟨x, named, isBox⟩)) isOther

end State

/-! ## The assignment -/

namespace Eval

variable {cfg : Config} {ev : Evaluators} {s t : State} {m m' : ModuleId} {fuel calls : Nat} {x : String}
  {b c : BoxId} {p : Position} {w : Discipline.owned.World} {H : Multiset BoxId}

theorem run_assignTo_bound (stands : s.Stands m m') (isBox : (s.scopeOf m').getObj? x = some b) :
    assignTo ev cfg ⟨m, calls⟩ (.ident p x) c s =
      (.ok (), s.withHeap (s.heap.write b (s.heap.value c))) := by
  rw [assignTo, bind_ok (run_getObj? stands x), isBox]
  rfl

theorem run_assignTo_unbound (stands : s.Stands m m') (absent : (s.scopeOf m').getObj? x = none) :
    assignTo ev cfg ⟨m, calls⟩ (.ident p x) c s = (.ok (), s.modifyScope m' (·.declareObj x c)) := by
  have same : s.registry.modifyScope m' (·.setObj x c) = s.registry.modifyScope m' (·.declareObj x c) :=
    Registry.modifyScope_congr (Scope.setObj_of_getObj?_eq_none absent c)
  rw [assignTo, bind_ok (run_getObj? stands x), absent]
  dsimp only
  rw [setObj, run_onScope stands]
  exact congrArg (fun registry => (Except.ok (), { s with registry })) same

/-- A copy in hand is given to a name. -/
theorem assigns_one (cfg : Config) (ev : Evaluators) (calls : Nat)
    (holds : Discipline.owned.Holds w (c ::ₘ H) s s)
    (opened : Discipline.owned.OpenFor w s m) (stands : s.Stands m m') (p : Position) (x : String) :
    ∃ t b, assignTo ev cfg ⟨m, calls⟩ (.ident p x) c s = (.ok (), t) ∧
      Discipline.owned.Holds w H t t ∧ s.Extends t ∧ s.Assigns m' [x] [s.heap.value c] t ∧
      (t.scopeOf m').getObj? x = some b ∧ t.HasBox b := by
  have there : s.HasModule m' := (holds.wf.found _ m' stands).1
  have isOpen : Discipline.owned.Open w m' := by
    obtain ⟨m'', stands', isOpen⟩ := opened.isOpen
    cases stands.symm.trans stands'
    exact isOpen
  cases isBox : (s.scopeOf m').getObj? x with
  | some b =>
    have stored : s.Stored b := .name there (Scope.mem_objs_of_getObj? isBox)
    have own := holds.wf.own_stored stored
    let op : Operation := .write b (s.heap.value c)
    have last : Discipline.owned.Holds w (c ::ₘ H) (op.apply s) (op.apply s) := by
      refine holds.step ⟨own, holds.wf.valid_value c, rfl⟩ ?_ nofun
      rintro b' ⟨⟩
      exact stored
    exact ⟨op.apply s, b, run_assignTo_bound stands isBox, last.drop (Multiset.le_cons_self H c), op.extends s,
      .write isBox own.2 _, isBox, own.2.mono (op.extends s)⟩
  | none =>
    let op : Operation := .declareObj m' x c
    have last : Discipline.owned.Holds w H (op.apply s) (op.apply s) := by
      refine holds.step ⟨there, rfl⟩ nofun ?_
      rintro m'' ⟨⟩
      exact isOpen
    have inHand := (holds.held c (Multiset.mem_cons_self c H)).2
    refine ⟨op.apply s, c, run_assignTo_unbound stands isBox, last, op.extends s, .declare there isBox c, ?_,
      inHand.mono (op.extends s)⟩
    change ((s.modifyScope m' (·.declareObj x c)).scopeOf m').getObj? x = some c
    rw [State.scopeOf_modifyScope there, Scope.getObj?_declareObj, if_pos rfl]

/-- The copies in hand are given to the names, one after another.  By induction on the names: a copy in hand
is in no slot, so the box that is written into is none of those that are still in hand. -/
theorem assigns_all (cfg : Config) (ev : Evaluators) (calls : Nat) (targets : List (Position × String)) :
    ∀ {s : State} {copies : List BoxId},
    (targets.map (·.2)).Nodup → copies.length = targets.length →
    Discipline.owned.Holds w (copies : Multiset BoxId) s s → Discipline.owned.OpenFor w s m →
    s.Stands m m' → ∃ u,
      assignAll ev cfg ⟨m, calls⟩ (targets.map fun x => .ident x.1 x.2) copies s = (.ok (), u) ∧
        s.Assigns m' (targets.map (·.2)) (copies.map s.heap.value) u := by
  induction targets with
  | nil =>
    intro s copies _ size _ _ _
    rw [List.eq_nil_of_length_eq_zero size]
    exact ⟨s, rfl, .nil s m'⟩
  | cons target targets ih =>
    intro s copies distinct size holds opened stands
    rcases copies with _ | ⟨c, copies⟩
    · cases size
    rw [← Multiset.cons_coe] at holds
    obtain ⟨fresh, distinct'⟩ := List.nodup_cons.1 distinct
    have there : s.HasModule m' := (holds.wf.found _ m' stands).1
    obtain ⟨t, b, run, last, grew, first, isBox, hasBox⟩ :=
      assigns_one cfg ev calls holds opened stands target.1 target.2
    obtain ⟨u, run', rest⟩ := ih distinct' (Nat.succ.inj size) last (opened.mono grew)
      (stands.mono grew opened.module)
    have same : copies.map t.heap.value = copies.map s.heap.value := by
      refine List.map_congr_left fun c' member => ?_
      have inHand : c' ∈ c ::ₘ (copies : Multiset BoxId) := Multiset.mem_cons_of_mem member
      refine first.kept c' (holds.held c' inHand).2 fun y _ isBox' => ?_
      exact holds.rel.2.not_stored inHand (.name there (Scope.mem_objs_of_getObj? isBox'))
    rw [same] at rest
    refine ⟨u, (bind_ok run).trans run', first.cons rest there grew fresh isBox hasBox ?_⟩
    intro y member isBox'
    have isSame : target.2 = y := last.rel.2.getObj?_injective (there.mono grew) isBox isBox'
    rw [← isSame] at member
    exact fresh member

/-- Variables as right sides have the values they hold, since the copies made in between change no box that
was there. -/
theorem rightSides_idents (cfg : Config) (fuel calls : Nat) (sources : List (Position × String)) :
    ∀ {s : State}, s.WellFormed →
    s.HasModule m' → s.Stands m m' → (∀ x ∈ sources, ∃ b, (s.scopeOf m').getObj? x.2 = some b) →
    ∃ values t, RightSides cfg (fuel + 1) ⟨m, calls⟩ (sources.map fun x => .ident x.1 x.2) s values t ∧
      sources.map (fun x => s.content? m' x.2) = values.map some := by
  induction sources with
  | nil => exact fun {s} _ _ _ _ => ⟨[], s, .nil, rfl⟩
  | cons source sources ih =>
    intro s wf there stands bound
    obtain ⟨b, isBox⟩ := bound source List.mem_cons_self
    let op : Operation := .alloc (s.heap.value b)
    have later : (op.apply s).WellFormed := wf.step s.holding_zero ⟨wf.valid_value b, rfl⟩
    obtain ⟨values, t, sides, same⟩ := ih later (there.mono (op.extends s)) stands
      fun x member => bound x (List.mem_cons_of_mem source member)
    have evaluated : evalExpr cfg (fuel + 1) ⟨m, calls⟩ (.ident source.1 source.2) s = (.ok b, s) :=
      evalExpr_ident (by rw [run_getObj? stands, isBox])
    refine ⟨s.heap.value b :: values, t, .cons evaluated rfl sides, ?_⟩
    have first : s.content? m' source.2 = some (s.heap.value b) := by rw [State.content?, isBox]; rfl
    have kept : sources.map (fun x => s.content? m' x.2) =
        sources.map fun x => (op.apply s).content? m' x.2 := by
      refine List.map_congr_left fun x _ => ?_
      change ((s.scopeOf m').getObj? x.2).map s.heap.value =
        ((s.scopeOf m').getObj? x.2).map (op.apply s).heap.value
      refine Option.map_congr fun b' isBox' => ?_
      have own := wf.own_obj there (Scope.mem_objs_of_getObj? isBox')
      exact (op.value_apply own.2 nofun).symm
    rw [List.map_cons, first, kept, same]
    rfl

end Eval

/-- A plain assignment to different names, whose right sides are evaluated without an error: it succeeds,
every name holds the value its right side had when it was evaluated, and giving the values to the names
changes nothing else. -/
theorem evalStmt_assign_values {cfg : Config} {s t : State} {m m' : ModuleId} {fuel calls : Nat}
    {targets : List (Position × String)} {es : List Expr} {values : List Value} (running : Running cfg m s)
    (stands : s.Stands m m') (distinct : (targets.map (·.2)).Nodup) (size : es.length = targets.length)
    (sides : RightSides cfg fuel ⟨m, calls⟩ es s values t) (p : Position) : ∃ u,
      evalStmt cfg (fuel + 1) ⟨m, calls⟩ (.assign p .plain (targets.map fun x => .ident x.1 x.2) es) s =
        (.ok .done, u) ∧
      t.Assigns m' (targets.map (·.2)) values u ∧ t.LeavesOthers m' (targets.map (·.2)) u := by
  obtain ⟨receivers, owned⟩ := running.reachable.owned
  obtain ⟨w, opened, begun⟩ := Discipline.owned_upholds.beginsFor
    ⟨running.reachable.wellFormed, receivers, owned⟩ running.here
  obtain ⟨copies, copied, holds, later, same, -⟩ := sides.copied begun opened.here
  rw [add_zero] at holds
  have stands' := stands.mono later running.here
  have sizes : copies.length = targets.length := by
    rw [← size, ← sides.length_eq, ← same, List.length_map]
  obtain ⟨u, assigned, assigns⟩ := Eval.assigns_all cfg (evaluators cfg fuel) calls targets distinct sizes
    holds (opened.mono later) stands'
  rw [same] at assigns
  have plain : Eval.assign (evaluators cfg fuel) cfg ⟨m, calls⟩ .plain
      (targets.map fun x => .ident x.1 x.2) es s = (.ok (), u) := by
    have sameSize : ¬ (targets.map fun x => Expr.ident x.1 x.2).length ≠ es.length := by simp [size]
    rw [Eval.assign, Eval.assignPlain, if_neg sameSize]
    exact (Eval.bind_ok copied).trans assigned
  exact ⟨u, Eval.evalStmt_assign_ok plain, assigns,
    assigns.leavesOthers holds.wf holds.rel.2 (holds.wf.found _ m' stands').1 distinct⟩

/-- Simultaneous assignment: for different names, bound or not, and right sides that are evaluated without an
error from a reachable state, however they mention or change the names, the assignment succeeds.  Every name
then holds the value its right side had when it was evaluated, and giving the values to the names changes
nothing else: no other box, no binding, and no list, dictionary or instance.  So assigning a permutation of
bound variables permutes what they hold. -/
theorem evalStmt_assign_simultaneous {cfg : Config} {s : State} {m : ModuleId}
    (targets : List (Position × String)) (running : Running cfg m s) (distinct : (targets.map (·.2)).Nodup)
    (p : Position) (fuel calls : Nat) : ∃ m', s.Stands m m' ∧
      (∀ {es values t}, es.length = targets.length → RightSides cfg fuel ⟨m, calls⟩ es s values t → ∃ u,
        evalStmt cfg (fuel + 1) ⟨m, calls⟩ (.assign p .plain (targets.map fun x => .ident x.1 x.2) es) s =
          (.ok .done, u) ∧
        t.Assigns m' (targets.map (·.2)) values u ∧ t.LeavesOthers m' (targets.map (·.2)) u) ∧
      ∀ sources : List (Position × String), (sources.map (·.2)).Perm (targets.map (·.2)) →
        (∀ x ∈ sources, (s.content? m' x.2).isSome) → ∃ u,
          evalStmt cfg (fuel + 2) ⟨m, calls⟩ (.assign p .plain (targets.map fun x => .ident x.1 x.2)
            (sources.map fun x => .ident x.1 x.2)) s = (.ok .done, u) ∧
          targets.map (fun x => u.content? m' x.2) = sources.map fun x => s.content? m' x.2 := by
  have wf := running.reachable.wellFormed
  obtain ⟨m', stands, there⟩ := wf.stands running.here
  refine ⟨m', stands, fun size sides => evalStmt_assign_values running stands distinct size sides p, ?_⟩
  intro sources permuted bound
  have boxes : ∀ x ∈ sources, ∃ b, (s.scopeOf m').getObj? x.2 = some b := by
    intro x member
    have isSome := bound x member
    rw [State.content?, Option.isSome_map] at isSome
    exact Option.isSome_iff_exists.1 isSome
  obtain ⟨values, t, sides, same⟩ := Eval.rightSides_idents cfg fuel calls sources wf there stands boxes
  have size : (sources.map fun x => Expr.ident x.1 x.2).length = targets.length := by
    simpa using permuted.length_eq
  obtain ⟨u, run, assigns, -⟩ := evalStmt_assign_values running stands distinct size sides p
  refine ⟨u, run, ?_⟩
  rw [same, ← assigns.holds, List.map_map]
  rfl

/-- A main module with two variables and a function that assigns to the first of them. -/
def twoVariables : State :=
  let give (x v : String) (s : State) : State := (evalStmt .standard 9 ⟨⟨0⟩, 5⟩
    (.assign .start .plain [.ident .start x] [.literal .start (.str v)]) s).2
  let body : Block :=
    [.assign .start .plain [.ident .start "x"] [.literal .start (.str "c")],
      .returnValue .start (some (.literal .start (.str "d")))]
  (evalStmt .standard 9 ⟨⟨0⟩, 5⟩ (.function (.mk .start "f" [] body))
    (give "y" "b" (give "x" "a" (State.initial.load (.ofSource "main" "/" ""))))).2

theorem eq_ok_of_toOption {α : Type} {outcome : Except Stop α × State} {x : α}
    (given : outcome.1.toOption = some x) : outcome = (.ok x, outcome.2) :=
  Prod.ext (Stop.eq_of_toOption given) rfl

/-- The text of a string. -/
def Value.text? : Value → Option String
  | .str text => some text
  | _ => none

theorem Value.eq_of_text? {v : Value} {text : String} (same : v.text? = some text) : v = .str text := by
  cases v with
  | str text' => exact congrArg Value.str (Option.some.inj same)
  | nil | bool | int | float | list | dict | struct | function | method | builtin | module | structDef =>
    cases same

/-- The first right side calls the function, and the second one reads the variable then; and the two
variables are exchanged. -/
theorem evalStmt_assign_simultaneous_call :
    Running .standard ⟨0⟩ twoVariables ∧
      (∃ u, evalStmt .standard 9 ⟨⟨0⟩, 5⟩ (.assign .start .plain [.ident .start "x", .ident .start "z"]
          [.call .start (.ident .start "f") [], .ident .start "x"]) twoVariables = (.ok .done, u) ∧
        ["x", "z"].map (u.content? ⟨0⟩) = [some (.str "d"), some (.str "c")]) ∧
      ∃ u, evalStmt .standard 9 ⟨⟨0⟩, 5⟩ (.assign .start .plain [.ident .start "x", .ident .start "y"]
          [.ident .start "y", .ident .start "x"]) twoVariables = (.ok .done, u) ∧
        ["x", "y"].map (u.content? ⟨0⟩) = [some (.str "b"), some (.str "a")] := by
  have begun : Running .standard ⟨0⟩ (State.initial.load (.ofSource "main" "/" "")) :=
    ⟨.register .initial rfl, State.hasModule_load State.initial _⟩
  have running : Running .standard ⟨0⟩ twoVariables :=
    ((begun.evalStmt 9 5 _).evalStmt 9 5 _).evalStmt 9 5 _
  refine ⟨running, ?_, ?_⟩
  · obtain ⟨m', stands, assigns, -⟩ := evalStmt_assign_simultaneous [(.start, "x"), (.start, "z")] running
      (by decide) .start 8 5
    cases stands
    let call : Expr := .call .start (.ident .start "f") []
    obtain ⟨t, called, returned, assigned⟩ : ∃ t,
        evalExpr .standard 8 ⟨⟨0⟩, 5⟩ call twoVariables = (.ok ⟨15⟩, t) ∧
        t.heap.value ⟨15⟩ = .str "d" ∧ t.heap.value ⟨9⟩ = .str "c" :=
      ⟨(evalExpr .standard 8 ⟨⟨0⟩, 5⟩ call twoVariables).2, eq_ok_of_toOption (by decide +kernel),
        Value.eq_of_text? (by decide +kernel), Value.eq_of_text? (by decide +kernel)⟩
    have bound : Eval.getObj? ⟨0⟩ "x" twoVariables = (.ok (some ⟨9⟩), twoVariables) := rfl
    obtain ⟨kept, there⟩ := Eval.getObj?_of_evalExpr running.reachable.wellFormed running.here bound called
    let op : Operation := .alloc (t.heap.value ⟨15⟩)
    have named : evalExpr .standard 8 ⟨⟨0⟩, 5⟩ (.ident .start "x") (op.apply t) = (.ok ⟨9⟩, op.apply t) :=
      Eval.evalExpr_ident (kept _)
    obtain ⟨u, run, given, -⟩ := assigns rfl (.cons called rfl (.cons named rfl .nil))
    have later : (op.apply t).heap.value ⟨9⟩ = .str "c" := (op.value_apply there nofun).trans assigned
    rw [returned, later] at given
    exact ⟨u, run, given.holds⟩
  · obtain ⟨m', stands, -, permutes⟩ := evalStmt_assign_simultaneous [(.start, "x"), (.start, "y")] running
      (by decide) .start 7 5
    cases stands
    obtain ⟨u, run, given⟩ := permutes [(.start, "y"), (.start, "x")] (by decide) (by decide +kernel)
    have contents : ["y", "x"].map (twoVariables.content? ⟨0⟩) = [some (.str "b"), some (.str "a")] := rfl
    exact ⟨u, run, given.trans contents⟩

end Shiba

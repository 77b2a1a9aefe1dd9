import Shiba.Proofs.Lockstep.Scoped

/-!
# Two runs inside different calls

Two runs begin in states `c₁` and `c₂` that differ in the frames of the calls that are active at that
point.  `State.Apart` says that they still differ in nothing else, and how many calls have begun since
in every module: the frames of these are the same in both runs, and they cover the frames below.

A module in which no call has begun since is seen from outside with the frames it had.  So the two
runs stay together as long as a name means the same in both, seen from outside, in every module that is
not covered; this is what the worlds of `Discipline.isolated` ask for.
-/

namespace Shiba

/-- A module without the frames of its active calls. -/
def Module.bare (M : Module) : Module := { M with scope := { M.scope with frames := [] } }

namespace State

/-- Two states that differ in the frames of active calls at most. -/
structure SameButFrames (s₁ s₂ : State) : Prop where
  heap : s₂.heap = s₁.heap
  builtins : s₂.builtins = s₁.builtins
  output : s₂.output = s₁.output
  keys : s₂.registry.keys = s₁.registry.keys
  size : s₂.registry.modules.size = s₁.registry.modules.size
  modules : ∀ m, (s₂.registry.module m).bare = (s₁.registry.module m).bare

/-- Two states that differ in frames of `c₁` and `c₂` at most, where `n m` calls have begun since in
the module `m`. -/
structure Apart (c₁ c₂ : State) (n : ModuleId → Nat) (s₁ s₂ : State) : Prop
    extends SameButFrames s₁ s₂ where
  frames : ∀ m, ∃ new, new.length = n m ∧ (s₁.scopeOf m).frames = new ++ (c₁.scopeOf m).frames ∧
    (s₂.scopeOf m).frames = new ++ (c₂.scopeOf m).frames
  /-- Inside a call, the names of the top level are not bound. -/
  root : ∀ m, (c₁.scopeOf m).frames ≠ [] → (s₁.scopeOf m).root = (c₁.scopeOf m).root

/-- The frames of `c₁` and `c₂` in a module are covered, or there are none. -/
def Covered (c₁ c₂ : State) (n : ModuleId → Nat) (m : ModuleId) : Prop :=
  0 < n m ∨ ((c₁.scopeOf m).frames = [] ∧ (c₂.scopeOf m).frames = [])

/-- In every module where no call has begun since, names mean the same from outside. -/
def Quiet (c₁ c₂ : State) (n : ModuleId → Nat) : Prop :=
  ∀ m, c₁.Registered m → n m = 0 → (c₁.scopeOf m).SameMembers (c₂.scopeOf m)

variable {c₁ c₂ s₁ s₂ : State} {n n' : ModuleId → Nat} {m : ModuleId}
  {f : Scope BoxId StructId → Scope BoxId StructId}

theorem SameButFrames.root_eq (same : s₁.SameButFrames s₂) (m : ModuleId) :
    (s₂.scopeOf m).root = (s₁.scopeOf m).root :=
  (congrArg (fun M : Module => M.scope.root) (same.modules m) :)

theorem SameButFrames.name_eq (same : s₁.SameButFrames s₂) (m : ModuleId) :
    (s₂.registry.module m).name = (s₁.registry.module m).name :=
  (congrArg Module.name (same.modules m) :)

theorem SameButFrames.directory_eq (same : s₁.SameButFrames s₂) (m : ModuleId) :
    (s₂.registry.module m).directory = (s₁.registry.module m).directory :=
  (congrArg Module.directory (same.modules m) :)

theorem SameButFrames.stands {m' : ModuleId} (same : s₁.SameButFrames s₂) (stands : s₁.Stands m m') :
    s₂.Stands m m' := by
  have key : (s₂.registry.module m).key = (s₁.registry.module m).key :=
    (congrArg Module.key (same.modules m) :)
  rw [Stands, Registry.find?, key, same.keys]
  exact stands

theorem SameButFrames.hasModule (same : s₁.SameButFrames s₂) (here : s₁.HasModule m) :
    s₂.HasModule m := by
  rw [HasModule, same.size]
  exact here

theorem SameButFrames.withHeap (same : s₁.SameButFrames s₂) (h : Heap) :
    (s₁.withHeap h).SameButFrames (s₂.withHeap h) :=
  ⟨rfl, same.builtins, same.output, same.keys, same.size, same.modules⟩

/-! ## What the two runs see -/

/-- The scopes of a covered module have the same top level and, if any, the same innermost frame. -/
theorem Apart.covered (apart : Apart c₁ c₂ n s₁ s₂) (covered : Covered c₁ c₂ n m) :
    ((n m = 0 ∧ (c₁.scopeOf m).frames = [] ∧ (c₂.scopeOf m).frames = []) ∧
      (s₁.scopeOf m).frames = [] ∧ (s₂.scopeOf m).frames = []) ∨
      ∃ frame outer, outer.length + 1 = n m ∧
        (s₁.scopeOf m).frames = frame :: (outer ++ (c₁.scopeOf m).frames) ∧
        (s₂.scopeOf m).frames = frame :: (outer ++ (c₂.scopeOf m).frames) := by
  obtain ⟨new, count, frames₁, frames₂⟩ := apart.frames m
  cases new with
  | nil =>
    rcases covered with some | ⟨none₁, none₂⟩
    · rw [← count] at some
      cases some
    · rw [List.nil_append, none₁] at frames₁
      rw [List.nil_append, none₂] at frames₂
      exact .inl ⟨⟨count.symm, none₁, none₂⟩, frames₁, frames₂⟩
  | cons frame outer => exact .inr ⟨frame, outer, count, frames₁, frames₂⟩

theorem Apart.current_eq (apart : Apart c₁ c₂ n s₁ s₂) (covered : Covered c₁ c₂ n m) :
    (s₂.scopeOf m).current = (s₁.scopeOf m).current := by
  have root := apart.root_eq m
  rcases apart.covered covered with ⟨-, none₁, none₂⟩ | ⟨frame, outer, -, frames₁, frames₂⟩
  · rw [Scope.current, Scope.current, none₁, none₂, root]
  · rw [Scope.current, Scope.current, frames₁, frames₂]
    rfl

/-- In a covered module every name means the same. -/
theorem Apart.lookups (apart : Apart c₁ c₂ n s₁ s₂) (covered : Covered c₁ c₂ n m) (name : String) :
    (s₂.scopeOf m).getObj? name = (s₁.scopeOf m).getObj? name ∧
      (s₂.scopeOf m).getStruct? name = (s₁.scopeOf m).getStruct? name := by
  have root := apart.root_eq m
  rcases apart.covered covered with ⟨-, none₁, none₂⟩ | ⟨frame, outer, -, frames₁, frames₂⟩
  · simp only [Scope.getObj?, Scope.getStruct?, none₁, none₂, root, and_self]
  · simp only [Scope.getObj?, Scope.getStruct?, frames₁, frames₂, root, and_self]

/-- A module that is not covered is what it was, if calls were active in it. -/
theorem Apart.scope_eq (apart : Apart c₁ c₂ n s₁ s₂) (before : c₁.SameButFrames c₂)
    (active : (c₁.scopeOf m).frames ≠ []) (none : n m = 0) :
    s₁.scopeOf m = c₁.scopeOf m ∧ s₂.scopeOf m = c₂.scopeOf m := by
  obtain ⟨new, count, frames₁, frames₂⟩ := apart.frames m
  cases List.length_eq_zero_iff.1 (count.trans none)
  have root₁ := apart.root m active
  have root₂ : (s₂.scopeOf m).root = (c₂.scopeOf m).root := by
    rw [apart.root_eq, root₁, before.root_eq]
  constructor
  · exact congrArg₂ Scope.mk root₁ frames₁
  · exact congrArg₂ Scope.mk root₂ frames₂

/-! ## What keeps the two runs together -/

/-- The scope of a module is changed in both states. -/
theorem Apart.modifyScope (apart : Apart c₁ c₂ n s₁ s₂) (here : s₁.HasModule m)
    (others : ∀ m', m' ≠ m → n' m' = n m')
    (roots : (f (s₂.scopeOf m)).root = (f (s₁.scopeOf m)).root)
    (frames : ∃ new, new.length = n' m ∧ (f (s₁.scopeOf m)).frames = new ++ (c₁.scopeOf m).frames ∧
      (f (s₂.scopeOf m)).frames = new ++ (c₂.scopeOf m).frames)
    (kept : (c₁.scopeOf m).frames ≠ [] → (f (s₁.scopeOf m)).root = (s₁.scopeOf m).root) :
    Apart c₁ c₂ n' (s₁.modifyScope m f) (s₂.modifyScope m f) := by
  have there := apart.hasModule here
  have self₁ : (s₁.modifyScope m f).scopeOf m = f (s₁.scopeOf m) :=
    congrArg Module.scope (Registry.module_modifyScope_self f here)
  have self₂ : (s₂.modifyScope m f).scopeOf m = f (s₂.scopeOf m) :=
    congrArg Module.scope (Registry.module_modifyScope_self f there)
  have other : ∀ {s : State} {m'}, m' ≠ m → (s.modifyScope m f).scopeOf m' = s.scopeOf m' :=
    fun apart => congrArg Module.scope (Registry.module_modifyScope_of_ne f apart)
  refine ⟨⟨apart.heap, apart.builtins, apart.output, apart.keys, ?_, ?_⟩, ?_, ?_⟩
  · exact (Registry.size_modifyScope ..).trans
      (apart.size.trans (Registry.size_modifyScope ..).symm)
  · intro m'
    by_cases same : m' = m
    · subst same
      rw [State.modifyScope, State.modifyScope, Registry.module_modifyScope_self f here,
        Registry.module_modifyScope_self f there]
      have bare := congrArg (fun M : Module => { M with scope := ⟨(f (s₂.scopeOf m')).root, []⟩ })
        (apart.modules m')
      have rooted := congrArg (fun root => { s₁.registry.module m' with scope := ⟨root, []⟩ }) roots
      exact Eq.trans bare rooted
    · rw [State.modifyScope, State.modifyScope, Registry.module_modifyScope_of_ne f same,
        Registry.module_modifyScope_of_ne f same]
      exact apart.modules m'
  · intro m'
    by_cases same : m' = m
    · subst same
      rw [self₁, self₂]
      exact frames
    · rw [other same, other same, others m' same]
      exact apart.frames m'
  · intro m' active
    by_cases same : m' = m
    · subst same
      rw [self₁, kept active]
      exact apart.root m' active
    · rw [other same]
      exact apart.root m' active

/-- The current frame of a covered module is changed in both states. -/
theorem Apart.modifyCurrent (apart : Apart c₁ c₂ n s₁ s₂) (here : s₁.HasModule m)
    (covered : Covered c₁ c₂ n m) (g : Frame BoxId StructId → Frame BoxId StructId) :
    Apart c₁ c₂ n (s₁.modifyScope m (·.modifyCurrent g)) (s₂.modifyScope m (·.modifyCurrent g)) := by
  have root := apart.root_eq m
  apply apart.modifyScope here (fun _ _ => rfl)
  · rcases apart.covered covered with ⟨-, none₁, none₂⟩ | ⟨frame, outer, -, frames₁, frames₂⟩
    · simp only [Scope.modifyCurrent, none₁, none₂, root]
    · simp only [Scope.modifyCurrent, frames₁, frames₂, root]
  · rcases apart.covered covered with
      ⟨⟨count, base₁, base₂⟩, none₁, none₂⟩ | ⟨frame, outer, count, frames₁, frames₂⟩
    · refine ⟨[], count.symm, ?_, ?_⟩
      · simp only [Scope.modifyCurrent, none₁, base₁, List.nil_append]
      · simp only [Scope.modifyCurrent, none₂, base₂, List.nil_append]
    · exact ⟨g frame :: outer, count, by simp only [Scope.modifyCurrent, frames₁, List.cons_append],
        by simp only [Scope.modifyCurrent, frames₂, List.cons_append]⟩
  · intro active
    rcases apart.covered covered with ⟨⟨-, base₁, -⟩, -⟩ | ⟨frame, outer, -, frames₁, -⟩
    · exact absurd base₁ active
    · simp only [Scope.modifyCurrent, frames₁]

/-- A call begins in both states. -/
theorem Apart.enter (apart : Apart c₁ c₂ n s₁ s₂) (here : s₁.HasModule m)
    (names : OrderedMap String BoxId) :
    Apart c₁ c₂ (Function.update n m (n m + 1)) (s₁.enter m names) (s₂.enter m names) := by
  apply apart.modifyScope here
  · exact fun m' other => Function.update_of_ne other ..
  · exact apart.root_eq m
  · obtain ⟨new, count, frames₁, frames₂⟩ := apart.frames m
    refine ⟨⟨⟨names, []⟩, .empty⟩ :: new, ?_, ?_, ?_⟩
    · rw [Function.update_self, List.length_cons, count]
    · rw [Scope.addFrame, frames₁, List.cons_append]
    · rw [Scope.addFrame, frames₂, List.cons_append]
  · exact fun _ => rfl

/-- A call that began in both states ends in both. -/
theorem Apart.leave (apart : Apart c₁ c₂ (Function.update n m (n m + 1)) s₁ s₂)
    (here : s₁.HasModule m) :
    (s₁.scopeOf m).frames ≠ [] ∧ (s₂.scopeOf m).frames ≠ [] ∧
      Apart c₁ c₂ n (s₁.leave m) (s₂.leave m) := by
  obtain ⟨new, count, frames₁, frames₂⟩ := apart.frames m
  rw [Function.update_self] at count
  cases new with
  | nil => cases count
  | cons frame outer =>
    refine ⟨?_, ?_, apart.modifyScope here ?_ (apart.root_eq m) ?_ fun _ => rfl⟩
    · rw [frames₁]
      exact List.cons_ne_nil _ _
    · rw [frames₂]
      exact List.cons_ne_nil _ _
    · exact fun m' other => (Function.update_of_ne other ..).symm
    · refine ⟨outer, Nat.succ.inj count, ?_, ?_⟩
      · rw [Scope.dropFrame, frames₁, List.cons_append, List.tail_cons]
      · rw [Scope.dropFrame, frames₂, List.cons_append, List.tail_cons]

theorem covered_update (c₁ c₂ : State) (n : ModuleId → Nat) (m : ModuleId) :
    Covered c₁ c₂ (Function.update n m (n m + 1)) m := by
  left
  rw [Function.update_self]
  exact Nat.succ_pos _

theorem Quiet.update (quiet : Quiet c₁ c₂ n) (m : ModuleId) :
    Quiet c₁ c₂ (Function.update n m (n m + 1)) := by
  intro m' registered none
  by_cases same : m' = m
  · rw [same, Function.update_self] at none
    cases none
  · rw [Function.update_of_ne same] at none
    exact quiet m' registered none

theorem scopeOf_of_le {s : State} (absent : s.registry.modules.size ≤ m.index) :
    s.scopeOf m = .empty := by
  rw [scopeOf, Registry.module_of_le absent]
  rfl

/-- A module without calls is loaded in both states. -/
theorem Apart.load {M : Module} (apart : Apart c₁ c₂ n s₁ s₂) (later : c₁.Extends s₁)
    (before : c₁.SameButFrames c₂) (closed : M.scope.Closed) :
    Apart c₁ c₂ n (s₁.load M) (s₂.load M) ∧ Covered c₁ c₂ n s₁.registry.next := by
  have size₁ : c₁.registry.modules.size ≤ s₁.registry.next.index := later.modules
  have size₂ : c₂.registry.modules.size ≤ s₁.registry.next.index := before.size ▸ size₁
  have next : s₂.registry.next = s₁.registry.next := by
    rw [Registry.next, Registry.next, apart.size]
  have base₁ : (c₁.scopeOf s₁.registry.next).frames = [] := by rw [scopeOf_of_le size₁]; rfl
  have base₂ : (c₂.scopeOf s₁.registry.next).frames = [] := by rw [scopeOf_of_le size₂]; rfl
  have new₁ : (s₁.load M).registry.module s₁.registry.next = M := Registry.module_load_next _ M
  have new₂ : (s₂.load M).registry.module s₁.registry.next = M :=
    next ▸ Registry.module_load_next _ M
  have none : n s₁.registry.next = 0 := by
    obtain ⟨new, count, frames₁, -⟩ := apart.frames s₁.registry.next
    have absent : s₁.registry.modules.size ≤ s₁.registry.next.index := Nat.le_refl _
    rw [scopeOf_of_le absent] at frames₁
    rw [← count, (List.append_eq_nil_iff.1 frames₁.symm).1]
    rfl
  -- a module other than the new one is what it was
  have other₁ : ∀ {m}, m ≠ s₁.registry.next →
      (s₁.load M).registry.module m = s₁.registry.module m := Registry.module_load_of_ne
  have other₂ : ∀ {m}, m ≠ s₁.registry.next →
      (s₂.load M).registry.module m = s₂.registry.module m := by
    rw [← next]
    exact Registry.module_load_of_ne
  refine ⟨⟨⟨apart.heap, apart.builtins, apart.output, ?_, ?_, ?_⟩, ?_, ?_⟩, .inr ⟨base₁, base₂⟩⟩
  · rw [State.load, State.load, Registry.keys_load, Registry.keys_load, next, apart.keys]
  · rw [State.load, State.load, Registry.size_load, Registry.size_load, apart.size]
  · intro m
    by_cases isNext : m = s₁.registry.next
    · rw [isNext, new₁, new₂]
    · rw [other₁ isNext, other₂ isNext]
      exact apart.modules m
  · intro m
    by_cases isNext : m = s₁.registry.next
    · subst isNext
      refine ⟨[], none.symm, ?_, ?_⟩
      · rw [base₁, List.nil_append, scopeOf, new₁]
        exact closed.1
      · rw [base₂, List.nil_append, scopeOf, new₂]
        exact closed.1
    · obtain ⟨new, count, frames₁, frames₂⟩ := apart.frames m
      refine ⟨new, count, ?_, ?_⟩
      · rw [scopeOf, other₁ isNext]
        exact frames₁
      · rw [scopeOf, other₂ isNext]
        exact frames₂
  · intro m active
    have isOther : m ≠ s₁.registry.next := by
      rintro rfl
      exact active base₁
    rw [scopeOf, other₁ isOther]
    exact apart.root m active

/-- No reading tells the two states apart. -/
theorem Apart.alike (apart : Apart c₁ c₂ n s₁ s₂) (wf : c₁.WellFormed) (later : c₁.Extends s₁)
    (before : c₁.SameButFrames c₂)
    (calls : ∀ m, (c₂.scopeOf m).functionDepth = (c₁.scopeOf m).functionDepth)
    (quiet : Quiet c₁ c₂ n) : s₁.Alike s₂ := by
  refine ⟨apart.heap, apart.builtins, apart.keys, apart.size, apart.name_eq, apart.directory_eq,
    fun m => congrArg (·.objs.names) (apart.root_eq m),
    fun m => congrArg (·.structs.names) (apart.root_eq m), ?_⟩
  intro m registered
  by_cases covered : Covered c₁ c₂ n m
  · exact fun name => ⟨(apart.lookups covered name).1, fun _ => (apart.lookups covered name).2⟩
  · have none : n m = 0 := by
      by_contra some
      exact covered (.inl (Nat.pos_of_ne_zero some))
    have active : (c₁.scopeOf m).frames ≠ [] := by
      intro nil₁
      have nil₂ : (c₂.scopeOf m).frames = [] := by
        apply List.length_eq_zero_iff.1
        have count := calls m
        rwa [Scope.functionDepth, Scope.functionDepth, nil₁] at count
      exact covered (.inr ⟨nil₁, nil₂⟩)
    have old : c₁.Registered m := by
      have here : c₁.HasModule m := by
        by_contra absent
        exact active (by rw [scopeOf_of_le (Nat.le_of_not_lt absent)]; rfl)
      obtain ⟨m', stands, -⟩ := wf.stands here
      cases (stands.mono later here).symm.trans registered
      exact stands
    obtain ⟨same₁, same₂⟩ := apart.scope_eq before active none
    rw [same₁, same₂]
    exact quiet m old none

/-- An operation that binds names in covered modules only. -/
theorem Apart.step {op : Operation} {H K : Multiset BoxId} (apart : Apart c₁ c₂ n s₁ s₂)
    (allowed : op.Allowed H s₁ K) (covered : ∀ m ∈ op.target?, Covered c₁ c₂ n m) :
    Apart c₁ c₂ n (op.apply s₁) (op.apply s₂) := by
  cases op with
  | setObj m name b => exact apart.modifyCurrent allowed.1 (covered m rfl) _
  | declareObj m name b => exact apart.modifyCurrent allowed.1 (covered m rfl) _
  | setStruct m name d => exact apart.modifyCurrent allowed.1 (covered m rfl) _
  | print line =>
    exact { apart with output := congrArg (Array.push · line) apart.output }
  | alloc | write | allocList | allocDict | file | unfile | allocInstance | allocFunction
  | allocStruct =>
    refine { apart with heap := ?_ }
    simp only [Operation.apply, withHeap, apart.heap]

end State

open State

/-- The discipline of two runs that began in `c₁` and `c₂`. -/
def Discipline.isolated (c₁ c₂ : State) (wf : c₁.WellFormed) (before : c₁.SameButFrames c₂)
    (calls : ∀ m, (c₂.scopeOf m).functionDepth = (c₁.scopeOf m).functionDepth) : Discipline where
  World := Discipline.scoped.World × (ModuleId → Nat)
  Rel w H s₁ s₂ := Discipline.scoped.Rel w.1 H s₁ s₁ ∧ c₁.Extends s₁ ∧ Apart c₁ c₂ w.2 s₁ s₂ ∧
    Quiet c₁ c₂ w.2
  Open w m := Discipline.scoped.Open w.1 m ∧ Covered c₁ c₂ w.2 m
  Blocks w m := Discipline.scoped.Blocks w.1 m ∧ Covered c₁ c₂ w.2 m
  Local w m := Discipline.scoped.Local w.1 m ∧ Covered c₁ c₂ w.2 m
  alike related := related.2.2.1.alike wf related.2.1 before calls related.2.2.2
  drop fewer related := ⟨Discipline.scoped.drop fewer related.1, related.2⟩
  structs related isLocal name := (related.2.2.1.lookups isLocal.2 name).2
  blocksOfOpen opened := ⟨Discipline.scoped.blocksOfOpen opened.1, opened.2⟩
  localOfBlocks blocks := ⟨Discipline.scoped.localOfBlocks blocks.1, blocks.2⟩
  step op wf' held allowed stored opened related := by
    rcases related with ⟨fits, later, apart, quiet⟩
    exact ⟨Discipline.scoped.step op wf' held allowed stored (fun m bound => (opened m bound).1) fits,
      later.trans (op.extends _), apart.step allowed fun m bound => (opened m bound).2, quiet⟩
  call {w H s₁ s₂ m names} wf' here received related := by
    rcases related with ⟨fits, later, apart, quiet⟩
    obtain ⟨w', opened, entered, leave⟩ := Discipline.scoped.call wf' here received fits
    refine ⟨(w', Function.update w.2 m (w.2 m + 1)), ⟨opened, covered_update c₁ c₂ w.2 m⟩,
      ⟨entered, later.trans (s₁.extends_modifyScope m _), apart.enter here names, quiet.update m⟩, ?_⟩
    intro K t₁ t₂ wf'' there ended
    obtain ⟨inside, later', apart', -⟩ := ended
    obtain ⟨active₁, active₂, left⟩ := apart'.leave there
    exact ⟨active₁, active₂, (leave wf'' there inside).2.2,
      later'.trans (t₁.extends_modifyScope m _), left, quiet⟩
  block {w H s₁ s₂ m} wf' here blocks related := by
    rcases related with ⟨fits, later, apart, quiet⟩
    obtain ⟨w', opened, entered, leave⟩ := Discipline.scoped.block wf' here blocks.1 fits
    refine ⟨(w', w.2), ⟨opened, blocks.2⟩, ⟨entered, later.trans (s₁.extends_modifyScope m _),
      apart.modifyCurrent here blocks.2 _, quiet⟩, ?_⟩
    intro K t₁ t₂ wf'' there ended
    obtain ⟨inside, later', apart', -⟩ := ended
    obtain ⟨active, -, left⟩ := leave wf'' there inside
    have same : (t₂.scopeOf m).blockDepth = (t₁.scopeOf m).blockDepth :=
      congrArg Frame.depth (apart'.current_eq blocks.2)
    exact ⟨active, fun none => active (same.symm.trans none), left,
      later'.trans (t₁.extends_modifyScope m _), apart'.modifyCurrent there blocks.2 _, quiet⟩
  load {w H K s₁ s₂ M} wf' fresh closed structs given related := by
    rcases related with ⟨fits, later, apart, quiet⟩
    obtain ⟨w', opened, entered, leave⟩ := Discipline.scoped.load wf' fresh closed structs given fits
    obtain ⟨loaded, covered⟩ := apart.load later before closed
    refine ⟨(w', w.2), ⟨opened, covered⟩, ⟨entered, later.trans (extends_load fresh), loaded, quiet⟩,
      ?_⟩
    intro L t₁ t₂ wf'' ended
    obtain ⟨inside, rest⟩ := ended
    exact ⟨leave wf'' inside, rest⟩

end Shiba

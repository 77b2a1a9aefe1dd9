import Shiba.Eval
import Shiba.Proofs.State.Operation

/-!
# Two runs in lockstep

A property of all runs is proved once for every construct, by running the construct twice, side by
side, from two states that a program cannot tell apart.  What the two states have in common beyond
that is up to a `Discipline`: a relation that every operation keeps, and that the opening and closing
of calls, blocks and modules keep as well.

* An invariant is a discipline that relates only equal states.
* A statement about what a run may depend on is one that relates different states.

`Discipline.Agree` says that two steps end alike: with the same result, in states that are related
again, and with no failure of the machine itself.  `Discipline.Contract` says so of evaluators.  The
rules of this module are for the steps every construct is made of; the modules beside it go through
the constructs.
-/

namespace Shiba

/-! ## Outcomes of steps -/

namespace Eval

variable {α β : Type}

theorem run_get (s : State) : (get : Eval State) s = (.ok s, s) := rfl

theorem bind_ok {a : Eval α} {f : α → Eval β} {s t : State} {x : α} (run : a s = (.ok x, t)) :
    (a >>= f) s = f x t := by
  change (ExceptT.bindCont f (a s).1 : StateM State _) (a s).2 = _
  rw [run]
  rfl

theorem bind_error {a : Eval α} {f : α → Eval β} {s t : State} {stop : Stop}
    (run : a s = (.error stop, t)) : (a >>= f) s = (.error stop, t) := by
  change (ExceptT.bindCont f (a s).1 : StateM State _) (a s).2 = _
  rw [run]
  rfl

/-- What follows a step depends on how the step ended alone. -/
theorem bind_congr {a b : Eval α} {f : α → Eval β} {s t : State} (same : a s = b t) :
    (a >>= f) s = (b >>= f) t := by
  change (ExceptT.bindCont f (a s).1 : StateM State _) (a s).2 = _
  rw [same]
  rfl

end Eval

/-- A stop that is a failure of the machine itself. -/
def Stop.Internal : Stop → Prop
  | .error e => ∃ failure, e.cause = .invariant failure
  | _ => False

theorem Stop.internal_locate (l : Location) (stop : Stop) :
    (stop.locate l).Internal ↔ stop.Internal := by
  cases stop <;> rfl

/-- A failure of a source text is none of the machine. -/
theorem Stop.not_internal_ofFailure (module : String) (f : Source.Failure) :
    ¬ (Stop.ofFailure module f).Internal := by
  rcases Stop.ofFailure_eq module f with ⟨reason, -, same⟩ | ⟨-, same⟩ <;> rw [same] <;> nofun

namespace Scope

variable {α β : Type}

/-- A name means the same from outside: one object, or else one struct. -/
def SameMembers (s s' : Scope α β) : Prop :=
  ∀ name, s'.getObj? name = s.getObj? name ∧
    (s.getObj? name = none → s'.getStruct? name = s.getStruct? name)

theorem SameMembers.refl (s : Scope α β) : s.SameMembers s := fun _ => ⟨rfl, fun _ => rfl⟩

end Scope

namespace State

/-! ## Modules by their keys -/

/-- The module `m'` is the one registered under the key of `m`. -/
def Stands (s : State) (m m' : ModuleId) : Prop :=
  s.registry.find? (s.registry.module m).key = some m'

theorem Stands.mono {s t : State} {m m' : ModuleId} (grew : s.Extends t) (here : s.HasModule m)
    (stands : s.Stands m m') : t.Stands m m' := by
  rw [Stands, grew.keys m here]
  exact grew.found _ m' stands

theorem Stands.resolve {s : State} {m m' : ModuleId} (stands : s.Stands m m') :
    s.registry.resolve m = .ok m' := by
  rw [Stands] at stands
  rw [Registry.resolve, stands]

theorem WellFormed.stands {s : State} {m : ModuleId} (wf : s.WellFormed) (here : s.HasModule m) :
    ∃ m', s.Stands m m' ∧ s.HasModule m' := by
  obtain ⟨m', found⟩ := wf.registered m here
  exact ⟨m', found, (wf.found _ m' found).1⟩

/-- The module is the one registered under its key. -/
def Registered (s : State) (m : ModuleId) : Prop := s.Stands m m

/-- The scope of a module. -/
def scopeOf (s : State) (m : ModuleId) : Scope BoxId StructId := (s.registry.module m).scope

theorem scopeOf_modifyScope {s : State} {m : ModuleId} {f : Scope BoxId StructId → Scope BoxId StructId}
    (here : s.HasModule m) : (s.modifyScope m f).scopeOf m = f (s.scopeOf m) :=
  congrArg Module.scope (Registry.module_modifyScope_self f here)

theorem registered_load (s : State) (M : Module) : (s.load M).Registered s.registry.next := by
  rw [Registered, Stands, load, Registry.module_load_next, Registry.find?_load, if_pos rfl]

theorem WellFormed.hasModule_of_registered {s : State} {m : ModuleId} (wf : s.WellFormed)
    (registered : s.Registered m) : s.HasModule m :=
  (wf.found _ m registered).1

/-- The module that stands for another one is registered. -/
theorem WellFormed.registered_of_stands {s : State} {m m' : ModuleId} (wf : s.WellFormed)
    (stands : s.Stands m m') : s.Registered m' := by
  rw [Registered, Stands, (wf.found _ m' stands).2]
  exact stands

/-! ## States that read alike -/

/-- Two states that no reading from outside a module tells apart: they differ at most in names that no
lookup reaches, in the levels names stand in, and in what was written. -/
structure Alike (s₁ s₂ : State) : Prop where
  heap : s₂.heap = s₁.heap
  builtins : s₂.builtins = s₁.builtins
  keys : s₂.registry.keys = s₁.registry.keys
  size : s₂.registry.modules.size = s₁.registry.modules.size
  name : ∀ m, (s₂.registry.module m).name = (s₁.registry.module m).name
  directory : ∀ m, (s₂.registry.module m).directory = (s₁.registry.module m).directory
  objs : ∀ m, (s₂.registry.module m).scope.root.objs.names = (s₁.registry.module m).scope.root.objs.names
  structs : ∀ m,
    (s₂.registry.module m).scope.root.structs.names = (s₁.registry.module m).scope.root.structs.names
  members : ∀ m, s₁.Registered m → (s₁.scopeOf m).SameMembers (s₂.scopeOf m)

theorem Alike.refl (s : State) : s.Alike s :=
  ⟨rfl, rfl, rfl, rfl, fun _ => rfl, fun _ => rfl, fun _ => rfl, fun _ => rfl, fun _ _ => .refl _⟩

theorem Alike.key {s₁ s₂ : State} (alike : s₁.Alike s₂) (m : ModuleId) :
    (s₂.registry.module m).key = (s₁.registry.module m).key := by
  rw [Module.key_eq, Module.key_eq, alike.name, alike.directory]

theorem Alike.find? {s₁ s₂ : State} (alike : s₁.Alike s₂) (key : String) :
    s₂.registry.find? key = s₁.registry.find? key := by
  rw [Registry.find?, Registry.find?, alike.keys]

theorem Alike.hasModule {s₁ s₂ : State} (alike : s₁.Alike s₂) {m : ModuleId}
    (here : s₁.HasModule m) : s₂.HasModule m := by
  rw [HasModule, alike.size]
  exact here

/-- The boxes a statement ended with are there. -/
def HasFlow (s : State) : Flow → Prop
  | .value b => s.HasBox b
  | .returnValue (some b) => s.HasBox b
  | _ => True

theorem HasFlow.mono {s t : State} {flow : Flow} (grew : s.Extends t) (here : s.HasFlow flow) :
    t.HasFlow flow := by
  cases flow with
  | value b => exact HasBox.mono grew here
  | returnValue b =>
    cases b with
    | none => trivial
    | some b => exact HasBox.mono grew here
  | done | breakLoop | continueLoop => trivial

end State

/-! ## Disciplines -/

/-- What two runs side by side keep in common.  Only boxes in slots are written, never those in hand.

A world says what the relation is about at some point of the run: which calls are open, or what the
scopes were like at some earlier point.  In a world, expressions of the modules that are `Local` may be
evaluated, blocks may be opened in those that are `Blocks`, and names may be bound in those that are
`Open`.  The three brackets give a world for what happens inside a call, a block or a module that is
being loaded; when it ends, the relation of the world outside holds again. -/
structure Discipline where
  World : Type
  /-- How the two states are related, some boxes being in hand. -/
  Rel : World → Multiset BoxId → State → State → Prop
  Open : World → ModuleId → Prop
  Blocks : World → ModuleId → Prop
  Local : World → ModuleId → Prop
  alike : ∀ {w H s₁ s₂}, Rel w H s₁ s₂ → s₁.Alike s₂
  drop : ∀ {w H K s₁ s₂}, K ≤ H → Rel w H s₁ s₂ → Rel w K s₁ s₂
  structs : ∀ {w H s₁ s₂ m}, Rel w H s₁ s₂ → Local w m → ∀ name,
    (s₂.registry.module m).scope.getStruct? name = (s₁.registry.module m).scope.getStruct? name
  blocksOfOpen : ∀ {w m}, Open w m → Blocks w m
  localOfBlocks : ∀ {w m}, Blocks w m → Local w m
  step : ∀ {w H K s₁ s₂} (op : Operation), s₁.WellFormed → s₁.Holding H → op.Allowed H s₁ K →
    (∀ b ∈ op.written?, s₁.Stored b) → (∀ m ∈ op.target?, Open w m) → Rel w H s₁ s₂ →
    Rel w K (op.apply s₁) (op.apply s₂)
  call : ∀ {w H s₁ s₂ m names}, s₁.WellFormed → s₁.HasModule m → s₁.Receives names →
    Rel w H s₁ s₂ → ∃ w', Open w' m ∧ Rel w' H (s₁.enter m names) (s₂.enter m names) ∧
      ∀ {K t₁ t₂}, t₁.WellFormed → t₁.HasModule m → Rel w' K t₁ t₂ →
        (t₁.registry.module m).scope.frames ≠ [] ∧ (t₂.registry.module m).scope.frames ≠ [] ∧
          Rel w K (t₁.leave m) (t₂.leave m)
  block : ∀ {w H s₁ s₂ m}, s₁.WellFormed → s₁.HasModule m → Blocks w m →
    Rel w H s₁ s₂ → ∃ w', Open w' m ∧ Rel w' H (s₁.openBlock m) (s₂.openBlock m) ∧
      ∀ {K t₁ t₂}, t₁.WellFormed → t₁.HasModule m → Rel w' K t₁ t₂ →
        (t₁.registry.module m).scope.blockDepth ≠ 0 ∧ (t₂.registry.module m).scope.blockDepth ≠ 0 ∧
          Rel w K (t₁.closeBlock m) (t₂.closeBlock m)
  load : ∀ {w H K s₁ s₂} {M : Module}, s₁.WellFormed → s₁.registry.find? M.key = none →
    M.scope.Closed → M.scope.structs = [] → H = (M.scope.objs : Multiset BoxId) + K →
    Rel w H s₁ s₂ → ∃ w', Open w' s₁.registry.next ∧ Rel w' K (s₁.load M) (s₂.load M) ∧
      ∀ {L t₁ t₂}, t₁.WellFormed → Rel w' L t₁ t₂ → Rel w L t₁ t₂

namespace Discipline

variable {D : Discipline} {w : D.World} {H K : Multiset BoxId} {s₁ s₂ : State}

/-- A discipline holds: the first of the two states is well formed, and they are related. -/
structure Holds (D : Discipline) (w : D.World) (H : Multiset BoxId) (s₁ s₂ : State) : Prop where
  wf : s₁.WellFormed
  held : s₁.Holding H
  rel : D.Rel w H s₁ s₂

/-- The module `m` is there, and expressions of the module that stands for it may be evaluated. -/
structure Here (D : Discipline) (w : D.World) (s : State) (m : ModuleId) : Prop where
  module : s.HasModule m
  isLocal : ∃ m', s.Stands m m' ∧ D.Local w m'

/-- The module `m` is there, and blocks may be opened in the module that stands for it. -/
structure BlocksFor (D : Discipline) (w : D.World) (s : State) (m : ModuleId) : Prop where
  module : s.HasModule m
  hasBlocks : ∃ m', s.Stands m m' ∧ D.Blocks w m'

/-- The module `m` is there, and names may be bound in the module that stands for it. -/
structure OpenFor (D : Discipline) (w : D.World) (s : State) (m : ModuleId) : Prop where
  module : s.HasModule m
  isOpen : ∃ m', s.Stands m m' ∧ D.Open w m'

section

variable {s t : State} {m : ModuleId}

theorem Here.mono (grew : s.Extends t) (here : D.Here w s m) : D.Here w t m := by
  obtain ⟨m', stands, isLocal⟩ := here.isLocal
  exact ⟨here.module.mono grew, m', stands.mono grew here.module, isLocal⟩

theorem BlocksFor.mono (grew : s.Extends t) (blocks : D.BlocksFor w s m) : D.BlocksFor w t m := by
  obtain ⟨m', stands, hasBlocks⟩ := blocks.hasBlocks
  exact ⟨blocks.module.mono grew, m', stands.mono grew blocks.module, hasBlocks⟩

theorem BlocksFor.here (blocks : D.BlocksFor w s m) : D.Here w s m := by
  obtain ⟨m', stands, hasBlocks⟩ := blocks.hasBlocks
  exact ⟨blocks.module, m', stands, D.localOfBlocks hasBlocks⟩

theorem OpenFor.mono (grew : s.Extends t) (opened : D.OpenFor w s m) : D.OpenFor w t m := by
  obtain ⟨m', stands, isOpen⟩ := opened.isOpen
  exact ⟨opened.module.mono grew, m', stands.mono grew opened.module, isOpen⟩

theorem OpenFor.blocks (opened : D.OpenFor w s m) : D.BlocksFor w s m := by
  obtain ⟨m', stands, isOpen⟩ := opened.isOpen
  exact ⟨opened.module, m', stands, D.blocksOfOpen isOpen⟩

theorem OpenFor.here (opened : D.OpenFor w s m) : D.Here w s m := opened.blocks.here

end

theorem Holds.alike (holds : D.Holds w H s₁ s₂) : s₁.Alike s₂ := D.alike holds.rel

theorem Holds.drop (holds : D.Holds w H s₁ s₂) (fewer : K ≤ H) : D.Holds w K s₁ s₂ :=
  ⟨holds.wf, holds.held.drop fewer, D.drop fewer holds.rel⟩

theorem Holds.release (holds : D.Holds w H s₁ s₂) : D.Holds w 0 s₁ s₂ :=
  holds.drop (Multiset.zero_le H)

theorem Holds.step {op : Operation} (holds : D.Holds w H s₁ s₂) (allowed : op.Allowed H s₁ K)
    (stored : ∀ b ∈ op.written?, s₁.Stored b) (opened : ∀ m ∈ op.target?, D.Open w m) :
    D.Holds w K (op.apply s₁) (op.apply s₂) :=
  ⟨holds.wf.step holds.held allowed, holds.held.step holds.wf allowed,
    D.step op holds.wf holds.held allowed stored opened holds.rel⟩

/-! ## Steps that end alike -/

/-- Two steps end alike: with one result, in states of which `Q` holds when they come to an end, and
of which the discipline holds when they stop. -/
def Agree (D : Discipline) (w : D.World) (s₁ s₂ : State) {α : Type} (a₁ a₂ : Eval α)
    (Q : α → State → State → Prop) : Prop :=
  ∃ result t₁ t₂, a₁ s₁ = (result, t₁) ∧ a₂ s₂ = (result, t₂) ∧ s₁.Extends t₁ ∧
    match result with
    | .ok x => Q x t₁ t₂
    | .error stop => D.Holds w 0 t₁ t₂ ∧ ¬ stop.Internal

namespace Agree

variable {α β : Type} {a₁ a₂ : Eval α} {f₁ f₂ : α → Eval β} {P Q : α → State → State → Prop}
  {R : β → State → State → Prop}

theorem pure (x : α) (here : Q x s₁ s₂) : D.Agree w s₁ s₂ (pure x) (pure x) Q :=
  ⟨.ok x, s₁, s₂, rfl, rfl, .refl s₁, here⟩

theorem bind (first : D.Agree w s₁ s₂ a₁ a₂ P)
    (rest : ∀ x t₁ t₂, s₁.Extends t₁ → P x t₁ t₂ → D.Agree w t₁ t₂ (f₁ x) (f₂ x) R) :
    D.Agree w s₁ s₂ (a₁ >>= f₁) (a₂ >>= f₂) R := by
  rcases first with ⟨result, t₁, t₂, run₁, run₂, grew, after⟩
  cases result with
  | ok x =>
    obtain ⟨result, u₁, u₂, run₁', run₂', grew', after'⟩ := rest x t₁ t₂ grew after
    refine ⟨result, u₁, u₂, ?_, ?_, grew.trans grew', after'⟩
    · rw [Eval.bind_ok run₁, run₁']
    · rw [Eval.bind_ok run₂, run₂']
  | error stop =>
    exact ⟨.error stop, t₁, t₂, Eval.bind_error run₁, Eval.bind_error run₂, grew, after⟩

theorem mono (ends : D.Agree w s₁ s₂ a₁ a₂ P)
    (weaker : ∀ x t₁ t₂, s₁.Extends t₁ → P x t₁ t₂ → Q x t₁ t₂) : D.Agree w s₁ s₂ a₁ a₂ Q := by
  rcases ends with ⟨result, t₁, t₂, run₁, run₂, grew, after⟩
  refine ⟨result, t₁, t₂, run₁, run₂, grew, ?_⟩
  cases result with
  | ok x => exact weaker x t₁ t₂ grew after
  | error stop => exact after

/-- The end of the first run is at hand. -/
theorem and_run (ends : D.Agree w s₁ s₂ a₁ a₂ Q) :
    D.Agree w s₁ s₂ a₁ a₂ fun x t₁ t₂ => Q x t₁ t₂ ∧ a₁ s₁ = (.ok x, t₁) := by
  rcases ends with ⟨result, t₁, t₂, run₁, run₂, grew, after⟩
  refine ⟨result, t₁, t₂, run₁, run₂, grew, ?_⟩
  cases result with
  | ok x => exact ⟨after, run₁⟩
  | error stop => exact after

/-- A step whose outcome is known. -/
theorem of_run {x : α} {t₁ t₂ : State} (run₁ : a₁ s₁ = (.ok x, t₁)) (run₂ : a₂ s₂ = (.ok x, t₂))
    (grew : s₁.Extends t₁) (after : Q x t₁ t₂) : D.Agree w s₁ s₂ a₁ a₂ Q :=
  ⟨.ok x, t₁, t₂, run₁, run₂, grew, after⟩

theorem throw {stop : Stop} (holds : D.Holds w H s₁ s₂) (outer : ¬ stop.Internal) :
    D.Agree w s₁ s₂ (throw stop : Eval α) (MonadExcept.throw stop) Q :=
  ⟨.error stop, s₁, s₂, rfl, rfl, .refl s₁, holds.release, outer⟩

/-- Stopping for a cause that is no failure of the machine. -/
theorem raise {cause : Cause} (holds : D.Holds w H s₁ s₂)
    (outer : ∀ failure, cause ≠ .invariant failure) :
    D.Agree w s₁ s₂ (Eval.raise cause : Eval α) (Eval.raise cause) Q := by
  apply throw holds
  intro internal
  obtain ⟨failure, same⟩ := internal
  exact outer failure same

/-- What follows a step that stops is never run. -/
theorem raise_bind {cause : Cause} (holds : D.Holds w H s₁ s₂)
    (outer : ∀ failure, cause ≠ .invariant failure) :
    D.Agree w s₁ s₂ (Eval.raise cause >>= f₁) (Eval.raise cause >>= f₂) R :=
  raise holds outer

/-- Reading the state. -/
theorem get_bind {f₁ f₂ : State → Eval β} (rest : D.Agree w s₁ s₂ (f₁ s₁) (f₂ s₂) R) :
    D.Agree w s₁ s₂ (get >>= f₁) (get >>= f₂) R := by
  rcases rest with ⟨result, t₁, t₂, run₁, run₂, grew, after⟩
  exact ⟨result, t₁, t₂, run₁, run₂, grew, after⟩

end Agree

end Discipline

end Shiba

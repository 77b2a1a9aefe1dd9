import Shiba.Proofs.Lockstep.Stmt
import Shiba.Proofs.Scope.Outline

/-!
# The discipline of scopes

What a run does to scopes is told by comparing them with an earlier point of the run.  A `ScopeWorld`
remembers the modules of that point, and which of them may have got names since.  A state `Fits` when
the outlines are what they were, but for names that came in at the innermost level of that one module,
and when no call and no block is open in a module that was added since.

Whatever is opened, the scopes as they are right after that are what the inside is compared with; so
they are as they were before when it is closed.
-/

namespace Shiba

/-- An earlier point of a run: its modules, and the one whose names are open. -/
structure ScopeWorld where
  registry : Registry
  target : Option ModuleId

namespace ScopeWorld

/-- The scopes of a state compared with those of an earlier point. -/
structure Fits (w : ScopeWorld) (s : State) : Prop where
  size : w.registry.modules.size ≤ s.registry.modules.size
  target : ∀ m ∈ w.target, m.index < w.registry.modules.size
  same : ∀ m : ModuleId, m.index < w.registry.modules.size → m ∉ w.target →
    (s.registry.module m).scope.outline = (w.registry.module m).scope.outline
  grown : ∀ m ∈ w.target, (w.registry.module m).scope.Grows (s.registry.module m).scope
  closed : ∀ m : ModuleId, w.registry.modules.size ≤ m.index → s.HasModule m →
    (s.registry.module m).scope.Closed

variable {w : ScopeWorld} {s t : State} {m : ModuleId}
  {f g : Scope BoxId StructId → Scope BoxId StructId}

theorem fits_self {target : Option ModuleId} (here : ∀ m ∈ target, s.HasModule m) :
    Fits ⟨s.registry, target⟩ s where
  size := Nat.le_refl _
  target := here
  same _ _ _ := rfl
  grown _ _ := .refl _
  closed _ new there := absurd there (Nat.not_lt.2 new)

/-- A module that was there has grown at most. -/
theorem Fits.grows (fits : w.Fits s) (old : m.index < w.registry.modules.size) :
    (w.registry.module m).scope.Grows (s.registry.module m).scope := by
  by_cases isTarget : m ∈ w.target
  · exact fits.grown m isTarget
  · exact .of_eq (fits.same m old isTarget)

/-- A later state with the outlines of an earlier one fits where that one did. -/
theorem Fits.of_outline (fits : w.Fits s) (later : s.registry.modules.size ≤ t.registry.modules.size)
    (same : ∀ m, s.HasModule m →
      (t.registry.module m).scope.outline = (s.registry.module m).scope.outline)
    (closed : ∀ m, ¬ s.HasModule m → t.HasModule m → (t.registry.module m).scope.Closed) :
    w.Fits t where
  size := Nat.le_trans fits.size later
  target := fits.target
  same m old isOther :=
    (same m (Nat.lt_of_lt_of_le old fits.size)).trans (fits.same m old isOther)
  grown m isTarget :=
    (fits.grown m isTarget).trans
      (.of_eq (same m (Nat.lt_of_lt_of_le (fits.target m isTarget) fits.size)))
  closed m new there := by
    by_cases here : s.HasModule m
    · exact (fits.closed m new here).of_grows (.of_eq (same m here))
    · exact closed m here there

/-- Names come in where they are open. -/
theorem Fits.bind (fits : w.Fits s) (isTarget : m ∈ w.target)
    (grown : (s.registry.module m).scope.Grows (f (s.registry.module m).scope)) :
    w.Fits (s.modifyScope m f) := by
  have here : s.HasModule m := Nat.lt_of_lt_of_le (fits.target m isTarget) fits.size
  have size : (s.modifyScope m f).registry.modules.size = s.registry.modules.size :=
    Registry.size_modifyScope ..
  refine ⟨size ▸ fits.size, fits.target, ?_, ?_, ?_⟩
  · intro m' old isOther
    have other : m' ≠ m := fun same => isOther (same ▸ isTarget)
    rw [State.modifyScope, Registry.module_modifyScope_of_ne f other]
    exact fits.same m' old isOther
  · intro m' isTarget'
    cases isTarget.symm.trans isTarget'
    rw [State.modifyScope, Registry.module_modifyScope_self f here]
    exact (fits.grown m isTarget).trans grown
  · intro m' new there
    have other : m' ≠ m := by
      rintro rfl
      exact absurd (fits.target m' isTarget) (Nat.not_lt.2 new)
    rw [State.modifyScope, Registry.module_modifyScope_of_ne f other]
    exact fits.closed m' new (by simpa [State.HasModule, size] using there)

/-- What was opened by `f` is closed by `g`: the outlines are as before. -/
theorem Fits.close (here : s.HasModule m)
    (inside : Fits ⟨(s.modifyScope m f).registry, some m⟩ t)
    (undo : ∀ scope, (f (s.registry.module m).scope).Grows scope →
      (g scope).outline = (s.registry.module m).scope.outline)
    (fits : w.Fits s) : w.Fits (t.modifyScope m g) := by
  have size : (s.modifyScope m f).registry.modules.size = s.registry.modules.size :=
    Registry.size_modifyScope ..
  have there : t.HasModule m := Nat.lt_of_lt_of_le here (size ▸ inside.size)
  have size' : (t.modifyScope m g).registry.modules.size = t.registry.modules.size :=
    Registry.size_modifyScope ..
  apply fits.of_outline
  · rw [size', ← size]
    exact inside.size
  · intro m' here'
    by_cases isTarget : m' = m
    · subst isTarget
      have grown := inside.grown m' rfl
      rw [State.modifyScope, Registry.module_modifyScope_self f here] at grown
      rw [State.modifyScope, Registry.module_modifyScope_self g there]
      exact undo _ grown
    · have same := inside.same m' (size ▸ here') (fun isSome => isTarget (Option.some.inj isSome).symm)
      rw [State.modifyScope, Registry.module_modifyScope_of_ne f isTarget] at same
      rw [State.modifyScope, Registry.module_modifyScope_of_ne g isTarget]
      exact same
  · intro m' new there'
    have other : m' ≠ m := fun same => new (same ▸ here)
    rw [State.modifyScope, Registry.module_modifyScope_of_ne g other]
    apply inside.closed m'
    · rw [size]
      exact Nat.le_of_not_lt new
    · exact Nat.lt_of_lt_of_eq there' size'

/-- A module that was loaded is left as closed as it came. -/
theorem Fits.unload {M : Module} (closed : M.scope.Closed)
    (inside : Fits ⟨(s.load M).registry, some s.registry.next⟩ t) (fits : w.Fits s) : w.Fits t := by
  have size : (s.load M).registry.modules.size = s.registry.modules.size + 1 := Registry.size_load ..
  apply fits.of_outline
  · have later := inside.size
    rw [size] at later
    exact Nat.le_of_succ_le later
  · intro m here
    have other : m ∉ some s.registry.next := by
      intro isNext
      have same : m = s.registry.next := (Option.some.inj isNext).symm
      rw [same] at here
      exact Nat.lt_irrefl _ here
    have same := inside.same m (by rw [size]; exact Nat.lt_succ_of_lt here) other
    rw [State.load, Registry.module_load_of_lt here] at same
    exact same
  · intro m new there
    by_cases isNext : m = s.registry.next
    · subst isNext
      have grown := inside.grown _ rfl
      rw [State.load, Registry.module_load_next] at grown
      exact closed.of_grows grown
    · apply inside.closed m _ there
      rw [size]
      have least : s.registry.modules.size ≤ m.index := Nat.le_of_not_lt new
      have apart : m.index ≠ s.registry.modules.size := fun same => isNext (by
        cases m
        exact congrArg ModuleId.mk same)
      omega

/-- An operation binds names where they are open, if it binds any. -/
theorem Fits.step {op : Operation} (fits : w.Fits s) (opened : ∀ m ∈ op.target?, m ∈ w.target) :
    w.Fits (op.apply s) := by
  cases op with
  | setObj m name b => exact fits.bind (opened m rfl) (Scope.setObj_grows _ name b)
  | declareObj m name b => exact fits.bind (opened m rfl) (Scope.declareObj_grows _ name b)
  | setStruct m name d => exact fits.bind (opened m rfl) (Scope.setStruct_grows _ name d)
  | alloc | write | allocList | allocDict | file | unfile | allocInstance | allocFunction | allocStruct
  | print => exact ⟨fits.size, fits.target, fits.same, fits.grown, fits.closed⟩

theorem Fits.closeBlock (here : s.HasModule m) (inside : Fits ⟨(s.openBlock m).registry, some m⟩ t)
    (fits : w.Fits s) :
    (t.registry.module m).scope.blockDepth ≠ 0 ∧ w.Fits (t.closeBlock m) := by
  have grown := inside.grown m rfl
  rw [State.openBlock, State.modifyScope, Registry.module_modifyScope_self _ here] at grown
  exact ⟨grown.dropBlock.1, inside.close here (fun _ grown => grown.dropBlock.2) fits⟩

theorem Fits.leave {names : OrderedMap String BoxId} (here : s.HasModule m)
    (inside : Fits ⟨(s.enter m names).registry, some m⟩ t) (fits : w.Fits s) :
    (t.registry.module m).scope.frames ≠ [] ∧ w.Fits (t.leave m) := by
  have grown := inside.grown m rfl
  rw [State.enter, State.modifyScope, Registry.module_modifyScope_self _ here] at grown
  exact ⟨grown.dropFrame.1, inside.close here (fun _ grown => grown.dropFrame.2) fits⟩

end ScopeWorld

/-- The discipline of scopes: one run, its scopes compared with those of an earlier point. -/
def Discipline.scoped : Discipline where
  World := ScopeWorld
  Rel w _ s₁ s₂ := s₂ = s₁ ∧ w.Fits s₁
  Open w m := m ∈ w.target
  Blocks _ _ := True
  Local _ _ := True
  alike related := related.1 ▸ .refl _
  drop _ related := related
  structs related _ _ := by rw [related.1]
  blocksOfOpen _ := trivial
  localOfBlocks _ := trivial
  step op _ _ _ _ opened related := by
    rcases related with ⟨rfl, fits⟩
    exact ⟨rfl, fits.step opened⟩
  call {w H s₁ s₂ m names} wf here _ related := by
    rcases related with ⟨rfl, fits⟩
    have there : (s₂.enter m names).HasModule m := here.mono (s₂.extends_modifyScope m _)
    refine ⟨⟨(s₂.enter m names).registry, some m⟩, rfl, ⟨rfl, ScopeWorld.fits_self ?_⟩, ?_⟩
    · intro m' given
      cases given
      exact there
    · intro K t₁ t₂ _ _ ended
      obtain ⟨rfl, inside⟩ := ended
      have left := inside.leave here fits
      exact ⟨left.1, left.1, rfl, left.2⟩
  block {w H s₁ s₂ m} wf here _ related := by
    rcases related with ⟨rfl, fits⟩
    have there : (s₂.openBlock m).HasModule m := here.mono (s₂.extends_modifyScope m _)
    refine ⟨⟨(s₂.openBlock m).registry, some m⟩, rfl, ⟨rfl, ScopeWorld.fits_self ?_⟩, ?_⟩
    · intro m' given
      cases given
      exact there
    · intro K t₁ t₂ _ _ ended
      obtain ⟨rfl, inside⟩ := ended
      have left := inside.closeBlock here fits
      exact ⟨left.1, left.1, rfl, left.2⟩
  load {w H K s₁ s₂ M} wf fresh closed _ _ related := by
    rcases related with ⟨rfl, fits⟩
    refine ⟨⟨(s₂.load M).registry, some s₂.registry.next⟩, rfl, ⟨rfl, ScopeWorld.fits_self ?_⟩, ?_⟩
    · intro m' given
      cases given
      exact State.hasModule_load s₂ M
    · intro L t₁ t₂ _ ended
      obtain ⟨rfl, inside⟩ := ended
      exact ⟨rfl, inside.unload closed fits⟩

end Shiba

import Shiba.Proofs.Lockstep.Scoped
import Shiba.Proofs.Scope.Padding

/-!
# Two runs, one with an empty level more

One run is in a state that has an empty level more than the other one, somewhere in one module.  A `Spot`
says where; `State.pad` puts the level in.  Everything a run can do to a state comes to the same with the
level and without it, as long as it does not close the level or open it to names: `ScopeWorld.Covers` says
so of an earlier point, and since scopes are what they were when something that was opened has been closed
again, it is so all along.
-/

namespace Shiba

/-- A place for a level: a module, one of its frames counted from the top level, and how many blocks of
that frame lie outside, among the levels of objects and among those of structs. -/
structure Spot where
  module : ModuleId
  call : Nat
  objs : Nat
  structs : Nat

namespace Registry

/-- The scopes of two modules are changed independently. -/
theorem modifyScope_comm {m m' : ModuleId} (other : m' ≠ m) (r : Registry)
    (f g : Scope BoxId StructId → Scope BoxId StructId) :
    (r.modifyScope m f).modifyScope m' g = (r.modifyScope m' g).modifyScope m f := by
  have apart : m.index ≠ m'.index := by
    cases m
    cases m'
    exact fun same => other (congrArg ModuleId.mk same.symm)
  have same : ((r.modifyScope m f).modifyScope m' g).modules =
      ((r.modifyScope m' g).modifyScope m f).modules := by
    apply Array.ext_getElem?
    intro i
    simp only [modifyScope, Array.getElem?_modify]
    by_cases at_i : m.index = i
    · rw [if_pos at_i, if_pos at_i, if_neg (at_i ▸ apart.symm), if_neg (at_i ▸ apart.symm)]
    · rw [if_neg at_i, if_neg at_i]
  exact congrArg (fun modules => { r with modules }) same

/-- A module that is there is changed before or after another one is loaded. -/
theorem load_modifyScope {r : Registry} {m : ModuleId} (here : m.index < r.modules.size) (M : Module)
    (f : Scope BoxId StructId → Scope BoxId StructId) :
    (r.modifyScope m f).load M = (r.load M).modifyScope m f := by
  have modules : ((r.modifyScope m f).load M).modules = ((r.load M).modifyScope m f).modules := by
    apply Array.ext_getElem?
    intro i
    simp only [load, add, register, modifyScope, Array.getElem?_modify, Array.getElem?_push,
      Array.size_modify]
    by_cases isNext : i = r.modules.size
    · rw [if_pos isNext, if_pos isNext, if_neg (isNext ▸ Nat.ne_of_lt here)]
    · rw [if_neg isNext, if_neg isNext]
  have keys : ((r.modifyScope m f).load M).keys = ((r.load M).modifyScope m f).keys := by
    have next : (r.modifyScope m f).next = r.next := congrArg ModuleId.mk (size_modifyScope r m f)
    have added : ((r.load M).modifyScope m f).keys = (r.load M).keys := rfl
    rw [added, keys_load, keys_load, next]
    rfl
  exact congrArg₂ Registry.mk modules keys

end Registry

namespace State

/-- The state with an empty level put in. -/
def pad (spot : Spot) (s : State) : State :=
  s.modifyScope spot.module (·.pad spot.call spot.objs spot.structs)

/-- The level that is put in is covered by another one of its frame, or by a call. -/
def Covers (spot : Spot) (s : State) : Prop :=
  s.HasModule spot.module ∧ (s.scopeOf spot.module).Covers spot.call spot.objs spot.structs

variable {spot : Spot} {s : State} {m : ModuleId} {f g : Scope BoxId StructId → Scope BoxId StructId}

/-- A change of a scope comes to the same with the level and without it, if it does in the module that has
the level. -/
theorem modifyScope_pad
    (commutes : m = spot.module → f ((s.scopeOf m).pad spot.call spot.objs spot.structs) =
      (f (s.scopeOf m)).pad spot.call spot.objs spot.structs) :
    (s.pad spot).modifyScope m f = (s.modifyScope m f).pad spot := by
  have same : (s.registry.modifyScope spot.module (·.pad spot.call spot.objs spot.structs)).modifyScope m f =
      (s.registry.modifyScope m f).modifyScope spot.module (·.pad spot.call spot.objs spot.structs) := by
    by_cases isSpot : m = spot.module
    · have inScope := commutes isSpot
      rw [← isSpot, Registry.modifyScope_modifyScope, Registry.modifyScope_modifyScope]
      exact Registry.modifyScope_congr inScope
    · exact Registry.modifyScope_comm isSpot ..
  exact congrArg (fun registry => { s with registry }) same

/-- The scope of a module is what it was, or it has the level. -/
theorem scopeOf_pad (spot : Spot) (s : State) (m : ModuleId) : (s.pad spot).scopeOf m = s.scopeOf m ∨
    (s.pad spot).scopeOf m = (s.scopeOf m).pad spot.call spot.objs spot.structs := by
  by_cases isSpot : m = spot.module
  · subst isSpot
    by_cases here : s.HasModule spot.module
    · exact .inr (scopeOf_modifyScope here)
    · exact .inl (congrArg (·.scope) (Registry.module_modifyScope_of_le _ (Nat.le_of_not_lt here)))
  · exact .inl (congrArg (·.scope) (Registry.module_modifyScope_of_ne _ isSpot))

theorem lookups_pad (spot : Spot) (s : State) (m : ModuleId) (name : String) :
    ((s.pad spot).scopeOf m).getObj? name = (s.scopeOf m).getObj? name ∧
      ((s.pad spot).scopeOf m).getStruct? name = (s.scopeOf m).getStruct? name := by
  rcases scopeOf_pad spot s m with same | padded
  · rw [same]
    exact ⟨rfl, rfl⟩
  · rw [padded]
    exact Scope.lookups_pad ..

/-- There are as many calls, and at least as many blocks. -/
theorem depths_pad (spot : Spot) (s : State) (m : ModuleId) :
    ((s.pad spot).scopeOf m).functionDepth = (s.scopeOf m).functionDepth ∧
      (s.scopeOf m).blockDepth ≤ ((s.pad spot).scopeOf m).blockDepth := by
  rcases scopeOf_pad spot s m with same | padded
  · rw [same]
    exact ⟨rfl, Nat.le_refl _⟩
  · rw [padded]
    exact ⟨Scope.functionDepth_pad .., Scope.le_blockDepth_pad ..⟩

/-- No reading tells the two states apart. -/
theorem alike_pad (spot : Spot) (s : State) : s.Alike (s.pad spot) := by
  have module (m : ModuleId) : (s.pad spot).registry.module m =
      { s.registry.module m with scope := ((s.pad spot).registry.module m).scope } :=
    Registry.module_modifyScope_scope ..
  have names (m : ModuleId) : ((s.pad spot).scopeOf m).root.objs.names = (s.scopeOf m).root.objs.names ∧
      ((s.pad spot).scopeOf m).root.structs.names = (s.scopeOf m).root.structs.names := by
    rcases scopeOf_pad spot s m with same | padded
    · rw [same]
      exact ⟨rfl, rfl⟩
    · rw [padded]
      exact Scope.names_pad ..
  refine ⟨rfl, rfl, rfl, Registry.size_modifyScope .., fun m => by rw [module], fun m => by rw [module],
    fun m => (names m).1, fun m => (names m).2, fun m _ name => ?_⟩
  exact ⟨(lookups_pad spot s m name).1, fun _ => (lookups_pad spot s m name).2⟩

/-- An operation comes to the same with the level and without it. -/
theorem apply_pad (covers : s.Covers spot) (op : Operation) :
    op.apply (s.pad spot) = (op.apply s).pad spot := by
  cases op with
  | setObj m name b =>
    exact modifyScope_pad fun isSpot => isSpot ▸ Scope.setObj_pad covers.2 name b
  | declareObj m name b =>
    exact modifyScope_pad fun isSpot => isSpot ▸ Scope.declareObj_pad covers.2 name b
  | setStruct m name d =>
    exact modifyScope_pad fun isSpot => isSpot ▸ Scope.setStruct_pad covers.2 name d
  | alloc | write | allocList | allocDict | file | unfile | allocInstance | allocFunction | allocStruct
  | print => rfl

end State

/-! ## Compared with an earlier point -/

namespace ScopeWorld

/-- The level that is put in was covered at the earlier point. -/
def Covers (spot : Spot) (w : ScopeWorld) : Prop :=
  spot.module.index < w.registry.modules.size ∧
    (w.registry.module spot.module).scope.Covers spot.call spot.objs spot.structs

variable {spot : Spot} {w : ScopeWorld} {s : State} {m : ModuleId}

/-- What was covered is covered. -/
theorem Fits.covers (fits : w.Fits s) (covers : w.Covers spot) : s.Covers spot :=
  ⟨Nat.lt_of_lt_of_le covers.1 fits.size, covers.2.of_grows (fits.grows covers.1)⟩

theorem covers_modifyScope {f : Scope BoxId StructId → Scope BoxId StructId} {target : Option ModuleId}
    (covers : s.Covers spot)
    (kept : m = spot.module → (f (s.scopeOf m)).Covers spot.call spot.objs spot.structs) :
    Covers spot ⟨(s.modifyScope m f).registry, target⟩ := by
  refine ⟨Nat.lt_of_lt_of_eq covers.1 (Registry.size_modifyScope ..).symm, ?_⟩
  change ((s.modifyScope m f).scopeOf spot.module).Covers spot.call spot.objs spot.structs
  by_cases isSpot : m = spot.module
  · subst isSpot
    rw [State.scopeOf_modifyScope covers.1]
    exact kept rfl
  · have same : (s.modifyScope m f).scopeOf spot.module = s.scopeOf spot.module :=
      congrArg (·.scope) (Registry.module_modifyScope_of_ne f fun isSpot' => isSpot isSpot'.symm)
    rw [same]
    exact covers.2

theorem covers_load {M : Module} {target : Option ModuleId} (covers : s.Covers spot) :
    Covers spot ⟨(s.load M).registry, target⟩ := by
  have size : (s.load M).registry.modules.size = s.registry.modules.size + 1 := Registry.size_load ..
  refine ⟨Nat.lt_of_lt_of_eq (Nat.lt_succ_of_lt covers.1) size.symm, ?_⟩
  rw [State.load, Registry.module_load_of_lt covers.1]
  exact covers.2

end ScopeWorld

open ScopeWorld

/-- The discipline of two runs, the second of which has an empty level more: that of scopes, in worlds where
the level is covered. -/
def Discipline.padded (spot : Spot) : Discipline where
  World := ScopeWorld
  Rel w _ s₁ s₂ := w.Fits s₁ ∧ w.Covers spot ∧ s₂ = s₁.pad spot
  Open w m := m ∈ w.target
  Blocks _ _ := True
  Local _ _ := True
  alike related := related.2.2 ▸ State.alike_pad spot _
  drop _ related := related
  structs {_ _ s₁ _ m} related _ name := related.2.2 ▸ (s₁.lookups_pad spot m name).2
  blocksOfOpen _ := trivial
  localOfBlocks _ := trivial
  step op _ _ _ _ opened related := by
    rcases related with ⟨fits, covers, rfl⟩
    exact ⟨fits.step opened, covers, State.apply_pad (fits.covers covers) op⟩
  call {w H s₁ s₂ m names} wf here _ related := by
    rcases related with ⟨fits, covers, rfl⟩
    have covered := fits.covers covers
    have there : (s₁.enter m names).HasModule m := here.mono (s₁.extends_modifyScope m _)
    have entered : (s₁.pad spot).enter m names = (s₁.enter m names).pad spot :=
      State.modifyScope_pad fun isSpot => isSpot ▸ Scope.addFrame_pad covered.2 names
    have inside : Covers spot ⟨(s₁.enter m names).registry, some m⟩ :=
      covers_modifyScope covered fun isSpot => isSpot ▸ (Scope.covers_addFrame covered.2 names).2
    refine ⟨⟨(s₁.enter m names).registry, some m⟩, rfl, ⟨fits_self ?_, inside, entered⟩, ?_⟩
    · rintro m' ⟨⟩
      exact there
    · rintro K t₁ _ _ _ ⟨grown, -, rfl⟩
      have left := grown.leave here fits
      have active : ((t₁.pad spot).scopeOf m).frames ≠ [] := by
        rw [← List.length_pos_iff]
        exact Nat.lt_of_lt_of_eq (List.length_pos_iff.2 left.1) (t₁.depths_pad spot m).1.symm
      refine ⟨left.1, active, left.2, covers, State.modifyScope_pad fun isSpot => ?_⟩
      have begun : spot.call < ((s₁.enter m names).scopeOf m).functionDepth := by
        rw [State.enter, State.scopeOf_modifyScope here, isSpot]
        exact (Scope.covers_addFrame covered.2 names).1
      exact Scope.dropFrame_pad (Nat.lt_of_lt_of_eq begun (grown.grows there).calls.symm)
  block {w H s₁ s₂ m} wf here _ related := by
    rcases related with ⟨fits, covers, rfl⟩
    have covered := fits.covers covers
    have there : (s₁.openBlock m).HasModule m := here.mono (s₁.extends_modifyScope m _)
    have opened : (s₁.pad spot).openBlock m = (s₁.openBlock m).pad spot :=
      State.modifyScope_pad fun isSpot => isSpot ▸ Scope.pushBlock_pad covered.2.outside
    have inside : Covers spot ⟨(s₁.openBlock m).registry, some m⟩ :=
      covers_modifyScope covered fun isSpot => isSpot ▸ Scope.covers_pushBlock covered.2
    refine ⟨⟨(s₁.openBlock m).registry, some m⟩, rfl, ⟨fits_self ?_, inside, opened⟩, ?_⟩
    · rintro m' ⟨⟩
      exact there
    · rintro K t₁ _ _ _ ⟨grown, -, rfl⟩
      have left := grown.closeBlock here fits
      have active : ((t₁.pad spot).scopeOf m).blockDepth ≠ 0 :=
        Nat.pos_iff_ne_zero.1 ((Nat.pos_of_ne_zero left.1).trans_le (t₁.depths_pad spot m).2)
      refine ⟨left.1, active, left.2, covers, State.modifyScope_pad fun isSpot => ?_⟩
      exact isSpot ▸ Scope.dropBlock_pad (grown.covers inside).2
  load {w H K s₁ s₂ M} wf fresh closed _ _ related := by
    rcases related with ⟨fits, covers, rfl⟩
    have covered := fits.covers covers
    have loaded : (s₁.pad spot).load M = (s₁.load M).pad spot :=
      congrArg (fun registry => { s₁ with registry }) (Registry.load_modifyScope covered.1 M _)
    refine ⟨⟨(s₁.load M).registry, some s₁.registry.next⟩, rfl,
      ⟨fits_self ?_, covers_load covered, loaded⟩, ?_⟩
    · rintro m' ⟨⟩
      exact State.hasModule_load s₁ M
    · rintro L t₁ _ _ ⟨grown, -, rfl⟩
      exact ⟨grown.unload closed fits, covers, rfl⟩

end Shiba

import Shiba.Proofs.Reachable

/-!
# Expressions leave bindings alone

An expression may call functions, and their bodies may assign, define and import.  All of that happens
in frames of their own, which are gone when the calls have ended; so what a name is bound to is after
an expression what it was before, in every module that was there, at every level of every frame.

* `Scope.Rebound`: two scopes differ in their current frame at most.  That is what binding a name and
  opening or closing a block can do to a scope, and ending a call undoes it (`Scope.Rebound.dropFrame`).
* `ScopeWorld.Keeps`: since an earlier point of a run, modules have only been added, and all modules of
  that point are what they were, but for the current frame of the one whose names are open.
* `evalExpr_keeps_bindings` is the statement.  An expression opens no block by itself, so it runs where
  no names are open.
-/

namespace Shiba

/-! ## Scopes that differ in the current frame -/

namespace Scope

variable {α β : Type}

/-- Two scopes differ in the current frame at most. -/
def Rebound (s s' : Scope α β) : Prop := ∃ frame, s' = s.modifyCurrent fun _ => frame

theorem rebound_modifyCurrent (s : Scope α β) (f : Frame α β → Frame α β) :
    s.Rebound (s.modifyCurrent f) := by
  rcases s with ⟨root, - | ⟨frame, outer⟩⟩
  · exact ⟨f root, rfl⟩
  · exact ⟨f frame, rfl⟩

theorem Rebound.refl (s : Scope α β) : s.Rebound s := by
  rcases s with ⟨root, - | ⟨frame, outer⟩⟩
  · exact ⟨root, rfl⟩
  · exact ⟨frame, rfl⟩

theorem Rebound.trans {s s' s'' : Scope α β} (first : s.Rebound s') (second : s'.Rebound s'') :
    s.Rebound s'' := by
  rcases first with ⟨frame, rfl⟩
  rcases second with ⟨frame', rfl⟩
  refine ⟨frame', ?_⟩
  rcases s with ⟨root, - | ⟨frame, outer⟩⟩ <;> rfl

/-- Ending a call forgets what was bound in it. -/
theorem Rebound.dropFrame {s s' : Scope α β} {names : OrderedMap String α}
    (rebound : (s.addFrame names).Rebound s') : s'.frames ≠ [] ∧ s'.dropFrame = s := by
  rcases rebound with ⟨frame, rfl⟩
  exact ⟨List.cons_ne_nil _ _, rfl⟩

end Scope

/-- Two modules differ in the current frame of their scope at most. -/
def Module.Rebound (M M' : Module) : Prop :=
  ∃ scope, M.scope.Rebound scope ∧ M' = { M with scope }

theorem Module.Rebound.refl (M : Module) : M.Rebound M := ⟨M.scope, .refl _, rfl⟩

theorem Module.Rebound.trans {M M' M'' : Module} (first : M.Rebound M') (second : M'.Rebound M'') :
    M.Rebound M'' := by
  rcases first with ⟨scope, rebound, rfl⟩
  rcases second with ⟨scope', rebound', rfl⟩
  exact ⟨scope', rebound.trans rebound', rfl⟩

/-! ## Modules compared with an earlier point -/

namespace Registry

/-- A module whose key is not taken yet comes in behind the others. -/
theorem keys_prefix_load {r : Registry} {M : Module} (fresh : r.find? M.key = none) :
    r.keys.entries <+: (r.load M).keys.entries := by
  have absent : M.key ∉ r.keys.keys := by
    intro listed
    obtain ⟨m, found⟩ := OrderedMap.exists_get?_of_mem_keys listed
    rw [find?, found] at fresh
    cases fresh
  rw [keys_load, OrderedMap.insert, OrderedMap.insertEntry_of_notMem absent]
  exact List.prefix_append _ _

end Registry

namespace ScopeWorld

/-- The modules of a state compared with those of an earlier point. -/
structure Keeps (w : ScopeWorld) (s : State) : Prop where
  size : w.registry.modules.size ≤ s.registry.modules.size
  keys : w.registry.keys.entries <+: s.registry.keys.entries
  same : ∀ m : ModuleId, m.index < w.registry.modules.size → m ∉ w.target →
    s.registry.module m = w.registry.module m
  rebound : ∀ m ∈ w.target, (w.registry.module m).Rebound (s.registry.module m)

variable {w : ScopeWorld} {s t : State} {m : ModuleId}
  {f : Scope BoxId StructId → Scope BoxId StructId}

theorem keeps_self (s : State) (target : Option ModuleId) : Keeps ⟨s.registry, target⟩ s where
  size := Nat.le_refl _
  keys := List.prefix_rfl
  same _ _ _ := rfl
  rebound _ _ := .refl _

/-- What is kept up to some point and from there on is kept. -/
theorem Keeps.trans {target : Option ModuleId} (first : w.Keeps s)
    (second : Keeps ⟨s.registry, target⟩ t) (inside : ∀ m ∈ target, m ∈ w.target)
    (there : ∀ m ∈ w.target, s.HasModule m) : w.Keeps t where
  size := Nat.le_trans first.size second.size
  keys := first.keys.trans second.keys
  same m old isOther := by
    have later := second.same m (Nat.lt_of_lt_of_le old first.size) fun given =>
      isOther (inside m given)
    exact later.trans (first.same m old isOther)
  rebound m isTarget := by
    by_cases given : m ∈ target
    · exact (first.rebound m isTarget).trans (second.rebound m given)
    · rw [second.same m (there m isTarget) given]
      exact first.rebound m isTarget

/-- The current frame of the module whose names are open may change. -/
theorem Keeps.rebind (keeps : w.Keeps s) (isTarget : m ∈ w.target) (here : s.HasModule m)
    (rebinds : ∀ scope : Scope BoxId StructId, scope.Rebound (f scope)) :
    w.Keeps (s.modifyScope m f) := by
  refine ⟨Nat.le_trans keeps.size (Nat.le_of_eq (Registry.size_modifyScope ..).symm), keeps.keys,
    ?_, ?_⟩
  · intro m' old isOther
    have other : m' ≠ m := fun same => isOther (same ▸ isTarget)
    rw [State.modifyScope, Registry.module_modifyScope_of_ne f other]
    exact keeps.same m' old isOther
  · intro m' isTarget'
    cases isTarget.symm.trans isTarget'
    rw [State.modifyScope, Registry.module_modifyScope_self f here]
    exact (keeps.rebound m isTarget).trans ⟨_, rebinds _, rfl⟩

/-- When a call has ended, every module is what it was before. -/
theorem Keeps.leave {names : OrderedMap String BoxId} (here : s.HasModule m)
    (inside : Keeps ⟨(s.enter m names).registry, some m⟩ t) :
    (t.registry.module m).scope.frames ≠ [] ∧ Keeps ⟨s.registry, none⟩ (t.leave m) := by
  have size : (s.enter m names).registry.modules.size = s.registry.modules.size :=
    Registry.size_modifyScope ..
  have there : t.HasModule m := Nat.lt_of_lt_of_le here (size ▸ inside.size)
  have rebound := inside.rebound m rfl
  rw [State.enter, State.modifyScope, Registry.module_modifyScope_self _ here] at rebound
  rcases rebound with ⟨scope, rebound, isModule⟩
  have left := rebound.dropFrame
  refine ⟨by rw [isModule]; exact left.1, ?_, inside.keys, ?_, by simp⟩
  · rw [State.leave, State.modifyScope, Registry.size_modifyScope, ← size]
    exact inside.size
  · intro m' old _
    by_cases same : m' = m
    · subst same
      rw [State.leave, State.modifyScope, Registry.module_modifyScope_self _ there, isModule]
      simp only [left.2]
    · have kept := inside.same m' (size ▸ old) fun given => same (Option.some.inj given).symm
      rw [State.enter, State.modifyScope, Registry.module_modifyScope_of_ne _ same] at kept
      rw [State.leave, State.modifyScope, Registry.module_modifyScope_of_ne _ same]
      exact kept

/-- A module that is loaded changes none of those that are there. -/
theorem Keeps.unload {M : Module} (fresh : s.registry.find? M.key = none)
    (inside : Keeps ⟨(s.load M).registry, some s.registry.next⟩ t) : Keeps ⟨s.registry, none⟩ t := by
  have size : (s.load M).registry.modules.size = s.registry.modules.size + 1 := Registry.size_load ..
  refine ⟨?_, (Registry.keys_prefix_load fresh).trans inside.keys, ?_, nofun⟩
  · have later := inside.size
    rw [size] at later
    exact Nat.le_of_succ_le later
  · intro m old _
    have other : m ∉ some s.registry.next := by
      intro isNext
      cases isNext
      exact Nat.lt_irrefl _ old
    rw [inside.same m (by rw [size]; exact Nat.lt_succ_of_lt old) other, State.load,
      Registry.module_load_of_lt old]

/-- An operation binds names where they are open, if it binds any. -/
theorem Keeps.step {op : Operation} (keeps : w.Keeps s) (opened : ∀ m ∈ op.target?, m ∈ w.target)
    (there : ∀ m ∈ w.target, s.HasModule m) : w.Keeps (op.apply s) := by
  cases op with
  | setObj m name b | declareObj m name b | setStruct m name d =>
    have isTarget := opened m rfl
    exact keeps.rebind isTarget (there m isTarget) fun scope => scope.rebound_modifyCurrent _
  | alloc | write | allocList | allocDict | file | unfile | allocInstance | allocFunction | allocStruct
  | print => exact ⟨keeps.size, keeps.keys, keeps.same, keeps.rebound⟩

theorem Fits.target_there (fits : w.Fits s) : ∀ m ∈ w.target, s.HasModule m :=
  fun m isTarget => Nat.lt_of_lt_of_le (fits.target m isTarget) fits.size

end ScopeWorld

/-- The discipline of bindings: that of scopes, and the modules of the earlier point are kept.  A block
can be opened only where names are open, since names of outer levels may be bound anew inside it. -/
def Discipline.bound : Discipline where
  World := ScopeWorld
  Rel w _ s₁ s₂ := s₂ = s₁ ∧ w.Fits s₁ ∧ w.Keeps s₁
  Open w m := m ∈ w.target
  Blocks w m := m ∈ w.target
  Local _ _ := True
  alike related := related.1 ▸ .refl _
  drop _ related := related
  structs related _ _ := by rw [related.1]
  blocksOfOpen opened := opened
  localOfBlocks _ := trivial
  step op _ _ _ _ opened related := by
    rcases related with ⟨rfl, fits, keeps⟩
    exact ⟨rfl, fits.step opened, keeps.step opened fits.target_there⟩
  call {w H s₁ s₂ m names} wf here _ related := by
    rcases related with ⟨rfl, fits, keeps⟩
    have there : (s₂.enter m names).HasModule m := here.mono (s₂.extends_modifyScope m _)
    refine ⟨⟨(s₂.enter m names).registry, some m⟩, rfl,
      ⟨rfl, ScopeWorld.fits_self ?_, ScopeWorld.keeps_self _ _⟩, ?_⟩
    · rintro m' ⟨⟩
      exact there
    · rintro K t₁ t₂ _ _ ⟨rfl, inside, inside'⟩
      have left := inside.leave here fits
      have left' := inside'.leave here
      exact ⟨left.1, left.1, rfl, left.2, keeps.trans left'.2 nofun fits.target_there⟩
  block {w H s₁ s₂ m} wf here isTarget related := by
    rcases related with ⟨rfl, fits, keeps⟩
    have there : (s₂.openBlock m).HasModule m := here.mono (s₂.extends_modifyScope m _)
    have opened : w.Keeps (s₂.openBlock m) :=
      keeps.rebind isTarget here fun scope => scope.rebound_modifyCurrent _
    refine ⟨⟨(s₂.openBlock m).registry, some m⟩, rfl,
      ⟨rfl, ScopeWorld.fits_self ?_, ScopeWorld.keeps_self _ _⟩, ?_⟩
    · rintro m' ⟨⟩
      exact there
    · rintro K _ t _ there' ⟨rfl, inside, inside'⟩
      have left := inside.closeBlock here fits
      have kept : w.Keeps t := by
        apply opened.trans inside'
        · rintro m' ⟨⟩
          exact isTarget
        · intro m' isTarget'
          cases isTarget.symm.trans isTarget'
          exact there
      exact ⟨left.1, left.1, rfl, left.2,
        kept.rebind isTarget there' fun scope => scope.rebound_modifyCurrent _⟩
  load {w H K s₁ s₂ M} wf fresh closed _ _ related := by
    rcases related with ⟨rfl, fits, keeps⟩
    refine ⟨⟨(s₂.load M).registry, some s₂.registry.next⟩, rfl,
      ⟨rfl, ScopeWorld.fits_self ?_, ScopeWorld.keeps_self _ _⟩, ?_⟩
    · rintro m' ⟨⟩
      exact State.hasModule_load s₂ M
    · rintro L t₁ t₂ _ ⟨rfl, inside, inside'⟩
      exact ⟨rfl, inside.unload closed fits,
        keeps.trans (inside'.unload fresh) nofun fits.target_there⟩

/-- The discipline begins in every well-formed state, with no names open. -/
theorem Discipline.bound_begins {s : State} (wf : s.WellFormed) :
    Discipline.bound.Holds ⟨s.registry, none⟩ 0 s s :=
  ⟨wf, s.holding_zero, rfl, ScopeWorld.fits_self fun m none => absurd none (Option.not_mem_none m),
    ScopeWorld.keeps_self s none⟩

/-- With no names open, every module that was there is what it was. -/
theorem ScopeWorld.Keeps.module_eq {r : Registry} {s : State} {m : ModuleId} (keeps : Keeps ⟨r, none⟩ s)
    (old : m.index < r.modules.size) : s.registry.module m = r.module m :=
  keeps.same m old (Option.not_mem_none m)

/-! ## Expressions -/

/-- However the evaluation of an expression ends, every module that was there is the module it was,
with all frames, levels and bindings of its scope, and modules have only been added to the registry.
Lists, instances, functions and struct definitions are what they were as well, so nothing but the
contents of boxes and of dictionaries can have changed. -/
theorem evalExpr_keeps_bindings {cfg : Config} {s t : State} {m : ModuleId} {fuel calls : Nat}
    {e : Expr} {result : Except Stop BoxId} (reachable : Reachable cfg s) (here : s.HasModule m)
    (run : evalExpr cfg fuel ⟨m, calls⟩ e s = (result, t)) :
    (∀ m', s.HasModule m' → t.registry.module m' = s.registry.module m') ∧
      s.registry.keys.entries <+: t.registry.keys.entries ∧ s.Extends t := by
  have wf := reachable.wellFormed
  obtain ⟨m', stands, -⟩ := wf.stands here
  have begun := Discipline.bound_begins wf
  rcases Discipline.agree_evalExpr ⟨m, calls⟩ begun ⟨here, m', stands, trivial⟩ cfg fuel e with
    ⟨result', t', t'', run', -, later, after⟩
  cases run.symm.trans run'
  have last : Discipline.bound.Holds ⟨s.registry, none⟩ 0 t t'' := by
    cases result with
    | ok b => exact after.1
    | error stop => exact after.1
  have keeps := last.rel.2.2
  exact ⟨fun m' old => keeps.same m' old nofun, keeps.keys, later⟩

/-- A call of a function that assigns and defines what its module defines already leaves the module as
it was. -/
theorem evalExpr_keeps_bindings_call :
    let body : Block :=
      [.assign .start .plain [.ident .start "x"] [.literal .start (.int 1)],
        .function (.mk .start "f" [] [])]
    let main := State.initial.load (.ofSource "main" "/" "")
    let s := (evalStmt .standard 9 ⟨⟨0⟩, 5⟩ (.function (.mk .start "f" [] body)) main).2
    let t := (evalExpr .standard 9 ⟨⟨0⟩, 5⟩ (.call .start (.ident .start "f") []) s).2
    s.HasModule ⟨0⟩ ∧ t.registry.module ⟨0⟩ = s.registry.module ⟨0⟩ := by
  intro body main s t
  have begun : Running .standard ⟨0⟩ main :=
    ⟨.register .initial rfl, State.hasModule_load State.initial _⟩
  have defined : Running .standard ⟨0⟩ s := begun.evalStmt 9 5 _
  have run : evalExpr .standard 9 ⟨⟨0⟩, 5⟩ (.call .start (.ident .start "f") []) s = (_, t) := rfl
  exact ⟨defined.here, (evalExpr_keeps_bindings defined.reachable defined.here run).1 ⟨0⟩ defined.here⟩

end Shiba

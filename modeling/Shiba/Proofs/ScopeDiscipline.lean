import Shiba.Proofs.Reachable
import Shiba.Run

/-!
# Scopes are left as they were found

However a statement ends, with or without a value, with a jump, an error, a request to exit or out of
fuel, the calls and blocks it opened are closed again.  Only the names it binds itself remain, in the
innermost level of the module it belongs to; a conditional or a loop leaves none behind.

`evalStmt_keeps_scopes` is the statement.  It compares the scopes before and after by their outlines
(`Scope.Grows`), which is more than having the same depths (`Scope.SameShape`).
-/

namespace Shiba

/-! ## Shapes -/

/-- Two frames have equally many levels in either name space. -/
def Frame.SameDepth {α β : Type} (f f' : Frame α β) : Prop :=
  f'.objs.depth = f.objs.depth ∧ f'.structs.depth = f.structs.depth

namespace Scope

variable {α β : Type}

/-- Two scopes have equally many calls, and their frames and top levels equally many levels. -/
structure SameShape (s s' : Scope α β) : Prop where
  calls : s'.functionDepth = s.functionDepth
  root : s.root.SameDepth s'.root
  frames : List.Forall₂ Frame.SameDepth s.frames s'.frames

theorem sameDepth_of_outline_eq {f f' : Frame α β} (same : f'.outline = f.outline) :
    f.SameDepth f' :=
  ⟨Levels.depth_eq_of_outline_eq (congrArg Prod.fst same),
    Levels.depth_eq_of_outline_eq (congrArg Prod.snd same)⟩

theorem sameDepth_of_grows {f f' : Frame α β} (grown : f.Grows f') : f.SameDepth f' :=
  ⟨grown.1.depth_eq, grown.2.depth_eq⟩

theorem forall₂_sameDepth {fs fs' : List (Frame α β)}
    (same : fs'.map Frame.outline = fs.map Frame.outline) :
    List.Forall₂ Frame.SameDepth fs fs' := by
  induction fs generalizing fs' with
  | nil =>
    cases List.map_eq_nil_iff.1 same
    exact .nil
  | cons f fs ih =>
    cases fs' with
    | nil => cases same
    | cons f' fs' =>
      obtain ⟨head, tail⟩ := List.cons.inj same
      exact .cons (sameDepth_of_outline_eq head) (ih tail)

/-- A scope that grows keeps its shape. -/
theorem Grows.sameShape {s s' : Scope α β} (grown : s.Grows s') : s.SameShape s' := by
  rcases s with ⟨root, - | ⟨frame, outer⟩⟩ <;> rcases s' with ⟨root', - | ⟨frame', outer'⟩⟩
  · exact ⟨rfl, sameDepth_of_grows grown.current, .nil⟩
  · cases grown.calls
  · cases grown.calls
  · exact ⟨grown.calls, sameDepth_of_outline_eq (grown.root (List.cons_ne_nil _ _)),
      .cons (sameDepth_of_grows grown.current) (forall₂_sameDepth grown.outer)⟩

end Scope

/-- Whether a statement runs in a block of its own. -/
def Stmt.OpensBlock : Stmt → Prop
  | .conditional .. | .forIn .. | .loop .. => True
  | _ => False

namespace State

/-- A module that is registered later only was not there before. -/
theorem WellFormed.not_hasModule {s t : State} {m : ModuleId} (wf : s.WellFormed)
    (later : s.Extends t) (registered : t.Registered m) (before : ¬ s.Registered m) :
    ¬ s.HasModule m := by
  intro here
  obtain ⟨m', stands, -⟩ := wf.stands here
  cases registered.symm.trans (stands.mono later here)
  exact before stands

end State

/-! ## Statements -/

/-- The names that are open to a statement of a module. -/
def Stmt.target (m : ModuleId) : Stmt → Option ModuleId
  | .conditional .. | .forIn .. | .loop .. => none
  | _ => some m

theorem Stmt.target_eq_none {stmt : Stmt} (opensBlock : stmt.OpensBlock) (m : ModuleId) :
    stmt.target m = none := by
  cases stmt with
  | conditional | forIn | loop => rfl
  | comment | importModule | expr | assign | function | structDecl | returnValue | breakLoop
  | continueLoop => cases opensBlock

theorem Stmt.eq_of_mem_target {stmt : Stmt} {m m' : ModuleId} (isTarget : m' ∈ stmt.target m) :
    m' = m := by
  cases stmt with
  | conditional | forIn | loop => cases isTarget
  | comment | importModule | expr | assign | function | structDecl | returnValue | breakLoop
  | continueLoop => exact (Option.some.inj isTarget).symm

theorem Discipline.scoped_admits {s : State} {m : ModuleId} (registered : s.Registered m)
    (here : s.HasModule m) (stmt : Stmt) :
    Discipline.scoped.Admits ⟨s.registry, stmt.target m⟩ s m stmt := by
  cases stmt with
  | conditional | forIn | loop => exact ⟨here, m, registered, trivial⟩
  | comment | importModule | expr | assign | function | structDecl | returnValue | breakLoop
  | continueLoop => exact ⟨here, m, registered, rfl⟩

/-- However a statement of a module ends, every module that was registered is registered still and
has the shape it had, no name is gone, and names came in at the innermost level of that module alone,
or nowhere when the statement runs in a block of its own.  In modules registered meanwhile nothing is
open, and there always was a block to close and a call to end. -/
theorem evalStmt_keeps_scopes {cfg : Config} {s t : State} {m : ModuleId} {fuel calls : Nat}
    {stmt : Stmt} {result : Except Stop Flow} (reachable : Reachable cfg s)
    (registered : s.Registered m) (run : evalStmt cfg fuel ⟨m, calls⟩ stmt s = (result, t)) :
    (∀ m', s.Registered m' → t.Registered m' ∧ (s.scopeOf m').SameShape (t.scopeOf m') ∧
      (s.scopeOf m').Grows (t.scopeOf m') ∧
      (m' ≠ m ∨ stmt.OpensBlock → (t.scopeOf m').outline = (s.scopeOf m').outline)) ∧
    (∀ m', t.Registered m' → ¬ s.Registered m' → (t.scopeOf m').Closed) ∧
    ∀ location, result ≠ .error (.error ⟨.invariant .noBlockToPop, location⟩) ∧
      result ≠ .error (.error ⟨.invariant .noFunctionToPop, location⟩) := by
  have wf := reachable.wellFormed
  have here := wf.hasModule_of_registered registered
  have begun : Discipline.scoped.Holds ⟨s.registry, stmt.target m⟩ 0 s s := by
    refine ⟨wf, s.holding_zero, rfl, ScopeWorld.fits_self ?_⟩
    intro m' isTarget
    rw [Stmt.eq_of_mem_target isTarget]
    exact here
  rcases Discipline.agree_evalStmt ⟨m, calls⟩ begun cfg fuel
    (Discipline.scoped_admits registered here stmt) with ⟨result', t', t'', run', -, later, after⟩
  cases run.symm.trans run'
  have last : Discipline.scoped.Holds ⟨s.registry, stmt.target m⟩ 0 t t'' := by
    cases result with
    | ok flow => exact after.1
    | error stop => exact after.1
  have fits := last.rel.2
  refine ⟨?_, ?_, ?_⟩
  · intro m' registered'
    have old := wf.hasModule_of_registered registered'
    have grown := fits.grows old
    refine ⟨registered'.mono later old, grown.sameShape, grown, ?_⟩
    intro untouched
    apply fits.same m' old
    intro isTarget
    rcases untouched with other | opensBlock
    · exact other (Stmt.eq_of_mem_target isTarget)
    · rw [Stmt.target_eq_none opensBlock] at isTarget
      cases isTarget
  · intro m' registered' before
    have new := wf.not_hasModule later registered' before
    exact fits.closed m' (Nat.le_of_not_lt new) (last.wf.hasModule_of_registered registered')
  · intro location
    constructor <;>
    · rintro rfl
      exact after.2 ⟨_, rfl⟩

/-- A loop that binds a name and then stops at an unknown one leaves an empty module as it was. -/
theorem evalStmt_keeps_scopes_loop :
    let s := State.initial.load (.ofSource "main" "/" "")
    let stmt : Stmt := .loop .start (.literal .start (.bool true))
      [.assign .start .plain [.ident .start "x"] [.literal .start (.int 1)], .expr (.ident .start "y")]
    let t := (evalStmt .standard 9 ⟨⟨0⟩, 5⟩ stmt s).2
    s.Registered ⟨0⟩ ∧ t.Registered ⟨0⟩ ∧ (t.scopeOf ⟨0⟩).outline = (s.scopeOf ⟨0⟩).outline := by
  intro s stmt t
  have registered : s.Registered ⟨0⟩ := State.registered_load _ _
  have run : evalStmt .standard 9 ⟨⟨0⟩, 5⟩ stmt s = (_, t) := rfl
  have kept := (evalStmt_keeps_scopes (.register .initial rfl) registered run).1 ⟨0⟩ registered
  exact ⟨registered, kept.1, kept.2.2.2 (.inr trivial)⟩

end Shiba

import Shiba.Proofs.Blame.Places
import Shiba.Proofs.Blame.Runs

/-!
# Jumps that are well placed never go wrong

A break or a continue has to stand in a loop, and a return in a function.  Nothing checks that before a
program runs: a jump travels up through what encloses it, and is an error when it leaves the body of a
function or reaches the top level.  When all jumps stand where they should, that does not happen, however
loops, conditionals, functions, methods and modules are nested.

* `Stmt.wellPlaced` tells by its text alone whether the jumps of a statement stand where they should.
* `Stmt.Yields.allowed`: a statement whose jumps are well placed is left by no jump that may not leave it.
* `Norms.placing` asks that of all bodies and top levels.
* `well_placed_jumps_never_fail` is the result, with what any program's statements can end with.
-/

namespace Shiba

mutual

/-- Whether all jumps in a statement are well placed, for a statement that stands in a loop or not, and in a
function or not.  The body of a function begins anew: a loop around the definition is none around it. -/
def Stmt.wellPlaced (inLoop inFunction : Bool) : Stmt → Bool
  | .comment _ _ | .importModule _ _ | .expr _ | .assign _ _ _ _ => true
  | .conditional _ branches otherwise =>
    Stmt.wellPlacedBranches inLoop inFunction branches &&
      Stmt.wellPlacedOtherwise inLoop inFunction otherwise
  | .forIn _ _ _ _ body => Stmt.wellPlacedAll true inFunction body
  | .loop _ _ body => Stmt.wellPlacedAll true inFunction body
  | .function decl => decl.wellPlaced
  | .structDecl _ _ _ methods => Stmt.wellPlacedMethods methods
  | .returnValue _ _ => inFunction
  | .breakLoop _ | .continueLoop _ => inLoop

/-- Whether all jumps in the body of a function are well placed. -/
def FunctionDecl.wellPlaced : FunctionDecl → Bool
  | .mk _ _ _ body => Stmt.wellPlacedAll false true body

/-- Whether all jumps in a block are well placed. -/
def Stmt.wellPlacedAll (inLoop inFunction : Bool) : List Stmt → Bool
  | [] => true
  | s :: rest => s.wellPlaced inLoop inFunction && Stmt.wellPlacedAll inLoop inFunction rest

/-- Whether all jumps in the branches of a conditional are well placed. -/
def Stmt.wellPlacedBranches (inLoop inFunction : Bool) : List (Expr × List Stmt) → Bool
  | [] => true
  | (_, body) :: rest =>
    Stmt.wellPlacedAll inLoop inFunction body && Stmt.wellPlacedBranches inLoop inFunction rest

/-- Whether all jumps in the block for the case that no condition holds are well placed. -/
def Stmt.wellPlacedOtherwise (inLoop inFunction : Bool) : Option (List Stmt) → Bool
  | none => true
  | some body => Stmt.wellPlacedAll inLoop inFunction body

/-- Whether all jumps in methods are well placed. -/
def Stmt.wellPlacedMethods : List FunctionDecl → Bool
  | [] => true
  | method :: rest => method.wellPlaced && Stmt.wellPlacedMethods rest

end

/-- All jumps of a text are well placed. -/
def Program.WellPlaced (content : String) : Prop :=
  Stmt.wellPlacedAll false false (Program.ofText content).statements = true

instance (content : String) : Decidable (Program.WellPlaced content) := inferInstanceAs (Decidable (_ = _))

/-- The jump may leave a statement that stands in a loop or not, and in a function or not. -/
def Jump.allowed (inLoop inFunction : Bool) : Jump → Bool
  | .breakLoop | .continueLoop => inLoop
  | .returnValue => inFunction

namespace Stmt

variable {inLoop inFunction : Bool}

theorem wellPlacedAll_iff {block : Block} : wellPlacedAll inLoop inFunction block = true ↔
    ∀ s ∈ block, s.wellPlaced inLoop inFunction = true := by
  induction block with
  | nil => simp [wellPlacedAll]
  | cons s rest ih => simp [wellPlacedAll, ih]

theorem wellPlacedBranches_iff {branches : List (Expr × Block)} :
    wellPlacedBranches inLoop inFunction branches = true ↔
      ∀ b ∈ branches, ∀ s ∈ b.2, s.wellPlaced inLoop inFunction = true := by
  induction branches with
  | nil => simp [wellPlacedBranches]
  | cons branch rest ih => simp [wellPlacedBranches, ih, wellPlacedAll_iff]

theorem wellPlacedOtherwise_iff {otherwise : Option Block} :
    wellPlacedOtherwise inLoop inFunction otherwise = true ↔
      ∀ block ∈ otherwise, ∀ s ∈ block, s.wellPlaced inLoop inFunction = true := by
  cases otherwise with
  | none => simp [wellPlacedOtherwise]
  | some block => simp [wellPlacedOtherwise, wellPlacedAll_iff]

theorem wellPlaced_decl_iff {d : FunctionDecl} :
    d.wellPlaced = true ↔ ∀ s ∈ d.body, s.wellPlaced false true = true := by
  cases d
  rw [FunctionDecl.wellPlaced, wellPlacedAll_iff]
  rfl

theorem wellPlacedMethods_iff {methods : List FunctionDecl} : wellPlacedMethods methods = true ↔
    ∀ d ∈ methods, ∀ s ∈ d.body, s.wellPlaced false true = true := by
  induction methods with
  | nil => simp [wellPlacedMethods]
  | cons d rest ih => simp [wellPlacedMethods, ih, wellPlaced_decl_iff]

theorem wellPlaced_conditional_iff {p : Position} {branches : List (Expr × Block)}
    {otherwise : Option Block} :
    (Stmt.conditional p branches otherwise).wellPlaced inLoop inFunction = true ↔
      (∀ b ∈ branches, ∀ s ∈ b.2, s.wellPlaced inLoop inFunction = true) ∧
      ∀ block ∈ otherwise, ∀ s ∈ block, s.wellPlaced inLoop inFunction = true := by
  rw [wellPlaced, Bool.and_eq_true, wellPlacedBranches_iff, wellPlacedOtherwise_iff]

/-- A statement whose jumps are well placed is left by no jump that may not leave it. -/
theorem Yields.allowed {s : Stmt} {jump : Jump} (yields : s.Yields jump)
    (placed : s.wellPlaced inLoop inFunction = true) : jump.allowed inLoop inFunction = true := by
  induction yields generalizing inLoop with
  | breakLoop | continueLoop | returnValue => exact placed
  | branch isBranch member _ ih =>
    exact ih ((wellPlaced_conditional_iff.1 placed).1 _ isBranch _ member)
  | otherwise member _ ih => exact ih ((wellPlaced_conditional_iff.1 placed).2 _ rfl _ member)
  | forIn member _ ih | loop member _ ih =>
    -- a loop around a return makes no difference to it
    have inside := ih (wellPlacedAll_iff.1 placed _ member)
    exact inside

/-- Where all jumps are well placed, so are those in the bodies of functions. -/
theorem Within.of_wellPlaced {P : Position → Prop} {s : Stmt} (lies : s.Within P fun _ => True)
    (placed : s.wellPlaced inLoop inFunction = true) :
    s.Within P fun s => s.wellPlaced false true = true := by
  induction lies generalizing inLoop inFunction with
  | comment here => exact .comment here
  | importModule here => exact .importModule here
  | expr lies => exact .expr lies
  | assign here left right => exact .assign here left right
  | conditional here conditions _ _ blocks otherwise =>
    obtain ⟨placedBranches, placedOtherwise⟩ := wellPlaced_conditional_iff.1 placed
    refine .conditional here conditions ?_ ?_
    · exact fun b isBranch s member => blocks b isBranch s member (placedBranches b isBranch s member)
    · exact fun b isBlock s member => otherwise b isBlock s member (placedOtherwise b isBlock s member)
  | forIn here target _ body =>
    exact .forIn here target fun s member => body s member (wellPlacedAll_iff.1 placed s member)
  | loop here condition _ body =>
    exact .loop here condition fun s member => body s member (wellPlacedAll_iff.1 placed s member)
  | function here _ _ body =>
    have placed := wellPlaced_decl_iff.1 placed
    exact .function here placed fun s member => body s member (placed s member)
  | structDecl here _ _ bodies =>
    have placed := wellPlacedMethods_iff.1 placed
    refine .structDecl here placed ?_
    exact fun d isMethod s member => bodies d isMethod s member (placed d isMethod s member)
  | returnValue here lies => exact .returnValue here lies
  | breakLoop here => exact .breakLoop here
  | continueLoop here => exact .continueLoop here

end Stmt

/-! ## Texts -/

/-- Jumps are well placed in the bodies of functions and at top levels. -/
def Norms.placing : Norms where
  Place := Position.LiesIn
  Inner s := s.wellPlaced false true = true
  Top s := s.wellPlaced false false = true

theorem Norms.text_placing {content : String} (placed : Program.WellPlaced content) :
    placing.Text content where
  within s member :=
    ((Program.within_ofText content).1 s member).of_wellPlaced (Stmt.wellPlacedAll_iff.1 placed s member)
  top s member := Stmt.wellPlacedAll_iff.1 placed s member
  ending := (Program.within_ofText content).2

/-- No jump can be blamed where all are well placed: none may leave the top level, and no break and no
continue the body of a function. -/
theorem Norms.isJump_of_placing {s : State} {e : Error} (owned : placing.Owns true s (.error e)) :
    e.cause.isJump = false := by
  obtain ⟨cause, location⟩ := e
  have warranted := owned.1
  cases cause with
  | jumpOutside jump =>
    obtain ⟨stmt, placed, yields⟩ := warranted
    have allowed := yields.allowed placed
    cases jump <;> cases allowed
  | jumpOutsideIn jump name =>
    obtain ⟨ofLoop, stmt, placed, yields⟩ := warranted
    have allowed := yields.allowed placed
    cases jump with
    | breakLoop | continueLoop => cases allowed
    | returnValue => exact absurd rfl ofLoop
  | _ => rfl

/-! ## Runs -/

/-- When all jumps of the main text and of every module file are well placed, no program and no session
raises an error that blames a jump.  Moreover, whatever the program, a statement that ends with a break or a
continue contains it, not inside a loop of its own but in branches of conditionals alone. -/
theorem well_placed_jumps_never_fail :
    (∀ (cfg : Config) (M : Module), Program.WellPlaced M.content →
      (∀ path content, Path.HasExtension path → cfg.files.read path = .ok content →
        Program.WellPlaced content) →
      (∀ e t, Run.program cfg M .initial = (.error (.error e), t) → e.cause.isJump = false) ∧
      ∀ s, Run.Session cfg M s → ∀ stmt ∈ (Program.ofText M.content).statements, ∀ e t,
        Run.statement cfg Run.mainModule stmt s = (.error (.error e), t) → e.cause.isJump = false) ∧
    ∀ cfg fuel ctx (stmt : Stmt) s flow t, evalStmt cfg fuel ctx stmt s = (.ok flow, t) →
      (flow = .breakLoop → stmt.Yields .breakLoop) ∧
      (flow = .continueLoop → stmt.Yields .continueLoop) := by
  refine ⟨?_, ?_⟩
  · intro cfg M main modules
    have files : Norms.placing.Files cfg.files :=
      fun path content ends isRead => Norms.text_placing (modules path content ends isRead)
    have text := Norms.text_placing main
    refine ⟨?_, ?_⟩
    · intro e t run
      have ends : Norms.placing.Ends true _ (Run.program cfg M .initial) :=
        .program files text Norms.sourced_initial rfl
      rw [run] at ends
      exact Norms.isJump_of_placing (ends.owned _ rfl)
    · intro s session stmt member e t run
      obtain ⟨kept, sourced⟩ := text.session files session
      have ends := text.statement files member s kept sourced
      rw [run] at ends
      exact Norms.isJump_of_placing (ends.owned _ rfl)
  · intro cfg fuel ctx stmt s flow t run
    have jumps := evaluators_endAsWritten cfg fuel ctx stmt s flow t run
    refine ⟨?_, ?_⟩
    · rintro rfl
      exact jumps .breakLoop rfl
    · rintro rfl
      exact jumps .continueLoop rfl

/-- A loop that is left by a break in a conditional, and a function of another module that leaves a loop by
a return. -/
theorem well_placed_jumps_never_fail_module :
    let imported := "def f() \x7b\n  for true \x7b\n    return 1\n  \x7d\n\x7d\n"
    let cfg := { Config.standard with
      files := FileSystem.empty.addPath "/lib/m.sb" (.file imported) }
    let M := Module.ofSource "main" "/lib"
      "import m\nfor true \x7b\n  if m.f() \x7b\n    break\n  \x7d\n\x7d\n"
    Program.WellPlaced M.content ∧
      ∀ e t, Run.program cfg M .initial = (.error (.error e), t) → e.cause.isJump = false := by
  intro imported cfg M
  have main : Program.WellPlaced M.content := by decide +kernel
  have modules : ∀ path content, Path.HasExtension path → cfg.files.read path = .ok content →
      Program.WellPlaced content := by
    intro path content _ isRead
    have only : cfg.files.contents = [imported] := by decide +kernel
    obtain rfl := List.mem_singleton.1 (only ▸ FileSystem.mem_contents_of_read isRead)
    decide +kernel
  exact ⟨main, (well_placed_jumps_never_fail.1 cfg M main modules).1⟩

end Shiba

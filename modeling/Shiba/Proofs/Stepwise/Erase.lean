import Shiba.Proofs.RoundTrip.StmtText
import Shiba.Proofs.Stepwise.Relocation

/-!
# Positions make no difference

To forget the positions of what has been read is to put it all to one place: `erase` is the relocation to
the start (`Stmt.relocateAll_start`).  So texts with the same tokens make the same program up to positions
(`Reading.run_erase`).
-/

namespace Shiba

/-- Every place is the start. -/
def Position.toStart : Position → Position := fun _ => .start

/-! ## Expressions and statements -/

mutual

theorem Expr.relocate_start : (e : Expr) → e.relocate .toStart = e.erase
  | .literal .. | .ident .. => rfl
  | .list _ es => congrArg (Expr.list .start) (Expr.relocateAll_start es)
  | .dict _ entries => congrArg (Expr.dict .start) (Expr.relocateEntries_start entries)
  | .index _ target i => congrArg₂ (Expr.index .start) target.relocate_start i.relocate_start
  | .slice _ target first last => by
    rw [Expr.relocate, target.relocate_start, Expr.relocateBound_start first, Expr.relocateBound_start last]
    rfl
  | .select _ target name => congrArg (Expr.select .start · name) target.relocate_start
  | .unary _ op operand => congrArg (Expr.unary .start op) operand.relocate_start
  | .binary _ op left right => congrArg₂ (Expr.binary .start op) left.relocate_start right.relocate_start
  | .structInit _ name _ fields =>
    congrArg (Expr.structInit .start name .start) (Expr.relocateFields_start fields)
  | .call _ callee args =>
    congrArg₂ (Expr.call .start) callee.relocate_start (Expr.relocateAll_start args)

theorem Expr.relocateAll_start : (es : List Expr) → Expr.relocateAll .toStart es = Expr.eraseAll es
  | [] => rfl
  | e :: rest => congrArg₂ List.cons e.relocate_start (Expr.relocateAll_start rest)

theorem Expr.relocateEntries_start :
    (entries : List (Expr × Expr)) → Expr.relocateEntries .toStart entries = Expr.eraseEntries entries
  | [] => rfl
  | (key, value) :: rest =>
    congrArg₂ List.cons (congrArg₂ Prod.mk key.relocate_start value.relocate_start)
      (Expr.relocateEntries_start rest)

theorem Expr.relocateFields_start :
    (fields : List (Ident × Expr)) → Expr.relocateFields .toStart fields = Expr.eraseFields fields
  | [] => rfl
  | (_, value) :: rest =>
    congrArg₂ List.cons (congrArg (Prod.mk _) value.relocate_start) (Expr.relocateFields_start rest)

theorem Expr.relocateBound_start :
    (bound : Option Expr) → Expr.relocateBound .toStart bound = Expr.eraseBound bound
  | none => rfl
  | some e => congrArg some e.relocate_start

end

mutual

theorem Stmt.relocate_start : (s : Stmt) → s.relocate .toStart = s.erase
  | .comment .. | .importModule .. | .breakLoop _ | .continueLoop _ => rfl
  | .expr e => congrArg Stmt.expr e.relocate_start
  | .assign _ op left right =>
    congrArg₂ (Stmt.assign .start op) (Expr.relocateAll_start left) (Expr.relocateAll_start right)
  | .conditional _ branches otherwise =>
    congrArg₂ (Stmt.conditional .start) (Stmt.relocateBranches_start branches)
      (Stmt.relocateOtherwise_start otherwise)
  | .forIn _ target _ _ body =>
    congrArg₂ (Stmt.forIn .start · _ _ ·) target.relocate_start (Stmt.relocateAll_start body)
  | .loop _ condition body =>
    congrArg₂ (Stmt.loop .start) condition.relocate_start (Stmt.relocateAll_start body)
  | .function decl => congrArg Stmt.function decl.relocate_start
  | .structDecl _ name fields methods =>
    congrArg (Stmt.structDecl .start name fields) (Stmt.relocateMethods_start methods)
  | .returnValue _ value => congrArg (Stmt.returnValue .start) (Expr.relocateBound_start value)

theorem FunctionDecl.relocate_start : (decl : FunctionDecl) → decl.relocate .toStart = decl.erase
  | .mk _ name params body => congrArg (FunctionDecl.mk .start name params) (Stmt.relocateAll_start body)

theorem Stmt.relocateAll_start : (ss : List Stmt) → Stmt.relocateAll .toStart ss = Stmt.eraseAll ss
  | [] => rfl
  | s :: rest => congrArg₂ List.cons s.relocate_start (Stmt.relocateAll_start rest)

theorem Stmt.relocateBranches_start : (branches : List (Expr × List Stmt)) →
    Stmt.relocateBranches .toStart branches = Stmt.eraseBranches branches
  | [] => rfl
  | (condition, body) :: rest =>
    congrArg₂ List.cons (congrArg₂ Prod.mk condition.relocate_start (Stmt.relocateAll_start body))
      (Stmt.relocateBranches_start rest)

theorem Stmt.relocateOtherwise_start : (otherwise : Option (List Stmt)) →
    Stmt.relocateOtherwise .toStart otherwise = Stmt.eraseOtherwise otherwise
  | none => rfl
  | some body => congrArg some (Stmt.relocateAll_start body)

theorem Stmt.relocateMethods_start :
    (methods : List FunctionDecl) → Stmt.relocateMethods .toStart methods = Stmt.eraseMethods methods
  | [] => rfl
  | method :: rest => congrArg₂ List.cons method.relocate_start (Stmt.relocateMethods_start rest)

end

/-! ## Tokens and programs -/

/-- A token without its position. -/
def Token.erase (t : Token) : Token := ⟨t.lexeme, .start⟩

/-- A failure without its position. -/
def Source.Failure.erase (failure : Source.Failure) : Source.Failure := ⟨failure.fault, .start⟩

/-- An ending without its position. -/
def Ending.erase : Ending → Ending
  | .complete _ => .complete .start
  | .failed failure => .failed failure.erase

/-- A sequence of tokens without positions. -/
def Tokens.erase (ts : Tokens) : Tokens := ⟨ts.list.map Token.erase, ts.ending.erase⟩

/-- A program without positions. -/
def Program.erase (program : Program) : Program :=
  ⟨Stmt.eraseAll program.statements, program.ending.erase⟩

theorem Ending.relocate_start (ending : Ending) : ending.relocate .toStart = ending.erase := by
  cases ending <;> rfl

theorem Tokens.relocate_start (ts : Tokens) : ts.relocate .toStart = ts.erase :=
  congrArg (Tokens.mk _) ts.ending.relocate_start

theorem Program.relocate_start (program : Program) : program.relocate .toStart [] = program.erase :=
  congrArg₂ Program.mk (Stmt.relocateAll_start _) program.ending.relocate_start

/-- What becomes of tokens without positions. -/
theorem Stepwise.Reading.run_erase (r : Reading) (ts : Tokens) :
    (r.relocate .toStart []).run ts.erase = (r.run ts).erase := by
  rw [← ts.relocate_start, ← Program.relocate_start]
  exact run_relocate .toStart [] r ts

end Shiba

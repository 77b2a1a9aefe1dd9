import Shiba.Proofs.RoundTrip.ExprText
import Shiba.Stmt.Parser

/-!
# How statements are written

A statement is written on a line of its own.  A block is written in braces, with a newline behind the
opening one, the fields of a struct stand before its methods, and import targets are quoted.

* `Stmt.tokens st breaks s` writes `s`; `breaks` newlines stand before each further branch of a
  conditional, which may therefore start on the line of the brace before it or on a later one.
* `Block.lines` writes a sequence of statements, each with the newline behind it.
* `Stmt.Writable` are the statements that can be written: names are no reserved words, comments stay on
  one line, both sides of an assignment have at least one expression, and a conditional has at least
  one branch.
* `Stmt.erase` forgets the positions.
-/

namespace Shiba

open Shiba.Parser (commas)

/-! ## Statements up to positions -/

mutual

/-- A statement without its positions. -/
def Stmt.erase : Stmt → Stmt
  | .comment _ text => .comment .start text
  | .importModule _ target => .importModule .start target
  | .expr e => .expr e.erase
  | .assign _ op left right => .assign .start op (Expr.eraseAll left) (Expr.eraseAll right)
  | .conditional _ branches otherwise =>
    .conditional .start (Stmt.eraseBranches branches) (Stmt.eraseOtherwise otherwise)
  | .forIn _ target counter element body =>
    .forIn .start target.erase ⟨.start, counter.name⟩ ⟨.start, element.name⟩ (Stmt.eraseAll body)
  | .loop _ condition body => .loop .start condition.erase (Stmt.eraseAll body)
  | .function decl => .function decl.erase
  | .structDecl _ name fields methods => .structDecl .start name fields (Stmt.eraseMethods methods)
  | .returnValue _ value => .returnValue .start (Expr.eraseBound value)
  | .breakLoop _ => .breakLoop .start
  | .continueLoop _ => .continueLoop .start

/-- A declared function without its positions. -/
def FunctionDecl.erase : FunctionDecl → FunctionDecl
  | .mk _ name params body => .mk .start name params (Stmt.eraseAll body)

/-- Statements without their positions. -/
def Stmt.eraseAll : List Stmt → List Stmt
  | [] => []
  | s :: rest => s.erase :: Stmt.eraseAll rest

/-- The branches of a conditional without their positions. -/
def Stmt.eraseBranches : List (Expr × List Stmt) → List (Expr × List Stmt)
  | [] => []
  | (condition, body) :: rest => (condition.erase, Stmt.eraseAll body) :: Stmt.eraseBranches rest

/-- The block for the case that no condition holds, without its positions. -/
def Stmt.eraseOtherwise : Option (List Stmt) → Option (List Stmt)
  | none => none
  | some body => some (Stmt.eraseAll body)

/-- Methods without their positions. -/
def Stmt.eraseMethods : List FunctionDecl → List FunctionDecl
  | [] => []
  | method :: rest => method.erase :: Stmt.eraseMethods rest

end

/-! ## Writing -/

/-- Lines in braces. -/
def inBraces (ls : List Lexeme) : List Lexeme :=
  .punct .leftBrace :: .newline :: (ls ++ [.punct .rightBrace])

/-- The fields of a struct, one on a line. -/
def fieldLines : List String → List Lexeme
  | [] => []
  | name :: rest => .ident name :: .newline :: fieldLines rest

/-- The tokens of expressions divided by commas. -/
def Expr.listTokens (st : Style) (es : List Expr) : List Lexeme := commas (es.map (Expr.tokens st 0))

/-- The names of parameters in parentheses. -/
def paramTokens (params : List String) : List Lexeme :=
  .punct .leftParen :: (commas (params.map fun name => [.ident name]) ++ [.punct .rightParen])

mutual

/-- The tokens of a statement. -/
def Stmt.tokens (st : Style) (breaks : Nat) : Stmt → List Lexeme
  | .comment _ text => [.comment text]
  | .importModule _ target => [.keyword .importWord, .string target]
  | .expr e => e.tokens st 0
  | .assign _ op left right => Expr.listTokens st left ++ .punct op.mark :: Expr.listTokens st right
  | .conditional _ branches otherwise =>
    Stmt.branchTokens st breaks [.keyword .ifWord] branches ++ Stmt.elseTokens st breaks otherwise
  | .forIn _ target counter element body =>
    .keyword .forWord :: .ident counter.name :: .punct .comma :: .ident element.name ::
      .keyword .inWord :: (target.tokens st 0 ++ inBraces (Stmt.lines st breaks body))
  | .loop _ condition body =>
    .keyword .forWord :: (condition.tokens st 0 ++ inBraces (Stmt.lines st breaks body))
  | .function decl => decl.tokens st breaks
  | .structDecl _ name fields methods =>
    .keyword .structWord :: .ident name ::
      inBraces (fieldLines fields ++ Stmt.methodLines st breaks methods)
  | .returnValue _ none => [.keyword .returnWord]
  | .returnValue _ (some e) => .keyword .returnWord :: e.tokens st 0
  | .breakLoop _ => [.keyword .breakWord]
  | .continueLoop _ => [.keyword .continueWord]

/-- The tokens of a declared function. -/
def FunctionDecl.tokens (st : Style) (breaks : Nat) : FunctionDecl → List Lexeme
  | .mk _ name params body =>
    .keyword .defWord :: .ident name :: (paramTokens params ++ inBraces (Stmt.lines st breaks body))

/-- Statements, each with the newline behind it. -/
def Stmt.lines (st : Style) (breaks : Nat) : List Stmt → List Lexeme
  | [] => []
  | s :: rest => s.tokens st breaks ++ .newline :: Stmt.lines st breaks rest

/-- The branches of a conditional, of which the first one is introduced by `lead`. -/
def Stmt.branchTokens (st : Style) (breaks : Nat) (lead : List Lexeme) :
    List (Expr × List Stmt) → List Lexeme
  | [] => []
  | (condition, body) :: rest =>
    lead ++ (condition.tokens st 0 ++ (inBraces (Stmt.lines st breaks body) ++
      Stmt.branchTokens st breaks (List.replicate breaks .newline ++ [.keyword .elifWord]) rest))

/-- The block for the case that no condition holds. -/
def Stmt.elseTokens (st : Style) (breaks : Nat) : Option (List Stmt) → List Lexeme
  | none => []
  | some body =>
    List.replicate breaks .newline ++ .keyword .elseWord :: inBraces (Stmt.lines st breaks body)

/-- Methods, each with the newline behind it. -/
def Stmt.methodLines (st : Style) (breaks : Nat) : List FunctionDecl → List Lexeme
  | [] => []
  | method :: rest => method.tokens st breaks ++ .newline :: Stmt.methodLines st breaks rest

end

/-- The text of a sequence of statements. -/
def Block.text (st : Style) (breaks : Nat) (block : Block) : String :=
  String.ofList (Lexeme.join (Stmt.lines st breaks block))

namespace Stmt

/-! ## What can be written -/

/-- A function whose names can be written. -/
def validNames (decl : FunctionDecl) : Prop :=
  isName decl.name = true ∧ ∀ name ∈ decl.params, isName name = true

instance (decl : FunctionDecl) : Decidable (validNames decl) := inferInstanceAs (Decidable (_ ∧ _))

/-- The statements that can be written, when `decimal` gives the digits of floats. -/
inductive Writable (decimal : Float → String) : Stmt → Prop
  | comment {p : Position} {text : String} :
    '\n' ∉ text.toList → Writable decimal (.comment p text)
  | importModule {p : Position} {target : String} : Writable decimal (.importModule p target)
  | expr {e : Expr} : e.Writable decimal → Writable decimal (.expr e)
  | assign {p : Position} {op : AssignOp} {left right : List Expr} :
    left ≠ [] → right ≠ [] → (∀ e ∈ left, e.Writable decimal) → (∀ e ∈ right, e.Writable decimal) →
    Writable decimal (.assign p op left right)
  | conditional {p : Position} {branches : List (Expr × List Stmt)} {otherwise : Option (List Stmt)} :
    branches ≠ [] → (∀ branch ∈ branches, branch.1.Writable decimal) →
    (∀ branch ∈ branches, ∀ s ∈ branch.2, Writable decimal s) →
    (∀ body ∈ otherwise, ∀ s ∈ body, Writable decimal s) →
    Writable decimal (.conditional p branches otherwise)
  | forIn {p : Position} {target : Expr} {counter element : Ident} {body : List Stmt} :
    target.Writable decimal → isName counter.name = true → isName element.name = true →
    (∀ s ∈ body, Writable decimal s) → Writable decimal (.forIn p target counter element body)
  | loop {p : Position} {condition : Expr} {body : List Stmt} :
    condition.Writable decimal → (∀ s ∈ body, Writable decimal s) →
    Writable decimal (.loop p condition body)
  | function {decl : FunctionDecl} :
    validNames decl → (∀ s ∈ decl.body, Writable decimal s) → Writable decimal (.function decl)
  | structDecl {p : Position} {name : String} {fields : List String} {methods : List FunctionDecl} :
    isName name = true → (∀ field ∈ fields, isName field = true) →
    (∀ method ∈ methods, validNames method) →
    (∀ method ∈ methods, ∀ s ∈ method.body, Writable decimal s) →
    Writable decimal (.structDecl p name fields methods)
  | returnValue {p : Position} {value : Option Expr} :
    (∀ e ∈ value, e.Writable decimal) → Writable decimal (.returnValue p value)
  | breakLoop {p : Position} : Writable decimal (.breakLoop p)
  | continueLoop {p : Position} : Writable decimal (.continueLoop p)

/-! ## The tokens of a statement -/

open Lexeme

variable {st : Style} {breaks : Nat}

theorem plain_keyword (word : Keyword) : (Lexeme.keyword word).Plain := ⟨trivial, rfl⟩

theorem plain_newline : Lexeme.newline.Plain := ⟨trivial, rfl⟩

theorem joins_expr {e : Expr} (writable : e.Writable st.decimal) : Joins (e.tokens st 0) :=
  joins_of_plain (Expr.plain_tokens (Expr.plain_bare writable) 0)

theorem joins_exprs {es : List Expr} (writable : ∀ e ∈ es, e.Writable st.decimal) :
    Joins (Expr.listTokens st es) :=
  joins_of_plain (Expr.plain_commas (List.forall_mem_map.2 fun e member =>
    Expr.plain_tokens (Expr.plain_bare (writable e member)) 0))

theorem joins_breaks (n : Nat) : Joins (List.replicate n .newline) :=
  joins_of_plain fun l member => by rw [List.eq_of_mem_replicate member]; exact plain_newline

theorem joins_braces {ls : List Lexeme} (joins : Joins ls) : Joins (inBraces ls) :=
  ((joins.append (joins_nil.cons (Expr.plain_mark _))).cons plain_newline).cons (Expr.plain_mark _)

theorem joins_fields {fields : List String} (valid : ∀ field ∈ fields, isName field = true) :
    Joins (fieldLines fields) := by
  induction fields with
  | nil => exact joins_nil
  | cons field fields ih =>
    have ⟨here, later⟩ := List.forall_mem_cons.1 valid
    exact ((ih later).cons plain_newline).cons (Expr.plain_ident here)

/-- A statement on a line of its own. -/
def JoinsLine (st : Style) (breaks : Nat) (s : Stmt) : Prop :=
  Joins (s.tokens st breaks ++ [.newline])

theorem joins_lines {body : List Stmt} (joins : ∀ s ∈ body, JoinsLine st breaks s) :
    Joins (lines st breaks body) := by
  induction body with
  | nil => exact joins_nil
  | cons s body ih =>
    have ⟨here, later⟩ := List.forall_mem_cons.1 joins
    have both := Joins.append here (ih later)
    rwa [List.append_assoc, List.singleton_append] at both

theorem joins_function {decl : FunctionDecl} (valid : validNames decl)
    (joins : ∀ s ∈ decl.body, JoinsLine st breaks s) : Joins (decl.tokens st breaks) := by
  rcases decl with ⟨p, name, params, body⟩
  have params : Joins (paramTokens params) := by
    refine Joins.cons (Joins.append (joins_of_plain (Expr.plain_commas ?_)) ?_) (Expr.plain_mark _)
    · refine List.forall_mem_map.2 fun name member => List.forall_mem_singleton.2 ?_
      exact Expr.plain_ident (valid.2 name member)
    · exact joins_nil.cons (Expr.plain_mark _)
  have body := joins_braces (joins_lines joins)
  exact ((params.append body).cons (Expr.plain_ident valid.1)).cons (plain_keyword _)

theorem joins_methods {methods : List FunctionDecl} (valid : ∀ method ∈ methods, validNames method)
    (joins : ∀ method ∈ methods, ∀ s ∈ method.body, JoinsLine st breaks s) :
    Joins (methodLines st breaks methods) := by
  induction methods with
  | nil => exact joins_nil
  | cons method methods ih =>
    have ⟨validHere, validLater⟩ := List.forall_mem_cons.1 valid
    have ⟨here, later⟩ := List.forall_mem_cons.1 joins
    exact (joins_function validHere here).append ((ih validLater later).cons plain_newline)

theorem joins_branches {branches : List (Expr × List Stmt)} {lead : List Lexeme}
    (joinsLead : Joins lead) (writable : ∀ branch ∈ branches, branch.1.Writable st.decimal)
    (joins : ∀ branch ∈ branches, ∀ s ∈ branch.2, JoinsLine st breaks s) :
    Joins (branchTokens st breaks lead branches) := by
  induction branches generalizing lead with
  | nil => exact joins_nil
  | cons branch branches ih =>
    have ⟨writableHere, writableLater⟩ := List.forall_mem_cons.1 writable
    have ⟨here, later⟩ := List.forall_mem_cons.1 joins
    have lead' := (joins_breaks breaks).append (joins_nil.cons (plain_keyword .elifWord))
    exact joinsLead.append ((joins_expr writableHere).append
      ((joins_braces (joins_lines here)).append (ih lead' writableLater later)))

theorem joins_otherwise {otherwise : Option (List Stmt)}
    (joins : ∀ body ∈ otherwise, ∀ s ∈ body, JoinsLine st breaks s) :
    Joins (elseTokens st breaks otherwise) := by
  cases otherwise with
  | none => exact joins_nil
  | some body =>
    have braces := joins_braces (joins_lines (joins body rfl))
    exact (joins_breaks breaks).append (braces.cons (plain_keyword _))

/-- A written statement can be put in front of others, on a line of its own. -/
theorem joins_line {s : Stmt} (writable : s.Writable st.decimal) : JoinsLine st breaks s := by
  have newline : Joins [.newline] := joins_nil.cons plain_newline
  induction writable with
  | comment oneLine => exact fun rest joinable => ⟨oneLine, fun _ => .inr rfl, newline rest joinable⟩
  | @importModule _ target =>
    have quoted : (Lexeme.string target).Plain := ⟨trivial, rfl⟩
    exact (newline.cons quoted).cons (plain_keyword _)
  | expr writable => exact (joins_expr writable).append newline
  | assign _ _ left right =>
    exact ((joins_exprs left).append ((joins_exprs right).cons (Expr.plain_mark _))).append newline
  | conditional _ conditions _ _ ihBodies ihOtherwise =>
    have branches := joins_branches (joins_nil.cons (plain_keyword .ifWord)) conditions ihBodies
    exact (branches.append (joins_otherwise ihOtherwise)).append newline
  | forIn target counter element _ ih =>
    have rest := (joins_expr target).append (joins_braces (joins_lines ih))
    exact Joins.append (((((rest.cons (plain_keyword _)).cons (Expr.plain_ident element)).cons
      (Expr.plain_mark _)).cons (Expr.plain_ident counter)).cons (plain_keyword _)) newline
  | loop condition _ ih =>
    have rest := (joins_expr condition).append (joins_braces (joins_lines ih))
    exact (rest.cons (plain_keyword _)).append newline
  | function valid _ ih => exact (joins_function valid ih).append newline
  | structDecl name fields methods _ ih =>
    have inside := joins_braces ((joins_fields fields).append (joins_methods methods ih))
    exact ((inside.cons (Expr.plain_ident name)).cons (plain_keyword _)).append newline
  | @returnValue _ value writable =>
    cases value with
    | none => exact newline.cons (plain_keyword _)
    | some e => exact ((joins_expr (writable e rfl)).cons (plain_keyword _)).append newline
  | breakLoop | continueLoop => exact newline.cons (plain_keyword _)

/-- A written sequence of statements is read as its tokens. -/
theorem spells_text {block : Block} (writable : ∀ s ∈ block, s.Writable st.decimal) :
    (Tokens.ofText (block.text st breaks)).Spells (lines st breaks block) :=
  (joins_lines fun s member => joins_line (writable s member)).spells

/-- The tokens that cannot stand at the start of a statement and end the one before it. -/
def startsStmt : Lexeme → Bool
  | .newline | .eof | .punct .rightBrace | .keyword .elifWord | .keyword .elseWord => false
  | _ => true

theorem startsStmt_of_starts {l : Lexeme} {need : Nat} (starts : Expr.Starts need l) :
    startsStmt l = true := by
  unfold startsStmt
  split <;> first | rfl | exact absurd rfl (starts.ne rfl rfl)

theorem starts_exprs {es : List Expr} (some : es ≠ [])
    (writable : ∀ e ∈ es, e.Writable st.decimal) (rest : List Lexeme) :
    Expr.Starts 0 (first (Expr.listTokens st es ++ rest)) := by
  cases es with
  | nil => exact absurd rfl some
  | cons e es =>
    have starts := Expr.starts_tokens (writable e List.mem_cons_self) 0
    have first : first (Expr.listTokens st (e :: es) ++ rest) = first (e.tokens st 0) :=
      Parser.first_commas es (starts.ne rfl rfl)
    rwa [first]

/-- The first token of a statement. -/
theorem startsStmt_tokens {s : Stmt} (writable : s.Writable st.decimal) :
    startsStmt (first (s.tokens st breaks)) = true := by
  cases writable with
  | expr writable => exact startsStmt_of_starts (Expr.starts_tokens writable 0)
  | assign some _ writable => exact startsStmt_of_starts (starts_exprs some writable _)
  | @conditional _ branches _ some =>
    cases branches with
    | nil => exact absurd rfl some
    | cons => rfl
  | @function decl =>
    rcases decl with ⟨p, name, params, body⟩
    rfl
  | @returnValue _ value => cases value <;> rfl
  | _ => rfl

end Stmt

end Shiba

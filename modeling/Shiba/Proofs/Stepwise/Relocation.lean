import Shiba.Proofs.Stepwise.Reading

/-!
# Reading at another place

Where its tokens stand makes no difference to how a text is read, and neither do the statements before
it.  `relocate f` puts everything that has been read to other places, each position `p` to `f p`, and a
reading moreover behind some statements.  Reading commutes with it: what a token does to a relocated
reading is what it does to the reading, relocated (`Reading.advance_relocate`).  So tokens at other
places, behind other statements, make the same program there (`Reading.run_relocate`).
-/

namespace Shiba

variable (f : Position → Position)

/-! ## Expressions and statements -/

/-- A name at another place. -/
def Ident.relocate (i : Ident) : Ident := ⟨f i.position, i.name⟩

mutual

/-- An expression at another place. -/
def Expr.relocate : Expr → Expr
  | .literal p value => .literal (f p) value
  | .list p elements => .list (f p) (Expr.relocateAll elements)
  | .dict p entries => .dict (f p) (Expr.relocateEntries entries)
  | .ident p name => .ident (f p) name
  | .index p target i => .index (f p) target.relocate i.relocate
  | .slice p target first last =>
    .slice (f p) target.relocate (Expr.relocateBound first) (Expr.relocateBound last)
  | .select p target name => .select (f p) target.relocate name
  | .unary p op operand => .unary (f p) op operand.relocate
  | .binary p op left right => .binary (f p) op left.relocate right.relocate
  | .structInit p name brace fields => .structInit (f p) name (f brace) (Expr.relocateFields fields)
  | .call p callee args => .call (f p) callee.relocate (Expr.relocateAll args)

/-- Expressions at another place. -/
def Expr.relocateAll : List Expr → List Expr
  | [] => []
  | e :: rest => e.relocate :: Expr.relocateAll rest

/-- The entries of a dictionary at another place. -/
def Expr.relocateEntries : List (Expr × Expr) → List (Expr × Expr)
  | [] => []
  | (key, value) :: rest => (key.relocate, value.relocate) :: Expr.relocateEntries rest

/-- The fields of a struct initialiser at another place. -/
def Expr.relocateFields : List (Ident × Expr) → List (Ident × Expr)
  | [] => []
  | (i, value) :: rest => (i.relocate f, value.relocate) :: Expr.relocateFields rest

/-- The bound of a slice at another place. -/
def Expr.relocateBound : Option Expr → Option Expr
  | none => none
  | some e => some e.relocate

end

mutual

/-- A statement at another place. -/
def Stmt.relocate : Stmt → Stmt
  | .comment p text => .comment (f p) text
  | .importModule p target => .importModule (f p) target
  | .expr e => .expr (e.relocate f)
  | .assign p op left right => .assign (f p) op (Expr.relocateAll f left) (Expr.relocateAll f right)
  | .conditional p branches otherwise =>
    .conditional (f p) (Stmt.relocateBranches branches) (Stmt.relocateOtherwise otherwise)
  | .forIn p target counter element body =>
    .forIn (f p) (target.relocate f) (counter.relocate f) (element.relocate f) (Stmt.relocateAll body)
  | .loop p condition body => .loop (f p) (condition.relocate f) (Stmt.relocateAll body)
  | .function decl => .function decl.relocate
  | .structDecl p name fields methods => .structDecl (f p) name fields (Stmt.relocateMethods methods)
  | .returnValue p value => .returnValue (f p) (Expr.relocateBound f value)
  | .breakLoop p => .breakLoop (f p)
  | .continueLoop p => .continueLoop (f p)

/-- A declared function at another place. -/
def FunctionDecl.relocate : FunctionDecl → FunctionDecl
  | .mk p name params body => .mk (f p) name params (Stmt.relocateAll body)

/-- Statements at another place. -/
def Stmt.relocateAll : List Stmt → List Stmt
  | [] => []
  | s :: rest => s.relocate :: Stmt.relocateAll rest

/-- The branches of a conditional at another place. -/
def Stmt.relocateBranches : List (Expr × List Stmt) → List (Expr × List Stmt)
  | [] => []
  | (condition, body) :: rest =>
    (condition.relocate f, Stmt.relocateAll body) :: Stmt.relocateBranches rest

/-- The block for the case that no condition holds, at another place. -/
def Stmt.relocateOtherwise : Option (List Stmt) → Option (List Stmt)
  | none => none
  | some body => some (Stmt.relocateAll body)

/-- Methods at another place. -/
def Stmt.relocateMethods : List FunctionDecl → List FunctionDecl
  | [] => []
  | method :: rest => method.relocate :: Stmt.relocateMethods rest

end

theorem Expr.relocateAll_append (es es' : List Expr) :
    Expr.relocateAll f (es ++ es') = Expr.relocateAll f es ++ Expr.relocateAll f es' := by
  induction es with
  | nil => rfl
  | cons e es ih => simp only [List.cons_append, Expr.relocateAll, ih]

theorem Expr.relocateEntries_append (es es' : List (Expr × Expr)) :
    Expr.relocateEntries f (es ++ es') = Expr.relocateEntries f es ++ Expr.relocateEntries f es' := by
  induction es with
  | nil => rfl
  | cons e es ih => simp only [List.cons_append, Expr.relocateEntries, ih]

theorem Expr.relocateFields_append (es es' : List (Ident × Expr)) :
    Expr.relocateFields f (es ++ es') = Expr.relocateFields f es ++ Expr.relocateFields f es' := by
  induction es with
  | nil => rfl
  | cons e es ih => simp only [List.cons_append, Expr.relocateFields, ih]

theorem Stmt.relocateAll_eq_map (ss : List Stmt) :
    Stmt.relocateAll f ss = ss.map (Stmt.relocate f) := by
  induction ss with
  | nil => rfl
  | cons s ss ih => rw [Stmt.relocateAll, ih, List.map_cons]

theorem Stmt.relocateAll_append (ss ss' : List Stmt) :
    Stmt.relocateAll f (ss ++ ss') = Stmt.relocateAll f ss ++ Stmt.relocateAll f ss' := by
  simp only [relocateAll_eq_map, List.map_append]

theorem Stmt.relocateBranches_append (bs bs' : List (Expr × List Stmt)) :
    Stmt.relocateBranches f (bs ++ bs') =
      Stmt.relocateBranches f bs ++ Stmt.relocateBranches f bs' := by
  induction bs with
  | nil => rfl
  | cons b bs ih => simp only [List.cons_append, Stmt.relocateBranches, ih]

theorem Stmt.relocateMethods_append (ms ms' : List FunctionDecl) :
    Stmt.relocateMethods f (ms ++ ms') = Stmt.relocateMethods f ms ++ Stmt.relocateMethods f ms' := by
  induction ms with
  | nil => rfl
  | cons m ms ih => simp only [List.cons_append, Stmt.relocateMethods, ih]

theorem Expr.position_relocate (e : Expr) : (e.relocate f).position = f e.position := by cases e <;> rfl

/-! ## Tokens and programs -/

/-- A token at another place. -/
def Token.relocate (t : Token) : Token := ⟨t.lexeme, f t.position⟩

theorem Token.lexeme_relocate (t : Token) : (t.relocate f).lexeme = t.lexeme := by
  cases t
  rfl

/-- A failure at another place. -/
def Source.Failure.relocate (failure : Source.Failure) : Source.Failure :=
  ⟨failure.fault, f failure.position⟩

/-- An ending at another place. -/
def Ending.relocate : Ending → Ending
  | .complete place => .complete (f place)
  | .failed failure => .failed (failure.relocate f)

/-- A sequence of tokens at another place. -/
def Tokens.relocate (ts : Tokens) : Tokens := ⟨ts.list.map (Token.relocate f), ts.ending.relocate f⟩

/-- A program at another place, behind some statements. -/
def Program.relocate (front : Block) (program : Program) : Program :=
  ⟨front ++ Stmt.relocateAll f program.statements, program.ending.relocate f⟩

namespace Stepwise

open Shiba.Expr (unaryOp? binaryOp?)
open Shiba.Stmt (assignOp? endsAt)

/-! ## Readings at another place -/

def Bracket.relocate : Bracket → Bracket
  | .paren => .paren
  | .list p before => .list (f p) (Expr.relocateAll f before)
  | .call p callee before => .call (f p) (callee.relocate f) (Expr.relocateAll f before)
  | .key p before => .key (f p) (Expr.relocateEntries f before)
  | .value p before k => .value (f p) (Expr.relocateEntries f before) (k.relocate f)
  | .field p n brace before i =>
    .field (f p) n (f brace) (Expr.relocateFields f before) (i.relocate f)
  | .index p target => .index (f p) (target.relocate f)
  | .bound p target first => .bound (f p) (target.relocate f) (Expr.relocateBound f first)

def Pending.relocate : Pending → Pending
  | .unary p op => .unary (f p) op
  | .binary p op left => .binary (f p) op (left.relocate f)
  | .bracket outside b => .bracket outside (b.relocate f)

def Look.relocate : Look → Look
  | .operand mode => .operand mode
  | .item outside b => .item outside (b.relocate f)
  | .name mode p n => .name mode (f p) n
  | .suffix mode e => .suffix mode (e.relocate f)
  | .value mode e => .value mode (e.relocate f)
  | .member mode p e => .member mode (f p) (e.relocate f)
  | .field outside p n brace before => .field outside (f p) n (f brace) (Expr.relocateFields f before)
  | .colon outside p n brace before i =>
    .colon outside (f p) n (f brace) (Expr.relocateFields f before) (i.relocate f)

def Move.relocate : Move → Move
  | .take pending look => .take (pending.map (Pending.relocate f)) (look.relocate f)
  | .reject failure => .reject (failure.relocate f)
  | .finished e => .finished (e.relocate f)

def Side.relocate : Side → Side
  | .left before => .left (Expr.relocateAll f before)
  | .right p op targets before =>
    .right (f p) op (Expr.relocateAll f targets) (Expr.relocateAll f before)

def Head.relocate : Head → Head
  | .list side => .list (side.relocate f)
  | .result p => .result (f p)
  | .condition p before => .condition (f p) (Stmt.relocateBranches f before)
  | .loop p => .loop (f p)
  | .target p counter element => .target (f p) (counter.relocate f) (element.relocate f)

def Members.relocate (m : Members) : Members :=
  ⟨f m.place, m.name, m.fields, Stmt.relocateMethods f m.methods⟩

def Owner.relocate : Owner → Owner
  | .function host p name params => .function (host.map (Members.relocate f)) (f p) name params
  | .branch p before condition =>
    .branch (f p) (Stmt.relocateBranches f before) (condition.relocate f)
  | .otherwise p branches => .otherwise (f p) (Stmt.relocateBranches f branches)
  | .loop p condition => .loop (f p) (condition.relocate f)
  | .forIn p target counter element =>
    .forIn (f p) (target.relocate f) (counter.relocate f) (element.relocate f)

def Now.relocate : Now → Now
  | .start => .start
  | .expr head pending look =>
    .expr (head.relocate f) (pending.map (Pending.relocate f)) (look.relocate f)
  | .more side e => .more (side.relocate f) (e.relocate f)
  | .assigning p op left => .assigning (f p) op (Expr.relocateAll f left)
  | .importing p => .importing (f p)
  | .importPart p parts => .importPart (f p) parts
  | .importSlash p parts => .importSlash (f p) parts
  | .functionName host p => .functionName (host.map (Members.relocate f)) (f p)
  | .functionParen host p name => .functionParen (host.map (Members.relocate f)) (f p) name
  | .param host p name before => .param (host.map (Members.relocate f)) (f p) name before
  | .paramEnd host p name params => .paramEnd (host.map (Members.relocate f)) (f p) name params
  | .functionBrace host p name params =>
    .functionBrace (host.map (Members.relocate f)) (f p) name params
  | .structName p => .structName (f p)
  | .structBrace p name => .structBrace (f p) name
  | .members m => .members (m.relocate f)
  | .returning p => .returning (f p)
  | .looping p => .looping (f p)
  | .counter p i => .counter (f p) (i.relocate f)
  | .counterComma p i comma => .counterComma (f p) (i.relocate f) (f comma)
  | .element p i comma x => .element (f p) (i.relocate f) (f comma) (x.relocate f)
  | .branches p before => .branches (f p) (Stmt.relocateBranches f before)
  | .otherwise p before => .otherwise (f p) (Stmt.relocateBranches f before)

/-- What stands before the statements of a block: `front` in the outermost one. -/
def ahead (front : Block) : List (Owner × Block) → Block
  | [] => front
  | _ :: _ => []

/-- Open blocks at another place, the outermost behind some statements. -/
def relocateOuter (front : Block) : List (Owner × Block) → List (Owner × Block)
  | [] => []
  | (owner, before) :: outer =>
    (owner.relocate f, ahead front outer ++ Stmt.relocateAll f before) :: relocateOuter front outer

/-- A reading at another place, behind some statements. -/
def Reading.relocate (front : Block) (r : Reading) : Reading :=
  ⟨relocateOuter f front r.outer, ahead front r.outer ++ Stmt.relocateAll f r.before, r.now.relocate f⟩

/-- What a token leads to, at another place and behind some statements. -/
def relocateStep (front : Block) : Except Program Reading → Except Program Reading
  | .error program => .error (program.relocate f front)
  | .ok r => .ok (r.relocate f front)

variable {f} {front : Block}

theorem ite_relocate {c : Prop} [Decidable c] {yes yes' no no' : Except Program Reading}
    (pos : yes = relocateStep f front yes') (neg : no = relocateStep f front no') :
    (if c then yes else no) = relocateStep f front (if c then yes' else no') := by
  split
  · exact pos
  · exact neg

/-! ## Expressions -/

theorem primaryMove_relocate (mode : Mode) (pending : List Pending) (t : Token) :
    primaryMove mode (pending.map (Pending.relocate f)) (t.relocate f) =
      (primaryMove mode pending t).relocate f := by
  rcases t with ⟨l, p⟩
  cases l with
  | number text =>
    simp only [primaryMove, Token.relocate]
    split
    · rfl
    · split
      · rfl
      · split <;> rfl
  | keyword word => cases word <;> rfl
  | punct mark => cases mark <;> rfl
  | _ => rfl

theorem operandMove_relocate (mode : Mode) (pending : List Pending) (t : Token) :
    operandMove mode (pending.map (Pending.relocate f)) (t.relocate f) =
      (operandMove mode pending t).relocate f := by
  unfold operandMove
  rw [Token.lexeme_relocate]
  split
  · rfl
  · exact primaryMove_relocate mode pending t

theorem Bracket.closed?_relocate (b : Bracket) (l : Lexeme) :
    (b.relocate f).closed? l = (b.closed? l).map (Expr.relocate f) := by
  cases l with
  | punct mark => cases b <;> cases mark <;> rfl
  | _ => cases b <;> rfl

theorem itemMove_relocate (outside : Mode) (b : Bracket) (pending : List Pending) (t : Token) :
    itemMove outside (b.relocate f) (pending.map (Pending.relocate f)) (t.relocate f) =
      (itemMove outside b pending t).relocate f := by
  have goes := operandMove_relocate (f := f) .bracketed (.bracket outside b :: pending) t
  unfold itemMove
  rw [b.closed?_relocate, Token.lexeme_relocate]
  cases b.closed? t.lexeme with
  | some e => rfl
  | none =>
    cases b with
    | index p target =>
      rcases t with ⟨l, q⟩
      cases l with
      | punct mark =>
        cases mark with
        | colon => rfl
        | _ => exact goes
      | _ => exact goes
    | _ => exact goes

theorem Bracket.wanted_relocate (b : Bracket) : (b.relocate f).wanted = b.wanted := by cases b <;> rfl

theorem Bracket.comma?_relocate (outside : Mode) (e : Expr) (b : Bracket) :
    (b.relocate f).comma? outside (e.relocate f) = (b.comma? outside e).map (Look.relocate f) := by
  cases b <;> simp [Bracket.comma?, Bracket.relocate, Look.relocate, Expr.relocateAll_append,
    Expr.relocateEntries_append, Expr.relocateFields_append, Expr.relocateAll, Expr.relocateEntries,
    Expr.relocateFields, Ident.relocate]

theorem Bracket.closing_relocate (outside : Mode) (e : Expr) (pending : List Pending) (b : Bracket) :
    (b.relocate f).closing outside (e.relocate f) (pending.map (Pending.relocate f)) =
      (b.closing outside e pending).relocate f := by
  cases b <;> simp [Bracket.closing, Bracket.relocate, Look.relocate, Move.relocate, Pending.relocate,
    Expr.relocate, Expr.relocateAll_append, Expr.relocateEntries_append, Expr.relocateFields_append,
    Expr.relocateAll, Expr.relocateEntries, Expr.relocateFields, Expr.relocateBound, Ident.relocate]

theorem Bracket.behind_relocate (outside : Mode) (b : Bracket) (e : Expr) (pending : List Pending)
    (t : Token) :
    (b.relocate f).behind outside (e.relocate f) (pending.map (Pending.relocate f)) (t.relocate f) =
      (b.behind outside e pending t).relocate f := by
  have closes : (if t.lexeme = .punct b.wanted
        then (b.relocate f).closing outside (e.relocate f) (pending.map (Pending.relocate f))
      else .fail (.expected b.wanted.text t.lexeme) (t.relocate f)) =
      (if t.lexeme = .punct b.wanted then b.closing outside e pending
        else .fail (.expected b.wanted.text t.lexeme) t).relocate f := by
    split
    · exact b.closing_relocate outside e pending
    · rfl
  have comma := b.comma?_relocate (f := f) outside e
  unfold Bracket.behind
  rw [b.wanted_relocate, comma]
  rcases t with ⟨l, p⟩
  cases l with
  | punct mark =>
    cases mark with
    | comma =>
      cases b.comma? outside e with
      | some look => rfl
      | none => exact closes
    | colon =>
      cases b with
      | index p target => rfl
      | _ => exact closes
    | _ => exact closes
  | _ => exact closes

theorem valueMove_relocate (mode : Mode) (e : Expr) (pending : List Pending) (t : Token) :
    valueMove mode (e.relocate f) (pending.map (Pending.relocate f)) (t.relocate f) =
      (valueMove mode e pending t).relocate f := by
  induction pending generalizing e with
  | nil =>
    simp only [List.map_nil, valueMove, Token.lexeme_relocate]
    split <;> rfl
  | cons frame pending ih =>
    cases frame with
    | unary p op => exact ih (.unary p op e)
    | binary p op left =>
      simp only [List.map_cons, Pending.relocate, valueMove, Token.lexeme_relocate]
      split
      · split
        · rfl
        · exact ih (.binary p op left e)
      · exact ih (.binary p op left e)
    | bracket outside b =>
      simp only [List.map_cons, Pending.relocate, valueMove, Token.lexeme_relocate]
      split
      · rfl
      · exact b.behind_relocate outside e pending t

theorem suffixMove_relocate (mode : Mode) (e : Expr) (pending : List Pending) (t : Token) :
    suffixMove mode (e.relocate f) (pending.map (Pending.relocate f)) (t.relocate f) =
      (suffixMove mode e pending t).relocate f := by
  unfold suffixMove
  rw [Token.lexeme_relocate]
  split
  case h_4 => exact valueMove_relocate mode e pending t
  all_goals rfl

theorem Look.move_relocate (pending : List Pending) (t : Token) (look : Look) :
    (look.relocate f).move (pending.map (Pending.relocate f)) (t.relocate f) =
      (look.move pending t).relocate f := by
  cases look with
  | operand mode => exact operandMove_relocate mode pending t
  | item outside b => exact itemMove_relocate outside b pending t
  | name mode p n =>
    simp only [Look.relocate, Look.move, Token.lexeme_relocate]
    by_cases brace : t.lexeme = .punct .leftBrace ∧ mode.header = false
    · rw [if_pos brace, if_pos brace]
      rfl
    · rw [if_neg brace, if_neg brace]
      exact suffixMove_relocate mode (.ident p n) pending t
  | suffix mode e => exact suffixMove_relocate mode e pending t
  | value mode e => exact valueMove_relocate mode e pending t
  | member mode p e =>
    simp only [Look.relocate, Look.move, Token.lexeme_relocate]
    split <;> rfl
  | field outside p n brace before =>
    simp only [Look.relocate, Look.move, Token.lexeme_relocate]
    split <;> rfl
  | colon outside p n brace before i =>
    simp only [Look.relocate, Look.move, Token.lexeme_relocate]
    by_cases colon : t.lexeme = .punct .colon
    · rw [if_pos colon, if_pos colon]
      rfl
    · rw [if_neg colon, if_neg colon]
      rfl

/-! ## Statements -/

theorem Side.push_relocate (side : Side) (e : Expr) :
    (side.push e).relocate f = (side.relocate f).push (e.relocate f) := by
  cases side with
  | left before => exact congrArg Side.left (Expr.relocateAll_append f before [e])
  | right p op targets before =>
    exact congrArg (Side.right (f p) op (Expr.relocateAll f targets))
      (Expr.relocateAll_append f before [e])

theorem Now.skips_relocate (now : Now) : (now.relocate f).skips = now.skips := by
  cases now with
  | expr head pending look => cases look <;> rfl
  | _ => rfl

namespace Reading

variable (f front) (r : Reading) (t : Token)

theorem done_relocate : (r.relocate f front).done = front ++ Stmt.relocateAll f r.done := by
  rcases r with ⟨outer, before, now⟩
  simp only [done, relocate]
  induction outer generalizing before with
  | nil => rfl
  | cons level outer ih => exact ih level.2

theorem fail_relocate (fault : Source.Grammatical) (p : Position) :
    (r.relocate f front).fail fault (f p) = relocateStep f front (r.fail fault p) := by
  simp only [fail, done_relocate]
  rfl

theorem startExpr_relocate (head : Head) (mode : Mode) :
    (r.relocate f front).startExpr (head.relocate f) mode (t.relocate f) =
      relocateStep f front (r.startExpr head mode t) := by
  have moves := operandMove_relocate (f := f) mode [] t
  rw [List.map_nil] at moves
  unfold startExpr
  rw [moves, done_relocate]
  cases operandMove mode [] t <;> rfl

theorem add_relocate (s : Stmt) :
    (r.add s).relocate f front = (r.relocate f front).add (s.relocate f) := by
  simp only [add, relocate, Stmt.relocateAll_append, Stmt.relocateAll, Now.relocate, List.append_assoc]

theorem closeBlock_relocate (body : Block) (owner : Owner) :
    (closeBlock r body owner).relocate f front =
      closeBlock (r.relocate f front) (Stmt.relocateAll f body) (owner.relocate f) := by
  cases owner with
  | function host p name params =>
    cases host with
    | none => exact add_relocate f front r _
    | some m =>
      simp only [closeBlock, relocate, Owner.relocate, Now.relocate, Members.relocate, Option.map_some,
        Stmt.relocateMethods_append, Stmt.relocateMethods, FunctionDecl.relocate]
  | branch p before condition =>
    simp only [closeBlock, relocate, Owner.relocate, Now.relocate, Stmt.relocateBranches_append,
      Stmt.relocateBranches]
  | otherwise | loop | forIn => exact add_relocate f front r _

theorem begin_relocate :
    (r.relocate f front).begin (t.relocate f) = relocateStep f front (r.begin t) := by
  have starts := startExpr_relocate f front r t (.list (.left [])) .plain
  rcases t with ⟨l, p⟩
  cases l with
  | eof =>
    rcases r with ⟨- | ⟨level, outer⟩, before, now⟩
    · rfl
    · exact fail_relocate f front _ _ p
  | comment text => exact congrArg Except.ok (add_relocate f front r (.comment p text)).symm
  | keyword word =>
    cases word with
    | breakWord => exact congrArg Except.ok (add_relocate f front r (.breakLoop p)).symm
    | continueWord => exact congrArg Except.ok (add_relocate f front r (.continueLoop p)).symm
    | importWord | defWord | structWord | ifWord | forWord | returnWord => rfl
    | _ => exact starts
  | punct mark =>
    cases mark with
    | rightBrace =>
      rcases r with ⟨- | ⟨⟨owner, before⟩, outer⟩, body, now⟩
      · exact starts
      · exact congrArg Except.ok (closeBlock_relocate f front ⟨outer, before, .start⟩ body owner).symm
    | _ => exact starts
  | newline => rfl
  | _ => exact starts

theorem finish_relocate (s : Stmt) :
    (r.relocate f front).finish (s.relocate f) (t.relocate f) =
      relocateStep f front (r.finish s t) := by
  rw [finish, ← add_relocate, begin_relocate]
  rfl

theorem fail_relocate_behind (e : Expr) :
    (r.relocate f front).fail .assignmentExpected (e.relocate f).position =
    relocateStep f front (r.fail .assignmentExpected e.position) := by
  rw [e.position_relocate]
  exact fail_relocate f front r _ _

theorem endList_relocate (e : Expr) (side : Side) :
    (r.relocate f front).endList (e.relocate f) (t.relocate f) (side.relocate f) =
      relocateStep f front (r.endList e t side) := by
  have all : ∀ before,
      Expr.relocateAll f (before ++ [e]) = Expr.relocateAll f before ++ [e.relocate f] :=
    fun before => Expr.relocateAll_append f before [e]
  cases side with
  | left before =>
    simp only [Side.relocate, endList, Token.lexeme_relocate]
    cases assignOp? t.lexeme with
    | some op =>
      simp only [← all]
      rfl
    | none =>
      cases before with
      | nil => exact finish_relocate f front r t (.expr e)
      | cons first before =>
        cases before with
        | nil => exact fail_relocate_behind f front r e
        | cons second before => exact fail_relocate_behind f front r second
  | right p op targets before =>
    simp only [Side.relocate, endList, ← all]
    exact finish_relocate f front r t (.assign p op targets (before ++ [e]))

theorem expectBlock_relocate (owner : Owner) :
    (r.relocate f front).expectBlock (owner.relocate f) (t.relocate f) =
      relocateStep f front (r.expectBlock owner t) := by
  exact ite_relocate rfl (fail_relocate f front r _ _)

theorem behindExpr_relocate (e : Expr) (head : Head) :
    (r.relocate f front).behindExpr (e.relocate f) (t.relocate f) (head.relocate f) =
      relocateStep f front (r.behindExpr e t head) := by
  cases head with
  | list side =>
    exact ite_relocate rfl (endList_relocate f front r t e side)
  | result p => exact finish_relocate f front r t (.returnValue p (some e))
  | condition p before => exact expectBlock_relocate f front r t (.branch p before e)
  | loop p => exact expectBlock_relocate f front r t (.loop p e)
  | target p counter element => exact expectBlock_relocate f front r t (.forIn p e counter element)

theorem inExpr_relocate (head : Head) (pending : List Pending) (look : Look) :
    (r.relocate f front).inExpr (head.relocate f) (pending.map (Pending.relocate f)) (look.relocate f)
        (t.relocate f) =
      relocateStep f front (r.inExpr head pending look t) := by
  unfold inExpr
  rw [look.move_relocate]
  cases look.move pending t with
  | take pending look => rfl
  | reject failure =>
    simp only [Move.relocate, done_relocate]
    rfl
  | finished e => exact behindExpr_relocate f front r t e head

theorem expectName_relocate (next : String → Now) :
    (r.relocate f front).expectName (fun name => (next name).relocate f) (t.relocate f) =
      relocateStep f front (r.expectName next t) := by
  rcases t with ⟨l, p⟩
  cases l with
  | ident name => rfl
  | _ => exact fail_relocate f front r _ p

theorem expectMark_relocate (mark : Punctuator) (next : Now) :
    (r.relocate f front).expectMark mark (next.relocate f) (t.relocate f) =
      relocateStep f front (r.expectMark mark next t) := by
  exact ite_relocate rfl (fail_relocate f front r _ _)

theorem offer_relocate :
    (r.relocate f front).offer (t.relocate f) = relocateStep f front (r.offer t) := by
  rcases r with ⟨outer, body, now⟩
  cases now with
  | start => exact begin_relocate f front _ t
  | expr head pending look => exact inExpr_relocate f front _ t head pending look
  | more side e =>
    have starts := startExpr_relocate f front ⟨outer, body, .more side e⟩ t (.list (side.push e)) .plain
    rw [Head.relocate, side.push_relocate] at starts
    exact ite_relocate (endList_relocate f front _ t e side) starts
  | assigning p op left =>
    exact ite_relocate (fail_relocate f front _ _ _)
      (startExpr_relocate f front _ t (.list (.right p op left [])) .plain)
  | importing p =>
    rcases t with ⟨l, q⟩
    cases l with
    | string value => exact congrArg Except.ok (add_relocate f front _ (.importModule p value)).symm
    | ident name => rfl
    | _ => exact fail_relocate f front _ _ q
  | importPart p parts =>
    exact ite_relocate rfl (finish_relocate f front _ t (.importModule p ("/".intercalate parts)))
  | importSlash p parts =>
    exact expectName_relocate f front _ t fun name => .importPart p (parts ++ [name])
  | functionName host p => exact expectName_relocate f front _ t fun name => .functionParen host p name
  | functionParen host p name =>
    exact expectMark_relocate f front _ t .leftParen (.param host p name [])
  | param host p name before =>
    exact ite_relocate rfl
      (expectName_relocate f front _ t fun param => .paramEnd host p name (before ++ [param]))
  | paramEnd host p name params =>
    exact ite_relocate rfl
      (expectMark_relocate f front _ t .rightParen (.functionBrace host p name params))
  | functionBrace host p name params =>
    exact expectBlock_relocate f front _ t (.function host p name params)
  | structName p => exact expectName_relocate f front _ t fun name => .structBrace p name
  | structBrace p name => exact expectMark_relocate f front _ t .leftBrace (.members ⟨p, name, [], []⟩)
  | members m =>
    rcases t with ⟨l, q⟩
    cases l with
    | punct mark =>
      cases mark with
      | rightBrace =>
        exact congrArg Except.ok
          (add_relocate f front _ (.structDecl m.place m.name m.fields m.methods)).symm
      | comma => rfl
      | _ => exact fail_relocate f front _ _ q
    | keyword word =>
      cases word with
      | defWord => rfl
      | _ => exact fail_relocate f front _ _ q
    | ident | comment => rfl
    | _ => exact fail_relocate f front _ _ q
  | returning p =>
    exact ite_relocate (finish_relocate f front _ t (.returnValue p none))
      (startExpr_relocate f front _ t (.result p) .plain)
  | looping p =>
    have starts := startExpr_relocate f front ⟨outer, body, .looping p⟩ t (.loop p) .heading
    rcases t with ⟨l, q⟩
    cases l with
    | ident name => rfl
    | _ => exact starts
  | counter p counter =>
    exact ite_relocate rfl
      (inExpr_relocate f front _ t (.loop p) [] (.name .heading counter.position counter.name))
  | counterComma p counter comma =>
    rcases t with ⟨l, q⟩
    cases l with
    | ident name => rfl
    | _ => exact fail_relocate f front _ _ comma
  | element p counter comma element => exact ite_relocate rfl (fail_relocate f front _ _ comma)
  | branches p before =>
    have finishes :=
      finish_relocate f front ⟨outer, body, .branches p before⟩ t (.conditional p before none)
    rcases t with ⟨l, q⟩
    cases l with
    | keyword word =>
      cases word with
      | elifWord | elseWord => rfl
      | _ => exact finishes
    | _ => exact finishes
  | otherwise p branches => exact expectBlock_relocate f front _ t (.otherwise p branches)

/-- What a token does to a reading at another place. -/
theorem advance_relocate :
    (r.relocate f front).advance (t.relocate f) = relocateStep f front (r.advance t) := by
  unfold advance
  rw [show (r.relocate f front).now.skips = r.now.skips from r.now.skips_relocate]
  exact ite_relocate rfl (offer_relocate f front r t)

/-- What becomes of tokens at another place, behind some statements. -/
theorem run_relocate (ts : Tokens) :
    (r.relocate f front).run (ts.relocate f) = (r.run ts).relocate f front := by
  rcases ts with ⟨list, ending⟩
  induction list generalizing r with
  | nil =>
    cases ending with
    | failed failure =>
      exact congrArg (Program.mk · (.failed (failure.relocate f))) (done_relocate f front r)
    | complete place =>
      have ends := advance_relocate f front r ⟨.eof, place⟩
      simp only [Token.relocate] at ends
      simp only [Tokens.relocate, List.map_nil, Ending.relocate, run, run.runFrom, ends]
      cases r.advance ⟨.eof, place⟩ with
      | error program => rfl
      | ok next => exact congrArg (Program.mk · (.complete (f place))) (done_relocate f front next)
  | cons t list ih =>
    have step := advance_relocate f front r t
    simp only [Tokens.relocate, List.map_cons, run, run.runFrom, step]
    cases r.advance t with
    | error program => rfl
    | ok next => exact ih next

end Reading

end Stepwise

end Shiba

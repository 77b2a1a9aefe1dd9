import Shiba.Proofs.Stepwise.Reading

/-!
# Where a reading ends

A reading ends at the first token that cannot stand where it does, and at the latest at the end of
input.  The fault says whether it was found there (`Reading.advance_ended`), with one exception: a list of
targets without its operator, and loop variables without the word behind them, are not told from a
wrong token (`Now.cutShort`).

A newline, a comment and the end of input are none of an expression (`Inert`): what such a token
does depends on what has been read only (`Look.move_of_inert`).
-/

namespace Shiba.Stepwise

open Shiba.Expr (unaryOp? binaryOp?)
open Shiba.Stmt (assignOp? endsAt)

/-! ## Expressions that can be over -/

/-- A token that is no part of an expression. -/
def Inert : Lexeme → Prop
  | .newline | .comment _ | .eof => True
  | _ => False

/-- The expression made of an operand and of the operators that wait for it, outside brackets. -/
def closed? : List Pending → Expr → Option Expr
  | [], e => some e
  | .unary p op :: pending, e => closed? pending (.unary p op e)
  | .binary p op left :: pending, e => closed? pending (.binary p op left e)
  | .bracket .. :: _, _ => none

/-- The expression that has been read, when it can be over. -/
def Look.ended? (pending : List Pending) : Look → Option Expr
  | .name _ p n => closed? pending (.ident p n)
  | .suffix _ e | .value _ e => closed? pending e
  | _ => none

/-- A token that an operand goes on with. -/
def Extending (l : Lexeme) : Prop :=
  (binaryOp? l).isSome ∨ l = .punct .leftParen ∨ l = .punct .leftBracket ∨ l = .punct .dot

instance (l : Lexeme) : Decidable (Extending l) := inferInstanceAs (Decidable (_ ∨ _))

variable {pending : List Pending} {look : Look} {mode : Mode} {e e' : Expr} {t : Token} {r : Reading}
  {program : Program}

/-- A fault of the grammar that says whether it was found at the end of input. -/
def Tells (t : Token) (failure : Source.Failure) : Prop :=
  ∃ f, failure.fault = .grammatical f ∧ f.incomplete = decide (t.lexeme = .eof)

theorem binaryOp?_of_not_extending {l : Lexeme} (other : ¬Extending l) : binaryOp? l = none :=
  Option.not_isSome_iff_eq_none.1 fun some => other (.inl some)

/-- A token that an operand does not go on with goes to what is open around it. -/
theorem suffixMove_of_not_extending (other : ¬Extending t.lexeme) :
    suffixMove mode e pending t = valueMove mode e pending t := by
  unfold suffixMove
  split
  · exact absurd (.inr (.inl ‹_›)) other
  · exact absurd (.inr (.inr (.inl ‹_›))) other
  · exact absurd (.inr (.inr (.inr ‹_›))) other
  · rfl

theorem Inert.no_operator (inert : Inert t.lexeme) :
    unaryOp? t.lexeme = none ∧ binaryOp? t.lexeme = none ∧ assignOp? t.lexeme = none ∧
      endsAt t.lexeme = true ∧ ∀ mark, t.lexeme ≠ .punct mark := by
  cases same : t.lexeme <;> simp_all [Inert, unaryOp?, binaryOp?, assignOp?, endsAt]

theorem Inert.no_word (inert : Inert t.lexeme) : (∀ word, t.lexeme ≠ .keyword word) ∧
    (∀ name, t.lexeme ≠ .ident name) ∧ ∀ value, t.lexeme ≠ .string value := by
  refine ⟨fun word same => ?_, fun name same => ?_, fun value same => ?_⟩ <;>
  · rw [same] at inert
    exact inert

/-- Without an operator, an operand goes to the operators that wait for it. -/
theorem valueMove_of_closed (no : binaryOp? t.lexeme = none) (closed : closed? pending e = some e') :
    valueMove mode e pending t = .finished e' := by
  induction pending generalizing e with
  | nil =>
    cases closed
    simp only [valueMove, no]
  | cons first pending ih =>
    cases first with
    | unary p op => exact ih closed
    | binary p op left =>
      simp only [valueMove, no]
      exact ih closed
    | bracket outside b => cases closed

theorem valueMove_of_inert (inert : Inert t.lexeme) (opened : closed? pending e = none) :
    ∃ failure, valueMove mode e pending t = .reject failure ∧ Tells t failure := by
  obtain ⟨-, no, -, -, mark⟩ := inert.no_operator
  induction pending generalizing e with
  | nil => cases opened
  | cons first pending ih =>
    cases first with
    | unary p op => exact ih opened
    | binary p op left =>
      simp only [valueMove, no]
      exact ih opened
    | bracket outside b =>
      simp only [valueMove, no, Bracket.behind]
      split
      · exact absurd ‹_› (mark _)
      · exact absurd ‹_› (mark _)
      · rw [if_neg (mark _)]
        exact ⟨_, rfl, _, rfl, rfl⟩

theorem operandMove_of_inert (mode : Mode) (pending : List Pending) (inert : Inert t.lexeme) :
    ∃ failure, operandMove mode pending t = .reject failure ∧ Tells t failure := by
  refine ⟨⟨.grammatical (.unexpected t.lexeme), t.position⟩, ?_, _, rfl, rfl⟩
  unfold operandMove primaryMove
  rw [inert.no_operator.1]
  cases same : t.lexeme <;> simp_all [Inert, Move.fail]

/-- What a token does that is no part of an expression. -/
theorem Look.move_of_inert (look : Look) (pending : List Pending) (inert : Inert t.lexeme) :
    (∃ e, look.ended? pending = some e ∧ look.move pending t = .finished e) ∨
      look.ended? pending = none ∧ ∃ failure, look.move pending t = .reject failure ∧ Tells t failure := by
  obtain ⟨-, no, -, -, mark⟩ := inert.no_operator
  have other : ¬Extending t.lexeme := by simp [Extending, no, mark]
  have suffix : ∀ mode e, suffixMove mode e pending t = valueMove mode e pending t :=
    fun _ _ => suffixMove_of_not_extending other
  have value : ∀ mode e, (∃ e', closed? pending e = some e' ∧ valueMove mode e pending t = .finished e') ∨
      closed? pending e = none ∧
        ∃ failure, valueMove mode e pending t = .reject failure ∧ Tells t failure := by
    intro mode e
    cases closed : closed? pending e with
    | some e' => exact .inl ⟨e', rfl, valueMove_of_closed no closed⟩
    | none => exact .inr ⟨rfl, valueMove_of_inert inert closed⟩
  cases look with
  | operand mode => exact .inr ⟨rfl, operandMove_of_inert mode pending inert⟩
  | item outside b =>
    refine .inr ⟨rfl, ?_⟩
    have unclosed : b.closed? t.lexeme = none := by
      unfold Bracket.closed?
      split <;> first | rfl | exact absurd ‹_› (mark _)
    simp only [Look.move, itemMove, unclosed]
    split
    · exact absurd ‹_› (mark _)
    · exact operandMove_of_inert _ _ inert
  | name mode p n =>
    have brace : ¬(t.lexeme = .punct .leftBrace ∧ mode.header = false) := fun both => mark _ both.1
    simp only [Look.move, if_neg brace, suffix]
    exact value mode _
  | suffix mode e =>
    simp only [Look.move, suffix]
    exact value mode e
  | value mode e => exact value mode e
  | member mode p e =>
    refine .inr ⟨rfl, ⟨.grammatical (.expected "IDENT" t.lexeme), t.position⟩, ?_, _, rfl, rfl⟩
    cases same : t.lexeme <;> simp_all [Inert, Look.move, Move.fail]
  | field outside p n brace before =>
    refine .inr ⟨rfl, ⟨.grammatical (.expected "IDENT" t.lexeme), t.position⟩, ?_, _, rfl, rfl⟩
    cases same : t.lexeme <;> simp_all [Inert, Look.move, Move.fail]
  | colon outside p n brace before f =>
    refine .inr ⟨rfl, ⟨.grammatical (.expected Punctuator.colon.text t.lexeme), t.position⟩, ?_, _,
      rfl, rfl⟩
    simp only [Look.move, if_neg (mark _)]
    rfl

/-- An expression is over only when it can be. -/
theorem valueMove_finished (move : valueMove mode e pending t = .finished e') :
    closed? pending e = some e' := by
  induction pending generalizing e with
  | nil =>
    simp only [valueMove] at move
    split at move <;> cases move
    rfl
  | cons first pending ih =>
    cases first with
    | unary p op => exact ih move
    | binary p op left =>
      simp only [valueMove] at move
      split at move
      · split at move
        · cases move
        · exact ih move
      · exact ih move
    | bracket outside b =>
      simp only [valueMove, Bracket.behind] at move
      repeat' split at move
      all_goals first | cases move | (unfold Bracket.closing at move; split at move <;> cases move)

theorem suffixMove_finished (move : suffixMove mode e pending t = .finished e') :
    closed? pending e = some e' := by
  unfold suffixMove at move
  split at move
  case h_4 => exact valueMove_finished move
  all_goals cases move

theorem Look.move_finished (move : look.move pending t = .finished e) : look.ended? pending = some e := by
  cases look with
  | operand mode => exact absurd move operandMove_ne_finished
  | item outside b =>
    simp only [Look.move, itemMove] at move
    split at move
    · cases move
    · split at move
      · cases move
      · exact absurd move operandMove_ne_finished
  | name mode p n =>
    simp only [Look.move] at move
    split at move
    · cases move
    · exact suffixMove_finished move
  | suffix mode e => exact suffixMove_finished move
  | value mode e => exact valueMove_finished move
  | member mode p e =>
    simp only [Look.move] at move
    split at move <;> cases move
  | field outside p n brace before =>
    simp only [Look.move] at move
    split at move <;> cases move
  | colon outside p n brace before f =>
    simp only [Look.move] at move
    split at move <;> cases move

/-! ## Tokens that cannot stand where they do -/

theorem operandMove_tells {failure : Source.Failure}
    (move : operandMove mode pending t = .reject failure) : Tells t failure := by
  unfold operandMove primaryMove at move
  split at move
  · cases move
  split at move
  case h_1 text number =>
    split at move
    · cases move
    split at move
    · cases move
      exact ⟨_, rfl, by simp [Source.Grammatical.incomplete, number]⟩
    split at move
    · cases move
    · cases move
      exact ⟨_, rfl, by simp [Source.Grammatical.incomplete, number]⟩
  case h_9 =>
    cases move
    exact ⟨_, rfl, rfl⟩
  all_goals cases move

theorem Bracket.behind_tells {outside : Mode} {b : Bracket} {failure : Source.Failure}
    (move : b.behind outside e pending t = .reject failure) : Tells t failure := by
  unfold behind at move
  split at move
  · cases move
  · cases move
  · split at move
    · unfold closing at move
      split at move <;> cases move
    · cases move
      exact ⟨_, rfl, rfl⟩

theorem valueMove_tells {failure : Source.Failure}
    (move : valueMove mode e pending t = .reject failure) : Tells t failure := by
  induction pending generalizing e with
  | nil =>
    simp only [valueMove] at move
    split at move <;> cases move
  | cons first pending ih =>
    cases first with
    | unary p op => exact ih move
    | binary p op left =>
      simp only [valueMove] at move
      split at move
      · split at move
        · cases move
        · exact ih move
      · exact ih move
    | bracket outside b =>
      simp only [valueMove] at move
      split at move
      · cases move
      · exact Bracket.behind_tells move

theorem suffixMove_tells {failure : Source.Failure}
    (move : suffixMove mode e pending t = .reject failure) : Tells t failure := by
  unfold suffixMove at move
  split at move
  case h_4 => exact valueMove_tells move
  all_goals cases move

/-- A token that an expression cannot go on with is named by the fault. -/
theorem Look.move_tells {failure : Source.Failure} (move : look.move pending t = .reject failure) :
    Tells t failure := by
  cases look with
  | operand mode => exact operandMove_tells move
  | item outside b =>
    simp only [Look.move, itemMove] at move
    split at move
    · cases move
    · split at move
      · cases move
      · exact operandMove_tells move
  | name mode p n =>
    simp only [Look.move] at move
    split at move
    · cases move
    · exact suffixMove_tells move
  | suffix mode e => exact suffixMove_tells move
  | value mode e => exact valueMove_tells move
  | member mode p e =>
    simp only [Look.move] at move
    split at move
    · cases move
    · cases move
      exact ⟨_, rfl, rfl⟩
  | field outside p n brace before =>
    simp only [Look.move] at move
    split at move
    · cases move
    · cases move
    · cases move
      exact ⟨_, rfl, rfl⟩
  | colon outside p n brace before f =>
    simp only [Look.move] at move
    split at move
    · cases move
    · cases move
      exact ⟨_, rfl, rfl⟩

/-- What of a statement has been read when the end of input is not told from a wrong token: several
targets of an assignment, or loop variables. -/
def Now.cutShort : Now → Bool
  | .expr (.list (.left (_ :: _))) pending look => (look.ended? pending).isSome
  | .more (.left (_ :: _)) _ => true
  | .counterComma .. | .element .. => true
  | _ => false

/-- How a reading ends at a token: the fault tells whether it was found at the end of input, or it is the
end of input and nothing is open. -/
def Ended (t : Token) (program : Program) : Prop :=
  (∃ failure, program.ending = .failed failure ∧ Tells t failure) ∨
    t.lexeme = .eof ∧ ∃ place, program.ending = .complete place

/-- The fault says that a wrong token was found, whatever was found. -/
def Blamed (program : Program) : Prop :=
  ∃ failure, program.ending = .failed failure ∧ failure.fault.incomplete = false

namespace Reading

theorem fail_ended {fault : Source.Grammatical} {place : Position}
    (tells : fault.incomplete = decide (t.lexeme = .eof)) (error : r.fail fault place = .error program) :
    Ended t program := by
  cases error
  exact .inl ⟨_, rfl, fault, rfl, tells⟩

theorem startExpr_ended {head : Head} (error : r.startExpr head mode t = .error program) :
    Ended t program := by
  unfold startExpr at error
  cases move : operandMove mode [] t with
  | take => rw [move] at error; cases error
  | reject failure =>
    rw [move] at error
    cases error
    exact .inl ⟨failure, rfl, operandMove_tells move⟩
  | finished e => exact absurd move operandMove_ne_finished

theorem begin_ended (error : r.begin t = .error program) : Ended t program := by
  unfold begin at error
  split at error
  case h_2 eof =>
    split at error
    · cases error
      exact .inr ⟨eof, _, rfl⟩
    · exact fail_ended (by simp [Source.Grammatical.incomplete, eof]) error
  case h_3 =>
    split at error
    · exact startExpr_ended error
    · cases error
  case h_13 => exact startExpr_ended error
  all_goals cases error

theorem expectBlock_ended {owner : Owner} (error : r.expectBlock owner t = .error program) :
    Ended t program := by
  unfold expectBlock at error
  split at error
  · cases error
  · exact fail_ended rfl error

theorem expectName_ended {next : String → Now} (error : r.expectName next t = .error program) :
    Ended t program := by
  unfold expectName at error
  split at error
  · cases error
  · exact fail_ended rfl error

theorem expectMark_ended {mark : Punctuator} {now : Now} (error : r.expectMark mark now t = .error program) :
    Ended t program := by
  unfold expectMark at error
  split at error
  · cases error
  · exact fail_ended rfl error

theorem endList_ended {side : Side} (error : r.endList e t side = .error program) :
    Ended t program ∨ (∃ first more, side = .left (first :: more)) ∧ Blamed program := by
  unfold endList at error
  split at error
  · rename_i before
    split at error
    · cases error
    · split at error
      · rename_i several
        cases error
        refine .inr ⟨?_, _, rfl, rfl⟩
        cases before with
        | nil => cases several
        | cons first more => exact ⟨first, more, rfl⟩
      · exact .inl (begin_ended error)
  · exact .inl (begin_ended error)

theorem behindExpr_ended {head : Head} (error : r.behindExpr e t head = .error program) :
    Ended t program ∨ (∃ first more, head = .list (.left (first :: more))) ∧ Blamed program := by
  cases head with
  | list side =>
    simp only [behindExpr] at error
    split at error
    · cases error
    · rcases endList_ended error with ended | ⟨⟨first, more, rfl⟩, blamed⟩
      · exact .inl ended
      · exact .inr ⟨⟨first, more, rfl⟩, blamed⟩
  | result p => exact .inl (begin_ended error)
  | condition p before => exact .inl (expectBlock_ended error)
  | loop p => exact .inl (expectBlock_ended error)
  | target p counter element => exact .inl (expectBlock_ended error)

theorem inExpr_ended {head : Head} (error : r.inExpr head pending look t = .error program) :
    Ended t program ∨ (Now.expr head pending look).cutShort = true ∧ Blamed program := by
  unfold inExpr at error
  cases move : look.move pending t with
  | take => rw [move] at error; cases error
  | reject failure =>
    rw [move] at error
    cases error
    exact .inl (.inl ⟨failure, rfl, Look.move_tells move⟩)
  | finished e =>
    rw [move] at error
    rcases behindExpr_ended error with ended | ⟨⟨first, more, rfl⟩, blamed⟩
    · exact .inl ended
    · refine .inr ⟨?_, blamed⟩
      simp only [Now.cutShort, Look.move_finished move, Option.isSome_some]

/-- How a reading ends. -/
theorem offer_ended (error : r.offer t = .error program) :
    Ended t program ∨ r.now.cutShort = true ∧ Blamed program := by
  rcases r with ⟨outer, before, now⟩
  cases now with
  | start => exact .inl (begin_ended error)
  | expr head pending look => exact inExpr_ended error
  | more side e =>
    simp only [offer] at error
    split at error
    · rcases endList_ended error with ended | ⟨⟨first, more, rfl⟩, blamed⟩
      · exact .inl ended
      · exact .inr ⟨rfl, blamed⟩
    · exact .inl (startExpr_ended error)
  | assigning p op left =>
    simp only [offer] at error
    split at error
    · exact .inl (fail_ended rfl error)
    · exact .inl (startExpr_ended error)
  | importing p =>
    simp only [offer] at error
    split at error
    · cases error
    · cases error
    · exact .inl (fail_ended rfl error)
  | importPart p parts =>
    simp only [offer] at error
    split at error
    · cases error
    · exact .inl (begin_ended error)
  | importSlash | functionName | structName => exact .inl (expectName_ended error)
  | functionParen | structBrace => exact .inl (expectMark_ended error)
  | functionBrace | otherwise => exact .inl (expectBlock_ended error)
  | param host p name params =>
    simp only [offer] at error
    split at error
    · cases error
    · exact .inl (expectName_ended error)
  | paramEnd host p name params =>
    simp only [offer] at error
    split at error
    · cases error
    · exact .inl (expectMark_ended error)
  | members m =>
    simp only [offer] at error
    split at error
    case h_6 => exact .inl (fail_ended rfl error)
    all_goals cases error
  | returning p =>
    simp only [offer] at error
    split at error
    · exact .inl (begin_ended error)
    · exact .inl (startExpr_ended error)
  | looping p =>
    simp only [offer] at error
    split at error
    · cases error
    · exact .inl (startExpr_ended error)
  | counter p counter =>
    simp only [offer] at error
    split at error
    · cases error
    · rcases inExpr_ended error with ended | ⟨cut, -⟩
      · exact .inl ended
      · cases cut
  | counterComma | element =>
    simp only [offer] at error
    split at error
    · cases error
    · cases error
      exact .inr ⟨rfl, _, rfl, rfl⟩
  | branches p before =>
    simp only [offer] at error
    split at error
    · cases error
    · cases error
    · exact .inl (begin_ended error)

theorem advance_ended (error : r.advance t = .error program) :
    Ended t program ∨ r.now.cutShort = true ∧ Blamed program := by
  unfold advance at error
  split at error
  · cases error
  · exact offer_ended error

/-- A token other than the end of input that cannot stand where it does is blamed. -/
theorem blamed_of_advance (error : r.advance t = .error program) (more : t.lexeme ≠ .eof) :
    Blamed program := by
  rcases advance_ended error with (⟨failure, ending, f, same, tells⟩ | ⟨eof, -⟩) | ⟨-, blamed⟩
  · refine ⟨failure, ending, ?_⟩
    rw [same]
    exact tells.trans (decide_eq_false more)
  · exact absurd eof more
  · exact blamed

end Reading

end Shiba.Stepwise

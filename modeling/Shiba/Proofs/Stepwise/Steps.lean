import Shiba.Proofs.Stepwise.Verdict

/-!
# What a step leads to

A token leads to a reading that goes on or ends it (`Reading.advance_proper`).

* A reading that goes on skips newlines inside brackets only (`Now.Within`).
* A reading that ends has a fault of the text, if it has one: there is no fuel that could run out
  (`Ending.Possible`).
-/

namespace Shiba

/-- A failure that is no lack of fuel. -/
def Source.Failure.Possible (failure : Source.Failure) : Prop :=
  failure.fault ≠ .grammatical .nestingExhausted

/-- An ending that is no lack of fuel. -/
def Ending.Possible : Ending → Prop
  | .complete _ => True
  | .failed failure => failure.Possible

namespace Stepwise

/-! ## Expressions -/

/-- A mode in which newlines are skipped holds inside a bracket only, and so does the mode outside each
open bracket. -/
def Within (mode : Mode) : List Pending → Prop
  | [] => mode.multiline = false
  | .bracket outside _ :: pending => Within outside pending
  | .unary .. :: pending | .binary .. :: pending => Within mode pending

/-- The expression is read in a mode that holds where it stands. -/
def Look.Within (pending : List Pending) : Look → Prop
  | .operand mode | .name mode _ _ | .suffix mode _ | .value mode _ | .member mode _ _
  | .item mode _ | .field mode .. | .colon mode .. => Stepwise.Within mode pending

/-- What a token does to an expression leaves it in a mode that holds there, or is a fault of the text. -/
def Move.Proper : Move → Prop
  | .take pending look => look.Within pending
  | .reject failure => failure.Possible
  | .finished _ => True

variable {mode outside : Mode} {pending : List Pending} {look : Look} {e e' : Expr} {t : Token}

/-- An expression that can be over is in no bracket. -/
theorem Within.of_closed (within : Within mode pending) (closed : closed? pending e = some e') :
    mode.multiline = false := by
  induction pending generalizing e with
  | nil => exact within
  | cons frame pending ih =>
    cases frame with
    | unary | binary => exact ih within closed
    | bracket => cases closed

theorem operandMove_proper (within : Within mode pending) : (operandMove mode pending t).Proper := by
  unfold operandMove primaryMove Move.fail
  repeat' split
  all_goals first | exact within | rintro ⟨⟩

theorem itemMove_proper {b : Bracket} (within : Within outside pending) :
    (itemMove outside b pending t).Proper := by
  unfold itemMove
  split
  · exact within
  split
  · exact within
  · exact operandMove_proper within

theorem Bracket.comma?_within {b : Bracket} (within : Within outside pending)
    (comma : b.comma? outside e = some look) : look.Within pending := by
  cases b <;> cases comma <;> exact within

theorem Bracket.closing_proper (b : Bracket) (within : Within outside pending) :
    (b.closing outside e pending).Proper := by
  cases b <;> exact within

theorem Bracket.behind_proper (b : Bracket) (within : Within outside pending) :
    (b.behind outside e pending t).Proper := by
  unfold Bracket.behind
  split
  · rename_i comma
    exact comma?_within within comma
  · exact within
  · split
    · exact closing_proper _ within
    · rintro ⟨⟩

theorem valueMove_proper (within : Within mode pending) : (valueMove mode e pending t).Proper := by
  induction pending generalizing e with
  | nil =>
    simp only [valueMove]
    split
    · exact within
    · trivial
  | cons frame pending ih =>
    cases frame with
    | unary p op => exact ih within
    | binary p op left =>
      simp only [valueMove]
      split
      · split
        · exact within
        · exact ih within
      · exact ih within
    | bracket outside b =>
      simp only [valueMove]
      split
      · exact within
      · exact b.behind_proper within

theorem suffixMove_proper (within : Within mode pending) : (suffixMove mode e pending t).Proper := by
  unfold suffixMove
  split
  case h_4 => exact valueMove_proper within
  all_goals exact within

theorem Look.move_proper (within : look.Within pending) : (look.move pending t).Proper := by
  cases look with
  | operand mode => exact operandMove_proper within
  | item outside b => exact itemMove_proper within
  | name mode p n =>
    simp only [Look.move]
    split
    · exact within
    · exact suffixMove_proper within
  | suffix mode e => exact suffixMove_proper within
  | value mode e => exact valueMove_proper within
  | member mode p e =>
    simp only [Look.move]
    split
    · exact within
    · rintro ⟨⟩
  | field outside p n brace before =>
    simp only [Look.move]
    split
    · exact within
    · exact within
    · rintro ⟨⟩
  | colon outside p n brace before i =>
    simp only [Look.move]
    split
    · exact within
    · rintro ⟨⟩

/-! ## Statements -/

/-- What has been read is read in a mode that holds where it stands. -/
def Now.Within : Now → Prop
  | .expr _ pending look => look.Within pending
  | _ => True

namespace Reading

variable {r r' : Reading} {head : Head} {fault : Source.Grammatical}

/-- A step leaves a reading in a mode that holds there, or ends it without or with a fault of the text. -/
def Proper : Except Program Reading → Prop
  | .ok r => r.now.Within
  | .error program => program.ending.Possible

theorem fail_proper (place : Position) (other : fault ≠ .nestingExhausted) :
    Proper (r.fail fault place) :=
  fun same => other (Source.Fault.grammatical.inj same)

theorem startExpr_proper (within : Within mode []) : Proper (r.startExpr head mode t) := by
  have proper := operandMove_proper (t := t) within
  unfold startExpr
  split
  · rename_i same
    rw [same] at proper
    exact proper
  · rename_i same
    rw [same] at proper
    exact proper
  · rename_i same
    exact absurd same operandMove_ne_finished

theorem closeBlock_within (body : Block) (owner : Owner) : (closeBlock r body owner).now.Within := by
  cases owner with
  | function host => cases host <;> trivial
  | branch | otherwise | loop | forIn => trivial

theorem begin_proper : Proper (r.begin t) := by
  unfold begin
  split
  case h_2 =>
    split
    · trivial
    · exact fail_proper _ (by simp)
  case h_3 =>
    split
    · exact startExpr_proper rfl
    · exact closeBlock_within _ _
  case h_8 => exact rfl
  case h_13 => exact startExpr_proper rfl
  all_goals trivial

theorem endList_proper {side : Side} : Proper (r.endList e t side) := by
  cases side with
  | left before =>
    simp only [endList]
    split
    · trivial
    · split
      · exact fail_proper _ (by simp)
      · exact begin_proper
  | right => exact begin_proper

theorem expectBlock_proper {owner : Owner} : Proper (r.expectBlock owner t) := by
  unfold expectBlock
  split
  · trivial
  · exact fail_proper _ (by simp)

theorem behindExpr_proper : Proper (r.behindExpr e t head) := by
  cases head with
  | list side =>
    simp only [behindExpr]
    split
    · trivial
    · exact endList_proper
  | result p => exact begin_proper
  | condition | loop | target => exact expectBlock_proper

theorem inExpr_proper (within : look.Within pending) : Proper (r.inExpr head pending look t) := by
  have proper := Look.move_proper (t := t) within
  unfold inExpr
  split
  · rename_i same
    rw [same] at proper
    exact proper
  · rename_i same
    rw [same] at proper
    exact proper
  · exact behindExpr_proper

theorem expectName_proper {next : String → Now} (within : ∀ name, (next name).Within) :
    Proper (r.expectName next t) := by
  unfold expectName
  split
  · exact within _
  · exact fail_proper _ (by simp)

theorem expectMark_proper {mark : Punctuator} {now : Now} (within : now.Within) :
    Proper (r.expectMark mark now t) := by
  unfold expectMark
  split
  · exact within
  · exact fail_proper _ (by simp)

theorem offer_proper (within : r.now.Within) : Proper (r.offer t) := by
  rcases r with ⟨outer, before, now⟩
  cases now with
  | start => exact begin_proper
  | expr head pending look => exact inExpr_proper within
  | more side e =>
    simp only [offer]
    split
    · exact endList_proper
    · exact startExpr_proper rfl
  | assigning p op left =>
    simp only [offer]
    split
    · exact fail_proper _ (by simp)
    · exact startExpr_proper rfl
  | importPart p parts =>
    simp only [offer]
    split
    · trivial
    · exact begin_proper
  | importSlash | functionName | structName => exact expectName_proper fun _ => trivial
  | functionParen | structBrace => exact expectMark_proper trivial
  | functionBrace | otherwise => exact expectBlock_proper
  | param host p name before =>
    simp only [offer]
    split
    · trivial
    · exact expectName_proper fun _ => trivial
  | paramEnd host p name params =>
    simp only [offer]
    split
    · trivial
    · exact expectMark_proper trivial
  | returning p =>
    simp only [offer]
    split
    · exact begin_proper
    · exact startExpr_proper rfl
  | looping p =>
    simp only [offer]
    split
    · trivial
    · exact startExpr_proper rfl
  | counter p counter =>
    simp only [offer]
    split
    · trivial
    · exact inExpr_proper rfl
  | element =>
    simp only [offer]
    split
    · exact rfl
    · exact fail_proper _ (by simp)
  | branches p before =>
    simp only [offer]
    split
    · exact rfl
    · trivial
    · exact begin_proper
  | importing | members | counterComma =>
    simp only [offer]
    split <;> first | trivial | exact fail_proper _ (by simp)

theorem advance_proper (within : r.now.Within) (t : Token) : Proper (r.advance t) := by
  unfold advance
  split
  · exact within
  · exact offer_proper within

/-- Newlines are skipped inside brackets only, whatever has been read. -/
theorem reads_within {list : List Token} (within : r.now.Within) (reads : r.reads list = .ok r') :
    r'.now.Within := by
  induction list generalizing r with
  | nil =>
    cases reads
    exact within
  | cons t list ih =>
    have proper := advance_proper within t
    rw [Reading.reads] at reads
    cases step : r.advance t with
    | error program =>
      rw [step] at reads
      cases reads
    | ok next =>
      rw [step] at reads proper
      exact ih proper reads

/-- A sequence of tokens makes no program that ends for lack of fuel. -/
theorem run_possible {ts : Tokens} (within : r.now.Within) (possible : ts.ending.Possible) :
    (r.run ts).ending.Possible := by
  rcases ts with ⟨list, ending⟩
  induction list generalizing r with
  | nil =>
    cases ending with
    | failed failure => exact possible
    | complete place =>
      have proper := advance_proper within ⟨.eof, place⟩
      simp only [run, run.runFrom]
      cases step : r.advance ⟨.eof, place⟩ with
      | ok next => trivial
      | error program =>
        rw [step] at proper
        exact proper
  | cons t list ih =>
    have proper := advance_proper within t
    simp only [run, run.runFrom]
    cases step : r.advance t with
    | ok next =>
      rw [step] at proper
      exact ih proper possible
    | error program =>
      rw [step] at proper
      exact proper

end Reading

end Stepwise

end Shiba
